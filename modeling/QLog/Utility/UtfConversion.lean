import QLog.Layout.Content

/-!
# UTF-16 and UTF-8

`utf16_to_utf8_sw` leaves out the surrogates that have no partner, and writes the characters of what remains
(`utf16ToUtf8Sw_valid`). `utf8_to_utf16_sw` reads these back: the units of a text without such surrogates
(`utf8ToUtf16Sw_utf16ToUtf8Sw`).
-/

namespace QLog.Utf

open Layout (utf16ToUtf8Sw)

/-- `utf8_to_utf16_sw`, on the bytes that it reads. Reading behind them has no result. -/
def utf8ToUtf16Sw : List UInt8 → Option (List ℕ)
  | [] => some []
  | c :: s =>
    let c := c.toNat
    if c < 0x80 then (utf8ToUtf16Sw s).map (c :: ·)
    else if c &&& 0xE0 = 0xC0 then
      match s with
      | s0 :: s => (utf8ToUtf16Sw s).map (((c &&& 0x1F) <<< 6 ||| s0.toNat &&& 0x3F) :: ·)
      | _ => none
    else if c &&& 0xF0 = 0xE0 then
      match s with
      | s0 :: s1 :: s =>
        (utf8ToUtf16Sw s).map
          (((c &&& 0x0F) <<< 12 ||| ((s0.toNat &&& 0x3F) <<< 6 ||| s1.toNat &&& 0x3F)) :: ·)
      | _ => none
    else
      match s with
      | s0 :: s1 :: s2 :: s =>
        let cp := (c &&& 0x07) <<< 18 ||| (s0.toNat &&& 0x3F) <<< 12 ||| (s1.toNat &&& 0x3F) <<< 6 |||
          s2.toNat &&& 0x3F
        let cp := sub32 cp 0x10000
        (utf8ToUtf16Sw s).map fun us =>
          ((cp >>> 10 + 0xD800) % 2 ^ 16) :: (((cp &&& 0x3FF) + 0xDC00) % 2 ^ 16) :: us
      | _ => none

/-! ## Texts of units -/

/-- A unit that stands for itself. -/
def Single (c : ℕ) : Prop := c < 0xD800 ∨ 0xDFFF < c ∧ c < 2 ^ 16

/-- The first unit of a pair. -/
def High (c : ℕ) : Prop := 0xD800 ≤ c ∧ c ≤ 0xDBFF

/-- The second unit of a pair. -/
def Low (c : ℕ) : Prop := 0xDC00 ≤ c ∧ c ≤ 0xDFFF

/-- The texts whose surrogates are paired. -/
inductive WellFormed : List ℕ → Prop
  | nil : WellFormed []
  | single {c : ℕ} {us : List ℕ} (hc : Single c) (hus : WellFormed us) : WellFormed (c :: us)
  | pair {c c2 : ℕ} {us : List ℕ} (hc : High c) (hc2 : Low c2) (hus : WellFormed us) : WellFormed (c :: c2 :: us)

/-- The scalar value of a pair. -/
def codepoint (c c2 : ℕ) : ℕ := 0x10000 + (c - 0xD800) * 0x400 + (c2 - 0xDC00)

theorem codepoint_range {c c2 : ℕ} (h : High c) (h2 : Low c2) :
    0x10000 ≤ codepoint c c2 ∧ codepoint c c2 < 0x110000 := by
  unfold High at h
  unfold Low at h2
  unfold codepoint
  omega

/-! ## Bytes of a character -/

theorem and_0x3F (x : ℕ) : x &&& 0x3F = x % 64 := Nat.and_two_pow_sub_one_eq_mod x 6

/-- The bits of two parts side by side. -/
theorem shiftLeft_or {a b k : ℕ} (h : b < 2 ^ k) : a <<< k ||| b = a * 2 ^ k + b := by
  rw [← Nat.shiftLeft_add_eq_or_of_lt h, Nat.shiftLeft_eq]

/-- A byte behind the first one. -/
theorem or_0x80 (x : ℕ) : 0x80 ||| x &&& 0x3F = x % 64 + 0x80 := by
  have h := @shiftLeft_or 1 (x % 64) 7 (by omega)
  rw [and_0x3F, show (0x80 : ℕ) = 1 <<< 7 from rfl, h]
  omega

theorem or_0xC0 {x : ℕ} (h : x < 32) : 0xC0 ||| x = x + 0xC0 := by
  have h' := @shiftLeft_or 3 x 6 (by omega)
  rw [show (0xC0 : ℕ) = 3 <<< 6 from rfl, h']
  omega

theorem or_0xE0 {x : ℕ} (h : x < 16) : 0xE0 ||| x = x + 0xE0 := by
  have h' := @shiftLeft_or 7 x 5 (by omega)
  rw [show (0xE0 : ℕ) = 7 <<< 5 from rfl, h']
  omega

theorem or_0xF0 {x : ℕ} (h : x < 8) : 0xF0 ||| x = x + 0xF0 := by
  have h' := @shiftLeft_or 15 x 4 (by omega)
  rw [show (0xF0 : ℕ) = 15 <<< 4 from rfl, h']
  omega

/-- The bytes of a scalar value. -/
def encode (v : ℕ) : List UInt8 :=
  if v < 0x80 then [UInt8.ofNat v]
  else if v < 0x800 then [UInt8.ofNat (v / 64 + 0xC0), UInt8.ofNat (v % 64 + 0x80)]
  else if v < 0x10000 then
    [UInt8.ofNat (v / 4096 + 0xE0), UInt8.ofNat (v / 64 % 64 + 0x80), UInt8.ofNat (v % 64 + 0x80)]
  else
    [UInt8.ofNat (v / 262144 + 0xF0), UInt8.ofNat (v / 4096 % 64 + 0x80), UInt8.ofNat (v / 64 % 64 + 0x80),
      UInt8.ofNat (v % 64 + 0x80)]

/-- The bytes of a value of more than 16 bits. -/
theorem encode_four {v : ℕ} (h : 0x10000 ≤ v ∧ v < 0x110000) :
    encode v = [UInt8.ofNat (0xF0 ||| v >>> 18), UInt8.ofNat (0x80 ||| v >>> 12 &&& 0x3F),
      UInt8.ofNat (0x80 ||| v >>> 6 &&& 0x3F), UInt8.ofNat (0x80 ||| v &&& 0x3F)] := by
  rw [encode, if_neg (by omega), if_neg (by omega), if_neg (by omega), or_0x80, or_0x80, or_0x80,
    Nat.shiftRight_eq_div_pow, Nat.shiftRight_eq_div_pow, Nat.shiftRight_eq_div_pow,
    or_0xF0 (show v / 2 ^ 18 < 8 by omega)]
  rfl

theorem length_encode_le (v : ℕ) : (encode v).length ≤ 4 ∧ (v < 0x10000 → (encode v).length ≤ 3) := by
  unfold encode
  split_ifs
  all_goals
    simp
    try omega

/-- They are those of the character. -/
theorem encode_toNat (c : Char) : encode c.toNat = String.utf8EncodeChar c := by
  have hle : c.toNat < 0x110000 := c.valid.elim (fun h => h.trans (by norm_num)) And.right
  unfold encode String.utf8EncodeChar
  rw [show c.val.toNat = c.toNat from rfl]
  dsimp only
  by_cases h1 : c.toNat < 0x80
  · rw [if_pos h1, if_pos (by omega)]
  · by_cases h2 : c.toNat < 0x800
    · rw [if_neg h1, if_pos h2, if_neg (by omega), if_pos (by omega),
        @Nat.mod_eq_of_lt (c.toNat / 64) _ (by omega)]
    · by_cases h3 : c.toNat < 0x10000
      · rw [if_neg h1, if_neg h2, if_pos h3, if_neg (by omega), if_neg (by omega), if_pos (by omega),
          @Nat.mod_eq_of_lt (c.toNat / 4096) _ (by omega)]
      · rw [if_neg h1, if_neg h2, if_neg h3, if_neg (by omega), if_neg (by omega), if_neg (by omega),
          @Nat.mod_eq_of_lt (c.toNat / 262144) _ (by omega)]

/-- A scalar value is one of a character. -/
theorem exists_char {v : ℕ} (h : Single v ∨ 0x10000 ≤ v ∧ v < 0x110000) : ∃ c : Char, c.toNat = v := by
  have hvalid : v.isValidChar := by
    simp only [Single] at h
    unfold Nat.isValidChar
    omega
  exact ⟨Char.ofNatAux v hvalid, by simp [Char.toNat, Char.ofNatAux]⟩

/-! ## Writing -/

section Writing

variable {c c2 : ℕ} {us : List ℕ}

/-- A unit that stands for itself is written as a character. -/
theorem utf16ToUtf8Sw_single (h : Single c) (us : List ℕ) : utf16ToUtf8Sw (c :: us) = encode c ++ utf16ToUtf8Sw us := by
  simp only [Single] at h
  rw [Layout.utf16ToUtf8Sw.eq_def, encode]
  simp only
  by_cases h1 : c < 0x80
  · rw [if_pos h1, if_pos h1]
    rfl
  · by_cases h2 : c < 0x800
    · rw [if_neg h1, if_pos h2, if_neg h1, if_pos h2, or_0x80, Nat.shiftRight_eq_div_pow,
        or_0xC0 (show c / 2 ^ 6 < 32 by omega)]
      rfl
    · rw [if_neg h1, if_neg h2, if_neg (by omega), if_neg h1, if_neg h2, if_pos (by omega), or_0x80, or_0x80,
        Nat.shiftRight_eq_div_pow, Nat.shiftRight_eq_div_pow, or_0xE0 (show c / 2 ^ 12 < 16 by omega)]
      rfl

/-- A pair is written as a character. -/
theorem utf16ToUtf8Sw_pair (h : High c) (h2 : Low c2) (us : List ℕ) :
    utf16ToUtf8Sw (c :: c2 :: us) = encode (codepoint c c2) ++ utf16ToUtf8Sw us := by
  obtain ⟨hlo, hhi⟩ := h
  obtain ⟨hlo2, hhi2⟩ := h2
  have hvalue : ((c &&& 0x3FF) <<< 10 ||| c2 &&& 0x3FF) + 0x10000 = codepoint c c2 := by
    have hjoin := @shiftLeft_or (c % 2 ^ 10) (c2 % 2 ^ 10) 10 (by omega)
    unfold codepoint
    rw [Nat.and_two_pow_sub_one_eq_mod c 10, Nat.and_two_pow_sub_one_eq_mod c2 10]
    omega
  rw [Layout.utf16ToUtf8Sw.eq_def]
  simp only
  rw [if_neg (by omega), if_neg (by omega), if_pos ⟨hlo, by omega⟩, if_neg (by omega), if_pos ⟨hlo2, hhi2⟩, hvalue]
  rw [encode_four (codepoint_range ⟨hlo, hhi⟩ ⟨hlo2, hhi2⟩)]
  rfl

/-- A surrogate without a partner is left out. -/
theorem utf16ToUtf8Sw_lone (h : Low c ∨ High c ∧ ∀ c2, us.head? = some c2 → ¬Low c2) :
    utf16ToUtf8Sw (c :: us) = utf16ToUtf8Sw us := by
  simp only [High, Low] at h
  rw [Layout.utf16ToUtf8Sw.eq_def]
  simp only
  rw [if_neg (by omega), if_neg (by omega), if_pos (by omega)]
  rcases h with h | ⟨hhigh, hnext⟩
  · rw [if_pos h.1]
  · rw [if_neg (by omega)]
    cases us with
    | nil => rw [utf16ToUtf8Sw]
    | cons c2 us =>
      simp only
      rw [if_neg (hnext c2 rfl)]

/-- Units that are ASCII are written as they are. -/
theorem utf16ToUtf8Sw_ascii {xs : List ℕ} (h : ∀ x ∈ xs, x < 0x80) (us : List ℕ) :
    utf16ToUtf8Sw (xs ++ us) = xs.map UInt8.ofNat ++ utf16ToUtf8Sw us := by
  induction xs with
  | nil => rfl
  | cons x xs ih =>
    obtain ⟨hx, hxs⟩ := List.forall_mem_cons.1 h
    rw [List.cons_append, Layout.utf16ToUtf8Sw.eq_def]
    simp only
    rw [if_pos hx, ih hxs]
    rfl

/-- A text is empty, or begins with one of these. -/
theorem units_cases {P : List ℕ → Prop} (nil : P [])
    (single : ∀ c us, Single c → P us → P (c :: us)) (pair : ∀ c c2 us, High c → Low c2 → P us → P (c :: c2 :: us))
    (lone : ∀ c us, Low c ∨ High c ∧ (∀ c2, us.head? = some c2 → ¬Low c2) → P us → P (c :: us)) :
    ∀ us : List ℕ, (∀ u ∈ us, u < 2 ^ 16) → P us
  | [], _ => nil
  | c :: us, h => by
    obtain ⟨hc, hus⟩ := List.forall_mem_cons.1 h
    have hrest := units_cases nil single pair lone us hus
    by_cases hsingle : Single c
    · exact single c us hsingle hrest
    · simp only [Single, not_or] at hsingle
      by_cases hlow : Low c
      · exact lone c us (.inl hlow) hrest
      · have hhigh : High c := by
          simp only [High, Low] at hlow ⊢
          omega
        cases us with
        | nil => exact lone c [] (.inr ⟨hhigh, nofun⟩) hrest
        | cons c2 us =>
          by_cases hlow2 : Low c2
          · exact pair c c2 us hhigh hlow2
              (units_cases nil single pair lone us fun u hu => hus u (List.mem_cons_of_mem _ hu))
          · exact lone c (c2 :: us) (.inr ⟨hhigh, fun _ h => by cases h; exact hlow2⟩) hrest

/-- **What is written are characters, of three bytes at most for a unit.** -/
theorem utf16ToUtf8Sw_valid (us : List ℕ) (h : ∀ u ∈ us, u < 2 ^ 16) :
    (∃ cs : List Char, utf16ToUtf8Sw us = cs.flatMap String.utf8EncodeChar) ∧
      (utf16ToUtf8Sw us).length ≤ 3 * us.length := by
  refine units_cases (P := fun us => (∃ cs : List Char, utf16ToUtf8Sw us = cs.flatMap String.utf8EncodeChar) ∧
    (utf16ToUtf8Sw us).length ≤ 3 * us.length) ⟨⟨[], rfl⟩, Nat.zero_le _⟩ (fun c us hc => ?_) (fun c c2 us hc hc2 => ?_)
    (fun c us hc => ?_) us h
  · intro hus
    obtain ⟨⟨cs, hcs⟩, hlen⟩ := hus
    obtain ⟨ch, hch⟩ := exists_char (.inl hc)
    have hle := (length_encode_le c).2 (by simp only [Single] at hc; omega)
    rw [utf16ToUtf8Sw_single hc, List.length_append, List.length_cons]
    exact ⟨⟨ch :: cs, by rw [hcs, ← hch, encode_toNat, List.flatMap_cons]⟩, by omega⟩
  · intro hus
    obtain ⟨⟨cs, hcs⟩, hlen⟩ := hus
    have hle := (length_encode_le (codepoint c c2)).1
    obtain ⟨ch, hch⟩ := exists_char (.inr (codepoint_range hc hc2))
    rw [utf16ToUtf8Sw_pair hc hc2, List.length_append, List.length_cons, List.length_cons]
    exact ⟨⟨ch :: cs, by rw [hcs, ← hch, encode_toNat, List.flatMap_cons]⟩, by omega⟩
  · intro hus
    obtain ⟨hcs, hlen⟩ := hus
    rw [utf16ToUtf8Sw_lone hc, List.length_cons]
    exact ⟨hcs, by omega⟩

end Writing

/-! ## Reading -/

section Reading

variable {a b b' b'' : ℕ} (s : List UInt8)

theorem toNat_and_0x3F (h : b < 64) : (UInt8.ofNat (b + 0x80)).toNat &&& 0x3F = b := by
  rw [UInt8.toNat_ofNat', and_0x3F]
  omega

theorem toNat_first {x : ℕ} (h : x < 256) : (UInt8.ofNat x).toNat = x := by
  rw [UInt8.toNat_ofNat', Nat.mod_eq_of_lt h]

theorem utf8ToUtf16Sw_one (h : a < 0x80) : utf8ToUtf16Sw (UInt8.ofNat a :: s) = (utf8ToUtf16Sw s).map (a :: ·) := by
  rw [utf8ToUtf16Sw.eq_def]
  simp only [toNat_first (show a < 256 by omega), if_pos h]

theorem first_two : ∀ a < 32, ¬ a + 0xC0 < 0x80 ∧ a + 0xC0 &&& 0xE0 = 0xC0 ∧ a + 0xC0 &&& 0x1F = a := by decide

theorem utf8ToUtf16Sw_two (ha : a < 32) (hb : b < 64) :
    utf8ToUtf16Sw (UInt8.ofNat (a + 0xC0) :: UInt8.ofNat (b + 0x80) :: s) =
      (utf8ToUtf16Sw s).map ((a * 64 + b) :: ·) := by
  obtain ⟨h1, h2, h3⟩ := first_two a ha
  rw [utf8ToUtf16Sw.eq_def]
  simp only [toNat_first (show a + 0xC0 < 256 by omega), if_neg h1, if_pos h2, h3, toNat_and_0x3F hb,
    shiftLeft_or (show b < 2 ^ 6 from hb), Nat.reducePow]

theorem first_three : ∀ a < 16, ¬ a + 0xE0 < 0x80 ∧ a + 0xE0 &&& 0xE0 ≠ 0xC0 ∧ a + 0xE0 &&& 0xF0 = 0xE0 ∧
    a + 0xE0 &&& 0x0F = a := by decide

theorem utf8ToUtf16Sw_three (ha : a < 16) (hb : b < 64) (hb' : b' < 64) :
    utf8ToUtf16Sw (UInt8.ofNat (a + 0xE0) :: UInt8.ofNat (b + 0x80) :: UInt8.ofNat (b' + 0x80) :: s) =
      (utf8ToUtf16Sw s).map ((a * 4096 + (b * 64 + b')) :: ·) := by
  obtain ⟨h1, h2, h3, h4⟩ := first_three a ha
  have hunit : a <<< 12 ||| (b <<< 6 ||| b') = a * 4096 + (b * 64 + b') := by
    rw [shiftLeft_or (show b' < 2 ^ 6 from hb'), shiftLeft_or (show b * 2 ^ 6 + b' < 2 ^ 12 by omega)]
    norm_num
  rw [utf8ToUtf16Sw.eq_def]
  simp only [toNat_first (show a + 0xE0 < 256 by omega), if_neg h1, if_neg h2, if_pos h3, h4, toNat_and_0x3F hb,
    toNat_and_0x3F hb', hunit]

/-- The bits of four parts side by side. -/
theorem join_four (a : ℕ) (hb : b < 64) (hb' : b' < 64) (hb'' : b'' < 64) :
    a <<< 18 ||| b <<< 12 ||| b' <<< 6 ||| b'' = a * 262144 + (b * 4096 + (b' * 64 + b'')) := by
  have h12 : b' * 2 ^ 6 + b'' < 2 ^ 12 := by omega
  have h18 : b * 2 ^ 12 + (b' * 2 ^ 6 + b'') < 2 ^ 18 := by omega
  rw [Nat.or_assoc, Nat.or_assoc, shiftLeft_or (show b'' < 2 ^ 6 from hb''), shiftLeft_or h12, shiftLeft_or h18]
  norm_num

theorem first_four : ∀ a < 5, ¬ a + 0xF0 < 0x80 ∧ a + 0xF0 &&& 0xE0 ≠ 0xC0 ∧ a + 0xF0 &&& 0xF0 ≠ 0xE0 ∧
    a + 0xF0 &&& 0x07 = a := by decide

theorem utf8ToUtf16Sw_four (ha : a < 5) (hb : b < 64) (hb' : b' < 64) (hb'' : b'' < 64)
    (hlow : 0x10000 ≤ a * 262144 + (b * 4096 + (b' * 64 + b'')))
    (hhigh : a * 262144 + (b * 4096 + (b' * 64 + b'')) < 0x110000) :
    utf8ToUtf16Sw (UInt8.ofNat (a + 0xF0) :: UInt8.ofNat (b + 0x80) :: UInt8.ofNat (b' + 0x80) ::
        UInt8.ofNat (b'' + 0x80) :: s) =
      (utf8ToUtf16Sw s).map fun us =>
        ((a * 262144 + (b * 4096 + (b' * 64 + b'')) - 0x10000) / 1024 + 0xD800) ::
          ((a * 262144 + (b * 4096 + (b' * 64 + b'')) - 0x10000) % 1024 + 0xDC00) :: us := by
  obtain ⟨h1, h2, h3, h4⟩ := first_four a ha
  have hcp := join_four a hb hb' hb''
  have hsub : sub32 (a * 262144 + (b * 4096 + (b' * 64 + b''))) 0x10000 =
      a * 262144 + (b * 4096 + (b' * 64 + b'')) - 0x10000 := by
    unfold sub32
    omega
  rw [utf8ToUtf16Sw.eq_def]
  simp only [toNat_first (show a + 0xF0 < 256 by omega), if_neg h1, if_neg h2, if_neg h3, h4, toNat_and_0x3F hb,
    toNat_and_0x3F hb', toNat_and_0x3F hb'', hcp, hsub, Nat.shiftRight_eq_div_pow, Nat.and_two_pow_sub_one_eq_mod _ 10]
  generalize a * 262144 + (b * 4096 + (b' * 64 + b'')) = v at hlow hhigh ⊢
  have hfirst : ((v - 0x10000) / 2 ^ 10 + 0xD800) % 2 ^ 16 = (v - 0x10000) / 1024 + 0xD800 := by omega
  have hsecond : ((v - 0x10000) % 2 ^ 10 + 0xDC00) % 2 ^ 16 = (v - 0x10000) % 1024 + 0xDC00 := by omega
  rw [hfirst, hsecond]

/-- A character of one unit is read back. -/
theorem utf8ToUtf16Sw_encode_single {c : ℕ} (h : Single c) :
    utf8ToUtf16Sw (encode c ++ s) = (utf8ToUtf16Sw s).map (c :: ·) := by
  simp only [Single] at h
  unfold encode
  split_ifs with h1 h2 h3
  · exact utf8ToUtf16Sw_one s h1
  · refine (utf8ToUtf16Sw_two s (show c / 64 < 32 by omega) (show c % 64 < 64 by omega)).trans ?_
    rw [show c / 64 * 64 + c % 64 = c by omega]
  · refine (utf8ToUtf16Sw_three s (show c / 4096 < 16 by omega) (show c / 64 % 64 < 64 by omega)
      (show c % 64 < 64 by omega)).trans ?_
    rw [show c / 4096 * 4096 + (c / 64 % 64 * 64 + c % 64) = c by omega]
  · omega

/-- A character of two units is read back. -/
theorem utf8ToUtf16Sw_encode_pair {c c2 : ℕ} (h : High c) (h2 : Low c2) :
    utf8ToUtf16Sw (encode (codepoint c c2) ++ s) = (utf8ToUtf16Sw s).map fun us => c :: c2 :: us := by
  simp only [High, Low] at h h2
  obtain ⟨v, hv⟩ : ∃ v, codepoint c c2 = v := ⟨_, rfl⟩
  have hdef := hv
  unfold codepoint at hdef
  have hjoin : v / 262144 * 262144 + (v / 4096 % 64 * 4096 + (v / 64 % 64 * 64 + v % 64)) = v := by omega
  rw [hv, encode, if_neg (by omega), if_neg (by omega), if_neg (by omega)]
  refine (utf8ToUtf16Sw_four s (show v / 262144 < 5 by omega) (show v / 4096 % 64 < 64 by omega)
    (show v / 64 % 64 < 64 by omega) (show v % 64 < 64 by omega) (by omega) (by omega)).trans ?_
  have hc : (v - 0x10000) / 1024 + 0xD800 = c := by omega
  have hc2 : (v - 0x10000) % 1024 + 0xDC00 = c2 := by omega
  simp only [hjoin, hc, hc2]

/-- **A text without lone surrogates is read back.** -/
theorem utf8ToUtf16Sw_utf16ToUtf8Sw {us : List ℕ} (h : WellFormed us) : utf8ToUtf16Sw (utf16ToUtf8Sw us) = some us := by
  induction h with
  | nil => rfl
  | single hc _ ih => rw [utf16ToUtf8Sw_single hc, utf8ToUtf16Sw_encode_single _ hc, ih, Option.map_some]
  | pair hc hc2 _ ih => rw [utf16ToUtf8Sw_pair hc hc2, utf8ToUtf16Sw_encode_pair _ hc hc2, ih, Option.map_some]

end Reading

end QLog.Utf
