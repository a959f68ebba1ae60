import QLog.Foundations.Vlq

/-!
# UTF-mixed text

`utf16_to_utf_mixed` writes the ASCII characters at the start of a UTF-16 text as single bytes, and
what follows them, behind a mark, as it is. The text can be recovered (`unmix_mix`).

A compressed argument has the length of its text in front, in a place whose size is estimated before
the text is encoded. When the estimate was a byte too long, a zero follows the length, and nothing says
so; `takeText` finds out, since at most one of the two readings is a text of that estimate
(`takeText_padded`).
-/

namespace QLog.Appender

open Vlq

/-- The mark between ASCII and UTF-16. -/
def utfMixedMark : UInt8 := 0xFF

/-- `utf16_to_utf_mixed`, for the bytes of the characters. -/
def utf16ToUtfMixed : List UInt8 → List UInt8
  | lo :: hi :: rest =>
    if hi = 0 ∧ lo ≤ 0x7F then lo :: utf16ToUtfMixed rest else utfMixedMark :: lo :: hi :: rest
  | _ => []

/-- The UTF-16 text of a UTF-mixed one. -/
def unmix : List UInt8 → Option (List UInt8)
  | [] => some []
  | b :: bs =>
    if b = utfMixedMark then if bs.length % 2 = 0 ∧ bs ≠ [] then some bs else none
    else if b ≤ 0x7F then (unmix bs).map fun text => b :: 0 :: text
    else none

/-- `max_utf8_str_len`, computed in 32 bits. -/
def maxUtf8StrLen (strLen : ℕ) : ℕ := strLen * 3 % 2 ^ 32 / 2 + 1

/-- What stands between the length of a text and the text. -/
def placeholder (strLen mixedLen : ℕ) : List UInt8 :=
  if encodeLength mixedLen + 1 = encodeLength (maxUtf8StrLen strLen) then [0] else []

/-- A text of `n` bytes whose estimated length takes so many bytes. -/
def textOf (n estimate : ℕ) (bs : List UInt8) : Option (List UInt8) :=
  if n ≤ bs.length then
    (unmix (bs.take n)).filter fun text => encodeLength (maxUtf8StrLen text.length) = estimate
  else none

/-- Read a text of `n` bytes behind its length, with a placeholder or without. -/
def takeText (n : ℕ) (bs : List UInt8) : Option (List UInt8 × List UInt8) :=
  match textOf n (encodeLength n) bs with
  | some text => some (text, bs.drop n)
  | none =>
    match bs with
    | b :: bs => if b = 0 then (textOf n (encodeLength n + 1) bs).map (·, bs.drop n) else none
    | [] => none

/-! ## Mixing and back -/

variable {text : List UInt8}

theorem unmix_mark (bs : List UInt8) : unmix (utfMixedMark :: bs) =
    if bs.length % 2 = 0 ∧ bs ≠ [] then some bs else none := if_pos rfl

theorem unmix_ascii {b : UInt8} (hb : b ≤ 0x7F) (bs : List UInt8) :
    unmix (b :: bs) = (unmix bs).map fun text => b :: 0 :: text := by
  rw [unmix, if_neg, if_pos hb]
  rintro rfl
  exact absurd hb (by decide)

/-- **The text is recovered.** -/
theorem unmix_mix (h : text.length % 2 = 0) : unmix (utf16ToUtfMixed text) = some text := by
  induction text using utf16ToUtfMixed.induct with
  | case1 lo hi rest hascii ih =>
    rw [List.length_cons, List.length_cons] at h
    rw [utf16ToUtfMixed, if_pos hascii, unmix_ascii hascii.2, ih (by omega), hascii.1]
    rfl
  | case2 lo hi rest hascii =>
    rw [utf16ToUtfMixed, if_neg hascii, unmix_mark, if_pos ⟨h, by simp⟩]
  | case3 bs hbs =>
    cases bs with
    | nil => rfl
    | cons b bs =>
      cases bs with
      | nil => simp at h
      | cons c bs => exact absurd rfl (hbs b c bs)

/-- The lengths: a character takes one byte before the mark, and two behind it. -/
theorem length_mix (h : text.length % 2 = 0) :
    text.length / 2 ≤ (utf16ToUtfMixed text).length ∧
      (utf16ToUtfMixed text).length ≤ text.length + (if text = [] then 0 else 1) := by
  induction text using utf16ToUtfMixed.induct with
  | case1 lo hi rest hascii ih =>
    rw [List.length_cons, List.length_cons] at h
    have := ih (by omega)
    rw [utf16ToUtfMixed, if_pos hascii, List.length_cons, List.length_cons, List.length_cons,
      if_neg (by simp)]
    split at this <;> omega
  | case2 lo hi rest hascii =>
    rw [utf16ToUtfMixed, if_neg hascii, if_neg (by simp)]
    simp only [List.length_cons]
    omega
  | case3 bs hbs =>
    cases bs with
    | nil => exact ⟨le_rfl, le_rfl⟩
    | cons b bs =>
      cases bs with
      | nil => simp at h
      | cons c bs => exact absurd rfl (hbs b c bs)

/-- A mixed text never takes more than the estimate. -/
theorem length_mix_le (h : text.length % 2 = 0) (h32 : text.length * 3 < 2 ^ 32) :
    (utf16ToUtfMixed text).length ≤ maxUtf8StrLen text.length ∧
      maxUtf8StrLen text.length < 128 * ((utf16ToUtfMixed text).length + 1) := by
  obtain ⟨hlow, hhigh⟩ := length_mix h
  rw [maxUtf8StrLen, Nat.mod_eq_of_lt h32]
  split at hhigh
  · rename_i hnil
    rw [hnil, List.length_nil] at *
    omega
  · rename_i hne
    have hpos : 0 < text.length := List.length_pos_iff.2 hne
    omega

/-- The estimate takes as many bytes as the length, or one more. -/
theorem encodeLength_estimate (h : text.length % 2 = 0) (h32 : text.length * 3 < 2 ^ 32) :
    encodeLength (maxUtf8StrLen text.length) = encodeLength (utf16ToUtfMixed text).length ∨
      encodeLength (maxUtf8StrLen text.length) = encodeLength (utf16ToUtfMixed text).length + 1 := by
  obtain ⟨hle, hlt⟩ := length_mix_le h h32
  have h1 := encodeLength_mono hle
  have h2 := encodeLength_le_succ hlt
  omega

/-! ## The placeholder -/

/-- A text that is all ASCII, or one with a mark and whole characters behind it. -/
theorem mix_cases (h : text.length % 2 = 0) :
    (text.length = 2 * (utf16ToUtfMixed text).length ∧ ∀ b ∈ utf16ToUtfMixed text, b ≤ 0x7F) ∨
      ∃ ascii tail, utf16ToUtfMixed text = ascii ++ utfMixedMark :: tail ∧ (∀ b ∈ ascii, b ≤ 0x7F) ∧
        tail.length % 2 = 0 ∧ tail ≠ [] := by
  induction text using utf16ToUtfMixed.induct with
  | case1 lo hi rest hascii ih =>
    rw [List.length_cons, List.length_cons] at h
    rw [utf16ToUtfMixed, if_pos hascii]
    rcases ih (by omega) with ⟨hlen, hall⟩ | ⟨ascii, tail, heq, hall, htail⟩
    · refine .inl ⟨?_, List.forall_mem_cons.2 ⟨hascii.2, hall⟩⟩
      rw [List.length_cons, List.length_cons, List.length_cons]
      omega
    · exact .inr ⟨lo :: ascii, tail, by rw [heq]; rfl, List.forall_mem_cons.2 ⟨hascii.2, hall⟩, htail⟩
  | case2 lo hi rest hascii =>
    rw [utf16ToUtfMixed, if_neg hascii]
    exact .inr ⟨[], lo :: hi :: rest, rfl, fun b hb => absurd hb List.not_mem_nil, h, by simp⟩
  | case3 bs hbs =>
    cases bs with
    | nil => exact .inl ⟨rfl, fun b hb => absurd hb List.not_mem_nil⟩
    | cons b bs =>
      cases bs with
      | nil => simp at h
      | cons c bs => exact absurd rfl (hbs b c bs)

theorem unmix_all_ascii {bs : List UInt8} (h : ∀ b ∈ bs, b ≤ 0x7F) :
    ∃ t, unmix bs = some t ∧ t.length = 2 * bs.length := by
  induction bs with
  | nil => exact ⟨[], rfl, rfl⟩
  | cons b bs ih =>
    obtain ⟨hb, hbs⟩ := List.forall_mem_cons.1 h
    obtain ⟨t, ht, hlen⟩ := ih hbs
    refine ⟨b :: 0 :: t, by rw [unmix_ascii hb, ht]; rfl, ?_⟩
    rw [List.length_cons, List.length_cons, List.length_cons]
    omega

theorem unmix_odd {ascii tail : List UInt8} (h : ∀ b ∈ ascii, b ≤ 0x7F) (hodd : tail.length % 2 = 1) :
    unmix (ascii ++ utfMixedMark :: tail) = none := by
  induction ascii with
  | nil => rw [List.nil_append, unmix_mark, if_neg (by omega)]
  | cons b bs ih =>
    obtain ⟨hb, hbs⟩ := List.forall_mem_cons.1 h
    rw [List.cons_append, unmix_ascii hb, ih hbs]
    rfl

theorem textOf_mix (h : text.length % 2 = 0) (rest : List UInt8) {estimate : ℕ}
    (he : encodeLength (maxUtf8StrLen text.length) = estimate) :
    textOf (utf16ToUtfMixed text).length estimate (utf16ToUtfMixed text ++ rest) = some text := by
  rw [textOf, if_pos (by rw [List.length_append]; omega), List.take_left' rfl, unmix_mix h,
    Option.filter_some, if_pos (by simpa using he)]

/-- **The other reading is no text**: behind a placeholder, the bytes from the placeholder on are none of
the estimate that goes without. -/
theorem textOf_placeholder (h : text.length % 2 = 0) (rest : List UInt8)
    (he : encodeLength (maxUtf8StrLen text.length) = encodeLength (utf16ToUtfMixed text).length + 1) :
    textOf (utf16ToUtfMixed text).length (encodeLength (utf16ToUtfMixed text).length)
      (0 :: (utf16ToUtfMixed text ++ rest)) = none := by
  have hne : utf16ToUtfMixed text ≠ [] := by
    intro hnil
    have hlow := (length_mix h).1
    rw [hnil, List.length_nil] at hlow he
    have hlen : text.length = 0 := by omega
    rw [hlen] at he
    revert he
    decide
  obtain ⟨mixed, last, hsplit⟩ : ∃ mixed last, utf16ToUtfMixed text = mixed ++ [last] :=
    ⟨_, _, (List.dropLast_append_getLast hne).symm⟩
  have hlen : (utf16ToUtfMixed text).length = mixed.length + 1 := by
    rw [hsplit, List.length_append, List.length_singleton]
  have htake : (0 :: (utf16ToUtfMixed text ++ rest)).take (utf16ToUtfMixed text).length =
      0 :: mixed := by
    rw [hlen, List.take_succ_cons, hsplit, List.append_assoc, List.take_left' rfl]
  rw [textOf, if_pos (by rw [List.length_cons, List.length_append]; omega), htake,
    unmix_ascii (by decide)]
  rcases mix_cases h with ⟨hdouble, hall⟩ | ⟨ascii, tail, heq, hall, heven, htail⟩
  · -- the text without its last character and with a zero in front is as long as the text
    obtain ⟨t, ht, htlen⟩ := unmix_all_ascii
      (show ∀ b ∈ mixed, b ≤ 0x7F from fun b hb => hall b (by rw [hsplit]; simp [hb]))
    rw [ht, Option.map_some, Option.filter_some, if_neg]
    have hsame : (0 :: 0 :: t).length = text.length := by
      rw [List.length_cons, List.length_cons]
      omega
    rw [hsame, he]
    simp
  · -- the last byte is missing behind the mark
    obtain ⟨tail', b, rfl⟩ : ∃ tail' b, tail = tail' ++ [b] :=
      ⟨_, _, (List.dropLast_append_getLast htail).symm⟩
    have hmixed : mixed = ascii ++ utfMixedMark :: tail' := by
      have hboth : mixed ++ [last] = (ascii ++ utfMixedMark :: tail') ++ [b] := by
        rw [← hsplit, heq, List.append_assoc]
        rfl
      exact (List.append_inj' hboth rfl).1
    rw [List.length_append, List.length_singleton] at heven
    rw [hmixed, unmix_odd hall (by omega)]
    rfl

/-- **A text is read back**, with the placeholder that was written or without. -/
theorem takeText_padded (h : text.length % 2 = 0) (h32 : text.length * 3 < 2 ^ 32)
    (rest : List UInt8) :
    takeText (utf16ToUtfMixed text).length
      (placeholder text.length (utf16ToUtfMixed text).length ++ (utf16ToUtfMixed text ++ rest)) =
        some (text, rest) := by
  rcases encodeLength_estimate h h32 with he | he
  · rw [placeholder, if_neg (by omega), List.nil_append]
    unfold takeText
    rw [textOf_mix h rest he]
    simp only
    rw [List.drop_left' rfl]
  · rw [placeholder, if_pos he.symm, List.singleton_append]
    unfold takeText
    rw [textOf_placeholder h rest he]
    simp only
    rw [if_pos trivial, textOf_mix h rest he, Option.map_some, List.drop_left' rfl]

end QLog.Appender
