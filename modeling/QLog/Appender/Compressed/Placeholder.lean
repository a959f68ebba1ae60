import QLog.Appender.Compressed.Arguments

/-!
# The placeholder rule

The repository's reader of compressed files does not know the estimate of a UTF-16 text. It takes a zero
behind a length that is not zero for the placeholder (`readString`). A text that begins with a zero byte of
its own is then read one byte late, unless a placeholder stands in front of it.

`stringBytes` is what the encoder writes for any string of a record: from 2 ^ 32 / 3 bytes on the estimate of
a UTF-16 string wraps, and the length can be written over the first bytes of the text.
-/

namespace QLog.Appender

open Record Vlq Bytes

/-- The reader's rule: skip a zero behind a length that is not zero, and take so many bytes. -/
def readString (bs : List UInt8) : Option (List UInt8 × List UInt8) :=
  (decode bs).bind fun (n, l) =>
    let bs := bs.drop l
    let bs := if n ≠ 0 ∧ bs.head? = some 0 then bs.tail else bs
    if n ≤ bs.length then some (bs.take n, bs.drop n) else none

/-- A string argument and what follows it. -/
def readStringArg : List UInt8 → Option ((ArgumentTag × List UInt8) × List UInt8)
  | [] => none
  | b :: bs =>
    if b = ArgumentTag.stringUtf8Type.toByte then
      (readString bs).map fun r => ((.stringUtf8Type, r.1), r.2)
    else if b = ArgumentTag.stringUtfMixedType.toByte then
      (readString bs).bind fun r => (unmix r.1).map fun text => ((.stringUtf16Type, text), r.2)
    else none

/-- How many bytes the length of a UTF-16 string takes more than the place that was left for it. -/
def excess (v : List UInt8) : ℕ :=
  encodeLength (utf16ToUtfMixed v).length - encodeLength (maxUtf8StrLen v.length)

/-- The bytes of a string argument: a length that does not fit is written over the text. -/
def stringBytes (arg : ArgumentTag × List UInt8) : List UInt8 :=
  match arg.1 with
  | .stringUtf16Type =>
    let mixed := utf16ToUtfMixed arg.2
    ArgumentTag.stringUtfMixedType.toByte ::
      (encode mixed.length ++ (placeholder arg.2.length mixed.length ++ mixed.drop (excess arg.2)))
  | _ => argBytes arg

/-- The text begins with no zero byte that the reader takes for a placeholder, and the length has its place:
a UTF-8 string begins with no zero byte; a UTF-16 string has a placeholder, or it begins with no U+0000 and
its length takes as many bytes as its estimate. -/
def Recoverable (arg : ArgumentTag × List UInt8) : Prop :=
  match arg.1 with
  | .stringUtf16Type =>
    let real := encodeLength (utf16ToUtfMixed arg.2).length
    let estimate := encodeLength (maxUtf8StrLen arg.2.length)
    real + 1 = estimate ∨ real = estimate ∧ arg.2.take 2 ≠ [0, 0]
  | _ => arg.2.head? ≠ some 0

/-! ## What is written -/

variable {v : List UInt8}

theorem head_mix : (utf16ToUtfMixed v).head? = some 0 ↔ v.take 2 = [0, 0] := by
  cases v with
  | nil => simp [utf16ToUtfMixed]
  | cons lo bs =>
    cases bs with
    | nil => simp [utf16ToUtfMixed]
    | cons hi rest =>
      rw [utf16ToUtfMixed]
      split
      · rename_i hascii
        simp [hascii.1]
      · rename_i hascii
        simp only [List.head?_cons, Option.some.injEq, List.take_succ_cons, List.take_zero,
          List.cons.injEq, and_true]
        refine ⟨fun h => absurd h (by decide), ?_⟩
        rintro ⟨rfl, rfl⟩
        exact absurd ⟨rfl, by decide⟩ hascii

/-- The place of a length is at most a byte too large, also when the estimate wraps. -/
theorem encodeLength_maxUtf8StrLen_le (h : v.length % 2 = 0) (hlen : v.length < 2 ^ 32) :
    encodeLength (maxUtf8StrLen v.length) ≤ encodeLength (utf16ToUtfMixed v).length + 1 := by
  rcases Nat.lt_or_ge (v.length * 3) (2 ^ 32) with h32 | h32
  · have := encodeLength_estimate h h32
    omega
  · have hle : encodeLength (maxUtf8StrLen v.length) ≤ 5 := encodeLength_le_five (by rw [maxUtf8StrLen]; omega)
    have hge : ¬encodeLength (utf16ToUtfMixed v).length ≤ 4 := by
      rw [encodeLength_le_iff (by omega) (by omega)]
      have := (length_mix h).1
      norm_num [minValueOfLength] at this ⊢
      omega
    omega

/-- A write over the first bytes of another one. -/
theorem write_over (m : Mem) (a : ℕ) {k : ℕ} {xs ys : List UInt8} (hk : k ≤ xs.length) :
    (m.write (a + k) ys).write a xs = m.write a (xs ++ ys.drop (xs.length - k)) := by
  funext x
  rcases Nat.lt_or_ge x a with hx | hx
  · rw [Mem.write_apply_of_lt _ _ hx, Mem.write_apply_of_lt _ _ (by omega), Mem.write_apply_of_lt _ _ hx]
  · obtain ⟨i, rfl⟩ := Nat.exists_eq_add_of_le hx
    rw [Mem.write, Mem.write, Mem.write, if_pos hx, if_pos hx, Nat.add_sub_cancel_left]
    rcases Nat.lt_or_ge i xs.length with hi | hi
    · rw [List.getD_append _ _ _ _ hi, List.getD_eq_getElem _ _ hi, List.getD_eq_getElem _ _ hi]
    · rw [List.getD_append_right _ _ _ _ hi, List.getD_eq_default _ _ hi, if_pos (by omega),
        List.getD_eq_getElem?_getD, List.getD_eq_getElem?_getD, List.getElem?_drop]
      congr 2
      omega

theorem excess_le (v : List UInt8) : excess v ≤ (utf16ToUtfMixed v).length := by
  have hone := (encodeLength_spec (maxUtf8StrLen v.length)).1
  obtain ⟨-, hnine, hlow, -⟩ := encodeLength_spec (utf16ToUtfMixed v).length
  have hmin := minValueOfLength_mono (j := 2) (k := encodeLength (utf16ToUtfMixed v).length)
  have htwo : minValueOfLength 2 = 128 := rfl
  unfold excess
  by_cases h : 2 ≤ encodeLength (utf16ToUtfMixed v).length
  · have := hmin h
    omega
  · omega

theorem length_stringBytes_utf16 (heven : v.length % 2 = 0) (hlen : v.length < 2 ^ 32) :
    (stringBytes (.stringUtf16Type, v)).length =
      1 + (encodeLength (maxUtf8StrLen v.length) + (utf16ToUtfMixed v).length) := by
  have hle := encodeLength_maxUtf8StrLen_le heven hlen
  have hexcess := excess_le v
  simp only [stringBytes, List.length_cons, List.length_append, length_encode, List.length_drop]
  unfold excess at *
  rw [placeholder]
  split
  · rw [List.length_singleton]
    omega
  · rw [List.length_nil]
    omega

variable {data : List UInt8} {p c : ℕ} {m : Mem}

/-- **The bytes of a UTF-16 string**, whatever its estimate. -/
theorem copyUtf16_written (b : UInt8) (hn : readLe data p 4 = some v.length)
    (h : readBytes data (p + 4) v.length = some v) (heven : v.length % 2 = 0)
    (hc : c + (stringBytes (.stringUtf16Type, v)).length < 2 ^ 32) :
    copyUtf16 data p (m.poke c b, c + 1) = some ((m.write c (stringBytes (.stringUtf16Type, v)),
      c + (stringBytes (.stringUtf16Type, v)).length), v.length) := by
  have hlen : v.length < 2 ^ 32 := readLe_lt hn
  have hle := encodeLength_maxUtf8StrLen_le heven hlen
  rw [length_stringBytes_utf16 heven hlen] at hc ⊢
  rw [copyUtf16, hn, Option.bind_some]
  simp only
  rw [Nat.mul_div_cancel' (Nat.dvd_of_mod_eq_zero heven), h, Option.map_some, Nat.add_sub_cancel,
    u32_of_lt (by omega), Nat.add_assoc c 1 (encodeLength (maxUtf8StrLen v.length) + _)]
  refine congrArg (fun m' => some ((m', c + (1 + (encodeLength (maxUtf8StrLen v.length) +
    (utf16ToUtfMixed v).length))), v.length)) ?_
  have hlength : (encode (utf16ToUtfMixed v).length).length = encodeLength (utf16ToUtfMixed v).length :=
    length_encode _
  have htag := Mem.write_append m c [ArgumentTag.stringUtfMixedType.toByte]
  rw [List.length_singleton] at htag
  have hover : (m.write c [b]).write c [ArgumentTag.stringUtfMixedType.toByte] =
      m.write c [ArgumentTag.stringUtfMixedType.toByte] := Mem.write_write_of_le m c le_rfl
  have hbytes : stringBytes (.stringUtf16Type, v) = [ArgumentTag.stringUtfMixedType.toByte] ++
      (encode (utf16ToUtfMixed v).length ++ (placeholder v.length (utf16ToUtfMixed v).length ++
        (utf16ToUtfMixed v).drop (excess v))) := rfl
  rw [hbytes, Mem.poke_eq_write m c b, Mem.poke_eq_write _ c ArgumentTag.stringUtfMixedType.toByte,
    hover, ← htag]
  generalize m.write c [ArgumentTag.stringUtfMixedType.toByte] = m'
  rcases Nat.lt_or_ge (encodeLength (utf16ToUtfMixed v).length)
    (encodeLength (maxUtf8StrLen v.length)) with he | he
  · have he : encodeLength (utf16ToUtfMixed v).length + 1 = encodeLength (maxUtf8StrLen v.length) := by
      omega
    have hnone : excess v = 0 := by
      unfold excess
      omega
    rw [placeholder, if_pos he, if_pos he, hnone, List.drop_zero, ← he, ← hlength]
    exact write_padded m' (c + 1) _ _
  · rw [placeholder, if_neg (by omega), if_neg (by omega), List.nil_append,
      write_over m' (c + 1) (by omega), hlength]
    rfl

/-- **A string argument is written as `stringBytes` says.** -/
theorem writeArg_string {args rawLen cursor step : ℕ} {tag : ArgumentTag}
    (hat : ArgAt data (args + cursor) tag step) (hs : tag.IsString)
    (hvalue : readValue data (args + cursor) tag = some v)
    (heven : tag = .stringUtf16Type → v.length % 2 = 0)
    (hc : c + step < 2 ^ 32) (hcur : cursor + step < 2 ^ 32) :
    writeArg data args rawLen (m, c) cursor = some ((m.write c (stringBytes (tag, v)),
      c + (stringBytes (tag, v)).length), cursor + step) := by
  cases hat with
  | fixed htag hstep => rcases hs with rfl | rfl <;> cases hstep
  | @string n htag _ hn =>
    have hread := hvalue
    rw [readValue_string hs hn] at hread
    have hlen := length_of_readBytes hread
    have hn32 : n < 2 ^ 32 := readLe_lt hn
    have hfive := encodeLength_le_five hn32
    have hle := le_align4 n
    rcases hs with rfl | rfl
    · have hat : ArgAt data (args + cursor) .stringUtf8Type (8 + align4 n) := .string htag (.inl rfl) hn
      refine writeArg_eq hat hvalue (by rintro ⟨⟩) ?_ hcur
      rw [argBytes_utf8, List.length_cons, List.length_append, length_encode, hlen]
      omega
    · have heven := heven rfl
      rw [← hlen] at hn hread hn32
      have hfive : encodeLength (maxUtf8StrLen v.length) ≤ 5 := encodeLength_le_five (by rw [maxUtf8StrLen]; omega)
      have hmixed := (length_mix heven).2
      have hout := length_stringBytes_utf16 heven hn32
      rw [writeArg]
      simp only
      rw [htag, Option.bind_some, ArgumentTag.ofByte?_toByte, u32_of_lt (by omega)]
      simp only
      rw [copyUtf16_written _ hn hread heven, Option.map_some, hlen, u32_of_lt hcur]
      rw [hout]
      split at hmixed <;> omega

/-! ## What is read -/

variable {n : ℕ} {bs rest t : List UInt8}

/-- Whether the reader skips a byte. -/
def Skips (n : ℕ) (bs : List UInt8) : Prop := n ≠ 0 ∧ bs.head? = some 0

instance (n : ℕ) (bs : List UInt8) : Decidable (Skips n bs) := inferInstanceAs (Decidable (_ ∧ _))

theorem readString_encode (hn : n < 2 ^ 64) (bs : List UInt8) : readString (encode n ++ bs) =
    if n ≤ (if Skips n bs then bs.tail else bs).length then
      some ((if Skips n bs then bs.tail else bs).take n, (if Skips n bs then bs.tail else bs).drop n)
    else none := by
  rw [readString, decode_encode hn, Option.bind_some]
  simp only
  rw [List.drop_left' (length_encode n)]
  rfl

/-- What the reader consumes: the length, and a byte that it skips. -/
theorem length_of_readString (hn : n < 2 ^ 64) (h : readString (encode n ++ bs) = some (t, rest)) :
    bs.length = n + rest.length + if Skips n bs then 1 else 0 := by
  have htake : ∀ ys : List UInt8,
      (if n ≤ ys.length then some (ys.take n, ys.drop n) else none) = some (t, rest) →
        ys.length = n + rest.length := by
    intro ys hys
    split at hys
    · rename_i hle
      simp only [Option.some.injEq, Prod.mk.injEq] at hys
      rw [← hys.2, List.length_drop]
      omega
    · cases hys
  rw [readString_encode hn] at h
  have hlen := htake _ h
  by_cases hskip : Skips n bs
  · rw [if_pos hskip, List.length_tail] at hlen
    have hne : bs.length ≠ 0 := by
      intro hzero
      have hnil := List.length_eq_zero_iff.1 hzero
      exact absurd hskip.2 (by simp [hnil])
    rw [if_pos hskip]
    omega
  · rw [if_neg hskip] at hlen ⊢
    exact hlen

/-- A text is read back as it stands, when it begins with no zero. -/
theorem readString_text {x : List UInt8} (hx : x.length < 2 ^ 64) (hhead : x.head? ≠ some 0)
    (rest : List UInt8) : readString (encode x.length ++ (x ++ rest)) = some (x, rest) := by
  have hskip : ¬Skips x.length (x ++ rest) := by
    rintro ⟨hne, hzero⟩
    rw [List.head?_append_of_ne_nil _ (List.ne_nil_of_length_pos (Nat.pos_of_ne_zero hne))] at hzero
    exact hhead hzero
  rw [readString_encode hx, if_neg hskip, if_pos (by rw [List.length_append]; omega),
    List.take_left' rfl, List.drop_left' rfl]

/-- Behind a placeholder a text is read back whatever it begins with. -/
theorem readString_placeholder {x : List UInt8} (hx : x.length < 2 ^ 64) (hne : x ≠ [])
    (rest : List UInt8) : readString (encode x.length ++ (0 :: x ++ rest)) = some (x, rest) := by
  have hskip : Skips x.length (0 :: x ++ rest) :=
    ⟨fun hzero => hne (List.length_eq_zero_iff.1 hzero), rfl⟩
  rw [readString_encode hx, if_pos hskip, List.cons_append, List.tail_cons,
    if_pos (by rw [List.length_append]; omega), List.take_left' rfl, List.drop_left' rfl]

/-- A text that begins with a zero is not read back, whatever follows it. -/
theorem readString_zero {x : List UInt8} (hx : x.length < 2 ^ 64) (hhead : x.head? = some 0) :
    readString (encode x.length ++ (x ++ rest)) ≠ some (t, rest) := by
  intro h
  have hlen := length_of_readString hx h
  have hne : x ≠ [] := by
    rintro rfl
    cases hhead
  have hskip : Skips x.length (x ++ rest) :=
    ⟨fun hzero => hne (List.length_eq_zero_iff.1 hzero), by rwa [List.head?_append_of_ne_nil _ hne]⟩
  rw [if_pos hskip, List.length_append] at hlen
  omega

/-- A UTF-16 string is read back exactly when it is recoverable. -/
theorem readStringArg_utf16 (heven : v.length % 2 = 0) (hlen : v.length < 2 ^ 32) (rest : List UInt8) :
    readStringArg (stringBytes (.stringUtf16Type, v) ++ rest) = some ((.stringUtf16Type, v), rest) ↔
      Recoverable (.stringUtf16Type, v) := by
  have hle := encodeLength_maxUtf8StrLen_le heven hlen
  have hexcess := excess_le v
  have hmixed : (utf16ToUtfMixed v).length < 2 ^ 64 := by
    have := (length_mix heven).2
    split at this <;> omega
  have hread : readStringArg (stringBytes (.stringUtf16Type, v) ++ rest) =
      (readString (encode (utf16ToUtfMixed v).length ++ ((placeholder v.length
        (utf16ToUtfMixed v).length ++ (utf16ToUtfMixed v).drop (excess v)) ++ rest))).bind fun r =>
          (unmix r.1).map fun text => ((.stringUtf16Type, text), r.2) := by
    rw [← List.append_assoc]
    rfl
  have hback : ((unmix (utf16ToUtfMixed v)).map fun text =>
      ((ArgumentTag.stringUtf16Type, text), rest)) = some ((.stringUtf16Type, v), rest) := by
    rw [unmix_mix heven, Option.map_some]
  have hwrong : ∀ bs, (∀ t, readString bs ≠ some (t, rest)) →
      ((readString bs).bind fun r => (unmix r.1).map fun text =>
        ((ArgumentTag.stringUtf16Type, text), r.2)) ≠ some ((.stringUtf16Type, v), rest) := by
    intro bs hbs h
    obtain ⟨⟨t, rest'⟩, hr, h⟩ := Option.bind_eq_some_iff.1 h
    simp only [Option.map_eq_some_iff, Prod.mk.injEq] at h
    obtain ⟨text, -, -, rfl⟩ := h
    exact hbs t hr
  rw [hread]
  simp only [Recoverable]
  rcases Nat.lt_trichotomy (encodeLength (utf16ToUtfMixed v).length)
    (encodeLength (maxUtf8StrLen v.length)) with he | he | he
  · -- a placeholder was written
    have he : encodeLength (utf16ToUtfMixed v).length + 1 = encodeLength (maxUtf8StrLen v.length) := by
      omega
    have hnone : excess v = 0 := by
      unfold excess
      omega
    have hne : utf16ToUtfMixed v ≠ [] := by
      intro hnil
      have hzero : v.length = 0 := by
        have := (length_mix heven).1
        rw [hnil, List.length_nil] at this
        omega
      rw [hnil, hzero] at he
      revert he
      decide
    rw [placeholder, if_pos he, hnone, List.drop_zero, List.singleton_append,
      readString_placeholder hmixed hne, Option.bind_some]
    exact iff_of_true hback (.inl he)
  · -- the length has its place
    have hnone : excess v = 0 := by
      unfold excess
      omega
    rw [placeholder, if_neg (by omega), hnone, List.drop_zero, List.nil_append]
    by_cases hzero : v.take 2 = [0, 0]
    · refine iff_of_false (hwrong _ fun t => readString_zero hmixed (head_mix.2 hzero)) ?_
      rintro (h | ⟨-, h⟩)
      · omega
      · exact h hzero
    · rw [readString_text hmixed fun h => hzero (head_mix.1 h), Option.bind_some]
      exact iff_of_true hback (.inr ⟨he, hzero⟩)
  · -- the length was written over the text
    refine iff_of_false (hwrong _ fun t h => ?_) (by omega)
    have hcons := length_of_readString hmixed h
    rw [placeholder, if_neg (by omega), List.nil_append, List.length_append, List.length_drop] at hcons
    unfold excess at *
    omega

theorem readStringArg_utf8 (hlen : v.length < 2 ^ 32) (rest : List UInt8) :
    readStringArg (stringBytes (.stringUtf8Type, v) ++ rest) = some ((.stringUtf8Type, v), rest) ↔
      Recoverable (.stringUtf8Type, v) := by
  have hread : readStringArg (stringBytes (.stringUtf8Type, v) ++ rest) =
      (readString (encode v.length ++ (v ++ rest))).map fun r => ((.stringUtf8Type, r.1), r.2) := by
    rw [← List.append_assoc]
    rfl
  rw [hread]
  change _ ↔ v.head? ≠ some 0
  by_cases hzero : v.head? = some 0
  · refine iff_of_false (fun h => ?_) (not_not.2 hzero)
    obtain ⟨⟨t, rest'⟩, hr, h⟩ := Option.map_eq_some_iff.1 h
    simp only [Prod.mk.injEq] at h
    obtain ⟨-, rfl⟩ := h
    exact readString_zero (by omega) hzero hr
  · rw [readString_text (by omega) hzero, Option.map_some]
    exact iff_of_true rfl hzero

/-- **The rule recovers a string argument exactly when it is recoverable**: the bytes that the argument loop
writes for the argument at its cursor, whatever follows them. -/
theorem string_recovered_iff {data : List UInt8} {args rawLen cursor step c : ℕ} {tag : ArgumentTag}
    {v : List UInt8} (hat : ArgAt data (args + cursor) tag step) (hs : tag.IsString)
    (hvalue : readValue data (args + cursor) tag = some v)
    (heven : tag = .stringUtf16Type → v.length % 2 = 0)
    (hc : c + step < 2 ^ 32) (hcur : cursor + step < 2 ^ 32) (m : Mem) :
    ∃ m' c', writeArg data args rawLen (m, c) cursor = some ((m', c'), cursor + step) ∧ c ≤ c' ∧
      ∀ rest, readStringArg (m'.slice c (c' - c) ++ rest) = some ((tag, v), rest) ↔
        Recoverable (tag, v) := by
  refine ⟨_, _, writeArg_string hat hs hvalue heven hc hcur, Nat.le_add_right _ _, fun rest => ?_⟩
  have hlen : v.length < 2 ^ 32 := by
    cases hat with
    | fixed htag hstep => rcases hs with rfl | rfl <;> cases hstep
    | string htag _ hn =>
      rw [readValue_string hs hn] at hvalue
      rw [length_of_readBytes hvalue]
      exact readLe_lt hn
  rw [Nat.add_sub_cancel_left, Mem.slice_write]
  rcases hs with rfl | rfl
  · exact readStringArg_utf8 hlen rest
  · exact readStringArg_utf16 (heven rfl) hlen rest

/-- The argument "ab". -/
def shownArgument : List UInt8 := [17, 0, 0, 0, 2, 0, 0, 0, 97, 98, 0, 0]

theorem string_recovered_shown : ∃ m' c',
    writeArg shownArgument 0 12 (fun _ => 0, 0) 0 = some ((m', c'), 12) ∧ 0 ≤ c' ∧
      ∀ rest, readStringArg (m'.slice 0 (c' - 0) ++ rest) = some ((.stringUtf8Type, [97, 98]), rest) ↔
        Recoverable (.stringUtf8Type, [97, 98]) :=
  have hat : ArgAt shownArgument (0 + 0) .stringUtf8Type 12 :=
    .string (n := 2) (by decide) (.inl rfl) (by decide)
  string_recovered_iff hat (.inl rfl) (by decide) (by rintro ⟨⟩) (by norm_num) (by norm_num) (fun _ => 0)

/-- Of the two characters U+0000 and 'a' the reader takes the first for a placeholder. -/
theorem string_not_recovered_zero :
    (writeArg [17, 0, 0, 0, 2, 0, 0, 0, 0, 97, 0, 0] 0 12 (fun _ => 0, 0) 0).bind (fun r =>
      readStringArg (r.1.1.slice 0 r.1.2)) ≠ some ((.stringUtf8Type, [0, 97]), []) := by
  decide

end QLog.Appender
