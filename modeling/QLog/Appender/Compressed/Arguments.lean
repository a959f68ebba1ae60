import QLog.Appender.Compressed.UtfMixed
import QLog.Record.Writer

/-!
# Arguments of a compressed entry

The argument loop of `appender_file_compressed::log_impl`: the arguments of a record are written one
after the other, numbers in as few bytes as they need and UTF-16 strings as UTF-mixed text. The handle
is a memory with a cursor; cursors have 32 bits.

`writeArg_le` bounds what an argument takes, for any string in a record. When the estimate of a string
did not overflow, the bytes are those of `argBytes` (`writeArgs_eq`), and `takeArgs` reads them back
(`takeArgs_argBytes`).
-/

namespace QLog.Appender

open Record Vlq Bytes

/-- A number of 32 bits. -/
def u32 (n : ℕ) : ℕ := n % 2 ^ 32

/-- `zigzag::encode` of a number of so many bits. -/
def zigzagNat (bits value : ℕ) : ℕ := (zigzag (BitVec.ofNat bits value)).toNat

/-- `zigzag::decode` of a number of so many bits. -/
def unzigzagNat (bits value : ℕ) : ℕ := (unzigzag (BitVec.ofNat bits value)).toNat

/-- The `n` bytes at `p` are copied. -/
def copyRaw (data : List UInt8) (p n : ℕ) (s : Mem × ℕ) : Option (Mem × ℕ) :=
  (readBytes data p n).map fun v => (s.1.write s.2 v, u32 (s.2 + n))

/-- The number in the `n` bytes at `p` is written by `vlq_encode`, folded by `f`. -/
def copyVlq (data : List UInt8) (p n : ℕ) (f : ℕ → ℕ) (s : Mem × ℕ) : Option (Mem × ℕ) :=
  (readLe data p n).map fun v =>
    (s.1.write s.2 (encode (f v)), u32 (s.2 + encodeLength (f v)))

/-- The UTF-8 string whose length is at `p`: the handle, and the length. -/
def copyUtf8 (data : List UInt8) (p : ℕ) (s : Mem × ℕ) : Option ((Mem × ℕ) × ℕ) :=
  (readLe data p 4).bind fun strLen =>
    let m := s.1.write s.2 (encode strLen)
    let cursor := u32 (s.2 + encodeLength strLen)
    (readBytes data (p + 4) strLen).map fun text =>
      ((m.write cursor text, u32 (cursor + strLen)), strLen)

/-- The UTF-16 string whose length is at `p`. Its text is put behind the place of the length, then the
length is written, and a zero when the length takes a byte less than its place. -/
def copyUtf16 (data : List UInt8) (p : ℕ) (s : Mem × ℕ) : Option ((Mem × ℕ) × ℕ) :=
  (readLe data p 4).bind fun strLen =>
    let m := s.1.poke (s.2 - 1) ArgumentTag.stringUtfMixedType.toByte
    let preLenSize := encodeLength (maxUtf8StrLen strLen)
    (readBytes data (p + 4) (2 * (strLen / 2))).map fun text =>
      let mixed := utf16ToUtfMixed text
      let m := (m.write (s.2 + preLenSize) mixed).write s.2 (encode mixed.length)
      let realLenSize := encodeLength mixed.length
      let m := if realLenSize + 1 = preLenSize then m.poke (s.2 + realLenSize) 0 else m
      ((m, u32 (s.2 + (preLenSize + mixed.length))), strLen)

/-- The switch: the argument at `args + cursor`, and the cursor behind it. -/
def writeArg (data : List UInt8) (args rawLen : ℕ) (s : Mem × ℕ) (cursor : ℕ) :
    Option ((Mem × ℕ) × ℕ) :=
  let p := args + cursor
  data[p]?.bind fun typeInfo =>
    let s := (s.1.poke s.2 typeInfo, u32 (s.2 + 1))
    match ArgumentTag.ofByte? typeInfo with
    | some .unsupportedType => some (s, rawLen)
    | some .nullType => some (s, u32 (cursor + 4))
    | some .pointerType => (copyRaw data (p + 4) 8 s).map (·, u32 (cursor + 12))
    | some .boolType | some .charType | some .int8Type | some .uint8Type =>
      (copyRaw data (p + 2) 1 s).map (·, u32 (cursor + 4))
    | some .char16Type | some .uint16Type => (copyVlq data (p + 2) 2 id s).map (·, u32 (cursor + 4))
    | some .int16Type => (copyVlq data (p + 2) 2 (zigzagNat 16) s).map (·, u32 (cursor + 4))
    | some .char32Type | some .uint32Type => (copyVlq data (p + 4) 4 id s).map (·, u32 (cursor + 8))
    | some .int32Type => (copyVlq data (p + 4) 4 (zigzagNat 32) s).map (·, u32 (cursor + 8))
    | some .floatType => (copyRaw data (p + 4) 4 s).map (·, u32 (cursor + 8))
    | some .uint64Type => (copyVlq data (p + 4) 8 id s).map (·, u32 (cursor + 12))
    | some .int64Type => (copyVlq data (p + 4) 8 (zigzagNat 64) s).map (·, u32 (cursor + 12))
    | some .doubleType => (copyRaw data (p + 4) 8 s).map (·, u32 (cursor + 12))
    | some .stringUtf8Type =>
      (copyUtf8 data (p + 4) s).map fun r => (r.1, u32 (cursor + (8 + align4 r.2)))
    | some .stringUtf16Type =>
      (copyUtf16 data (p + 4) s).map fun r => (r.1, u32 (cursor + (8 + align4 r.2)))
    | _ => some (s, cursor)

/-- The argument loop, for at most so many turns. -/
def writeArgs (data : List UInt8) (args rawLen : ℕ) : ℕ → Mem × ℕ → ℕ → Option (Mem × ℕ)
  | 0, _, _ => none
  | fuel + 1, s, cursor =>
    if cursor < rawLen then
      (writeArg data args rawLen s cursor).bind fun r => writeArgs data args rawLen fuel r.1 r.2
    else some s

/-! ## What is written -/

/-- How the value of an argument is written. -/
inductive Coding
  | raw
  | unsigned
  | signed

/-- The coding of the arguments that are not strings. -/
def coding : ArgumentTag → Coding
  | .char16Type | .uint16Type | .char32Type | .uint32Type | .uint64Type => .unsigned
  | .int16Type | .int32Type | .int64Type => .signed
  | _ => .raw

/-- The bytes of a value that is not a string. -/
def codeValue (c : Coding) (value : List UInt8) : List UInt8 :=
  match c with
  | .raw => value
  | .unsigned => encode (ofLe value)
  | .signed => encode (zigzagNat (8 * value.length) (ofLe value))

/-- The bytes of an argument. -/
def argBytes (arg : ArgumentTag × List UInt8) : List UInt8 :=
  match arg.1 with
  | .stringUtf8Type => ArgumentTag.stringUtf8Type.toByte :: (encode arg.2.length ++ arg.2)
  | .stringUtf16Type =>
    let mixed := utf16ToUtfMixed arg.2
    ArgumentTag.stringUtfMixedType.toByte ::
      (encode mixed.length ++ (placeholder arg.2.length mixed.length ++ mixed))
  | tag => tag.toByte :: codeValue (coding tag) arg.2

/-- A UTF-16 string of whole characters whose estimated length does not overflow. -/
def TextOk (arg : ArgumentTag × List UInt8) : Prop :=
  arg.1 = .stringUtf16Type → arg.2.length % 2 = 0 ∧ arg.2.length * 3 < 2 ^ 32

/-! ## Reading it back -/

/-- The value of so many bytes. -/
def takeValue (c : Coding) (n : ℕ) (bs : List UInt8) : Option (List UInt8 × List UInt8) :=
  match c with
  | .raw => if n ≤ bs.length then some (bs.take n, bs.drop n) else none
  | .unsigned => (decode bs).map fun r => (toLe n r.1, bs.drop r.2)
  | .signed => (decode bs).map fun r => (toLe n (unzigzagNat (8 * n) r.1), bs.drop r.2)

/-- The first argument, and what follows it. -/
def takeArg : List UInt8 → Option ((ArgumentTag × List UInt8) × List UInt8)
  | [] => none
  | b :: bs =>
    match ArgumentTag.ofByte? b with
    | some .stringUtf8Type =>
      (decode bs).bind fun (n, l) =>
        (takeValue .raw n (bs.drop l)).map fun r => ((.stringUtf8Type, r.1), r.2)
    | some .stringUtfMixedType =>
      (decode bs).bind fun (n, l) =>
        (takeText n (bs.drop l)).map fun r => ((.stringUtf16Type, r.1), r.2)
    | some tag =>
      if tag.fixedStep?.isSome then
        (takeValue (coding tag) tag.valueSize bs).map fun r => ((tag, r.1), r.2)
      else none
    | none => none

/-- The arguments, for at most so many. -/
def takeArgs : ℕ → List UInt8 → Option (List (ArgumentTag × List UInt8))
  | _, [] => some []
  | 0, _ => none
  | fuel + 1, bs => (takeArg bs).bind fun r => (takeArgs fuel r.2).map (r.1 :: ·)

/-! ## Values -/

theorem u32_of_lt {n : ℕ} (h : n < 2 ^ 32) : u32 n = n := Nat.mod_eq_of_lt h

theorem zigzagNat_lt (bits value : ℕ) : zigzagNat bits value < 2 ^ bits := BitVec.isLt _

theorem unzigzagNat_zigzagNat {bits value : ℕ} (h : value < 2 ^ bits) :
    unzigzagNat bits (zigzagNat bits value) = value := by
  rw [unzigzagNat, zigzagNat, BitVec.ofNat_toNat, BitVec.setWidth_eq, unzigzag_zigzag,
    BitVec.toNat_ofNat, Nat.mod_eq_of_lt h]

variable {data : List UInt8} {p n : ℕ} {v : List UInt8}

theorem length_of_readBytes (h : readBytes data p n = some v) : v.length = n := by
  unfold readBytes at h
  split at h
  · rename_i hle
    obtain rfl := Option.some.inj h
    exact length_sub_of_le hle
  · cases h

theorem readLe_of_readBytes (h : readBytes data p n = some v) : readLe data p n = some (ofLe v) := by
  unfold readBytes at h
  unfold readLe
  split at h
  · rename_i hle
    obtain rfl := Option.some.inj h
    rw [if_pos hle]
  · cases h

/-- A value takes at most a byte more than it has; one of eight bytes takes at most nine. -/
theorem length_codeValue_le (c : Coding) {n : ℕ} (hlen : v.length = n) (hn : n = 0 ∨ n = 1 ∨ n = 2 ∨ n = 4 ∨ n = 8) :
    (codeValue c v).length ≤ n + 1 := by
  have hlt : ofLe v < 256 ^ n := hlen ▸ ofLe_lt v
  have hpow : (256 : ℕ) ^ n = 2 ^ (8 * n) := by
    rw [pow_mul]
    norm_num
  have bound : ∀ w < 2 ^ (8 * n), encodeLength w ≤ n + 1 := by
    intro w hw
    rcases hn with rfl | rfl | rfl | rfl | rfl
    case inr.inr.inr.inr => exact (encodeLength_spec w).2.1
    all_goals
      rw [encodeLength_le_iff (by omega) (by omega)]
      norm_num [minValueOfLength] at hw ⊢
      omega
  cases c with
  | raw => exact hlen.le.trans (Nat.le_succ n)
  | unsigned =>
    rw [codeValue, length_encode]
    exact bound _ (hpow ▸ hlt)
  | signed =>
    rw [codeValue, length_encode, hlen]
    exact bound _ (zigzagNat_lt _ _)

theorem takeValue_raw (v rest : List UInt8) : takeValue .raw v.length (v ++ rest) = some (v, rest) := by
  rw [takeValue, if_pos (by rw [List.length_append]; omega), List.take_left' rfl, List.drop_left' rfl]

theorem takeValue_codeValue (c : Coding) (hn : v.length ≤ 8) (rest : List UInt8) :
    takeValue c v.length (codeValue c v ++ rest) = some (v, rest) := by
  have hlt := ofLe_lt v
  have hpow : (256 : ℕ) ^ v.length = 2 ^ (8 * v.length) := by
    rw [pow_mul]
    norm_num
  have h64 : 2 ^ (8 * v.length) ≤ 2 ^ 64 := Nat.pow_le_pow_right (by norm_num) (by omega)
  cases c with
  | raw => exact takeValue_raw v rest
  | unsigned =>
    rw [takeValue, codeValue, decode_encode (by omega), Option.map_some, toLe_ofLe, List.drop_left' (length_encode _)]
  | signed =>
    have hz := zigzagNat_lt (8 * v.length) (ofLe v)
    rw [takeValue, codeValue, decode_encode (by omega), Option.map_some, unzigzagNat_zigzagNat (hpow ▸ hlt), toLe_ofLe,
      List.drop_left' (length_encode _)]

/-! ## Writing an argument -/

variable {m : Mem} {c : ℕ}

theorem copyRaw_eq (h : readBytes data p n = some v) (hc : c + n < 2 ^ 32) :
    copyRaw data p n (m, c) = some (m.write c (codeValue .raw v), c + (codeValue .raw v).length) := by
  rw [copyRaw, h, Option.map_some, u32_of_lt hc, codeValue, length_of_readBytes h]

theorem copyVlq_unsigned (h : readBytes data p n = some v)
    (hc : c + (codeValue .unsigned v).length < 2 ^ 32) :
    copyVlq data p n id (m, c) =
      some (m.write c (codeValue .unsigned v), c + (codeValue .unsigned v).length) := by
  rw [codeValue, length_encode] at hc
  rw [copyVlq, readLe_of_readBytes h, Option.map_some, id, u32_of_lt hc, codeValue, length_encode]

theorem copyVlq_signed (h : readBytes data p n = some v)
    (hc : c + (codeValue .signed v).length < 2 ^ 32) :
    copyVlq data p n (zigzagNat (8 * n)) (m, c) =
      some (m.write c (codeValue .signed v), c + (codeValue .signed v).length) := by
  have hlen := length_of_readBytes h
  rw [codeValue, length_encode, hlen] at hc
  rw [copyVlq, readLe_of_readBytes h, Option.map_some, u32_of_lt hc, codeValue, length_encode, hlen]

theorem copyUtf8_eq {strLen : ℕ} (hn : readLe data p 4 = some strLen)
    (h : readBytes data (p + 4) strLen = some v) (hc : c + (encodeLength strLen + strLen) < 2 ^ 32) :
    copyUtf8 data p (m, c) = some ((m.write c (encode v.length ++ v),
      c + (encode v.length ++ v).length), strLen) := by
  have hlen := length_of_readBytes h
  rw [copyUtf8, hn, Option.bind_some]
  simp only
  rw [h, Option.map_some, u32_of_lt (by omega), u32_of_lt (by omega), hlen, ← Mem.write_append,
    length_encode, List.length_append, length_encode, hlen, Nat.add_assoc]

/-- The frame of a UTF-16 string, whatever its length. -/
theorem copyUtf16_le {strLen : ℕ} (hn : readLe data p 4 = some strLen)
    (h : readBytes data (p + 4) strLen = some v) (hc : 1 ≤ c) (hlt : c + (strLen + 6) < 2 ^ 32) :
    ∃ m' c', copyUtf16 data p (m, c) = some ((m', c'), strLen) ∧ c + 1 + strLen / 2 ≤ c' ∧
      c' ≤ c + (strLen + 6) ∧ ∀ x < c - 1, m' x = m x := by
  have hlen := length_of_readBytes h
  have heven : readBytes data (p + 4) (2 * (strLen / 2)) = some (v.take (2 * (strLen / 2))) := by
    unfold readBytes at h ⊢
    split at h
    · obtain rfl := Option.some.inj h
      rw [if_pos (by omega), take_sub, min_eq_left (by omega)]
    · cases h
  have hmlen : (v.take (2 * (strLen / 2))).length % 2 = 0 := by
    rw [List.length_take, hlen]
    omega
  obtain ⟨hmixed', hmixed⟩ := length_mix hmlen
  rw [List.length_take, hlen, min_eq_left (by omega)] at hmixed hmixed'
  have hone := (encodeLength_spec (maxUtf8StrLen strLen)).1
  have hpre : encodeLength (maxUtf8StrLen strLen) ≤ 5 := by
    rw [encodeLength_le_iff (by omega) (by omega), maxUtf8StrLen]
    norm_num [minValueOfLength]
    omega
  rw [copyUtf16, hn, Option.bind_some]
  simp only
  rw [heven, Option.map_some]
  refine ⟨_, _, rfl, ?_, ?_, fun x hx => ?_⟩
  · rw [u32_of_lt (by split at hmixed <;> omega)]
    omega
  · rw [u32_of_lt (by split at hmixed <;> omega)]
    split at hmixed <;> omega
  · split
    · rw [Mem.poke_apply_of_ne _ _ (by omega), Mem.write_apply_of_lt _ _ (by omega),
        Mem.write_apply_of_lt _ _ (by omega), Mem.poke_apply_of_ne _ _ (by omega)]
    · rw [Mem.write_apply_of_lt _ _ (by omega), Mem.write_apply_of_lt _ _ (by omega),
        Mem.poke_apply_of_ne _ _ (by omega)]

/-- The text, then the length in front of its place, then the zero between them. -/
theorem write_padded (m : Mem) (a : ℕ) (xs ys : List UInt8) :
    ((m.write (a + (xs.length + 1)) ys).write a xs).poke (a + xs.length) 0 =
      m.write a (xs ++ ([0] ++ ys)) := by
  have hlen : (xs ++ [(0 : UInt8)]).length = xs.length + 1 := List.length_append
  rw [Mem.poke_eq_write, Mem.write_append, ← hlen, Mem.write_append_left, List.append_assoc]

/-- The bytes of a UTF-16 string, when the estimate did not overflow. -/
theorem copyUtf16_eq (b : UInt8) (hn : readLe data p 4 = some v.length)
    (h : readBytes data (p + 4) v.length = some v) (heven : v.length % 2 = 0)
    (h32 : v.length * 3 < 2 ^ 32)
    (hc : c + (argBytes (.stringUtf16Type, v)).length < 2 ^ 32) :
    copyUtf16 data p (m.poke c b, c + 1) = some ((m.write c (argBytes (.stringUtf16Type, v)),
      c + (argBytes (.stringUtf16Type, v)).length), v.length) := by
  have hbytes : argBytes (.stringUtf16Type, v) = [ArgumentTag.stringUtfMixedType.toByte] ++
      (encode (utf16ToUtfMixed v).length ++
        (placeholder v.length (utf16ToUtfMixed v).length ++ utf16ToUtfMixed v)) := rfl
  have hpad : (encode (utf16ToUtfMixed v).length ++
      placeholder v.length (utf16ToUtfMixed v).length).length =
        encodeLength (maxUtf8StrLen v.length) := by
    rw [List.length_append, length_encode, placeholder]
    rcases encodeLength_estimate heven h32 with he | he
    · rw [if_neg (by omega), he]
      rfl
    · rw [if_pos he.symm, he]
      rfl
  have hlen : (argBytes (.stringUtf16Type, v)).length =
      1 + (encodeLength (maxUtf8StrLen v.length) + (utf16ToUtfMixed v).length) := by
    rw [hbytes, ← List.append_assoc (encode _), List.length_append, List.length_append, hpad]
    rfl
  rw [hlen] at hc
  rw [copyUtf16, hn, Option.bind_some]
  simp only
  rw [Nat.mul_div_cancel' (Nat.dvd_of_mod_eq_zero heven), h, Option.map_some, Nat.add_sub_cancel,
    u32_of_lt (by omega), hlen, Nat.add_assoc c 1 (encodeLength (maxUtf8StrLen v.length) + _)]
  refine congrArg (fun m' => some ((m', c + (1 + (encodeLength (maxUtf8StrLen v.length) +
    (utf16ToUtfMixed v).length))), v.length)) ?_
  have hlength : (encode (utf16ToUtfMixed v).length).length = encodeLength (utf16ToUtfMixed v).length :=
    length_encode _
  have htag := Mem.write_append m c [ArgumentTag.stringUtfMixedType.toByte]
  rw [List.length_singleton] at htag
  have hover : (m.write c [b]).write c [ArgumentTag.stringUtfMixedType.toByte] =
      m.write c [ArgumentTag.stringUtfMixedType.toByte] := Mem.write_write_of_le m c le_rfl
  rw [hbytes, Mem.poke_eq_write m c b, Mem.poke_eq_write _ c ArgumentTag.stringUtfMixedType.toByte,
    hover, ← htag]
  generalize m.write c [ArgumentTag.stringUtfMixedType.toByte] = m'
  rcases encodeLength_estimate heven h32 with he | he
  · rw [placeholder, if_neg (by omega), if_neg (by omega), List.nil_append, he, ← hlength,
      Mem.write_append_left]
  · rw [placeholder, if_pos he.symm, if_pos he.symm, he, ← hlength]
    exact write_padded m' (c + 1) _ _

/-- The value behind its tag. -/
theorem write_behind_tag (m : Mem) (c : ℕ) (b : UInt8) (out : List UInt8) :
    ((m.poke c b).write (c + 1) out, c + 1 + out.length) =
      (m.write c (b :: out), c + (b :: out).length) := by
  have happend := Mem.write_append m c [b] out
  rw [List.length_singleton] at happend
  rw [Mem.poke_eq_write, happend, List.length_cons, Nat.add_assoc, Nat.add_comm 1]
  rfl

theorem argBytes_ne_nil (arg : ArgumentTag × List UInt8) : argBytes arg ≠ [] := by
  obtain ⟨tag, v⟩ := arg
  cases tag <;> exact List.cons_ne_nil _ _

theorem argBytes_fixed {tag : ArgumentTag} {step : ℕ} (h : tag.fixedStep? = some step)
    (v : List UInt8) : argBytes (tag, v) = tag.toByte :: codeValue (coding tag) v := by
  cases tag <;> first | rfl | cases h

variable {args rawLen cursor step : ℕ} {tag : ArgumentTag}

/-- An argument that is not a string. -/
theorem writeArg_fixed (htag : data[args + cursor]? = some tag.toByte)
    (hstep : tag.fixedStep? = some step) (hvalue : readValue data (args + cursor) tag = some v)
    (hc : c + (argBytes (tag, v)).length < 2 ^ 32) (hcur : cursor + step < 2 ^ 32) :
    writeArg data args rawLen (m, c) cursor = some ((m.write c (argBytes (tag, v)),
      c + (argBytes (tag, v)).length), cursor + step) := by
  rw [argBytes_fixed hstep] at hc ⊢
  rw [List.length_cons] at hc
  rw [← write_behind_tag, writeArg]
  simp only
  rw [htag, Option.bind_some, ArgumentTag.ofByte?_toByte, u32_of_lt (by omega)]
  cases tag
  case nullType =>
    obtain rfl := Option.some.inj hstep
    have hv : readBytes data (args + cursor + 4) 0 = some v := hvalue
    obtain rfl := List.length_eq_zero_iff.1 (length_of_readBytes hv)
    simp only
    rw [u32_of_lt hcur]
    exact congrArg (fun m' => some ((m', c + 1), cursor + 4)) (Mem.write_nil _ _).symm
  case char16Type | uint16Type | char32Type | uint32Type | uint64Type =>
    obtain rfl := Option.some.inj hstep
    change c + ((codeValue .unsigned v).length + 1) < 2 ^ 32 at hc
    simp only
    refine (congrArg (Option.map _) (copyVlq_unsigned (v := v) hvalue (by omega))).trans ?_
    rw [Option.map_some, u32_of_lt hcur]
    rfl
  case int16Type | int32Type | int64Type =>
    obtain rfl := Option.some.inj hstep
    change c + ((codeValue .signed v).length + 1) < 2 ^ 32 at hc
    simp only
    refine (congrArg (Option.map _) (copyVlq_signed (v := v) hvalue (by omega))).trans ?_
    rw [Option.map_some, u32_of_lt hcur]
    rfl
  case pointerType | boolType | charType | int8Type | uint8Type | floatType | doubleType =>
    obtain rfl := Option.some.inj hstep
    change c + (v.length + 1) < 2 ^ 32 at hc
    rw [length_of_readBytes hvalue] at hc
    simp only
    refine (congrArg (Option.map _) (copyRaw_eq (v := v) hvalue ?_)).trans ?_
    · exact (Nat.add_right_comm c _ 1).symm.trans_lt hc
    rw [Option.map_some, u32_of_lt hcur]
    rfl
  all_goals cases hstep

theorem argBytes_utf8 (v : List UInt8) : argBytes (.stringUtf8Type, v) =
    ArgumentTag.stringUtf8Type.toByte :: (encode v.length ++ v) := rfl

/-- A string at its place: the length and the text. -/
theorem readValue_string (hs : tag.IsString) (hn : readLe data (p + 4) 4 = some n) :
    readValue data p tag = readBytes data (p + 8) n := by
  rcases hs with rfl | rfl
  all_goals
    rw [readValue, if_pos (by rfl), hn, Option.bind_some]

/-- **An argument is written as `argBytes` says.** -/
theorem writeArg_eq (hat : ArgAt data (args + cursor) tag step)
    (hvalue : readValue data (args + cursor) tag = some v) (hok : TextOk (tag, v))
    (hc : c + (argBytes (tag, v)).length < 2 ^ 32) (hcur : cursor + step < 2 ^ 32) :
    writeArg data args rawLen (m, c) cursor = some ((m.write c (argBytes (tag, v)),
      c + (argBytes (tag, v)).length), cursor + step) := by
  cases hat with
  | fixed htag hstep => exact writeArg_fixed htag hstep hvalue hc hcur
  | @string n htag hs hn =>
    rw [readValue_string hs hn] at hvalue
    have hlen := length_of_readBytes hvalue
    rw [writeArg]
    simp only
    rw [htag, Option.bind_some, ArgumentTag.ofByte?_toByte]
    rcases hs with rfl | rfl
    · rw [argBytes_utf8] at hc ⊢
      rw [List.length_cons] at hc
      rw [← write_behind_tag, u32_of_lt (by omega)]
      simp only
      rw [copyUtf8_eq hn hvalue, Option.map_some, u32_of_lt hcur]
      rw [List.length_append, length_encode, hlen] at hc
      omega
    · obtain ⟨heven, h32⟩ := hok rfl
      have hpos : 0 < (argBytes (.stringUtf16Type, v)).length := by
        rw [argBytes]
        exact Nat.succ_pos _
      rw [← hlen] at hn hvalue
      rw [u32_of_lt (by omega)]
      simp only
      rw [copyUtf16_eq _ hn hvalue heven h32 hc, Option.map_some, hlen, u32_of_lt hcur]

/-! ## What an argument takes -/

theorem readLe_lt {k : ℕ} (h : readLe data p k = some n) : n < 256 ^ k := by
  unfold readLe at h
  split at h
  · rename_i hle
    obtain rfl := Option.some.inj h
    have := ofLe_lt (sub data p k)
    rwa [length_sub_of_le hle] at this
  · cases h

theorem encodeLength_le_five (h : n < 2 ^ 32) : encodeLength n ≤ 5 := by
  rw [encodeLength_le_iff (by omega) (by omega)]
  norm_num [minValueOfLength]
  omega

theorem length_codeValue_pos (c : Coding) (hv : v ≠ []) : 0 < (codeValue c v).length := by
  cases c with
  | raw => exact List.length_pos_iff.2 hv
  | unsigned | signed =>
    rw [codeValue, length_encode]
    exact (encodeLength_spec _).1

/-- The step over an argument, and the length of its value. -/
theorem valueSize_of_fixedStep (h : tag.fixedStep? = some step) :
    tag.valueSize + 2 ≤ step ∧ step ≤ 12 ∧ (tag.valueSize = 0 → step = 4) ∧
      (tag.valueSize = 0 ∨ tag.valueSize = 1 ∨ tag.valueSize = 2 ∨ tag.valueSize = 4 ∨
        tag.valueSize = 8) := by
  cases tag <;> cases h <;> decide

theorem readBytes_of_fixedStep (h : tag.fixedStep? = some step) (hvalue : readValue data p tag = some v) :
    v.length = tag.valueSize := by
  cases tag <;> first | cases h; exact length_of_readBytes hvalue | cases h

theorem length_argBytes_fixed (hstep : tag.fixedStep? = some step)
    (hvalue : readValue data p tag = some v) :
    (argBytes (tag, v)).length ≤ step ∧ step ≤ 8 * (argBytes (tag, v)).length := by
  obtain ⟨hsize, hle, hzero, hsizes⟩ := valueSize_of_fixedStep hstep
  have hlen := readBytes_of_fixedStep hstep hvalue
  have hout := length_codeValue_le (coding tag) hlen hsizes
  rw [argBytes_fixed hstep, List.length_cons]
  refine ⟨by omega, ?_⟩
  rcases Nat.eq_zero_or_pos tag.valueSize with hz | hz
  · have := hzero hz
    omega
  · have hne : v ≠ [] := List.ne_nil_of_length_pos (by omega)
    have := length_codeValue_pos (coding tag) hne
    omega

/-- The room that an argument takes: less than in the record, and not less than an eighth of it. -/
def Takes (step c c' : ℕ) : Prop := c < c' ∧ c' ≤ c + step ∧ step ≤ 8 * (c' - c)

/-- **An argument fits into the room that it has in the record**, and nothing before it changes. -/
theorem writeArg_le (hat : ArgAt data (args + cursor) tag step)
    (hvalue : readValue data (args + cursor) tag = some v) (hc : c + step < 2 ^ 32)
    (hcur : cursor + step < 2 ^ 32) (rawLen : ℕ) (m : Mem) :
    ∃ m' c', writeArg data args rawLen (m, c) cursor = some ((m', c'), cursor + step) ∧
      Takes step c c' ∧ ∀ x < c, m' x = m x := by
  cases hat with
  | fixed htag hstep =>
    obtain ⟨hle, hge⟩ := length_argBytes_fixed hstep hvalue
    have hpos : 0 < (argBytes (tag, v)).length := List.length_pos_iff.2 (argBytes_ne_nil _)
    exact ⟨_, _, writeArg_fixed htag hstep hvalue (by omega) hcur, ⟨by omega, by omega, by omega⟩,
      fun x hx => Mem.write_apply_of_lt m _ hx⟩
  | @string n htag hs hn =>
    rw [readValue_string hs hn] at hvalue
    have hlen := length_of_readBytes hvalue
    have hn32 : n < 2 ^ 32 := readLe_lt hn
    have hfive := encodeLength_le_five hn32
    have hone := (encodeLength_spec n).1
    have hle := le_align4 n
    have hlt := align4_lt n
    rw [writeArg]
    simp only
    rw [htag, Option.bind_some, ArgumentTag.ofByte?_toByte, u32_of_lt (by omega)]
    rcases hs with rfl | rfl
    · have hout : (encode v.length ++ v).length = encodeLength n + n := by
        rw [List.length_append, length_encode, hlen]
      simp only
      rw [copyUtf8_eq hn hvalue (by omega), Option.map_some, u32_of_lt hcur, hout]
      refine ⟨_, _, rfl, ⟨by omega, by omega, by omega⟩, fun x hx => ?_⟩
      rw [Mem.write_apply_of_lt _ _ (by omega), Mem.poke_apply_of_ne _ _ (by omega)]
    · obtain ⟨m', c', hcopy, hlow, hhigh, hframe⟩ := copyUtf16_le hn hvalue (m := m.poke c _) (c := c + 1)
        (by omega) (by omega)
      simp only
      rw [hcopy, Option.map_some, u32_of_lt hcur]
      refine ⟨m', c', rfl, ⟨by omega, by omega, by omega⟩, fun x hx => ?_⟩
      rw [hframe x (by omega), Mem.poke_apply_of_ne _ _ (by omega)]

/-- The bytes of an argument take no more room than the argument has in the record. -/
theorem length_argBytes_le (hat : ArgAt data p tag step) (hvalue : readValue data p tag = some v)
    (hok : TextOk (tag, v)) : (argBytes (tag, v)).length ≤ step := by
  cases hat with
  | fixed htag hstep => exact (length_argBytes_fixed hstep hvalue).1
  | @string n htag hs hn =>
    rw [readValue_string hs hn] at hvalue
    have hlen := length_of_readBytes hvalue
    have hfive := encodeLength_le_five (show n < 2 ^ 32 from readLe_lt hn)
    have hle := le_align4 n
    rcases hs with rfl | rfl
    · rw [argBytes_utf8, List.length_cons, List.length_append, length_encode, hlen]
      omega
    · obtain ⟨heven, h32⟩ : v.length % 2 = 0 ∧ v.length * 3 < 2 ^ 32 := hok rfl
      have hest := encodeLength_estimate heven h32
      have hmixed := (length_mix heven).2
      have hpre : encodeLength (maxUtf8StrLen v.length) ≤ 5 :=
        encodeLength_le_five (by rw [maxUtf8StrLen]; omega)
      have hpad : encodeLength (utf16ToUtfMixed v).length +
          (placeholder v.length (utf16ToUtfMixed v).length).length =
            encodeLength (maxUtf8StrLen v.length) := by
        rw [placeholder]
        split
        · rw [List.length_singleton]
          omega
        · rw [List.length_nil]
          omega
      simp only [argBytes, List.length_cons, List.length_append, length_encode]
      split at hmixed <;> omega

theorem length_argsBytes_le {ext : ℕ} {as : List (ArgumentTag × List UInt8)} (h : ArgsAt data ext p as)
    (hok : ∀ a ∈ as, TextOk a) : p + (as.flatMap argBytes).length ≤ ext := by
  induction h with
  | nil => rw [List.flatMap_nil, List.length_nil, Nat.add_zero]
  | cons hat hle hvalue hrest ih =>
    obtain ⟨hok₁, hok⟩ := List.forall_mem_cons.1 hok
    have := length_argBytes_le hat hvalue hok₁
    have := ih hok
    rw [List.flatMap_cons, List.length_append]
    omega

/-! ## The loop -/

theorem writeArgs_done {fuel : ℕ} (h : rawLen ≤ cursor) (s : Mem × ℕ) :
    writeArgs data args rawLen (fuel + 1) s cursor = some s := if_neg (by omega)

/-- **The arguments are written one after the other.** -/
theorem writeArgs_eq {fuel q : ℕ} {as : List (ArgumentTag × List UInt8)}
    (h : ArgsAt data (args + rawLen) q as) (hq : q = args + cursor) (hok : ∀ a ∈ as, TextOk a)
    (hfuel : as.length < fuel) (hc : c + (as.flatMap argBytes).length < 2 ^ 32)
    (hraw : rawLen < 2 ^ 32) :
    writeArgs data args rawLen fuel (m, c) cursor =
      some (m.write c (as.flatMap argBytes), c + (as.flatMap argBytes).length) := by
  induction h generalizing fuel cursor m c with
  | nil =>
    obtain ⟨fuel, rfl⟩ := Nat.exists_eq_succ_of_ne_zero (show fuel ≠ 0 by omega)
    rw [writeArgs_done (by omega), List.flatMap_nil, Mem.write_nil, List.length_nil, Nat.add_zero]
  | @cons _ step tag value rest hat hle hvalue hrest ih =>
    subst hq
    obtain ⟨fuel, rfl⟩ := Nat.exists_eq_succ_of_ne_zero (show fuel ≠ 0 by omega)
    obtain ⟨hok₁, hok⟩ := List.forall_mem_cons.1 hok
    have hfour := hat.four_le
    rw [List.length_cons] at hfuel
    rw [List.flatMap_cons, List.length_append] at hc ⊢
    rw [writeArgs, if_pos (by omega), writeArg_eq hat hvalue hok₁ (by omega) (by omega),
      Option.bind_some, ih (by omega) hok (by omega) (by omega), Mem.write_append, Nat.add_assoc]

/-- **The arguments fit into the room that they have in the record.** -/
theorem writeArgs_le {fuel q : ℕ} {as : List (ArgumentTag × List UInt8)}
    (h : ArgsAt data (args + rawLen) q as) (hq : q = args + cursor) (hfuel : as.length < fuel)
    (hc : c + (rawLen - cursor) < 2 ^ 32) (hraw : rawLen < 2 ^ 32) (m : Mem) :
    ∃ m' c', writeArgs data args rawLen fuel (m, c) cursor = some (m', c') ∧ c ≤ c' ∧
      c' ≤ c + (rawLen - cursor) ∧ rawLen - cursor ≤ 8 * (c' - c) ∧ ∀ x < c, m' x = m x := by
  induction h generalizing fuel cursor m c with
  | nil =>
    obtain ⟨fuel, rfl⟩ := Nat.exists_eq_succ_of_ne_zero (show fuel ≠ 0 by omega)
    exact ⟨m, c, writeArgs_done (by omega) _, le_rfl, Nat.le_add_right _ _, by omega, fun _ _ => rfl⟩
  | @cons _ step tag value rest hat hle hvalue hrest ih =>
    subst hq
    obtain ⟨fuel, rfl⟩ := Nat.exists_eq_succ_of_ne_zero (show fuel ≠ 0 by omega)
    have hfour := hat.four_le
    rw [List.length_cons] at hfuel
    obtain ⟨m', c', hwrite, ⟨hlt, hle', hge⟩, hframe⟩ :=
      writeArg_le hat hvalue (show c + step < 2 ^ 32 by omega) (by omega) rawLen m
    obtain ⟨m'', c'', hrun, h1, h2, h3, hframe'⟩ :=
      ih (show _ = args + (cursor + step) by omega) (show _ < fuel by omega)
        (show c' + (rawLen - (cursor + step)) < 2 ^ 32 by omega) m'
    refine ⟨m'', c'', ?_, by omega, by omega, by omega, fun x hx => ?_⟩
    · rw [writeArgs, if_pos (by omega), hwrite, Option.bind_some, hrun]
    · rw [hframe' x (by omega), hframe x hx]

/-! ## Reading the arguments back -/

/-- An argument as it can be in a record: a value of the size of its type, or a string. -/
def ArgOk (arg : ArgumentTag × List UInt8) : Prop :=
  (arg.1.fixedStep?.isSome ∧ arg.2.length = arg.1.valueSize) ∨
    (arg.1.IsString ∧ arg.2.length < 2 ^ 32)

theorem argOk_of_argAt (hat : ArgAt data p tag step) (hvalue : readValue data p tag = some v) :
    ArgOk (tag, v) := by
  cases hat with
  | fixed htag hstep => exact .inl ⟨by rw [hstep]; rfl, readBytes_of_fixedStep hstep hvalue⟩
  | string htag hs hn =>
    rw [readValue_string hs hn] at hvalue
    exact .inr ⟨hs, length_of_readBytes hvalue ▸ readLe_lt hn⟩

theorem argOk_of_argsAt {ext : ℕ} {as : List (ArgumentTag × List UInt8)} (h : ArgsAt data ext p as) :
    ∀ a ∈ as, ArgOk a := by
  induction h with
  | nil => exact fun a ha => absurd ha List.not_mem_nil
  | cons hat hle hvalue hrest ih => exact List.forall_mem_cons.2 ⟨argOk_of_argAt hat hvalue, ih⟩

/-- **An argument is read back**, whatever follows it. -/
theorem takeArg_argBytes {arg : ArgumentTag × List UInt8} (h : ArgOk arg) (hok : TextOk arg)
    (rest : List UInt8) : takeArg (argBytes arg ++ rest) = some (arg, rest) := by
  obtain ⟨tag, v⟩ := arg
  rcases h with ⟨hfixed, hlen⟩ | ⟨hs, hlen⟩
  · obtain ⟨step, hstep⟩ := Option.isSome_iff_exists.1 hfixed
    change tag.fixedStep? = some step at hstep
    change v.length = tag.valueSize at hlen
    have hsize : v.length ≤ 8 := by
      have := (valueSize_of_fixedStep hstep).2.2.2
      omega
    have hvalue := takeValue_codeValue (coding tag) hsize rest
    rw [hlen] at hvalue
    rw [argBytes_fixed hstep, List.cons_append, takeArg, ArgumentTag.ofByte?_toByte]
    cases tag
    case stringUtf8Type | stringUtfMixedType => cases hstep
    all_goals first
      | cases hstep; done
      | (simp only; rw [if_pos (by rfl), hvalue, Option.map_some])
  · change tag.IsString at hs
    change v.length < 2 ^ 32 at hlen
    rcases hs with rfl | rfl
    · rw [argBytes_utf8, List.cons_append, takeArg, ArgumentTag.ofByte?_toByte, List.append_assoc]
      simp only
      rw [decode_encode (by omega), Option.bind_some]
      simp only
      rw [List.drop_left' (length_encode _), takeValue_raw, Option.map_some]
    · obtain ⟨heven, h32⟩ : v.length % 2 = 0 ∧ v.length * 3 < 2 ^ 32 := hok rfl
      have hmixed : (utf16ToUtfMixed v).length < 2 ^ 64 := by
        have := (length_mix heven).2
        split at this <;> omega
      rw [argBytes, takeArg.eq_def]
      simp only
      rw [List.cons_append]
      simp only
      rw [ArgumentTag.ofByte?_toByte, List.append_assoc]
      simp only
      rw [decode_encode hmixed, Option.bind_some]
      simp only
      rw [List.drop_left' (length_encode _), List.append_assoc, takeText_padded heven h32,
        Option.map_some]

/-- **The arguments are read back.** -/
theorem takeArgs_argBytes {fuel : ℕ} {as : List (ArgumentTag × List UInt8)} (h : ∀ a ∈ as, ArgOk a)
    (hok : ∀ a ∈ as, TextOk a) (hfuel : as.length ≤ fuel) :
    takeArgs fuel (as.flatMap argBytes) = some as := by
  induction as generalizing fuel with
  | nil => cases fuel <;> rfl
  | cons a as ih =>
    obtain ⟨h₁, h⟩ := List.forall_mem_cons.1 h
    obtain ⟨hok₁, hok⟩ := List.forall_mem_cons.1 hok
    rw [List.length_cons] at hfuel
    obtain ⟨fuel, rfl⟩ := Nat.exists_eq_succ_of_ne_zero (show fuel ≠ 0 by omega)
    rw [List.flatMap_cons]
    obtain ⟨b, bs, hb⟩ := List.exists_cons_of_ne_nil
      (show argBytes a ++ as.flatMap argBytes ≠ [] from fun hnil =>
        argBytes_ne_nil a (List.append_eq_nil_iff.1 hnil).1)
    rw [hb]
    change (takeArg (b :: bs)).bind (fun r => (takeArgs fuel r.2).map (r.1 :: ·)) = _
    rw [← hb, takeArg_argBytes h₁ hok₁, Option.bind_some, ih h hok (by omega), Option.map_some]

end QLog.Appender
