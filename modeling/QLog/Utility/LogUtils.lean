import QLog.Foundations.Vlq

/-!
# The number formats of the compressed files

A model of `log_utils::zigzag` and `log_utils::vlq` with the types that they are used at: integers of 8, 16,
32 and 64 bits, `int` arithmetic for the short ones, and memory that is written and read byte by byte. A
`switch` over the lengths writes the highest byte of the difference into the first byte and the others behind
it, the lowest first; decoding looks the length up in a table.

The formats are those of `QLog.Foundations.Vlq` (`vlqEncode_eq`, `vlqDecode_eq`, `zigzagEncode_eq`,
`zigzagDecode_eq`), and the round trip follows from theirs.
-/

namespace QLog.LogUtils

open Vlq Bytes

/-- The integer types. -/
inductive Width
  | w8
  | w16
  | w32
  | w64
  deriving DecidableEq, Repr

namespace Width

/-- `sizeof`. -/
def bytes : Width → ℕ
  | w8 => 1
  | w16 => 2
  | w32 => 4
  | w64 => 8

/-- The bits of a value. -/
def bits (w : Width) : ℕ := 8 * w.bytes

/-- The bits of an operand: the short types are promoted to `int`. -/
def promoted (w : Width) : ℕ := max w.bits 32

theorem bits_pos (w : Width) : 0 < w.bits := by
  cases w <;> decide

theorem bits_le (w : Width) : w.bits ≤ 64 := by
  cases w <;> decide

theorem bits_le_promoted (w : Width) : w.bits ≤ w.promoted := Nat.le_max_left _ _

end Width

variable {w : Width}

/-! ## The code -/

/-- `zigzag::encode`. -/
def zigzagEncode (value : BitVec w.bits) : BitVec w.bits :=
  ((value.setWidth w.promoted <<< 1) ^^^ (value.signExtend w.promoted).sshiftRight (w.bits - 1)).setWidth w.bits

/-- `zigzag::decode`. -/
def zigzagDecode (value : BitVec w.bits) : BitVec w.bits :=
  let value := value.setWidth w.promoted
  ((value >>> 1) ^^^ (0 - (value &&& 1))).setWidth w.bits

/-- `vlq_length_lut`. -/
def vlqLengthLut : List ℕ :=
  [9, 8] ++ List.replicate 2 7 ++ List.replicate 4 6 ++ List.replicate 8 5 ++ List.replicate 16 4 ++
    List.replicate 32 3 ++ List.replicate 64 2 ++ List.replicate 128 1

/-- `get_vlq_decode_length`. -/
def getVlqDecodeLength (prefixByte : UInt8) : ℕ := vlqLengthLut.getD prefixByte.toNat 0

/-- `encoded_value_ptr[i]`. -/
def encodedByte (encoded i : ℕ) : UInt8 := UInt8.ofNat (encoded / 256 ^ i)

/-- The first byte of a length. -/
def firstByte (length encoded : ℕ) : UInt8 :=
  if length = 9 then 0 else UInt8.ofNat (firstBit length) + encodedByte encoded (length - 1)

/-- `vlq_encode`: the memory with the bytes at `target`, and their number. -/
def vlqEncode (value : ℕ) (m : Mem) (target : ℕ) : Mem × ℕ :=
  let length := encodeLength value
  let encoded := value - minValueOfLength length
  ((List.range (length - 1)).foldl (fun m i => m.poke (target + 1 + i) (encodedByte encoded i))
    (m.poke target (firstByte length encoded)), length)

/-- `vlq_decode`: the value and the length, none for `invalid_decode_length`. -/
def vlqDecode (w : Width) (m : Mem) (src : ℕ) : Option (ℕ × ℕ) :=
  let length := getVlqDecodeLength (m src)
  if w.bytes + 1 < length then none
  else
    let high := if length = 9 then 0 else (m src - UInt8.ofNat (firstBit length)).toNat
    let data := m.load (src + 1) (length - 1) + high * 256 ^ (length - 1)
    some ((data + minValueOfLength length) % 2 ^ 64 % 2 ^ w.bits, length)

/-! ## The formats -/

theorem zigzagEncode_eq (value : BitVec w.bits) : zigzagEncode value = zigzag value := by
  have hle := w.bits_le_promoted
  have hpos := w.bits_pos
  have hleft : (value.setWidth w.promoted <<< 1).setWidth w.bits = value <<< 1 := by
    apply BitVec.eq_of_getLsbD_eq
    intro i hi
    simp only [BitVec.getLsbD_setWidth, BitVec.getLsbD_shiftLeft, hi, decide_true, Bool.true_and,
      show i < w.promoted by omega, show i - 1 < w.promoted by omega]
  have hright : ((value.signExtend w.promoted).sshiftRight (w.bits - 1)).setWidth w.bits =
      value.sshiftRight (w.bits - 1) := by
    apply BitVec.eq_of_getLsbD_eq
    intro i hi
    rw [BitVec.getLsbD_setWidth, BitVec.getLsbD_sshiftRight, BitVec.getLsbD_sshiftRight, BitVec.getLsbD_signExtend,
      BitVec.msb_signExtend]
    have hp : i < w.promoted := by omega
    simp only [hi, not_le.2 hi, not_le.2 hp, decide_true, decide_false, Bool.not_false, Bool.true_and]
    rcases Nat.eq_zero_or_pos i with rfl | hi'
    · rw [if_pos (by omega), if_pos (by omega), decide_eq_true (by omega), Bool.true_and]
    · rw [if_neg (show ¬w.bits - 1 + i < w.bits by omega)]
      split
      · rename_i hlt
        rw [decide_eq_true hlt, Bool.true_and]
      · rw [decide_eq_true (by omega), Bool.true_and]
        split
        · rw [Nat.sub_eq_zero_of_le hle, BitVec.msb]
        · rfl
  rw [zigzagEncode, BitVec.setWidth_xor, hleft, hright, zigzag]

theorem zigzagDecode_eq (value : BitVec w.bits) : zigzagDecode value = unzigzag value := by
  have hle := w.bits_le_promoted
  have hpos := w.bits_pos
  have hleft : (value.setWidth w.promoted >>> 1).setWidth w.bits = value >>> 1 := by
    apply BitVec.eq_of_getLsbD_eq
    intro i hi
    simp only [BitVec.getLsbD_setWidth, BitVec.getLsbD_ushiftRight, hi, decide_true, Bool.true_and]
    rcases Nat.lt_or_ge (1 + i) w.promoted with hlt | hge
    · rw [decide_eq_true hlt, Bool.true_and]
    · rw [decide_eq_false (by omega), Bool.false_and, BitVec.getLsbD_of_ge value _ (by omega)]
  have hright : (0 - (value.setWidth w.promoted &&& 1)).setWidth w.bits = 0 - (value &&& 1) := by
    show (0#w.promoted - (value.setWidth w.promoted &&& 1#w.promoted)).setWidth w.bits = 0#w.bits - (value &&& 1#w.bits)
    rw [BitVec.zero_sub, BitVec.zero_sub, BitVec.setWidth_neg_of_le hle, BitVec.setWidth_and,
      BitVec.setWidth_setWidth_of_le _ hle, BitVec.setWidth_eq, BitVec.setWidth_ofNat_of_le hle]
  rw [zigzagDecode]
  rw [BitVec.setWidth_xor, hleft, hright, unzigzag]

/-- The table holds the lengths. -/
theorem getVlqDecodeLength_eq (b : UInt8) : getVlqDecodeLength b = decodeLength b := by
  have hall : ∀ n < 256, getVlqDecodeLength (UInt8.ofNat n) = decodeLength (UInt8.ofNat n) := by decide +kernel
  have h := hall b.toNat b.toNat_lt
  rwa [UInt8.ofNat_toNat] at h

theorem foldl_poke (m : Mem) (a v k : ℕ) :
    (List.range k).foldl (fun m i => m.poke (a + i) (encodedByte v i)) m = m.store a k v := by
  induction k with
  | zero =>
    funext x
    exact (Mem.store_apply_of_not_mem m v (by omega)).symm
  | succ k ih =>
    rw [List.range_succ, List.foldl_append, ih, List.foldl_cons, List.foldl_nil]
    funext x
    rcases eq_or_ne x (a + k) with rfl | hx
    · rw [Mem.poke_self, Mem.store_apply_of_mem _ _ (by omega) (by omega), Nat.add_sub_cancel_left, encodedByte]
    · rw [Mem.poke_apply_of_ne _ _ hx]
      by_cases hin : a ≤ x ∧ x < a + k
      · rw [Mem.store_apply_of_mem _ _ hin.1 hin.2, Mem.store_apply_of_mem _ _ hin.1 (by omega)]
      · rw [Mem.store_apply_of_not_mem _ _ (by omega), Mem.store_apply_of_not_mem _ _ (by omega)]

theorem firstByte_eq {value : ℕ} (h : value < 2 ^ 64) :
    firstByte (encodeLength value) (value - minValueOfLength (encodeLength value)) =
      UInt8.ofNat (firstBit (encodeLength value) +
        (value - minValueOfLength (encodeLength value)) / 256 ^ (encodeLength value - 1)) := by
  unfold firstByte
  split
  · rename_i hnine
    rw [(highByte_lt h).2 hnine, hnine]
    rfl
  · rw [UInt8.ofNat_add]
    rfl

/-- **What is written are the bytes of the number.** -/
theorem vlqEncode_eq {value : ℕ} (h : value < 2 ^ 64) (m : Mem) (target : ℕ) :
    vlqEncode value m target = (m.write target (encode value), encodeLength value) := by
  obtain ⟨b, hb, hbv⟩ := encode_cons value
  rw [vlqEncode]
  rw [foldl_poke, store_eq_write, firstByte_eq h, ← hbv, Mem.poke_eq_write, hb]
  exact congrArg (·, encodeLength value) (Mem.write_append m target [b] _)

/-- The first byte below its highest bit. -/
theorem firstByte_sub {length x : ℕ} (hx : x < 256) :
    (UInt8.ofNat (firstBit length + x) - UInt8.ofNat (firstBit length)).toNat = x := by
  rw [Nat.add_comm, UInt8.ofNat_add, UInt8.add_sub_cancel, UInt8.toNat_ofNat', Nat.mod_eq_of_lt hx]

/-- **What is read is the number**, if its bytes are there and it is one of the type. -/
theorem vlqDecode_eq {value src : ℕ} {m : Mem} (h : value < 2 ^ w.bits) (hlen : encodeLength value ≤ w.bytes + 1)
    (hm : m.slice src (encodeLength value) = encode value) :
    vlqDecode w m src = some (value, encodeLength value) := by
  have h64 : value < 2 ^ 64 := h.trans_le (Nat.pow_le_pow_right (by norm_num) w.bits_le)
  obtain ⟨h1, h9, hlow, -⟩ := encodeLength_spec value
  obtain ⟨hhigh, hzero⟩ := highByte_lt h64
  obtain ⟨b, hb, hbv⟩ := encode_cons value
  have hlength := decodeLength_head h64 hb
  rw [hb] at hm
  generalize encodeLength value = length at *
  obtain ⟨k, rfl⟩ := Nat.exists_eq_add_of_le' h1
  have hsplit : m.slice src (k + 1) = m src :: m.slice (src + 1) k := by
    rw [Nat.add_comm, Mem.slice_add]
    rfl
  rw [hsplit, Nat.add_sub_cancel] at hm
  obtain ⟨rfl, hrest⟩ := List.cons.inj hm
  rw [Nat.add_sub_cancel] at hhigh hzero hbv
  have hdiv := Nat.div_add_mod' (value - minValueOfLength (k + 1)) (256 ^ k)
  have hfirst : (if k + 1 = 9 then 0 else (m src - UInt8.ofNat (firstBit (k + 1))).toNat) =
      (value - minValueOfLength (k + 1)) / 256 ^ k := by
    split
    · rename_i hnine
      exact (hzero hnine).symm
    · have hx := hhigh (by omega)
      have hpow : 2 ^ (8 - (k + 1)) ≤ 2 ^ 8 := Nat.pow_le_pow_right (by norm_num) (by omega)
      rw [hbv, firstByte_sub (by omega)]
  rw [vlqDecode]
  simp only [getVlqDecodeLength_eq]
  rw [hlength, if_neg (by omega), hfirst, Nat.add_sub_cancel, load_eq_ofLe,
    hrest, ofLe_toLe_mod, Nat.add_comm (_ % _), hdiv, Nat.sub_add_cancel hlow, Nat.mod_eq_of_lt h64, Nat.mod_eq_of_lt h]

/-- The bytes that a number of the type needs. -/
theorem encodeLength_le_bytes {value : ℕ} (h : value < 2 ^ w.bits) : encodeLength value ≤ w.bytes + 1 := by
  rw [encodeLength_eq]
  cases w with
  | w8 =>
    have h : value < 2 ^ 8 := h
    show _ ≤ 1 + 1
    split_ifs <;> omega
  | w16 =>
    have h : value < 2 ^ 16 := h
    show _ ≤ 2 + 1
    split_ifs <;> omega
  | w32 =>
    have h : value < 2 ^ 32 := h
    show _ ≤ 4 + 1
    split_ifs <;> omega
  | w64 =>
    show _ ≤ 8 + 1
    split_ifs <;> omega

/-- **Round trip of the number formats**, for every type and every number of it. -/
theorem vlq_zigzag_roundTrip (w : Width) (v : BitVec w.bits) (m : Mem) (target : ℕ) :
    -- as many bytes are written as the length says, and no others
    (vlqEncode v.toNat m target).2 = encodeLength v.toNat ∧ encodeLength v.toNat ≤ w.bytes + 1 ∧
      (∀ x, x < target ∨ target + encodeLength v.toNat ≤ x → (vlqEncode v.toNat m target).1 x = m x) ∧
      -- they are read back, whatever follows them
      (∀ m' : Mem, (∀ x, target ≤ x → x < target + encodeLength v.toNat → m' x = (vlqEncode v.toNat m target).1 x) →
        vlqDecode w m' target = some (v.toNat, encodeLength v.toNat)) ∧
      -- no other number has bytes that begin them
      (∀ (w' : Width) (u : BitVec w'.bits),
        (vlqEncode u.toNat m target).1.slice target (encodeLength u.toNat) <+:
          (vlqEncode v.toNat m target).1.slice target (encodeLength v.toNat) → u.toNat = v.toNat) ∧
      (∀ (w' : Width) (u : BitVec w'.bits), u.toNat ≤ v.toNat → encodeLength u.toNat ≤ encodeLength v.toNat) ∧
      -- a signed number is unfolded again, also behind the other format
      zigzagDecode (zigzagEncode v) = v ∧
      ∀ m' : Mem, (∀ x, target ≤ x → x < target + encodeLength (zigzagEncode v).toNat →
        m' x = (vlqEncode (zigzagEncode v).toNat m target).1 x) →
          (vlqDecode w m' target).map (fun d => zigzagDecode (BitVec.ofNat w.bits d.1)) = some v := by
  have h64 : ∀ (w' : Width) (u : BitVec w'.bits), u.toNat < 2 ^ 64 := fun w' u =>
    u.isLt.trans_le (Nat.pow_le_pow_right (by norm_num) w'.bits_le)
  have hslice : ∀ (w' : Width) (u : BitVec w'.bits),
      (vlqEncode u.toNat m target).1.slice target (encodeLength u.toNat) = encode u.toNat := by
    intro w' u
    rw [vlqEncode_eq (h64 w' u), ← length_encode, Mem.slice_write]
  have hread : ∀ (u : BitVec w.bits) (m' : Mem), (∀ x, target ≤ x → x < target + encodeLength u.toNat →
      m' x = (vlqEncode u.toNat m target).1 x) → vlqDecode w m' target = some (u.toNat, encodeLength u.toNat) := by
    intro u m' hm'
    refine vlqDecode_eq u.isLt (encodeLength_le_bytes u.isLt) ?_
    rw [Mem.slice_congr hm', hslice]
  have hzigzag : zigzagDecode (zigzagEncode v) = v := by
    rw [zigzagDecode_eq, zigzagEncode_eq, unzigzag_zigzag]
  refine ⟨rfl, encodeLength_le_bytes v.isLt, fun x hx => ?_, hread v, fun w' u hprefix => ?_,
    fun w' u hle => encodeLength_mono hle, hzigzag, fun m' hm' => ?_⟩
  · rw [vlqEncode_eq (h64 w v)]
    exact Mem.write_apply_of_not_mem m (by rwa [length_encode])
  · -- Both are read from the longer one.
    rw [hslice, hslice] at hprefix
    obtain ⟨rest, hrest⟩ := hprefix
    have hu := decode_encode (h64 w' u) rest
    have hv := decode_encode (h64 w v) []
    rw [hrest, ← List.append_nil (encode v.toNat), hv] at hu
    exact (Prod.mk.inj (Option.some.inj hu)).1.symm
  · rw [hread (zigzagEncode v) m' hm', Option.map_some, BitVec.ofNat_toNat, BitVec.setWidth_eq, hzigzag]

end QLog.LogUtils
