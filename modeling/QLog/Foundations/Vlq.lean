import QLog.Foundations.Bytes

/-!
# Numbers of variable length

A number is written in one to nine bytes. The position of the highest bit of the first byte says how
many bytes there are, the bits behind it and the bytes that follow hold the difference to the least
number of that length. `decode` reads what `encode` wrote (`decode_encode`), and the first byte alone
tells the length (`decodeLength_head`).

A signed number is folded to an unsigned one, the sign in the lowest bit (`zigzag`).
-/

namespace QLog.Vlq

open Bytes

/-- `min_value_of_length`. -/
def minValueOfLength : ℕ → ℕ
  | 0 => 0
  | 1 => 0
  | n + 2 => minValueOfLength (n + 1) + 2 ^ ((n + 1) * 7)

/-- `get_vlq_encode_length`. -/
def encodeLength (value : ℕ) : ℕ :=
  if value < minValueOfLength 2 then 1
  else if value < minValueOfLength 3 then 2
  else if value < minValueOfLength 4 then 3
  else if value < minValueOfLength 5 then 4
  else if value < minValueOfLength 6 then 5
  else if value < minValueOfLength 7 then 6
  else if value < minValueOfLength 8 then 7
  else if value < minValueOfLength 9 then 8
  else 9

/-- `prefix`: the highest bit of the first byte. -/
def firstBit (length : ℕ) : ℕ := if length = 9 then 0 else 2 ^ (8 - length)

/-- The bytes of a length: the highest byte of the difference is in the first one. -/
def encodeAs (length value : ℕ) : List UInt8 :=
  let encoded := value - minValueOfLength length
  UInt8.ofNat (firstBit length + encoded / 256 ^ (length - 1)) :: toLe (length - 1) encoded

/-- `vlq_encode`. -/
def encode (value : ℕ) : List UInt8 := encodeAs (encodeLength value) value

/-- `get_vlq_decode_length`. -/
def decodeLength (b : UInt8) : ℕ := if b = 0 then 9 else 8 - b.toNat.log2

/-- `vlq_decode`: the value and its length. -/
def decode : List UInt8 → Option (ℕ × ℕ)
  | [] => none
  | b :: bs =>
    let length := decodeLength b
    if length - 1 ≤ bs.length then
      some ((b.toNat - firstBit length) * 256 ^ (length - 1) + ofLe (bs.take (length - 1)) +
        minValueOfLength length, length)
    else none

/-- `zigzag::encode`. -/
def zigzag {w : ℕ} (value : BitVec w) : BitVec w := (value <<< 1) ^^^ value.sshiftRight (w - 1)

/-- `zigzag::decode`. -/
def unzigzag {w : ℕ} (value : BitVec w) : BitVec w := (value >>> 1) ^^^ (0 - (value &&& 1))

/-! ## Lengths -/

theorem minValueOfLength_mono {j k : ℕ} (h : j ≤ k) : minValueOfLength j ≤ minValueOfLength k := by
  induction k with
  | zero =>
    rw [Nat.le_zero.1 h]
  | succ k ih =>
    rcases Nat.lt_or_ge k j with hk | hk
    · rw [show j = k + 1 by omega]
    · refine (ih hk).trans ?_
      cases k with
      | zero => exact le_rfl
      | succ k =>
        rw [minValueOfLength]
        exact Nat.le_add_right _ _

/-- The lengths in numbers. -/
theorem encodeLength_eq (value : ℕ) : encodeLength value =
    if value < 128 then 1 else if value < 16512 then 2 else if value < 2113664 then 3
    else if value < 270549120 then 4 else if value < 34630287488 then 5
    else if value < 4432676798592 then 6 else if value < 567382630219904 then 7
    else if value < 72624976668147840 then 8 else 9 := rfl

/-- **What a length means**: the value is at least the least one of its length, and below the next. -/
theorem encodeLength_spec (value : ℕ) :
    1 ≤ encodeLength value ∧ encodeLength value ≤ 9 ∧ minValueOfLength (encodeLength value) ≤ value ∧
      (encodeLength value ≤ 8 → value < minValueOfLength (encodeLength value + 1)) := by
  rw [encodeLength_eq]
  split_ifs
  all_goals
    norm_num [minValueOfLength]
    try omega

theorem encodeLength_le_iff {value k : ℕ} (hk : 1 ≤ k) (hk' : k ≤ 8) :
    encodeLength value ≤ k ↔ value < minValueOfLength (k + 1) := by
  obtain ⟨h1, h9, hlow, hhigh⟩ := encodeLength_spec value
  refine ⟨fun hle => ?_, fun hlt => ?_⟩
  · exact (hhigh (by omega)).trans_le (minValueOfLength_mono (by omega))
  · by_contra hgt
    exact absurd (hlow.trans_lt hlt) (Nat.not_lt.2 (minValueOfLength_mono (by omega)))

theorem encodeLength_mono {v w : ℕ} (h : v ≤ w) : encodeLength v ≤ encodeLength w := by
  obtain ⟨h1, h9, hlow, hhigh⟩ := encodeLength_spec w
  rcases Nat.lt_or_ge (encodeLength w) 9 with hlt | hge
  · exact (encodeLength_le_iff h1 (by omega)).2 (h.trans_lt (hhigh (by omega)))
  · exact (encodeLength_spec v).2.1.trans hge

/-- The differences of a length fit into its bits. -/
theorem minValueOfLength_succ {k : ℕ} (hk : 1 ≤ k) :
    minValueOfLength (k + 1) = minValueOfLength k + 2 ^ (k * 7) := by
  obtain ⟨k, rfl⟩ := Nat.exists_eq_add_of_le' hk
  rfl

theorem minValueOfLength_add_two (k : ℕ) :
    minValueOfLength (k + 2) = 128 * (minValueOfLength (k + 1) + 1) := by
  induction k with
  | zero => rfl
  | succ k ih =>
    have hpow : 2 ^ ((k + 2) * 7) = 128 * 2 ^ ((k + 1) * 7) := by
      rw [show (k + 2) * 7 = 7 + (k + 1) * 7 by omega, pow_add]
      norm_num
    have h3 : minValueOfLength (k + 3) = minValueOfLength (k + 2) + 2 ^ ((k + 2) * 7) := rfl
    have h2 : minValueOfLength (k + 2) = minValueOfLength (k + 1) + 2 ^ ((k + 1) * 7) := rfl
    change minValueOfLength (k + 3) = 128 * (minValueOfLength (k + 2) + 1)
    omega

/-- A number that is less than 128 times as great has at most one byte more. -/
theorem encodeLength_le_succ {v w : ℕ} (h : w < 128 * (v + 1)) :
    encodeLength w ≤ encodeLength v + 1 := by
  obtain ⟨h1, h9, hlow, hhigh⟩ := encodeLength_spec v
  rcases Nat.lt_or_ge (encodeLength v) 8 with hlt | hge
  · rw [encodeLength_le_iff (by omega) (by omega), minValueOfLength_add_two]
    have := hhigh (by omega)
    omega
  · exact (encodeLength_spec w).2.1.trans (by omega)

/-! ## Reading what was written -/

@[simp] theorem length_encodeAs {length : ℕ} (h : 1 ≤ length) (value : ℕ) :
    (encodeAs length value).length = length := by
  rw [encodeAs, List.length_cons, length_toLe]
  omega

@[simp] theorem length_encode (value : ℕ) : (encode value).length = encodeLength value :=
  length_encodeAs (encodeLength_spec value).1 value

/-- The first byte: its highest bit, and the highest byte of the difference below it. -/
theorem firstByte_spec {length x : ℕ} (h1 : 1 ≤ length) (h9 : length ≤ 9)
    (hx : length ≤ 8 → x < 2 ^ (8 - length)) (hx' : length = 9 → x = 0) :
    decodeLength (UInt8.ofNat (firstBit length + x)) = length ∧
      (UInt8.ofNat (firstBit length + x)).toNat - firstBit length = x := by
  rcases Nat.lt_or_ge length 9 with hlt | hge
  · have hall : ∀ length < 9, 1 ≤ length → ∀ x < 2 ^ (8 - length),
        decodeLength (UInt8.ofNat (firstBit length + x)) = length ∧
          (UInt8.ofNat (firstBit length + x)).toNat - firstBit length = x := by
      decide +kernel
    exact hall length hlt h1 x (hx (by omega))
  · obtain rfl : length = 9 := by omega
    obtain rfl := hx' rfl
    decide

/-- The highest byte of the difference. -/
theorem highByte_lt {value : ℕ} (h : value < 2 ^ 64) :
    (encodeLength value ≤ 8 → (value - minValueOfLength (encodeLength value)) /
        256 ^ (encodeLength value - 1) < 2 ^ (8 - encodeLength value)) ∧
      (encodeLength value = 9 → (value - minValueOfLength (encodeLength value)) /
        256 ^ (encodeLength value - 1) = 0) := by
  obtain ⟨h1, h9, hlow, hhigh⟩ := encodeLength_spec value
  generalize encodeLength value = k at *
  refine ⟨fun h8 => ?_, fun h9 => ?_⟩
  · have hlt := hhigh h8
    rw [minValueOfLength_succ h1] at hlt
    rw [Nat.div_lt_iff_lt_mul (by positivity)]
    have hpow : 2 ^ (8 - k) * 256 ^ (k - 1) = 2 ^ (k * 7) := by
      rw [show (256 : ℕ) = 2 ^ 8 by norm_num, ← pow_mul, ← pow_add]
      congr 1
      omega
    rw [hpow]
    omega
  · subst h9
    rw [Nat.div_eq_of_lt]
    norm_num
    omega

theorem encode_cons (value : ℕ) : ∃ b, encode value = b :: toLe (encodeLength value - 1)
    (value - minValueOfLength (encodeLength value)) ∧
    b = UInt8.ofNat (firstBit (encodeLength value) +
      (value - minValueOfLength (encodeLength value)) / 256 ^ (encodeLength value - 1)) :=
  ⟨_, rfl, rfl⟩

/-- **Reading a number back**, whatever follows it. -/
theorem decode_encode {value : ℕ} (h : value < 2 ^ 64) (rest : List UInt8) :
    decode (encode value ++ rest) = some (value, encodeLength value) := by
  obtain ⟨h1, h9, hlow, -⟩ := encodeLength_spec value
  obtain ⟨hhigh, hzero⟩ := highByte_lt h
  obtain ⟨hlen, hval⟩ := firstByte_spec h1 h9 hhigh hzero
  obtain ⟨b, hb, hbv⟩ := encode_cons value
  rw [← hbv] at hlen hval
  rw [hb, List.cons_append, decode]
  simp only [hlen]
  rw [if_pos (by rw [List.length_append, length_toLe]; omega), hval, List.take_left' (length_toLe _ _),
    ofLe_toLe_mod]
  have hdiv := Nat.div_add_mod' (value - minValueOfLength (encodeLength value))
    (256 ^ (encodeLength value - 1))
  rw [hdiv, Nat.sub_add_cancel hlow]

/-- **The first byte tells the length.** -/
theorem decodeLength_head {value : ℕ} (h : value < 2 ^ 64) {b : UInt8} {bs : List UInt8}
    (hb : encode value = b :: bs) : decodeLength b = encodeLength value := by
  obtain ⟨h1, h9, hlow, -⟩ := encodeLength_spec value
  obtain ⟨hhigh, hzero⟩ := highByte_lt h
  obtain ⟨c, hc, hcv⟩ := encode_cons value
  obtain ⟨rfl, -⟩ := List.cons.inj (hb.symm.trans hc)
  rw [hcv]
  exact (firstByte_spec h1 h9 hhigh hzero).1

/-- From two bytes on, the first byte is not 0 and its highest bit is not set. -/
theorem head_encode {value : ℕ} (h2 : 2 ≤ encodeLength value) (h8 : encodeLength value ≤ 8) {b : UInt8}
    {bs : List UInt8} (hb : encode value = b :: bs) : 0 < b.toNat ∧ b.toNat < 128 := by
  obtain ⟨-, -, hlow, hhigh⟩ := encodeLength_spec value
  have hlt : value < 2 ^ 64 := by
    refine (hhigh h8).trans_le ((minValueOfLength_mono (show _ ≤ 9 by omega)).trans ?_)
    norm_num [minValueOfLength]
  have hx := (highByte_lt hlt).1 h8
  obtain ⟨c, hc, hcv⟩ := encode_cons value
  obtain ⟨rfl, -⟩ := List.cons.inj (hb.symm.trans hc)
  generalize (value - minValueOfLength (encodeLength value)) / 256 ^ (encodeLength value - 1) = x at *
  generalize encodeLength value = k at *
  have hbit : firstBit k = 2 ^ (8 - k) := if_neg (by omega)
  have hpow : 2 ^ (8 - k) ≤ 2 ^ 6 := Nat.pow_le_pow_right (by omega) (by omega)
  have hpos := Nat.two_pow_pos (8 - k)
  rw [hcv, UInt8.toNat_ofNat', hbit, Nat.mod_eq_of_lt (by omega)]
  omega

/-! ## Signed numbers -/

theorem sshiftRight_last {w : ℕ} (value : BitVec w) :
    value.sshiftRight (w - 1) = if value.msb then BitVec.allOnes w else 0 := by
  apply BitVec.eq_of_getLsbD_eq
  intro i hi
  rw [BitVec.getLsbD_sshiftRight, BitVec.msb_eq_getLsbD_last]
  have hw : decide (w ≤ i) = false := by simpa using hi
  rw [hw, Bool.not_false, Bool.true_and]
  rcases Nat.eq_zero_or_pos i with rfl | hpos
  · rw [if_pos (by omega), Nat.add_zero]
    cases value.getLsbD (w - 1) <;> simp [hi]
  · rw [if_neg (by omega)]
    cases value.getLsbD (w - 1) <;> simp [hi]

theorem getLsbD_zigzag {w : ℕ} (value : BitVec w) (i : ℕ) (hi : i < w) :
    (zigzag value).getLsbD i = ((decide (0 < i) && value.getLsbD (i - 1)) ^^ value.msb) := by
  unfold zigzag
  rw [sshiftRight_last, BitVec.getLsbD_xor, BitVec.getLsbD_shiftLeft]
  cases value.msb <;> rcases Nat.eq_zero_or_pos i with rfl | hpos <;> simp_all <;> omega

/-- **Folding keeps the number.** -/
theorem unzigzag_zigzag {w : ℕ} (value : BitVec w) : unzigzag (zigzag value) = value := by
  rcases Nat.eq_zero_or_pos w with rfl | hw
  · exact Subsingleton.elim _ _
  have hlow : (zigzag value &&& 1) = if value.msb then 1 else 0 := by
    apply BitVec.eq_of_getLsbD_eq
    intro i hi
    rw [BitVec.getLsbD_and, getLsbD_zigzag value i hi]
    rcases Nat.eq_zero_or_pos i with rfl | hpos
    · cases value.msb <;> simp [hw]
    · cases value.msb <;> simp [BitVec.getLsbD_one] <;> omega
  unfold unzigzag
  rw [hlow]
  apply BitVec.eq_of_getLsbD_eq
  intro i hi
  rw [BitVec.getLsbD_xor, BitVec.getLsbD_ushiftRight]
  have hones : (0 - (if value.msb then 1 else 0 : BitVec w)) =
      if value.msb then BitVec.allOnes w else 0 := by
    cases value.msb <;> simp [BitVec.neg_one_eq_allOnes]
  rw [hones]
  rcases Nat.lt_or_ge (1 + i) w with hlt | hge
  · rw [getLsbD_zigzag value _ hlt]
    cases value.msb <;> simp [hi]
  · have hlast : i = w - 1 := by omega
    rw [BitVec.getLsbD_of_ge _ _ hge]
    have hmsb := BitVec.msb_eq_getLsbD_last value
    subst hlast
    rw [← hmsb]
    cases value.msb <;> simp [hw]

end QLog.Vlq
