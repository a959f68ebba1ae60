import QLog.Foundations.Limbs
import QLog.Encryption.Keys

/-!
# Numbers of 32-bit limbs

The `bn_*` functions of `rsa.cpp`. A number is the list of its limbs, the least significant first, and all
numbers of a computation have the same number of limbs; `bnVal` is its value. Each function has one lemma
that says what it computes.
-/

namespace QLog.Encryption

open Bytes (ofLe)

/-- The value of a list of limbs. -/
def bnVal (x : List UInt32) : ℕ := Nat.ofDigits (2 ^ 32) (x.map UInt32.toNat)

/-- `bn_zero`. -/
def bnZero (l : ℕ) : List UInt32 := List.replicate l 0

/-- The loop of `bn_ucmp`, from the most significant limb on. -/
def bnUcmpLoop : List UInt32 → List UInt32 → ℤ
  | x :: xs, y :: ys => if x < y then -1 else if y < x then 1 else bnUcmpLoop xs ys
  | _, _ => 0

/-- `bn_ucmp`. -/
def bnUcmp (a b : List UInt32) : ℤ := bnUcmpLoop a.reverse b.reverse

/-- The loop of `bn_add`, with the carry in `c`. -/
def bnAddLoop : UInt64 → List UInt32 → List UInt32 → List UInt32 × UInt32
  | c, x :: xs, y :: ys =>
    let c := c + x.toUInt64
    let c := c + y.toUInt64
    let r := bnAddLoop (c >>> 32) xs ys
    (c.toUInt32 :: r.1, r.2)
  | c, _, _ => ([], c.toUInt32)

/-- `bn_add`: the sum and the carry. -/
def bnAdd (a b : List UInt32) : List UInt32 × UInt32 := bnAddLoop 0 a b

/-- The loop of `bn_sub`, with the borrow in `c`. -/
def bnSubLoop : UInt64 → List UInt32 → List UInt32 → List UInt32 × UInt32
  | c, x :: xs, y :: ys =>
    let t := x.toUInt64 - y.toUInt64 - c
    let r := bnSubLoop ((t >>> 63) &&& 1) xs ys
    (t.toUInt32 :: r.1, r.2)
  | c, _, _ => ([], c.toUInt32)

/-- `bn_sub`: the difference and the borrow. -/
def bnSub (a b : List UInt32) : List UInt32 × UInt32 := bnSubLoop 0 a b

/-- A turn of `bn_from_be_bytes`: byte `o` from the end goes into its limb. -/
def bnPutByte (l : ℕ) (x : List UInt32) (o : ℕ) (byte : UInt8) : List UInt32 :=
  if o >>> 2 < l then
    x.modify (o >>> 2) fun limb => limb ||| byte.toUInt32 <<< (8 * UInt32.ofNat (o &&& 3))
  else x

/-- `bn_from_be_bytes`. -/
def bnFromBeBytes (l : ℕ) (be : List UInt8) : List UInt32 :=
  (List.range be.length).foldl (fun x o => bnPutByte l x o (be.getD (be.length - 1 - o) 0)) (bnZero l)

/-- Byte `i` of a number, counted from the least significant one. -/
def bnByte (x : List UInt32) (l i : ℕ) : UInt8 :=
  if i >>> 2 < l then ((x.getD (i >>> 2) 0 >>> (8 * UInt32.ofNat (i &&& 3))) &&& 0xFF).toUInt8 else 0

/-- `bn_to_be_bytes`. -/
def bnToBeBytes (x : List UInt32) (l outLen : ℕ) : List UInt8 :=
  (List.range outLen).foldl (fun out i => out.set (outLen - 1 - i) (bnByte x l i))
    (List.replicate outLen 0)

/-- The search for the highest bit of a word, from `pos` downwards. -/
def highestBit : ℕ → UInt32 → ℕ
  | 0, _ => 0
  | pos + 1, x => if x &&& (1 : UInt32) <<< 31 = 0 then highestBit pos (x <<< 1) else pos + 1

/-- The loop of `bn_bitlen`, from the most significant limb on. -/
def bnBitlenLoop : List UInt32 → ℕ
  | [] => 0
  | w :: ws => if w ≠ 0 then ws.length * 32 + highestBit 31 w + 1 else bnBitlenLoop ws

/-- `bn_bitlen`. -/
def bnBitlen (a : List UInt32) : ℕ := bnBitlenLoop a.reverse

/-- `bn_getbit`. -/
def bnGetbit (a : List UInt32) (l bitIndex : ℕ) : ℤ :=
  let wi := bitIndex >>> 5
  let bo := bitIndex &&& 31
  if l ≤ wi then 0 else (((a.getD wi 0 >>> UInt32.ofNat bo) &&& 1).toNat : ℤ)

/-! ## Values -/

@[simp] theorem bnVal_nil : bnVal [] = 0 := rfl

@[simp] theorem bnVal_cons (w : UInt32) (ws : List UInt32) :
    bnVal (w :: ws) = w.toNat + 2 ^ 32 * bnVal ws := Nat.ofDigits_cons ..

theorem mem_limbs_lt (x : List UInt32) : ∀ d ∈ x.map UInt32.toNat, d < 2 ^ 32 := by
  intro d hd
  obtain ⟨w, -, rfl⟩ := List.mem_map.1 hd
  exact w.toNat_lt

theorem bnVal_lt (x : List UInt32) : bnVal x < 2 ^ (32 * x.length) := by
  have := ofDigits_lt (by decide) (mem_limbs_lt x)
  rwa [List.length_map] at this

theorem bnVal_zero (l : ℕ) : bnVal (bnZero l) = 0 := by
  induction l with
  | zero => rfl
  | succ l ih =>
    rw [bnZero] at ih ⊢
    rw [List.replicate_succ, bnVal_cons, ih]
    rfl

/-- The bits of a number. -/
theorem testBit_bnVal (x : List UInt32) (i : ℕ) :
    (bnVal x).testBit i = (x.getD (i / 32) 0).toNat.testBit (i % 32) := by
  rw [bnVal, testBit_ofDigits (by decide) (mem_limbs_lt x)]
  congr 1
  rw [show (0 : ℕ) = (0 : UInt32).toNat from rfl, List.getD_map]

theorem testBit_ofLe (bytes : List UInt8) (i : ℕ) :
    (ofLe bytes).testBit i = (bytes.getD (i / 8) 0).toNat.testBit (i % 8) := by
  have hval : ofLe bytes = Nat.ofDigits (2 ^ 8) (bytes.map UInt8.toNat) := by
    induction bytes with
    | nil => rfl
    | cons b bs ih =>
      rw [ofLe, ih, List.map_cons, Nat.ofDigits_cons]
      rfl
  have hlt : ∀ d ∈ bytes.map UInt8.toNat, d < 2 ^ 8 := by
    intro d hd
    obtain ⟨b, -, rfl⟩ := List.mem_map.1 hd
    exact b.toNat_lt
  rw [hval, testBit_ofDigits (by decide) hlt]
  congr 1
  rw [show (0 : ℕ) = (0 : UInt8).toNat from rfl, List.getD_map]

/-! ## Comparison, addition and subtraction -/

theorem bnUcmpLoop_nonneg_iff (xs ys : List UInt32) (hlen : xs.length = ys.length) :
    0 ≤ bnUcmpLoop xs ys ↔ bnVal ys.reverse ≤ bnVal xs.reverse := by
  induction xs generalizing ys with
  | nil =>
    obtain rfl := List.length_eq_zero_iff.1 hlen.symm
    exact iff_of_true (le_refl _) (le_refl _)
  | cons x xs ih =>
    cases ys with
    | nil => simp at hlen
    | cons y ys =>
      have hlen' : xs.length = ys.length := by simpa using hlen
      have hmap : (xs.reverse.map UInt32.toNat).length = (ys.reverse.map UInt32.toNat).length := by
        simpa using hlen'
      rw [bnUcmpLoop, List.reverse_cons, List.reverse_cons, bnVal, bnVal, List.map_append,
        List.map_append, List.map_singleton, List.map_singleton]
      by_cases hlt : x < y
      · have := ofDigits_concat_lt (by decide) (mem_limbs_lt xs.reverse) hmap
          (UInt32.lt_iff_toNat_lt.1 hlt)
        rw [if_pos hlt]
        exact iff_of_false (by decide) (by omega)
      rw [if_neg hlt]
      by_cases hgt : y < x
      · have := ofDigits_concat_lt (by decide) (mem_limbs_lt ys.reverse) hmap.symm
          (UInt32.lt_iff_toNat_lt.1 hgt)
        rw [if_pos hgt]
        exact iff_of_true (by decide) (by omega)
      · obtain rfl : x = y := UInt32.le_antisymm (UInt32.not_lt.1 hgt) (UInt32.not_lt.1 hlt)
        rw [if_neg hgt, ih ys hlen', ofDigits_concat_le_iff hmap.symm]
        rfl

/-- `bn_ucmp` compares the values. -/
theorem bnUcmp_nonneg_iff {a b : List UInt32} (hlen : a.length = b.length) :
    0 ≤ bnUcmp a b ↔ bnVal b ≤ bnVal a := by
  rw [bnUcmp, bnUcmpLoop_nonneg_iff _ _ (by simpa using hlen), List.reverse_reverse, List.reverse_reverse]

theorem bnAddLoop_spec (c : UInt64) (a b : List UInt32) (hlen : a.length = b.length)
    (hc : c.toNat ≤ 1) :
    (bnAddLoop c a b).1.length = a.length ∧ (bnAddLoop c a b).2.toNat ≤ 1 ∧
      bnVal (bnAddLoop c a b).1 + 2 ^ (32 * a.length) * (bnAddLoop c a b).2.toNat =
        c.toNat + bnVal a + bnVal b := by
  induction a generalizing c b with
  | nil =>
    obtain rfl := List.length_eq_zero_iff.1 hlen.symm
    have hcarry : c.toUInt32.toNat = c.toNat := by
      rw [UInt64.toNat_toUInt32]
      omega
    refine ⟨rfl, ?_, ?_⟩
    · change c.toUInt32.toNat ≤ 1
      omega
    · change 0 + 2 ^ (32 * 0) * c.toUInt32.toNat = c.toNat + 0 + 0
      omega
  | cons x xs ih =>
    cases b with
    | nil => simp at hlen
    | cons y ys =>
      have hx := x.toNat_lt
      have hy := y.toNat_lt
      have hsum : (c + x.toUInt64 + y.toUInt64).toNat = c.toNat + x.toNat + y.toNat := by
        simp only [UInt64.toNat_add, UInt32.toNat_toUInt64]
        omega
      have hshift : ((c + x.toUInt64 + y.toUInt64) >>> 32).toNat =
          (c.toNat + x.toNat + y.toNat) / 2 ^ 32 := by
        rw [UInt64.toNat_shiftRight, hsum, Nat.shiftRight_eq_div_pow]
        rfl
      obtain ⟨hlen', hle, hval⟩ := ih ((c + x.toUInt64 + y.toUInt64) >>> 32) ys (by simpa using hlen)
        (by omega)
      refine ⟨congrArg (· + 1) hlen', hle, ?_⟩
      simp only [bnAddLoop, bnVal_cons, UInt64.toNat_toUInt32, hsum, List.length_cons] at hval ⊢
      rw [hshift] at hval
      rw [Nat.mul_succ, Nat.pow_add, Nat.mul_comm (2 ^ (32 * xs.length)), Nat.mul_assoc]
      generalize 2 ^ (32 * xs.length) * _ = top at *
      omega

/-- `bn_add` adds; the carry is the top of the sum. -/
theorem bnAdd_spec {a b : List UInt32} (hlen : a.length = b.length) :
    (bnAdd a b).1.length = a.length ∧ (bnAdd a b).2.toNat ≤ 1 ∧
      bnVal (bnAdd a b).1 + 2 ^ (32 * a.length) * (bnAdd a b).2.toNat = bnVal a + bnVal b := by
  obtain ⟨h1, h2, h3⟩ := bnAddLoop_spec 0 a b hlen (by decide)
  refine ⟨h1, h2, h3.trans ?_⟩
  rw [show (0 : UInt64).toNat = 0 from rfl, Nat.zero_add]

theorem bnSubLoop_spec (c : UInt64) (a b : List UInt32) (hlen : a.length = b.length)
    (hc : c.toNat ≤ 1) :
    (bnSubLoop c a b).1.length = a.length ∧ (bnSubLoop c a b).2.toNat ≤ 1 ∧
      bnVal (bnSubLoop c a b).1 + bnVal b + c.toNat =
        bnVal a + 2 ^ (32 * a.length) * (bnSubLoop c a b).2.toNat := by
  induction a generalizing c b with
  | nil =>
    obtain rfl := List.length_eq_zero_iff.1 hlen.symm
    have hcarry : c.toUInt32.toNat = c.toNat := by
      rw [UInt64.toNat_toUInt32]
      omega
    refine ⟨rfl, ?_, ?_⟩
    · change c.toUInt32.toNat ≤ 1
      omega
    · change 0 + 0 + c.toNat = 0 + 2 ^ (32 * 0) * c.toUInt32.toNat
      omega
  | cons x xs ih =>
    cases b with
    | nil => simp at hlen
    | cons y ys =>
      have hx := x.toNat_lt
      have hy := y.toNat_lt
      -- the difference of the limbs wraps around exactly if there is a borrow
      have hdiff : (x.toUInt64 - y.toUInt64 - c).toNat =
          if y.toNat + c.toNat ≤ x.toNat then x.toNat - y.toNat - c.toNat
          else 2 ^ 64 + x.toNat - y.toNat - c.toNat := by
        simp only [UInt64.toNat_sub, UInt32.toNat_toUInt64]
        split <;> omega
      have hborrow : (((x.toUInt64 - y.toUInt64 - c) >>> 63) &&& 1).toNat =
          if y.toNat + c.toNat ≤ x.toNat then 0 else 1 := by
        rw [UInt64.toNat_and, UInt64.toNat_shiftRight, hdiff, show (1 : UInt64).toNat = 2 ^ 1 - 1 from rfl,
          Nat.and_two_pow_sub_one_eq_mod, show (63 : UInt64).toNat % 64 = 63 from rfl,
          Nat.shiftRight_eq_div_pow]
        split <;> omega
      obtain ⟨hlen', hle, hval⟩ := ih (((x.toUInt64 - y.toUInt64 - c) >>> 63) &&& 1) ys
        (by simpa using hlen) (by rw [hborrow]; split <;> omega)
      refine ⟨congrArg (· + 1) hlen', hle, ?_⟩
      simp only [bnSubLoop, bnVal_cons, UInt64.toNat_toUInt32, hdiff, List.length_cons] at hval ⊢
      rw [hborrow] at hval
      rw [Nat.mul_succ, Nat.pow_add, Nat.mul_comm (2 ^ (32 * xs.length)), Nat.mul_assoc]
      generalize 2 ^ (32 * xs.length) * _ = top at *
      split at hval <;> rename_i h
      · rw [if_pos h]
        omega
      · rw [if_neg h]
        omega

/-- `bn_sub` subtracts; the borrow is the top that the difference lacks. -/
theorem bnSub_spec {a b : List UInt32} (hlen : a.length = b.length) :
    (bnSub a b).1.length = a.length ∧ (bnSub a b).2.toNat ≤ 1 ∧
      bnVal (bnSub a b).1 + bnVal b = bnVal a + 2 ^ (32 * a.length) * (bnSub a b).2.toNat :=
  bnSubLoop_spec 0 a b hlen (by decide)

/-! ## Bits and bytes -/

theorem highestBit_spec (pos : ℕ) (hpos : pos ≤ 31) (x : UInt32) :
    highestBit pos x ≤ pos ∧ x.toNat < 2 ^ (highestBit pos x + 1 + (31 - pos)) := by
  induction pos generalizing x with
  | zero => exact ⟨le_refl _, x.toNat_lt⟩
  | succ pos ih =>
    rw [highestBit]
    split
    · rename_i hbit
      obtain ⟨hle, hlt⟩ := ih (by omega) (x <<< 1)
      have hsmall : x.toNat < 2 ^ 31 := by
        by_contra hge
        have htest : x.toNat.testBit 31 = true := Nat.testBit_of_two_pow_le_and_two_pow_add_one_gt
          (by omega) x.toNat_lt
        have hand : (x &&& (1 : UInt32) <<< 31).toNat.testBit 31 = true := by
          rw [UInt32.toNat_and, Nat.testBit_and, htest]
          decide
        rw [hbit] at hand
        exact absurd hand (by decide)
      have hshift : (x <<< 1).toNat = 2 * x.toNat := by
        rw [UInt32.toNat_shiftLeft, show (1 : UInt32).toNat % 32 = 1 from rfl, Nat.shiftLeft_eq]
        omega
      rw [hshift, show highestBit pos (x <<< 1) + 1 + (31 - pos) =
        highestBit pos (x <<< 1) + 1 + (31 - (pos + 1)) + 1 by omega, Nat.pow_succ] at hlt
      exact ⟨by omega, by omega⟩
    · refine ⟨le_refl _, ?_⟩
      rw [show pos + 1 + 1 + (31 - (pos + 1)) = 32 by omega]
      exact x.toNat_lt

theorem bnBitlenLoop_spec (ws : List UInt32) : bnVal ws.reverse < 2 ^ bnBitlenLoop ws := by
  induction ws with
  | nil => decide
  | cons w ws ih =>
    have hconcat : bnVal (w :: ws).reverse = bnVal ws.reverse + 2 ^ (32 * ws.length) * w.toNat := by
      rw [List.reverse_cons, bnVal, List.map_append, List.map_singleton, ofDigits_concat,
        List.length_map, List.length_reverse]
      rfl
    rw [hconcat, bnBitlenLoop]
    split
    · have hlow := bnVal_lt ws.reverse
      obtain ⟨-, hlt⟩ := highestBit_spec 31 (le_refl _) w
      rw [List.length_reverse] at hlow
      rw [Nat.sub_self, Nat.add_zero] at hlt
      calc bnVal ws.reverse + 2 ^ (32 * ws.length) * w.toNat
          < 2 ^ (32 * ws.length) + 2 ^ (32 * ws.length) * w.toNat := Nat.add_lt_add_right hlow _
        _ = 2 ^ (32 * ws.length) * (w.toNat + 1) := by rw [Nat.mul_add, Nat.mul_one, Nat.add_comm]
        _ ≤ 2 ^ (32 * ws.length) * 2 ^ (highestBit 31 w + 1) := Nat.mul_le_mul_left _ hlt
        _ = 2 ^ (ws.length * 32 + highestBit 31 w + 1) := by
          rw [← Nat.pow_add, Nat.mul_comm, Nat.add_assoc]
    · rename_i hzero
      rw [not_not] at hzero
      rw [hzero, show (0 : UInt32).toNat = 0 from rfl, Nat.mul_zero, Nat.add_zero]
      exact ih

/-- A number has `bn_bitlen` bits at most. -/
theorem bnVal_lt_bitlen (a : List UInt32) : bnVal a < 2 ^ bnBitlen a := by
  have := bnBitlenLoop_spec a.reverse
  rwa [List.reverse_reverse] at this

/-- `bn_getbit` reads a bit of the value. -/
theorem bnGetbit_ne_zero_iff (a : List UInt32) (i : ℕ) :
    bnGetbit a a.length i ≠ 0 ↔ (bnVal a).testBit i = true := by
  have hbo : i &&& 31 = i % 32 := Nat.and_two_pow_sub_one_eq_mod i 5
  have hwi : i >>> 5 = i / 32 := Nat.shiftRight_eq_div_pow i 5
  rw [testBit_bnVal, bnGetbit]
  simp only [hbo, hwi]
  split
  · rename_i hout
    rw [List.getD_eq_default _ _ hout, show (0 : UInt32).toNat = 0 from rfl, Nat.zero_testBit]
    simp
  · have hmod : i % 32 < 32 := Nat.mod_lt _ (by decide)
    have hshift : (UInt32.ofNat (i % 32)).toNat % 32 = i % 32 := by
      rw [UInt32.toNat_ofNat']
      omega
    rw [UInt32.toNat_and, UInt32.toNat_shiftRight, hshift, show (1 : UInt32).toNat = 2 ^ 1 - 1 from rfl,
      Nat.and_two_pow_sub_one_eq_mod, Nat.testBit_eq_decide_div_mod_eq, Nat.shiftRight_eq_div_pow,
      Nat.pow_one, decide_eq_true_eq]
    omega

theorem length_bnPutByte (l : ℕ) (x : List UInt32) (o : ℕ) (byte : UInt8) :
    (bnPutByte l x o byte).length = x.length := by
  rw [bnPutByte]
  split
  · exact List.length_modify ..
  · rfl

/-- Putting a byte in sets the bits of that byte, if there is a limb for them. -/
theorem testBit_bnPutByte {l o : ℕ} {x : List UInt32} (hlen : x.length = l) (byte : UInt8) (i : ℕ) :
    (bnVal (bnPutByte l x o byte)).testBit i =
      ((bnVal x).testBit i || (decide (i / 8 = o ∧ i < 32 * l) && byte.toNat.testBit (i % 8))) := by
  have hwi : o >>> 2 = o / 4 := Nat.shiftRight_eq_div_pow o 2
  have hbo : o &&& 3 = o % 4 := Nat.and_two_pow_sub_one_eq_mod o 2
  rw [bnPutByte, hwi, hbo]
  by_cases ho : o / 4 < l
  swap
  · rw [if_neg ho, decide_eq_false (by omega), Bool.false_and, Bool.or_false]
  rw [if_pos ho, testBit_bnVal, testBit_bnVal, List.getD_eq_getElem?_getD]
  by_cases hlimb : o / 4 = i / 32
  · rw [← hlimb, List.getElem?_modify_eq, List.getElem?_eq_getElem (hlen ▸ ho),
      List.getD_eq_getElem _ _ (hlen ▸ ho)]
    change (_ ||| _ : UInt32).toNat.testBit _ = _
    have hshift : (8 * UInt32.ofNat (o % 4)).toNat % 32 = 8 * (o % 4) := by
      rw [UInt32.toNat_mul, UInt32.toNat_ofNat', show (8 : UInt32).toNat = 8 from rfl]
      omega
    rw [UInt32.toNat_or, Nat.testBit_or, UInt32.toNat_shiftLeft, hshift, UInt8.toNat_toUInt32,
      Nat.testBit_mod_two_pow, Nat.testBit_shiftLeft]
    congr 1
    by_cases hbyte : i / 8 = o
    · rw [show i % 32 - 8 * (o % 4) = i % 8 by omega, decide_eq_true (show i % 32 < 32 by omega),
        decide_eq_true (show 8 * (o % 4) ≤ i % 32 by omega),
        decide_eq_true (show i / 8 = o ∧ i < 32 * l by omega), Bool.true_and]
    · rw [decide_eq_false (show ¬(i / 8 = o ∧ i < 32 * l) from fun h => hbyte h.1), Bool.false_and]
      by_cases hbelow : 8 * (o % 4) ≤ i % 32
      · have hhigh : byte.toNat.testBit (i % 32 - 8 * (o % 4)) = false :=
          Nat.testBit_lt_two_pow (byte.toNat_lt.trans_le (Nat.pow_le_pow_right (by decide) (by omega)))
        rw [hhigh, Bool.and_false, Bool.and_false]
      · rw [decide_eq_false hbelow, Bool.false_and, Bool.and_false]
  · rw [List.getElem?_modify_ne _ _ hlimb, decide_eq_false (by omega), Bool.false_and, Bool.or_false]
    rfl

/-- The big-endian bytes, counted from the end. -/
theorem testBit_ofBe (bytes : List UInt8) (i : ℕ) : (ofBe bytes).testBit i =
    (decide (i / 8 < bytes.length) &&
      (bytes.getD (bytes.length - 1 - i / 8) 0).toNat.testBit (i % 8)) := by
  rw [ofBe, testBit_ofLe]
  by_cases h : i / 8 < bytes.length
  · rw [decide_eq_true h, Bool.true_and, List.getD_reverse _ h]
  · rw [decide_eq_false h, Bool.false_and, List.getD_eq_default _ _ (by simpa using h)]
    exact Nat.zero_testBit _

/-- **Bytes to limbs**: the value, cut to the limbs. -/
theorem bnFromBeBytes_spec (l : ℕ) (be : List UInt8) :
    (bnFromBeBytes l be).length = l ∧ bnVal (bnFromBeBytes l be) = ofBe be % 2 ^ (32 * l) := by
  -- after `k` turns the number holds the last `k` bytes
  have hturns : ∀ k, ∀ x, x = (List.range k).foldl
      (fun x o => bnPutByte l x o (be.getD (be.length - 1 - o) 0)) (bnZero l) →
      x.length = l ∧ ∀ i, (bnVal x).testBit i = (decide (i / 8 < k ∧ i < 32 * l) &&
        (be.getD (be.length - 1 - i / 8) 0).toNat.testBit (i % 8)) := by
    intro k
    induction k with
    | zero =>
      rintro x rfl
      refine ⟨List.length_replicate, fun i => ?_⟩
      rw [List.range_zero, List.foldl_nil, bnVal_zero, Nat.zero_testBit, decide_eq_false (by omega),
        Bool.false_and]
    | succ k ih =>
      rintro x rfl
      obtain ⟨hlen, hbits⟩ := ih _ rfl
      rw [List.range_succ, List.foldl_append, List.foldl_cons, List.foldl_nil]
      refine ⟨(length_bnPutByte ..).trans hlen, fun i => ?_⟩
      rw [testBit_bnPutByte hlen, hbits]
      by_cases hi : i / 8 = k
      · simp [hi]
      · simp [hi, show i / 8 < k + 1 ↔ i / 8 < k by omega]
  obtain ⟨hlen, hbits⟩ := hturns be.length _ rfl
  refine ⟨hlen, Nat.eq_of_testBit_eq fun i => ?_⟩
  rw [bnFromBeBytes, hbits, Nat.testBit_mod_two_pow, testBit_ofBe, Bool.decide_and,
    Bool.and_comm (decide (i / 8 < be.length)), Bool.and_assoc]

theorem testBit_bnByte (x : List UInt32) (j : ℕ) {t : ℕ} (ht : t < 8) :
    (bnByte x x.length j).toNat.testBit t = (bnVal x).testBit (8 * j + t) := by
  have hwi : j >>> 2 = j / 4 := Nat.shiftRight_eq_div_pow j 2
  have hbo : j &&& 3 = j % 4 := Nat.and_two_pow_sub_one_eq_mod j 2
  rw [testBit_bnVal, bnByte, hwi, hbo, show (8 * j + t) / 32 = j / 4 by omega,
    show (8 * j + t) % 32 = 8 * (j % 4) + t by omega]
  split
  · have hshift : (8 * UInt32.ofNat (j % 4)).toNat % 32 = 8 * (j % 4) := by
      rw [UInt32.toNat_mul, UInt32.toNat_ofNat', show (8 : UInt32).toNat = 8 from rfl]
      omega
    rw [UInt32.toNat_toUInt8, UInt32.toNat_and, UInt32.toNat_shiftRight, hshift,
      show (0xFF : UInt32).toNat = 2 ^ 8 - 1 from rfl, Nat.and_two_pow_sub_one_eq_mod, Nat.mod_mod,
      Nat.testBit_mod_two_pow, decide_eq_true ht, Bool.true_and, Nat.testBit_shiftRight]
  · rename_i hout
    rw [List.getD_eq_default _ _ (not_lt.1 hout)]
    exact (Nat.zero_testBit t).trans (Nat.zero_testBit _).symm

/-- **Limbs to bytes**: the low bytes of the value. -/
theorem bnToBeBytes_spec (x : List UInt32) (outLen : ℕ) :
    (bnToBeBytes x x.length outLen).length = outLen ∧
      ofBe (bnToBeBytes x x.length outLen) = bnVal x % 2 ^ (8 * outLen) := by
  -- after `k` turns the last `k` bytes are written
  have hturns : ∀ k ≤ outLen, ∀ out, out = (List.range k).foldl
      (fun out i => out.set (outLen - 1 - i) (bnByte x x.length i)) (List.replicate outLen 0) →
      out.length = outLen ∧ ∀ j < k, out.getD (outLen - 1 - j) 0 = bnByte x x.length j := by
    intro k
    induction k with
    | zero =>
      rintro - out rfl
      exact ⟨List.length_replicate, fun j hj => absurd hj (Nat.not_lt_zero _)⟩
    | succ k ih =>
      rintro hk out rfl
      obtain ⟨hlen, hbytes⟩ := ih (by omega) _ rfl
      rw [List.range_succ, List.foldl_append, List.foldl_cons, List.foldl_nil]
      refine ⟨by rw [List.length_set, hlen], fun j hj => ?_⟩
      rw [List.getD_eq_getElem?_getD, List.getElem?_set]
      by_cases hjk : j = k
      · subst hjk
        rw [if_pos rfl, if_pos (by omega)]
        rfl
      · rw [if_neg (by omega), ← List.getD_eq_getElem?_getD, hbytes j (by omega)]
  obtain ⟨hlen, hbytes⟩ := hturns outLen (le_refl _) _ rfl
  refine ⟨hlen, Nat.eq_of_testBit_eq fun i => ?_⟩
  rw [testBit_ofBe, bnToBeBytes, hlen, Nat.testBit_mod_two_pow]
  by_cases hi : i / 8 < outLen
  · rw [hbytes _ hi, testBit_bnByte x (i / 8) (Nat.mod_lt i (by decide)), Nat.div_add_mod,
      decide_eq_true hi, decide_eq_true (show i < 8 * outLen by omega)]
  · rw [decide_eq_false hi, decide_eq_false (show ¬i < 8 * outLen by omega), Bool.false_and, Bool.false_and]

end QLog.Encryption
