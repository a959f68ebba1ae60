import QLog.Foundations.Ring

/-!
# Rounding up to a power of two in 32 bits

Two ways to round a 32-bit value up to a power of two: to copy the highest set bit into all lower
positions and add one (`roundPowOfTwo`), and to count the bits by halving (`roundupPowOfTwo32`). They
agree on `[1, 2 ^ 31]`, where the next power of two has 32 bits (`roundPowOfTwo_eq_roundup`); above, both
wrap to zero.
-/

namespace QLog

/-! ## Copying the highest bit down -/

/-- Every bit of `w` says whether one of the `n` bits of `v` from there on is set. -/
def Spreads (v n w : ℕ) : Prop := ∀ i, w.testBit i = true ↔ ∃ j < n, v.testBit (i + j) = true

theorem spreads_one (v : ℕ) : Spreads v 1 v := by
  intro i
  constructor
  · exact fun h => ⟨0, by omega, h⟩
  · rintro ⟨j, hj, h⟩
    obtain rfl : j = 0 := by omega
    exact h

/-- One doubling of the reach. -/
theorem Spreads.double {v n w : ℕ} (h : Spreads v n w) : Spreads v (2 * n) (w ||| w >>> n) := by
  intro i
  rw [Nat.testBit_or, Nat.testBit_shiftRight, Bool.or_eq_true, h i, h (n + i)]
  constructor
  · rintro (⟨j, hj, hbit⟩ | ⟨j, hj, hbit⟩)
    · exact ⟨j, by omega, hbit⟩
    · exact ⟨n + j, by omega, by rwa [← Nat.add_assoc, Nat.add_comm i n]⟩
  · rintro ⟨j, hj, hbit⟩
    by_cases hjn : j < n
    · exact Or.inl ⟨j, hjn, hbit⟩
    · refine Or.inr ⟨j - n, by omega, ?_⟩
      rwa [show n + i + (j - n) = i + j by omega]

/-- The five shifts of `round_pow_of_two`. -/
def smear (v : ℕ) : ℕ :=
  let v := v ||| v >>> 1
  let v := v ||| v >>> 2
  let v := v ||| v >>> 4
  let v := v ||| v >>> 8
  v ||| v >>> 16

theorem spreads_smear (v : ℕ) : Spreads v 32 (smear v) :=
  (spreads_one v).double.double.double.double.double

/-- All bits from the highest one down are set. -/
theorem smear_of_between {v k : ℕ} (hlo : 2 ^ k ≤ v) (hhi : v < 2 ^ (k + 1)) (hk : k < 32) :
    smear v = 2 ^ (k + 1) - 1 := by
  refine Nat.eq_of_testBit_eq fun i => ?_
  rw [Nat.testBit_two_pow_sub_one, Bool.eq_iff_iff, spreads_smear v i, decide_eq_true_iff]
  constructor
  · rintro ⟨j, -, hbit⟩
    have hle := Nat.ge_two_pow_of_testBit hbit
    have hlt : i + j < k + 1 := (Nat.pow_lt_pow_iff_right (by omega)).1 (lt_of_le_of_lt hle hhi)
    omega
  · intro hi
    refine ⟨k - i, by omega, ?_⟩
    rw [show i + (k - i) = k by omega]
    obtain ⟨m, hm, hbit⟩ := Nat.exists_ge_and_testBit_of_ge_two_pow hlo
    have hle := Nat.ge_two_pow_of_testBit hbit
    have hlt : m < k + 1 := (Nat.pow_lt_pow_iff_right (by omega)).1 (lt_of_le_of_lt hle hhi)
    obtain rfl : m = k := by omega
    exact hbit

/-- `round_pow_of_two`. -/
def roundPowOfTwo (value : ℕ) : ℕ := add32 (smear (sub32 value 1)) 1

theorem roundPowOfTwo_zero : roundPowOfTwo 0 = 0 := by decide +kernel

theorem roundPowOfTwo_one : roundPowOfTwo 1 = 1 := by decide +kernel

theorem roundPowOfTwo_of_between {s k : ℕ} (hlo : 2 ^ k < s) (hhi : s ≤ 2 ^ (k + 1)) (hk : k < 32)
    (hs : s < 2 ^ 32) : roundPowOfTwo s = 2 ^ (k + 1) % 2 ^ 32 := by
  have hsub : sub32 s 1 = s - 1 := by
    unfold sub32
    omega
  have hpos : 0 < 2 ^ (k + 1) := Nat.two_pow_pos _
  rw [roundPowOfTwo, hsub, smear_of_between (by omega) (by omega) hk, add32, Nat.sub_add_cancel hpos]

/-- Every value above one lies between two neighbouring powers. -/
theorem exists_between_powers {s : ℕ} (h : 1 < s) : ∃ k, 2 ^ k < s ∧ s ≤ 2 ^ (k + 1) := by
  refine ⟨(s - 1).log2, ?_, ?_⟩
  · have := Nat.log2_self_le (n := s - 1) (by omega)
    omega
  · have := Nat.lt_log2_self (n := s - 1)
    omega

@[simp] theorem roundPowOfTwo_two_pow {k : ℕ} (hk : k < 32) : roundPowOfTwo (2 ^ k) = 2 ^ k := by
  have hlt : 2 ^ k < 2 ^ 32 := (Nat.pow_lt_pow_iff_right (by omega)).2 hk
  cases k with
  | zero => exact roundPowOfTwo_one
  | succ k =>
    have hbelow : 2 ^ k < 2 ^ (k + 1) := (Nat.pow_lt_pow_iff_right (by omega)).2 (by omega)
    rw [roundPowOfTwo_of_between hbelow le_rfl (by omega) hlt, Nat.mod_eq_of_lt hlt]

/-- The next power of two has 33 bits, and the result wraps. -/
theorem roundPowOfTwo_of_large {s : ℕ} (hlo : 2 ^ 31 < s) (hs : s < 2 ^ 32) : roundPowOfTwo s = 0 :=
  roundPowOfTwo_of_between hlo (by omega) (by omega) hs

/-! ## Counting the bits -/

/-- The loop of `roundup_pow_of_two<std::uint32_t>`. -/
def roundupLoop32 (x result : ℕ) : ℕ :=
  if 0 < x then roundupLoop32 (x >>> 1) (add32 result result) else result
termination_by x
decreasing_by
  rw [Nat.shiftRight_eq_div_pow]
  omega

/-- `roundup_pow_of_two<std::uint32_t>`. -/
def roundupPowOfTwo32 (x : ℕ) : ℕ := if x &&& sub32 x 1 = 0 then x else roundupLoop32 x 1

theorem roundupLoop32_eq {k : ℕ} : ∀ {x : ℕ} (r : ℕ), 2 ^ k ≤ x → x < 2 ^ (k + 1) →
    roundupLoop32 x (r % 2 ^ 32) = r * 2 ^ (k + 1) % 2 ^ 32 := by
  induction k with
  | zero =>
    intro x r hlo hhi
    obtain rfl : x = 1 := by omega
    rw [roundupLoop32, if_pos (by omega), roundupLoop32, if_neg (by decide), add32]
    omega
  | succ k ih =>
    intro x r hlo hhi
    have hhalf : x >>> 1 = x / 2 := by rw [Nat.shiftRight_eq_div_pow, pow_one]
    have hdouble : add32 (r % 2 ^ 32) (r % 2 ^ 32) = (r * 2) % 2 ^ 32 := by
      unfold add32
      omega
    rw [pow_succ] at hlo hhi
    rw [roundupLoop32, if_pos (by omega), hhalf, hdouble, ih (r * 2) (by omega) (by omega),
      Nat.mul_assoc, ← pow_succ']

theorem roundupPowOfTwo32_two_pow {k : ℕ} (hk : k < 32) : roundupPowOfTwo32 (2 ^ k) = 2 ^ k := by
  have hlt : 2 ^ k < 2 ^ 32 := (Nat.pow_lt_pow_iff_right (by omega)).2 hk
  have hpos : 0 < 2 ^ k := Nat.two_pow_pos _
  have hsub : sub32 (2 ^ k) 1 = 2 ^ k - 1 := by
    unfold sub32
    omega
  rw [roundupPowOfTwo32, hsub, Nat.and_two_pow_sub_one_eq_mod, Nat.mod_self, if_pos rfl]

theorem roundupPowOfTwo32_zero : roundupPowOfTwo32 0 = 0 := by decide +kernel

theorem roundupPowOfTwo32_of_between {s k : ℕ} (hlo : 2 ^ k < s) (hhi : s ≤ 2 ^ (k + 1))
    (hs : s < 2 ^ 32) : roundupPowOfTwo32 s = 2 ^ (k + 1) % 2 ^ 32 := by
  rcases Nat.lt_or_eq_of_le hhi with hlt | rfl
  · have hsub : sub32 s 1 = s - 1 := by
      unfold sub32
      omega
    -- Both operands have the highest bit of `s`.
    have hbit : (s &&& (s - 1)).testBit k = true := by
      rw [Nat.testBit_and, Nat.testBit_of_two_pow_le_and_two_pow_add_one_gt hlo.le hlt,
        Nat.testBit_of_two_pow_le_and_two_pow_add_one_gt (by omega) (by omega), Bool.and_self]
    have hne : s &&& (s - 1) ≠ 0 := by
      intro hzero
      rw [hzero, Nat.zero_testBit] at hbit
      cases hbit
    rw [roundupPowOfTwo32, hsub, if_neg hne]
    have hloop := roundupLoop32_eq 1 hlo.le hlt
    rwa [Nat.one_mul] at hloop
  · have hk' : k + 1 < 32 := (Nat.pow_lt_pow_iff_right (by omega)).1 hs
    rw [roundupPowOfTwo32_two_pow hk', Nat.mod_eq_of_lt hs]

/-- The two ways to round agree. -/
theorem roundPowOfTwo_eq_roundup {s : ℕ} (hs : s < 2 ^ 32) : roundPowOfTwo s = roundupPowOfTwo32 s := by
  rcases Nat.lt_or_ge 1 s with h | h
  · obtain ⟨k, hlo, hhi⟩ := exists_between_powers h
    have hk : k < 32 := (Nat.pow_lt_pow_iff_right (by omega)).1 (hlo.trans hs)
    rw [roundPowOfTwo_of_between hlo hhi hk hs, roundupPowOfTwo32_of_between hlo hhi hs]
  · rcases Nat.le_one_iff_eq_zero_or_eq_one.1 h with rfl | rfl
    · rw [roundPowOfTwo_zero, roundupPowOfTwo32_zero]
    · rw [roundPowOfTwo_one]
      exact (roundupPowOfTwo32_two_pow (k := 0) (by omega)).symm

/-- A value of 31 bits is rounded up to a power of two. -/
theorem exists_roundPowOfTwo {s : ℕ} (hpos : 0 < s) (hs : s ≤ 2 ^ 31) :
    ∃ k < 32, roundPowOfTwo s = 2 ^ k ∧ s ≤ 2 ^ k ∧ (∀ j, s ≤ 2 ^ j → 2 ^ k ≤ 2 ^ j) := by
  rcases Nat.lt_or_ge 1 s with h | h
  · obtain ⟨k, hlo, hhi⟩ := exists_between_powers h
    have hk : k < 31 := (Nat.pow_lt_pow_iff_right (by omega)).1 (lt_of_lt_of_le hlo hs)
    have hlt : 2 ^ (k + 1) < 2 ^ 32 := (Nat.pow_lt_pow_iff_right (by omega)).2 (by omega)
    refine ⟨k + 1, by omega, ?_, hhi, fun j hj => ?_⟩
    · rw [roundPowOfTwo_of_between hlo hhi (by omega) (by omega), Nat.mod_eq_of_lt hlt]
    · have : k < j := (Nat.pow_lt_pow_iff_right (by omega)).1 (lt_of_lt_of_le hlo hj)
      exact Nat.pow_le_pow_right (by omega) this
  · obtain rfl : s = 1 := by omega
    exact ⟨0, by omega, roundPowOfTwo_one, le_rfl, fun j _ => Nat.one_le_two_pow⟩

end QLog
