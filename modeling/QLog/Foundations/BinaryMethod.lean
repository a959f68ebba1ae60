import Mathlib

/-!
# The binary method

Double-and-add and square-and-multiply are one loop: it goes through the bits of a number from the least
significant one, takes the current value into the accumulator where a bit is set, and combines the
current value with itself. `binaryMethod_spec` says that the accumulator ends with a power in any monoid
that the operations compute in; the additive method is the one of `Multiplicative`.
-/

namespace QLog

variable {α : Type*} (op : α → α → α) (twice : α → α) (bit : ℕ → Bool)

/-- The turn for bit `i`, on the accumulator and the current value. -/
def binaryTurn (s : α × α) (i : ℕ) : α × α := (if bit i then op s.1 s.2 else s.1, twice s.2)

/-- The loop over the bits below `n`. -/
def binaryMethod (n : ℕ) (s : α × α) : α × α := (List.range n).foldl (binaryTurn op twice bit) s

theorem binaryMethod_succ (n : ℕ) (s : α × α) :
    binaryMethod op twice bit (n + 1) s = binaryTurn op twice bit (binaryMethod op twice bit n s) n := by
  rw [binaryMethod, List.range_succ, List.foldl_append]
  rfl

/-- The low bits of a number, with the next one. -/
theorem mod_two_pow_succ_eq (k n : ℕ) : k % 2 ^ (n + 1) = k % 2 ^ n + if k.testBit n then 2 ^ n else 0 := by
  rw [Nat.mod_pow_succ, Nat.testBit_eq_decide_div_mod_eq]
  rcases Nat.mod_two_eq_zero_or_one (k / 2 ^ n) with h | h <;> simp [h]

variable {op twice bit} {M : Type*} [Monoid M]

/-- The operations compute in a monoid on the values with a property that they keep. -/
structure Computes (op : α → α → α) (twice : α → α) (P : α → Prop) (value : α → M) : Prop where
  op_mem : ∀ {a b}, P a → P b → P (op a b)
  value_op : ∀ {a b}, P a → P b → value (op a b) = value a * value b
  twice_mem : ∀ {a}, P a → P (twice a)
  value_twice : ∀ {a}, P a → value (twice a) = value a * value a

/-- **The binary method** multiplies the accumulator by a power of the current value. -/
theorem binaryMethod_spec {P : α → Prop} {value : α → M} (hc : Computes op twice P value) {acc cur : α}
    (hacc : P acc) (hcur : P cur) (k n : ℕ) :
    P (binaryMethod op twice k.testBit n (acc, cur)).1 ∧
      value (binaryMethod op twice k.testBit n (acc, cur)).1 = value acc * value cur ^ (k % 2 ^ n) := by
  suffices h : (P (binaryMethod op twice k.testBit n (acc, cur)).1 ∧
      P (binaryMethod op twice k.testBit n (acc, cur)).2) ∧
      value (binaryMethod op twice k.testBit n (acc, cur)).1 = value acc * value cur ^ (k % 2 ^ n) ∧
      value (binaryMethod op twice k.testBit n (acc, cur)).2 = value cur ^ 2 ^ n from ⟨h.1.1, h.2.1⟩
  induction n with
  | zero => exact ⟨⟨hacc, hcur⟩, by simp [binaryMethod, Nat.mod_one], by simp [binaryMethod]⟩
  | succ n ih =>
    rw [binaryMethod_succ]
    generalize binaryMethod op twice k.testBit n (acc, cur) = s at ih
    obtain ⟨⟨hP1, hP2⟩, hv1, hv2⟩ := ih
    have hcur' : value (twice s.2) = value cur ^ 2 ^ (n + 1) := by
      rw [hc.value_twice hP2, hv2, ← pow_add, ← two_mul, pow_succ']
    by_cases hbit : k.testBit n
    · refine ⟨⟨?_, hc.twice_mem hP2⟩, ?_, hcur'⟩
      · rw [binaryTurn, if_pos hbit]
        exact hc.op_mem hP1 hP2
      · rw [binaryTurn, if_pos hbit, hc.value_op hP1 hP2, hv1, hv2, mul_assoc, ← pow_add,
          mod_two_pow_succ_eq, if_pos hbit]
    · refine ⟨⟨?_, hc.twice_mem hP2⟩, ?_, hcur'⟩
      · rw [binaryTurn, if_neg hbit]
        exact hP1
      · rw [binaryTurn, if_neg hbit, hv1, mod_two_pow_succ_eq, if_neg hbit, Nat.add_zero]

end QLog
