import Mathlib

/-!
# Numbers of binary digits

The number of a list of `w`-bit digits, the least significant first, is `Nat.ofDigits (2 ^ w)`. Its bits
are the bits of the digits (`testBit_ofDigits`), so digits of different widths are compared bit by bit.
The last lemmas compare two numbers by their most significant digits.
-/

namespace QLog

variable {w : ℕ} {L : List ℕ}

/-- Bit `i` of a number is bit `i % w` of its digit `i / w`. -/
theorem testBit_ofDigits (hw : 0 < w) (hL : ∀ d ∈ L, d < 2 ^ w) (i : ℕ) :
    (Nat.ofDigits (2 ^ w) L).testBit i = (L.getD (i / w) 0).testBit (i % w) := by
  induction L generalizing i with
  | nil => simp
  | cons d L ih =>
    have hd : d < 2 ^ w := hL d List.mem_cons_self
    have ih' := fun j => ih (fun d hd => hL d (List.mem_cons_of_mem _ hd)) j
    rw [Nat.ofDigits_cons, Nat.add_comm, Nat.testBit_two_pow_mul_add _ hd]
    split
    · rename_i hi
      rw [Nat.div_eq_of_lt hi, Nat.mod_eq_of_lt hi, List.getD_cons_zero]
    · rename_i hi
      obtain ⟨j, rfl⟩ := Nat.exists_eq_add_of_le (not_lt.1 hi)
      rw [Nat.add_sub_cancel_left, ih', Nat.add_div_left _ hw, Nat.add_mod_left, List.getD_cons_succ]

theorem ofDigits_lt (hw : 0 < w) (hL : ∀ d ∈ L, d < 2 ^ w) :
    Nat.ofDigits (2 ^ w) L < 2 ^ (w * L.length) := by
  rw [Nat.pow_mul]
  exact Nat.ofDigits_lt_base_pow_length (Nat.one_lt_two_pow hw.ne') hL

/-- The number with a new most significant digit. -/
theorem ofDigits_concat (d : ℕ) :
    Nat.ofDigits (2 ^ w) (L ++ [d]) = Nat.ofDigits (2 ^ w) L + 2 ^ (w * L.length) * d := by
  rw [Nat.ofDigits_append, Nat.ofDigits_singleton, ← Nat.pow_mul]

/-- Different most significant digits decide a comparison. -/
theorem ofDigits_concat_lt {L' : List ℕ} (hw : 0 < w) (hL : ∀ d ∈ L, d < 2 ^ w)
    (hlen : L.length = L'.length) {d d' : ℕ} (h : d < d') :
    Nat.ofDigits (2 ^ w) (L ++ [d]) < Nat.ofDigits (2 ^ w) (L' ++ [d']) := by
  rw [ofDigits_concat, ofDigits_concat, ← hlen]
  calc Nat.ofDigits (2 ^ w) L + 2 ^ (w * L.length) * d
      < 2 ^ (w * L.length) + 2 ^ (w * L.length) * d := Nat.add_lt_add_right (ofDigits_lt hw hL) _
    _ = 2 ^ (w * L.length) * (d + 1) := by rw [Nat.mul_add, Nat.mul_one, Nat.add_comm]
    _ ≤ 2 ^ (w * L.length) * d' := Nat.mul_le_mul_left _ h
    _ ≤ Nat.ofDigits (2 ^ w) L' + 2 ^ (w * L.length) * d' := Nat.le_add_left _ _

/-- Equal most significant digits do not matter. -/
theorem ofDigits_concat_le_iff {L' : List ℕ} (hlen : L.length = L'.length) (d : ℕ) :
    Nat.ofDigits (2 ^ w) (L ++ [d]) ≤ Nat.ofDigits (2 ^ w) (L' ++ [d]) ↔
      Nat.ofDigits (2 ^ w) L ≤ Nat.ofDigits (2 ^ w) L' := by
  rw [ofDigits_concat, ofDigits_concat, hlen]
  omega

end QLog
