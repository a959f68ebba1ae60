import Mathlib

/-!
# Digits of a number

`numeral b n` are the digits of `n` in base `b`, the highest one first; zero has one digit. They are the only
digits without a leading zero whose value is `n` (`ofDigits_numeral`, `head_numeral`), and the last one comes off
the end (`numeral_of_le`).
-/

namespace QLog

/-- The digits of a number, the highest one first. -/
def numeral (b n : ℕ) : List ℕ := if n = 0 then [0] else (Nat.digits b n).reverse

variable {b n : ℕ}

theorem numeral_of_lt (h : n < b) : numeral b n = [n] := by
  unfold numeral
  split_ifs with hn
  · rw [hn]
  · rw [Nat.digits_of_lt b n hn h, List.reverse_singleton]

/-- The last digit and what is in front of it. -/
theorem numeral_of_le (hb : 1 < b) (h : b ≤ n) : numeral b n = numeral b (n / b) ++ [n % b] := by
  have hdiv : n / b ≠ 0 := (Nat.div_pos h (by omega)).ne'
  unfold numeral
  rw [if_neg (by omega), if_neg hdiv, Nat.digits_def' hb (by omega), List.reverse_cons]

theorem numeral_ne_nil (b n : ℕ) : numeral b n ≠ [] := by
  unfold numeral
  split_ifs with hn
  · exact List.cons_ne_nil _ _
  · rw [ne_eq, List.reverse_eq_nil_iff]
    exact Nat.digits_ne_nil_iff_ne_zero.2 hn

theorem length_numeral_pos (b n : ℕ) : 0 < (numeral b n).length := List.length_pos_iff.2 (numeral_ne_nil b n)

/-- Every digit is one of the base. -/
theorem lt_of_mem_numeral (hb : 1 < b) {d : ℕ} (h : d ∈ numeral b n) : d < b := by
  unfold numeral at h
  split_ifs at h
  · rw [List.mem_singleton.1 h]
    omega
  · exact Nat.digits_lt_base hb (List.mem_reverse.1 h)

/-- **The digits have the value of the number.** -/
theorem ofDigits_numeral (b n : ℕ) : Nat.ofDigits b (numeral b n).reverse = n := by
  unfold numeral
  split_ifs with hn
  · rw [hn, List.reverse_singleton, Nat.ofDigits_singleton]
  · rw [List.reverse_reverse, Nat.ofDigits_digits]

/-- **Only zero begins with a zero.** -/
theorem head_numeral (h : (numeral b n).head? = some 0) : n = 0 := by
  unfold numeral at h
  split_ifs at h with hn
  · exact hn
  · rw [List.head?_reverse, List.getLast?_eq_some_getLast (Nat.digits_ne_nil_iff_ne_zero.2 hn)] at h
    exact absurd (Option.some.inj h) (Nat.getLast_digit_ne_zero b hn)

theorem length_numeral_le (hb : 1 < b) {k : ℕ} (hk : 0 < k) (h : n < b ^ k) : (numeral b n).length ≤ k := by
  unfold numeral
  split_ifs with hn
  · exact hk
  · rw [List.length_reverse]
    exact (Nat.digits_length_le_iff hb n).2 h

/-- The number of digits lies between the powers of the base. -/
theorem length_numeral_eq (hb : 1 < b) {k : ℕ} (hk : 0 < k) (hlt : n < b ^ k) (hle : k = 1 ∨ b ^ (k - 1) ≤ n) :
    (numeral b n).length = k := by
  refine le_antisymm (length_numeral_le hb hk hlt) ?_
  rcases hle with rfl | hle
  · exact length_numeral_pos b n
  · have hn : n ≠ 0 := (lt_of_lt_of_le (Nat.pow_pos (by omega)) hle).ne'
    unfold numeral
    rw [if_neg hn, List.length_reverse]
    by_contra hlt'
    have h := (Nat.digits_length_le_iff hb n).1 (show (Nat.digits b n).length ≤ k - 1 by omega)
    omega

end QLog
