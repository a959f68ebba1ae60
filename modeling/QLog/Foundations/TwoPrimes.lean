import Mathlib

/-!
# Powers modulo a product of two primes

An exponent that is one modulo `p - 1` does nothing modulo the prime `p`, also to the multiples of `p`.
So two exponents that are inverse modulo `p - 1` and `q - 1` undo each other modulo `p * q`, for every
number and not only for the units (`pow_pow_mod`).
-/

namespace QLog

/-- Fermat's little theorem for an exponent that is one modulo `p - 1`. -/
theorem pow_modEq_self {p k : ℕ} (hp : p.Prime) (hpos : 0 < k) (hk : k ≡ 1 [MOD p - 1]) (m : ℕ) :
    m ^ k ≡ m [MOD p] := by
  have := Fact.mk hp
  rw [← ZMod.natCast_eq_natCast_iff, Nat.cast_pow]
  by_cases hm : (m : ZMod p) = 0
  · rw [hm, zero_pow hpos.ne']
  · obtain ⟨t, ht⟩ := (Nat.modEq_iff_dvd' hpos).1 hk.symm
    have hsplit : k = (p - 1) * t + 1 := by omega
    rw [hsplit, pow_succ, pow_mul, ZMod.pow_card_sub_one_eq_one hm, one_pow, one_mul]

/-- **Inverse exponents** modulo `p - 1` and `q - 1` undo each other modulo `p * q`. -/
theorem pow_pow_mod {p q e d m : ℕ} (hp : p.Prime) (hq : q.Prime) (hne : p ≠ q) (hpos : 0 < e * d)
    (hep : e * d ≡ 1 [MOD p - 1]) (heq : e * d ≡ 1 [MOD q - 1]) (hm : m < p * q) :
    (m ^ e % (p * q)) ^ d % (p * q) = m := by
  have hcoprime : p.Coprime q := (Nat.coprime_primes hp hq).2 hne
  have hboth : m ^ (e * d) ≡ m [MOD p * q] :=
    (Nat.modEq_and_modEq_iff_modEq_mul hcoprime).1
      ⟨pow_modEq_self hp hpos hep m, pow_modEq_self hq hpos heq m⟩
  calc (m ^ e % (p * q)) ^ d % (p * q)
      = (m ^ e) ^ d % (p * q) := (Nat.pow_mod _ _ _).symm
    _ = m ^ (e * d) % (p * q) := by rw [← pow_mul]
    _ = m % (p * q) := hboth
    _ = m := Nat.mod_eq_of_lt hm

end QLog
