import QLog.Foundations.TwoPrimes
import QLog.Encryption.Rsa
import QLog.Encryption.Trimming

/-!
# RSA key pairs

`rsa::decrypt`, and what it is for. `RsaKey` is a pair of two odd primes with inverse exponents; its two keys
hold the numbers in their minimal bytes, as `rsa::parse_public_key_ssh` and `rsa::parse_private_key_pem` leave
them. What `rsa::encrypt` accepts with the public key, `rsa::decrypt` returns with the private one
(`decrypt_of_encrypt`): the multiples of the primes are not left out, and the minimal bytes it returns are
the plaintext because `rsa::encrypt` refuses a leading zero.
-/

namespace QLog.Encryption.Rsa

/-- `rsa::private_key`. -/
structure PrivateKey where
  n : List UInt8
  e : List UInt8
  d : List UInt8
  p : List UInt8
  q : List UInt8
  dp : List UInt8
  dq : List UInt8
  qinv : List UInt8
deriving DecidableEq

/-- Why `rsa::decrypt` refuses. -/
inductive DecryptError
  | emptyN
  | emptyD
  | length
  | notLess

/-- `rsa::decrypt`, with what lies behind its temporary bytes. -/
def decrypt (pri : PrivateKey) (beyond : ℕ → UInt8) (ciphertext : List UInt8) :
    Except DecryptError (List UInt8) :=
  if pri.n.length = 0 then .error .emptyN
  else if pri.d.length = 0 then .error .emptyD
  else
    let kBytes := pri.n.length
    if ciphertext.length ≠ kBytes then .error .length
    else
      let l := limbsForBytes kBytes
      let n := beToFixedLimbs l pri.n
      let d := beToFixedLimbs l pri.d
      let c := beToFixedLimbs l ciphertext
      if 0 ≤ bnUcmp c n then .error .notLess
      else .ok (Trimming.fixedLimbsToMinBe (modPow c d n l) l beyond).out

/-- Two odd primes and exponents that are inverse to each other. -/
structure RsaKey where
  p : ℕ
  q : ℕ
  e : ℕ
  d : ℕ
  prime_p : p.Prime
  prime_q : q.Prime
  two_lt_p : 2 < p
  two_lt_q : 2 < q
  p_ne_q : p ≠ q
  inverse : e * d ≡ 1 [MOD Nat.lcm (p - 1) (q - 1)]
  e_lt : e < p * q
  d_lt : d < p * q

/-- The big-endian bytes of a number without leading zeros. -/
def minBe (v : ℕ) : List UInt8 := ((Nat.digits 256 v).map UInt8.ofNat).reverse

namespace RsaKey

variable (k : RsaKey)

def n : ℕ := k.p * k.q

/-- The public key of the pair. -/
def publicKey : PublicKey := ⟨minBe k.n, minBe k.e⟩

/-- The inverse of `q` modulo `p`. -/
def qinv : ℕ := (k.q : ZMod k.p)⁻¹.val

/-- The private key of the pair. -/
def privateKey : PrivateKey :=
  ⟨minBe k.n, minBe k.e, minBe k.d, minBe k.p, minBe k.q, minBe (k.d % (k.p - 1)),
    minBe (k.d % (k.q - 1)), minBe k.qinv⟩

end RsaKey

/-! ## Minimal bytes -/

theorem ofLe_map_ofNat {ds : List ℕ} (h : ∀ x ∈ ds, x < 256) :
    Bytes.ofLe (ds.map UInt8.ofNat) = Nat.ofDigits 256 ds := by
  induction ds with
  | nil => rfl
  | cons x ds ih =>
    rw [List.forall_mem_cons] at h
    rw [List.map_cons, Bytes.ofLe, ih h.2, Nat.ofDigits_cons, UInt8.toNat_ofNat', Nat.mod_eq_of_lt h.1]

@[simp] theorem ofBe_minBe (v : ℕ) : ofBe (minBe v) = v := by
  rw [minBe, ofBe, List.reverse_reverse, ofLe_map_ofNat fun x hx => Nat.digits_lt_base (by decide) hx,
    Nat.ofDigits_digits]

/-- The first byte of a number other than zero is not zero. -/
theorem head?_minBe_ne (v : ℕ) : (minBe v).head? ≠ some 0 := by
  intro hhead
  rw [minBe, List.head?_reverse, List.getLast?_map, Option.map_eq_some_iff] at hhead
  obtain ⟨x, hx, hzero⟩ := hhead
  have hne : Nat.digits 256 v ≠ [] := List.getLast?_isSome.1 (by rw [hx]; rfl)
  rw [List.getLast?_eq_some_getLast hne, Option.some.injEq] at hx
  have hv : v ≠ 0 := fun h0 => hne (by rw [h0]; exact Nat.digits_zero 256)
  have hlast := Nat.getLast_digit_ne_zero 256 hv
  have hlt := Nat.digits_lt_base (b := 256) (by decide) (List.getLast_mem hne)
  rw [← UInt8.toNat_inj, UInt8.toNat_ofNat', ← hx, Nat.mod_eq_of_lt hlt] at hzero
  exact hlast hzero

/-- Bytes without a leading zero are determined by their number. -/
theorem eq_of_ofBe_eq {a b : List UInt8} (ha : a.head? ≠ some 0) (hb : b.head? ≠ some 0)
    (h : ofBe a = ofBe b) : a = b := by
  have hlen : ∀ {x y : List UInt8}, x.head? ≠ some 0 → ofBe x = ofBe y → x.length ≤ y.length := by
    intro x y hx hxy
    cases x with
    | nil => exact Nat.zero_le _
    | cons b bs =>
      have hbyte : b ≠ 0 := fun h0 => hx (by rw [h0]; rfl)
      have hpos : 0 < b.toNat := Nat.pos_of_ne_zero fun h0 => hbyte (UInt8.toNat_inj.1 h0)
      have hlow : 256 ^ bs.length ≤ ofBe (b :: bs) := by
        rw [Trimming.ofBe_cons]
        exact (Nat.le_mul_of_pos_right _ hpos).trans (Nat.le_add_left _ _)
      have hlt := (hlow.trans_eq hxy).trans_lt (ofBe_lt y)
      exact (Nat.pow_lt_pow_iff_right (by decide : 1 < 256)).1 hlt
  rw [eq_toBe (le_antisymm (hlen ha h) (hlen hb h.symm)) h]
  exact (eq_toBe rfl rfl).symm

theorem length_minBe_le {v w : ℕ} (h : v ≤ w) : (minBe v).length ≤ (minBe w).length := by
  rw [minBe, minBe, List.length_reverse, List.length_reverse, List.length_map, List.length_map]
  exact Nat.le_length_digits_le 256 v w h

/-! ## Decryption -/

/-- What `rsa::decrypt` returns for a ciphertext below the modulus. -/
theorem decrypt_spec (pri : PrivateKey) {c : List UInt8} (beyond : ℕ → UInt8) (hone : 1 < ofBe pri.n)
    (hd : pri.d ≠ []) (hfit : pri.d.length ≤ pri.n.length) (hlen : c.length = pri.n.length)
    (hlt : ofBe c < ofBe pri.n) (hne : ofBe c ^ ofBe pri.d % ofBe pri.n ≠ 0) :
    ∃ out, decrypt pri beyond c = .ok out ∧ out.head? ≠ some 0 ∧
      ofBe out = ofBe c ^ ofBe pri.d % ofBe pri.n := by
  have hn : pri.n.length ≠ 0 := by
    intro h0
    rw [List.length_eq_zero_iff.1 h0] at hone
    exact absurd hone (by decide)
  have hroom : pri.n.length ≤ 4 * limbsForBytes pri.n.length := by
    unfold limbsForBytes
    omega
  unfold decrypt
  rw [if_neg hn, if_neg (fun h0 => hd (List.length_eq_zero_iff.1 h0))]
  simp only
  rw [if_neg (not_not.2 hlen)]
  generalize limbsForBytes pri.n.length = l at hroom ⊢
  obtain ⟨hlen_n, hval_n⟩ := bnFromBeBytes_spec l pri.n
  obtain ⟨hlen_d, hval_d⟩ := bnFromBeBytes_spec l pri.d
  obtain ⟨hlen_c, hval_c⟩ := bnFromBeBytes_spec l c
  rw [ofBe_mod_of_fits hroom] at hval_n
  rw [ofBe_mod_of_fits (hfit.trans hroom)] at hval_d
  rw [ofBe_mod_of_fits (hlen.trans_le hroom)] at hval_c
  have hcmp := bnUcmp_nonneg_iff (hlen_c.trans hlen_n.symm)
  rw [hval_n, hval_c] at hcmp
  rw [if_neg (show ¬0 ≤ bnUcmp (beToFixedLimbs l c) (beToFixedLimbs l pri.n) from
    fun h => absurd (hcmp.1 h) (not_le.2 hlt))]
  obtain ⟨⟨hlen_m, -⟩, hpow⟩ := modPow_spec hlen_n (hval_n.symm ▸ hone)
    ⟨hlen_c, by rw [hval_c, hval_n]; exact hlt⟩ hlen_d
  rw [hval_n, hval_d, hval_c] at hpow
  have htrim := (Trimming.trims_fixedLimbsToMinBe_iff (modPow (bnFromBeBytes l c) (bnFromBeBytes l pri.d)
    (bnFromBeBytes l pri.n) l) beyond).2 (by
      by_contra hzero
      simp only [not_exists, not_and, not_not] at hzero
      exact hne (hpow.symm.trans ((Trimming.bnVal_eq_zero_iff _).2 hzero)))
  rw [hlen_m, hpow] at htrim
  refine ⟨_, rfl, fun hhead => ?_, htrim.value_eq⟩
  exact hne (htrim.canonical hhead).2

namespace RsaKey

variable (k : RsaKey)

theorem one_lt_n : 1 < k.n := by
  have := Nat.mul_le_mul k.two_lt_p.le k.two_lt_q.le
  rw [n]
  omega

theorem inverse_mod_p : k.e * k.d ≡ 1 [MOD k.p - 1] := k.inverse.of_dvd (Nat.dvd_lcm_left _ _)

theorem inverse_mod_q : k.e * k.d ≡ 1 [MOD k.q - 1] := k.inverse.of_dvd (Nat.dvd_lcm_right _ _)

theorem inverse_pos : 0 < k.e * k.d := by
  refine Nat.pos_of_ne_zero fun h0 => ?_
  have hmod := k.inverse_mod_p
  have := k.two_lt_p
  rw [h0, Nat.modEq_iff_dvd' Nat.one_pos.le] at hmod
  have := Nat.le_of_dvd Nat.one_pos hmod
  omega

theorem d_pos : 0 < k.d := Nat.pos_of_mul_pos_left k.inverse_pos

theorem e_pos : 0 < k.e := Nat.pos_of_mul_pos_right k.inverse_pos

theorem minBe_ne_nil {v : ℕ} (hv : 0 < v) : minBe v ≠ [] := by
  intro h
  have := ofBe_minBe v
  rw [h] at this
  exact hv.ne this

end RsaKey

/-- **Decryption undoes encryption**: for every key pair and every plaintext that `rsa::encrypt` accepts with
the public key, `rsa::decrypt` of the ciphertext with the private key is the plaintext, whatever lies behind
its temporary bytes. -/
theorem decrypt_of_encrypt (k : RsaKey) (plaintext c : List UInt8) (beyond : ℕ → UInt8)
    (h : encrypt k.publicKey plaintext = .ok c) : decrypt k.privateKey beyond c = .ok plaintext := by
  have hn : ofBe k.publicKey.n = k.n := ofBe_minBe _
  have he : ofBe k.publicKey.e = k.e := ofBe_minBe _
  have hnum := toOption_encrypt k.publicKey plaintext
  rw [h] at hnum
  obtain ⟨-, hfirst, -, hlt⟩ := rsaEncrypt_eq_some hnum.symm
  obtain ⟨hlen, hval⟩ := encrypt_spec h (length_minBe_le k.e_lt.le)
  rw [hn] at hlt
  rw [hn, he] at hval
  have hback : ofBe c ^ k.d % k.n = ofBe plaintext := by
    rw [hval]
    exact pow_pow_mod k.prime_p k.prime_q k.p_ne_q k.inverse_pos k.inverse_mod_p k.inverse_mod_q hlt
  have hhead : plaintext.head? ≠ some 0 := by
    cases plaintext with
    | nil => exact fun h0 => by cases h0
    | cons b bs => exact fun h0 => hfirst (Option.some.inj h0)
  have hpos : ofBe plaintext ≠ 0 := by
    cases plaintext with
    | nil => exact absurd rfl hfirst
    | cons b bs => exact (ofBe_pos bs hfirst).ne'
  have hn' : ofBe k.privateKey.n = k.n := ofBe_minBe _
  have hd' : ofBe k.privateKey.d = k.d := ofBe_minBe _
  obtain ⟨out, hout, hhead', hval'⟩ := decrypt_spec k.privateKey beyond
    (by rw [hn']; exact k.one_lt_n) (RsaKey.minBe_ne_nil k.d_pos) (length_minBe_le k.d_lt.le) hlen
    (by rw [hn', hval]; exact Nat.mod_lt _ (Nat.zero_lt_of_lt k.one_lt_n))
    (by rw [hn', hd', hback]; exact hpos)
  rw [hn', hd', hback] at hval'
  rw [hout, eq_of_ofBe_eq hhead' hhead hval']

end QLog.Encryption.Rsa
