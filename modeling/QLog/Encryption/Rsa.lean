import QLog.Foundations.BinaryMethod
import QLog.Encryption.BigNumber

/-!
# RSA

The modular arithmetic of `rsa.cpp` and `rsa::encrypt`. Addition and doubling keep the carry out of the
top limb and subtract the modulus if there is one or if the sum reaches it; multiplication doubles and
adds, and the power squares and multiplies, both along the bits of a number. `binaryMethod_spec` is the
invariant of the two loops. `toOption_encrypt` says that `rsa::encrypt` is the function on numbers that
the keys of a segment are made with.
-/

namespace QLog.Encryption.Rsa

/-- `mod_add`. -/
def modAdd (a b m : List UInt32) : List UInt32 :=
  let tmp := bnAdd a b
  if tmp.2 ≠ 0 ∨ 0 ≤ bnUcmp tmp.1 m then (bnSub tmp.1 m).1 else tmp.1

/-- `mod_double`. -/
def modDouble (a m : List UInt32) : List UInt32 :=
  let tmp := bnAdd a a
  if tmp.2 ≠ 0 ∨ 0 ≤ bnUcmp tmp.1 m then (bnSub tmp.1 m).1 else tmp.1

/-- `mod_mul_bin`, with the accumulator and the doubled number. -/
def modMulBin (a b m : List UInt32) (l : ℕ) : List UInt32 :=
  ((List.range (bnBitlen b)).foldl (fun s i =>
    (if bnGetbit b l i ≠ 0 then modAdd s.1 s.2 m else s.1, modDouble s.2 m)) (bnZero l, a)).1

/-- `mod_pow`, with the result and the squared number. -/
def modPow (a e m : List UInt32) (l : ℕ) : List UInt32 :=
  ((List.range (bnBitlen e)).foldl (fun s i =>
    (if bnGetbit e l i ≠ 0 then modMulBin s.1 s.2 m l else s.1, modMulBin s.2 s.2 m l))
      ((bnZero l).set 0 1, a)).1

/-- Why `rsa::encrypt` refuses. The first byte of an empty plaintext is read out of bounds. -/
inductive EncryptError
  | outOfBounds
  | leadingZero
  | emptyN
  | emptyE
  | tooLarge
  | notLess

/-- `be_to_fixed_limbs`. -/
def beToFixedLimbs (l : ℕ) (be : List UInt8) : List UInt32 := bnFromBeBytes l be

/-- `fixed_limbs_to_be_bytes`. -/
def fixedLimbsToBeBytes (x : List UInt32) (l kBytes : ℕ) : List UInt8 := bnToBeBytes x l kBytes

/-- `rsa::encrypt`. -/
def encrypt (pub : PublicKey) (plaintext : List UInt8) : Except EncryptError (List UInt8) :=
  match plaintext with
  | [] => .error .outOfBounds
  | first :: _ =>
    if first = 0 then .error .leadingZero
    else if pub.n.length = 0 then .error .emptyN
    else if pub.e.length = 0 then .error .emptyE
    else
      let kBytes := pub.n.length
      if kBytes < plaintext.length then .error .tooLarge
      else
        let l := limbsForBytes kBytes
        let n := beToFixedLimbs l pub.n
        let e := beToFixedLimbs l pub.e
        let m := beToFixedLimbs l plaintext
        if 0 ≤ bnUcmp m n then .error .notLess
        else .ok (fixedLimbsToBeBytes (modPow m e n l) l kBytes)

/-! ## Modular arithmetic -/

/-- A number of `l` limbs below the modulus. -/
structure Reduced (m : List UInt32) (l : ℕ) (a : List UInt32) : Prop where
  length_eq : a.length = l
  lt : bnVal a < bnVal m

section Arithmetic

variable {m : List UInt32} {l : ℕ}

/-- **Modular addition**, also when the sum carries out of the top limb. -/
theorem modAdd_spec (hm : m.length = l) {a b : List UInt32} (ha : Reduced m l a) (hb : Reduced m l b) :
    Reduced m l (modAdd a b m) ∧ bnVal (modAdd a b m) = (bnVal a + bnVal b) % bnVal m := by
  obtain ⟨hlen, hcarry, hsum⟩ := bnAdd_spec (ha.length_eq.trans hb.length_eq.symm)
  have hm_lt := bnVal_lt m
  have htop := bnVal_lt (bnAdd a b).1
  obtain ⟨hlena, ha⟩ := ha
  obtain ⟨hlenb, hb⟩ := hb
  rw [hlena] at hlen hsum
  rw [hlen] at htop
  rw [hm] at hm_lt
  have hcmp := bnUcmp_nonneg_iff (hlen.trans hm.symm)
  obtain ⟨hlen', hborrow, hdiff⟩ := bnSub_spec (hlen.trans hm.symm)
  have hlen'' := bnVal_lt (bnSub (bnAdd a b).1 m).1
  rw [hlen', hlen] at hlen''
  rw [hlen] at hlen' hdiff
  have hzero : (bnAdd a b).2 ≠ 0 ↔ (bnAdd a b).2.toNat = 1 := by
    rw [Ne, ← UInt32.toNat_inj, show (0 : UInt32).toNat = 0 from rfl]
    omega
  unfold modAdd
  simp only [hzero, hcmp]
  by_cases hge : (bnAdd a b).2.toNat = 1 ∨ bnVal m ≤ bnVal (bnAdd a b).1
  · rw [if_pos hge]
    -- the borrow of the subtraction cancels the carry
    have hval : bnVal (bnSub (bnAdd a b).1 m).1 + bnVal m = bnVal a + bnVal b := by
      rcases Nat.le_one_iff_eq_zero_or_eq_one.1 hcarry with hc | hc <;>
        rcases Nat.le_one_iff_eq_zero_or_eq_one.1 hborrow with hw | hw <;>
        rw [hc] at hsum hge <;> rw [hw] at hdiff <;> omega
    refine ⟨⟨hlen', by omega⟩, ?_⟩
    rw [← hval, Nat.add_mod_right, Nat.mod_eq_of_lt (by omega)]
  · rw [if_neg hge]
    rw [not_or, not_le] at hge
    have hc : (bnAdd a b).2.toNat = 0 := by omega
    rw [hc, Nat.mul_zero, Nat.add_zero] at hsum
    exact ⟨⟨hlen, hge.2⟩, by rw [← hsum, Nat.mod_eq_of_lt hge.2]⟩

/-- **Modular doubling.** -/
theorem modDouble_spec (hm : m.length = l) {a : List UInt32} (ha : Reduced m l a) :
    Reduced m l (modDouble a m) ∧ bnVal (modDouble a m) = 2 * bnVal a % bnVal m := by
  rw [Nat.two_mul]
  exact modAdd_spec hm ha ha

/-- Both loops of the source are the binary method. -/
theorem foldl_eq_binaryMethod {op : List UInt32 → List UInt32 → List UInt32}
    {twice : List UInt32 → List UInt32} {b : List UInt32} (hb : b.length = l) (n : ℕ)
    (s : List UInt32 × List UInt32) :
    (List.range n).foldl (fun s i => (if bnGetbit b l i ≠ 0 then op s.1 s.2 else s.1, twice s.2)) s =
      binaryMethod op twice (bnVal b).testBit n s := by
  subst hb
  simp only [bnGetbit_ne_zero_iff]
  rfl

theorem bnVal_eq_mod_of_cast_eq {k : ℕ} {a : List UInt32} (ha : Reduced m l a)
    (h : (bnVal a : ZMod (bnVal m)) = k) : bnVal a = k % bnVal m := by
  rw [ZMod.natCast_eq_natCast_iff', Nat.mod_eq_of_lt ha.lt] at h
  exact h

/-- Addition and doubling compute in the additive group modulo `m`. -/
theorem computes_modAdd (hm : m.length = l) : Computes (fun a b => modAdd a b m) (fun a => modDouble a m)
    (Reduced m l) fun a => Multiplicative.ofAdd (bnVal a : ZMod (bnVal m)) where
  op_mem ha hb := (modAdd_spec hm ha hb).1
  value_op ha hb := by
    rw [(modAdd_spec hm ha hb).2, ZMod.natCast_mod, Nat.cast_add, ofAdd_add]
  twice_mem ha := (modDouble_spec hm ha).1
  value_twice ha := by
    rw [(modDouble_spec hm ha).2, ZMod.natCast_mod, Nat.two_mul, Nat.cast_add, ofAdd_add]

/-- **Modular multiplication.** -/
theorem modMulBin_spec (hm : m.length = l) (hpos : 0 < bnVal m) {a b : List UInt32} (ha : Reduced m l a)
    (hb : b.length = l) :
    Reduced m l (modMulBin a b m l) ∧ bnVal (modMulBin a b m l) = bnVal a * bnVal b % bnVal m := by
  have hzero : Reduced m l (bnZero l) := ⟨List.length_replicate, by rwa [bnVal_zero]⟩
  obtain ⟨hmem, hval⟩ := binaryMethod_spec (computes_modAdd hm) hzero ha (bnVal b) (bnBitlen b)
  rw [← foldl_eq_binaryMethod hb] at hmem hval
  rw [Nat.mod_eq_of_lt (bnVal_lt_bitlen b), ← ofAdd_nsmul, ← ofAdd_add, bnVal_zero, Nat.cast_zero,
    zero_add, nsmul_eq_mul, ← Nat.cast_mul, Nat.mul_comm] at hval
  exact ⟨hmem, bnVal_eq_mod_of_cast_eq hmem (Multiplicative.ofAdd.injective hval)⟩

/-- Multiplication and squaring compute in the monoid modulo `m`. -/
theorem computes_modMulBin (hm : m.length = l) (hpos : 0 < bnVal m) :
    Computes (fun a b => modMulBin a b m l) (fun a => modMulBin a a m l) (Reduced m l)
      fun a => (bnVal a : ZMod (bnVal m)) where
  op_mem ha hb := (modMulBin_spec hm hpos ha hb.length_eq).1
  value_op ha hb := by rw [(modMulBin_spec hm hpos ha hb.length_eq).2, ZMod.natCast_mod, Nat.cast_mul]
  twice_mem ha := (modMulBin_spec hm hpos ha ha.length_eq).1
  value_twice ha := by rw [(modMulBin_spec hm hpos ha ha.length_eq).2, ZMod.natCast_mod, Nat.cast_mul]

theorem bnVal_one (hl : 0 < l) : bnVal ((bnZero l).set 0 1) = 1 := by
  obtain ⟨k, rfl⟩ := Nat.exists_eq_add_of_lt hl
  have := bnVal_zero (0 + k)
  rw [bnZero] at this ⊢
  rw [List.replicate_succ, List.set_cons_zero, bnVal_cons, this]
  rfl

/-- **Modular powers.** -/
theorem modPow_spec (hm : m.length = l) (hone : 1 < bnVal m) {a e : List UInt32} (ha : Reduced m l a)
    (he : e.length = l) :
    Reduced m l (modPow a e m l) ∧ bnVal (modPow a e m l) = bnVal a ^ bnVal e % bnVal m := by
  have hl : 0 < l := by
    by_contra hl
    obtain rfl := List.length_eq_zero_iff.1 (hm.trans (by omega : l = 0))
    exact absurd hone (by decide)
  have hfirst : Reduced m l ((bnZero l).set 0 1) :=
    ⟨by rw [List.length_set, bnZero, List.length_replicate], by rwa [bnVal_one hl]⟩
  obtain ⟨hmem, hval⟩ := binaryMethod_spec (computes_modMulBin hm (by omega)) hfirst ha (bnVal e)
    (bnBitlen e)
  rw [← foldl_eq_binaryMethod he] at hmem hval
  rw [Nat.mod_eq_of_lt (bnVal_lt_bitlen e), bnVal_one hl, Nat.cast_one, one_mul, ← Nat.cast_pow] at hval
  exact ⟨hmem, bnVal_eq_mod_of_cast_eq hmem hval⟩

end Arithmetic

/-! ## Encryption -/

theorem ofBe_lt_two_pow (bytes : List UInt8) : ofBe bytes < 2 ^ (8 * bytes.length) := by
  rw [Nat.pow_mul]
  exact ofBe_lt bytes

theorem ofBe_mod_of_fits {l : ℕ} {be : List UInt8} (hfit : be.length ≤ 4 * l) :
    ofBe be % 2 ^ (32 * l) = ofBe be :=
  Nat.mod_eq_of_lt ((ofBe_lt_two_pow be).trans_le (Nat.pow_le_pow_right (by decide) (by omega)))

/-- A number with a leading byte other than zero is not zero. -/
theorem ofBe_pos {first : UInt8} (rest : List UInt8) (hfirst : first ≠ 0) : 0 < ofBe (first :: rest) := by
  have hbyte : 0 < first.toNat :=
    Nat.pos_of_ne_zero fun h => hfirst (UInt8.toNat_inj.1 h)
  rw [ofBe, List.reverse_cons, Bytes.ofLe_append, Bytes.ofLe, Bytes.ofLe, Nat.mul_zero, Nat.add_zero]
  exact Nat.add_pos_right _ (Nat.mul_pos (Nat.pow_pos (by decide)) hbyte)

/-- Bytes are determined by their number and their length. -/
theorem eq_toBe {bytes : List UInt8} {k v : ℕ} (hlen : bytes.length = k) (hval : ofBe bytes = v) :
    bytes = toBe k v := by
  subst hlen hval
  rw [toBe, ofBe, ← List.length_reverse, Bytes.toLe_ofLe, List.reverse_reverse]

/-- **`rsa::encrypt`** computes with limbs what the function on numbers says. -/
theorem toOption_encrypt (pub : PublicKey) (plaintext : List UInt8) :
    (encrypt pub plaintext).toOption = rsaEncrypt pub plaintext := by
  have hroom : pub.n.length ≤ 4 * limbsForBytes pub.n.length := by
    unfold limbsForBytes
    omega
  cases plaintext with
  | nil => rfl
  | cons first rest =>
    unfold encrypt rsaEncrypt
    simp only [List.headD_cons]
    by_cases hfirst : first = 0
    · rw [if_pos hfirst, if_pos hfirst]
      rfl
    rw [if_neg hfirst, if_neg hfirst]
    by_cases hn : pub.n.length = 0
    · rw [if_pos hn, if_pos hn]
      rfl
    rw [if_neg hn, if_neg hn]
    by_cases he : pub.e.length = 0
    · rw [if_pos he, if_pos he]
      rfl
    rw [if_neg he, if_neg he]
    by_cases hlarge : pub.n.length < (first :: rest).length
    · rw [if_pos hlarge, if_pos hlarge]
      rfl
    rw [if_neg hlarge, if_neg hlarge]
    generalize limbsForBytes pub.n.length = l at hroom ⊢
    obtain ⟨hlen_n, hval_n⟩ := bnFromBeBytes_spec l pub.n
    obtain ⟨hlen_e, hval_e⟩ := bnFromBeBytes_spec l pub.e
    obtain ⟨hlen_m, hval_m⟩ := bnFromBeBytes_spec l (first :: rest)
    rw [ofBe_mod_of_fits hroom] at hval_n
    rw [ofBe_mod_of_fits ((not_lt.1 hlarge).trans hroom)] at hval_m
    have hcmp := bnUcmp_nonneg_iff (hlen_m.trans hlen_n.symm)
    rw [hval_n, hval_m] at hcmp
    by_cases hless : ofBe pub.n ≤ ofBe (first :: rest)
    · rw [if_pos hless, if_pos (show 0 ≤ bnUcmp (beToFixedLimbs l (first :: rest))
        (beToFixedLimbs l pub.n) from hcmp.2 hless)]
      rfl
    rw [if_neg hless, if_neg (show ¬0 ≤ bnUcmp (beToFixedLimbs l (first :: rest))
      (beToFixedLimbs l pub.n) from fun h => hless (hcmp.1 h))]
    have hone : 1 < bnVal (bnFromBeBytes l pub.n) := by
      have := ofBe_pos rest hfirst
      omega
    obtain ⟨⟨hlen, hlt⟩, hpow⟩ := modPow_spec hlen_n hone ⟨hlen_m, by omega⟩ hlen_e
    obtain ⟨hlen_c, hval_c⟩ := bnToBeBytes_spec (modPow (bnFromBeBytes l (first :: rest))
      (bnFromBeBytes l pub.e) (bnFromBeBytes l pub.n) l) pub.n.length
    rw [hval_n] at hlt
    rw [hval_n, hval_e, hval_m] at hpow
    rw [hlen] at hlen_c hval_c
    rw [hpow, Nat.mod_eq_of_lt ((hpow ▸ hlt).trans (ofBe_lt_two_pow pub.n))] at hval_c
    exact congrArg some (eq_toBe hlen_c hval_c)

/-- What `rsa::encrypt` accepts it raises to the exponent. -/
theorem encrypt_spec {pub : PublicKey} {plaintext c : List UInt8} (hok : encrypt pub plaintext = .ok c)
    (he : pub.e.length ≤ pub.n.length) :
    c.length = pub.n.length ∧ ofBe c = ofBe plaintext ^ ofBe pub.e % ofBe pub.n := by
  have hnum := toOption_encrypt pub plaintext
  rw [hok] at hnum
  obtain ⟨hlen, -, -, hlt⟩ := rsaEncrypt_eq_some hnum.symm
  refine ⟨hlen, ?_⟩
  have hroom : pub.n.length ≤ 4 * limbsForBytes pub.n.length := by
    unfold limbsForBytes
    omega
  unfold rsaEncrypt at hnum
  rw [ofBe_mod_of_fits (he.trans hroom)] at hnum
  split at hnum
  · cases hnum
  split at hnum
  · cases hnum
  split at hnum
  · cases hnum
  split at hnum
  · cases hnum
  split at hnum
  · cases hnum
  obtain rfl := Option.some.inj hnum
  have hmod := Nat.mod_lt (ofBe plaintext ^ ofBe pub.e) (Nat.zero_lt_of_lt hlt)
  have hfits := hmod.trans (ofBe_lt pub.n)
  rw [ofBe, toBe, List.reverse_reverse, Bytes.ofLe_toLe hfits]

/-- **What `rsa::encrypt` accepts**: a plaintext that does not begin with a zero byte, and that is not longer
than the modulus and below it. -/
theorem encrypt_accepts_iff (pub : PublicKey) (plaintext : List UInt8) :
    (∃ c, encrypt pub plaintext = .ok c) ↔ plaintext.headD 0 ≠ 0 ∧ pub.n ≠ [] ∧ pub.e ≠ [] ∧
      plaintext.length ≤ pub.n.length ∧ ofBe plaintext < ofBe pub.n := by
  have hok : (∃ c, encrypt pub plaintext = .ok c) ↔ (rsaEncrypt pub plaintext).isSome = true := by
    rw [← toOption_encrypt]
    cases encrypt pub plaintext with
    | error e => simp [Except.toOption]
    | ok c => simp [Except.toOption]
  simp only [ne_eq, ← List.length_eq_zero_iff]
  rw [hok, rsaEncrypt]
  split_ifs with h0 hn he hlong hbig
  · exact iff_of_false Bool.false_ne_true fun h => h.1 h0
  · simp [hn]
  · simp [he]
  · simp [hlong]
  · simp [hbig]
  · simp only [Option.isSome_some, true_iff]
    exact ⟨h0, hn, he, not_lt.1 hlong, not_le.1 hbig⟩

/-- **The arithmetic of RSA.** For every modulus above one, sums, doubles and products of reduced numbers
are exact modulo the modulus, and so are powers with any exponent of as many limbs; and what
`rsa::encrypt` accepts, it raises to the public exponent, with as many bytes as the modulus has. It accepts
every plaintext below the modulus that is not longer and has no zero byte in front. -/
theorem rsa_arithmetic :
    (∀ m : List UInt32, 1 < bnVal m → ∀ a b, Reduced m m.length a → Reduced m m.length b →
      (Reduced m m.length (modAdd a b m) ∧ bnVal (modAdd a b m) = (bnVal a + bnVal b) % bnVal m) ∧
      (Reduced m m.length (modDouble a m) ∧ bnVal (modDouble a m) = 2 * bnVal a % bnVal m) ∧
      (Reduced m m.length (modMulBin a b m m.length) ∧
        bnVal (modMulBin a b m m.length) = bnVal a * bnVal b % bnVal m)) ∧
    (∀ m : List UInt32, 1 < bnVal m → ∀ a e, Reduced m m.length a → e.length = m.length →
      Reduced m m.length (modPow a e m m.length) ∧
        bnVal (modPow a e m m.length) = bnVal a ^ bnVal e % bnVal m) ∧
    (∀ (pub : PublicKey) (plaintext c : List UInt8), encrypt pub plaintext = .ok c →
      pub.e.length ≤ pub.n.length →
        c.length = pub.n.length ∧ ofBe c = ofBe plaintext ^ ofBe pub.e % ofBe pub.n) ∧
    ∀ (pub : PublicKey) (plaintext : List UInt8), (∃ c, encrypt pub plaintext = .ok c) ↔
      plaintext.headD 0 ≠ 0 ∧ pub.n ≠ [] ∧ pub.e ≠ [] ∧ plaintext.length ≤ pub.n.length ∧
        ofBe plaintext < ofBe pub.n :=
  ⟨fun _ hone _ _ ha hb => ⟨modAdd_spec rfl ha hb, modDouble_spec rfl ha,
      modMulBin_spec rfl (Nat.zero_lt_of_lt hone) ha hb.length_eq⟩,
    fun _ hone _ _ ha he => modPow_spec rfl hone ha he,
    fun _ _ _ hok he => encrypt_spec hok he, encrypt_accepts_iff⟩

theorem rsa_arithmetic_small :
    bnVal (modAdd [4294967295, 1] [4294967295, 1] [0, 2]) = 8589934590 ∧
      bnVal (modPow [4] [3] [35] 1) = 29 ∧
      ∃ c, encrypt ⟨[35], [3]⟩ [4] = .ok c ∧ c.length = 1 ∧ ofBe c = 29 := by
  obtain ⟨hsums, hpow, hencrypt, haccepts⟩ := rsa_arithmetic
  obtain ⟨c, hc⟩ := (haccepts ⟨[35], [3]⟩ [4]).2 (by decide)
  obtain ⟨hlen, hval⟩ := hencrypt _ _ c hc (by decide)
  refine ⟨?_, ?_, c, hc, hlen, hval⟩
  · exact (hsums [0, 2] (by decide) [4294967295, 1] [4294967295, 1] ⟨rfl, by decide⟩ ⟨rfl, by decide⟩).1.2
  · exact (hpow [35] (by decide) [4] [3] ⟨rfl, by decide⟩ rfl).2

end QLog.Encryption.Rsa
