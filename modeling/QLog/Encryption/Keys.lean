import QLog.Foundations.Bytes

/-!
# Keys

The parser of public keys in the format of OpenSSH, encryption with such a key, and AES in CBC mode
around its block cipher. Numbers of many limbs are natural numbers here.
-/

namespace QLog.Encryption

open Bytes

/-- The number with these big-endian bytes. -/
def ofBe (bs : List UInt8) : ℕ := ofLe bs.reverse

/-- The big-endian bytes of a number, `k` of them. -/
def toBe (k v : ℕ) : List UInt8 := (toLe k v).reverse

/-- `rsa::public_key`. -/
structure PublicKey where
  n : List UInt8
  e : List UInt8
deriving DecidableEq

/-! ## Parsing -/

/-- A blank of `parse_two_tokens`. -/
def isBlank (c : UInt8) : Bool := c == 32 || c == 9 || c == 13 || c == 10

/-- `parse_two_tokens`. -/
def parseTwoTokens (p : List UInt8) : Option (List UInt8 × List UInt8) :=
  let p₁ := p.dropWhile isBlank
  let t₁ := p₁.takeWhile (!isBlank ·)
  let p₂ := (p₁.dropWhile (!isBlank ·)).dropWhile isBlank
  let t₂ := p₂.takeWhile (!isBlank ·)
  if t₁ = [] ∨ t₂ = [] then none else some (t₁, t₂)

/-- `b64_table`: the six bits of a character, 0x80 for an invalid one, 0x81 for a blank, and 0x82 for
the padding. -/
def b64Table (c : UInt8) : ℕ :=
  let n := c.toNat
  if n = 9 ∨ n = 10 ∨ n = 12 ∨ n = 13 ∨ n = 32 then 0x81
  else if 65 ≤ n ∧ n ≤ 90 then n - 65
  else if 97 ≤ n ∧ n ≤ 122 then n - 71
  else if 48 ≤ n ∧ n ≤ 57 then n + 4
  else if n = 43 ∨ n = 45 then 62
  else if n = 47 ∨ n = 95 then 63
  else if n = 61 then 0x82
  else 0x80

/-- The loop of `base64_decode`, with the bits that are not written yet. -/
def base64Loop : List UInt8 → ℕ → ℕ → Option (List UInt8)
  | [], _, _ => some []
  | c :: cs, buf, bits =>
    let v := b64Table c
    if v = 0x81 then base64Loop cs buf bits
    else if v = 0x80 then none
    else if v = 0x82 then some []
    else
      let buf' := (buf * 64 + v) % 2 ^ 32
      if 8 ≤ bits + 6 then
        (base64Loop cs buf' (bits + 6 - 8)).map (UInt8.ofNat (buf' >>> (bits + 6 - 8)) :: ·)
      else base64Loop cs buf' (bits + 6)

/-- `base64_decode`. -/
def base64Decode (cs : List UInt8) : Option (List UInt8) := base64Loop cs 0 0

/-- `trim_be` of the first `len` bytes of `data`. When all of them are zero it reads the byte behind
them, and `beyond` when there is none. -/
def trimBe (beyond : UInt8) (data : List UInt8) (len : ℕ) : List UInt8 :=
  match (data.take len).dropWhile (· == 0) with
  | [] => [(data.drop len).headD beyond]
  | b :: bs => b :: bs

/-- A length of four bytes, and the bytes behind it when there are as many. -/
def lengthPrefix (data : List UInt8) : Option (ℕ × List UInt8) :=
  if data.length < 4 then none
  else if (data.drop 4).length < ofBe (data.take 4) then none
  else some (ofBe (data.take 4), data.drop 4)

/-- The name of the key type, `ssh-rsa`. -/
def sshRsa : List UInt8 := [115, 115, 104, 45, 114, 115, 97]

/-- `parse_ssh_wire_rsa`: the exponent and the modulus. -/
def parseSshWireRsa (beyond : UInt8) (data : List UInt8) : Option (List UInt8 × List UInt8) :=
  (lengthPrefix data).bind fun (l1, d1) =>
    if l1 ≠ 7 ∨ d1.take 7 ≠ sshRsa then none
    else
      (lengthPrefix (d1.drop 7)).bind fun (le, d2) =>
        (lengthPrefix (d2.drop le)).map fun (ln, d3) => (trimBe beyond d2 le, trimBe beyond d3 ln)

/-- `bn_check_nonzero`. -/
def bnCheckNonzero (x : List UInt8) : Bool := x.any (· != 0)

/-- `rsa::parse_public_key_ssh`. -/
def parsePublicKeySsh (beyond : UInt8) (text : List UInt8) : Option PublicKey :=
  (parseTwoTokens text).bind fun (t1, t2) =>
    if t1 ≠ sshRsa then none
    else
      (base64Decode t2).bind fun blob =>
        (parseSshWireRsa beyond blob).bind fun (e, n) =>
          if bnCheckNonzero n = false then none
          else if bnCheckNonzero e = false then none
          else some ⟨n, e⟩

/-! ## Encryption -/

/-- `limbs_for_bytes`. -/
def limbsForBytes (bytes : ℕ) : ℕ := (bytes + 3) / 4

/-- `rsa::encrypt`, without padding. The exponent is cut to the limbs of the modulus. -/
def rsaEncrypt (pub : PublicKey) (plaintext : List UInt8) : Option (List UInt8) :=
  if plaintext.headD 0 = 0 then none
  else if pub.n.length = 0 then none
  else if pub.e.length = 0 then none
  else if pub.n.length < plaintext.length then none
  else if ofBe pub.n ≤ ofBe plaintext then none
  else
    let e := ofBe pub.e % 2 ^ (32 * limbsForBytes pub.n.length)
    some (toBe pub.n.length (ofBe plaintext ^ e % ofBe pub.n))

/-- The block cipher of AES-256, by its key. -/
structure BlockCipher where
  encryptBlock : List UInt8 → List UInt8 → List UInt8
  length_encryptBlock : ∀ key block, (encryptBlock key block).length = 16

/-- The loop of `aes::encrypt` over so many blocks. -/
def cbcLoop (cipher : BlockCipher) (key : List UInt8) : ℕ → List UInt8 → List UInt8 → List UInt8
  | 0, _, _ => []
  | k + 1, chain, data =>
    let out := cipher.encryptBlock key (List.zipWith (· ^^^ ·) (data.take 16) chain)
    out ++ cbcLoop cipher key k out (data.drop 16)

/-- `aes::encrypt` of AES-256 in CBC mode. -/
def aesEncrypt (cipher : BlockCipher) (key iv plaintext : List UInt8) : Option (List UInt8) :=
  if key.length ≠ 32 then none
  else if iv.length ≠ 16 then none
  else if plaintext.length % 16 ≠ 0 then none
  else some (cbcLoop cipher key (plaintext.length / 16) iv plaintext)

/-! ## Sizes -/

@[simp] theorem length_toBe (k v : ℕ) : (toBe k v).length = k := by
  rw [toBe, List.length_reverse, length_toLe]

theorem ofBe_lt (bs : List UInt8) : ofBe bs < 256 ^ bs.length := by
  have := ofLe_lt bs.reverse
  rwa [List.length_reverse] at this

theorem length_cbcLoop (cipher : BlockCipher) (key : List UInt8) (k : ℕ) (chain data : List UInt8) :
    (cbcLoop cipher key k chain data).length = 16 * k := by
  induction k generalizing chain data with
  | zero => rfl
  | succ k ih =>
    rw [cbcLoop, List.length_append, ih, cipher.length_encryptBlock]
    omega

theorem length_of_aesEncrypt {cipher : BlockCipher} {key iv plaintext out : List UInt8}
    (h : aesEncrypt cipher key iv plaintext = some out) : out.length = plaintext.length := by
  unfold aesEncrypt at h
  split at h
  · cases h
  split at h
  · cases h
  split at h
  · cases h
  obtain rfl := Option.some.inj h
  rw [length_cbcLoop]
  omega

/-- What `rsa::encrypt` accepts: the ciphertext has the length of the modulus. -/
theorem rsaEncrypt_eq_some {pub : PublicKey} {plaintext out : List UInt8}
    (h : rsaEncrypt pub plaintext = some out) :
    out.length = pub.n.length ∧ plaintext.headD 0 ≠ 0 ∧ plaintext.length ≤ pub.n.length ∧
      ofBe plaintext < ofBe pub.n := by
  unfold rsaEncrypt at h
  split at h
  · cases h
  split at h
  · cases h
  split at h
  · cases h
  split at h
  · cases h
  split at h
  · cases h
  rename_i h1 h2 h3 h4 h5
  obtain rfl := Option.some.inj h
  exact ⟨length_toBe _ _, h1, by omega, by omega⟩

theorem length_trimBe_le (beyond : UInt8) (data : List UInt8) (len : ℕ) :
    (trimBe beyond data len).length ≤ max len 1 := by
  unfold trimBe
  split
  · exact Nat.le_max_right _ _
  · rename_i b bs h
    have h1 := (List.dropWhile_sublist (· == 0) (l := data.take len)).length_le
    rw [h, List.length_take] at h1
    omega

theorem lengthPrefix_lt {data rest : List UInt8} {l : ℕ} (h : lengthPrefix data = some (l, rest)) :
    l < 2 ^ 32 := by
  unfold lengthPrefix at h
  split at h
  · cases h
  split at h
  · cases h
  simp only [Option.some.injEq, Prod.mk.injEq] at h
  have hlt := ofBe_lt (data.take 4)
  rw [h.1, List.length_take] at hlt
  exact hlt.trans_le (Nat.pow_le_pow_right (by norm_num) (Nat.min_le_left _ _))

/-- A key that is accepted has an exponent, and its modulus has fewer than 2 ^ 32 bytes. -/
theorem parsePublicKeySsh_spec {beyond : UInt8} {text : List UInt8} {pub : PublicKey}
    (h : parsePublicKeySsh beyond text = some pub) : pub.e ≠ [] ∧ pub.n.length < 2 ^ 32 := by
  simp only [parsePublicKeySsh, Option.bind_eq_some_iff, Prod.exists] at h
  obtain ⟨t1, t2, -, h⟩ := h
  split at h
  · cases h
  simp only [Option.bind_eq_some_iff, Prod.exists] at h
  obtain ⟨blob, -, e, n, hwire, h⟩ := h
  split at h
  · cases h
  split at h
  · cases h
  rename_i hn he
  obtain rfl := Option.some.inj h
  refine ⟨fun hnil => he ?_, ?_⟩
  · change e = [] at hnil
    rw [hnil]
    rfl
  · simp only [parseSshWireRsa, Option.bind_eq_some_iff, Prod.exists] at hwire
    obtain ⟨l1, d1, -, hwire⟩ := hwire
    split at hwire
    · cases hwire
    simp only [Option.bind_eq_some_iff, Option.map_eq_some_iff, Prod.exists, Prod.mk.injEq] at hwire
    obtain ⟨le, d2, -, ln, d3, hln, -, rfl⟩ := hwire
    have h1 := lengthPrefix_lt hln
    have h2 := length_trimBe_le beyond d3 ln
    change (trimBe beyond d3 ln).length < 2 ^ 32
    omega

end QLog.Encryption
