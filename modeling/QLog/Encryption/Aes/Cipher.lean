import QLog.Encryption.Keys
import QLog.Encryption.Aes.Rounds

/-!
# AES-CBC

The key schedule, the blocks and the chaining of `aes.cpp`. The schedule is a list of words, `nb_` of them
for every round key; decryption goes through the round keys backwards. `foldl_reverse_cancel` is why this
undoes encryption: a turn of the one loop undoes the turn of the other with the same round key. With
`blockCipher` the keys of a segment are encrypted by this function (`encrypt_eq_aesEncrypt`).
-/

namespace QLog.Encryption.Aes

/-- `enum_key_bits`. -/
inductive KeyBits
  | aes128
  | aes192
  | aes256
  deriving DecidableEq

def KeyBits.bits : KeyBits → ℕ
  | .aes128 => 128
  | .aes192 => 192
  | .aes256 => 256

/-- `key_size_`. -/
def KeyBits.keySize (k : KeyBits) : ℕ := k.bits / 8

/-- `aes_core`, with the words of `round_key_`. -/
structure Core where
  nk : ℕ
  nr : ℕ
  roundKey : List Word

/-- Word `i` of a string of bytes. -/
def wordAt (bytes : List UInt8) (i : ℕ) : Word :=
  ⟨bytes.getD (4 * i) 0, bytes.getD (4 * i + 1) 0, bytes.getD (4 * i + 2) 0, bytes.getD (4 * i + 3) 0⟩

/-- Word `i` of the schedule, from the words before it. -/
def nextWord (nk : ℕ) (w : List Word) (i : ℕ) : Word :=
  let temp := w.getD (i - 1) ⟨0, 0, 0, 0⟩
  let temp :=
    if i % nk = 0 then
      let temp : Word := ⟨temp.b1, temp.b2, temp.b3, temp.b0⟩
      let temp := temp.map sbox
      { temp with b0 := temp.b0 ^^^ rcon (i / nk) }
    else if 6 < nk ∧ i % nk = 4 then temp.map sbox
    else temp
  (w.getD (i - nk) ⟨0, 0, 0, 0⟩).xor temp

/-- `key_expansion`. -/
def keyExpansion (nk roundKeyWords : ℕ) (key : List UInt8) : List Word :=
  (List.range' nk (roundKeyWords - nk)).foldl (fun w i => w ++ [nextWord nk w i])
    ((List.range nk).map (wordAt key))

/-- The core with its expanded key. -/
def Core.create (k : KeyBits) (key : List UInt8) : Core :=
  let nb := 4
  let nk := k.keySize / 4
  let nr := nk + 6
  ⟨nk, nr, keyExpansion nk (nb * (nr + 1)) key⟩

/-- The bytes of `round_key_` from `16 * round` on. -/
def Core.key (core : Core) (round : ℕ) : Block :=
  let word := fun i => core.roundKey.getD (4 * round + i) ⟨0, 0, 0, 0⟩
  ⟨word 0, word 1, word 2, word 3⟩

/-- `encrypt_block`. -/
def Core.encryptBlock (core : Core) (block : Block) : Block :=
  let state := addRoundKey block (core.key 0)
  let state := (List.range' 1 (core.nr - 1)).foldl
    (fun state round => addRoundKey (mixColumns (shiftRows (subBytes state))) (core.key round)) state
  addRoundKey (shiftRows (subBytes state)) (core.key core.nr)

/-- `decrypt_block`. -/
def Core.decryptBlock (core : Core) (block : Block) : Block :=
  let state := addRoundKey block (core.key core.nr)
  let state := (List.range' 1 (core.nr - 1)).reverse.foldl
    (fun state round => invMixColumns (addRoundKey (invSubBytes (invShiftRows state)) (core.key round))) state
  addRoundKey (invSubBytes (invShiftRows state)) (core.key 0)

/-- The block of 16 bytes. -/
def Block.ofBytes (bytes : List UInt8) : Block :=
  ⟨wordAt bytes 0, wordAt bytes 1, wordAt bytes 2, wordAt bytes 3⟩

def Word.toBytes (w : Word) : List UInt8 := [w.b0, w.b1, w.b2, w.b3]

def Block.toBytes (s : Block) : List UInt8 := s.c0.toBytes ++ s.c1.toBytes ++ s.c2.toBytes ++ s.c3.toBytes

/-- The loop of `encrypt`, for so many blocks, with the last block in `chain`. -/
def Core.encryptLoop (core : Core) : ℕ → Block → List UInt8 → List UInt8
  | 0, _, buf => buf
  | blocks + 1, chain, buf =>
    let block := core.encryptBlock (xorBlock (Block.ofBytes (buf.take 16)) chain)
    block.toBytes ++ core.encryptLoop blocks block (buf.drop 16)

/-- The loop of `decrypt`, with the ciphertext of the last block in `prev`. -/
def Core.decryptLoop (core : Core) : ℕ → Block → List UInt8 → List UInt8
  | 0, _, buf => buf
  | blocks + 1, prev, buf =>
    let cur := Block.ofBytes (buf.take 16)
    (xorBlock (core.decryptBlock cur) prev).toBytes ++ core.decryptLoop blocks cur (buf.drop 16)

/-- `encrypt` into the buffer `out`; nothing if it refuses. -/
def encrypt (k : KeyBits) (key iv plaintext out : List UInt8) : Option (List UInt8) :=
  if key.length ≠ k.keySize then none
  else if iv.length ≠ 16 then none
  else if out.length < plaintext.length then none
  else if plaintext.length % 16 ≠ 0 then none
  else if plaintext.length = 0 then some out
  else
    let core := Core.create k key
    some (core.encryptLoop (plaintext.length / 16) (Block.ofBytes iv) plaintext ++
      out.drop plaintext.length)

/-- `decrypt` into the buffer `out`; nothing if it refuses. -/
def decrypt (k : KeyBits) (key iv ciphertext out : List UInt8) : Option (List UInt8) :=
  if key.length ≠ k.keySize then none
  else if iv.length ≠ 16 then none
  else if out.length < ciphertext.length then none
  else if ciphertext.length % 16 ≠ 0 then none
  else if ciphertext.length = 0 then some out
  else
    let core := Core.create k key
    some (core.decryptLoop (ciphertext.length / 16) (Block.ofBytes iv) ciphertext ++
      out.drop ciphertext.length)

/-! ## Blocks -/

/-- Loops over the same list in both directions cancel if their turns do, up to a map in between. -/
theorem foldl_reverse_cancel {α β ρ : Type*} {f : α → ρ → α} {g : β → ρ → β} {h : α → β}
    (hcancel : ∀ a r, g (h (f a r)) r = h a) (rs : List ρ) (a : α) :
    rs.reverse.foldl g (h (rs.foldl f a)) = h a := by
  induction rs generalizing a with
  | nil => rfl
  | cons r rs ih => rw [List.foldl_cons, List.reverse_cons, List.foldl_append, ih, List.foldl_cons,
      List.foldl_nil, hcancel]

theorem addRoundKey_addRoundKey (s k : Block) : addRoundKey (addRoundKey s k) k = s :=
  xorBlock_xorBlock s k

/-- **`decrypt_block` undoes `encrypt_block`.** -/
theorem Core.decryptBlock_encryptBlock (core : Core) (block : Block) :
    core.decryptBlock (core.encryptBlock block) = block := by
  have hloop := foldl_reverse_cancel
    (f := fun state round => addRoundKey (mixColumns (shiftRows (subBytes state))) (core.key round))
    (g := fun state round =>
      invMixColumns (addRoundKey (invSubBytes (invShiftRows state)) (core.key round)))
    (h := fun state => shiftRows (subBytes state)) (fun state round => by
      simp only [invShiftRows_shiftRows, invSubBytes_subBytes, addRoundKey_addRoundKey,
        invMixColumns_mixColumns])
    (List.range' 1 (core.nr - 1)) (addRoundKey block (core.key 0))
  simp only [decryptBlock, encryptBlock, addRoundKey_addRoundKey, hloop, invShiftRows_shiftRows,
    invSubBytes_subBytes]

/-- **`encrypt_block` undoes `decrypt_block`.** -/
theorem Core.encryptBlock_decryptBlock (core : Core) (block : Block) :
    core.encryptBlock (core.decryptBlock block) = block := by
  have hloop := foldl_reverse_cancel
    (f := fun state round =>
      invMixColumns (addRoundKey (invSubBytes (invShiftRows state)) (core.key round)))
    (g := fun state round => addRoundKey (mixColumns (shiftRows (subBytes state))) (core.key round))
    (h := fun state => invSubBytes (invShiftRows state)) (fun state round => by
      simp only [subBytes_invSubBytes, shiftRows_invShiftRows, mixColumns_invMixColumns,
        addRoundKey_addRoundKey])
    (List.range' 1 (core.nr - 1)).reverse (addRoundKey block (core.key core.nr))
  rw [List.reverse_reverse] at hloop
  simp only [decryptBlock, encryptBlock, addRoundKey_addRoundKey, hloop, subBytes_invSubBytes,
    shiftRows_invShiftRows]

/-! ## Chaining -/

@[simp] theorem Block.length_toBytes (s : Block) : s.toBytes.length = 16 := rfl

@[simp] theorem Block.ofBytes_toBytes (s : Block) : ofBytes s.toBytes = s := rfl

theorem Block.toBytes_ofBytes {bytes : List UInt8} (h : bytes.length = 16) :
    (ofBytes bytes).toBytes = bytes := by
  have hmap : (ofBytes bytes).toBytes = (List.range 16).map fun i => bytes.getD i 0 := rfl
  rw [hmap]
  refine List.ext_getElem (by simp [h]) fun i hi hi' => ?_
  rw [List.getElem_map, List.getElem_range, List.getD_eq_getElem _ _ hi']

/-- **Chaining**: decryption of the chained blocks gives them back. -/
theorem Core.decryptLoop_encryptLoop (core : Core) (n : ℕ) (chain : Block) {p : List UInt8}
    (hp : p.length = 16 * n) :
    (core.encryptLoop n chain p).length = p.length ∧
      core.decryptLoop n chain (core.encryptLoop n chain p) = p := by
  induction n generalizing chain p with
  | zero => exact ⟨rfl, rfl⟩
  | succ n ih =>
    have htake : (p.take 16).length = 16 := by
      rw [List.length_take]
      omega
    rw [encryptLoop]
    generalize hblock : core.encryptBlock (xorBlock (Block.ofBytes (p.take 16)) chain) = block
    obtain ⟨hlen, hrest⟩ := ih block (p := p.drop 16) (by rw [List.length_drop]; omega)
    have htake' : (block.toBytes ++ core.encryptLoop n block (p.drop 16)).take 16 = block.toBytes :=
      List.take_left' rfl
    have hdrop' : (block.toBytes ++ core.encryptLoop n block (p.drop 16)).drop 16 =
        core.encryptLoop n block (p.drop 16) := List.drop_left' rfl
    constructor
    · rw [List.length_append, hlen, Block.length_toBytes, List.length_drop]
      omega
    · rw [decryptLoop, htake', hdrop', Block.ofBytes_toBytes, hrest, ← hblock,
        decryptBlock_encryptBlock, xorBlock_xorBlock, Block.toBytes_ofBytes htake, List.take_append_drop]

/-! ## The cipher of the keys of a segment -/

/-- The block cipher of AES-256. -/
def blockCipher : BlockCipher where
  encryptBlock key block := ((Core.create .aes256 key).encryptBlock (Block.ofBytes block)).toBytes
  length_encryptBlock _ _ := rfl

theorem Block.ofBytes_zipWith {a b : List UInt8} (ha : a.length = 16) (hb : b.length = 16) :
    ofBytes (List.zipWith (· ^^^ ·) a b) = xorBlock (ofBytes a) (ofBytes b) := by
  have hget : ∀ i < 16, (List.zipWith (· ^^^ ·) a b).getD i 0 = a.getD i 0 ^^^ b.getD i 0 := by
    intro i hi
    rw [List.getD_eq_getElem _ _ (by simp [ha, hb, hi]), List.getElem_zipWith,
      List.getD_eq_getElem _ _ (ha ▸ hi), List.getD_eq_getElem _ _ (hb ▸ hi)]
  simp (disch := decide) only [ofBytes, wordAt, xorBlock, Word.xor, hget]

theorem encryptLoop_eq_cbcLoop (key : List UInt8) (n : ℕ) {chain data : List UInt8}
    (hchain : chain.length = 16) (hdata : data.length = 16 * n) :
    (Core.create .aes256 key).encryptLoop n (Block.ofBytes chain) data =
      cbcLoop blockCipher key n chain data := by
  induction n generalizing chain data with
  | zero => exact List.length_eq_zero_iff.1 hdata
  | succ n ih =>
    have htake : (data.take 16).length = 16 := by
      rw [List.length_take]
      omega
    rw [Core.encryptLoop, cbcLoop, ← Block.ofBytes_zipWith htake hchain, ← ih rfl
      (by rw [List.length_drop]; omega)]
    rfl

/-- What encrypts the keys of a segment is `encrypt` into a buffer of the size of the plaintext. -/
theorem encrypt_eq_aesEncrypt (key iv p : List UInt8) :
    encrypt .aes256 key iv p (List.replicate p.length 0) = aesEncrypt blockCipher key iv p := by
  unfold encrypt aesEncrypt
  rw [List.length_replicate, if_neg (Nat.lt_irrefl _), show KeyBits.aes256.keySize = 32 from rfl]
  by_cases hkey : key.length ≠ 32
  · rw [if_pos hkey, if_pos hkey]
  rw [if_neg hkey, if_neg hkey]
  by_cases hiv : iv.length ≠ 16
  · rw [if_pos hiv, if_pos hiv]
  rw [if_neg hiv, if_neg hiv]
  by_cases hp : p.length % 16 ≠ 0
  · rw [if_pos hp, if_pos hp]
  rw [if_neg hp, if_neg hp]
  have hloop := encryptLoop_eq_cbcLoop key (p.length / 16) (not_not.1 hiv)
    (show p.length = 16 * (p.length / 16) by omega)
  by_cases hempty : p.length = 0
  · obtain rfl := List.length_eq_zero_iff.1 hempty
    rfl
  · rw [if_neg hempty]
    simp only [hloop, List.drop_replicate, Nat.sub_self, List.replicate_zero, List.append_nil]

/-! ## The round trip -/

/-- What `encrypt` writes into a buffer of the size of the plaintext, `decrypt` brings back. -/
theorem decrypt_of_encrypt {k : KeyBits} {key iv p c : List UInt8} (out : List UInt8)
    (h : encrypt k key iv p (List.replicate p.length 0) = some c) (hout : out.length = p.length) :
    decrypt k key iv c out = some p := by
  unfold encrypt at h
  rw [List.length_replicate, if_neg (lt_irrefl _)] at h
  split at h
  · cases h
  rename_i hkey
  split at h
  · cases h
  rename_i hiv
  split at h
  · cases h
  rename_i hmod
  have hblocks : p.length = 16 * (p.length / 16) := by omega
  obtain ⟨hlen, htrip⟩ :=
    (Core.create k key).decryptLoop_encryptLoop (p.length / 16) (Block.ofBytes iv) hblocks
  unfold decrypt
  rw [if_neg hkey, if_neg hiv]
  split at h
  · rename_i hzero
    obtain rfl := Option.some.inj h
    rw [hzero] at hout
    obtain rfl := List.length_eq_zero_iff.1 hzero
    obtain rfl := List.length_eq_zero_iff.1 hout
    rfl
  · rename_i hpos
    obtain rfl := Option.some.inj h
    simp only [List.drop_replicate, Nat.sub_self, List.replicate_zero, List.append_nil]
    rw [hlen, if_neg (by omega), if_neg hmod, if_neg hpos, htrip, List.drop_eq_nil_of_le hout.le,
      List.append_nil]

/-- **AES-CBC.** For every key size, a key and an initial vector of the right lengths and a plaintext of
whole blocks, encryption into a buffer that is large enough and decryption into another one give the
plaintext back; and under every expanded key the two functions on blocks are inverse to each other. -/
theorem aes_cbc_roundTrip (k : KeyBits) {key iv p out out' : List UInt8} (hkey : key.length = k.keySize)
    (hiv : iv.length = 16) (hp : p.length % 16 = 0) (hout : p.length ≤ out.length)
    (hout' : p.length ≤ out'.length) :
    (∃ c, c.length = p.length ∧ encrypt k key iv p out = some (c ++ out.drop p.length) ∧
      decrypt k key iv c out' = some (p ++ out'.drop p.length)) ∧
    ∀ block, (Core.create k key).decryptBlock ((Core.create k key).encryptBlock block) = block ∧
      (Core.create k key).encryptBlock ((Core.create k key).decryptBlock block) = block := by
  refine ⟨?_, fun block => ⟨Core.decryptBlock_encryptBlock _ _, Core.encryptBlock_decryptBlock _ _⟩⟩
  by_cases hempty : p.length = 0
  · obtain rfl := List.length_eq_zero_iff.1 hempty
    exact ⟨[], rfl, by simp [encrypt, hkey, hiv], by simp [decrypt, hkey, hiv]⟩
  obtain ⟨hlen, htrip⟩ := (Core.create k key).decryptLoop_encryptLoop (p.length / 16) (Block.ofBytes iv)
    (show p.length = 16 * (p.length / 16) by omega)
  refine ⟨(Core.create k key).encryptLoop (p.length / 16) (Block.ofBytes iv) p, hlen, ?_, ?_⟩
  · simp [encrypt, hkey, hiv, hp, hempty, hout]
  · simp [decrypt, hkey, hiv, hlen, hp, hempty, hout', htrip]

/-- The key of sixteen bytes and the plaintext of a block that the standard takes as its example. -/
example : (encrypt .aes128 (List.range 16 |>.map UInt8.ofNat) (List.replicate 16 0)
    (List.range 16 |>.map fun i => UInt8.ofNat (17 * i)) (List.replicate 16 0)) =
    some [0x69, 0xc4, 0xe0, 0xd8, 0x6a, 0x7b, 0x04, 0x30, 0xd8, 0xcd, 0xb7, 0x80, 0x70, 0xb4, 0xc5, 0x5a] := by
  decide +kernel

theorem aes_cbc_roundTrip_threeBlocks : ∃ c, c.length = 48 ∧
    encrypt .aes192 (List.replicate 24 7) (List.replicate 16 9) ((List.range 48).map UInt8.ofNat)
      (List.replicate 50 0) = some (c ++ [0, 0]) ∧
    decrypt .aes192 (List.replicate 24 7) (List.replicate 16 9) c (List.replicate 49 0) =
      some ((List.range 48).map UInt8.ofNat ++ [0]) := by
  have hkey : (List.replicate 24 (7 : UInt8)).length = KeyBits.aes192.keySize := rfl
  have hiv : (List.replicate 16 (9 : UInt8)).length = 16 := rfl
  have hblocks : ((List.range 48).map UInt8.ofNat).length % 16 = 0 := rfl
  have hout : ((List.range 48).map UInt8.ofNat).length ≤ (List.replicate 50 (0 : UInt8)).length := by decide
  have hout' : ((List.range 48).map UInt8.ofNat).length ≤ (List.replicate 49 (0 : UInt8)).length := by decide
  obtain ⟨⟨c, hlen, henc, hdec⟩, -⟩ := aes_cbc_roundTrip .aes192 hkey hiv hblocks hout hout'
  exact ⟨c, hlen, henc, hdec⟩

end QLog.Encryption.Aes
