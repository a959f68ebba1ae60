import QLog.Appender.SegmentAppend
import QLog.Encryption.Keys

/-!
# The keys of a segment

`append_new_segment` writes an AES key encrypted with the public key of the appender, which has the
length of its modulus. `scan_segment_topology` expects it to have 256 bytes. The parser of public keys
admits every modulus, so that the two agree for RSA-2048 only.
-/

namespace QLog.Appender

open Bytes Encryption

/-- The random numbers of `append_new_segment`: AES key, its first byte in case that is zero, IV and key
blob. -/
structure Random where
  aesKey : List UInt8
  first : UInt8
  aesIv : List UInt8
  xorKeyBlob : List UInt8
  length_aesKey : aesKey.length = 32
  first_ne : first ≠ 0
  length_aesIv : aesIv.length = 16
  length_xorKeyBlob : xorKeyBlob.length = xorKeyBlobSize

/-- The AES key; raw RSA loses leading zeros. -/
def Random.key (rnd : Random) : List UInt8 :=
  if rnd.aesKey.headD 0 = 0 then rnd.first :: rnd.aesKey.tail else rnd.aesKey

/-- The keys of a new segment. -/
def makeKeys (cipher : BlockCipher) (pub : PublicKey) (rnd : Random) : Option Keys :=
  (rsaEncrypt pub rnd.key).bind fun ciphertextAesKey =>
    if ciphertextAesKey.length ≠ pub.n.length then none
    else
      (aesEncrypt cipher rnd.key rnd.aesIv rnd.xorKeyBlob).map fun blob =>
        ⟨ciphertextAesKey, rnd.aesIv, blob⟩

/-! ## The scanner on a file with one more segment -/

section Scan

variable {cfg : Config} {file f' : List UInt8} {cur m last : ℕ} {head : SegHead} {t t' : Topology}
  {starts : List ℕ}

theorem scanKeys_congr {f' fp : List UInt8} (fp' : List UInt8) (next : ℕ) (hlen : file.length ≤ f'.length)
    (hfp : head.encType = .rsaAesXor → fp' = fp) (h : scanKeys file cur head fp t = some (m, t')) :
    scanKeys f' cur { head with nextSegPos := next } fp' t = some (m, t') := by
  unfold scanKeys at h ⊢
  cases henc : head.encType with
  | plaintext =>
    rw [henc] at h
    exact h
  | rsaAesXor =>
    rw [henc] at h
    simp only at h ⊢
    rw [hfp henc]
    split at h
    · cases h
    · rename_i hbig
      rw [if_neg (by omega)]
      exact h

theorem minNext_of_scanKeys {fp : List UInt8} (h : scanKeys file cur head fp t = some (m, t'))
    (henc : head.encType = .rsaAesXor) : m = cur + 12 + encryptionKeysSize := by
  unfold scanKeys at h
  rw [henc] at h
  simp only at h
  split at h
  · cases h
  split at h
  · cases h
  split at h
  · simp only [Option.some.injEq, Prod.mk.injEq] at h
    exact h.1.symm
  split at h
  · cases h
  simp only [Option.some.injEq, Prod.mk.injEq] at h
  exact h.1.symm

/-- The segments in front of the last are found as they were. -/
theorem scanSegment_of_le (hext : Extends file f' last) (hcur : cur < 2 ^ 31)
    (h : scanSegment file cur t = some (head, m, t')) (hm : m ≤ last) :
    scanSegment f' cur t = some (head, m, t') := by
  obtain ⟨h1, h2, -⟩ := le_of_scanSegment h
  have h3 := hext.last_le
  have h4 := hext.room
  rw [scanSegment, if_neg (by omega), readSegHead_eq hcur h2] at h
  simp only [Option.bind_eq_some_iff, Option.map_eq_some_iff, Prod.exists, Prod.mk.injEq] at h
  obtain ⟨head', fp, ⟨u, hu, rfl, rfl⟩, m', v, hkeys, rfl, rfl, rfl⟩ := h
  rw [scanSegment, if_neg (by omega), readSegHead_eq hcur (by omega), hext.head_of_le (by omega), hu,
    Option.map_some, Option.bind_some]
  have hsame := scanKeys_congr (sub f' (cur + 12) 8) u.nextSegPos (show file.length ≤ f'.length by omega)
    (fun henc => ?_) hkeys
  · simp only [hsame, Option.map_some]
  · have := minNext_of_scanKeys hkeys henc
    unfold encryptionKeysSize at this
    exact hext.same _ _ (by omega) (.inl (by omega))

/-- The segment that was the last is found with its link. -/
theorem scanSegment_last (hext : Extends file f' last) (hcur : last < 2 ^ 31)
    (h : scanSegment file last t = some (head, m, t')) (hm : m ≤ file.length) :
    scanSegment f' last t = some ({ head with nextSegPos := file.length }, m, t') := by
  obtain ⟨h1, h2, -⟩ := le_of_scanSegment h
  have h3 := hext.size_lt
  have h4 := hext.room
  rw [scanSegment, if_neg (by omega), readSegHead_eq hcur h2] at h
  simp only [Option.bind_eq_some_iff, Option.map_eq_some_iff, Prod.exists, Prod.mk.injEq] at h
  obtain ⟨head', fp, ⟨u, hu, rfl, rfl⟩, m', v, hkeys, rfl, rfl, rfl⟩ := h
  have hparse : SegHead.parse (sub f' last 12) = some { u with nextSegPos := file.length } := by
    rw [hext.head_last]
    refine SegHead.parse_relink hu ?_
    unfold noNext at h3
    omega
  rw [scanSegment, if_neg (by omega), readSegHead_eq hcur (by omega), hparse, Option.map_some,
    Option.bind_some]
  have hsame := scanKeys_congr (sub f' (last + 12) 8) file.length (show file.length ≤ f'.length by omega)
    (fun henc => ?_) hkeys
  · simp only [hsame, Option.map_some]
  · have := minNext_of_scanKeys hkeys henc
    unfold encryptionKeysSize at this
    exact hext.same _ _ (by omega) (.inr (by omega))

/-- **The scanner comes to the new segment** with the topology that it had at the end of the old
file. -/
theorem Scan.scanLoop_extends (h : Scan file cur t starts t')
    (hlast : t'.lastSegmentStartPos < 2 ^ 31) (hext : Extends file f' t'.lastSegmentStartPos) :
    scanLoop f' cur t = scanLoop f' file.length t' := by
  have h1 := hext.room
  have h2 := hext.size_lt
  induction h with
  | @last cur m t t' head hseg hnext hle =>
    have hpos := (le_of_scanSegment hseg).2.2.1
    rw [hpos] at hlast hext
    rw [scanLoop, scanSegment_last hext hlast hseg hle]
    simp only [Nat.ne_of_lt h2, if_false]
    rw [dif_neg (by omega)]
  | @next cur m t t' t'' head starts hseg hne hm hle h ih =>
    have hpos := h.getLast.2.1
    have h3 := (le_of_scanSegment hseg).1
    rw [scanLoop, scanSegment_of_le hext (by omega) hseg (by omega)]
    simp only [hne, if_false]
    rw [dif_neg (by omega)]
    exact ih hlast hext

/-- A segment that the scanner found below 2 ^ 32 begins below 2 ^ 31. -/
theorem Scan.last_lt (h : Scan file cur t starts t') (hsize : file.length < 2 ^ 32) :
    t'.lastSegmentStartPos < 2 ^ 31 := by
  induction h with
  | @last cur m t t' head hseg hnext hle =>
    obtain ⟨-, h2, h3, -⟩ := le_of_scanSegment hseg
    rw [h3]
    by_contra hbig
    rw [scanSegment, if_neg (by omega), readSegHead_eq_none (by omega) (by omega),
      Option.bind_none] at hseg
    cases hseg
  | @next cur m t t' t'' head starts hseg hne hm hle h ih => exact ih

/-- The check of the file header. -/
theorem scanSegmentTopology_eq (h8 : 8 ≤ file.length) :
    scanSegmentTopology cfg file =
      if ofLe ((sub file 0 8).take 4) ≠ cfg.version ∨ (sub file 0 8).getD 4 0 ≠ cfg.format then none
      else if file.length = 8 then some Topology.empty
      else scanLoop file 8 Topology.empty := by
  obtain ⟨r, hr⟩ : ∃ r, (Reader.start file).seekReadFileAbsolute 0 = some r := ⟨_, rfl⟩
  obtain ⟨hat, hfile, hpos, -⟩ := Reader.seekReadFileAbsolute_at hr
  change r.file = file at hfile
  obtain ⟨h1, -⟩ := hat.readWithCache 8
  rw [hfile, hpos, Nat.zero_mod, sub_min] at h1
  rw [scanSegmentTopology, if_neg (by omega), hr, Option.bind_some]
  simp only [h1]
  rw [if_neg (by rw [length_sub_of_le (by omega)]; simp)]

/-- The scanner on a new encrypted segment: it does not reach a segment from 2 ^ 31 on, and it accepts
one with an RSA-2048 ciphertext. -/
theorem scanLoop_new {g : List UInt8} {type : SegType} {k : Keys} (hg : g.length = file.length)
    (hadm : cfg.Admits t) (henc : cfg.encType = .rsaAesXor) (hf' : f' = g ++
      ((⟨noNext, type, cfg.encType⟩ : SegHead).bytes ++ (toLe 8 cfg.rsaKeyFingerprint.toNat ++
        (k.ciphertextAesKey ++ (k.aesIv ++ k.xorKeyBlobCiphertext)))))
    (hsize : f'.length = file.length + 12 + encryptionKeysSize) (hpos : file.length < 2 ^ 31) :
    (scanLoop f' file.length t).isSome := by
  have hhead : sub f' file.length 12 = (⟨noNext, type, cfg.encType⟩ : SegHead).bytes := by
    rw [hf', ← hg, sub_append_right, List.take_left' (SegHead.length_bytes _)]
  have hfp : sub f' (file.length + 12) 8 = toLe 8 cfg.rsaKeyFingerprint.toNat := by
    have hlen : (g ++ (⟨noNext, type, cfg.encType⟩ : SegHead).bytes).length = file.length + 12 := by
      rw [List.length_append, SegHead.length_bytes, hg]
    rw [hf', ← List.append_assoc, ← hlen, sub_append_right, List.take_left' (length_toLe _ _)]
  have hback : UInt64.ofNat (ofLe (toLe 8 cfg.rsaKeyFingerprint.toNat)) = cfg.rsaKeyFingerprint := by
    rw [ofLe_toLe cfg.rsaKeyFingerprint.toNat_lt, UInt64.ofNat_toNat]
  have hparse : SegHead.parse (⟨noNext, type, cfg.encType⟩ : SegHead).bytes =
      some ⟨noNext, type, cfg.encType⟩ := SegHead.parse_bytes (show noNext < 2 ^ 64 by decide)
  obtain ⟨u, hkeys⟩ : ∃ u, scanKeys f' file.length ⟨noNext, type, cfg.encType⟩
      (toLe 8 cfg.rsaKeyFingerprint.toNat) t = some (file.length + 12 + encryptionKeysSize, u) := by
    rw [scanKeys, henc]
    simp only
    rw [if_neg (by omega), if_neg (by rw [length_toLe]; simp), hback]
    split
    · exact ⟨_, rfl⟩
    · rename_i hhas
      rw [if_neg fun hne => hadm.2 ⟨henc, by simpa using hhas, hne⟩]
      exact ⟨_, rfl⟩
  have hseg : scanSegment f' file.length t = some (⟨noNext, type, cfg.encType⟩,
      file.length + 12 + encryptionKeysSize, { u with
        hasSegment := true
        lastSegmentStartPos := file.length
        allSegmentsArePlaintext := u.allSegmentsArePlaintext &&
          decide (cfg.encType = .plaintext) }) := by
    rw [scanSegment, if_neg (by omega), readSegHead_eq hpos (by omega), hhead, hparse, hfp,
      Option.map_some, Option.bind_some]
    simp only [hkeys, Option.map_some]
  rw [scanLoop, hseg]
  simp only [if_true]
  rw [if_pos (by omega)]
  rfl

theorem scanLoop_eq_none (hpos : 2 ^ 31 ≤ cur) (hlt : cur < 2 ^ 32) : scanLoop file cur t = none := by
  have hseg : scanSegment file cur t = none := by
    rw [scanSegment, readSegHead_eq_none hpos hlt, Option.bind_none, ite_self]
  rw [scanLoop, hseg]

end Scan

/-! ## The layout -/

/-- The segments that the appender adds to a file have the size of a head and the keys that the scanner
expects, and the scanner accepts the file. -/
def LayoutAgrees (cipher : BlockCipher) (cfg : Config) (pub : PublicKey) (file : List UInt8) : Prop :=
  ∀ type rnd ks link f',
    appendNewSegment cfg file type (makeKeys cipher pub rnd) ks link = (true, f') →
      f'.length = file.length + 12 + encryptionKeysSize ∧ (scanSegmentTopology cfg f').isSome

/-- A segment can be added to the file. -/
def Appendable (cfg : Config) (file : List UInt8) : Prop :=
  ∃ t, scanSegmentTopology cfg file = some t ∧ cfg.Admits t

theorem ofBe_cons (b : UInt8) (bs : List UInt8) :
    ofBe (b :: bs) = ofBe bs + 256 ^ bs.length * b.toNat := by
  rw [ofBe, List.reverse_cons, ofLe_append, List.length_reverse]
  rfl

/-- An AES key that can be encrypted is at least 2 ^ 248. -/
theorem le_ofBe_of_headD {key : List UInt8} (hlen : key.length = 32) (hhead : key.headD 0 ≠ 0) :
    2 ^ 248 ≤ ofBe key := by
  cases key with
  | nil => cases hlen
  | cons b bs =>
    have hb : 1 ≤ b.toNat := by
      rw [Nat.one_le_iff_ne_zero]
      intro h0
      exact hhead (UInt8.toNat.inj h0)
    have hbs : bs.length = 31 := by simpa using hlen
    rw [ofBe_cons, hbs]
    calc 2 ^ 248 = 256 ^ 31 * 1 := by norm_num
      _ ≤ 256 ^ 31 * b.toNat := Nat.mul_le_mul_left _ hb
      _ ≤ _ := Nat.le_add_left _ _

theorem Random.length_key (rnd : Random) : rnd.key.length = 32 := by
  have h := rnd.length_aesKey
  unfold Random.key
  split
  · rw [List.length_cons, List.length_tail]
    omega
  · exact h

/-- The keys of a segment have the sizes that the public key gives them. -/
theorem makeKeys_eq_some {cipher : BlockCipher} {pub : PublicKey} {rnd : Random} {k : Keys}
    (h : makeKeys cipher pub rnd = some k) :
    k.ciphertextAesKey.length = pub.n.length ∧ k.aesIv.length = 16 ∧
      k.xorKeyBlobCiphertext.length = xorKeyBlobSize ∧ 2 ^ 248 < ofBe pub.n := by
  simp only [makeKeys, Option.bind_eq_some_iff] at h
  obtain ⟨c, hc, h⟩ := h
  split at h
  · cases h
  rw [Option.map_eq_some_iff] at h
  obtain ⟨blob, hblob, rfl⟩ := h
  obtain ⟨h1, h2, -, h4⟩ := rsaEncrypt_eq_some hc
  exact ⟨h1, rnd.length_aesIv, (length_of_aesEncrypt hblob).trans rnd.length_xorKeyBlob,
    (le_ofBe_of_headD rnd.length_key h2).trans_lt h4⟩

/-- The AES key 2 ^ 248. -/
def Random.least : Random where
  aesKey := 1 :: List.replicate 31 0
  first := 1
  aesIv := List.replicate 16 0
  xorKeyBlob := List.replicate xorKeyBlobSize 0
  length_aesKey := rfl
  first_ne := by decide
  length_aesIv := rfl
  length_xorKeyBlob := List.length_replicate

theorem makeKeys_least (cipher : BlockCipher) {pub : PublicKey} (he : pub.e ≠ [])
    (hn : 2 ^ 248 < ofBe pub.n) : ∃ k, makeKeys cipher pub Random.least = some k := by
  have hlen : 32 ≤ pub.n.length := by
    by_contra hlt
    have h1 := ofBe_lt pub.n
    have h2 : 256 ^ pub.n.length ≤ 256 ^ 31 := Nat.pow_le_pow_right (by norm_num) (by omega)
    have h3 : (256 : ℕ) ^ 31 = 2 ^ 248 := by norm_num
    omega
  have hkey : Random.least.key = 1 :: List.replicate 31 0 := rfl
  have hval : ofBe (1 :: List.replicate 31 0) = 2 ^ 248 := by decide
  have hiv : Random.least.aesIv.length = 16 := rfl
  have hblob : Random.least.xorKeyBlob.length = xorKeyBlobSize := Random.least.length_xorKeyBlob
  have hmod : xorKeyBlobSize % 16 = 0 := by decide
  rw [makeKeys, hkey, rsaEncrypt, if_neg (by decide), if_neg (by omega),
    if_neg (by simpa using he), if_neg (by simpa using hlen), hval, if_neg (by omega),
    Option.bind_some]
  simp only [length_toBe, ne_eq, not_true_eq_false, if_false]
  rw [aesEncrypt, if_neg (by simp), if_neg (by rw [hiv]; simp), if_neg (by rw [hblob, hmod]; simp)]
  exact ⟨_, rfl⟩

theorem complete_map_length (size : ℕ) (chunks : List (List UInt8))
    (h : size + chunks.flatten.length ≤ maxFileSize) :
    Complete size chunks (chunks.map List.length) := by
  induction chunks generalizing size with
  | nil => trivial
  | cons chunk chunks ih =>
    rw [List.flatten_cons, List.length_append] at h
    refine ⟨by simp, by omega, ?_⟩
    rw [List.map_cons, List.tail_cons]
    exact ih _ (by omega)

/-! ## A successful call -/

section Success

variable {cfg : Config} {file f' : List UInt8} {type : SegType} {keys : Option Keys} {ks : List ℕ}
  {link : ℕ}

/-- The bytes of an encrypted segment in front of its payload. -/
def segmentBytes (cfg : Config) (type : SegType) (k : Keys) : List UInt8 :=
  (⟨noNext, type, cfg.encType⟩ : SegHead).bytes ++ (toLe 8 cfg.rsaKeyFingerprint.toNat ++
    (k.ciphertextAesKey ++ (k.aesIv ++ k.xorKeyBlobCiphertext)))

theorem newSegment_rsa {chunks : List (List UInt8)} (henc : cfg.encType = .rsaAesXor)
    (h : newSegment cfg type keys = some chunks) :
    ∃ k, keys = some k ∧ chunks.flatten = segmentBytes cfg type k := by
  rw [newSegment, henc] at h
  simp only [Option.map_eq_some_iff] at h
  obtain ⟨k, hk, rfl⟩ := h
  refine ⟨k, hk, ?_⟩
  rw [segmentBytes, henc]
  simp only [List.flatten_cons, List.flatten_nil, List.append_nil]

/-- **A successful call**: the file with the link patched and the new segment behind it, on which the
scanner comes to the new segment. -/
theorem appendNewSegment_true (henc : cfg.encType = .rsaAesXor) (hsize : file.length < 2 ^ 32)
    (h : appendNewSegment cfg file type keys ks link = (true, f')) :
    ∃ t k g, scanSegmentTopology cfg file = some t ∧ cfg.Admits t ∧ keys = some k ∧
      g.length = file.length ∧ f' = g ++ segmentBytes cfg type k ∧
      scanSegmentTopology cfg f' = scanLoop f' file.length t := by
  rcases appendNewSegment_cases cfg file type keys ks link with
    ⟨heq, -⟩ | ⟨t, chunks, hreach, ⟨hlen, rfl, heq⟩ | ⟨starts, hwalk, heq⟩⟩
  · cases heq.symm.trans h
  · -- the first segment
    obtain ⟨k, hk, hflat⟩ := newSegment_rsa henc hreach.new
    obtain ⟨-, hroom⟩ := hreach.headAt_new rfl
    obtain rfl : file ++ chunks.flatten = f' := (Prod.mk.inj (heq.symm.trans h)).2
    refine ⟨_, k, file, hreach.scan, hreach.admits, hk, rfl, by rw [hflat], ?_⟩
    have hold := hreach.scan
    rw [scanSegmentTopology_eq (by omega)] at hold ⊢
    rw [sub_append_of_le (by omega)]
    split at hold
    · cases hold
    · rename_i hhead
      rw [if_neg hhead, if_neg (by omega), hlen]
  · obtain ⟨-, h8, -, h12, -⟩ := hwalk.getLast
    have hmax := hreach.size_le
    rw [heq] at h
    split at h
    swap
    · cases h
    obtain ⟨k, hk, hflat⟩ := newSegment_rsa henc hreach.new
    have hlen' : (overwrite file t.lastSegmentStartPos (toLe 8 file.length)).length =
        file.length := by
      rw [length_overwrite (by omega), length_toLe]
      omega
    obtain ⟨-, hroom⟩ := hreach.headAt_new hlen'
    have hext : Extends file (overwrite file t.lastSegmentStartPos (toLe 8 file.length) ++
        chunks.flatten) t.lastSegmentStartPos := by
      refine extends_overwrite h12 ?_ ?_
      · unfold maxFileSize noNext at *
        omega
      · rw [List.length_append, hlen'] at hroom
        omega
    obtain rfl := (Prod.mk.inj h).2
    refine ⟨t, k, _, hreach.scan, hreach.admits, hk, hlen', by rw [hflat], ?_⟩
    have hold := hreach.scan
    rw [scanSegmentTopology_eq (by omega)] at hold ⊢
    rw [hext.same 0 8 (by omega) (.inl (by omega))]
    split at hold
    · cases hold
    · rename_i hhead
      rw [if_neg hhead, if_neg (by omega)]
      exact hwalk.scanLoop_extends (hwalk.last_lt hsize) hext

/-- A call whose writes are all complete succeeds. -/
theorem appendNewSegment_complete {t : Topology} {chunks : List (List UInt8)}
    (hreach : Reaches cfg file type keys ks t chunks) (hlink : 8 ≤ link) :
    ∃ f', appendNewSegment cfg file type keys ks link = (true, f') := by
  rcases appendNewSegment_cases cfg file type keys ks link with
    ⟨-, hnot⟩ | ⟨u, cs, -, ⟨-, -, heq⟩ | ⟨starts, -, heq⟩⟩
  · exact absurd hreach (hnot t chunks)
  · exact ⟨_, heq⟩
  · rw [if_pos hlink] at heq
    exact ⟨_, heq⟩

end Success

theorem length_segmentBytes (cfg : Config) (type : SegType) (k : Keys) :
    (segmentBytes cfg type k).length = 12 + (8 + (k.ciphertextAesKey.length +
      (k.aesIv.length + k.xorKeyBlobCiphertext.length))) := by
  simp only [segmentBytes, List.length_append, SegHead.length_bytes, length_toLe]

/-- The least AES key, written completely: the segment has the size that the modulus gives it. -/
theorem exists_append_least (cipher : BlockCipher) {cfg : Config} {pub : PublicKey} {file : List UInt8}
    (henc : cfg.encType = .rsaAesXor) (hsize : file.length < 2 ^ 32) (he : pub.e ≠ [])
    (hn : pub.n.length < 2 ^ 32) (happ : Appendable cfg file) (hbig : 2 ^ 248 < ofBe pub.n) :
    ∃ ks f', appendNewSegment cfg file .normal (makeKeys cipher pub Random.least) ks 8 = (true, f') ∧
      f'.length = file.length + (12 + (8 + (pub.n.length + (16 + xorKeyBlobSize)))) := by
  obtain ⟨t, hscan, hadm⟩ := happ
  obtain ⟨k, hk⟩ := makeKeys_least cipher he hbig
  obtain ⟨hc, hiv, hblob, -⟩ := makeKeys_eq_some hk
  obtain ⟨chunks, hnew⟩ : ∃ chunks, newSegment cfg .normal (some k) = some chunks := by
    rw [newSegment, henc]
    exact ⟨_, rfl⟩
  obtain ⟨k', hk', hflat⟩ := newSegment_rsa henc hnew
  obtain rfl := Option.some.inj hk'
  have hroom : file.length + chunks.flatten.length ≤ maxFileSize := by
    rw [hflat, length_segmentBytes, hc, hiv, hblob]
    unfold maxFileSize xorKeyBlobSize
    omega
  have hreach : Reaches cfg file .normal (some k) (chunks.map List.length) t chunks :=
    ⟨hscan, hadm, hnew, complete_map_length _ _ hroom⟩
  obtain ⟨f', hf'⟩ := appendNewSegment_complete hreach le_rfl
  rw [← hk] at hf'
  refine ⟨_, f', hf', ?_⟩
  obtain ⟨u, k', g, -, -, hk', hg, rfl, -⟩ := appendNewSegment_true henc hsize hf'
  obtain rfl : k = k' := Option.some.inj (hk.symm.trans hk')
  rw [List.length_append, length_segmentBytes, hg, hc, hiv, hblob]

/-- What agreement needs: the modulus has the size that the scanner expects, and the scanner can reach
the new segment. -/
theorem LayoutAgrees.length_eq {cipher : BlockCipher} {cfg : Config} {pub : PublicKey}
    {file : List UInt8} (h : LayoutAgrees cipher cfg pub file) (henc : cfg.encType = .rsaAesXor)
    (hsize : file.length < 2 ^ 32) (he : pub.e ≠ []) (hn : pub.n.length < 2 ^ 32)
    (happ : Appendable cfg file) (hbig : 2 ^ 248 < ofBe pub.n) :
    pub.n.length = 256 ∧ file.length < 2 ^ 31 := by
  obtain ⟨ks, f', hf', hlen⟩ := exists_append_least cipher henc hsize he hn happ hbig
  obtain ⟨h1, h2⟩ := h _ _ _ _ _ hf'
  obtain ⟨u, k, g, -, -, -, -, -, hloop⟩ := appendNewSegment_true henc hsize hf'
  refine ⟨?_, ?_⟩
  · unfold encryptionKeysSize at h1
    omega
  · by_contra hpos
    rw [hloop, scanLoop_eq_none (by omega) hsize] at h2
    cases h2

/-- **The layout agrees for RSA-2048**: for a key that is accepted, and a file below 2 ^ 32 to which a
segment can be added, the writer and the scanner agree exactly when the modulus has 256 bytes and the
file is below 2 ^ 31. A modulus of at most 2 ^ 248 cannot encrypt an AES key. -/
theorem segment_layout_agrees (cipher : BlockCipher) (cfg : Config) (beyond : UInt8)
    (text : List UInt8) (pub : PublicKey) (file : List UInt8)
    (hpub : parsePublicKeySsh beyond text = some pub) (henc : cfg.encType = .rsaAesXor)
    (hsize : file.length < 2 ^ 32) :
    LayoutAgrees cipher cfg pub file ↔
      (Appendable cfg file → 2 ^ 248 < ofBe pub.n →
        pub.n.length = 256 ∧ file.length < 2 ^ 31) := by
  obtain ⟨he, hn⟩ := parsePublicKeySsh_spec hpub
  refine ⟨fun h => h.length_eq henc hsize he hn, fun h type rnd ks link f' hf' => ?_⟩
  obtain ⟨t, k, g, hscan, hadm, hk, hg, rfl, hloop⟩ := appendNewSegment_true henc hsize hf'
  obtain ⟨hc, hiv, hblob, hbig⟩ := makeKeys_eq_some hk
  obtain ⟨h256, hpos⟩ := h ⟨t, hscan, hadm⟩ hbig
  have hf'len : (g ++ segmentBytes cfg type k).length =
      file.length + 12 + encryptionKeysSize := by
    rw [List.length_append, length_segmentBytes, hg, hc, hiv, hblob, h256]
    unfold encryptionKeysSize
    omega
  refine ⟨hf'len, ?_⟩
  rw [hloop]
  exact scanLoop_new hg hadm henc rfl hf'len hpos

/-- The text of an RSA-1024 key. -/
def shortKeyText : List UInt8 :=
  [115, 115, 104, 45, 114, 115, 97, 32, 65, 65, 65, 65, 66, 51, 78, 122, 97, 67, 49, 121, 99, 50,
   69, 65, 65, 65, 65, 68, 65, 81, 65, 66, 65, 65, 65, 65, 103, 81, 68, 101, 54, 103, 110, 82, 56,
   112, 89, 53, 75, 101, 65, 75, 87, 73, 57, 104, 82, 81, 107, 53, 55, 84, 72, 108, 121, 103, 81,
   117, 85, 105, 77, 114, 54, 85, 102, 108, 116, 97, 114, 102, 89, 71, 121, 70, 53, 54, 67, 100,
   73, 83, 70, 67, 98, 117, 102, 87, 81, 119, 122, 76, 74, 103, 105, 111, 119, 112, 107, 100, 106,
   70, 100, 90, 114, 110, 100, 56, 115, 108, 99, 107, 113, 71, 101, 82, 107, 87, 43, 68, 55, 54,
   78, 84, 68, 99, 118, 69, 108, 76, 111, 106, 68, 122, 69, 85, 67, 50, 84, 106, 107, 52, 110,
   121, 56, 98, 66, 113, 90, 51, 79, 76, 108, 54, 110, 108, 49, 102, 57, 57, 114, 74, 74, 54, 110,
   113, 71, 49, 108, 73, 111, 110, 89, 54, 99, 43, 54, 50, 85, 107, 121, 101, 66, 52, 122, 49, 84,
   84, 74, 109, 90, 51, 105, 101, 75, 97, 97, 100, 110, 99, 115, 81, 61, 61]

theorem parse_shortKeyText :
    (parsePublicKeySsh 0 shortKeyText).map (fun pub => (pub.n.length, decide (2 ^ 248 < ofBe pub.n))) =
      some (128, true) := by
  decide +kernel

/-- A new encrypted file, of which only the header is written. -/
def newConfig : Config := ⟨10, 2, .rsaAesXor, 1, true⟩

def newFile : List UInt8 := toLe 4 10 ++ [2, 0, 0, 0]

theorem appendable_newFile : Appendable newConfig newFile :=
  ⟨Topology.empty, rfl, by decide⟩

theorem segment_layout_agrees_newFile : ∃ pub, parsePublicKeySsh 0 shortKeyText = some pub ∧
    ∀ cipher, (LayoutAgrees cipher newConfig pub newFile ↔
      (Appendable newConfig newFile → 2 ^ 248 < ofBe pub.n →
        pub.n.length = 256 ∧ newFile.length < 2 ^ 31)) := by
  obtain ⟨pub, hpub, -⟩ := Option.map_eq_some_iff.1 parse_shortKeyText
  exact ⟨pub, hpub, fun cipher =>
    segment_layout_agrees cipher newConfig 0 shortKeyText pub newFile hpub rfl (by decide)⟩

/-- An RSA-1024 key is accepted, and the segments written with it are too short for the scanner. -/
theorem segment_layout_shortKey : ∃ pub, parsePublicKeySsh 0 shortKeyText = some pub ∧
    ∀ cipher, ¬ LayoutAgrees cipher newConfig pub newFile := by
  obtain ⟨pub, hpub, hval⟩ := Option.map_eq_some_iff.1 parse_shortKeyText
  obtain ⟨he, hn⟩ := parsePublicKeySsh_spec hpub
  obtain ⟨h128, hbig⟩ := Prod.mk.inj hval
  refine ⟨pub, hpub, fun cipher h => ?_⟩
  have := (h.length_eq rfl (by decide) he hn appendable_newFile (of_decide_eq_true hbig)).1
  omega

end QLog.Appender
