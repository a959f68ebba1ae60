import QLog.Appender.Encrypted
import QLog.Encryption.Aes.Cipher
import QLog.Encryption.RsaKeys

/-!
# Encrypted files are readable with the private key

`decipher` is what an encrypted file is written for: from the header on it follows the links of the segments,
takes the AES key of each with `rsa::decrypt` and its key blob with `aes::decrypt`, and XORs the payload with
the blob. The keys of every segment stay where they were written, through flushes and through the links to
later segments (`Keyed.step`), so with the private key of the pair an open file gives back everything that was
flushed (`encrypted_file_deciphers`).
-/

namespace QLog.Appender.Encrypted

open Bytes Encryption Encryption.Rsa

/-! ## Reading -/

/-- The size of what lies between the fingerprint and the payload. -/
def keysLength (pri : PrivateKey) : ℕ := pri.n.length + 16 + xorKeyBlobSize

/-- The key blob of the segment that begins at `start`. -/
def segmentKey (pri : PrivateKey) (beyond : ℕ → UInt8) (file : List UInt8) (start : ℕ) :
    Option (List UInt8) :=
  (decrypt pri beyond (sub file (start + 20) pri.n.length)).toOption.bind fun aesKey =>
    Aes.decrypt .aes256 aesKey (sub file (start + 20 + pri.n.length) 16)
      (sub file (start + 20 + pri.n.length + 16) xorKeyBlobSize) (List.replicate xorKeyBlobSize 0)

/-- The payloads of the segments from `cur` on. -/
def decipherFrom (pri : PrivateKey) (beyond : ℕ → UInt8) (file : List UInt8) (cur : ℕ) :
    Option (List UInt8) :=
  (headAt file cur).bind fun head =>
    (segmentKey pri beyond file cur).bind fun blob =>
      let payload := cur + 20 + keysLength pri
      if head.nextSegPos = noNext then some (xorStream (blobKey blob) payload (file.drop payload))
      else if _ : cur < head.nextSegPos ∧ head.nextSegPos ≤ file.length then
        (decipherFrom pri beyond file head.nextSegPos).map
          (xorStream (blobKey blob) payload (sub file payload (head.nextSegPos - payload)) ++ ·)
      else none
termination_by file.length - cur

/-- The payload of an encrypted file behind its header of eight bytes. -/
def decipher (pri : PrivateKey) (beyond : ℕ → UInt8) (file : List UInt8) : Option (List UInt8) :=
  decipherFrom pri beyond file 8

/-! ## The keys of a segment -/

/-- The bytes of the keys of a segment. -/
def keyBytes (k : Keys) : List UInt8 := k.ciphertextAesKey ++ (k.aesIv ++ k.xorKeyBlobCiphertext)

/-- The keys of a segment lie behind its head and the fingerprint, and its payload behind them. -/
def Keyed (p : Setup) (file : List UInt8) (seg : Segment) : Prop :=
  ∃ rnd k, makeKeys p.cipher p.pub rnd = some k ∧ seg.key = blobKey rnd.xorKeyBlob ∧
    seg.payload = seg.start + 20 + (keyBytes k).length ∧
    sub file (seg.start + 20) (keyBytes k).length = keyBytes k

section Keys

variable {p : Setup} {file f' : List UInt8} {seg : Segment}

/-- The keys are where they were if their bytes are. -/
theorem Keyed.congr (h : Keyed p file seg) (hsame : sub f' (seg.start + 20) (seg.payload - (seg.start + 20)) =
    sub file (seg.start + 20) (seg.payload - (seg.start + 20))) : Keyed p f' seg := by
  obtain ⟨rnd, k, hk, hkey, hpay, hbytes⟩ := h
  rw [hpay, Nat.add_sub_cancel_left] at hsame
  exact ⟨rnd, k, hk, hkey, hpay, hsame.trans hbytes⟩

theorem Keyed.start_le (h : Keyed p file seg) : seg.start + 20 ≤ seg.payload := by
  obtain ⟨rnd, k, -, -, hpay, -⟩ := h
  omega

/-- A segment that has just been written. -/
theorem keyed_new {g : List UInt8} {type : SegType} {rnd : Random} {k : Keys}
    (hk : makeKeys p.cipher p.pub rnd = some k) {start payload : ℕ} (hstart : start = g.length)
    (hpay : payload = (g ++ segmentBytes p.cfg type k).length) :
    Keyed p (g ++ segmentBytes p.cfg type k) ⟨start, payload, blobKey rnd.xorKeyBlob⟩ := by
  have hhead : (g ++ ((⟨noNext, type, p.cfg.encType⟩ : SegHead).bytes ++
      toLe 8 p.cfg.rsaKeyFingerprint.toNat)).length = start + 20 := by
    rw [List.length_append, List.length_append, SegHead.length_bytes, length_toLe, hstart]
  have hsplit : g ++ segmentBytes p.cfg type k = (g ++ ((⟨noNext, type, p.cfg.encType⟩ : SegHead).bytes ++
      toLe 8 p.cfg.rsaKeyFingerprint.toNat)) ++ keyBytes k := by
    rw [segmentBytes, keyBytes]
    simp only [List.append_assoc]
  refine ⟨rnd, k, hk, rfl, ?_, ?_⟩
  · rw [hpay, hsplit, List.length_append, hhead]
  · change sub _ (start + 20) _ = _
    rw [hsplit, ← hhead, sub_append_right, List.take_of_length_le le_rfl]

/-- Segments in front of the last end where the last begins, or before. -/
theorem Laid.payload_le {segs : List Segment} {n : ℕ} (h : Laid segs n) {l : Segment}
    (hl : segs.getLast? = some l) : ∀ seg ∈ segs, seg = l ∨ seg.payload ≤ l.start := by
  induction segs with
  | nil => exact h.elim
  | cons s rest ih =>
    cases rest with
    | nil =>
      obtain rfl : s = l := Option.some.inj hl
      exact fun seg hseg => .inl (List.mem_singleton.1 hseg)
    | cons s' rest =>
      rw [List.getLast?_cons_cons] at hl
      obtain ⟨-, h2, h3⟩ := h
      intro seg hseg
      rcases List.mem_cons.1 hseg with rfl | hseg
      · exact .inr (h2.trans (h3.start_le hl).1)
      · exact ih h3 hl seg hseg

theorem Laid.payload_le_length {segs : List Segment} {n : ℕ} (h : Laid segs n) :
    ∀ seg ∈ segs, seg.payload ≤ n := by
  induction segs with
  | nil => exact h.elim
  | cons s rest ih =>
    cases rest with
    | nil =>
      intro seg hseg
      rw [List.mem_singleton.1 hseg]
      exact h.2
    | cons s' rest =>
      intro seg hseg
      obtain ⟨-, h2, h3⟩ := h
      obtain ⟨l, hl⟩ : ∃ l, (s' :: rest).getLast? = some l :=
        ⟨_, List.getLast?_eq_some_getLast (List.cons_ne_nil _ _)⟩
      rcases List.mem_cons.1 hseg with rfl | hseg
      · have := h3.start_le hl
        omega
      · exact ih h3 seg hseg

end Keys

/-! ## Runs -/

section Runs

variable {p : Setup} {s s' : State} {act : Act}

/-- What a call does to the file and its segments. -/
inductive FileEffect (p : Setup) (s s' : State) : Prop
  | append (bytes : List UInt8) (hfile : s'.cache.file = s.cache.file ++ bytes)
      (hsegs : s'.segments = s.segments)
  | close (l : Segment) (hl : s.segments.getLast? = some l) (hsegs : s'.segments = s.segments)
      (hsame : ∀ a n, a + n ≤ s.cache.file.length → (a + n ≤ l.start ∨ l.start + 8 ≤ a) →
        sub s'.cache.file a n = sub s.cache.file a n)
  | newSegment (l : Segment) (hl : s.segments.getLast? = some l)
      (hext : Extends s.cache.file s'.cache.file l.start) (rnd : Random) (k : Keys) (type : SegType)
      (g : List UInt8) (hk : makeKeys p.cipher p.pub rnd = some k) (hg : g.length = s.cache.file.length)
      (hfile : s'.cache.file = g ++ segmentBytes p.cfg type k)
      (hsegs : s'.segments =
        s.segments ++ [⟨s.cache.file.length, s'.cache.file.length, blobKey rnd.xorKeyBlob⟩])

theorem flush_effect (h : Inv s) (hopen : s.isOpen = true) {a : Answer} {c : Cache} {calls : List Call}
    (hr : a.realWriteSize ≤ s.cache.finishedCursor) (hok : s.cache.FlushOk a)
    (hflush : s.cache.flushEncrypted p.sz p.lanes s.key a = some (c, calls)) :
    ∃ bytes, c.file = s.cache.file ++ bytes := by
  obtain ⟨hc, halign, -⟩ := h.opened hopen
  exact ⟨_, (flushEncrypted_contents p.routine hc halign hr hok hflush).1⟩

theorem alloc_effect (h : Inv s) {size : ℕ} {a : Answer} (hok : StepOk s (.alloc size a))
    (hs : step p s (.alloc size a) = some s') : FileEffect p s s' := by
  rw [Encrypted.step] at hs
  split at hs
  · cases hs
  rename_i hopen
  rw [Bool.not_eq_false] at hopen
  simp only at hs
  split at hs
  swap
  · cases hs
  rename_i hcond
  obtain ⟨hc, halign, -⟩ := h.opened hopen
  split at hs
  · rename_i hneed
    rw [Option.map_eq_some_iff] at hs
    obtain ⟨⟨c, calls⟩, hflush, rfl⟩ := hs
    obtain ⟨bytes, hbytes⟩ := flush_effect h hopen hcond.2 (hok hneed) hflush
    obtain ⟨hc', -⟩ := (h.flush hopen hcond.2 (hok hneed) hflush).opened hopen
    obtain ⟨-, -, h3, -⟩ := hc.alloc p.sz (fun _ => c) size hc' a.fresh
    exact .append bytes ((h3 hneed).1.file.trans hbytes) rfl
  · rename_i hroom
    rw [Option.map_some] at hs
    obtain rfl := Option.some.inj hs
    obtain ⟨-, -, -, h4⟩ := hc.alloc p.sz (fun _ => s.cache) size hc a.fresh
    exact .append [] (by simp [h4 hroom]) rfl

theorem newSegment_effect (h : Inv s) {type : SegType} {rnd : Random} {ks : List ℕ} {link : ℕ} {fresh : Mem}
    (hok : StepOk s (.newSegment type rnd ks link fresh))
    (hs : step p s (.newSegment type rnd ks link fresh) = some s') : FileEffect p s s' := by
  rw [Encrypted.step] at hs
  split at hs
  · cases hs
  rename_i hopen
  rw [Bool.not_eq_false] at hopen
  simp only at hs
  split at hs
  swap
  · cases hs
  obtain ⟨hc, halign, hfs, hroom, hchain, hlaid⟩ := h.opened hopen
  obtain ⟨l, hl⟩ : ∃ l, s.segments.getLast? = some l := by
    cases hsegs : s.segments with
    | nil =>
      rw [hsegs] at hlaid
      exact hlaid.elim
    | cons x rest => exact ⟨_, List.getLast?_eq_some_getLast (List.cons_ne_nil _ _)⟩
  have hlast : (s.segments.map Segment.start).getLast? = some l.start := by
    rw [List.getLast?_map, hl]
    rfl
  rcases appendNewSegment_chain hchain hlast hok p.cfg type (makeKeys p.cipher p.pub rnd) ks link with
    ⟨f', heq, hext, -⟩ | ⟨f', heq, -, hsame⟩
  · obtain ⟨-, k, g, -, -, hk, hg, rfl, -⟩ := appendNewSegment_true p.encType_eq
      (hok.trans (by norm_num)) heq
    rw [heq] at hs
    obtain rfl := Option.some.inj hs
    generalize hnew : g ++ segmentBytes p.cfg type k = f' at *
    have hc' : CacheOk { s.cache with file := f', currentFileSize := f'.length } :=
      ⟨hc.finished_le, hc.size_eq, hc.cursor_le, hc.target⟩
    obtain ⟨-, -, h3⟩ := aligned_updateWriteCachePadding p.sz hc' fresh
    have hfile : (Cache.updateWriteCachePadding p.sz
      { s.cache with file := f', currentFileSize := f'.length } fresh).file = f' := h3.file
    refine .newSegment l hl ?_ rnd k type g hk hg (hfile.trans hnew.symm) ?_
    · simp only
      rw [hfile]
      exact hext
    · simp only
      rw [hfile]
  · rw [heq] at hs
    obtain rfl := Option.some.inj hs
    exact .close l hl rfl hsame

/-- **What a call does to the file**: it appends to it, begins a segment, or closes it with a broken link. -/
theorem step_effect (h : Inv s) (hok : StepOk s act) (hs : step p s act = some s') : FileEffect p s s' := by
  cases act with
  | alloc size a => exact alloc_effect h hok hs
  | newSegment type rnd ks link fresh => exact newSegment_effect h hok hs
  | returnItem item =>
    rw [Encrypted.step] at hs
    split at hs
    · cases hs
    split at hs
    swap
    · cases hs
    split at hs
    swap
    · cases hs
    obtain rfl := Option.some.inj hs
    exact .append [] (List.append_nil _).symm rfl
  | mark =>
    rw [Encrypted.step] at hs
    split at hs
    · cases hs
    split at hs
    swap
    · cases hs
    obtain rfl := Option.some.inj hs
    exact .append [] (List.append_nil _).symm rfl
  | flush a =>
    rw [Encrypted.step] at hs
    split at hs
    · cases hs
    rename_i hopen
    rw [Bool.not_eq_false] at hopen
    simp only at hs
    split at hs
    swap
    · cases hs
    rename_i hcond
    rw [Option.map_eq_some_iff] at hs
    obtain ⟨⟨c, calls⟩, hflush, rfl⟩ := hs
    obtain ⟨bytes, hbytes⟩ := flush_effect h hopen hcond.2 hok hflush
    exact .append bytes hbytes rfl

/-- The keys of the segments stay where they are. -/
theorem Keyed.step (hinv : Inv s) (hopen : s.isOpen = true)
    (h : ∀ seg ∈ s.segments, Keyed p s.cache.file seg) (he : FileEffect p s s') :
    ∀ seg ∈ s'.segments, Keyed p s'.cache.file seg := by
  obtain ⟨-, -, -, -, -, hlaid⟩ := hinv.opened hopen
  -- a change of the link of the last segment is not among the keys
  have hkeep : ∀ {l : Segment}, s.segments.getLast? = some l →
      (∀ a n, a + n ≤ s.cache.file.length → (a + n ≤ l.start ∨ l.start + 8 ≤ a) →
        sub s'.cache.file a n = sub s.cache.file a n) →
      ∀ seg ∈ s.segments, Keyed p s'.cache.file seg := by
    intro l hl hsame seg hseg
    have hle := hlaid.payload_le_length seg hseg
    have hstart := (h seg hseg).start_le
    refine (h seg hseg).congr (hsame _ _ (by omega) ?_)
    rcases hlaid.payload_le hl seg hseg with rfl | hbefore
    · exact .inr (by omega)
    · exact .inl (by omega)
  cases he with
  | append bytes hfile hsegs =>
    rw [hsegs, hfile]
    intro seg hseg
    have hle := hlaid.payload_le_length seg hseg
    have hstart := (h seg hseg).start_le
    exact (h seg hseg).congr (sub_append_of_le (by omega))
  | close l hl hsegs hsame =>
    rw [hsegs]
    exact hkeep hl hsame
  | newSegment l hl hext rnd k type g hk hg hfile hsegs =>
    rw [hsegs]
    intro seg hseg
    rcases List.mem_append.1 hseg with hseg | hseg
    · exact hkeep hl hext.same seg hseg
    · rw [List.mem_singleton.1 hseg, hfile]
      exact keyed_new hk hg.symm rfl

end Runs

/-! ## Deciphering -/

section Decipher

variable {p : Setup} {file : List UInt8} {seg : Segment} {k : RsaKey}

/-- The parts of the keys. -/
theorem sub_keyBytes {keys : Keys} {pos : ℕ} (h : sub file pos (keyBytes keys).length = keyBytes keys) :
    sub file pos keys.ciphertextAesKey.length = keys.ciphertextAesKey ∧
      sub file (pos + keys.ciphertextAesKey.length) keys.aesIv.length = keys.aesIv ∧
      sub file (pos + keys.ciphertextAesKey.length + keys.aesIv.length) keys.xorKeyBlobCiphertext.length =
        keys.xorKeyBlobCiphertext := by
  have hpart : ∀ {a b c : List UInt8}, keyBytes keys = a ++ (b ++ c) →
      sub file (pos + a.length) b.length = b := by
    intro a b c hsplit
    have hlen : (keyBytes keys).length = a.length + (b.length + c.length) := by
      rw [hsplit, List.length_append, List.length_append]
    have hdrop := drop_sub file pos (keyBytes keys).length a.length
    rw [h, hsplit, List.drop_left' rfl, ← hsplit, hlen, Nat.add_sub_cancel_left] at hdrop
    have htake := take_sub file (pos + a.length) (b.length + c.length) b.length
    rwa [← hdrop, List.take_left' rfl, Nat.min_eq_left (Nat.le_add_right _ _), eq_comm] at htake
  refine ⟨hpart (a := []) rfl, hpart (c := keys.xorKeyBlobCiphertext) rfl, ?_⟩
  rw [Nat.add_assoc, ← List.length_append]
  refine hpart (a := keys.ciphertextAesKey ++ keys.aesIv) (c := []) ?_
  rw [keyBytes, List.append_nil, List.append_assoc]

/-- **The keys of a segment** are read with the private key. -/
theorem Keyed.segmentKey (h : Keyed p file seg) (hpub : p.pub = k.publicKey)
    (hcipher : p.cipher = Aes.blockCipher) (beyond : ℕ → UInt8) :
    ∃ blob, segmentKey k.privateKey beyond file seg.start = some blob ∧ seg.key = blobKey blob ∧
      seg.payload = seg.start + 20 + keysLength k.privateKey := by
  obtain ⟨rnd, keys, hk, hkey, hpay, hbytes⟩ := h
  obtain ⟨hct, hiv, hblob, -⟩ := makeKeys_eq_some hk
  rw [hpub] at hct
  obtain ⟨h1, h2, h3⟩ := sub_keyBytes hbytes
  rw [hct] at h1 h2 h3
  rw [hiv] at h2 h3
  rw [hblob] at h3
  simp only [makeKeys, Option.bind_eq_some_iff] at hk
  obtain ⟨ct, hrsa, hk⟩ := hk
  split at hk
  · cases hk
  rw [Option.map_eq_some_iff] at hk
  obtain ⟨blob, haes, rfl⟩ := hk
  refine ⟨rnd.xorKeyBlob, ?_, hkey, ?_⟩
  · rw [hpub, ← toOption_encrypt] at hrsa
    cases henc : encrypt k.publicKey rnd.key with
    | error e =>
      rw [henc] at hrsa
      cases hrsa
    | ok c =>
      rw [henc] at hrsa
      obtain rfl : c = ct := Option.some.inj hrsa
      have hdec := decrypt_of_encrypt k rnd.key c beyond henc
      rw [hcipher, ← Aes.encrypt_eq_aesEncrypt] at haes
      have hout : (List.replicate xorKeyBlobSize (0 : UInt8)).length = rnd.xorKeyBlob.length := by
        rw [List.length_replicate, rnd.length_xorKeyBlob]
      have hn : k.privateKey.n = k.publicKey.n := rfl
      rw [Encrypted.segmentKey, hn, h1, hdec, Except.toOption, Option.bind_some, h2, h3]
      exact Aes.decrypt_of_encrypt _ haes hout
  · rw [hpay, keyBytes, List.length_append, List.length_append, hct, hiv, hblob, keysLength]
    have hn : k.privateKey.n = k.publicKey.n := rfl
    rw [hn, Nat.add_assoc k.publicKey.n.length]

theorem head?_of_chain {file : List UInt8} {cur : ℕ} {starts : List ℕ} (h : Chain file cur starts) :
    starts.head? = some cur := by
  cases h <;> rfl

/-- **The segments are found by their links**, and their payloads are decoded. -/
theorem decipherFrom_eq (hpub : p.pub = k.publicKey) (hcipher : p.cipher = Aes.blockCipher)
    (beyond : ℕ → UInt8) {segs : List Segment} {cur : ℕ} (hchain : Chain file cur (segs.map Segment.start))
    (hlaid : Laid segs file.length) (hkeyed : ∀ seg ∈ segs, Keyed p file seg) :
    decipherFrom k.privateKey beyond file cur = some (payloads file segs) := by
  induction segs generalizing cur with
  | nil => exact hlaid.elim
  | cons s rest ih =>
    obtain ⟨blob, hblob, hkey, hpay⟩ := (hkeyed s List.mem_cons_self).segmentKey hpub hcipher beyond
    rw [List.map_cons] at hchain
    cases rest with
    | nil =>
      cases hchain with
      | last hhead hnext =>
        rw [decipherFrom, hhead, Option.bind_some, hblob, Option.bind_some]
        simp only
        rw [if_pos hnext, payloads, hkey, hpay]
      | next hhead hne hle h => cases h
    | cons s' rest =>
      obtain ⟨h1, h2, h3⟩ := hlaid
      cases hchain with
      | @next _ head _ hhead hne hle h =>
        have hstart : head.nextSegPos = s'.start := (Option.some.inj (head?_of_chain h)).symm
        obtain ⟨l, hl⟩ : ∃ l, (s' :: rest).getLast? = some l :=
          ⟨_, List.getLast?_eq_some_getLast (List.cons_ne_nil _ _)⟩
        have hin := h3.start_le hl
        rw [decipherFrom, hhead, Option.bind_some, hblob, Option.bind_some]
        simp only
        rw [if_neg hne, dif_pos ⟨by omega, by omega⟩,
          ih h h3 fun seg hseg => hkeyed seg (List.mem_cons_of_mem _ hseg), Option.map_some, payloads, hkey,
          hpay, hstart]

theorem file_setCacheWritePadding (sz : Sizes) (c : Cache) (newPadding : ℕ) (fresh : Mem) :
    (c.setCacheWritePadding sz newPadding fresh).file = c.file := by
  have hresize : ∀ (q : Prop) [Decidable q] (need : ℕ),
      (if q then c.resizeCacheWriteEntity sz need fresh else c).file = c.file := by
    intro q _ need
    split
    · rw [Cache.resizeCacheWriteEntity, Cache.refreshCacheWritePtr]
      change (c.resizeBuffer sz need fresh).file = c.file
      unfold Cache.resizeBuffer
      split <;> rfl
    · rfl
  unfold Cache.setCacheWritePadding
  split
  · rfl
  · exact hresize _ _

theorem file_opened (p : Setup) (file : List UInt8) (rnd : Random) (headSize targetSize : ℕ)
    (entity fresh : Mem) : (State.opened p file rnd headSize targetSize entity fresh).cache.file = file :=
  file_setCacheWritePadding _ _ _ _

/-- **An encrypted file is readable**: in every run of calls on a new file of an appender with the public key
of a pair, in which a write is never short while a record is in progress and segments begin below 2 ^ 31, the
open file deciphers with the private key, and what comes out followed by the cache are the items returned. -/
theorem encrypted_file_deciphers (p : Setup) (k : RsaKey) (hpub : p.pub = k.publicKey)
    (hcipher : p.cipher = Aes.blockCipher) (rnd : Random) (ks : List ℕ) (link : ℕ) (file : List UInt8)
    (hfile : appendNewSegment p.cfg (fileHeader p.cfg) .normal (makeKeys p.cipher p.pub rnd) ks link =
      (true, file)) (headSize targetSize : ℕ) (hhead : headSize ≤ targetSize)
    (htarget : cacheWriteMinSize ≤ targetSize) (entity fresh : Mem) (s : State)
    (h : Runs (step p) StepOk (State.opened p file rnd headSize targetSize entity fresh) s)
    (hopen : s.isOpen = true) (beyond : ℕ → UInt8) :
    ∃ plain, decipher k.privateKey beyond s.cache.file = some plain ∧
      plain ++ s.cache.cached = s.items.flatten := by
  have h8 : (fileHeader p.cfg).length = 8 := by simp [fileHeader]
  have hfirst : ∀ seg ∈ (State.opened p file rnd headSize targetSize entity fresh).segments,
      Keyed p (State.opened p file rnd headSize targetSize entity fresh).cache.file seg := by
    obtain ⟨-, keys, g, -, -, hk, hg, rfl, -⟩ := appendNewSegment_true p.encType_eq
      (by rw [h8]; norm_num) hfile
    intro seg hseg
    rw [List.mem_singleton.1 hseg, file_opened]
    exact keyed_new hk (h8.symm.trans hg.symm) rfl
  have hboth := h.invariant
    (I := fun u => Inv u ∧ (u.isOpen = true → ∀ seg ∈ u.segments, Keyed p u.cache.file seg))
    ⟨Inv.openedFile p hfile hhead htarget entity fresh, fun _ => hfirst⟩ (by
    intro u v act hu hok hs
    refine ⟨hu.1.step hok hs, fun _ => ?_⟩
    have hopen : u.isOpen = true := by
      by_contra hclosed
      rw [Bool.not_eq_true] at hclosed
      unfold Encrypted.step at hs
      rw [if_pos hclosed] at hs
      cases hs
    exact Keyed.step hu.1 hopen (hu.2 hopen) (step_effect hu.1 hok hs))
  obtain ⟨hinv, hkeyed⟩ := hboth
  obtain ⟨-, -, -, -, hchain, hlaid⟩ := hinv.opened hopen
  exact ⟨_, decipherFrom_eq hpub hcipher beyond hchain hlaid (hkeyed hopen), hinv.plain⟩

end Decipher

/-- A key pair of two Mersenne primes. -/
def mersenneKey : RsaKey where
  p := mersenne 127
  q := mersenne 521
  e := 65537
  d := (1 + 65280 * Nat.lcm (mersenne 127 - 1) (mersenne 521 - 1)) / 65537
  prime_p := lucas_lehmer_sufficiency _ (by norm_num) (by norm_num)
  prime_q := lucas_lehmer_sufficiency _ (by norm_num) (by norm_num)
  two_lt_p := by decide +kernel
  two_lt_q := by decide +kernel
  p_ne_q := by decide +kernel
  inverse := by decide +kernel
  e_lt := by decide +kernel
  d_lt := by decide +kernel

theorem length_mersenneKey : mersenneKey.publicKey.n.length = 81 := by
  have hlog : Nat.log 256 mersenneKey.n = 80 :=
    (Nat.log_eq_iff (.inl (by decide))).2 ⟨by decide +kernel, by decide +kernel⟩
  have hn : mersenneKey.n ≠ 0 := (Nat.zero_lt_of_lt mersenneKey.one_lt_n).ne'
  simp only [RsaKey.publicKey]
  rw [minBe, List.length_reverse, List.length_map, Nat.length_digits 256 _ (by decide) hn, hlog]

/-- An appender with this key on a machine with AVX2. -/
def mersenneSetup : Setup := setup Aes.blockCipher mersenneKey.publicKey

/-- Its cache on a new file with a record of one byte. -/
def oneRecord (file : List UInt8) (m : Mem) : Cache where
  file := file
  currentFileSize := 32893
  entity := m
  entitySize := 65536
  headSize := 32
  padding := 29
  writeCacheSize := 65475
  cursor := 1
  finishedCursor := 1
  targetSize := 65536
  diskFullDrop := false

theorem exists_runs_oneRecord {file : List UInt8} (hlen : file.length = 32893) : ∃ m, m 61 = 7 ∧
    Runs (step mersenneSetup) StepOk
      (State.opened mersenneSetup file Random.least 32 65536 (fun _ => 0) fun _ => 0)
      ⟨oneRecord file m, none, [[7]], [⟨8, 32893, blobKey Random.least.xorKeyBlob⟩], [], true⟩ := by
  let acts : List Act := [.alloc 1 (Answer.of 0 false), .returnItem [7], .mark]
  let m : Mem := (Mem.move (fun _ => 0) 61 32 0).write 61 [7]
  refine ⟨m, rfl, ?_⟩
  suffices hrun : run (guarded (step mersenneSetup) StepOk)
      (State.opened mersenneSetup file Random.least 32 65536 (fun _ => 0) fun _ => 0) acts =
        some ⟨oneRecord file m, none, [[7]], [⟨8, 32893, blobKey Random.least.xorKeyBlob⟩], [], true⟩ from
    Runs.of_run_guarded hrun
  simp only [acts, run, State.opened, Cache.opened, Cache.updateWriteCachePadding, hlen, mersenneSetup, setup,
    xorKeyBlobSize, Sizes.heap, id, Cache.setCacheWritePadding, Cache.totalUsed,
    Cache.refreshCacheWritePtr, Cache.base]
  norm_num
  simp only [guarded, StepOk, step, Answer.of, Cache.allocWriteCache, Cache.returnWriteCache,
    Cache.markWriteFinished, Cache.base]
  norm_num [StepOk, oneRecord, m]

theorem exists_mersenneFile : ∃ ks file,
    appendNewSegment mersenneSetup.cfg (fileHeader mersenneSetup.cfg) .normal
      (makeKeys mersenneSetup.cipher mersenneSetup.pub Random.least) ks 8 = (true, file) ∧
    file.length = 32893 := by
  have hbig : 2 ^ 248 < ofBe mersenneKey.publicKey.n := by
    rw [RsaKey.publicKey, ofBe_minBe]
    decide +kernel
  have he : mersenneKey.publicKey.e ≠ [] := RsaKey.minBe_ne_nil mersenneKey.e_pos
  obtain ⟨ks, file, hfile, hlen⟩ := exists_append_least Aes.blockCipher
    (show newConfig.encType = .rsaAesXor from rfl)
    (show (fileHeader newConfig).length < 2 ^ 32 by decide) he
    (by rw [length_mersenneKey]; norm_num) appendable_newFile hbig
  rw [length_mersenneKey] at hlen
  exact ⟨ks, file, hfile, hlen⟩

/-- The record is flushed. -/
theorem exists_runs_flushed {file : List UInt8} (hlen : file.length = 32893) : ∃ s,
    Runs (step mersenneSetup) StepOk
      (State.opened mersenneSetup file Random.least 32 65536 (fun _ => 0) fun _ => 0) s ∧
    s.isOpen = true ∧ s.items = [[7]] ∧ s.cache.cached = [] := by
  obtain ⟨m, -, hruns⟩ := exists_runs_oneRecord hlen
  have hcursor : (oneRecord file m).cursor ≤ (oneRecord file m).writeCacheSize := by
    change 1 ≤ 65475
    decide
  have htarget : cacheReadDefaultSize >>> 1 ≤ (oneRecord file m).targetSize := by
    change cacheReadDefaultSize >>> 1 ≤ 65536
    decide
  have hsize : (oneRecord file m).base + (oneRecord file m).writeCacheSize =
      (oneRecord file m).entitySize := by
    change 32 + 29 + 65475 = 65536
    norm_num
  have hc : CacheOk (oneRecord file m) := ⟨le_rfl, hsize, hcursor, htarget⟩
  have haligned : Aligned (oneRecord file m) := by
    change (32 + 29) % 32 = 32893 % 32
    decide
  let u : State := ⟨oneRecord file m, none, [[7]], [⟨8, 32893, blobKey Random.least.xorKeyBlob⟩], [], true⟩
  obtain ⟨c, calls, hflush, -⟩ := flushEncrypted_aligned mersenneSetup.sz u.key
    mersenneSetup.routine hc haligned (a := Answer.of 1 false) le_rfl
  obtain ⟨-, hcached⟩ := flushEncrypted_contents mersenneSetup.routine hc haligned le_rfl (.inl rfl) hflush
  have hstep := hruns.tail (a := Act.flush (Answer.of 1 false)) (Or.inl rfl)
    (step_flush (s := u) rfl rfl le_rfl hflush)
  refine ⟨_, hstep, rfl, rfl, hcached.trans ?_⟩
  rw [List.drop_eq_nil_of_le (by rw [Cache.cached, Mem.length_slice]; rfl)]

/-- A record of one byte is flushed, and read with the private key. -/
theorem encrypted_file_deciphers_oneRecord : ∃ ks file s,
    appendNewSegment mersenneSetup.cfg (fileHeader mersenneSetup.cfg) .normal
      (makeKeys mersenneSetup.cipher mersenneSetup.pub Random.least) ks 8 = (true, file) ∧
    Runs (step mersenneSetup) StepOk
      (State.opened mersenneSetup file Random.least 32 65536 (fun _ => 0) fun _ => 0) s ∧
    decipher mersenneKey.privateKey (fun _ => 0) s.cache.file = some [7] := by
  obtain ⟨ks, file, hfile, hlen⟩ := exists_mersenneFile
  obtain ⟨s, hruns, hopen, hitems, hcached⟩ := exists_runs_flushed hlen
  obtain ⟨plain, hplain, heq⟩ := encrypted_file_deciphers mersenneSetup mersenneKey rfl rfl Random.least ks 8
    file hfile 32 65536 (by decide) (by decide) (fun _ => 0) (fun _ => 0) s hruns hopen fun _ => 0
  rw [hcached, hitems, List.append_nil] at heq
  exact ⟨ks, file, s, hfile, hruns, hplain.trans (congrArg some heq)⟩

end QLog.Appender.Encrypted
