import QLog.Appender.ReadCache

/-!
# Segments of a binary log file

A binary log file is a file header followed by segments. Each segment begins with a head that holds the
position of the next one, `UINT64_MAX` in the last. `scan_segment_topology` walks this chain, and
`append_new_segment` adds a segment: it writes the head and the keys of the segment behind the file and
then patches the link of the segment before. Every write may be cut short; the undo is to truncate the
file, which does not undo a patch of which some bytes were written.

`Chain` is the chain of the file format, `Scan` the walk of the scanner. They agree as long as the
segments begin below 2 ^ 31.
-/

namespace QLog.Appender

open Bytes

/-- `get_xor_key_blob_size`. -/
def xorKeyBlobSize : ℕ := 32 * 1024

/-- `get_encryption_keys_size`: fingerprint, RSA-2048 ciphertext of the AES key, IV and key blob. -/
def encryptionKeysSize : ℕ := 8 + 256 + 16 + xorKeyBlobSize

/-- `UINT64_MAX`, the link of the last segment. -/
def noNext : ℕ := 2 ^ 64 - 1

/-- `appender_segment_type`. -/
inductive SegType
  | normal
  | recoveryByAppender
  | recoveryByLogBuffer
deriving DecidableEq

/-- `appender_encryption_type`. -/
inductive EncType
  | plaintext
  | rsaAesXor
deriving DecidableEq

def SegType.toByte : SegType → UInt8
  | .normal => 1
  | .recoveryByAppender => 2
  | .recoveryByLogBuffer => 3

def SegType.ofByte? (b : UInt8) : Option SegType :=
  if b = 1 then some .normal
  else if b = 2 then some .recoveryByAppender
  else if b = 3 then some .recoveryByLogBuffer
  else none

def EncType.toByte : EncType → UInt8
  | .plaintext => 1
  | .rsaAesXor => 2

def EncType.ofByte? (b : UInt8) : Option EncType :=
  if b = 1 then some .plaintext else if b = 2 then some .rsaAesXor else none

/-- `appender_file_segment_head`. -/
structure SegHead where
  nextSegPos : ℕ
  segType : SegType
  encType : EncType
deriving DecidableEq

namespace SegHead

def bytes (h : SegHead) : List UInt8 := toLe 8 h.nextSegPos ++ [h.segType.toByte, h.encType.toByte, 0, 0]

/-- The twelve bytes of a head, with the check of the two types. -/
def parse (bs : List UInt8) : Option SegHead :=
  (SegType.ofByte? (bs.getD 8 0)).bind fun segType =>
    (EncType.ofByte? (bs.getD 9 0)).map fun encType => ⟨ofLe (bs.take 8), segType, encType⟩

end SegHead

/-- `segment_topology_info`. -/
structure Topology where
  hasSegment : Bool
  allSegmentsArePlaintext : Bool
  hasEncryptedSegment : Bool
  rsaKeyFingerprint : UInt64
  lastSegmentStartPos : ℕ
deriving DecidableEq

def Topology.empty : Topology := ⟨false, true, false, 0, 0⟩

/-- What the appender knows about the open file and its key. -/
structure Config where
  version : ℕ
  format : UInt8
  encType : EncType
  rsaKeyFingerprint : UInt64
  isNewCreated : Bool

/-! ## The scanner -/

/-- The head at `cur`, and the eight bytes behind it, the fingerprint in an encrypted segment. -/
def readSegHead (file : List UInt8) (cur : ℕ) : Option (SegHead × List UInt8) :=
  ((Reader.start file).seekReadFileAbsolute cur).bind fun r =>
    if (r.readWithCache 12).1.length = 12 then
      (SegHead.parse (r.readWithCache 12).1).map fun head =>
        (head, ((r.readWithCache 12).2.readWithCache 8).1)
    else none

/-- The keys of an encrypted segment: the position behind them and the fingerprint found so far. -/
def scanKeys (file : List UInt8) (cur : ℕ) (head : SegHead) (fingerprint : List UInt8) (t : Topology) :
    Option (ℕ × Topology) :=
  match head.encType with
  | .plaintext => some (cur + 12, t)
  | .rsaAesXor =>
    if file.length - (cur + 12) < encryptionKeysSize then none
    else if fingerprint.length ≠ 8 then none
    else if t.hasEncryptedSegment = false then
      some (cur + 12 + encryptionKeysSize,
        { t with hasEncryptedSegment := true, rsaKeyFingerprint := .ofNat (ofLe fingerprint) })
    else if t.rsaKeyFingerprint ≠ .ofNat (ofLe fingerprint) then none
    else some (cur + 12 + encryptionKeysSize, t)

/-- One turn of the loop of `scan_segment_topology`, up to the link: the head, the smallest position
that the next segment may have, and the topology. -/
def scanSegment (file : List UInt8) (cur : ℕ) (t : Topology) : Option (SegHead × ℕ × Topology) :=
  if file.length < cur ∨ file.length - cur < 12 then none
  else
    (readSegHead file cur).bind fun (head, fingerprint) =>
      (scanKeys file cur head fingerprint t).map fun (minNext, t') =>
        (head, minNext, { t' with
          hasSegment := true
          lastSegmentStartPos := cur
          allSegmentsArePlaintext := t'.allSegmentsArePlaintext && decide (head.encType = .plaintext) })

theorem le_of_scanKeys {file fp : List UInt8} {cur m : ℕ} {head : SegHead} {t t' : Topology}
    (h : scanKeys file cur head fp t = some (m, t')) : cur + 12 ≤ m := by
  unfold scanKeys at h
  split at h
  · simp only [Option.some.injEq, Prod.mk.injEq] at h
    omega
  · split at h
    · cases h
    · split at h
      · cases h
      · split at h
        · simp only [Option.some.injEq, Prod.mk.injEq] at h
          omega
        · split at h
          · cases h
          · simp only [Option.some.injEq, Prod.mk.injEq] at h
            omega

theorem le_of_scanSegment {file : List UInt8} {cur m : ℕ} {head : SegHead} {t t' : Topology}
    (h : scanSegment file cur t = some (head, m, t')) :
    cur + 12 ≤ m ∧ cur + 12 ≤ file.length ∧ t'.lastSegmentStartPos = cur ∧ t'.hasSegment = true := by
  unfold scanSegment at h
  split at h
  · cases h
  · simp only [Option.bind_eq_some_iff, Option.map_eq_some_iff, Prod.exists, Prod.mk.injEq] at h
    obtain ⟨head', fp, -, m', u, hkeys, rfl, rfl, rfl⟩ := h
    have := le_of_scanKeys hkeys
    exact ⟨this, by omega, rfl, rfl⟩

/-- The loop of `scan_segment_topology`. -/
def scanLoop (file : List UInt8) (cur : ℕ) (t : Topology) : Option Topology :=
  match _hseg : scanSegment file cur t with
  | none => none
  | some (head, minNext, t') =>
    if head.nextSegPos = noNext then if minNext ≤ file.length then some t' else none
    else if _hnext : head.nextSegPos < minNext ∨ file.length < head.nextSegPos ∨
        file.length - head.nextSegPos < 12 then none
    else scanLoop file head.nextSegPos t'
termination_by file.length - cur
decreasing_by
  have := le_of_scanSegment _hseg
  omega

/-- `scan_segment_topology`. -/
def scanSegmentTopology (cfg : Config) (file : List UInt8) : Option Topology :=
  if file.length < 8 then none
  else
    ((Reader.start file).seekReadFileAbsolute 0).bind fun r =>
      let head := (r.readWithCache 8).1
      if head.length ≠ 8 then none
      else if ofLe (head.take 4) ≠ cfg.version ∨ head.getD 4 0 ≠ cfg.format then none
      else if file.length = 8 then some Topology.empty
      else scanLoop file 8 Topology.empty

/-! ## Appending -/

/-- The largest file: positions are of the type `off_t`. -/
def maxFileSize : ℕ := 2 ^ 63 - 1

/-- `direct_write` of `data` at `pos`, of which the system takes `k` bytes: the file and the size
written. -/
def directWrite (file : List UInt8) (pos : ℕ) (data : List UInt8) (k : ℕ) : List UInt8 × ℕ :=
  let n := min (min k data.length) (maxFileSize - pos)
  (overwrite file pos (data.take n), n)

/-- The keys of a new segment. -/
structure Keys where
  ciphertextAesKey : List UInt8
  aesIv : List UInt8
  xorKeyBlobCiphertext : List UInt8

/-- What is written behind the file for a new segment, in the order of the writes; nothing when the keys
could not be generated. -/
def newSegment (cfg : Config) (type : SegType) (keys : Option Keys) : Option (List (List UInt8)) :=
  let head : SegHead := ⟨noNext, type, cfg.encType⟩
  match cfg.encType with
  | .plaintext => some [head.bytes]
  | .rsaAesXor => keys.map fun k =>
    [head.bytes, toLe 8 cfg.rsaKeyFingerprint.toNat, k.ciphertextAesKey, k.aesIv, k.xorKeyBlobCiphertext]

/-- The writes at the end of the file, up to the first that is short. -/
def writeChunks : List UInt8 → List (List UInt8) → List ℕ → List UInt8 × Bool
  | file, [], _ => (file, true)
  | file, chunk :: chunks, ks =>
    let w := directWrite file file.length chunk (ks.headD 0)
    if w.2 = chunk.length then writeChunks w.1 chunks ks.tail else (w.1, false)

/-- The topology lets the appender add a segment. -/
def Config.Admits (cfg : Config) (t : Topology) : Prop :=
  (t.hasSegment = true ∨ cfg.isNewCreated = true) ∧
    ¬ (cfg.encType = .rsaAesXor ∧ t.hasEncryptedSegment = true ∧
      t.rsaKeyFingerprint ≠ cfg.rsaKeyFingerprint)

instance (cfg : Config) (t : Topology) : Decidable (cfg.Admits t) := inferInstanceAs (Decidable (_ ∧ _))

/-- `append_new_segment`: the system takes `ks` bytes of the writes behind the file and `link` bytes of
the patch. The result says whether it succeeded and what the file is. -/
def appendNewSegment (cfg : Config) (file : List UInt8) (type : SegType) (keys : Option Keys)
    (ks : List ℕ) (link : ℕ) : Bool × List UInt8 :=
  match scanSegmentTopology cfg file with
  | none => (false, file)
  | some t =>
    if cfg.Admits t then
      match newSegment cfg type keys with
      | none => (false, file)
      | some chunks =>
        let w := writeChunks file chunks ks
        if w.2 then
          if t.hasSegment then
            let l := directWrite w.1 t.lastSegmentStartPos (toLe 8 file.length) link
            if l.2 = 8 then (true, l.1) else (false, l.1.take file.length)
          else (true, w.1)
        else (false, w.1.take file.length)
    else (false, file)

end QLog.Appender
