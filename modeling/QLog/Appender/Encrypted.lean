import QLog.Appender.WriteCache
import QLog.Appender.SegmentKeys
import QLog.Encryption.Vernam

/-!
# Encrypted log files

The write cache of an appender with a public key. `flush_write_cache` encrypts the finished part of the
cache in place, with the size of the file as offset in the key stream of the segment, writes it, moves
the rest to the alignment of the new file size, and encrypts the rest once more, which makes it plain
again.

A run is a sequence of cache writes, flushes and new segments on one open file. `payloads` decodes the
file: every byte of a payload is XORed with the key blob of its segment at its offset in the file.
-/

namespace QLog.Appender

open Bytes Encryption

/-- A call of the cipher: the address of the buffer and the offset in the key stream. Buffers lie at
multiples of 128, so that addresses are counted from the start of the buffer. -/
abbrev Call := ℕ × ℕ

namespace Cache

/-- `vernam_encrypt_32bytes_aligned` of the finished part of the cache. -/
def encrypt (v : Lanes) (key : Mem) (c : Cache) : Option Cache :=
  (vernamEncrypt v c.entity c.base c.finishedCursor key xorKeyBlobSize c.currentFileSize).map fun m =>
    { c with entity := m }

/-- `update_write_cache_padding`. -/
def updateWriteCachePadding (sz : Sizes) (c : Cache) (fresh : Mem) : Cache :=
  c.setCacheWritePadding sz
    ((c.currentFileSize % xorKeyBlobSize % 32 + 32 - c.headSize % 32) % 32) fresh

/-- `appender_file_binary::flush_write_cache` with the key blob `key`, and its calls of the cipher. -/
def flushEncrypted (sz : Sizes) (v : Lanes) (key : Mem) (c : Cache) (a : Answer) :
    Option (Cache × List Call) :=
  if c.finishedCursor = 0 then some (c.flushWriteCache sz a, [])
  else
    (c.encrypt v key).bind fun c₁ =>
      let c₂ := (c₁.flushWriteCache sz a).updateWriteCachePadding sz a.fresh
      if 0 < c₂.finishedCursor then
        (c₂.encrypt v key).map fun c₃ =>
          (c₃, [(c.base, c.currentFileSize), (c₂.base, c₂.currentFileSize)])
      else some (c₂, [(c.base, c.currentFileSize)])

end Cache

/-! ## Runs -/

namespace Encrypted

/-- What does not change: the buffers, the routine of the cipher, the appender and its key. -/
structure Setup where
  sz : Sizes
  lanes : Lanes
  routine : lanes.IsRoutine
  cfg : Config
  encType_eq : cfg.encType = .rsaAesXor
  cipher : BlockCipher
  pub : PublicKey

/-- A segment of the file: the place of its head, the place of its payload, and its key blob. -/
structure Segment where
  start : ℕ
  payload : ℕ
  key : Mem

/-- The calls on one open file. -/
inductive Act
  | alloc (size : ℕ) (a : Answer)
  | returnItem (item : List UInt8)
  | mark
  | flush (a : Answer)
  | newSegment (type : SegType) (rnd : Random) (ks : List ℕ) (link : ℕ) (fresh : Mem)

/-- The cache with the open handle, the items returned, the segments of the file and the calls of the
cipher. A file to which no segment could be added is closed. -/
structure State where
  cache : Cache
  allocated : Option ℕ
  items : List (List UInt8)
  segments : List Segment
  calls : List Call
  isOpen : Bool

/-- The key blob as it lies in memory. -/
def blobKey (blob : List UInt8) : Mem := fun i => blob.getD i 0

/-- `xor_key_blob_`: the key of the last segment. -/
def State.key (s : State) : Mem := (s.segments.getLast?.map Segment.key).getD fun _ => 0

/-- One call. The system never writes more than it was given. -/
def step (p : Setup) (s : State) (act : Act) : Option State :=
  if s.isOpen = false then none
  else
    match act with
    | .alloc size a =>
      if s.allocated = none ∧ a.realWriteSize ≤ s.cache.finishedCursor then
        (if s.cache.writeCacheSize < s.cache.cursor + size then
          s.cache.flushEncrypted p.sz p.lanes s.key a else some (s.cache, [])).map fun (c, calls) =>
            { s with
              cache := s.cache.allocWriteCache p.sz (fun _ => c) size a.fresh
              allocated := some size
              calls := s.calls ++ calls }
      else none
    | .returnItem item =>
      match s.allocated with
      | some size =>
        if item.length ≤ size then
          some { s with
            cache := s.cache.returnWriteCache item, allocated := none, items := s.items ++ [item] }
        else none
      | none => none
    | .mark => if s.allocated = none then some { s with cache := s.cache.markWriteFinished } else none
    | .flush a =>
      if s.allocated = none ∧ a.realWriteSize ≤ s.cache.finishedCursor then
        (s.cache.flushEncrypted p.sz p.lanes s.key a).map fun (c, calls) =>
          { s with cache := c, calls := s.calls ++ calls }
      else none
    | .newSegment type rnd ks link fresh =>
      if s.allocated = none then
        match appendNewSegment p.cfg s.cache.file type (makeKeys p.cipher p.pub rnd) ks link with
        | (true, file) =>
          some { s with
            cache := { s.cache with
              file := file, currentFileSize := file.length }.updateWriteCachePadding p.sz fresh
            segments := s.segments ++ [⟨s.cache.file.length, file.length, blobKey rnd.xorKeyBlob⟩] }
        | (false, file) => some { s with cache := { s.cache with file := file }, isOpen := false }
      else none

/-- The header of a new file. -/
def fileHeader (cfg : Config) : List UInt8 := toLe 4 cfg.version ++ [cfg.format, 0, 0, 0]

/-- The state when a new file has been opened and its first segment has been added. -/
def State.opened (p : Setup) (file : List UInt8) (rnd : Random) (headSize targetSize : ℕ)
    (entity fresh : Mem) : State where
  cache := (Cache.opened p.sz file headSize targetSize entity).updateWriteCachePadding p.sz fresh
  allocated := none
  items := []
  segments := [⟨8, file.length, blobKey rnd.xorKeyBlob⟩]
  calls := []
  isOpen := true

/-- The flushes of a call are complete or meet no record in progress, and new segments begin below
2 ^ 31. -/
def StepOk (s : State) : Act → Prop
  | .alloc size a => s.cache.writeCacheSize < s.cache.cursor + size → s.cache.FlushOk a
  | .flush a => s.cache.FlushOk a
  | .newSegment .. => s.cache.file.length < 2 ^ 31
  | _ => True

/-- XOR with the key blob from an offset in the file on. -/
def xorStream (key : Mem) (off : ℕ) (bytes : List UInt8) : List UInt8 :=
  bytes.mapIdx fun i b => b ^^^ key ((off + i) % xorKeyBlobSize)

/-- The payloads of the segments, each decoded with the key blob of its segment. -/
def payloads (file : List UInt8) : List Segment → List UInt8
  | [] => []
  | [s] => xorStream s.key s.payload (file.drop s.payload)
  | s :: s' :: rest =>
    xorStream s.key s.payload (sub file s.payload (s'.start - s.payload)) ++ payloads file (s' :: rest)

/-! ## The key stream -/

section Stream

variable {key : Mem} {off : ℕ}

@[simp] theorem length_xorStream (bs : List UInt8) : (xorStream key off bs).length = bs.length :=
  List.length_mapIdx

@[simp] theorem xorStream_nil : xorStream key off [] = [] := rfl

theorem xorStream_append (key : Mem) (off : ℕ) (bs cs : List UInt8) :
    xorStream key off (bs ++ cs) = xorStream key off bs ++ xorStream key (off + bs.length) cs := by
  rw [xorStream, List.mapIdx_append]
  congr 1
  refine List.mapIdx_eq_mapIdx_iff.2 fun i hi => ?_
  rw [show off + (i + bs.length) = off + bs.length + i by omega]

/-- The XOR undoes itself. -/
theorem xorStream_xorStream (bs : List UInt8) : xorStream key off (xorStream key off bs) = bs := by
  rw [xorStream, xorStream, List.mapIdx_mapIdx]
  have hid : ∀ (i : ℕ) (b : UInt8), (b ^^^ key ((off + i) % xorKeyBlobSize)) ^^^
      key ((off + i) % xorKeyBlobSize) = b := by
    intro i b
    rw [UInt8.xor_assoc, UInt8.xor_self, UInt8.xor_zero]
  refine List.ext_getElem (by simp) fun i hi hi' => ?_
  rw [List.getElem_mapIdx]
  exact hid i _

theorem take_xorStream (bs : List UInt8) (n : ℕ) :
    (xorStream key off bs).take n = xorStream key off (bs.take n) := by
  rcases le_or_gt n bs.length with hn | hn
  · have := xorStream_append key off (bs.take n) (bs.drop n)
    rw [List.take_append_drop] at this
    rw [this, List.take_left' (by simp [hn])]
  · rw [List.take_of_length_le (by simp; omega), List.take_of_length_le hn.le]

theorem drop_xorStream {bs : List UInt8} {n : ℕ} (hn : n ≤ bs.length) :
    (xorStream key off bs).drop n = xorStream key (off + n) (bs.drop n) := by
  have := xorStream_append key off (bs.take n) (bs.drop n)
  rw [List.take_append_drop, List.length_take, Nat.min_eq_left hn] at this
  rw [this, List.drop_left' (by simp [hn])]

theorem slice_xorAt_stream (m : Mem) (p n : ℕ) :
    (xorAt m p n fun i => key ((off + i) % xorKeyBlobSize)).slice p n =
      xorStream key off (m.slice p n) := by
  rw [slice_xorAt]
  refine List.ext_getElem (by simp) fun i hi hi' => ?_
  simp [xorStream, Mem.slice]

end Stream

/-! ## Flushing -/

/-- The cache pointer and the offset in the key stream agree modulo 32. -/
def Aligned (c : Cache) : Prop := c.base % 32 = c.currentFileSize % 32

section Flush

variable {sz : Sizes} {v : Lanes} {key : Mem} {c : Cache} {a : Answer}

theorem block_of_isRoutine (hv : v.IsRoutine) : 0 < v.block ∧ v.block ∣ 32 := by
  rcases hv with rfl | rfl | rfl | rfl <;> decide

/-- **The cipher in the cache**: the finished part is XORed with the key stream. -/
theorem encrypt_spec (key : Mem) (hv : v.IsRoutine) (hc : CacheOk c) (halign : Aligned c) :
    ∃ c', c.encrypt v key = some c' ∧ CacheOk c' ∧ c'.base = c.base ∧ c'.file = c.file ∧
      c'.currentFileSize = c.currentFileSize ∧ c'.cursor = c.cursor ∧
      c'.finishedCursor = c.finishedCursor ∧
      c'.cached = xorStream key c.currentFileSize (c.cached.take c.finishedCursor) ++
        c.cached.drop c.finishedCursor := by
  obtain ⟨hpos, hdvd⟩ := block_of_isRoutine hv
  have hmod : c.base % v.block = c.currentFileSize % v.block := by
    rw [← Nat.mod_mod_of_dvd _ hdvd, halign, Nat.mod_mod_of_dvd _ hdvd]
  have heq : vernamEncrypt v c.entity c.base c.finishedCursor key xorKeyBlobSize c.currentFileSize = _ :=
    vernamEncrypt_eq hpos (hdvd.trans (by decide : 32 ∣ xorKeyBlobSize)) (by decide) (by decide) hmod
      c.entity c.finishedCursor
  rw [Cache.encrypt, heq, Option.map_some]
  refine ⟨_, rfl, ⟨hc.finished_le, hc.size_eq, hc.cursor_le, hc.target⟩, rfl, rfl, rfl, rfl, rfl, ?_⟩
  have hfin := hc.finished_le
  have hsplit : ∀ m : Mem, m.slice c.base c.cursor = m.slice c.base c.finishedCursor ++
      m.slice (c.base + c.finishedCursor) (c.cursor - c.finishedCursor) := by
    intro m
    rw [← Mem.slice_add, Nat.add_sub_cancel' hfin]
  change (xorAt c.entity c.base c.finishedCursor fun i =>
    key ((c.currentFileSize + i) % xorKeyBlobSize)).slice c.base c.cursor = _
  rw [hsplit, slice_xorAt_stream, slice_xorAt_of_le (.inr le_rfl), Cache.cached, hsplit c.entity,
    List.take_left' (Mem.length_slice _ _ _), List.drop_left' (Mem.length_slice _ _ _)]

/-- The padding brings the cache to the alignment of the file size. -/
theorem aligned_updateWriteCachePadding (sz : Sizes) (hc : CacheOk c) (fresh : Mem) :
    CacheOk (c.updateWriteCachePadding sz fresh) ∧ Aligned (c.updateWriteCachePadding sz fresh) ∧
      SameContents c (c.updateWriteCachePadding sz fresh) := by
  obtain ⟨h1, h2, h3, h4⟩ := hc.setPadding sz
    ((c.currentFileSize % xorKeyBlobSize % 32 + 32 - c.headSize % 32) % 32) fresh
  refine ⟨h1, ?_, h2⟩
  have hsize : c.currentFileSize % xorKeyBlobSize % 32 = c.currentFileSize % 32 :=
    Nat.mod_mod_of_dvd _ (by decide)
  change (Cache.headSize (c.updateWriteCachePadding sz fresh) +
    Cache.padding (c.updateWriteCachePadding sz fresh)) % 32 =
      (c.updateWriteCachePadding sz fresh).currentFileSize % 32
  rw [Cache.updateWriteCachePadding, h3, h4, h2.currentFileSize, hsize]
  omega

/-- What a write of the base class leaves: a prefix of the cached bytes goes to the file. -/
theorem cached_flush (sz : Sizes) (hc : CacheOk c) (hr : a.realWriteSize ≤ c.finishedCursor) (hok : c.FlushOk a) :
    (c.flushWriteCache sz a).file = c.file ++ c.cached.take a.realWriteSize ∧
      (c.flushWriteCache sz a).cached = c.cached.drop a.realWriteSize := by
  have hfile : (c.flushWriteCache sz a).file = c.file ++ c.cached.take a.realWriteSize := by
    have hle := hr.trans hc.finished_le
    rw [(hc.flush sz hr).2.file, Cache.cached, ← Nat.add_sub_cancel' hle, Mem.slice_add,
      List.take_left' (Mem.length_slice _ _ _)]
    rfl
  refine ⟨hfile, ?_⟩
  have hstream : (c.flushWriteCache sz a).stream = c.stream := hc.stream_flush hr hok
  rw [Cache.stream, Cache.stream, hfile, List.append_assoc, List.append_cancel_left_eq] at hstream
  have := hstream.trans (List.take_append_drop a.realWriteSize c.cached).symm
  exact List.append_cancel_left this

/-- **A flush of the encrypted file** always returns, its calls of the cipher are aligned, and so is the
cache that it leaves. -/
theorem flushEncrypted_aligned (sz : Sizes) (key : Mem) (hv : v.IsRoutine) (hc : CacheOk c) (halign : Aligned c)
    (hr : a.realWriteSize ≤ c.finishedCursor) :
    ∃ c' calls, c.flushEncrypted sz v key a = some (c', calls) ∧ CacheOk c' ∧ Aligned c' ∧
      c'.currentFileSize = c.currentFileSize + a.realWriteSize ∧
      c'.file.length = c.file.length + a.realWriteSize ∧
      ∀ q ∈ calls, q.1 % 32 = q.2 % 32 := by
  have hlen : ∀ c : Cache, (c.writeOut a.realWriteSize).file.length =
      c.file.length + a.realWriteSize := by
    intro c
    change (c.file ++ c.entity.slice c.base a.realWriteSize).length = _
    rw [List.length_append, Mem.length_slice]
  unfold Cache.flushEncrypted
  split
  · rename_i hzero
    obtain ⟨h1, h2⟩ := hc.flush sz hr
    obtain ⟨-, -, hbase⟩ := (hc.writeOut hr).shrink sz a.fresh
    refine ⟨_, _, rfl, h1, ?_, h2.currentFileSize, h2.file ▸ hlen c, fun q hq => (by cases hq)⟩
    have hsize : (c.flushWriteCache sz a).currentFileSize = c.currentFileSize := by
      rw [h2.currentFileSize]
      change c.currentFileSize + a.realWriteSize = c.currentFileSize
      omega
    unfold Aligned
    rw [hsize]
    exact (congrArg (· % 32) hbase).trans halign
  · obtain ⟨c₁, heq, hc₁, hbase, hfile, hsize, -, hfin, -⟩ := encrypt_spec key hv hc halign
    rw [heq, Option.bind_some]
    simp only
    obtain ⟨h1, h2⟩ := hc₁.flush sz (hr.trans hfin.ge)
    obtain ⟨h3, h4, h5⟩ := aligned_updateWriteCachePadding sz h1 a.fresh
    generalize (c₁.flushWriteCache sz a).updateWriteCachePadding sz a.fresh = c₂ at *
    have hsize₂ : c₂.currentFileSize = c.currentFileSize + a.realWriteSize := by
      rw [h5.currentFileSize, h2.currentFileSize, ← hsize]
      rfl
    have hlen₂ : c₂.file.length = c.file.length + a.realWriteSize := by
      rw [h5.file, h2.file, hlen, hfile]
    split
    · obtain ⟨c₃, heq₃, hc₃, hbase₃, hfile₃, hsize₃, -⟩ := encrypt_spec key hv h3 h4
      rw [heq₃, Option.map_some]
      refine ⟨_, _, rfl, hc₃, ?_, by rw [hsize₃, hsize₂], by rw [hfile₃, hlen₂], ?_⟩
      · unfold Aligned
        rw [hbase₃, hsize₃]
        exact h4
      · intro q hq
        simp only [List.mem_cons, List.not_mem_nil, or_false] at hq
        rcases hq with rfl | rfl
        · exact halign
        · exact h4
    · refine ⟨_, _, rfl, h3, h4, hsize₂, hlen₂, ?_⟩
      intro q hq
      rw [List.mem_singleton] at hq
      subst hq
      exact halign

/-- **What a flush does to the contents**: a prefix of the cache goes to the file, XORed with the key
stream, and the rest of the cache is plain. -/
theorem flushEncrypted_contents (hv : v.IsRoutine) (hc : CacheOk c) (halign : Aligned c)
    (hr : a.realWriteSize ≤ c.finishedCursor) (hok : c.FlushOk a) {c' : Cache} {calls : List Call}
    (h : c.flushEncrypted sz v key a = some (c', calls)) :
    c'.file = c.file ++ xorStream key c.currentFileSize (c.cached.take a.realWriteSize) ∧
      c'.cached = c.cached.drop a.realWriteSize := by
  have hcached : c.cached.length = c.cursor := Mem.length_slice _ _ _
  have hfinle := hc.finished_le
  unfold Cache.flushEncrypted at h
  split at h
  · rename_i hzero
    simp only [Option.some.injEq, Prod.mk.injEq] at h
    obtain ⟨rfl, -⟩ := h
    obtain ⟨h1, h2⟩ := cached_flush sz hc hr hok
    have hreal : a.realWriteSize = 0 := by omega
    rw [h1, h2, hreal]
    simp
  · obtain ⟨c₁, heq, hc₁, hbase, hfile, hsize, hcur, hfin, hcached₁⟩ :=
      encrypt_spec key hv hc halign
    rw [heq, Option.bind_some] at h
    simp only at h
    have hr₁ : a.realWriteSize ≤ c₁.finishedCursor := hr.trans hfin.ge
    have hok₁ : c₁.FlushOk a := by
      unfold Cache.FlushOk at hok ⊢
      rwa [hfin, hcur]
    obtain ⟨h1, h2⟩ := hc₁.flush sz hr₁
    obtain ⟨hf, hd⟩ := cached_flush sz hc₁ hr₁ hok₁
    obtain ⟨h3, h4, h5⟩ := aligned_updateWriteCachePadding sz h1 a.fresh
    generalize (c₁.flushWriteCache sz a).updateWriteCachePadding sz a.fresh = c₂ at *
    -- the encrypted prefix goes to the file, the rest of it stays in front of the plain bytes
    have htake : c₁.cached.take a.realWriteSize =
        xorStream key c.currentFileSize (c.cached.take a.realWriteSize) := by
      rw [hcached₁, List.take_append_of_le_length (by simp; omega), take_xorStream, List.take_take,
        Nat.min_eq_left hr]
    have hdrop : c₁.cached.drop a.realWriteSize =
        xorStream key (c.currentFileSize + a.realWriteSize)
          ((c.cached.take c.finishedCursor).drop a.realWriteSize) ++
          c.cached.drop c.finishedCursor := by
      rw [hcached₁, List.drop_append_of_le_length (by simp; omega), drop_xorStream (by simp; omega)]
    have hfin₂ : c₂.finishedCursor = c.finishedCursor - a.realWriteSize := by
      rw [h5.finishedCursor, h2.finishedCursor, ← hfin]
      rfl
    have hsize₂ : c₂.currentFileSize = c.currentFileSize + a.realWriteSize := by
      rw [h5.currentFileSize, h2.currentFileSize, ← hsize]
      rfl
    have hfile₂ : c₂.file =
        c.file ++ xorStream key c.currentFileSize (c.cached.take a.realWriteSize) := by
      rw [h5.file, hf, htake, hfile]
    have hcached₂ : c₂.cached = xorStream key (c.currentFileSize + a.realWriteSize)
        ((c.cached.take c.finishedCursor).drop a.realWriteSize) ++
        c.cached.drop c.finishedCursor := by
      rw [h5.cached, hd, hdrop]
    have hplain : (c.cached.take c.finishedCursor).drop a.realWriteSize ++
        c.cached.drop c.finishedCursor = c.cached.drop a.realWriteSize := by
      rw [← List.drop_append_of_le_length (by simp; omega), List.take_append_drop]
    split at h
    · obtain ⟨c₃, heq₃, -, -, hfile₃, -, -, -, hcached₃⟩ := encrypt_spec key hv h3 h4
      rw [heq₃, Option.map_some] at h
      simp only [Option.some.injEq, Prod.mk.injEq] at h
      obtain ⟨rfl, -⟩ := h
      refine ⟨hfile₃.trans hfile₂, ?_⟩
      have hlen : (xorStream key (c.currentFileSize + a.realWriteSize)
          ((c.cached.take c.finishedCursor).drop a.realWriteSize)).length = c₂.finishedCursor := by
        rw [length_xorStream, List.length_drop, List.length_take, hfin₂]
        omega
      rw [hcached₃, hcached₂, List.take_left' hlen, List.drop_left' hlen, hsize₂,
        xorStream_xorStream, hplain]
    · rename_i hnone
      simp only [Option.some.injEq, Prod.mk.injEq] at h
      obtain ⟨rfl, -⟩ := h
      refine ⟨hfile₂, ?_⟩
      rw [hcached₂, List.drop_eq_nil_of_le (by simp; omega), xorStream_nil, List.nil_append]
      rw [show a.realWriteSize = c.finishedCursor by omega]

end Flush

/-! ## Payloads -/

/-- The segments lie one behind the other in a file of size `n`. -/
def Laid : List Segment → ℕ → Prop
  | [], _ => False
  | [s], n => s.start + 12 ≤ s.payload ∧ s.payload ≤ n
  | s :: s' :: rest, n => s.start + 12 ≤ s.payload ∧ s.payload ≤ s'.start ∧ Laid (s' :: rest) n

section Payloads

variable {file f' : List UInt8} {segs : List Segment} {last : ℕ}

theorem Laid.start_le {s : Segment} {rest : List Segment} {n : ℕ} (h : Laid (s :: rest) n) {l : Segment}
    (hl : (s :: rest).getLast? = some l) :
    s.start ≤ l.start ∧ l.start + 12 ≤ n ∧ (rest ≠ [] → s.start + 12 ≤ l.start) := by
  induction rest generalizing s with
  | nil =>
    obtain rfl : s = l := Option.some.inj hl
    exact ⟨le_rfl, by have := h.1; have := h.2; omega, fun hne => absurd rfl hne⟩
  | cons s' rest ih =>
    rw [List.getLast?_cons_cons] at hl
    obtain ⟨h1, h2, -⟩ := ih h.2.2 hl
    have h3 := h.1
    have h4 := h.2.1
    exact ⟨by omega, h2, fun _ => by omega⟩

theorem Laid.mono {n n' : ℕ} (h : Laid segs n) (hn : n ≤ n') : Laid segs n' := by
  induction segs with
  | nil => exact h
  | cons s rest ih =>
    cases rest with
    | nil => exact ⟨h.1, h.2.trans hn⟩
    | cons s' rest => exact ⟨h.1, h.2.1, ih h.2.2⟩

theorem Laid.append {n : ℕ} (h : Laid segs n) {new : Segment} (hstart : new.start = n) {n' : ℕ}
    (hpay : n + 12 ≤ new.payload) (hn : new.payload ≤ n') : Laid (segs ++ [new]) n' := by
  induction segs with
  | nil => exact h.elim
  | cons s rest ih =>
    cases rest with
    | nil => exact ⟨h.1, hstart ▸ h.2, by rw [hstart]; exact hpay, hn⟩
    | cons s' rest => exact ⟨h.1, h.2.1, ih h.2.2⟩

/-- Bytes behind the file belong to the last payload. -/
theorem payloads_append (h : Laid segs file.length) (bytes : List UInt8) :
    payloads (file ++ bytes) segs = payloads file segs ++
      xorStream ((segs.getLast?.map Segment.key).getD fun _ => 0) file.length bytes := by
  induction segs with
  | nil => exact h.elim
  | cons s rest ih =>
    cases rest with
    | nil =>
      have hle := h.2
      simp only [payloads, List.getLast?_singleton, Option.map_some, Option.getD_some]
      rw [List.drop_append_of_le_length hle, xorStream_append, List.length_drop,
        Nat.add_sub_cancel' hle]
    | cons s' rest =>
      obtain ⟨h1, h2, h3⟩ := h
      have h4 : s'.start ≤ file.length := by
        obtain ⟨l, hl⟩ : ∃ l, (s' :: rest).getLast? = some l :=
          ⟨_, List.getLast?_eq_some_getLast (List.cons_ne_nil _ _)⟩
        have := h3.start_le hl
        omega
      rw [payloads, payloads, ih h3, List.getLast?_cons_cons, sub_append_of_le (by omega),
        List.append_assoc]

/-- A change of the link of the last segment is not in a payload. -/
theorem payloads_of_same (h : Laid segs file.length) {l : Segment} (hl : segs.getLast? = some l)
    (hlen : f'.length = file.length)
    (hsame : ∀ a n, a + n ≤ file.length → (a + n ≤ l.start ∨ l.start + 8 ≤ a) →
      sub f' a n = sub file a n) : payloads f' segs = payloads file segs := by
  induction segs with
  | nil => exact h.elim
  | cons s rest ih =>
    cases rest with
    | nil =>
      obtain rfl : s = l := Option.some.inj hl
      have h1 := h.1
      have h2 := h.2
      have hdrop := hsame s.payload (file.length - s.payload) (by omega) (.inr (by omega))
      rw [sub, sub, List.take_of_length_le (by rw [List.length_drop]; omega),
        List.take_of_length_le (by rw [List.length_drop])] at hdrop
      rw [payloads, payloads, hdrop]
    | cons s' rest =>
      rw [List.getLast?_cons_cons] at hl
      obtain ⟨h1, h2, h3⟩ := h
      obtain ⟨h4, h5, -⟩ := h3.start_le hl
      rw [payloads, payloads, ih h3 hl, hsame _ _ (by omega) (.inl (by omega))]

/-- A new segment leaves the payloads as they are. -/
theorem payloads_extends (h : Laid segs file.length) {l : Segment} (new : Segment) (hl : segs.getLast? = some l)
    (hext : Extends file f' l.start) (hstart : new.start = file.length)
    (hpay : new.payload = f'.length) : payloads f' (segs ++ [new]) = payloads file segs := by
  induction segs with
  | nil => exact h.elim
  | cons s rest ih =>
    cases rest with
    | nil =>
      obtain rfl : s = l := Option.some.inj hl
      have h1 := h.1
      have h2 := h.2
      have hsame := hext.same s.payload (file.length - s.payload) (by omega) (.inr (by omega))
      rw [List.cons_append, List.nil_append, payloads, payloads, payloads, hstart, hsame, hpay,
        List.drop_length, xorStream_nil, List.append_nil, sub,
        List.take_of_length_le (by rw [List.length_drop])]
    | cons s' rest =>
      rw [List.getLast?_cons_cons] at hl
      obtain ⟨h1, h2, h3⟩ := h
      obtain ⟨h4, h5, -⟩ := h3.start_le hl
      have hrec := ih h3 hl
      rw [List.cons_append] at hrec
      rw [List.cons_append, List.cons_append, payloads, payloads, hrec,
        hext.same _ _ (by omega) (.inl (by omega))]

end Payloads

/-! ## The invariant -/

/-- An open file: the cache is aligned to its size, and its segments are those of the history. -/
structure Opened (s : State) : Prop where
  cacheOk : CacheOk s.cache
  aligned : Aligned s.cache
  size_eq : s.cache.currentFileSize = s.cache.file.length
  room : ∀ size, s.allocated = some size → s.cache.cursor + size ≤ s.cache.writeCacheSize
  chain : Chain s.cache.file 8 (s.segments.map Segment.start)
  laid : Laid s.segments s.cache.file.length

/-- The decoded payloads followed by the cache are the items, and all calls of the cipher were
aligned. -/
structure Inv (s : State) : Prop where
  plain : payloads s.cache.file s.segments ++ s.cache.cached = s.items.flatten
  calls : ∀ q ∈ s.calls, q.1 % 32 = q.2 % 32
  opened : s.isOpen = true → Opened s

namespace Inv

variable {p : Setup} {s s' : State} {a : Answer}

/-- The invariant after a flush that meets no record in progress. -/
theorem flush (h : Inv s) (hopen : s.isOpen = true) (hr : a.realWriteSize ≤ s.cache.finishedCursor)
    (hok : s.cache.FlushOk a) {c : Cache} {calls : List Call}
    (hflush : s.cache.flushEncrypted p.sz p.lanes s.key a = some (c, calls)) :
    Inv { s with cache := c, allocated := none, calls := s.calls ++ calls } := by
  obtain ⟨hc, halign, hsize, -, hchain, hlaid⟩ := h.opened hopen
  obtain ⟨c', calls', heq, hc', halign', hsize', hlen', hcalls⟩ :=
    flushEncrypted_aligned p.sz s.key p.routine hc halign hr
  obtain ⟨rfl, rfl⟩ := Prod.mk.inj (Option.some.inj (hflush.symm.trans heq))
  obtain ⟨hfile, hcached⟩ := flushEncrypted_contents p.routine hc halign hr hok hflush
  refine ⟨?_, ?_, fun _ => ⟨hc', halign', by rw [hsize', hlen', hsize], fun n hn => (by cases hn),
    ?_, ?_⟩⟩
  · change payloads c.file s.segments ++ c.cached = s.items.flatten
    rw [hfile, payloads_append hlaid, hcached, List.append_assoc]
    change _ ++ (xorStream s.key s.cache.file.length _ ++ _) = _
    rw [← hsize, xorStream_xorStream, List.take_append_drop]
    exact h.plain
  · intro q hq
    rcases List.mem_append.1 hq with hq | hq
    · exact h.calls q hq
    · exact hcalls q hq
  · change Chain c.file 8 _
    rw [hfile]
    exact hchain.append _
  · exact hlaid.mono (by rw [hlen']; omega)

/-- The invariant when the contents of the cache stay the same. -/
theorem same (h : Inv s) {c : Cache} (allocated : Option ℕ) (hc : CacheOk c)
    (hs : SameContents s.cache c) (hbase : c.base = s.cache.base)
    (hroom : ∀ size, allocated = some size → c.cursor + size ≤ c.writeCacheSize) :
    Inv { s with cache := c, allocated := allocated } := by
  refine ⟨?_, h.calls, fun hopen => ?_⟩
  · change payloads c.file s.segments ++ c.cached = s.items.flatten
    rw [hs.file, hs.cached]
    exact h.plain
  · obtain ⟨-, halign, hsize, -, hchain, hlaid⟩ := h.opened hopen
    refine ⟨hc, ?_, ?_, hroom, ?_, ?_⟩
    · unfold Aligned
      rw [hbase, hs.currentFileSize]
      exact halign
    · rw [hs.currentFileSize, hs.file, hsize]
    · rw [hs.file]
      exact hchain
    · rw [hs.file]
      exact hlaid

theorem alloc (h : Inv s) {size : ℕ} (hok : StepOk s (.alloc size a))
    (hs : step p s (.alloc size a) = some s') : Inv s' := by
  rw [Encrypted.step] at hs
  split at hs
  · cases hs
  rename_i hopen
  rw [Bool.not_eq_false] at hopen
  simp only at hs
  split at hs
  swap
  · cases hs
  rename_i hcond
  obtain ⟨hc, halign, -⟩ := h.opened hopen
  split at hs
  · rename_i hneed
    rw [Option.map_eq_some_iff] at hs
    obtain ⟨⟨c, calls⟩, hflush, rfl⟩ := hs
    have hinv := h.flush hopen hcond.2 (hok hneed) hflush
    obtain ⟨hc', -⟩ := hinv.opened hopen
    obtain ⟨h1, h2, h3, -⟩ := hc.alloc p.sz (fun _ => c) size hc' a.fresh
    obtain ⟨h4, h5⟩ := h3 hneed
    refine hinv.same (some size) h1 h4 h5 fun n hn => ?_
    obtain rfl := Option.some.inj hn
    exact h2
  · rename_i hroom
    rw [Option.map_some] at hs
    obtain rfl := Option.some.inj hs
    obtain ⟨h1, h2, -, h4⟩ := hc.alloc p.sz (fun _ => s.cache) size hc a.fresh
    have heq := h4 hroom
    have hinv := h.same (c := s.cache) (some size) hc ⟨rfl, rfl, rfl, rfl, rfl⟩ rfl
      fun n hn => by
        obtain rfl := Option.some.inj hn
        rw [heq] at h2
        exact h2
    rw [List.append_nil, heq]
    exact hinv

theorem returnItem (h : Inv s) {item : List UInt8} (hs : step p s (.returnItem item) = some s') :
    Inv s' := by
  rw [Encrypted.step] at hs
  split at hs
  · cases hs
  rename_i hopen
  rw [Bool.not_eq_false] at hopen
  split at hs
  swap
  · cases hs
  rename_i size hsize
  split at hs
  swap
  · cases hs
  rename_i hlen
  obtain rfl := Option.some.inj hs
  obtain ⟨hc, halign, hfs, hroom, hchain, hlaid⟩ := h.opened hopen
  obtain ⟨h1, h2⟩ := hc.returnItem item (by have := hroom size hsize; omega)
  refine ⟨?_, h.calls, fun _ => ⟨h1, halign, hfs, fun n hn => (by cases hn), hchain, hlaid⟩⟩
  change payloads s.cache.file s.segments ++ (s.cache.returnWriteCache item).cached = _
  rw [h2, ← List.append_assoc, h.plain]
  simp

theorem newSegment (h : Inv s) {type : SegType} {rnd : Random} {ks : List ℕ} {link : ℕ} {fresh : Mem}
    (hok : StepOk s (.newSegment type rnd ks link fresh))
    (hs : step p s (.newSegment type rnd ks link fresh) = some s') : Inv s' := by
  rw [Encrypted.step] at hs
  split at hs
  · cases hs
  rename_i hopen
  rw [Bool.not_eq_false] at hopen
  simp only at hs
  split at hs
  swap
  · cases hs
  rename_i hnone
  obtain ⟨hc, halign, hfs, hroom, hchain, hlaid⟩ := h.opened hopen
  obtain ⟨l, hl⟩ : ∃ l, s.segments.getLast? = some l := by
    cases hsegs : s.segments with
    | nil =>
      rw [hsegs] at hlaid
      exact hlaid.elim
    | cons x rest => exact ⟨_, List.getLast?_eq_some_getLast (List.cons_ne_nil _ _)⟩
  have hlast : (s.segments.map Segment.start).getLast? = some l.start := by
    rw [List.getLast?_map, hl]
    rfl
  rcases appendNewSegment_chain hchain hlast hok p.cfg type (makeKeys p.cipher p.pub rnd) ks link with
    ⟨f', heq, hext, hchain'⟩ | ⟨f', heq, hlen, hsame⟩
  · rw [heq] at hs
    obtain rfl := Option.some.inj hs
    have hc' : CacheOk { s.cache with file := f', currentFileSize := f'.length } :=
      ⟨hc.finished_le, hc.size_eq, hc.cursor_le, hc.target⟩
    obtain ⟨h1, h2, h3⟩ := aligned_updateWriteCachePadding p.sz hc' fresh
    have hfile : (Cache.updateWriteCachePadding p.sz
      { s.cache with file := f', currentFileSize := f'.length } fresh).file = f' := h3.file
    refine ⟨?_, h.calls, fun _ => ⟨h1, h2, ?_, fun n hn => ?_, ?_, ?_⟩⟩
    · have hpay := payloads_extends hlaid ⟨s.cache.file.length, f'.length, blobKey rnd.xorKeyBlob⟩
        hl hext rfl rfl
      have hcached : (Cache.updateWriteCachePadding p.sz
        { s.cache with file := f', currentFileSize := f'.length } fresh).cached = s.cache.cached :=
        h3.cached
      simp only
      rw [hfile, hcached, hpay]
      exact h.plain
    · change (Cache.updateWriteCachePadding p.sz _ fresh).currentFileSize = _
      rw [hfile, h3.currentFileSize]
    · change s.allocated = some n at hn
      rw [hnone] at hn
      cases hn
    · simp only
      rw [hfile, List.map_append]
      exact hchain'
    · simp only
      rw [hfile]
      exact hlaid.append rfl hext.room le_rfl
  · rw [heq] at hs
    obtain rfl := Option.some.inj hs
    refine ⟨?_, h.calls, fun hcontra => (by cases hcontra)⟩
    change payloads f' s.segments ++ s.cache.cached = s.items.flatten
    rw [payloads_of_same hlaid hl hlen hsame]
    exact h.plain

theorem step {act : Act} (h : Inv s) (hok : StepOk s act) (hs : step p s act = some s') : Inv s' := by
  cases act with
  | alloc size a => exact h.alloc hok hs
  | returnItem item => exact h.returnItem hs
  | newSegment type rnd ks link fresh => exact h.newSegment hok hs
  | mark =>
    rw [Encrypted.step] at hs
    split at hs
    · cases hs
    rename_i hopen
    rw [Bool.not_eq_false] at hopen
    split at hs
    swap
    · cases hs
    obtain rfl := Option.some.inj hs
    obtain ⟨hc, halign, hfs, hroom, hchain, hlaid⟩ := h.opened hopen
    exact ⟨h.plain, h.calls, fun _ => ⟨hc.mark, halign, hfs, hroom, hchain, hlaid⟩⟩
  | flush a =>
    rw [Encrypted.step] at hs
    split at hs
    · cases hs
    rename_i hopen
    rw [Bool.not_eq_false] at hopen
    simp only at hs
    split at hs
    swap
    · cases hs
    rename_i hcond
    rw [Option.map_eq_some_iff] at hs
    obtain ⟨⟨c, calls⟩, hflush, rfl⟩ := hs
    have := h.flush hopen hcond.2 hok hflush
    rw [← hcond.1] at this
    exact this

/-- A new file with its first segment. -/
theorem openedFile (p : Setup) {rnd : Random} {ks : List ℕ} {link : ℕ} {file : List UInt8}
    (hfile : appendNewSegment p.cfg (fileHeader p.cfg) .normal (makeKeys p.cipher p.pub rnd) ks link =
      (true, file)) {headSize targetSize : ℕ} (hhead : headSize ≤ targetSize)
    (htarget : cacheWriteMinSize ≤ targetSize) (entity fresh : Mem) :
    Inv (State.opened p file rnd headSize targetSize entity fresh) := by
  have h8 : (fileHeader p.cfg).length = 8 := by simp [fileHeader]
  obtain ⟨hchain, hlen⟩ : Chain file 8 [8] ∧ 20 ≤ file.length := by
    rcases appendNewSegment_cases p.cfg (fileHeader p.cfg) .normal (makeKeys p.cipher p.pub rnd) ks
      link with ⟨heq, -⟩ | ⟨t, chunks, hreach, ⟨-, -, heq⟩ | ⟨starts, hwalk, -⟩⟩
    · cases heq.symm.trans hfile
    · obtain rfl := (Prod.mk.inj (heq.symm.trans hfile)).2
      obtain ⟨hat, hroom⟩ := hreach.headAt_new rfl
      rw [h8] at hat hroom
      exact ⟨.last hat rfl, hroom⟩
    · have := hwalk.getLast
      omega
  have hround := p.sz.le_round targetSize
  have hc : CacheOk (Cache.opened p.sz file headSize targetSize entity) := by
    refine ⟨le_rfl, ?_, Nat.zero_le _, le_trans (by decide) htarget⟩
    change headSize + 0 + (p.sz.round targetSize - headSize) = p.sz.round targetSize
    omega
  obtain ⟨h1, h2, h3⟩ := aligned_updateWriteCachePadding p.sz hc fresh
  have hf : (State.opened p file rnd headSize targetSize entity fresh).cache.file = file := h3.file
  have hcached : (State.opened p file rnd headSize targetSize entity fresh).cache.cached = [] := h3.cached
  have hsize : (State.opened p file rnd headSize targetSize entity fresh).cache.currentFileSize =
    file.length := h3.currentFileSize
  refine ⟨?_, fun q hq => (by cases hq), fun _ => ⟨h1, h2, by rw [hf, hsize],
    fun n hn => (by cases hn), by rw [hf]; exact hchain, by rw [hf]; exact ⟨hlen, le_rfl⟩⟩⟩
  rw [hf, hcached]
  change xorStream _ file.length (file.drop file.length) ++ [] = []
  rw [List.drop_length]
  rfl

end Inv

/-- **The encrypted payload stream**: in every run of calls on a new file in which a write is never short
while a record is in progress, and segments are added below 2 ^ 31, all calls of the cipher are aligned,
the payloads decoded with the key blobs of their segments followed by the cache are the items returned,
and the next flush returns. -/
theorem encrypted_payload_stream (p : Setup) (rnd : Random) (ks : List ℕ) (link : ℕ)
    (file : List UInt8)
    (hfile : appendNewSegment p.cfg (fileHeader p.cfg) .normal (makeKeys p.cipher p.pub rnd) ks link =
      (true, file)) (headSize targetSize : ℕ) (hhead : headSize ≤ targetSize)
    (htarget : cacheWriteMinSize ≤ targetSize) (entity fresh : Mem) (s : State)
    (h : Runs (step p) StepOk (State.opened p file rnd headSize targetSize entity fresh) s) :
    (∀ q ∈ s.calls, q.1 % 32 = q.2 % 32) ∧
      payloads s.cache.file s.segments ++ s.cache.cached = s.items.flatten ∧
      (s.isOpen = true → ∀ a : Answer, a.realWriteSize ≤ s.cache.finishedCursor →
        (s.cache.flushEncrypted p.sz p.lanes s.key a).isSome) := by
  have hinv : Inv s := h.invariant (Inv.openedFile p hfile hhead htarget entity fresh)
    fun _ _ _ hu hok hs => hu.step hok hs
  refine ⟨hinv.calls, hinv.plain, fun hopen a hr => ?_⟩
  obtain ⟨hc, halign, -⟩ := hinv.opened hopen
  obtain ⟨c, calls, heq, -⟩ := flushEncrypted_aligned p.sz s.key p.routine hc halign hr
  rw [heq]
  rfl

/-- An appender with a key of RSA-1024 on a machine with AVX2. -/
def setup (cipher : BlockCipher) (pub : PublicKey) : Setup where
  sz := Sizes.heap
  lanes := .avx2
  routine := .inr (.inr (.inl rfl))
  cfg := newConfig
  encType_eq := rfl
  cipher := cipher
  pub := pub

/-- A new file of this appender. -/
theorem exists_openedFile : ∃ pub, parsePublicKeySsh 0 shortKeyText = some pub ∧ ∀ cipher, ∃ ks file,
    appendNewSegment newConfig (fileHeader newConfig) .normal (makeKeys cipher pub Random.least) ks 8 =
      (true, file) ∧ file.length = 32940 := by
  obtain ⟨pub, hpub, hval⟩ := Option.map_eq_some_iff.1 parse_shortKeyText
  obtain ⟨he, hn⟩ := parsePublicKeySsh_spec hpub
  obtain ⟨h128, hbig⟩ := Prod.mk.inj hval
  refine ⟨pub, hpub, fun cipher => ?_⟩
  have happ : Appendable newConfig (fileHeader newConfig) := appendable_newFile
  obtain ⟨ks, file, hfile, hlen⟩ := exists_append_least cipher rfl (by decide) he hn happ
    (of_decide_eq_true hbig)
  refine ⟨ks, file, hfile, ?_⟩
  rw [hlen, h128]
  rfl

instance (s : State) : (act : Act) → Decidable (StepOk s act)
  | .alloc size a => inferInstanceAs
    (Decidable (s.cache.writeCacheSize < s.cache.cursor + size → s.cache.FlushOk a))
  | .flush a => inferInstanceAs (Decidable (s.cache.FlushOk a))
  | .newSegment .. => inferInstanceAs (Decidable (s.cache.file.length < 2 ^ 31))
  | .returnItem _ | .mark => inferInstanceAs (Decidable True)

/-- The state of this appender on a new file. -/
def start (cipher : BlockCipher) (pub : PublicKey) (file : List UInt8) : State :=
  State.opened (setup cipher pub) file Random.least 32 65536 (fun _ => 0) fun _ => 0

theorem step_flush {p : Setup} {s : State} {a : Answer} (hopen : s.isOpen = true)
    (hnone : s.allocated = none) (hr : a.realWriteSize ≤ s.cache.finishedCursor) {c : Cache}
    {calls : List Call} (h : s.cache.flushEncrypted p.sz p.lanes s.key a = some (c, calls)) :
    step p s (.flush a) = some { s with cache := c, calls := s.calls ++ calls } := by
  rw [step, if_neg (by simp [hopen])]
  simp only
  rw [if_pos ⟨hnone, hr⟩, h, Option.map_some]

theorem encrypt_avx2 (m key : Mem) : vernamEncrypt .avx2 m 44 1 key 32768 32940 =
    some (xorAt m 44 1 fun i => key ((32940 + i) % 32768)) := by
  have hblock : Lanes.avx2.block = 32 := rfl
  exact vernamEncrypt_eq (by rw [hblock]; decide) (by rw [hblock]; decide) (by decide) (by decide)
    (by rw [hblock]) m 1

/-- The cache on a new file with two records of one byte each, the second in progress. -/
def inProgress (file : List UInt8) (m : Mem) : Cache where
  file := file
  currentFileSize := 32940
  entity := m
  entitySize := 65536
  headSize := 32
  padding := 12
  writeCacheSize := 65492
  cursor := 2
  finishedCursor := 1
  targetSize := 65536
  diskFullDrop := false

/-- Its flush when nothing can be written: the encrypted byte is overwritten. -/
theorem flushEncrypted_inProgress (file : List UInt8) (m key : Mem) : ∃ c calls,
    (inProgress file m).flushEncrypted Sizes.heap .avx2 key (Answer.of 0 true) = some (c, calls) ∧
      c.file = file ∧ c.cached = [m 45 ^^^ key 172, m 45] := by
  simp only [inProgress, Cache.flushEncrypted, Cache.encrypt, Cache.base, xorKeyBlobSize,
    Nat.reduceMul, Nat.reduceAdd, encrypt_avx2, Option.map_some, Option.bind_some,
    Cache.flushWriteCache, Cache.writeOut, Answer.of, Cache.compact, Nat.one_ne_zero, if_false]
  simp only [Cache.shrink, Cache.totalUsed, Cache.updateWriteCachePadding, Cache.setCacheWritePadding,
    Cache.base, xorKeyBlobSize]
  norm_num [encrypt_avx2]
  refine ⟨by simp [Mem.slice], ?_⟩
  simp [Cache.cached, Cache.base, Mem.slice, List.range_succ, xorAt, Mem.move]

theorem exists_runs_inProgress (cipher : BlockCipher) (pub : PublicKey) {file : List UInt8}
    (hlen : file.length = 32940) : ∃ m, m 45 = 2 ∧
      Runs (step (setup cipher pub)) StepOk (start cipher pub file)
        ⟨inProgress file m, none, [[1], [2]], [⟨8, 32940, blobKey Random.least.xorKeyBlob⟩], [], true⟩ := by
  let acts : List Act := [.alloc 1 (Answer.of 0 false), .returnItem [1], .mark,
    .alloc 1 (Answer.of 0 false), .returnItem [2]]
  let m : Mem := ((Mem.move (fun _ => 0) 44 32 0).write 44 [1]).write 45 [2]
  refine ⟨m, rfl, ?_⟩
  suffices hrun : run (guarded (step (setup cipher pub)) StepOk) (start cipher pub file) acts =
      some ⟨inProgress file m, none, [[1], [2]], [⟨8, 32940, blobKey Random.least.xorKeyBlob⟩], [],
        true⟩ from Runs.of_run_guarded hrun
  simp only [acts, run, start, State.opened, Cache.opened, Cache.updateWriteCachePadding, hlen, setup,
    xorKeyBlobSize, Sizes.heap, id, Cache.setCacheWritePadding, Cache.totalUsed,
    Cache.refreshCacheWritePtr, Cache.base]
  norm_num
  simp only [guarded, StepOk, step, Answer.of, Cache.allocWriteCache, Cache.returnWriteCache,
    Cache.markWriteFinished, Cache.base]
  norm_num [StepOk, inProgress, m]

/-- Two records, and a flush while the second one is in progress. -/
theorem encrypted_payload_stream_twoRecords : ∃ pub, parsePublicKeySsh 0 shortKeyText = some pub ∧
    ∀ cipher, ∃ ks file s,
      appendNewSegment newConfig (fileHeader newConfig) .normal (makeKeys cipher pub Random.least) ks
        8 = (true, file) ∧
      Runs (step (setup cipher pub)) StepOk (start cipher pub file) s ∧ s.items = [[1], [2]] ∧
      ((∀ q ∈ s.calls, q.1 % 32 = q.2 % 32) ∧
        payloads s.cache.file s.segments ++ s.cache.cached = s.items.flatten ∧
        (s.isOpen = true → ∀ a : Answer, a.realWriteSize ≤ s.cache.finishedCursor →
          (s.cache.flushEncrypted (setup cipher pub).sz (setup cipher pub).lanes s.key a).isSome)) := by
  obtain ⟨pub, hpub, hopen⟩ := exists_openedFile
  refine ⟨pub, hpub, fun cipher => ?_⟩
  obtain ⟨ks, file, hfile, hlen⟩ := hopen cipher
  obtain ⟨m, -, hruns⟩ := exists_runs_inProgress cipher pub hlen
  have hspec := encrypted_payload_stream (setup cipher pub) Random.least ks 8 file hfile 32 65536
    (by decide) (by decide) (fun _ => 0) fun _ => 0
  -- the byte of the first record is written while the second is in progress
  have hsome := (hspec _ hruns).2.2 rfl (Answer.of 1 false) le_rfl
  obtain ⟨⟨c, calls⟩, hflush⟩ := Option.isSome_iff_exists.1 hsome
  have hstep := hruns.tail (a := Act.flush (Answer.of 1 false)) (Or.inl rfl)
    (step_flush rfl rfl le_rfl hflush)
  exact ⟨ks, file, _, hfile, hstep, rfl, hspec _ hstep⟩

/-- A disk that is full while the second record is in progress: its byte is moved over the byte of the
first record, which is encrypted and not written yet. -/
theorem encrypted_payload_stream_shortWrite : ∃ pub, parsePublicKeySsh 0 shortKeyText = some pub ∧
    ∀ cipher, ∃ ks file s,
      appendNewSegment newConfig (fileHeader newConfig) .normal (makeKeys cipher pub Random.least) ks
        8 = (true, file) ∧
      Runs (step (setup cipher pub)) (fun _ _ => True) (start cipher pub file) s ∧
      s.items = [[1], [2]] ∧ payloads s.cache.file s.segments ++ s.cache.cached = [2, 2] := by
  obtain ⟨pub, hpub, hopen⟩ := exists_openedFile
  refine ⟨pub, hpub, fun cipher => ?_⟩
  obtain ⟨ks, file, hfile, hlen⟩ := hopen cipher
  obtain ⟨m, hm, hruns⟩ := exists_runs_inProgress cipher pub hlen
  obtain ⟨c, calls, hflush, hfile', hcached⟩ :=
    flushEncrypted_inProgress file m (blobKey Random.least.xorKeyBlob)
  have hstep := (hruns.mono fun _ _ _ => trivial).tail (a := Act.flush (Answer.of 0 true)) trivial
    (step_flush rfl rfl (Nat.zero_le _) hflush)
  refine ⟨ks, file, _, hfile, hstep, rfl, ?_⟩
  have hkey : blobKey Random.least.xorKeyBlob 172 = 0 := by
    rw [blobKey, show Random.least.xorKeyBlob = List.replicate xorKeyBlobSize 0 from rfl,
      List.getD_eq_getElem?_getD, List.getElem?_replicate_of_lt (by decide), Option.getD_some]
  change xorStream _ 32940 (c.file.drop 32940) ++ c.cached = _
  rw [hfile', hcached, hm, hkey, List.drop_eq_nil_of_le hlen.le]
  rfl

end Encrypted

end QLog.Appender
