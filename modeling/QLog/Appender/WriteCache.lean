import QLog.Foundations.Transition
import QLog.Foundations.ByteMemory
import QLog.Appender.ReadCache

/-!
# The write cache of the file appenders

A model of the write cache of `appender_file_base`: items are collected in a buffer behind the file,
`mark_write_finished` marks the end of a complete record, and `flush_write_cache` hands the finished
part to the system, which may write any part of it.

The buffer is a memory with a size. Its head and a padding come first; the cache begins behind them.
`Cache.stream` is the file followed by the cached bytes. Every operation keeps it or appends the item
returned, except for one case of `flush_write_cache`: when the write is short while a record is in
progress, the bytes of this record are moved over finished bytes that are not written yet.
-/

namespace QLog.Appender

/-- `CACHE_WRITE_MIN_SIZE`. -/
def cacheWriteMinSize : ℕ := 64 * 1024

/-- The sizes that a buffer can have; a mapped buffer has whole pages. -/
structure Sizes where
  round : ℕ → ℕ
  le_round : ∀ n, n ≤ round n

/-- The file and the cache in front of it. -/
structure Cache where
  file : List UInt8
  currentFileSize : ℕ
  entity : Mem
  entitySize : ℕ
  headSize : ℕ
  padding : ℕ
  writeCacheSize : ℕ
  cursor : ℕ
  finishedCursor : ℕ
  targetSize : ℕ
  diskFullDrop : Bool

/-- What the system answers during a call: how much it writes, whether it reports that the disk is full,
and what memory that is newly allocated holds. -/
structure Answer where
  realWriteSize : ℕ
  diskFull : Bool
  fresh : Mem

/-- The loop of `roundup_pow_of_two`. -/
def roundupLoop (x result : ℕ) : ℕ :=
  if 0 < x then roundupLoop (x >>> 1) (result <<< 1) else result
termination_by x
decreasing_by
  rw [Nat.shiftRight_eq_div_pow]
  omega

/-- `roundup_pow_of_two`. -/
def roundupPowOfTwo (x : ℕ) : ℕ := if x &&& (x - 1) = 0 then x else roundupLoop x 1

namespace Cache

variable (sz : Sizes) (c : Cache)

/-- Where `cache_write_` points to, from the start of the buffer. -/
def base : ℕ := c.headSize + c.padding

/-- `get_total_used_write_cache_size`. -/
def totalUsed : ℕ := c.headSize + c.padding + c.cursor

/-- The bytes in the cache. -/
def cached : List UInt8 := c.entity.slice c.base c.cursor

/-- The file followed by the cached bytes. -/
def stream : List UInt8 := c.file ++ c.cached

/-- `refresh_cache_write_ptr`. -/
def refreshCacheWritePtr : Cache := { c with writeCacheSize := c.entitySize - c.base }

/-- `normal_buffer::resize`: the bytes that fit are copied. -/
def resizeBuffer (newSize : ℕ) (fresh : Mem) : Cache :=
  if newSize = c.entitySize then c
  else
    { c with
      entitySize := sz.round newSize
      entity := fun x => if x < min c.entitySize (sz.round newSize) then c.entity x else fresh x }

/-- `resize_cache_write_entity`. -/
def resizeCacheWriteEntity (newSize : ℕ) (fresh : Mem) : Cache :=
  (c.resizeBuffer sz newSize fresh).refreshCacheWritePtr

/-- The two `memmove`s of `flush_write_cache`. -/
def compact (need real : ℕ) : Mem :=
  let m := if real < need then c.entity.move c.base (c.base + real) (need - real) else c.entity
  if need < c.cursor then m.move c.base (c.base + need) (c.cursor - need) else m

/-- `flush_write_cache` up to the shrinking of the buffer. -/
def writeOut (real : ℕ) : Cache :=
  { c with
    file := c.file ++ c.entity.slice c.base real
    entity := c.compact c.finishedCursor real
    finishedCursor := c.finishedCursor - real
    cursor := c.cursor - real
    currentFileSize := c.currentFileSize + real }

/-- The buffer shrinks to its target size when little of it is used. -/
def shrink (fresh : Mem) : Cache :=
  if c.targetSize < c.entitySize ∧ c.totalUsed ≤ cacheReadDefaultSize >>> 1 then
    c.resizeCacheWriteEntity sz c.targetSize fresh
  else c

/-- `appender_file_base::flush_write_cache`. -/
def flushWriteCache (a : Answer) : Cache :=
  { (c.writeOut a.realWriteSize).shrink sz a.fresh with
    diskFullDrop :=
      if a.diskFull then true
      else if a.realWriteSize = c.finishedCursor then false
      else c.diskFullDrop }

/-- `alloc_write_cache`, with the `flush_write_cache` of the appender. -/
def allocWriteCache (flush : Cache → Cache) (size : ℕ) (fresh : Mem) : Cache :=
  if c.writeCacheSize < c.cursor + size then
    let c' := flush c
    if c'.writeCacheSize < c'.cursor + size then
      c'.resizeCacheWriteEntity sz
        (roundupPowOfTwo (c'.cursor + size + c'.headSize + c'.padding)) fresh
    else c'
  else c

/-- The handle is filled with an item and `return_write_cache` is called. -/
def returnWriteCache (item : List UInt8) : Cache :=
  { c with entity := c.entity.write (c.base + c.cursor) item, cursor := c.cursor + item.length }

/-- `mark_write_finished`. -/
def markWriteFinished : Cache := { c with finishedCursor := c.cursor }

/-- `set_cache_write_padding`. -/
def setCacheWritePadding (newPadding : ℕ) (fresh : Mem) : Cache :=
  if c.padding = newPadding then c
  else
    let need := c.totalUsed + newPadding - c.padding
    let c' :=
      if c.padding < newPadding ∧ c.entitySize < need then c.resizeCacheWriteEntity sz need fresh else c
    let c'' := { c' with padding := newPadding }.refreshCacheWritePtr
    { c'' with entity := c'.entity.move c''.base c'.base c'.cursor }

end Cache

/-! ## Calls -/

/-- The calls on one open file. -/
inductive Act
  | alloc (size : ℕ) (a : Answer)
  /-- The handle is filled and returned. -/
  | returnItem (item : List UInt8)
  | mark
  | flush (a : Answer)
  | setPadding (padding : ℕ) (a : Answer)

/-- The cache with the open handle and the history: the items returned, and how many had been returned
at each `mark_write_finished`. -/
structure State where
  cache : Cache
  allocated : Option ℕ
  items : List (List UInt8)
  marks : List ℕ

/-- One call. The system never writes more than it was given. -/
def step (sz : Sizes) (s : State) : Act → Option State
  | .alloc size a =>
    if s.allocated = none ∧ a.realWriteSize ≤ s.cache.finishedCursor then
      some { s with
        cache := s.cache.allocWriteCache sz (·.flushWriteCache sz a) size a.fresh
        allocated := some size }
    else none
  | .returnItem item =>
    match s.allocated with
    | some size =>
      if item.length ≤ size then
        some { s with
          cache := s.cache.returnWriteCache item, allocated := none, items := s.items ++ [item] }
      else none
    | none => none
  | .mark =>
    if s.allocated = none then
      some { s with cache := s.cache.markWriteFinished, marks := s.marks ++ [s.items.length] }
    else none
  | .flush a =>
    if s.allocated = none ∧ a.realWriteSize ≤ s.cache.finishedCursor then
      some { s with cache := s.cache.flushWriteCache sz a }
    else none
  | .setPadding padding a =>
    if s.allocated = none then
      some { s with cache := s.cache.setCacheWritePadding sz padding a.fresh }
    else none

/-- The cache when a file has been opened. -/
def Cache.opened (sz : Sizes) (file : List UInt8) (headSize targetSize : ℕ) (entity : Mem) : Cache where
  file := file
  currentFileSize := file.length
  entity := entity
  entitySize := sz.round targetSize
  headSize := headSize
  padding := 0
  writeCacheSize := sz.round targetSize - headSize
  cursor := 0
  finishedCursor := 0
  targetSize := targetSize
  diskFullDrop := false

def State.opened (c : Cache) : State := ⟨c, none, [], [0]⟩

/-- A write is complete, or no record is in progress. -/
def Cache.FlushOk (c : Cache) (a : Answer) : Prop :=
  a.realWriteSize = c.finishedCursor ∨ c.cursor = c.finishedCursor

instance (c : Cache) (a : Answer) : Decidable (c.FlushOk a) := inferInstanceAs (Decidable (_ ∨ _))

/-- The flushes of a call satisfy `FlushOk`. -/
def StepOk (s : State) : Act → Prop
  | .alloc size a => s.cache.writeCacheSize < s.cache.cursor + size → s.cache.FlushOk a
  | .flush a => s.cache.FlushOk a
  | _ => True

/-! ## The invariant of the cache -/

variable {sz : Sizes} {c : Cache} {a : Answer}

theorem le_roundupLoop (x result : ℕ) : result * (x + 1) ≤ roundupLoop x result := by
  induction x using Nat.strong_induction_on generalizing result with
  | _ x ih =>
    rw [roundupLoop]
    split
    · rename_i hx
      have hhalf : x >>> 1 = x / 2 := by rw [Nat.shiftRight_eq_div_pow, pow_one]
      refine le_trans ?_ (ih (x >>> 1) (by omega) (result <<< 1))
      rw [hhalf, Nat.shiftLeft_eq, pow_one, Nat.mul_assoc]
      exact Nat.mul_le_mul_left _ (by omega)
    · rename_i hx
      obtain rfl : x = 0 := by omega
      omega

theorem le_roundupPowOfTwo (x : ℕ) : x ≤ roundupPowOfTwo x := by
  unfold roundupPowOfTwo
  split
  · exact le_rfl
  · have := le_roundupLoop x 1
    omega

/-- The cursors lie in the buffer, and the buffer can be shrunk when little of it is used. -/
structure CacheOk (c : Cache) : Prop where
  finished_le : c.finishedCursor ≤ c.cursor
  size_eq : c.base + c.writeCacheSize = c.entitySize
  cursor_le : c.cursor ≤ c.writeCacheSize
  target : cacheReadDefaultSize >>> 1 ≤ c.targetSize

/-- Two caches with the same contents: the file, the cursors and the cached bytes. -/
structure SameContents (c c' : Cache) : Prop where
  file : c'.file = c.file
  currentFileSize : c'.currentFileSize = c.currentFileSize
  cursor : c'.cursor = c.cursor
  finishedCursor : c'.finishedCursor = c.finishedCursor
  cached : c'.cached = c.cached

theorem SameContents.trans {c c' c'' : Cache} (h : SameContents c c') (h' : SameContents c' c'') :
    SameContents c c'' :=
  ⟨h'.file.trans h.file, h'.currentFileSize.trans h.currentFileSize, h'.cursor.trans h.cursor,
    h'.finishedCursor.trans h.finishedCursor, h'.cached.trans h.cached⟩

theorem SameContents.stream {c c' : Cache} (h : SameContents c c') : c'.stream = c.stream := by
  rw [Cache.stream, Cache.stream, h.file, h.cached]

namespace CacheOk

theorem totalUsed_eq (c : Cache) : c.totalUsed = c.base + c.cursor := rfl

theorem totalUsed_le (h : CacheOk c) : c.totalUsed ≤ c.entitySize := by
  have := h.size_eq
  have := h.cursor_le
  rw [totalUsed_eq]
  omega

/-- Resizing keeps the contents. -/
theorem resize (sz : Sizes) (h : CacheOk c) {n : ℕ} (hn : c.totalUsed ≤ n) (fresh : Mem) :
    CacheOk (c.resizeCacheWriteEntity sz n fresh) ∧
      SameContents c (c.resizeCacheWriteEntity sz n fresh) ∧
      (c.resizeCacheWriteEntity sz n fresh).base = c.base ∧
      n ≤ (c.resizeCacheWriteEntity sz n fresh).entitySize := by
  have hle := h.totalUsed_le
  rw [totalUsed_eq] at hle hn
  unfold Cache.resizeCacheWriteEntity Cache.resizeBuffer
  split
  · rename_i he
    refine ⟨⟨h.finished_le, ?_, ?_, h.target⟩, ⟨rfl, rfl, rfl, rfl, rfl⟩, rfl, he.le⟩
    · change c.base + (c.entitySize - c.base) = c.entitySize
      omega
    · change c.cursor ≤ c.entitySize - c.base
      omega
  · have hround := sz.le_round n
    refine ⟨⟨h.finished_le, ?_, ?_, h.target⟩, ⟨rfl, rfl, rfl, rfl, ?_⟩, rfl, hround⟩
    · change c.base + (sz.round n - c.base) = sz.round n
      omega
    · change c.cursor ≤ sz.round n - c.base
      omega
    · refine Mem.slice_congr fun x hx hx' => if_pos ?_
      change x < c.base + c.cursor at hx'
      omega

theorem shrink (sz : Sizes) (h : CacheOk c) (fresh : Mem) :
    CacheOk (c.shrink sz fresh) ∧ SameContents c (c.shrink sz fresh) ∧
      (c.shrink sz fresh).base = c.base := by
  unfold Cache.shrink
  split
  · rename_i hs
    obtain ⟨h1, h2, h3, -⟩ := h.resize sz (hs.2.trans h.target) fresh
    exact ⟨h1, h2, h3⟩
  · exact ⟨h, ⟨rfl, rfl, rfl, rfl, rfl⟩, rfl⟩

/-! ## Flushing -/

theorem writeOut (h : CacheOk c) {real : ℕ} (hr : real ≤ c.finishedCursor) :
    CacheOk (c.writeOut real) := by
  have h1 := h.finished_le
  have h2 := h.cursor_le
  refine ⟨?_, h.size_eq, ?_, h.target⟩
  · change c.finishedCursor - real ≤ c.cursor - real
    omega
  · change c.cursor - real ≤ c.writeCacheSize
    omega

theorem flush (sz : Sizes) (h : CacheOk c) (hr : a.realWriteSize ≤ c.finishedCursor) :
    CacheOk (c.flushWriteCache sz a) ∧
      SameContents (c.writeOut a.realWriteSize) (c.flushWriteCache sz a) := by
  obtain ⟨h1, h2, -⟩ := (h.writeOut hr).shrink sz a.fresh
  exact ⟨⟨h1.finished_le, h1.size_eq, h1.cursor_le, h1.target⟩,
    ⟨h2.file, h2.currentFileSize, h2.cursor, h2.finishedCursor, h2.cached⟩⟩

/-- **A flush keeps the stream** when the write is complete or no record is in progress: then at most
one of the two moves takes place. -/
theorem stream_writeOut (h : CacheOk c) {real : ℕ} (hr : real ≤ c.finishedCursor)
    (hok : real = c.finishedCursor ∨ c.cursor = c.finishedCursor) :
    (c.writeOut real).stream = c.stream := by
  have hle := h.finished_le
  have hsplit : c.cached = c.entity.slice c.base real ++
      c.entity.slice (c.base + real) (c.cursor - real) := by
    rw [Cache.cached, ← Mem.slice_add, Nat.add_sub_cancel' (hr.trans hle)]
  have hmoved : (c.compact c.finishedCursor real).slice c.base (c.cursor - real) =
      c.entity.slice (c.base + real) (c.cursor - real) := by
    unfold Cache.compact
    rcases hok with hreal | hcur
    · rw [hreal, if_neg (lt_irrefl _)]
      split
      · exact Mem.slice_move _ _ _ _
      · rename_i hlt
        rw [show c.cursor - c.finishedCursor = 0 by omega]
        rfl
    · simp only [hcur]
      rw [if_neg (lt_irrefl _)]
      split
      · exact Mem.slice_move _ _ _ _
      · rename_i hlt
        rw [show c.finishedCursor - real = 0 by omega]
        rfl
  change (c.file ++ c.entity.slice c.base real) ++
    (c.compact c.finishedCursor real).slice c.base (c.cursor - real) = c.file ++ c.cached
  rw [hmoved, hsplit, List.append_assoc]

theorem stream_flush (h : CacheOk c) (hr : a.realWriteSize ≤ c.finishedCursor) (hok : c.FlushOk a) :
    (c.flushWriteCache sz a).stream = c.stream := by
  rw [(h.flush sz hr).2.stream]
  exact h.stream_writeOut hr hok

/-! ## The other calls -/

/-- What `alloc_write_cache` leaves to its flush: there is room for the item, and the contents are those
that the flush left. -/
theorem alloc (sz : Sizes) (flush : Cache → Cache) (size : ℕ) (h : CacheOk c)
    (hflush : CacheOk (flush c)) (fresh : Mem) :
    CacheOk (c.allocWriteCache sz flush size fresh) ∧
      (c.allocWriteCache sz flush size fresh).cursor + size ≤
        (c.allocWriteCache sz flush size fresh).writeCacheSize ∧
      (c.writeCacheSize < c.cursor + size →
        SameContents (flush c) (c.allocWriteCache sz flush size fresh) ∧
          (c.allocWriteCache sz flush size fresh).base = (flush c).base) ∧
      (¬ c.writeCacheSize < c.cursor + size → c.allocWriteCache sz flush size fresh = c) := by
  unfold Cache.allocWriteCache
  split
  · rename_i hneed
    simp only
    split
    · have hle := le_roundupPowOfTwo
        ((flush c).cursor + size + (flush c).headSize + (flush c).padding)
      have hused : (flush c).totalUsed ≤ roundupPowOfTwo
          ((flush c).cursor + size + (flush c).headSize + (flush c).padding) := by
        unfold Cache.totalUsed
        omega
      obtain ⟨h1, h2, h3, h4⟩ := hflush.resize sz hused fresh
      refine ⟨h1, ?_, fun _ => ⟨h2, h3⟩, fun hn => absurd hneed hn⟩
      have h5 := h1.size_eq
      rw [h2.cursor]
      rw [h3] at h5
      unfold Cache.base at h5
      omega
    · rename_i hroom
      exact ⟨hflush, by omega, fun _ => ⟨⟨rfl, rfl, rfl, rfl, rfl⟩, rfl⟩, fun hn => absurd hneed hn⟩
  · rename_i hroom
    exact ⟨h, by omega, fun hn => absurd hn hroom, fun _ => rfl⟩

/-- A returned item is appended to the stream. -/
theorem returnItem (h : CacheOk c) (item : List UInt8)
    (hroom : c.cursor + item.length ≤ c.writeCacheSize) :
    CacheOk (c.returnWriteCache item) ∧ (c.returnWriteCache item).cached = c.cached ++ item := by
  refine ⟨⟨h.finished_le.trans (Nat.le_add_right _ _), h.size_eq, hroom, h.target⟩, ?_⟩
  change (c.entity.write (c.base + c.cursor) item).slice c.base (c.cursor + item.length) =
    c.entity.slice c.base c.cursor ++ item
  rw [Mem.slice_add, Mem.slice_write]
  congr 1
  exact Mem.slice_congr fun x _ hx => Mem.write_apply_of_lt _ _ hx

theorem mark (h : CacheOk c) : CacheOk c.markWriteFinished :=
  ⟨le_rfl, h.size_eq, h.cursor_le, h.target⟩

/-- Another padding moves the contents. -/
theorem setPadding (sz : Sizes) (h : CacheOk c) (p : ℕ) (fresh : Mem) :
    CacheOk (c.setCacheWritePadding sz p fresh) ∧
      SameContents c (c.setCacheWritePadding sz p fresh) ∧
      (c.setCacheWritePadding sz p fresh).headSize = c.headSize ∧
      (c.setCacheWritePadding sz p fresh).padding = p := by
  unfold Cache.setCacheWritePadding
  split
  · rename_i hp
    exact ⟨h, ⟨rfl, rfl, rfl, rfl, rfl⟩, rfl, hp⟩
  · rename_i hp
    simp only
    -- the buffer has room for the contents behind the new padding
    obtain ⟨u, hu, hok, hsame, hhead, hpad, hroom⟩ : ∃ u : Cache, (if c.padding < p ∧
        c.entitySize < c.totalUsed + p - c.padding then
          c.resizeCacheWriteEntity sz (c.totalUsed + p - c.padding) fresh else c) = u ∧
        CacheOk u ∧ SameContents c u ∧ u.headSize = c.headSize ∧ u.padding = c.padding ∧
        c.headSize + p + c.cursor ≤ u.entitySize := by
      have hle := h.totalUsed_le
      split
      · rename_i hgrow
        obtain ⟨h1, h2, h3, h4⟩ := h.resize sz (n := c.totalUsed + p - c.padding) (by omega) fresh
        have hparts : (c.resizeCacheWriteEntity sz (c.totalUsed + p - c.padding) fresh).headSize =
            c.headSize ∧ (c.resizeCacheWriteEntity sz (c.totalUsed + p - c.padding) fresh).padding =
            c.padding := by
          unfold Cache.resizeCacheWriteEntity Cache.resizeBuffer
          split <;> exact ⟨rfl, rfl⟩
        refine ⟨_, rfl, h1, h2, hparts.1, hparts.2, ?_⟩
        have h5 : c.totalUsed = c.headSize + c.padding + c.cursor := rfl
        omega
      · rename_i hgrow
        refine ⟨c, rfl, h, ⟨rfl, rfl, rfl, rfl, rfl⟩, rfl, rfl, ?_⟩
        unfold Cache.totalUsed at hgrow hle
        omega
    rw [hu]
    have hcur := hsame.cursor
    refine ⟨⟨?_, ?_, ?_, hok.target⟩, ⟨hsame.file, hsame.currentFileSize, hsame.cursor,
      hsame.finishedCursor, ?_⟩, hhead, rfl⟩
    · exact hok.finished_le
    · change u.headSize + p + (u.entitySize - (u.headSize + p)) = u.entitySize
      omega
    · change u.cursor ≤ u.entitySize - (u.headSize + p)
      omega
    · rw [← hsame.cached]
      exact Mem.slice_move _ _ _ _

end CacheOk

/-! ## Runs -/

/-- The invariant of the calls on a file that held `file` when it was opened. -/
structure Inv (file : List UInt8) (s : State) : Prop where
  cacheOk : CacheOk s.cache
  room : ∀ size, s.allocated = some size → s.cache.cursor + size ≤ s.cache.writeCacheSize
  stream : s.cache.stream = file ++ s.items.flatten
  marked : ∃ k ∈ s.marks, k ≤ s.items.length ∧
    s.cache.file.length + s.cache.finishedCursor = file.length + (s.items.take k).flatten.length

namespace Inv

variable {file : List UInt8} {s s' : State}

/-- Writing moves the end of the last complete record from the cache to the file. -/
theorem length_writeOut {c : Cache} {real : ℕ} (hr : real ≤ c.finishedCursor) :
    (c.writeOut real).file.length + (c.writeOut real).finishedCursor =
      c.file.length + c.finishedCursor := by
  change (c.file ++ c.entity.slice c.base real).length + (c.finishedCursor - real) = _
  rw [List.length_append, Mem.length_slice]
  omega

/-- The invariant when the contents of the cache stay the same. -/
theorem same (h : Inv file s) (hok : CacheOk s'.cache) (hs : SameContents s.cache s'.cache)
    (hroom : ∀ size, s'.allocated = some size → s'.cache.cursor + size ≤ s'.cache.writeCacheSize)
    (hitems : s'.items = s.items) (hmarks : s'.marks = s.marks) : Inv file s' := by
  refine ⟨hok, hroom, ?_, ?_⟩
  · rw [hs.stream, hitems]
    exact h.stream
  · rw [hmarks, hitems, hs.file, hs.finishedCursor]
    exact h.marked

/-- The invariant after a flush that keeps the stream. -/
theorem flush (sz : Sizes) (h : Inv file s) (hr : a.realWriteSize ≤ s.cache.finishedCursor)
    (hok : s.cache.FlushOk a) :
    Inv file { s with cache := s.cache.flushWriteCache sz a, allocated := none } := by
  obtain ⟨h1, h2⟩ := h.cacheOk.flush sz hr
  refine ⟨h1, fun size hs => (by cases hs), ?_, ?_⟩
  · rw [h.cacheOk.stream_flush hr hok]
    exact h.stream
  · obtain ⟨k, hk, hle, hmark⟩ := h.marked
    refine ⟨k, hk, hle, ?_⟩
    rw [h2.file, h2.finishedCursor]
    exact (length_writeOut hr).trans hmark

theorem step {act : Act} (h : Inv file s) (hok : StepOk s act) (hs : step sz s act = some s') :
    Inv file s' := by
  cases act with
  | alloc size a =>
    simp only [Appender.step] at hs
    split at hs
    · rename_i hcond
      obtain rfl := Option.some.inj hs
      obtain ⟨h1, h2, h3, h4⟩ := h.cacheOk.alloc sz (·.flushWriteCache sz a) size
        (h.cacheOk.flush sz hcond.2).1 a.fresh
      by_cases hneed : s.cache.writeCacheSize < s.cache.cursor + size
      · refine (h.flush sz hcond.2 (hok hneed)).same h1 (h3 hneed).1 (fun n hn => ?_) rfl rfl
        obtain rfl := Option.some.inj hn
        exact h2
      · refine h.same h1 (by rw [h4 hneed]; exact ⟨rfl, rfl, rfl, rfl, rfl⟩) (fun n hn => ?_) rfl rfl
        obtain rfl := Option.some.inj hn
        exact h2
    · cases hs
  | returnItem item =>
    simp only [Appender.step] at hs
    split at hs
    · rename_i size hsize
      split at hs
      · rename_i hlen
        obtain rfl := Option.some.inj hs
        have hroom := h.room size hsize
        obtain ⟨h1, h2⟩ := h.cacheOk.returnItem item (by omega)
        refine ⟨h1, fun n hn => (by cases hn), ?_, ?_⟩
        · change s.cache.file ++ (s.cache.returnWriteCache item).cached = _
          rw [h2, ← List.append_assoc]
          change s.cache.stream ++ item = _
          rw [h.stream]
          simp
        · obtain ⟨k, hk, hle, hmark⟩ := h.marked
          refine ⟨k, hk, ?_, ?_⟩
          · rw [List.length_append]
            exact hle.trans (Nat.le_add_right _ _)
          · rw [List.take_append_of_le_length hle]
            exact hmark
      · cases hs
    · cases hs
  | mark =>
    simp only [Appender.step] at hs
    split at hs
    · rename_i hnone
      obtain rfl := Option.some.inj hs
      refine ⟨h.cacheOk.mark, fun n hn => ?_, h.stream, s.items.length, by simp, le_rfl, ?_⟩
      · rw [hnone] at hn
        cases hn
      · have hlen := congrArg List.length h.stream
        rw [Cache.stream, List.length_append, List.length_append] at hlen
        rw [List.take_length]
        change s.cache.file.length + s.cache.cursor = _
        rw [← hlen, Cache.cached, Mem.length_slice]
    · cases hs
  | flush a =>
    simp only [Appender.step] at hs
    split at hs
    · rename_i hcond
      obtain rfl := Option.some.inj hs
      have := h.flush sz hcond.2 hok
      rw [← hcond.1] at this
      exact this
    · cases hs
  | setPadding p a =>
    simp only [Appender.step] at hs
    split at hs
    · rename_i hnone
      obtain rfl := Option.some.inj hs
      obtain ⟨h1, h2, -⟩ := h.cacheOk.setPadding sz p a.fresh
      refine h.same h1 h2 (fun n hn => ?_) rfl rfl
      rw [hnone] at hn
      cases hn
    · cases hs

theorem opened (hhead : c.headSize ≤ c.targetSize) (htarget : cacheWriteMinSize ≤ c.targetSize)
    (hc : ∃ entity, c = Cache.opened sz file c.headSize c.targetSize entity) :
    Inv file (State.opened c) := by
  obtain ⟨entity, hc⟩ := hc
  have hround := sz.le_round c.targetSize
  refine ⟨⟨?_, ?_, ?_, ?_⟩, fun n hn => (by cases hn), ?_, 0, by simp [State.opened], le_rfl, ?_⟩
  · rw [hc]
    exact le_rfl
  · rw [hc]
    change c.headSize + 0 + (sz.round c.targetSize - c.headSize) = sz.round c.targetSize
    omega
  · rw [hc]
    exact Nat.zero_le _
  · refine le_trans ?_ htarget
    decide
  · change c.stream = _
    rw [hc]
    simp [Cache.stream, Cache.opened, Cache.cached, Mem.slice, State.opened]
  · change c.file.length + c.finishedCursor = _
    rw [hc]
    simp [Cache.opened]

end Inv

/-- **The write cache keeps the stream**: in every run of calls in which a write is never short while a
record is in progress, the file followed by the cache is what the file held at first and the items
returned, in order, and the finished cursor stands where some record was complete. -/
theorem write_cache_stream (sz : Sizes) (file : List UInt8) (headSize targetSize : ℕ) (entity : Mem)
    (hhead : headSize ≤ targetSize) (htarget : cacheWriteMinSize ≤ targetSize) (s : State)
    (h : Runs (step sz) StepOk (State.opened (Cache.opened sz file headSize targetSize entity)) s) :
    s.cache.file ++ s.cache.cached = file ++ s.items.flatten ∧
      ∃ k ∈ s.marks, s.cache.file.length + s.cache.finishedCursor =
        file.length + (s.items.take k).flatten.length := by
  have hinv : Inv file s := h.invariant (Inv.opened hhead htarget ⟨entity, rfl⟩)
    fun _ _ _ hu hok hs => hu.step hok hs
  obtain ⟨k, hk, -, hmark⟩ := hinv.marked
  exact ⟨hinv.stream, k, hk, hmark⟩

instance (s : State) : (act : Act) → Decidable (StepOk s act)
  | .alloc size a => inferInstanceAs
    (Decidable (s.cache.writeCacheSize < s.cache.cursor + size → s.cache.FlushOk a))
  | .flush a => inferInstanceAs (Decidable (s.cache.FlushOk a))
  | .returnItem _ | .mark | .setPadding _ _ => inferInstanceAs (Decidable True)

/-- Buffers on the heap have the size that is asked for. -/
def Sizes.heap : Sizes := ⟨id, fun _ => le_rfl⟩

/-- An empty file with an empty cache. -/
def State.start : State := State.opened (Cache.opened Sizes.heap [] 16 65536 fun _ => 0)

/-- The system writes `n` bytes and may report that the disk is full. -/
def Answer.of (n : ℕ) (full : Bool) : Answer := ⟨n, full, fun _ => 0⟩

theorem write_cache_stream_twoRecords : ∃ s, Runs (step Sizes.heap) StepOk State.start s ∧
    s.cache.file = [1, 2, 3] ∧ s.cache.cached = [4] ∧
    (s.cache.file ++ s.cache.cached = [] ++ s.items.flatten ∧
      ∃ k ∈ s.marks, s.cache.file.length + s.cache.finishedCursor =
        ([] : List UInt8).length + (s.items.take k).flatten.length) := by
  -- the first flush is short, the second meets a record in progress
  let acts : List Act := [.alloc 1 (Answer.of 0 false), .returnItem [1], .mark,
    .alloc 2 (Answer.of 0 false), .returnItem [2, 3], .mark, .flush (Answer.of 1 true),
    .alloc 1 (Answer.of 0 false), .returnItem [4], .flush (Answer.of 2 false)]
  have hsome : (run (guarded (step Sizes.heap) StepOk) State.start acts).isSome := by decide
  have hrun : Runs (step Sizes.heap) StepOk State.start _ :=
    Runs.of_run_guarded (Option.some_get hsome).symm
  exact ⟨_, hrun, rfl, rfl,
    write_cache_stream Sizes.heap [] 16 65536 _ (by decide) (by decide) _ hrun⟩

/-- A disk that is full while the second record is in progress: its byte is moved over the first record,
and the cache holds it twice. -/
theorem write_cache_stream_shortWrite : ∃ s, Runs (step Sizes.heap) (fun _ _ => True) State.start s ∧
    s.items = [[1], [2]] ∧ s.cache.file ++ s.cache.cached = [2, 2] := by
  let acts : List Act := [.alloc 1 (Answer.of 0 false), .returnItem [1], .mark,
    .alloc 1 (Answer.of 0 false), .returnItem [2], .flush (Answer.of 0 true)]
  have hsome : (run (step Sizes.heap) State.start acts).isSome := by decide
  exact ⟨_, Runs.of_run (fun _ _ => trivial) (Option.some_get hsome).symm, rfl, rfl⟩

end QLog.Appender
