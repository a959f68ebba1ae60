import QLog.Foundations.Transition
import QLog.Foundations.Ring
import QLog.Buffer.Defs

/-!
# The multi-producer ring

A model of `miso_ring_buffer`: any number of producers and one consumer share a ring of 128-byte
blocks. A chunk begins with an eight-byte head on its first block (block count in three bytes,
status in one, payload size in four) and its payload follows. A producer reserves blocks with a
`fetch_add` on the write cursor, tests the reservation against its thread-local copy of the read
cursor and either rolls it back by a compare-exchange, leaves it behind marked invalid when it runs
over the end of the ring, or hands it out. The consumer walks the chunks in order and publishes its
cursor when a quarter of the ring has been read or when it meets an unused block.

`step` executes one atomic step of one thread. The history variables of the state record every
reservation in the order of the `fetch_add`s that were not rolled back (`resv`), how many of them
the consumer has passed (`read`) and released to the producers (`released`), what it was handed
(`delivered`), whether it found the ring completely full when it was set up (`filled`), and for each
thread how many blocks had been released when it last loaded the read cursor (`loaded`). No step
depends on them.
-/

namespace QLog.Miso

/-! ## Blocks -/

/-- `block_status`. -/
inductive BlockStatus
  | unused
  | used
  | invalid
  deriving DecidableEq, Repr

namespace BlockStatus

/-- The byte that stands for a status. -/
def toByte : BlockStatus → UInt8
  | unused => 0
  | used => 1
  | invalid => 2

/-- The status a byte stands for; other bytes take the default branch of every `switch`. -/
def ofByte (b : UInt8) : Option BlockStatus :=
  if b = 0 then some unused else if b = 1 then some used else if b = 2 then some invalid else none

end BlockStatus

/-- `chunk_head.status` of a block. -/
def statusByte (m : Mem) (block : ℕ) : UInt8 := m (128 * block + 3)

/-- The status of a block, if its byte is one. -/
def status (m : Mem) (block : ℕ) : Option BlockStatus := BlockStatus.ofByte (statusByte m block)

def setStatus (m : Mem) (block : ℕ) (st : BlockStatus) : Mem := m.poke (128 * block + 3) st.toByte

/-- `get_block_num`: the low 24 bits of the word at the start of the block. -/
def getBlockNum (m : Mem) (block : ℕ) : ℕ := m.load (128 * block) 4 % 2 ^ 24

/-- `set_block_num`: a four-byte store, which also covers the status byte. -/
def setBlockNum (m : Mem) (block num : ℕ) : Mem := m.store (128 * block) 4 num

/-- `chunk_head.data_size` of a block. -/
def dataSize (m : Mem) (block : ℕ) : ℕ := m.load (128 * block + 4) 4

def setDataSize (m : Mem) (block size : ℕ) : Mem := m.store (128 * block + 4) 4 size

/-- The address of `chunk_head.data` of a block. -/
def dataAddr (block : ℕ) : ℕ := 128 * block + 8

/-- The status of the blocks from `0` to `n - 1` set to unused. -/
def clearStatus (m : Mem) (n : ℕ) : Mem :=
  (List.range n).foldl (fun m b => setStatus m b .unused) m

/-! ## Threads -/

/-- `MAX_BLOCK_NUM_PER_CHUNK`. -/
def maxBlockNumPerChunk : ℕ := 0xFFFFFF

/-- `need_block_count_tmp`: the head is added in 32-bit arithmetic. -/
def needBlocks (size : ℕ) : ℕ := ((size + 8) % 2 ^ 32 + (128 - 1)) >>> 7

/-- The local variables of a call of `alloc_write_chunk`. -/
structure Call where
  size : ℕ
  need : ℕ
  used : ℕ
  deriving DecidableEq, Repr

/-- Where a producer stands in `alloc_write_chunk`. From the `fetch_add` on, `cursor` is
`current_write_cursor` and `slot` the place of the reservation in the history. -/
inductive Pc
  | idle
  /-- `write_cursor_` is loaded next. -/
  | loadWrite (call : Call)
  /-- The thread-local copy is new; `read_cursor_` is loaded next. -/
  | loadRead (call : Call) (cur : ℕ)
  /-- The copy leaves no room; `read_cursor_` is loaded next. -/
  | reload (call : Call) (cur : ℕ)
  /-- The `fetch_add` comes next. -/
  | reserve (call : Call)
  /-- The reservation ends a full ring after the copy; `read_cursor_` is loaded next. -/
  | recheck (call : Call) (cursor slot : ℕ)
  /-- The ring is full; the compare-exchange comes next. -/
  | rollBack (call : Call) (cursor slot : ℕ)
  /-- The reservation is granted; the block count is written next. -/
  | setHead (call : Call) (cursor slot : ℕ)
  /-- The reservation runs over the end; the status becomes invalid next. -/
  | markInvalid (call : Call) (cursor slot : ℕ)
  /-- The payload size is written next. -/
  | setSize (call : Call) (cursor slot : ℕ)
  /-- The ring looks half full; `read_cursor_` is loaded next. -/
  | lowSpace (call : Call) (cursor slot : ℕ)
  /-- The call succeeded; the payload is being written. -/
  | holding (call : Call) (cursor slot : ℕ) (lowSpaceFlag : Bool)
  deriving DecidableEq, Repr

/-- A producer: its thread-local copy of the read cursor (`none` while `is_new_created`), where it
stands, and how many blocks had been released when it loaded the copy. -/
structure Thread where
  cache : Option ℕ
  pc : Pc
  loaded : ℕ
  deriving DecidableEq, Repr

/-- `wt_read_cursor_cache_` during a call. -/
def Thread.readCursorRef (th : Thread) : ℕ := th.cache.getD 0

/-- Where the consumer stands. -/
inductive Consumer
  | idle
  /-- `read_chunk` looks at the status of the next block. -/
  | looking
  /-- An invalid chunk of `n` blocks; its status becomes unused next. -/
  | clearing (n : ℕ)
  /-- The cursor moves over the invalid chunk next. -/
  | skipping (n : ℕ)
  /-- `read_chunk` handed out a chunk. -/
  | holding (handle : ReadHandle)
  /-- `read_chunk` handed out an empty handle. -/
  | empty
  /-- `return_read_chunk` resets the status of the `i`-th block since the last release. -/
  | flushing (i : ℕ)
  /-- `read_cursor_start_cache_` is stored next. -/
  | restart
  /-- `read_cursor_` is stored next. -/
  | release
  /-- `data_traverse` looks at the block of a cursor of its own. -/
  | traversing (cursor : ℕ)
  deriving DecidableEq, Repr

/-! ## States -/

/-- What became of a reservation. -/
inductive Phase
  /-- The `fetch_add` is done, the test of the room is not. -/
  | reserved
  /-- The test found room; the blocks belong to the owner. -/
  | granted
  | invalid
  | committed (payload : List UInt8)
  deriving DecidableEq, Repr

/-- A reservation in the history. -/
structure Resv where
  owner : ℕ
  size : ℕ
  blocks : ℕ
  phase : Phase
  deriving DecidableEq, Repr

/-- A chunk handed to the consumer. -/
structure Delivery where
  size : ℕ
  payload : List UInt8
  deriving DecidableEq, Repr

/-- The ring, its threads and the history. -/
structure State where
  writeCursor : ℕ
  readCursor : ℕ
  readCursorCache : ℕ
  readCursorStartCache : ℕ
  blocks : Mem
  threads : ℕ → Thread
  consumer : Consumer
  resv : List Resv
  read : ℕ
  released : ℕ
  delivered : List Delivery
  filled : Bool

/-- A thread that has not used the ring yet. -/
def Thread.fresh : Thread := ⟨none, .idle, 0⟩

variable (N : BlockCount)

/-- The ring after construction, with every cursor at `start`. -/
def State.init (start : ℕ) (m : Mem) : State where
  writeCursor := start % 2 ^ 32
  readCursor := start % 2 ^ 32
  readCursorCache := start % 2 ^ 32
  readCursorStartCache := start % 2 ^ 32
  blocks := clearStatus m N.count
  threads := fun _ => Thread.fresh
  consumer := .idle
  resv := []
  read := 0
  released := 0
  delivered := []
  filled := false

namespace State

variable (s : State)

/-- Blocks before the `k`-th reservation. -/
def blocksBefore (k : ℕ) : ℕ := offset (s.resv.map Resv.blocks) k

def setThread (t : ℕ) (th : Thread) : State := { s with threads := Function.update s.threads t th }

/-- Load `read_cursor_` into the thread-local copy and go to `pc`. -/
def loadCopy (t : ℕ) (pc : Pc) : State :=
  s.setThread t ⟨some s.readCursor, pc, s.blocksBefore s.released⟩

def goto (t : ℕ) (pc : Pc) : State := s.setThread t { s.threads t with pc := pc }

def setBlocks (m : Mem) : State := { s with blocks := m }

def setPhase (slot : ℕ) (r : Resv) : State := { s with resv := s.resv.set slot r }

/-- A `fetch_add` that reserves `r` and moves the write cursor to `next`. -/
def append (next : ℕ) (r : Resv) : State :=
  { s with writeCursor := next, resv := s.resv ++ [r] }

/-- A compare-exchange that takes the last reservation back. -/
def dropLast (cursor : ℕ) : State :=
  { s with writeCursor := cursor, resv := s.resv.dropLast }

/-- The block the consumer's cursor stands on. -/
def readBlock : ℕ := N.index s.readCursorCache

/-- Blocks passed since the last release, `block_count` of `return_read_chunk`. -/
def unflushed : ℕ := sub32 s.readCursorCache s.readCursorStartCache

end State

/-! ## Producer steps -/

/-- The head of the allocation loop: room according to the thread-local copy? -/
def checkRoom (ref cur : ℕ) (call : Call) : Pc :=
  if N.count < sub32 (add32 cur call.need) ref then .reload call cur else .reserve call

/-- One step of `alloc_write_chunk` of thread `t`. -/
def allocStep (s : State) (t : ℕ) : Option State :=
  let th := s.threads t
  let ref := th.readCursorRef
  match th.pc with
  | .idle => none
  | .loadWrite call =>
    match th.cache with
    | none => some (s.goto t (.loadRead call s.writeCursor))
    | some ref =>
      some (s.goto t (checkRoom N ref s.writeCursor { call with used := sub32 s.writeCursor ref }))
  | .loadRead call cur =>
    some (s.loadCopy t
      (checkRoom N s.readCursor cur { call with used := sub32 cur s.readCursor }))
  | .reload call cur =>
    -- either error code leaves the ring as it is
    some (s.loadCopy t
      (if N.count < sub32 (add32 cur call.need) s.readCursor then .idle else .reserve call))
  | .reserve call =>
    let cursor := s.writeCursor
    let next := add32 cursor call.need
    if N.count ≤ sub32 next ref then
      some ((s.append next ⟨t, call.size, call.need, .reserved⟩).goto t
        (.recheck call cursor s.resv.length))
    else
      some ((s.append next ⟨t, call.size, call.need, .granted⟩).goto t
        (.setHead call cursor s.resv.length))
  | .recheck call cursor slot =>
    if N.count ≤ sub32 (add32 cursor call.need) s.readCursor then
      some (s.loadCopy t (.rollBack call cursor slot))
    else
      some ((s.setPhase slot ⟨t, call.size, call.need, .granted⟩).loadCopy t
        (.setHead call cursor slot))
  | .rollBack call cursor slot =>
    -- either error code leaves the ring as it is
    if s.writeCursor = add32 cursor call.need then some ((s.dropLast cursor).goto t .idle)
    else some (s.goto t (.recheck call cursor slot))
  | .setHead call cursor slot =>
    let b := N.index cursor
    some ((s.setBlocks (setBlockNum s.blocks b call.need)).goto t
      (if N.count < b + call.need then .markInvalid call cursor slot
        else .setSize call cursor slot))
  | .markInvalid call cursor slot =>
    let b := N.index cursor
    some (((s.setBlocks (setStatus s.blocks b .invalid)).setPhase slot
      ⟨t, call.size, call.need, .invalid⟩).goto t (checkRoom N ref cursor call))
  | .setSize call cursor slot =>
    let b := N.index cursor
    let used := add32 call.used call.need
    some ((s.setBlocks (setDataSize s.blocks b call.size)).goto t
      (if N.count ≤ used * 2 % 2 ^ 32 then .lowSpace { call with used := used } cursor slot
        else .holding { call with used := used } cursor slot false))
  | .lowSpace call cursor slot =>
    let used := sub32 (add32 cursor call.need) s.readCursor
    some (s.loadCopy t
      (.holding { call with used := used } cursor slot (N.count ≤ used * 2 % 2 ^ 32)))
  | .holding _ _ _ _ => none

/-- The call of `alloc_write_chunk`; a thread whose thread-local storage is already recycled
works with a copy of its own. -/
def allocCall (s : State) (t size : ℕ) (tlsRecycled : Bool) : State :=
  let need := needBlocks size
  let th := s.threads t
  let cache := if tlsRecycled then none else th.cache
  if N.count < need ∨ need = 0 ∨ maxBlockNumPerChunk < need then
    s.setThread t { th with cache := cache, pc := .idle }
  else s.setThread t { th with cache := cache, pc := .loadWrite ⟨size, need, 0⟩ }

/-- `commit_write_chunk`: the status store. -/
def commitWriteChunk (s : State) (t : ℕ) (call : Call) (cursor slot : ℕ) : State :=
  let b := N.index cursor
  ((s.setBlocks (setStatus s.blocks b .used)).setPhase slot
    ⟨t, call.size, call.need, .committed (s.blocks.slice (dataAddr b) call.size)⟩).goto t .idle

/-! ## Consumer steps -/

/-- One step inside `read_chunk`, `return_read_chunk` or `data_traverse`; the payload that
`data_traverse` hands to its callback on a used block is `State.payloadRange`. -/
def consumerStep (s : State) : Option State :=
  match s.consumer with
  | .looking =>
    let b := s.readBlock N
    match status s.blocks b with
    | some .invalid => some { s with consumer := .clearing (getBlockNum s.blocks b) }
    | some .used =>
      let size := dataSize s.blocks b
      some { s with
        consumer := .holding ⟨dataAddr b, .success, size⟩
        delivered := s.delivered ++ [⟨size, s.blocks.slice (dataAddr b) size⟩] }
    | _ => some { s with consumer := .empty }
  | .clearing n =>
    some { s with
      blocks := setStatus s.blocks (s.readBlock N) .unused
      consumer := .skipping n }
  | .skipping n =>
    some { s with
      readCursorCache := add32 s.readCursorCache n
      read := s.read + 1
      consumer := .looking }
  | .flushing i =>
    some { s with
      blocks := setStatus s.blocks (N.index (add32 s.readCursorStartCache i)) .unused
      consumer := if i + 1 < s.unflushed then .flushing (i + 1) else .restart }
  | .restart =>
    some { s with readCursorStartCache := s.readCursorCache, consumer := .release }
  | .release =>
    some { s with readCursor := s.readCursorCache, released := s.read, consumer := .idle }
  | .traversing cursor =>
    let b := N.index cursor
    let next := add32 cursor (getBlockNum s.blocks b)
    if status s.blocks b = some .unused ∨ N.count ≤ sub32 next s.readCursor then
      some { s with consumer := .idle }
    else some { s with consumer := .traversing next }
  | _ => none

/-- The flush decision at the end of `return_read_chunk`. -/
def afterReturn (s : State) (needFlush : Bool) : State :=
  { s with consumer := if needFlush ∧ 0 < s.unflushed then .flushing 0 else .idle }

/-- `return_read_chunk` up to the flush. -/
def returnReadChunk (s : State) : Option State :=
  match s.consumer with
  | .empty => some (afterReturn s true)
  | .holding _ =>
    let s' := { s with
      readCursorCache := add32 s.readCursorCache (getBlockNum s.blocks (s.readBlock N))
      read := s.read + 1 }
    some (afterReturn s' (N.count >>> 2 ≤ s'.unflushed))
  | _ => none

/-- The payload range that the consumer's next step hands out, to the caller of `read_chunk` or to
the callback of `data_traverse`: address and size. -/
def State.payloadRange (s : State) : Option (ℕ × ℕ) :=
  let used (b : ℕ) :=
    if status s.blocks b = some .used then some (dataAddr b, dataSize s.blocks b) else none
  match s.consumer with
  | .looking => used (s.readBlock N)
  | .traversing cursor => used (N.index cursor)
  | _ => none

/-! ## Runs -/

/-- The actions of the threads. -/
inductive Act
  /-- Thread `t` calls `alloc_write_chunk`. -/
  | alloc (t size : ℕ) (tlsRecycled : Bool)
  /-- Thread `t` takes a step inside `alloc_write_chunk`. -/
  | produce (t : ℕ)
  /-- Thread `t` writes a payload byte. -/
  | write (t i : ℕ) (b : UInt8)
  /-- Thread `t` calls `commit_write_chunk`. -/
  | commit (t : ℕ)
  | readChunk
  | returnReadChunk
  | dataTraverse
  /-- The consumer takes a step inside one of its calls. -/
  | consume
  deriving DecidableEq, Repr

/-- One atomic step. -/
def step (s : State) : Act → Option State
  | .alloc t size tlsRecycled =>
    match (s.threads t).pc with
    | .idle => if size < 2 ^ 32 then some (allocCall N s t size tlsRecycled) else none
    | _ => none
  | .produce t => allocStep N s t
  | .write t i b =>
    match (s.threads t).pc with
    | .holding call cursor _ _ =>
      if i < call.size then
        some (s.setBlocks (s.blocks.poke (dataAddr (N.index cursor) + i) b))
      else none
    | _ => none
  | .commit t =>
    match (s.threads t).pc with
    | .holding call cursor slot _ => some (commitWriteChunk N s t call cursor slot)
    | _ => none
  | .readChunk =>
    match s.consumer with
    | .idle => some { s with consumer := .looking }
    | _ => none
  | .returnReadChunk => returnReadChunk N s
  | .dataTraverse =>
    match s.consumer with
    | .idle => some { s with consumer := .traversing s.readCursor }
    | _ => none
  | .consume => consumerStep N s

/-! ## The condition on runs -/

/-- The room test of a `fetch_add` is exact: the open reservations take less than `2 ^ 32` blocks, and
so does the stretch from the thread-local copy of the read cursor, or its length modulo `2 ^ 32`
sends the thread to reload the copy. -/
def ReserveOk (s : State) (th : Thread) (call : Call) : Prop :=
  let reservedBlocks := s.blocksBefore s.resv.length + call.need
  reservedBlocks - s.blocksBefore s.released < 2 ^ 32 ∧
  (reservedBlocks - th.loaded < 2 ^ 32 ∨ N.count ≤ (reservedBlocks - th.loaded) % 2 ^ 32)

instance (s : State) (th : Thread) (call : Call) : Decidable (ReserveOk N s th call) :=
  inferInstanceAs (Decidable (_ ∧ _))

/-- The call whose `fetch_add` comes next. -/
def Pc.reserving : Pc → Option Call
  | .reserve call => some call
  | _ => none

/-- The step does no cursor arithmetic that wraps unnoticed. -/
def StepOk (s : State) : Act → Prop
  | .alloc _ size _ => size + 8 ≤ 2 ^ 32
  | .produce t => ∀ call ∈ (s.threads t).pc.reserving, ReserveOk N s (s.threads t) call
  | _ => True

instance (s : State) (a : Act) : Decidable (StepOk N s a) :=
  match a with
  | .alloc _ size _ => inferInstanceAs (Decidable (size + 8 ≤ 2 ^ 32))
  | .produce t => inferInstanceAs
      (Decidable (∀ call ∈ (s.threads t).pc.reserving, ReserveOk N s (s.threads t) call))
  | .write _ _ _ => isTrue trivial
  | .commit _ => isTrue trivial
  | .readChunk => isTrue trivial
  | .returnReadChunk => isTrue trivial
  | .dataTraverse => isTrue trivial
  | .consume => isTrue trivial

end QLog.Miso
