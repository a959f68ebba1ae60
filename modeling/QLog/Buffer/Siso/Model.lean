import QLog.Foundations.Transition
import QLog.Foundations.Ring
import QLog.Buffer.Defs

/-!
# The single-producer ring

A model of `siso_ring_buffer`: one producer and one consumer share a ring of 8-byte blocks. A
chunk begins with a one-block head (block count and payload size, four bytes each); its payload
follows the head, or starts at the beginning of the data area when the tail of the ring is too
short, and then the skipped tail counts towards the chunk.

`step` executes one atomic action of one of the two threads: a load or store of a cursor the other
thread also accesses, the stores of one chunk head, or the store of one payload byte. Everything
in between works on cursor copies owned by the moving thread. Three history variables record what
the interface promised: the chunks `committed`, the chunks `seen` by the consumer but for one that it
discarded, and how many of these have been `returned`.
-/

namespace QLog.Siso

variable (N : BlockCount)

/-! ## Placement of a chunk -/

/-- Blocks from `index` to the end of the ring. -/
def tail (index : ℕ) : ℕ := N.count - index

/-- Blocks of head and payload when they are contiguous. -/
def normalBlocks (size : ℕ) : ℕ := (size + 8 + 7) >>> 3

/-- The size test of `alloc_write_chunk`. -/
def sizeInvalid (index size : ℕ) : Prop :=
  N.count < normalBlocks size ∨ normalBlocks size = 0 ∨
    (tail N index < normalBlocks size ∧ N.count < normalBlocks size + tail N index - 1)

instance (index size : ℕ) : Decidable (sizeInvalid N index size) := by
  unfold sizeInvalid
  infer_instance

/-- Blocks a chunk occupies; a payload moved to the start takes the tail with it. -/
def chunkBlocks (index size : ℕ) : ℕ :=
  if tail N index < normalBlocks size then tail N index + (size + 7) >>> 3 else normalBlocks size

/-- Where `alloc_write_chunk` puts the payload, relative to `data_bytes_`. -/
def payloadAddr (index size : ℕ) : ℕ :=
  if tail N index < normalBlocks size then 0 else index * 8 + 8

/-- `get_block_data_addr`: the payload address recomputed from the head in memory. -/
def getBlockDataAddr (data : Mem) (index : ℕ) : ℕ :=
  if tail N index * 8 < data.load (index * 8 + 4) 4 + 8 then 0 else index * 8 + 8

/-! ## States -/

/-- A chunk as the interface sees it: the cursor of its head, its blocks, the payload's place
and bytes. -/
structure Chunk where
  cursor : ℕ
  blocks : ℕ
  dataAddr : ℕ
  payload : List UInt8
  deriving DecidableEq

/-- `siso_buffer_batch_read_handle`. -/
structure BatchReadHandle where
  startCursor : ℕ
  currentCursor : ℕ
  endCursor : ℕ
  deriving DecidableEq, Repr

/-- Where the producer stands. -/
inductive Producer
  | idle
  /-- The cached read cursor leaves too little room; `reading_cursor_` is loaded next. -/
  | refreshing (size : ℕ)
  /-- There is room; the chunk head is written next. -/
  | placing (size : ℕ)
  /-- The allocation crosses half of the ring; `reading_cursor_` is loaded next. -/
  | confirming (size : ℕ) (handle : WriteHandle)
  /-- `alloc_write_chunk` succeeded; the payload is being written. -/
  | holding (size : ℕ) (handle : WriteHandle)
  /-- `commit_write_chunk` advanced the private cursor; `writing_cursor_` is stored next. -/
  | publishing (chunk : Chunk)
  deriving DecidableEq

/-- Where the consumer stands. -/
inductive Consumer
  | idle
  /-- `read_chunk` found nothing in its copy; `writing_cursor_` is loaded next. -/
  | loading
  /-- There is a chunk; its head is read next. -/
  | fetching
  /-- `read_chunk` handed out a chunk. -/
  | holding (handle : ReadHandle)
  /-- `return_read_chunk` advanced the private cursor; `reading_cursor_` is stored next. -/
  | storing
  /-- `batch_read` found nothing in its copy; `writing_cursor_` is loaded next. -/
  | batchLoading
  /-- Between `batch_read` and `return_batch_read_chunks`. -/
  | batch (handle : BatchReadHandle)
  deriving DecidableEq

/-- The ring with its two threads and the history of the interface. -/
structure State where
  rtReadingCursorCache : ℕ
  rtWritingCursorCache : ℕ
  wtReadingCursorCache : ℕ
  wtWritingCursorCache : ℕ
  readingCursor : ℕ
  writingCursor : ℕ
  data : Mem
  producer : Producer
  consumer : Consumer
  committed : List Chunk
  seen : List Chunk
  returned : ℕ

/-- The ring after construction, with every cursor at `start` and any bytes in memory. -/
def State.init (start : ℕ) (data : Mem) : State where
  rtReadingCursorCache := start % 2 ^ 32
  rtWritingCursorCache := start % 2 ^ 32
  wtReadingCursorCache := start % 2 ^ 32
  wtWritingCursorCache := start % 2 ^ 32
  readingCursor := start % 2 ^ 32
  writingCursor := start % 2 ^ 32
  data := data
  producer := .idle
  consumer := .idle
  committed := []
  seen := []
  returned := 0

namespace State

variable (s : State)

/-- The block of the producer's private cursor. -/
def writeIndex : ℕ := N.index s.wtWritingCursorCache

/-- `free_blocks` of `alloc_write_chunk`. -/
def freeBlocks : ℕ := sub32 (add32 s.wtReadingCursorCache N.count) s.wtWritingCursorCache

/-- The chunk whose head the given cursor points at, as read from memory. -/
def chunkAt (cursor : ℕ) : Chunk where
  cursor := cursor
  blocks := s.data.load (N.index cursor * 8) 4
  dataAddr := getBlockDataAddr N s.data (N.index cursor)
  payload := s.data.slice (getBlockDataAddr N s.data (N.index cursor))
    (s.data.load (N.index cursor * 8 + 4) 4)

end State

/-! ## Steps -/

/-- The actions of the two threads. -/
inductive Act
  | alloc (size : ℕ)
  | refresh
  | place
  | confirm
  | write (i : ℕ) (b : UInt8)
  | commit
  | publish
  | readChunk
  | load
  | fetch
  | returnReadChunk
  | storeReading
  | discardReadChunk
  | batchRead
  | batchLoad
  | next
  | returnBatchReadChunks
  deriving DecidableEq

/-- `alloc_write_chunk` up to its first access to shared data. -/
def allocWriteChunk (s : State) (size : ℕ) : State :=
  if sizeInvalid N (s.writeIndex N) size then { s with producer := .idle }
  else if s.freeBlocks N < chunkBlocks N (s.writeIndex N) size then
    { s with producer := .refreshing size }
  else { s with producer := .placing size }

/-- The refresh of the cached read cursor and the second room test. -/
def refreshReading (s : State) (size : ℕ) : State :=
  let s' := { s with wtReadingCursorCache := s.readingCursor }
  if s'.freeBlocks N < chunkBlocks N (s.writeIndex N) size then { s' with producer := .idle }
  else { s' with producer := .placing size }

/-- The stores of the chunk head and the half-full test. -/
def placeHead (s : State) (size : ℕ) : State :=
  let index := s.writeIndex N
  let blocks := chunkBlocks N index size
  let usedBefore := N.count - s.freeBlocks N
  let low := usedBefore * 2 % 2 ^ 32 < N.count ∧ N.count ≤ (usedBefore + blocks) * 2 % 2 ^ 32
  let handle : WriteHandle := ⟨payloadAddr N index size, .success, false⟩
  { s with
    data := (s.data.store (index * 8) 4 blocks).store (index * 8 + 4) 4 size
    producer := if low then .confirming size handle else .holding size handle }

/-- The confirmation of the half-full test with the published read cursor. -/
def confirmLowSpace (s : State) (size : ℕ) (handle : WriteHandle) : State :=
  let s' := { s with wtReadingCursorCache := s.readingCursor }
  let used := N.count - s'.freeBlocks N + chunkBlocks N (s.writeIndex N) size
  { s' with
    producer := .holding size { handle with lowSpaceFlag := N.count ≤ used * 2 % 2 ^ 32 } }

/-- `commit_write_chunk` up to the store of the shared cursor. -/
def commitWriteChunk (s : State) (size : ℕ) (handle : WriteHandle) : State :=
  let blocks := s.data.load (s.writeIndex N * 8) 4
  { s with
    wtWritingCursorCache := add32 s.wtWritingCursorCache blocks
    producer := .publishing
      ⟨s.wtWritingCursorCache, blocks, handle.dataAddr, s.data.slice handle.dataAddr size⟩ }

/-- `read_chunk` up to its first access to shared data. -/
def readChunk (s : State) : State :=
  if sub32 s.rtWritingCursorCache s.rtReadingCursorCache = 0 then { s with consumer := .loading }
  else { s with consumer := .fetching }

/-- `read_chunk`: refresh of the cached write cursor. -/
def loadWriting (s : State) : State :=
  let s' := { s with rtWritingCursorCache := s.writingCursor }
  if sub32 s'.rtWritingCursorCache s'.rtReadingCursorCache = 0 then { s' with consumer := .idle }
  else { s' with consumer := .fetching }

/-- `read_chunk`: the chunk at the read cursor is handed out. -/
def fetchChunk (s : State) : State :=
  let c := s.chunkAt N s.rtReadingCursorCache
  { s with
    consumer := .holding ⟨c.dataAddr, .success, s.data.load (N.index s.rtReadingCursorCache * 8 + 4) 4⟩
    seen := s.seen ++ [c] }

/-- The batch handle over everything the cached cursors enclose. -/
def openBatch (s : State) : State :=
  if s.rtReadingCursorCache = s.rtWritingCursorCache then { s with consumer := .idle }
  else { s with
    consumer := .batch ⟨s.rtReadingCursorCache, s.rtReadingCursorCache, s.rtWritingCursorCache⟩ }

/-- `batch_read` up to its first access to shared data. -/
def batchRead (s : State) : State :=
  if s.rtWritingCursorCache = s.rtReadingCursorCache then { s with consumer := .batchLoading }
  else openBatch s

/-- `next`: hand out the chunk at the batch cursor and step over it. -/
def nextChunk (s : State) (b : BatchReadHandle) : State :=
  let c := s.chunkAt N b.currentCursor
  let cursor := add32 b.currentCursor c.blocks
  { s with
    rtReadingCursorCache := cursor
    consumer := .batch { b with currentCursor := cursor }
    seen := s.seen ++ [c] }

/-- One atomic action. -/
def step (s : State) : Act → Option State
  | .alloc size =>
    match s.producer with
    | .idle | .holding _ _ => if size < 2 ^ 32 then some (allocWriteChunk N s size) else none
    | _ => none
  | .refresh =>
    match s.producer with
    | .refreshing size => some (refreshReading N s size)
    | _ => none
  | .place =>
    match s.producer with
    | .placing size => some (placeHead N s size)
    | _ => none
  | .confirm =>
    match s.producer with
    | .confirming size handle => some (confirmLowSpace N s size handle)
    | _ => none
  | .write i b =>
    match s.producer with
    | .holding size handle =>
      if i < size then some { s with data := s.data.poke (handle.dataAddr + i) b } else none
    | _ => none
  | .commit =>
    match s.producer with
    | .holding size handle => some (commitWriteChunk N s size handle)
    | _ => none
  | .publish =>
    match s.producer with
    | .publishing c =>
      some { s with
        writingCursor := s.wtWritingCursorCache
        producer := .idle
        committed := s.committed ++ [c] }
    | _ => none
  | .readChunk =>
    match s.consumer with
    | .idle => some (readChunk s)
    | _ => none
  | .load =>
    match s.consumer with
    | .loading => some (loadWriting s)
    | _ => none
  | .fetch =>
    match s.consumer with
    | .fetching => some (fetchChunk N s)
    | _ => none
  | .returnReadChunk =>
    match s.consumer with
    | .holding _ =>
      some { s with
        rtReadingCursorCache := add32 s.rtReadingCursorCache
          (s.data.load (N.index s.rtReadingCursorCache * 8) 4)
        consumer := .storing }
    | _ => none
  | .storeReading =>
    match s.consumer with
    | .storing =>
      some { s with
        readingCursor := s.rtReadingCursorCache
        consumer := .idle
        returned := s.seen.length }
    | _ => none
  | .discardReadChunk =>
    match s.consumer with
    -- the cursor stays, so the next read hands the chunk out again
    | .holding _ => some { s with consumer := .idle, seen := s.seen.dropLast }
    | _ => none
  | .batchRead =>
    match s.consumer with
    | .idle => some (batchRead s)
    | _ => none
  | .batchLoad =>
    match s.consumer with
    | .batchLoading => some (openBatch { s with rtWritingCursorCache := s.writingCursor })
    | _ => none
  | .next =>
    match s.consumer with
    | .batch b => if b.currentCursor = b.endCursor then none else some (nextChunk N s b)
    | _ => none
  | .returnBatchReadChunks =>
    match s.consumer with
    | .batch _ =>
      some { s with
        readingCursor := s.rtReadingCursorCache
        consumer := .idle
        returned := s.seen.length }
    | _ => none

/-- The states of a ring that was constructed at some cursor value. -/
def Reachable (start : ℕ) (data : Mem) : State → Prop :=
  Runs (step N) (fun _ _ => True) (State.init start data)

end QLog.Siso
