import QLog.Foundations.Transition
import QLog.Foundations.Ring
import QLog.Foundations.Linked
import QLog.Buffer.Defs

/-!
# The data of the log buffer

The stores and the bookkeeping of `log_buffer`: the low-performance ring, the groups of blocks, the
array of oversize buffers, the thread-local data of the writers and the cache of the reader.

The two rings enter through what they provide, a queue of chunks. A multi-producer ring is the list of
its reservations from the read cursor on, of which an open one stops the reader and a void one is
skipped; a single-producer ring is the list of the chunks committed and not yet passed by the reader.
The block lists and the group list are lists of block and group names, linked by `nextOf`, `pushAfter`
(`push_after_thread_unsafe`) and `removeAfter` (`remove_thread_unsafe`). A pointer of the group list is named
by the group it leads to. `removed` is the group that the reader has unlinked and not yet pushed to the pool.

`committed`, `delivered` and `missed` are history variables: what each thread has committed since the
buffer was opened, what the reader was handed, and whether the recovery records were consulted in
vain.
-/

namespace QLog.LogBuffer

/-- `std::uint16_t` versions; the arithmetic wraps. -/
abbrev Version := BitVec 16

/-- `MAX_RECOVERY_VERSION_RANGE`. -/
def maxRecoveryVersionRange : ℕ := 2

/-- `BLOCKS_PER_GROUP_NODE`. -/
def blocksPerGroup : ℕ := 16

/-- `sizeof(context_head)`. -/
def contextSize : ℕ := 16

/-- `log_memory_policy`. -/
inductive MemoryPolicy
  | discardWhenFull
  | blockWhenFull
  | autoExpandWhenFull
  deriving DecidableEq, Repr

/-- The part of `log_buffer_config` the code branches on; `blockMaxAlloc` is `get_max_alloc_size` of
the blocks. -/
structure Config where
  needRecovery : Bool
  policy : MemoryPolicy
  highFrequencyThreshold : ℕ
  blockMaxAlloc : ℕ
  deriving DecidableEq, Repr

/-! ## Stores -/

/-- `context_head`; `tls` names the thread whose `log_tls_buffer_info` the pointer refers to. -/
structure Context where
  version : Version
  isThreadFinished : Bool
  isExternalRef : Bool
  seq : ℕ
  tls : ℕ
  deriving DecidableEq, Repr

/-- A reservation of the low-performance ring. The contents of a chunk are its context and the bytes
behind the context, as far as they lie in the chunk. -/
inductive Slot
  /-- The blocks are reserved, the room is not tested yet. -/
  | reserved (owner : ℕ)
  /-- The chunk is being written; the context is already in place. -/
  | granted (owner size : ℕ) (context : Context)
  /-- It ran over the end of the ring; the reader skips it. -/
  | void
  | committed (size : ℕ) (context : Context) (data : List UInt8)
  deriving DecidableEq, Repr

/-- Neither reserved nor being written: the head of the chunk says so to the reader. -/
def Slot.isSettled : Slot → Bool
  | void | committed _ _ _ => true
  | _ => false

/-- The context of a committed chunk. -/
def Slot.context? : Slot → Option Context
  | committed _ c _ => some c
  | _ => none

/-- A chunk of an oversize buffer. -/
structure OversizeChunk where
  size : ℕ
  context : Context
  data : List UInt8
  deriving DecidableEq, Repr

/-- `oversize_buffer_obj_def`: its name, the context in its head, `is_thread_finished_`, the threads
that hold `buffer_lock_`, and the chunks committed and not returned. -/
structure OversizeBuffer where
  index : ℕ
  context : Context
  isThreadFinished : Bool
  readers : List ℕ
  chunks : List OversizeChunk
  deriving DecidableEq, Repr

/-- `block_node_head` with its `block_misc_data`; `records` are the chunks committed and not yet handed
out. -/
structure Block where
  isRemoved : Bool
  needReallocate : Bool
  context : Context
  records : List (List UInt8)
  deriving DecidableEq, Repr

/-- The lists of a group, and the writers that hold the lock of the pointer to it. -/
structure Group where
  used : List ℕ
  stage : List ℕ
  free : List ℕ
  readers : List ℕ
  deriving DecidableEq, Repr

/-- The group a block lies in: `is_range_include`. -/
def groupOf (b : ℕ) : ℕ := b / blocksPerGroup

/-- The blocks of a group in the order in which `push` leaves them on the free list. -/
def groupBlocks (g : ℕ) : List ℕ :=
  ((List.range blocksPerGroup).map (g * blocksPerGroup + ·)).reverse

/-- A context of zeros. -/
def Context.zero : Context := ⟨0, false, false, 0, 0⟩

/-- A block after construction. -/
def Block.fresh : Block := ⟨false, false, Context.zero, []⟩

/-- A group after construction. -/
def Group.fresh (g : ℕ) : Group := ⟨[], [], groupBlocks g, []⟩

/-! ## Writers -/

/-- The arguments of `alloc_write_chunk`. -/
structure Call where
  size : ℕ
  epochMs : ℕ
  deriving DecidableEq, Repr

/-- What a chunk of the low-performance ring is reserved for. -/
inductive LpUse
  | record (call : Call)
  /-- The reference to an oversize chunk. -/
  | parent (call : Call)
  /-- The mark that the thread has finished. -/
  | finish
  deriving DecidableEq, Repr

/-- Where a writer stands. -/
inductive WriterPc
  | idle
  /-- The loop of `alloc_write_chunk` with `is_high_frequency`: `cur_block_` is inspected next. -/
  | hpStart (call : Call)
  /-- `alloc_new_block`: the pointer behind `group` (the head if none) is locked for reading next. -/
  | lockNext (call : Call) (seq : ℕ) (group : Option ℕ)
  /-- The pointer to `group` is locked; `free_.pop` comes next. -/
  | popFree (call : Call) (seq group : ℕ)
  /-- No group has a free block; the head is locked for writing next. -/
  | lockHead (call : Call) (seq : ℕ)
  | popHead (call : Call) (seq : ℕ)
  /-- The first group has no free block; the pool is locked, a group is put in front next. -/
  | newGroup (call : Call) (seq : ℕ)
  /-- `block` is initialised; `stage_.push` comes next, under the lock of the head or of the group. -/
  | pushStage (call : Call) (group block : ℕ) (head : Bool)
  /-- `alloc_write_chunk` of the current block comes next. -/
  | hpAlloc (call : Call)
  /-- The block is full; it is marked removed next. -/
  | hpFull (call : Call)
  /-- `alloc_write_chunk` of the low-performance ring comes next. -/
  | lpAlloc (use : LpUse)
  /-- The blocks are reserved, the test of the room comes next. -/
  | lpReserved (use : LpUse)
  /-- The low-performance ring refused; `sizeInvalid` tells why. -/
  | lpFailed (use : LpUse) (sizeInvalid : Bool)
  /-- The record has its place and its number; the current block is marked removed next. -/
  | lpGranted (call : Call)
  /-- `wt_alloc_oversize_write_chunk` begins. -/
  | oversizeStart (call : Call)
  /-- The parent is placed; the array is locked for reading next. -/
  | oversizeLock (call : Call)
  /-- The array is locked; its `i`-th buffer is tried next. -/
  | oversizeSearch (call : Call) (i : ℕ)
  /-- No buffer has room; the array is locked for writing next. -/
  | oversizeGrow (call : Call)
  | oversizeCreate (call : Call)
  /-- No oversize chunk: the number is given back and the parent committed with a void version. -/
  | oversizeAbort
  /-- `alloc_write_chunk` succeeded in the current block. -/
  | holdingHp (size : ℕ)
  | holdingLp (size : ℕ)
  | holdingOversize (size buffer : ℕ)
  /-- The oversize chunk is committed; `buffer_lock_` is released next. -/
  | oversizeUnlock (buffer : ℕ) (payload : List UInt8)
  /-- The parent is committed next. -/
  | oversizeParent (payload : List UInt8)
  /-- `~log_tls_info`: the array is locked for writing next. -/
  | exitLock
  | exitBuffers
  /-- The current block is marked finished and removed next. -/
  | exitBlock
  /-- The mark of the finished thread is committed next. -/
  | exitCommit
  | finished
  deriving DecidableEq, Repr

/-- `log_tls_buffer_info`. -/
structure Tls where
  lastUpdateEpochMs : ℕ
  updateTimes : ℕ
  curBlock : Option ℕ
  writeSeq : ℕ
  readSeq : ℕ
  pc : WriterPc
  deriving DecidableEq, Repr

def Tls.fresh : Tls := ⟨0, 0, none, 0, 0, .idle⟩

/-! ## The reader -/

/-- `context_verify_result`. -/
inductive VerifyResult
  | valid
  | versionPending
  | versionInvalid
  | seqPending
  | seqInvalid
  deriving DecidableEq, Repr

/-- `read_state`. -/
inductive ReadState
  | lpBufferReading
  | hpBlockReading
  | nextBlockFinding
  | nextGroupFinding
  | traversalCompleted
  deriving DecidableEq, Repr

/-- A chunk in the hands of the caller of `read_chunk`. -/
inductive ReadChunk
  | lp (context : Context)
  | hp (context : Context)
  | oversize (context : Context) (buffer : ℕ)
  deriving DecidableEq, Repr

/-- The context of a chunk that was handed out. -/
def ReadChunk.context : ReadChunk → Context
  | lp c => c
  | hp c => c
  | oversize c _ => c

/-- Where the reader stands. -/
inductive ReaderPc
  | idle
  /-- The `switch` of `read_chunk_full_impl`. -/
  | loop
  /-- `rt_read_oversize_chunk`: the array is locked for reading next. -/
  | oversizeLock (parent : Context)
  /-- The array is locked; its `i`-th buffer is searched next. -/
  | oversizeSearch (parent : Context) (i : ℕ)
  /-- `rt_recycle_oversize_buffers`: are any buffers due? -/
  | recycleCheck
  | recycleLock
  /-- The array is locked for writing; the `i`-th buffer from the front was the last one visited. -/
  | recycle (i : ℕ)
  /-- `rt_try_traverse_to_next_block_in_group`: the next block is known, the current one is left. -/
  | leaveBlock (next : Option ℕ)
  /-- The next block is entered. -/
  | enterBlock (next : ℕ)
  /-- `rt_try_traverse_to_next_group`: the next group is known, the current one is left. -/
  | leaveGroup (next : Option ℕ)
  /-- No block of the current group is in use. On the way to it the pointer to the group `held` is locked for
  writing, and the pointer behind it is locked next. -/
  | lockGroup (next held : Option ℕ)
  /-- The pointer to the current group is locked; its lists are inspected next. -/
  | checkGroup (next : Option ℕ)
  /-- `delete_and_unlock_thread_unsafe`: the pointer behind the current group is locked next, and the group is
  unlinked. -/
  | unlinkGroup (next : Option ℕ)
  /-- The group is unlinked and its pointer is released; it is pushed to the pool next. -/
  | pushPool (next : Option ℕ)
  /-- `read_chunk` handed out a chunk. -/
  | holding (chunk : ReadChunk)
  /-- `read_chunk` returned `err_empty_log_buffer`. -/
  | empty
  /-- The oversize chunk is returned; its parent is returned next. -/
  | returnParent
  /-- A missing recovery record was dereferenced. -/
  | crashed
  deriving DecidableEq, Repr

/-- One of the maps of `recovery_records_`: from the threads to the next expected number. -/
abbrev RecoveryMap := ℕ → Option ℕ

/-- `current_reading_` and `mem_optimize_`. `hpHandle` counts the chunks left in `hp_handle_cache_`,
`none` when its result is not success. -/
structure Reader where
  pc : ReaderPc
  lastGroup : Option ℕ
  curGroup : Option ℕ
  lastBlock : Option ℕ
  curBlock : Option ℕ
  version : Version
  isInRecoveryReading : Bool
  recoveryRecords : List RecoveryMap
  state : ReadState
  traverseEndBlockIsWorking : Bool
  traverseEndBlock : Option ℕ
  hpHandle : Option ℕ
  oversizeTarget : Option ℕ
  leftHolesNum : ℕ
  curGroupUsingBlocksNum : ℕ
  isBlockMarkedRemoved : Bool
  verifyResult : VerifyResult

/-! ## States -/

/-- Who holds a lock of the array of oversize buffers. -/
inductive Party
  | writer (t : ℕ)
  | reader
  deriving DecidableEq, Repr

/-- A chunk handed to the reader: its context, the size of the handle and the bytes of the chunk. -/
structure Delivery where
  context : Context
  size : ℕ
  payload : List UInt8
  deriving DecidableEq, Repr

/-- The log buffer, its threads and the history. -/
structure State where
  version : Version
  hpBufferMaxAllocSize : ℕ
  lp : List Slot
  groups : List ℕ
  pool : List ℕ
  removed : List ℕ
  groupIndex : ℕ
  group : ℕ → Group
  block : ℕ → Block
  headLock : Option ℕ
  poolLock : Option ℕ
  oversize : List OversizeBuffer
  oversizeIndex : ℕ
  arrayWriter : Option Party
  arrayReaders : List Party
  tls : ℕ → Tls
  rt : Reader
  committed : ℕ → List (List UInt8)
  delivered : List Delivery
  missed : Bool

namespace State

variable (s : State)

/-- The groups that are not linked. -/
def spares : List ℕ := s.pool ++ s.removed

/-- The group to which the pointer leads that the reader has locked for writing. -/
def rtLocked : Option ℕ :=
  match s.rt.pc with
  | .lockGroup _ held => held
  | .checkGroup _ | .unlinkGroup _ => s.rt.curGroup
  | _ => none

def setTls (t : ℕ) (th : Tls) : State := { s with tls := Function.update s.tls t th }

def goto (t : ℕ) (pc : WriterPc) : State := s.setTls t { s.tls t with pc := pc }

def setBlock (b : ℕ) (blk : Block) : State := { s with block := Function.update s.block b blk }

def setGroup (g : ℕ) (grp : Group) : State := { s with group := Function.update s.group g grp }

/-- `mark_block_removed`. -/
def markBlockRemoved (b : ℕ) : State := s.setBlock b { s.block b with isRemoved := true }

/-- Change the slots of the low-performance ring. -/
def mapSlots (f : Slot → Slot) : State := { s with lp := s.lp.map f }

/-- Thread `t` commits a record. -/
def logCommit (t : ℕ) (payload : List UInt8) : State :=
  { s with committed := Function.update s.committed t (s.committed t ++ [payload]) }

/-- The entry of the recovery records for a thread of an older version. -/
def recoveryRecord (v : Version) (t : ℕ) : Option ℕ :=
  (s.rt.recoveryRecords[(s.version - 1 - v).toNat]?).bind (· t)

end State

end QLog.LogBuffer
