import QLog.Buffer.LogBuffer.Defs

/-!
# The writers

`alloc_write_chunk`, `commit_write_chunk` and the end of a thread, as atomic steps of thread `t`.
Whether a ring has room, and whether an oversize buffer can be created, is chosen by the environment
(`Choice`). A step makes at most one access to data that another thread changes; the release of a lock
belongs to the last access made under it.
-/

namespace QLog.LogBuffer

/-- The answer of a ring, or of the file system, to an allocation. -/
inductive Choice
  | ok
  /-- `err_not_enough_space`. -/
  | full
  /-- `err_alloc_size_invalid`. -/
  | sizeInvalid
  /-- The reservation runs over the end of the ring and is left behind. -/
  | overEnd
  deriving DecidableEq, Repr

variable (cfg : Config)

/-! ## Entering `alloc_write_chunk` -/

/-- The frequency test: the new thread-local data and `is_high_frequency`. -/
def updateFrequency (th : Tls) (epochMs : ℕ) : Tls × Bool :=
  let due := (th.lastUpdateEpochMs + 1000) % 2 ^ 64 ≤ epochMs
  let high := th.curBlock.isSome && !(due && th.updateTimes < cfg.highFrequencyThreshold)
  let th := if due then { th with lastUpdateEpochMs := epochMs, updateTimes := 0 } else th
  let times := (th.updateTimes + 1) % 2 ^ 64
  if cfg.highFrequencyThreshold ≤ times then
    ({ th with lastUpdateEpochMs := epochMs, updateTimes := 0 }, true)
  else ({ th with updateTimes := times }, high)

/-- The branch that `alloc_write_chunk` takes. -/
def allocPath (s : State) (isHighFrequency : Bool) (call : Call) : WriterPc :=
  if !isHighFrequency then .lpAlloc (.record call)
  else if s.hpBufferMaxAllocSize < call.size then .oversizeStart call
  else .hpStart call

/-- `alloc_write_chunk` up to its first access to shared data. -/
def callAlloc (s : State) (t : ℕ) (call : Call) : State :=
  let r := updateFrequency cfg (s.tls t) call.epochMs
  s.setTls t { r.1 with pc := allocPath s r.2 call }

/-! ## Pieces of the steps -/

/-- `current_write_seq_++`, and on to `pc`, which gets the number taken. -/
def takeSeq (s : State) (t : ℕ) (pc : ℕ → WriterPc) : State :=
  let th := s.tls t
  s.setTls t { th with writeSeq := add32 th.writeSeq 1, pc := pc th.writeSeq }

/-- Mark the current block removed. -/
def removeCurBlock (s : State) (t : ℕ) : State :=
  match (s.tls t).curBlock with
  | none => s
  | some b => s.markBlockRemoved b

/-- Mark the current block removed and forget it. -/
def dropCurBlock (s : State) (t : ℕ) (pc : WriterPc) : State :=
  (removeCurBlock s t).setTls t { s.tls t with curBlock := none, pc := pc }

/-- `set_misc_data` and `renew` of the block that `alloc_new_block` got, for the number `seq`. -/
def initBlock (s : State) (t b seq : ℕ) : State :=
  s.setBlock b ⟨false, false, ⟨s.version, false, false, seq, t⟩, []⟩

/-- Leave the group whose pointer is locked. -/
def unlockGroup (s : State) (g t : ℕ) : State :=
  s.setGroup g { s.group g with readers := (s.group g).readers.erase t }

/-- `alloc_new_hp_block` up to its first access to shared data. -/
def allocNewHpBlock (s : State) (t : ℕ) (call : Call) : State :=
  takeSeq s t fun seq => .lockNext call seq none

/-- Reserve a chunk of the low-performance ring. -/
def reserveSlot (s : State) (t : ℕ) : State :=
  { s with lp := s.lp ++ [.reserved t] }

/-- The chunk size that a use of the low-performance ring asks for. -/
def LpUse.size : LpUse → ℕ
  | record call => (call.size + contextSize) % 2 ^ 32
  | parent _ => contextSize
  | finish => contextSize

/-- The context that goes with a use of the low-performance ring. -/
def LpUse.context (use : LpUse) (s : State) (t : ℕ) : Context :=
  ⟨s.version, use matches .finish, use matches .parent _, (s.tls t).writeSeq, t⟩

/-- The reservation of a thread becomes a chunk that it writes. -/
def Slot.grant (t size : ℕ) (c : Context) : Slot → Slot
  | reserved owner => if owner = t then granted t size c else reserved owner
  | sl => sl

/-- The reservation of a thread is left behind. -/
def Slot.leave (t : ℕ) : Slot → Slot
  | reserved owner => if owner = t then void else reserved owner
  | sl => sl

/-- The chunk that a thread writes is committed with the bytes `data` behind its context. -/
def Slot.commit (t : ℕ) (data : List UInt8) : Slot → Slot
  | granted owner size c =>
    if owner = t then committed size c (data.take (size - contextSize)) else granted owner size c
  | sl => sl

/-- The chunk that a thread writes is committed with a version that nobody reads. -/
def Slot.abort (t : ℕ) (v : Version) : Slot → Slot
  | granted owner size c =>
    if owner = t then committed size { c with version := v } [] else granted owner size c
  | sl => sl

/-- The reservation is granted: the context is written and the number taken. -/
def grantSlot (s : State) (t : ℕ) (use : LpUse) (pc : WriterPc) : State :=
  takeSeq (s.mapSlots (Slot.grant t use.size (use.context s t))) t fun _ => pc

/-- The context of the oversize chunk that goes with the parent. -/
def oversizeContext (s : State) (t : ℕ) : Context :=
  ⟨s.version, false, true, sub32 (s.tls t).writeSeq 1, t⟩

/-- `wt_alloc_oversize_write_chunk` passes over a buffer of a finished thread, of another thread or of
another version. -/
def oversizeSuits (s : State) (t : ℕ) (buf : OversizeBuffer) : Bool :=
  !buf.isThreadFinished && buf.context.version == s.version && buf.context.tls == t

/-- Add to the readers of the `i`-th oversize buffer. -/
def lockOversize (s : State) (i t : ℕ) : State :=
  { s with oversize := s.oversize.modify i fun buf => { buf with readers := t :: buf.readers } }

/-- Change the oversize buffer of a given name. -/
def modifyOversize (s : State) (index : ℕ) (f : OversizeBuffer → OversizeBuffer) : State :=
  { s with oversize := s.oversize.map fun buf => if buf.index = index then f buf else buf }

/-- `emplace_back` of a new buffer, with its context and its lock. -/
def emplaceOversize (s : State) (t : ℕ) : State :=
  { s with
    oversizeIndex := s.oversizeIndex + 1
    oversize := s.oversize ++
      [⟨s.oversizeIndex + 1, ⟨s.version, false, true, 2 ^ 32 - 1, t⟩, false, [t], []⟩] }

/-- `~log_tls_info`: the buffers of the thread are marked finished. -/
def finishOversize (s : State) (t : ℕ) : State :=
  { s with oversize := s.oversize.map fun buf =>
      if buf.context.tls = t ∧ buf.context.version = s.version then
        { buf with isThreadFinished := true }
      else buf }

/-! ## Steps -/

/-- The next group node of the writer that puts one in front: from the pool, or a new one. -/
def State.spareGroup (s : State) : ℕ := s.pool.headD (s.groupIndex + 1)

/-- Put a group node in front, and release the pool. -/
def linkGroup (s : State) : State :=
  let g := s.spareGroup
  match s.pool with
  | [] => { s with
      poolLock := none, groupIndex := g, group := Function.update s.group g (Group.fresh g)
      groups := g :: s.groups }
  | _ :: rest => { s with poolLock := none, pool := rest, groups := g :: s.groups }

/-- A writer takes the block `b` from the free list of `g`, on which `rest` follows it. -/
def takeBlock (s : State) (t : ℕ) (call : Call) (seq g b : ℕ) (rest : List ℕ) (head : Bool) : State :=
  (initBlock (s.setGroup g { s.group g with free := rest }) t b seq).goto t (.pushStage call g b head)

/-- The block of a writer is staged and becomes its current block. -/
def stageBlock (s : State) (t : ℕ) (call : Call) (g b : ℕ) (head : Bool) : State :=
  let grp := s.group g
  let s' :=
    if head then
      { s.setGroup g { grp with stage := b :: grp.stage } with headLock := none }
    else s.setGroup g { grp with stage := b :: grp.stage, readers := grp.readers.erase t }
  { s' with
    hpBufferMaxAllocSize :=
      if s.hpBufferMaxAllocSize = 2 ^ 32 - 1 then cfg.blockMaxAlloc
      else s.hpBufferMaxAllocSize }.setTls t
    { s.tls t with curBlock := some b, pc := .hpAlloc call }

/-- `alloc_new_hp_block` of thread `t`. -/
def newBlockStep (s : State) (t : ℕ) : Option State :=
  match (s.tls t).pc with
  | .lockNext call seq none =>
    match s.headLock, s.groups with
    | some _, _ => none
    | none, [] => some (s.goto t (.lockHead call seq))
    | none, g :: _ =>
      if s.rtLocked = some g then none
      else
        some ((s.setGroup g { s.group g with readers := t :: (s.group g).readers }).goto t
          (.popFree call seq g))
  | .lockNext call seq (some g) =>
    -- the pointer behind `g` is locked before the pointer to `g` is released
    match nextOf s.groups g with
    | none => some ((unlockGroup s g t).goto t (.lockHead call seq))
    | some h =>
      if s.rtLocked = some h then none
      else
        let s' := s.setGroup h { s.group h with readers := t :: (s.group h).readers }
        some ((unlockGroup s' g t).goto t (.popFree call seq h))
  | .popFree call seq g =>
    match (s.group g).free with
    | [] => some (s.goto t (.lockNext call seq (some g)))
    | b :: rest => some (takeBlock s t call seq g b rest false)
  | .lockHead call seq =>
    if s.headLock = none ∧ ∀ g ∈ s.groups.head?, (s.group g).readers = [] ∧ s.rtLocked ≠ some g then
      some ({ s with headLock := some t }.goto t (.popHead call seq))
    else none
  | .popHead call seq =>
    match s.groups.head? with
    | none =>
      if s.poolLock = none then
        some ({ s with poolLock := some t }.goto t (.newGroup call seq))
      else none
    | some g =>
      match (s.group g).free with
      | [] =>
        if s.poolLock = none then
          some ({ s with poolLock := some t }.goto t (.newGroup call seq))
        else none
      | b :: rest => some (takeBlock s t call seq g b rest true)
  | .newGroup call seq =>
    match ((linkGroup s).group s.spareGroup).free with
    | [] => none
    | b :: rest => some (takeBlock (linkGroup s) t call seq s.spareGroup b rest true)
  | .pushStage call g b head => some (stageBlock cfg s t call g b head)
  | _ => none

/-- The high-performance branch of `alloc_write_chunk`. -/
def hpStep (s : State) (t : ℕ) (c : Choice) : Option State :=
  match (s.tls t).pc with
  | .hpStart call =>
    match (s.tls t).curBlock with
    | none => some (allocNewHpBlock s t call)
    | some b =>
      if (s.block b).needReallocate then some (allocNewHpBlock (s.markBlockRemoved b) t call)
      else some (s.goto t (.hpAlloc call))
  | .hpAlloc call =>
    match c with
    | .ok => some (s.goto t (.holdingHp call.size))
    | .full =>
      some (s.goto t (if cfg.policy = .autoExpandWhenFull then .hpFull call else .idle))
    | .sizeInvalid => some (s.goto t (if 0 < call.size then .oversizeStart call else .idle))
    | .overEnd => none
  | .hpFull call => some (allocNewHpBlock (removeCurBlock s t) t call)
  | _ => none

/-- A refusal of the low-performance ring. -/
def lpFailedStep (s : State) (t : ℕ) (use : LpUse) (sizeInvalid : Bool) : State :=
  match use with
  | .record call =>
    if !sizeInvalid && cfg.policy = .autoExpandWhenFull then
      s.setTls t { s.tls t with
        lastUpdateEpochMs := call.epochMs, updateTimes := 0, pc := .hpStart call }
    else
      dropCurBlock s t (if sizeInvalid && 0 < call.size then .oversizeStart call else .idle)
  | .parent _ => s.goto t .idle
  | .finish => s.goto t (.lpAlloc .finish)

/-- The steps in the low-performance ring. -/
def lpStep (s : State) (t : ℕ) (c : Choice) : Option State :=
  match (s.tls t).pc with
  | .lpAlloc use =>
    match c with
    | .ok => some ((reserveSlot s t).goto t (.lpReserved use))
    | .full => some (s.goto t (.lpFailed use false))
    | .sizeInvalid => some (s.goto t (.lpFailed use true))
    | .overEnd => none
  | .lpReserved use =>
    match c with
    | .ok =>
      some (grantSlot s t use
        (match use with
          | .record call => .lpGranted call
          | .parent call => .oversizeLock call
          | .finish => .exitCommit))
    | .overEnd =>
      some ((s.mapSlots (Slot.leave t)).goto t (.lpAlloc use))
    | .full =>
      -- the compare-exchange succeeds only while the reservation is the last one
      if s.lp.getLast? = some (.reserved t) then
        some ({ s with lp := s.lp.dropLast }.goto t (.lpFailed use false))
      else none
    | .sizeInvalid => none
  | .lpFailed use sizeInvalid => some (lpFailedStep cfg s t use sizeInvalid)
  | .lpGranted call => some (dropCurBlock s t (.holdingLp call.size))
  | _ => none

/-- `wt_alloc_oversize_write_chunk` and the rest of `wt_commit_oversize_write_chunk`. -/
def oversizeStep (s : State) (t : ℕ) (c : Choice) : Option State :=
  match (s.tls t).pc with
  | .oversizeStart call => some (dropCurBlock s t (.lpAlloc (.parent call)))
  | .oversizeLock call =>
    if s.arrayWriter = none then
      some ({ s with arrayReaders := .writer t :: s.arrayReaders }.goto t (.oversizeSearch call 0))
    else none
  | .oversizeSearch call i =>
    match s.oversize[i]? with
    | none =>
      some ({ s with arrayReaders := s.arrayReaders.erase (.writer t) }.goto t (.oversizeGrow call))
    | some buf =>
      if oversizeSuits s t buf ∧ c = .ok then
        some ({ lockOversize s i t with arrayReaders := s.arrayReaders.erase (.writer t) }.goto t
          (.holdingOversize call.size buf.index))
      else some (s.goto t (.oversizeSearch call (i + 1)))
  | .oversizeGrow call =>
    if s.arrayWriter = none ∧ s.arrayReaders = [] then
      some ({ s with arrayWriter := some (.writer t) }.goto t (.oversizeCreate call))
    else none
  | .oversizeCreate call =>
    match c with
    | .ok =>
      some ({ emplaceOversize s t with arrayWriter := none }.goto t
        (.holdingOversize call.size (s.oversizeIndex + 1)))
    | _ =>
      -- the index is used up whether or not the buffer could be created
      some ({ s with arrayWriter := none, oversizeIndex := s.oversizeIndex + 1 }.goto t
        .oversizeAbort)
  | .oversizeAbort =>
    some ((s.mapSlots (Slot.abort t (s.version + 1))).setTls t
      { s.tls t with writeSeq := sub32 (s.tls t).writeSeq 1, pc := .idle })
  | .oversizeUnlock buffer payload =>
    some ((modifyOversize s buffer fun buf => { buf with readers := buf.readers.erase t }).goto t
      (.oversizeParent payload))
  | .oversizeParent payload =>
    some (((s.mapSlots (Slot.commit t [])).logCommit t payload).goto t .idle)
  | _ => none

/-- The end of a thread. -/
def exitStep (s : State) (t : ℕ) : Option State :=
  match (s.tls t).pc with
  | .exitLock =>
    if s.arrayWriter = none ∧ s.arrayReaders = [] then
      some ({ s with arrayWriter := some (.writer t) }.goto t .exitBuffers)
    else none
  | .exitBuffers =>
    some ({ finishOversize s t with arrayWriter := none }.goto t
      (if (s.tls t).curBlock.isSome then .exitBlock else .lpAlloc .finish))
  | .exitBlock =>
    match (s.tls t).curBlock with
    | none => none
    | some b =>
      let blk := s.block b
      some ((s.setBlock b { blk with
        isRemoved := true, context := { blk.context with isThreadFinished := true } }).goto t
        .finished)
  | .exitCommit => some ((s.mapSlots (Slot.commit t [])).goto t .finished)
  | _ => none

/-- `commit_write_chunk` of a chunk that was allocated. -/
def commitWriteChunk (s : State) (t : ℕ) (payload : List UInt8) : Option State :=
  match (s.tls t).pc with
  | .holdingHp size =>
    match (s.tls t).curBlock with
    | none => none
    | some b =>
      if payload.length = size then
        let blk := s.block b
        some (((s.setBlock b { blk with records := blk.records ++ [payload] }).logCommit t
          payload).goto t .idle)
      else none
  | .holdingLp size =>
    if payload.length = size then
      some (((s.mapSlots (Slot.commit t payload)).logCommit t payload).goto t .idle)
    else none
  | .holdingOversize size buffer =>
    if payload.length = size then
      let chunkSize := (size + contextSize) % 2 ^ 32
      some ((modifyOversize s buffer fun buf =>
        { buf with chunks := buf.chunks ++
            [⟨chunkSize, oversizeContext s t, payload.take (chunkSize - contextSize)⟩] }).goto t
        (.oversizeUnlock buffer payload))
    else none
  | _ => none

/-- One step of thread `t` inside one of its calls. -/
def writerStep (s : State) (t : ℕ) (c : Choice) : Option State :=
  match (s.tls t).pc with
  | .hpStart _ | .hpAlloc _ | .hpFull _ => hpStep cfg s t c
  | .lockNext _ _ _ | .popFree _ _ _ | .lockHead _ _ | .popHead _ _ | .newGroup _ _
  | .pushStage _ _ _ _ => newBlockStep cfg s t
  | .lpAlloc _ | .lpReserved _ | .lpFailed _ _ | .lpGranted _ => lpStep cfg s t c
  | .oversizeStart _ | .oversizeLock _ | .oversizeSearch _ _ | .oversizeGrow _
  | .oversizeCreate _ | .oversizeAbort | .oversizeUnlock _ _ | .oversizeParent _ =>
    oversizeStep s t c
  | .exitLock | .exitBuffers | .exitBlock | .exitCommit => exitStep s t
  | _ => none

end QLog.LogBuffer
