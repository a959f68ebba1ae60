import QLog.Buffer.LogBuffer.Defs

/-!
# The reader

`read_chunk`, the state machine of `read_chunk_full_impl`, and `return_read_chunk`, as atomic steps. The
reader works through the low-performance ring, then through the blocks of all groups, and starts over,
until it meets the end mark: the place where it last found something to do. Whether an oversize buffer
has been unused for long enough is chosen by the environment (`due`).
-/

namespace QLog.LogBuffer

/-! ## Contexts -/

namespace State

variable (s : State)

def setReader (r : Reader) : State := { s with rt := r }

/-- `is_version_valid`. -/
def isVersionValid (v : Version) : Prop := s.version - v ≤ s.version - s.rt.version

instance (v : Version) : Decidable (s.isVersionValid v) := inferInstanceAs (Decidable (_ ≤ _))

/-- `verify_context`; `none` when the thread of the context is missing in the recovery records. -/
def verifyContext (c : Context) : Option VerifyResult :=
  if c.version = s.rt.version then
    if c.version = s.version then
      some (if c.seq = (s.tls c.tls).readSeq then .valid else .seqPending)
    else
      (s.recoveryRecord c.version c.tls).map fun expected =>
        if c.seq = expected then .valid
        else if c.seq < expected then .seqInvalid else .seqPending
  else if s.isVersionValid c.version then some .versionPending
  else some .versionInvalid

/-- `verify_oversize_context`. -/
def verifyOversizeContext (parent c : Context) : VerifyResult :=
  if parent.version = c.version then
    if parent.seq = c.seq then .valid
    else if parent.seq < c.seq then .seqPending else .seqInvalid
  else if parent.version < c.version then
    if s.isVersionValid c.version then .versionPending else .versionInvalid
  else .versionInvalid

end State

/-- `refresh_traverse_end_mark`. -/
def Reader.refreshTraverseEndMark (r : Reader) : Reader :=
  if r.isBlockMarkedRemoved ∧ r.curBlock.isSome then { r with traverseEndBlockIsWorking := false }
  else { r with traverseEndBlockIsWorking := true, traverseEndBlock := r.curBlock }

/-- The counter of a context that has been dealt with moves on. -/
def countSeq (s : State) (c : Context) : State :=
  if c.version = s.version then
    -- the data of a finished thread is deleted
    if c.isThreadFinished then s
    else s.setTls c.tls { s.tls c.tls with readSeq := add32 (s.tls c.tls).readSeq 1 }
  else
    let i := (s.version - 1 - c.version).toNat
    let count (m : RecoveryMap) : RecoveryMap :=
      Function.update m c.tls (some (add32 ((m c.tls).getD 0) 1))
    { s with
      rt := { s.rt with recoveryRecords := s.rt.recoveryRecords.modify i count }
      missed := s.missed || (s.recoveryRecord c.version c.tls).isNone }

/-- `deregister_seq`. -/
def deregisterSeq (s : State) (c : Context) : State :=
  let s' := countSeq s c
  s'.setReader s'.rt.refreshTraverseEndMark

/-- `rt_try_traverse_to_next_version`. -/
def tryTraverseToNextVersion (s : State) : State :=
  let i := (s.version - 1 - s.rt.version).toNat
  { s with
    rt := { s.rt with
      recoveryRecords := s.rt.recoveryRecords.set i fun _ => none
      version := s.rt.version + 1
      isInRecoveryReading := s.rt.version + 1 ≠ s.version }
    missed := s.missed || decide (s.rt.recoveryRecords.length ≤ i) }

/-- The end iterator of a recovery map is dereferenced. -/
def crash (s : State) : State := { s with rt := { s.rt with pc := .crashed }, missed := true }

/-- Go on with the loop of `read_chunk_full_impl`. -/
def gotoReader (s : State) (pc : ReaderPc) : State := s.setReader { s.rt with pc := pc }

def setReadState (s : State) (st : ReadState) : State := s.setReader { s.rt with state := st }

/-- Hand out a chunk. -/
def handOut (s : State) (chunk : ReadChunk) (size : ℕ) (payload : List UInt8) : State :=
  { s with
    rt := { s.rt with pc := .holding chunk }
    delivered := s.delivered ++ [⟨chunk.context, size, payload⟩] }

/-! ## The low-performance ring and the oversize buffers -/

/-- Pass over the first chunk of the low-performance ring. -/
def popSlot (s : State) : State := { s with lp := s.lp.tail }

/-- `rt_read_from_lp_buffer` returns false. -/
def lpNothing (s : State) : State :=
  gotoReader (setReadState s .nextGroupFinding) .recycleCheck

/-- `rt_read_from_lp_buffer` at a committed chunk. -/
def readSlot (s : State) (size : ℕ) (c : Context) (data : List UInt8) : State :=
  match s.verifyContext c with
  | none => crash s
  | some .valid =>
    if c.isThreadFinished then popSlot (deregisterSeq s c)
    else if c.isExternalRef then gotoReader s (.oversizeLock c)
    else handOut s (.lp c) (sub32 size contextSize) data
  | some .versionInvalid | some .seqInvalid => popSlot s
  | some .versionPending | some .seqPending => lpNothing s

/-- One round of `rt_read_from_lp_buffer`. -/
def readFromLpBuffer (s : State) : State :=
  match s.lp with
  | [] | .reserved _ :: _ | .granted _ _ _ :: _ => lpNothing s
  | .void :: _ => popSlot s
  | .committed size c data :: _ => readSlot s size c data

/-- One round of `rt_read_oversize_chunk`, under the lock of the array. -/
def readOversizeChunk (s : State) (parent : Context) (i : ℕ) : State :=
  let unlocked := { s with arrayReaders := s.arrayReaders.erase .reader }
  match s.oversize[i]? with
  | none => gotoReader (popSlot (deregisterSeq unlocked parent)) .loop
  | some buf =>
    if buf.context.version ≠ parent.version ∨ buf.context.tls ≠ parent.tls then
      gotoReader s (.oversizeSearch parent (i + 1))
    else
      match buf.chunks with
      | [] => gotoReader s (.oversizeSearch parent (i + 1))
      | c :: rest =>
        match s.verifyOversizeContext parent c.context with
        | .valid =>
          handOut { unlocked with rt := { s.rt with oversizeTarget := some buf.index } }
            (.oversize c.context buf.index) (sub32 c.size contextSize) c.data
        | .versionInvalid | .seqInvalid =>
          { s with oversize := s.oversize.set i { buf with chunks := rest } }
        | .versionPending | .seqPending => gotoReader s (.oversizeSearch parent (i + 1))

/-- The loop of `rt_recycle_oversize_buffers` over the chunks of a buffer: what is left of them, `none`
when a recovery record is missing. -/
def drainChunks (s : State) : List OversizeChunk → Option (List OversizeChunk)
  | [] => some []
  | c :: rest =>
    match s.verifyContext c.context with
    | none => none
    | some .versionInvalid | some .seqInvalid => drainChunks s rest
    | some .valid | some .versionPending | some .seqPending => some (c :: rest)

/-- `erase_replace`: the last element takes the place of the `i`-th. -/
def eraseReplace (l : List OversizeBuffer) (i : ℕ) : List OversizeBuffer :=
  match l.getLast? with
  | none => l
  | some last => (l.set i last).dropLast

/-- `rt_recycle_oversize_buffers` at one buffer, under the lock of the array. -/
def recycleOversizeBuffer (s : State) (i : ℕ) : State :=
  match s.oversize[i]? with
  | none => gotoReader s (.recycle i)
  | some buf =>
    if s.rt.oversizeTarget = some buf.index ∨ buf.readers ≠ [] then gotoReader s (.recycle i)
    else
      match drainChunks s buf.chunks with
      | none => crash s
      | some [] => gotoReader { s with oversize := eraseReplace s.oversize i } (.recycle i)
      | some rest =>
        gotoReader { s with oversize := s.oversize.set i { buf with chunks := rest } } (.recycle i)

/-! ## Blocks and groups -/

/-- `hp_block_reading`: a batch of everything committed, and its first chunk. -/
def readHpBlock (s : State) (b : ℕ) : State :=
  match (s.block b).records with
  | [] => setReadState (s.setReader { s.rt with hpHandle := none }) .nextBlockFinding
  | payload :: rest =>
    handOut ((s.setBlock b { s.block b with records := rest }).setReader
      { s.rt with hpHandle := some rest.length }) (.hp (s.block b).context) payload.length payload

/-- The first part of `rt_try_traverse_to_next_block_in_group`: the next block, taken from the staged
ones if need be. -/
def findNextBlock (s : State) (g : ℕ) : State :=
  let grp := s.group g
  let inGroup := s.rt.curBlock.filter (groupOf · = g)
  let next :=
    match inGroup with
    | some b => nextOf grp.used b
    | none => grp.used.head?
  match next with
  | some b => gotoReader s (.leaveBlock (some b))
  | none =>
    match grp.stage with
    | [] => gotoReader s (.leaveBlock none)
    | b :: rest =>
      gotoReader (s.setGroup g { grp with stage := rest, used := pushAfter grp.used inGroup b })
        (.leaveBlock (some b))

/-- `recycle_block_thread_unsafe` of the current block. -/
def recycleBlock (s : State) (g b : ℕ) : State :=
  let grp := s.group g
  s.setGroup g { grp with
    used := removeAfter grp.used (s.rt.lastBlock.filter (groupOf · = g)) b, free := b :: grp.free }

/-- `deregister_seq` of the current block if it was found valid. -/
def deregisterIfValid (s : State) (b : ℕ) : State :=
  if s.rt.verifyResult = .valid then deregisterSeq s (s.block b).context else s

/-- The end of the second part: on to the next block, or to the next group. -/
def goOn (s : State) (blockRemoved : Bool) (next : Option ℕ) : State :=
  match next with
  | some b => gotoReader s (.enterBlock b)
  | none => s.setReader { s.rt with
      curBlock := if blockRemoved then s.rt.lastBlock else s.rt.curBlock
      isBlockMarkedRemoved := false
      verifyResult := .versionInvalid
      state := .nextGroupFinding
      pc := .loop }

/-- The second part: the current block, if it lies in the group, is recycled or counted. -/
def leaveBlock (s : State) (g : ℕ) (next : Option ℕ) : State :=
  match s.rt.curBlock.filter (groupOf · = g) with
  | some b =>
    if s.rt.isBlockMarkedRemoved then goOn (recycleBlock (deregisterIfValid s b) g b) true next
    else
      goOn (s.setReader { s.rt with
        curGroupUsingBlocksNum := (s.rt.curGroupUsingBlocksNum + 1) % 2 ^ 16
        lastBlock := some b }) false next
  | none =>
    goOn (if s.rt.curBlock = none then s.setReader { s.rt with lastBlock := none } else s) false next

/-- What the end mark becomes when a block is entered, and the version with it. -/
def meetEndMark (s : State) (v : VerifyResult) (b : ℕ) : State :=
  let r := s.rt
  if v = .seqPending ∧ r.version = s.version then
    s.setReader { r with traverseEndBlockIsWorking := false }
  else if r.traverseEndBlockIsWorking ∧ r.traverseEndBlock = some b then
    if r.version = s.version then setReadState s .traversalCompleted else tryTraverseToNextVersion s
  else if ¬ r.traverseEndBlockIsWorking ∧ ¬ r.isBlockMarkedRemoved then
    s.setReader { r with traverseEndBlockIsWorking := true, traverseEndBlock := some b }
  else s

/-- `is_block_marked_removed` for a block that was verified. -/
def markedRemoved (s : State) (v : VerifyResult) (b : ℕ) : Bool :=
  (v == .valid && ((s.block b).isRemoved || (s.block b).context.version != s.version)) ||
    v == .versionInvalid || v == .seqInvalid

/-- The last part of `rt_try_traverse_to_next_block_in_group`: the block `b` becomes current. -/
def arriveAt (s : State) (v : VerifyResult) (b : ℕ) : State :=
  let hole := decide (0 < s.rt.leftHolesNum)
  (s.setBlock b { s.block b with needReallocate := (s.block b).needReallocate || hole }).setReader
    { s.rt with
      isBlockMarkedRemoved := markedRemoved s v b
      verifyResult := v
      leftHolesNum := s.rt.leftHolesNum - 1
      curBlock := some b }

/-- The rest of `next_block_finding` when a block was found. -/
def enterBlock (s : State) (b : ℕ) : State :=
  match s.verifyContext (s.block b).context with
  | none => crash s
  | some v =>
    let s' := meetEndMark (arriveAt s v b) v b
    let st := if v = .valid ∧ s'.rt.state ≠ .traversalCompleted then .hpBlockReading else s'.rt.state
    s'.setReader { s'.rt with state := st, pc := .loop }

/-- The lock of the pointer to a group can be taken for writing. -/
def State.CanLock (s : State) (g : ℕ) : Prop :=
  (s.group g).readers = [] ∧ (s.groups.head? = some g → s.headLock = none)

instance (s : State) (g : ℕ) : Decidable (s.CanLock g) := inferInstanceAs (Decidable (_ ∧ _))

/-- The reader goes on to the next group, or to the low-performance ring. -/
def enterGroup (s : State) (next : Option ℕ) : State :=
  match next with
  | some g => s.setReader { s.rt with
      curGroup := some g, state := .nextBlockFinding, pc := .loop }
  | none =>
    let s' := s.setReader { s.rt with
      leftHolesNum := 0, curBlock := none, lastBlock := none, curGroup := none,
      state := .lpBufferReading, pc := .loop }
    let r := s'.rt
    if ¬ r.traverseEndBlockIsWorking then
      s'.setReader { r with traverseEndBlockIsWorking := true, traverseEndBlock := none }
    else if r.traverseEndBlock = none then
      if r.version = s.version then setReadState s' .traversalCompleted
      else tryTraverseToNextVersion s'
    else s'

/-- The current group stays linked. -/
def keepGroup (s : State) (g : ℕ) (next : Option ℕ) : State :=
  enterGroup (s.setReader { s.rt with
    lastGroup := some g
    leftHolesNum :=
      (s.rt.leftHolesNum + (blocksPerGroup - s.rt.curGroupUsingBlocksNum)) % 2 ^ 32
    curGroupUsingBlocksNum := 0 }) next

/-- `rt_try_traverse_to_next_group` after the next group is known. -/
def leaveGroup (s : State) (next : Option ℕ) : State :=
  match s.rt.curGroup with
  | none =>
    enterGroup (s.setReader { s.rt with lastGroup := none, curGroupUsingBlocksNum := 0 }) next
  | some g =>
    if s.rt.curGroupUsingBlocksNum = 0 then gotoReader s (.lockGroup next none)
    else keepGroup s g next

/-- The group to which the pointer leads that is locked next: the pointer behind the group `held`, or else the
one behind `last_group_`, or the head. -/
def lockTarget (s : State) (held : Option ℕ) : Option ℕ :=
  match held, s.rt.lastGroup with
  | some x, _ => nextOf s.groups x
  | none, some l => nextOf s.groups l
  | none, none => s.groups.head?

/-- One pointer further on the way to the current group; the one before it is released. `none` while the lock
is awaited. -/
def lockGroup (s : State) (next held : Option ℕ) : Option State :=
  match lockTarget s held with
  | none => none
  | some x =>
    if s.CanLock x then
      if s.rt.curGroup = some x then some (gotoReader s (.checkGroup next))
      else if s.rt.lastGroup = none then some (gotoReader s (.lockGroup next (some x)))
      -- the assertions about the iterator hold, so that it comes to the current group
      else none
    else none

/-- The lists of the current group are inspected under the lock of the pointer to it. -/
def checkGroup (s : State) (g : ℕ) (next : Option ℕ) : State :=
  if (s.group g).used = [] ∧ (s.group g).stage = [] then gotoReader s (.unlinkGroup next)
  else keepGroup s g next

/-- `delete_and_unlock_thread_unsafe`. The pointer behind the group is locked and released before the group is
unlinked; `none` while that lock is awaited. -/
def unlinkGroup (s : State) (g : ℕ) (next : Option ℕ) : Option State :=
  if ∀ h ∈ nextOf s.groups g, (s.group h).readers = [] then
    some (gotoReader { s with groups := s.groups.erase g, removed := g :: s.removed } (.pushPool next))
  else none

/-- `pool_.push` of the removed group; `none` while the pool is locked. -/
def pushPool (s : State) (g : ℕ) (next : Option ℕ) : Option State :=
  if s.poolLock = none then
    some (enterGroup ({ s with pool := g :: s.pool, removed := s.removed.erase g }.setReader
      { s.rt with curGroupUsingBlocksNum := 0 }) next)
  else none

/-- `traversal_completed`. -/
def completeTraversal (s : State) : State :=
  s.setReader { s.rt with
    state := if s.rt.curBlock.isSome then .hpBlockReading else .lpBufferReading, pc := .empty }

/-! ## Calls -/

/-- One round of the loop of `read_chunk_full_impl`. -/
def readLoop (s : State) : Option State :=
  match s.rt.state with
  | .lpBufferReading => some (readFromLpBuffer s)
  | .hpBlockReading => s.rt.curBlock.map (readHpBlock s)
  | .nextBlockFinding => s.rt.curGroup.map (findNextBlock s)
  | .nextGroupFinding =>
    some (gotoReader s (.leaveGroup
      (match s.rt.curGroup with
        | some g => nextOf s.groups g
        | none => s.groups.head?)))
  | .traversalCompleted => some (completeTraversal s)

/-- One step of the reader inside `read_chunk` or `return_read_chunk`. -/
def readerStep (s : State) (due : Bool) : Option State :=
  match s.rt.pc with
  | .loop => readLoop s
  | .oversizeLock parent =>
    if s.arrayWriter = none then
      some (gotoReader { s with arrayReaders := .reader :: s.arrayReaders } (.oversizeSearch parent 0))
    else none
  | .oversizeSearch parent i => some (readOversizeChunk s parent i)
  | .recycleCheck =>
    some (gotoReader s
      (if s.oversize ≠ [] ∧ s.arrayWriter = none ∧ due then .recycleLock else .loop))
  | .recycleLock =>
    if s.arrayWriter = none ∧ s.arrayReaders = [] then
      some (gotoReader { s with arrayWriter := some .reader } (.recycle s.oversize.length))
    else some (gotoReader s .loop)
  | .recycle 0 => some (gotoReader { s with arrayWriter := none } .loop)
  | .recycle (i + 1) => some (recycleOversizeBuffer s i)
  | .leaveBlock next => s.rt.curGroup.map fun g => leaveBlock s g next
  | .enterBlock b => some (enterBlock s b)
  | .leaveGroup next => some (leaveGroup s next)
  | .lockGroup next held => lockGroup s next held
  | .checkGroup next => s.rt.curGroup.map fun g => checkGroup s g next
  | .unlinkGroup next => s.rt.curGroup.bind fun g => unlinkGroup s g next
  | .pushPool next => s.rt.curGroup.bind fun g => pushPool s g next
  | .returnParent => some (gotoReader (popSlot s) .idle)
  | _ => none

/-- `read_chunk` up to the loop of `read_chunk_full_impl`. -/
def readChunk (s : State) : Option State :=
  match s.rt.pc with
  | .idle =>
    match s.rt.hpHandle, s.rt.curBlock with
    | some (n + 1), some b =>
      match (s.block b).records with
      | [] => none
      | payload :: rest =>
        some (handOut ((s.setBlock b { s.block b with records := rest }).setReader
          { s.rt with hpHandle := some n }) (.hp (s.block b).context) payload.length payload)
    | _, _ =>
      some (gotoReader (s.setReader { s.rt with hpHandle := none }.refreshTraverseEndMark)
        .loop)
  | _ => none

/-- `return_read_chunk`. The calls that return a batch publish the cursor to the writer, which is not
part of the model. -/
def returnReadChunk (s : State) : Option State :=
  match s.rt.pc with
  | .empty => some (gotoReader s .idle)
  | .holding chunk =>
    if s.rt.hpHandle.isSome ∨ s.rt.curBlock.isSome then some (gotoReader s .idle)
    else
      let s' := deregisterSeq s chunk.context
      match chunk with
      | .oversize _ buffer =>
        some (gotoReader { s' with oversize := s'.oversize.map fun buf =>
          if buf.index = buffer then { buf with chunks := buf.chunks.tail } else buf } .returnParent)
      | _ => some (gotoReader (popSlot s') .idle)
  | _ => none

end QLog.LogBuffer
