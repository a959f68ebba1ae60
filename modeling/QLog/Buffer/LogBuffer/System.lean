import QLog.Buffer.LogBuffer.Writer
import QLog.Buffer.LogBuffer.Reader

/-!
# The log buffer as a system

One atomic step of one thread, the opening of a log buffer from the files that a crash leaves, and the
states reached over any number of lives.

* `step` lets a writer or the reader take a step.
* `crashImage s` is what the files hold when the process dies in state `s`: the chunks of the
  low-performance ring up to the first reservation that is not settled, the used and staged blocks of
  every group, and the chunks of the oversize buffers.
* `State.opened` is the constructor with `prepare_and_fix_recovery_data`. The files are listed in any
  order; when the low-performance ring rejects its image, it starts empty and with version zero.
* `Lives step ok`: the states reached by steps that satisfy `ok` and by crashes and openings.
-/

namespace QLog.LogBuffer

/-! ## Steps -/

/-- The actions of the threads. -/
inductive Act
  /-- Thread `t` calls `alloc_write_chunk`. -/
  | alloc (t : ℕ) (call : Call)
  /-- Thread `t` takes a step inside one of its calls. -/
  | write (t : ℕ) (c : Choice)
  /-- Thread `t` calls `commit_write_chunk` for the bytes it wrote. -/
  | commit (t : ℕ) (payload : List UInt8)
  /-- Thread `t` ends. -/
  | exit (t : ℕ)
  | readChunk
  /-- The reader takes a step inside one of its calls. -/
  | read (due : Bool)
  | returnReadChunk
  deriving DecidableEq, Repr

/-- One atomic step. -/
def step (cfg : Config) (s : State) : Act → Option State
  | .alloc t call =>
    match (s.tls t).pc with
    | .idle => if call.size < 2 ^ 32 then some (callAlloc cfg s t call) else none
    | _ => none
  | .write t c => writerStep cfg s t c
  | .commit t payload => commitWriteChunk s t payload
  | .exit t =>
    match (s.tls t).pc with
    | .idle => some (s.goto t .exitLock)
    | _ => none
  | .readChunk => readChunk s
  | .read due => readerStep s due
  | .returnReadChunk => returnReadChunk s

/-- The steps of the reader. -/
def Act.isReader : Act → Bool
  | readChunk | read _ | returnReadChunk => true
  | _ => false

/-! ## Files -/

/-- The files of a log buffer: `saved_version_`, the chunks of the low-performance ring, the group files
in the order in which they are linked, and the oversize files in the order of the array. -/
structure Image where
  savedVersion : Version
  lp : List Slot
  groups : List ℕ
  group : ℕ → Group
  block : ℕ → Block
  groupIndex : ℕ
  oversize : List OversizeBuffer
  oversizeIndex : ℕ

/-- No files. -/
def Image.blank : Image where
  savedVersion := 0
  lp := []
  groups := []
  group := Group.fresh
  block := fun _ => Block.fresh
  groupIndex := 0
  oversize := []
  oversizeIndex := 0

/-- The chunks that the recovery of the low-performance ring keeps: those before the first reservation
that is not settled. -/
def settledSlots (lp : List Slot) : List Slot := lp.takeWhile Slot.isSettled

/-- The files after a crash, listed in the order given by `groups` and `oversize`. The files of the
groups that are not linked still exist. -/
def crashImage (s : State) (groups : List ℕ) (oversize : List OversizeBuffer) : Image where
  savedVersion := s.version
  lp := settledSlots s.lp
  groups := groups
  group := s.group
  block := s.block
  groupIndex := s.groupIndex
  oversize := oversize
  oversizeIndex := s.oversizeIndex

/-! ## Opening -/

/-- A context of the new version cannot be genuine; `context.version_++`. -/
def fixContext (version : Version) (c : Context) : Context :=
  if c.version = version then { c with version := c.version + 1 } else c

/-- A chunk of the low-performance ring after `prepare_and_fix_recovery_data`. -/
def fixSlot (version : Version) : Slot → Slot
  | .committed size c data => .committed size (fixContext version c) data
  | sl => sl

/-- A group file loaded: the used and the staged list are kept, every other block is free. -/
def loadGroup (g : ℕ) (grp : Group) : Group where
  used := grp.used
  stage := grp.stage
  free := (groupBlocks g).filter fun b => b ∉ grp.used ∧ b ∉ grp.stage
  readers := []

/-- A block of a group file loaded. -/
def loadBlock (version : Version) (grp : Group) (blk : Block) (b : ℕ) : Block :=
  if b ∈ grp.used ∨ b ∈ grp.stage then { blk with context := fixContext version blk.context }
  else Block.fresh

/-- The smallest number among the contexts of thread `t` in version `v`. -/
def minSeq (contexts : List Context) (v : Version) (t : ℕ) : Option ℕ :=
  ((contexts.filter fun c => c.version = v ∧ c.tls = t).map Context.seq).min?

/-- The contexts that `prepare_and_fix_recovery_data` looks at. -/
def Image.contexts (img : Image) : List Context :=
  img.lp.filterMap Slot.context? ++
    img.groups.flatMap fun g =>
      ((img.group g).used ++ (img.group g).stage).map fun b => (img.block b).context

/-- `recovery_records_` of an image opened with a version. -/
def Image.recoveryRecords (img : Image) (version : Version) : List RecoveryMap :=
  (List.range maxRecoveryVersionRange).map fun i t =>
    minSeq img.contexts (version - 1 - (i : Version)) t

/-- An oversize file is loaded if its context is one that `wt_alloc_oversize_write_chunk` writes, of a
version that is going to be read. -/
def loadsOversize (version : Version) (buf : OversizeBuffer) : Bool :=
  buf.context.seq = 2 ^ 32 - 1 && buf.context.isExternalRef &&
    decide (version - buf.context.version ≤ BitVec.ofNat 16 maxRecoveryVersionRange)

/-- The cache of the reader after construction. `verify_result` is not initialised. -/
def Reader.fresh (version reading : Version) (records : List RecoveryMap) (v : VerifyResult) :
    Reader where
  pc := .idle
  lastGroup := none
  curGroup := none
  lastBlock := none
  curBlock := none
  version := reading
  isInRecoveryReading := reading ≠ version
  recoveryRecords := records
  state := .lpBufferReading
  traverseEndBlockIsWorking := false
  traverseEndBlock := none
  hpHandle := none
  oversizeTarget := none
  leftHolesNum := 0
  curGroupUsingBlocksNum := 0
  isBlockMarkedRemoved := false
  verifyResult := v

/-- The constructor of a log buffer that does not recover anything: the files are removed. -/
def State.created (v : VerifyResult) : State where
  version := 0
  hpBufferMaxAllocSize := 2 ^ 32 - 1
  lp := []
  groups := []
  pool := []
  removed := []
  groupIndex := 0
  group := Group.fresh
  block := fun _ => Block.fresh
  headLock := none
  poolLock := none
  oversize := []
  oversizeIndex := 0
  arrayWriter := none
  arrayReaders := []
  tls := fun _ => Tls.fresh
  rt := Reader.fresh 0 0 [] v
  committed := fun _ => []
  delivered := []
  missed := false

/-- The constructor of a log buffer that recovers the image. -/
def State.opened (img : Image) (v : VerifyResult) : State :=
  let version := img.savedVersion + 1
  { State.created v with
    version := version
    lp := img.lp.map (fixSlot version)
    groups := img.groups
    groupIndex := img.groupIndex
    group := fun g => if g ∈ img.groups then loadGroup g (img.group g) else Group.fresh g
    block := fun b =>
      if groupOf b ∈ img.groups then loadBlock version (img.group (groupOf b)) (img.block b) b
      else Block.fresh
    oversize := (img.oversize.filter (loadsOversize version)).map fun buf =>
      { buf with isThreadFinished := false, readers := [] }
    oversizeIndex := img.oversizeIndex
    rt := Reader.fresh version (version - BitVec.ofNat 16 maxRecoveryVersionRange)
      (img.recoveryRecords version) v }

/-- `s'` is opened from files that a crash in `s` leaves. When `rejected`, the low-performance ring did
not accept its image. -/
def Reopens (s s' : State) (rejected : Bool) : Prop :=
  ∃ groups oversize v, groups.Perm (s.groups ++ s.spares) ∧ oversize.Perm s.oversize ∧
    let img := crashImage s groups oversize
    s' = State.opened (if rejected then { img with savedVersion := 0, lp := [] } else img) v

/-! ## Lives -/

/-- A log buffer as it is created: without recovery, or with recovery and no files. -/
def State.Created (cfg : Config) (s : State) : Prop :=
  ∃ v, s = if cfg.needRecovery then State.opened Image.blank v else State.created v

/-- The states reached from a new log buffer by steps that satisfy `ok` and, with recovery, by crashes
and openings that satisfy `reopenOk`. -/
inductive Lives (cfg : Config) (ok : State → Act → Prop) (reopenOk : State → State → Prop) :
    State → Prop
  | create {s : State} : s.Created cfg → Lives cfg ok reopenOk s
  | step {s s' : State} {a : Act} :
      Lives cfg ok reopenOk s → ok s a → step cfg s a = some s' → Lives cfg ok reopenOk s'
  | reopen {s s' : State} {rejected : Bool} :
      cfg.needRecovery = true → Lives cfg ok reopenOk s → Reopens s s' rejected → reopenOk s s' →
      Lives cfg ok reopenOk s'

end QLog.LogBuffer
