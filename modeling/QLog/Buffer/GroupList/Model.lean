import QLog.Foundations.Chain
import QLog.Foundations.RwLock
import QLog.Foundations.Transition

/-!
# The group list at run time

The groups are linked through pointers, the head of the list and one in every group, and each pointer has a
readers-writer lock. Any number of writers look for a free block with read locks from pointer to pointer,
and add a group under the write lock of the head (`alloc_new_block`); the reader takes write locks to
unlink a group without blocks in use and pushes it to the pool (`rt_try_traverse_to_next_group`).

`step` executes one atomic action of one thread: taking or releasing one lock, one access to a pointer, or
one operation on a list of blocks or on the pool, which appear to be atomic to the other threads. Between
two visits of groups the reader may move a staged block to the used list and recycle a used one, as it does
in its current group.
-/

namespace QLog.GroupList

/-- `max_block_count_per_group_`. -/
def maxBlockCountPerGroup : ℕ := 16

/-! ## States -/

/-- `group_node::pointer_type`: `head_`, or the `next_` of a group. -/
inductive Ptr
  | head
  | next (g : ℕ)
  deriving DecidableEq

/-- The threads. -/
inductive Party
  | writer (i : ℕ)
  | reader
  deriving DecidableEq

/-- `group_data_head`: the lists of a group, with the blocks named by their places in the group. -/
structure DataHead where
  used : List ℕ
  stage : List ℕ
  free : List ℕ

/-- The lists of a new group. -/
def DataHead.fresh : DataHead := ⟨[], [], List.range maxBlockCountPerGroup⟩

/-- Where a writer stands in `alloc_new_block`. -/
inductive Writer
  | idle
  /-- `first` or `next`: the pointer is locked for reading next, with the pointer behind which one goes on. -/
  | acquire (p : Ptr) (held : Option Ptr)
  /-- The pointer is read next. -/
  | read (p : Ptr) (held : Option Ptr)
  /-- `p` leads to the group `g`; the pointer before it is released next. -/
  | releaseHeld (q p : Ptr) (g : ℕ)
  /-- `p` is the end of the list and is released next, and then the pointer before it. -/
  | releaseEnd (p : Ptr) (held : Option Ptr)
  | releaseLast (q : Ptr)
  /-- The iterator is at the group `g` with a lock of `p`; `free_.pop` comes next. -/
  | pop (p : Ptr) (g : ℕ)
  /-- `stage_.push` comes next. -/
  | push (p : Ptr) (g b : ℕ)
  /-- The lock of the iterator is released next. -/
  | leave (p : Ptr)
  /-- The head is locked for writing next. -/
  | lockHead
  /-- The head is read next. -/
  | headLocked
  /-- `free_.pop` of the first group comes next. -/
  | headPop (g : ℕ)
  /-- `pool_.pop`, or a new group, comes next. -/
  | takePool
  /-- `free_.pop` of the group comes next, which is in no list. -/
  | fresh (g : ℕ)
  /-- The pointer of the group is set to the head next. -/
  | link (g b : ℕ)
  /-- The head is set to the group next. -/
  | linkHead (g b : ℕ)
  /-- `stage_.push` comes next, under the lock of the head. -/
  | pushHead (g b : ℕ)
  | unlockHead
  /-- The group had no free block. -/
  | crashed
  deriving DecidableEq

/-- Where the reader stands in `rt_try_traverse_to_next_group`. -/
inductive Reader
  | idle
  /-- The pointer is locked for writing next. -/
  | acquire (p : Ptr) (held : Option Ptr)
  /-- The pointer is read next. -/
  | read (p : Ptr) (held : Option Ptr)
  /-- `p` leads to the group `g`; the pointer before it is released next. -/
  | releaseHeld (q p : Ptr) (g : ℕ)
  /-- `used_.first` of the group comes next. -/
  | checkUsed (p : Ptr) (g : ℕ)
  /-- `stage_.first` of the group comes next. -/
  | checkStage (p : Ptr) (g : ℕ)
  /-- The group stays; its pointer is released next. -/
  | leave (p : Ptr)
  /-- `delete_and_unlock_thread_unsafe`: the pointer in the group is locked for writing next. -/
  | lockNext (p : Ptr) (g : ℕ)
  | readNext (p : Ptr) (g : ℕ)
  | unlockNext (p : Ptr) (g : ℕ) (nextNode : Option ℕ)
  /-- The group is unlinked next. -/
  | unlink (p : Ptr) (g : ℕ) (nextNode : Option ℕ)
  /-- The pointer to the removed group is released next. -/
  | unlockLast (p : Ptr) (g : ℕ)
  /-- `pool_.push` of the removed group comes next. -/
  | pushPool (g : ℕ)
  /-- An assertion about the iterator of the removal has failed. -/
  | crashed
  deriving DecidableEq

/-- The group list with its threads. `nextGroup` is the local variable of the reader, the other groups are
those of `current_reading_`. -/
structure State where
  node : Ptr → Option ℕ
  lock : Ptr → RwLock Party
  data : ℕ → DataHead
  pool : List ℕ
  groupIndex : ℕ
  writers : ℕ → Writer
  reader : Reader
  lastGroup : Option ℕ
  curGroup : Option ℕ
  nextGroup : Option ℕ

namespace State

variable (s : State)

/-- A writer goes on. -/
def goto (i : ℕ) (pc : Writer) : State := { s with writers := Function.update s.writers i pc }

/-- The reader goes on. -/
def gotoReader (pc : Reader) : State := { s with reader := pc }

/-- A pointer is written. -/
def setNode (p : Ptr) (v : Option ℕ) : State := { s with node := Function.update s.node p v }

/-- A lock is changed. -/
def setLock (p : Ptr) (l : RwLock Party) : State := { s with lock := Function.update s.lock p l }

/-- The lists of a group are changed. -/
def setData (g : ℕ) (d : DataHead) : State := { s with data := Function.update s.data g d }

end State

/-! ## Steps -/

/-- One action of a writer. -/
def writerStep (s : State) (i : ℕ) : Option State :=
  match s.writers i with
  | .idle => some (s.goto i (.acquire .head none))
  | .acquire p held =>
    ((s.lock p).readLock (.writer i)).map fun l => (s.setLock p l).goto i (.read p held)
  | .read p held =>
    match s.node p, held with
    | some g, none => some (s.goto i (.pop p g))
    | some g, some q => some (s.goto i (.releaseHeld q p g))
    | none, _ => some (s.goto i (.releaseEnd p held))
  | .releaseHeld q p g => some ((s.setLock q ((s.lock q).readUnlock (.writer i))).goto i (.pop p g))
  | .releaseEnd p held =>
    some ((s.setLock p ((s.lock p).readUnlock (.writer i))).goto i
      (match held with
        | none => .lockHead
        | some q => .releaseLast q))
  | .releaseLast q => some ((s.setLock q ((s.lock q).readUnlock (.writer i))).goto i .lockHead)
  | .pop p g =>
    match (s.data g).free with
    | [] => some (s.goto i (.acquire (.next g) (some p)))
    | b :: rest => some ((s.setData g { s.data g with free := rest }).goto i (.push p g b))
  | .push p g b =>
    some ((s.setData g { s.data g with stage := b :: (s.data g).stage }).goto i (.leave p))
  | .leave p => some ((s.setLock p ((s.lock p).readUnlock (.writer i))).goto i .idle)
  | .lockHead =>
    ((s.lock .head).writeLock (.writer i)).map fun l => (s.setLock .head l).goto i .headLocked
  | .headLocked =>
    match s.node .head with
    | some g => some (s.goto i (.headPop g))
    | none => some (s.goto i .takePool)
  | .headPop g =>
    match (s.data g).free with
    | [] => some (s.goto i .takePool)
    | b :: rest => some ((s.setData g { s.data g with free := rest }).goto i (.pushHead g b))
  | .takePool =>
    match s.pool with
    | g :: rest => some ({ s with pool := rest }.goto i (.fresh g))
    | [] =>
      some (({ s with groupIndex := s.groupIndex + 1 }.setData (s.groupIndex + 1) DataHead.fresh).goto i
        (.fresh (s.groupIndex + 1)))
  | .fresh g =>
    match (s.data g).free with
    | [] => some (s.goto i .crashed)
    | b :: rest => some ((s.setData g { s.data g with free := rest }).goto i (.link g b))
  | .link g b => some ((s.setNode (.next g) (s.node .head)).goto i (.linkHead g b))
  | .linkHead g b => some ((s.setNode .head (some g)).goto i (.pushHead g b))
  | .pushHead g b =>
    some ((s.setData g { s.data g with stage := b :: (s.data g).stage }).goto i .unlockHead)
  | .unlockHead => some ((s.setLock .head ((s.lock .head).writeUnlock (.writer i))).goto i .idle)
  | .crashed => none

/-- The end of `rt_try_traverse_to_next_group`. -/
def finishTraverse (s : State) (groupRemoved : Bool) : State :=
  { s with
    reader := .idle
    lastGroup := if groupRemoved then s.lastGroup else s.curGroup
    curGroup := s.nextGroup }

/-- The iterator of the removal is at the group `g`: the current group, or one before it. -/
def reached (s : State) (p : Ptr) (g : ℕ) : Reader :=
  if s.curGroup = some g then .checkUsed p g
  else if s.lastGroup = none then .acquire (.next g) (some p)
  else .crashed

/-- One action of the reader inside `rt_try_traverse_to_next_group`. -/
def readerStep (s : State) : Option State :=
  match s.reader with
  | .idle => none
  | .acquire p held => ((s.lock p).writeLock .reader).map fun l => (s.setLock p l).gotoReader (.read p held)
  | .read p held =>
    match s.node p, held with
    | some g, none => some (s.gotoReader (reached s p g))
    | some g, some q => some (s.gotoReader (.releaseHeld q p g))
    | none, _ => some (s.gotoReader .crashed)
  | .releaseHeld q p g =>
    some ((s.setLock q ((s.lock q).writeUnlock .reader)).gotoReader (reached s p g))
  | .checkUsed p g => some (s.gotoReader (if (s.data g).used = [] then .checkStage p g else .leave p))
  | .checkStage p g => some (s.gotoReader (if (s.data g).stage = [] then .lockNext p g else .leave p))
  | .leave p => some (finishTraverse (s.setLock p ((s.lock p).writeUnlock .reader)) false)
  | .lockNext p g =>
    ((s.lock (.next g)).writeLock .reader).map fun l => (s.setLock (.next g) l).gotoReader (.readNext p g)
  | .readNext p g => some (s.gotoReader (.unlockNext p g (s.node (.next g))))
  | .unlockNext p g nextNode =>
    some ((s.setLock (.next g) ((s.lock (.next g)).writeUnlock .reader)).gotoReader (.unlink p g nextNode))
  | .unlink p g nextNode => some ((s.setNode p nextNode).gotoReader (.unlockLast p g))
  | .unlockLast p g => some ((s.setLock p ((s.lock p).writeUnlock .reader)).gotoReader (.pushPool g))
  | .pushPool g => some (finishTraverse { s with pool := g :: s.pool } true)
  | .crashed => none

/-- `rt_try_traverse_to_next_group` begins. The removal of the current group is tried if
`cur_group_using_blocks_num_` is zero. -/
def traverse (s : State) (noneUsing : Bool) : State :=
  match s.curGroup with
  | none => finishTraverse { s with nextGroup := s.node .head } false
  | some c =>
    if noneUsing then
      { s with
        nextGroup := s.node (.next c)
        reader := .acquire (match s.lastGroup with
          | none => .head
          | some l => .next l) none }
    else finishTraverse { s with nextGroup := s.node (.next c) } false

/-- A staged block of the current group is moved to its used list. -/
def takeStaged (s : State) : Option State :=
  s.curGroup.bind fun c =>
    match (s.data c).stage with
    | [] => none
    | b :: rest => some (s.setData c { s.data c with used := (s.data c).used ++ [b], stage := rest })

/-- `recycle_block_thread_unsafe` of a used block of the current group. -/
def recycle (s : State) (b : ℕ) : Option State :=
  s.curGroup.bind fun c =>
    if b ∈ (s.data c).used then
      some (s.setData c { s.data c with used := (s.data c).used.erase b, free := b :: (s.data c).free })
    else none

/-- The actions. -/
inductive Act
  | writer (i : ℕ)
  | reader
  | traverse (noneUsing : Bool)
  | takeStaged
  | recycle (b : ℕ)
  deriving DecidableEq

/-- One atomic action. -/
def step (s : State) : Act → Option State
  | .writer i => writerStep s i
  | .reader => readerStep s
  | .traverse noneUsing => if s.reader = .idle then some (traverse s noneUsing) else none
  | .takeStaged => if s.reader = .idle then takeStaged s else none
  | .recycle b => if s.reader = .idle then recycle s b else none

/-! ## What the threads hold -/

/-- The pointers that a writer has locked for reading. -/
def Writer.reads : Writer → List Ptr
  | .acquire _ held => held.toList
  | .read p held | .releaseEnd p held => p :: held.toList
  | .releaseHeld q p _ => [p, q]
  | .releaseLast q => [q]
  | .pop p _ | .push p _ _ | .leave p => [p]
  | _ => []

/-- The pointers that a writer has locked for writing. -/
def Writer.writes : Writer → List Ptr
  | .headLocked | .headPop _ | .takePool | .fresh _ | .link _ _ | .linkHead _ _ | .pushHead _ _
  | .unlockHead => [.head]
  | _ => []

/-- The pointers that the reader has locked for writing. -/
def Reader.writes : Reader → List Ptr
  | .idle | .pushPool _ | .crashed => []
  | .acquire _ held => held.toList
  | .read p held => p :: held.toList
  | .releaseHeld q p _ => [p, q]
  | .checkUsed p _ | .checkStage p _ | .leave p | .lockNext p _ | .unlink p _ _ | .unlockLast p _ => [p]
  | .readNext p g | .unlockNext p g _ => [.next g, p]

/-- The pointers that a thread has locked for reading. -/
def State.reads (s : State) : Party → List Ptr
  | .writer i => (s.writers i).reads
  | .reader => []

/-- The pointers that a thread has locked for writing. -/
def State.writes (s : State) : Party → List Ptr
  | .writer i => (s.writers i).writes
  | .reader => s.reader.writes

/-- The block that a writer has popped and not yet pushed, with its group. -/
def Writer.hand : Writer → Option (ℕ × ℕ)
  | .push _ g b | .link g b | .linkHead g b | .pushHead g b => some (g, b)
  | _ => none

/-- The group from which a writer pops next. -/
def Writer.pops : Writer → Option ℕ
  | .pop _ g | .headPop g | .fresh g => some g
  | _ => none

/-- The groups that one meets from the head on. -/
def State.Linked (s : State) (ls : List ℕ) : Prop := IsChain (fun g => s.node (.next g)) (s.node .head) ls

/-- A group is reachable from the head. -/
def State.Reachable (s : State) (g : ℕ) : Prop := ∃ ls, s.Linked ls ∧ g ∈ ls

/-- A state in which no thread is inside an operation and every lock is free. -/
structure State.Start (s : State) : Prop where
  linked : ∃ ls, s.Linked ls ∧ ∀ g ∈ ls, g ≤ s.groupIndex
  lock : s.lock = fun _ => RwLock.fresh
  pool : s.pool = []
  blocks : ∀ g ≤ s.groupIndex, ∀ b < maxBlockCountPerGroup,
    b ∈ (s.data g).used ∨ b ∈ (s.data g).stage ∨ b ∈ (s.data g).free
  writers : s.writers = fun _ => .idle
  reader : s.reader = .idle
  lastGroup : s.lastGroup = none
  curGroup : s.curGroup = none

end QLog.GroupList
