import QLog.Foundations.Linked
import QLog.Foundations.Transfer
import QLog.Foundations.Transition
import QLog.Buffer.Group.Recovery

/-!
# The blocks of a group at run time

Any number of writers and one reader work on the lists of a group. A writer pops a block from the free
list and pushes it to the stage (`alloc_new_block`); the reader pops from the stage, links the block in at
the end of the used list, unlinks a removed block from there and pushes it to the free list
(`rt_try_traverse_to_next_block_in_group`).

`step` executes one atomic action of one thread: a load of a list head, a compare-and-swap of it, or the
access to a link. The heads of the free list and of the stage are an index and a 16-bit mark; `version`
is a history variable that counts the updates of a head. The used list belongs to the reader, so the marks
that the links carry along are left out, and the end of a list is `none`.

`Move` is what the lists do for a reader who sees each operation at once.
-/

namespace QLog.Group

/-! ## States -/

/-- The head of a list that several threads update. -/
structure Head where
  index : Option ℕ
  abaMark : ℕ
  version : ℕ
  deriving DecidableEq, Repr

/-- Where a writer stands. -/
inductive Writer
  | idle
  /-- `pop` holds a copy of the head of the free list; the link of its block is read next. -/
  | popLink (copy : Head)
  /-- The compare-and-swap of `pop`. -/
  | popCas (copy : Head) (desired : Option ℕ)
  /-- The block is popped; `push` loads the head of the stage next. -/
  | pushLoad (b : ℕ)
  /-- The link of the block is written next. -/
  | pushLink (b : ℕ) (copy : Head)
  /-- The compare-and-swap of `push`. -/
  | pushCas (b : ℕ) (copy : Head)
  deriving DecidableEq

/-- Where the reader stands. -/
inductive Reader
  | idle
  /-- The used list ends at the current block; `pop` loads the head of the stage next. -/
  | popLoad
  | popLink (copy : Head)
  | popCas (copy : Head) (desired : Option ℕ)
  /-- `push_after_thread_unsafe`: the link of the new block is written next. -/
  | insertLink (b : ℕ)
  /-- `push_after_thread_unsafe`: the link in front of the new block is written next. -/
  | insertHook (b : ℕ)
  /-- The next block is known; the current one is unlinked next if it is marked as removed. -/
  | settle (nextBlock : Option ℕ)
  | pushLoad (b : ℕ) (nextBlock : Option ℕ)
  | pushLink (b : ℕ) (nextBlock : Option ℕ) (copy : Head)
  | pushCas (b : ℕ) (nextBlock : Option ℕ) (copy : Head)
  /-- The reader moves on. -/
  | finish (nextBlock : Option ℕ) (blockRemoved : Bool)
  deriving DecidableEq

/-- A group with its threads. The current and the last block of the reader are recorded as far as they are
blocks of this group. -/
structure State (ι : Type*) where
  next : ℕ → Option ℕ
  free : Head
  stage : Head
  used : Option ℕ
  writers : ι → Writer
  reader : Reader
  curBlock : Option ℕ
  lastBlock : Option ℕ
  isBlockMarkedRemoved : Bool

variable {ι : Type*}

/-- A group as its constructor leaves it. -/
def State.init (g : GroupDataHead) : State ι where
  next := nextBlock g.blocks
  free := ⟨g.free.first, g.free.head.abaMark, g.free.head.abaMark⟩
  stage := ⟨g.stage.first, g.stage.head.abaMark, g.stage.head.abaMark⟩
  used := g.used.first
  writers _ := .idle
  reader := .idle
  curBlock := none
  lastBlock := none
  isBlockMarkedRemoved := false

/-! ## Steps -/

/-- The compare-and-swap of a head: the index and the mark must be those of the copy. -/
def Head.cas (h copy : Head) (desired : Option ℕ) : Option Head :=
  if h.index = copy.index ∧ h.abaMark = copy.abaMark then
    some ⟨desired, (copy.abaMark + 1) % 2 ^ 16, h.version + 1⟩
  else none

/-- `pop` of a writer, with a copy of the head. -/
def writerPop (copy : Head) : Writer := if copy.index = none then .idle else .popLink copy

/-- A writer with the block it popped. -/
def writerPopped : Option ℕ → Writer
  | none => .idle
  | some b => .pushLoad b

/-- `pop` of the reader, with a copy of the head. -/
def readerPop (copy : Head) : Reader := if copy.index = none then .settle none else .popLink copy

/-- The reader with the block it popped. -/
def readerPopped : Option ℕ → Reader
  | none => .settle none
  | some b => .insertLink b

/-- What the current block is followed by: its link, or the first block of the used list. -/
def State.following (s : State ι) : Option ℕ :=
  match s.curBlock with
  | none => s.used
  | some c => s.next c

/-- The link behind `prev`, or the head of the used list. -/
def State.setLink (s : State ι) (prev link : Option ℕ) : State ι :=
  match prev with
  | none => { s with used := link }
  | some p => { s with next := Function.update s.next p link }

section SetLink

variable (s : State ι) (prev link : Option ℕ) (p : ℕ)

@[simp] theorem setLink_free : (s.setLink prev link).free = s.free := by cases prev <;> rfl

@[simp] theorem setLink_stage : (s.setLink prev link).stage = s.stage := by cases prev <;> rfl

@[simp] theorem setLink_writers : (s.setLink prev link).writers = s.writers := by cases prev <;> rfl

@[simp] theorem setLink_curBlock : (s.setLink prev link).curBlock = s.curBlock := by cases prev <;> rfl

@[simp] theorem setLink_lastBlock : (s.setLink prev link).lastBlock = s.lastBlock := by cases prev <;> rfl

@[simp] theorem setLink_isBlockMarkedRemoved :
    (s.setLink prev link).isBlockMarkedRemoved = s.isBlockMarkedRemoved := by cases prev <;> rfl

@[simp] theorem setLink_none_next : (s.setLink none link).next = s.next := rfl

@[simp] theorem setLink_none_used : (s.setLink none link).used = link := rfl

@[simp] theorem setLink_some_next : (s.setLink (some p) link).next = Function.update s.next p link := rfl

@[simp] theorem setLink_some_used : (s.setLink (some p) link).used = s.used := rfl

end SetLink

section Step

variable [DecidableEq ι]

/-- One action of a writer. -/
def writerStep (s : State ι) (i : ι) : State ι :=
  match s.writers i with
  | .idle => { s with writers := Function.update s.writers i (writerPop s.free) }
  | .popLink copy =>
    { s with writers := Function.update s.writers i (.popCas copy (copy.index.bind s.next)) }
  | .popCas copy desired =>
    match s.free.cas copy desired with
    | some h => { s with free := h, writers := Function.update s.writers i (writerPopped copy.index) }
    | none => { s with writers := Function.update s.writers i (writerPop s.free) }
  | .pushLoad b => { s with writers := Function.update s.writers i (.pushLink b s.stage) }
  | .pushLink b copy =>
    { s with
      next := Function.update s.next b copy.index
      writers := Function.update s.writers i (.pushCas b copy) }
  | .pushCas b copy =>
    match s.stage.cas copy (some b) with
    | some h => { s with stage := h, writers := Function.update s.writers i .idle }
    | none => { s with writers := Function.update s.writers i (.pushLink b s.stage) }

omit [DecidableEq ι] in
/-- The reader moves on to the next block, or ends its visit. Whether the next block is to be removed is
found by reading it. -/
def finishTraverse (s : State ι) (nextBlock : Option ℕ) (blockRemoved marked : Bool) : State ι :=
  let last := if blockRemoved then s.lastBlock else s.curBlock
  match nextBlock with
  | some n =>
    { s with reader := .idle, lastBlock := last, curBlock := some n, isBlockMarkedRemoved := marked }
  | none =>
    { s with
      reader := .idle
      lastBlock := last
      curBlock := if blockRemoved then last else s.curBlock
      isBlockMarkedRemoved := false }

omit [DecidableEq ι] in
/-- One action of the reader. -/
def readerStep (s : State ι) (marked : Bool) : State ι :=
  match s.reader with
  | .idle => { s with reader := if s.following = none then .popLoad else .settle s.following }
  | .popLoad => { s with reader := readerPop s.stage }
  | .popLink copy => { s with reader := .popCas copy (copy.index.bind s.next) }
  | .popCas copy desired =>
    match s.stage.cas copy desired with
    | some h => { s with stage := h, reader := readerPopped copy.index }
    | none => { s with reader := readerPop s.stage }
  | .insertLink b =>
    { s with next := Function.update s.next b s.following, reader := .insertHook b }
  | .insertHook b => { s.setLink s.curBlock (some b) with reader := .settle (some b) }
  | .settle nextBlock =>
    match s.curBlock with
    | some c =>
      if s.isBlockMarkedRemoved then
        { s.setLink s.lastBlock (s.next c) with reader := .pushLoad c nextBlock }
      else { s with reader := .finish nextBlock false }
    | none => { s with reader := .finish nextBlock false }
  | .pushLoad b nextBlock => { s with reader := .pushLink b nextBlock s.free }
  | .pushLink b nextBlock copy =>
    { s with next := Function.update s.next b copy.index, reader := .pushCas b nextBlock copy }
  | .pushCas b nextBlock copy =>
    match s.free.cas copy (some b) with
    | some h => { s with free := h, reader := .finish nextBlock true }
    | none => { s with reader := .pushLink b nextBlock s.free }
  | .finish nextBlock blockRemoved => finishTraverse s nextBlock blockRemoved marked

/-- The actions: of a writer, of the reader, and the reader's way to another group. -/
inductive Act (ι : Type*)
  | writer (i : ι)
  | reader (marked : Bool)
  | leave
  deriving DecidableEq

/-- One atomic action. -/
def step (s : State ι) : Act ι → Option (State ι)
  | .writer i => some (writerStep s i)
  | .reader marked => some (readerStep s marked)
  | .leave =>
    match s.reader with
    | .idle => some { s with curBlock := none, lastBlock := none, isBlockMarkedRemoved := false }
    | _ => none

end Step

/-- The copy with which a writer is about to pop. -/
def Writer.popping : Writer → Option Head
  | .popCas copy _ => some copy
  | _ => none

/-- The copy with which the reader is about to pop. -/
def Reader.popping : Reader → Option Head
  | .popCas copy _ => some copy
  | _ => none

/-- A thread that pops has loaded the head fewer than `2 ^ 16` updates ago when it swaps. -/
def FewUpdates (s : State ι) : Act ι → Prop
  | .writer i => ∀ copy ∈ (s.writers i).popping, s.free.version < copy.version + 2 ^ 16
  | .reader _ => ∀ copy ∈ s.reader.popping, s.stage.version < copy.version + 2 ^ 16
  | .leave => True

instance (s : State ι) : ∀ a, Decidable (FewUpdates s a)
  | .writer i =>
    inferInstanceAs (Decidable (∀ copy ∈ (s.writers i).popping, s.free.version < copy.version + 2 ^ 16))
  | .reader _ =>
    inferInstanceAs (Decidable (∀ copy ∈ s.reader.popping, s.stage.version < copy.version + 2 ^ 16))
  | .leave => inferInstanceAs (Decidable True)

/-! ## Owners -/

/-- Where a block can be. -/
inductive Place (ι : Type*)
  | free
  | stage
  | used
  | writer (i : ι)
  | reader
  deriving DecidableEq

/-- The block in the hands of a writer. -/
def Writer.hand : Writer → List ℕ
  | .pushLoad b | .pushLink b _ | .pushCas b _ => [b]
  | .idle | .popLink _ | .popCas _ _ => []

/-- The block in the hands of the reader. -/
def Reader.hand : Reader → List ℕ
  | .insertLink b | .insertHook b | .pushLoad b _ | .pushLink b _ _ | .pushCas b _ _ => [b]
  | .idle | .popLoad | .popLink _ | .popCas _ _ | .settle _ | .finish _ _ => []

/-- The lists of a group and the hands of its threads. -/
abbrev Places (ι : Type*) := Place ι → List ℕ

section Move

variable [DecidableEq ι]

/-- The operations as they appear to an observer of the lists. -/
inductive Move : Places ι → Places ι → Prop
  | popFree {L : Places ι} {i : ι} {b : ℕ} {rest : List ℕ} (hfree : L .free = b :: rest)
      (hhand : L (.writer i) = []) :
      Move L (Function.update (Function.update L .free rest) (.writer i) [b])
  | pushStage {L : Places ι} {i : ι} {b : ℕ} (hhand : L (.writer i) = [b]) :
      Move L (Function.update (Function.update L (.writer i) []) .stage (b :: L .stage))
  | popStage {L : Places ι} {b : ℕ} {rest : List ℕ} (hstage : L .stage = b :: rest) (hhand : L .reader = []) :
      Move L (Function.update (Function.update L .stage rest) .reader [b])
  | pushAfter {L : Places ι} {b : ℕ} {prev : Option ℕ} (hhand : L .reader = [b])
      (hprev : Follows (L .used) prev none) :
      Move L (Function.update (Function.update L .reader []) .used (pushAfter (L .used) prev b))
  | remove {L : Places ι} {b : ℕ} {prev : Option ℕ} (hhand : L .reader = [])
      (hprev : Follows (L .used) prev (some b)) :
      Move L (Function.update (Function.update L .used (removeAfter (L .used) prev b)) .reader [b])
  | pushFree {L : Places ι} {b : ℕ} (hhand : L .reader = [b]) :
      Move L (Function.update (Function.update L .reader []) .free (b :: L .free))

end Move

end QLog.Group
