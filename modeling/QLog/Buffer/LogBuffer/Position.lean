import QLog.Buffer.LogBuffer.Frames

/-!
# Where the reader stands

The reader walks through the groups and, in each group, through the used blocks. `Stands` says for each
program counter and read state which of the places it is at: at the ring, in front of the first block of
a group, at a block, about to enter a block, or behind the last block of a group. At a block, the used
list is split into the blocks passed, the current block and the rest, and `last_block_` is the last of the
blocks passed.
-/

namespace QLog.LogBuffer

variable {cfg : Config} {s s' u : State} {t g b : ℕ}

/-- A used block of a linked group. -/
def Kept (s : State) (b : ℕ) : Prop := b ∈ (s.group (groupOf b)).used ∧ groupOf b ∈ s.groups

/-- `last_block_` if it lies in group `g`. -/
def State.lastIn (s : State) (g : ℕ) : Option ℕ := s.rt.lastBlock.filter (groupOf · = g)

/-- The walk has come to group `g`: the last block passed is still used, and its group does not lie
ahead; the last group passed, if there is one, is the one in front of `g`. -/
structure Walks (s : State) (g : ℕ) : Prop where
  curGroup : s.rt.curGroup = some g
  mem : g ∈ s.groups
  last : ∀ b, s.rt.lastBlock = some b → Kept s b ∧ groupOf b ∉ afterOf s.groups g
  lastGroup : ∀ l, s.rt.lastGroup = some l → nextOf s.groups l = some g

/-- At the ring. -/
structure AtRing (s : State) : Prop where
  state : s.rt.state = .lpBufferReading
  curGroup : s.rt.curGroup = none
  curBlock : s.rt.curBlock = none
  lastBlock : s.rt.lastBlock = none

/-- At block `b` of group `g`, with `rest` ahead. -/
structure AtBlock (s : State) (g b : ℕ) (passed rest : List ℕ) : Prop where
  walks : Walks s g
  curBlock : s.rt.curBlock = some b
  groupOf_eq : groupOf b = g
  used : (s.group g).used = passed ++ b :: rest
  last : s.lastIn g = passed.getLast?

/-- In front of the first block of group `g`. -/
structure AtGroup (s : State) (g : ℕ) : Prop where
  walks : Walks s g
  curBlock : s.rt.curBlock = s.rt.lastBlock
  last : s.lastIn g = none

/-- About to enter block `b` of group `g`. -/
structure Entering (s : State) (g b : ℕ) (passed rest : List ℕ) : Prop where
  walks : Walks s g
  groupOf_eq : groupOf b = g
  used : (s.group g).used = passed ++ b :: rest
  last : s.lastIn g = passed.getLast?

/-- Behind the last block of group `g`. -/
structure BehindGroup (s : State) (g : ℕ) : Prop where
  walks : Walks s g
  curBlock : s.rt.curBlock = s.rt.lastBlock

/-- The next group can be entered. -/
def Ahead (s : State) (next : Option ℕ) : Prop := ∀ g ∈ next, g ∈ s.groups ∧
  (∀ b, s.rt.lastBlock = some b → Kept s b ∧ groupOf b ≠ g ∧ groupOf b ∉ afterOf s.groups g) ∧
    ∀ l, s.rt.lastGroup = some l → nextOf s.groups l = some g

/-- Group `g` is unlinked and not in the pool yet. -/
structure Unlinked (s : State) (g : ℕ) (next : Option ℕ) : Prop where
  curGroup : s.rt.curGroup = some g
  removed : g ∈ s.removed
  curBlock : s.rt.curBlock = s.rt.lastBlock
  last : ∀ b, s.rt.lastBlock = some b → Kept s b
  ahead : Ahead s next

/-- On the way to the pointer to group `g`, which lies behind the group `held`. -/
structure OnTheWay (s : State) (g : ℕ) (held : Option ℕ) : Prop where
  behind : BehindGroup s g
  held : ∀ x ∈ held, s.rt.lastGroup = none ∧ g ∈ afterOf s.groups x ∧ s.CanLock x

/-- In no group. -/
structure NoGroup (s : State) : Prop where
  curGroup : s.rt.curGroup = none
  curBlock : s.rt.curBlock = none
  lastBlock : s.rt.lastBlock = none

/-- Where the reader stands when it is not inside a call. -/
def Rests (s : State) : Prop :=
  (AtRing s ∧ s.rt.hpHandle = none) ∨
    (s.rt.state = .hpBlockReading ∧ ∃ g b passed rest, AtBlock s g b passed rest)

/-- Where the reader stands in the loop of `read_chunk_full_impl`. -/
def StandsInLoop (s : State) : Prop :=
  s.rt.hpHandle = none ∧
  match s.rt.state with
  | .lpBufferReading => AtRing s
  | .hpBlockReading => ∃ g b passed rest, AtBlock s g b passed rest
  | .nextBlockFinding => (∃ g b passed rest, AtBlock s g b passed rest) ∨ ∃ g, AtGroup s g
  | .nextGroupFinding => NoGroup s ∨ ∃ g, BehindGroup s g
  | .traversalCompleted => NoGroup s ∨ ∃ g b passed rest, AtBlock s g b passed rest

/-- Where the reader stands. -/
def Stands (s : State) : Prop :=
  match s.rt.pc with
  | .idle | .empty => Rests s
  | .holding chunk =>
    match chunk with
    | .hp _ => s.rt.state = .hpBlockReading ∧ ∃ g b passed rest, AtBlock s g b passed rest
    | _ => AtRing s ∧ s.rt.hpHandle = none
  | .loop => StandsInLoop s
  | .oversizeLock _ | .oversizeSearch _ _ | .returnParent => AtRing s ∧ s.rt.hpHandle = none
  | .recycleCheck | .recycleLock | .recycle _ =>
    s.rt.state = .nextGroupFinding ∧ NoGroup s ∧ s.rt.hpHandle = none
  | .leaveBlock next =>
    s.rt.state = .nextBlockFinding ∧ s.rt.hpHandle = none ∧
    ((∃ g b passed rest, AtBlock s g b passed rest ∧ next = rest.head?) ∨
      ∃ g, AtGroup s g ∧ next = (s.group g).used.head?)
  | .enterBlock b =>
    s.rt.state = .nextBlockFinding ∧ s.rt.hpHandle = none ∧ ∃ g passed rest, Entering s g b passed rest
  | .leaveGroup next =>
    s.rt.state = .nextGroupFinding ∧ s.rt.hpHandle = none ∧
    ((NoGroup s ∧ ∀ g ∈ next, g ∈ s.groups) ∨ ∃ g, BehindGroup s g ∧ next = nextOf s.groups g)
  | .lockGroup next held =>
    s.rt.state = .nextGroupFinding ∧ s.rt.hpHandle = none ∧
    ∃ g, OnTheWay s g held ∧ next = nextOf s.groups g
  | .checkGroup next =>
    s.rt.state = .nextGroupFinding ∧ s.rt.hpHandle = none ∧
    ∃ g, BehindGroup s g ∧ next = nextOf s.groups g ∧ s.CanLock g
  | .unlinkGroup next =>
    s.rt.state = .nextGroupFinding ∧ s.rt.hpHandle = none ∧
    ∃ g, BehindGroup s g ∧ next = nextOf s.groups g ∧ s.CanLock g ∧
      (s.group g).used = [] ∧ (s.group g).stage = []
  | .pushPool next =>
    s.rt.state = .nextGroupFinding ∧ s.rt.hpHandle = none ∧ ∃ g, Unlinked s g next
  | .crashed => True

/-! ## Frames -/

/-- The position of the reader and the used lists are the same, and groups are only put in front. -/
structure PosFrame (s s' : State) : Prop where
  curGroup : s'.rt.curGroup = s.rt.curGroup
  curBlock : s'.rt.curBlock = s.rt.curBlock
  lastBlock : s'.rt.lastBlock = s.rt.lastBlock
  lastGroup : s'.rt.lastGroup = s.rt.lastGroup
  removed : s'.removed = s.removed
  used : ∀ g ∈ s.groups, (s'.group g).used = (s.group g).used
  groups : s'.groups = s.groups ∨ ∃ g, g ∉ s.groups ∧ s'.groups = g :: s.groups

theorem WriterFrame.pos (h : WriterFrame s s' t) : PosFrame s s' :=
  ⟨by rw [h.rt], by rw [h.rt], by rw [h.rt], by rw [h.rt], h.removed, h.used, h.groups⟩

namespace PosFrame

theorem mem_groups (h : PosFrame s s') (hg : g ∈ s.groups) : g ∈ s'.groups := by
  rcases h.groups with he | ⟨g', -, he⟩
  · rwa [he]
  · rw [he]
    exact List.mem_cons_of_mem _ hg

theorem afterOf_eq (h : PosFrame s s') (hg : g ∈ s.groups) :
    afterOf s'.groups g = afterOf s.groups g := by
  rcases h.groups with he | ⟨g', hg', he⟩
  · rw [he]
  · rw [he, afterOf_cons_of_ne]
    rintro rfl
    exact hg' hg

theorem nextOf_eq (h : PosFrame s s') (hg : g ∈ s.groups) : nextOf s'.groups g = nextOf s.groups g := by
  rw [nextOf, h.afterOf_eq hg, nextOf]

theorem nextOf_some (h : PosFrame s s') {l : ℕ} (hl : nextOf s.groups l = some g) :
    nextOf s'.groups l = some g :=
  (h.nextOf_eq (mem_of_afterOf (List.mem_of_head? hl))).trans hl

theorem kept (h : PosFrame s s') (hb : Kept s b) : Kept s' b :=
  ⟨by rw [h.used _ hb.2]; exact hb.1, h.mem_groups hb.2⟩

theorem lastIn (h : PosFrame s s') (g : ℕ) : s'.lastIn g = s.lastIn g := by
  rw [State.lastIn, h.lastBlock, State.lastIn]

theorem walks (h : PosFrame s s') (hw : Walks s g) : Walks s' g where
  curGroup := h.curGroup.trans hw.curGroup
  mem := h.mem_groups hw.mem
  last b hb := by
    rw [h.lastBlock] at hb
    rw [h.afterOf_eq hw.mem]
    exact ⟨h.kept (hw.last b hb).1, (hw.last b hb).2⟩
  lastGroup l hl := by
    rw [h.lastGroup] at hl
    exact h.nextOf_some (hw.lastGroup l hl)

theorem atRing (h : PosFrame s s') (hr : AtRing s) (hst : s'.rt.state = .lpBufferReading) :
    AtRing s' :=
  ⟨hst, h.curGroup.trans hr.curGroup, h.curBlock.trans hr.curBlock, h.lastBlock.trans hr.lastBlock⟩

theorem noGroup (h : PosFrame s s') (hn : NoGroup s) : NoGroup s' :=
  ⟨h.curGroup.trans hn.curGroup, h.curBlock.trans hn.curBlock, h.lastBlock.trans hn.lastBlock⟩

theorem atBlock {passed rest : List ℕ} (h : PosFrame s s') (hb : AtBlock s g b passed rest) :
    AtBlock s' g b passed rest where
  walks := h.walks hb.walks
  curBlock := h.curBlock.trans hb.curBlock
  groupOf_eq := hb.groupOf_eq
  used := (h.used g hb.walks.mem).trans hb.used
  last := (h.lastIn g).trans hb.last

theorem atSomeBlock (h : PosFrame s s') (hb : ∃ g b passed rest, AtBlock s g b passed rest) :
    ∃ g b passed rest, AtBlock s' g b passed rest := by
  obtain ⟨g, b, passed, rest, hb⟩ := hb
  exact ⟨g, b, passed, rest, h.atBlock hb⟩

theorem atGroup (h : PosFrame s s') (hb : AtGroup s g) : AtGroup s' g where
  walks := h.walks hb.walks
  curBlock := by rw [h.curBlock, h.lastBlock, hb.curBlock]
  last := (h.lastIn g).trans hb.last

theorem entering {passed rest : List ℕ} (h : PosFrame s s') (hb : Entering s g b passed rest) :
    Entering s' g b passed rest where
  walks := h.walks hb.walks
  groupOf_eq := hb.groupOf_eq
  used := (h.used g hb.walks.mem).trans hb.used
  last := (h.lastIn g).trans hb.last

theorem behindGroup (h : PosFrame s s') (hb : BehindGroup s g) : BehindGroup s' g where
  walks := h.walks hb.walks
  curBlock := by rw [h.curBlock, h.lastBlock, hb.curBlock]

theorem ahead {next : Option ℕ} (h : PosFrame s s') (ha : Ahead s next) : Ahead s' next := by
  intro g hg
  obtain ⟨hmem, hlast, hgroup⟩ := ha g hg
  refine ⟨h.mem_groups hmem, fun b hb => ?_, fun l hl => ?_⟩
  · rw [h.lastBlock] at hb
    rw [h.afterOf_eq hmem]
    exact ⟨h.kept (hlast b hb).1, (hlast b hb).2⟩
  · rw [h.lastGroup] at hl
    exact h.nextOf_some (hgroup l hl)

theorem unlinked {next : Option ℕ} (h : PosFrame s s') (hu : Unlinked s g next) : Unlinked s' g next where
  curGroup := h.curGroup.trans hu.curGroup
  removed := h.removed ▸ hu.removed
  curBlock := by rw [h.curBlock, h.lastBlock, hu.curBlock]
  last b hb := by
    rw [h.lastBlock] at hb
    exact h.kept (hu.last b hb)
  ahead := h.ahead hu.ahead

end PosFrame

theorem Rests.frame (hs : Rests s) (h : PosFrame s s') (hst : s'.rt.state = s.rt.state)
    (hhp : s'.rt.hpHandle = s.rt.hpHandle) : Rests s' := by
  rcases hs with ⟨hr, hn⟩ | ⟨hhpst, hb⟩
  · exact .inl ⟨h.atRing hr (hst.trans hr.state), hhp.trans hn⟩
  · exact .inr ⟨hst.trans hhpst, h.atSomeBlock hb⟩

theorem StandsInLoop.frame (hs : StandsInLoop s) (h : PosFrame s s')
    (hst : s'.rt.state = s.rt.state) (hhp : s'.rt.hpHandle = s.rt.hpHandle) : StandsInLoop s' := by
  obtain ⟨hn, hs⟩ := hs
  refine ⟨hhp.trans hn, ?_⟩
  rw [hst]
  cases hstate : s.rt.state with
  | lpBufferReading =>
    rw [hstate] at hs
    exact h.atRing hs (hst.trans hstate)
  | hpBlockReading =>
    rw [hstate] at hs
    exact h.atSomeBlock hs
  | nextBlockFinding =>
    rw [hstate] at hs
    exact hs.imp h.atSomeBlock fun ⟨g, hg⟩ => ⟨g, h.atGroup hg⟩
  | nextGroupFinding =>
    rw [hstate] at hs
    exact hs.imp h.noGroup fun ⟨g, hg⟩ => ⟨g, h.behindGroup hg⟩
  | traversalCompleted =>
    rw [hstate] at hs
    exact hs.imp h.noGroup h.atSomeBlock

/-- The writers do not move the reader, and do not take the locks that it has. -/
theorem Stands.writer (hs : Stands s) (hw : WriterFrame s s' t) (hh : HeldFrame s s') : Stands s' := by
  have h := hw.pos
  have hst : s'.rt.state = s.rt.state := by rw [hw.rt]
  have hhp : s'.rt.hpHandle = s.rt.hpHandle := by rw [hw.rt]
  have hring : AtRing s ∧ s.rt.hpHandle = none → AtRing s' ∧ s'.rt.hpHandle = none :=
    fun hr => ⟨h.atRing hr.1 (hst.trans hr.1.state), hhp.trans hr.2⟩
  unfold Stands at hs ⊢
  rw [hw.rt]
  cases hpc : s.rt.pc with
  | idle | empty =>
    rw [hpc] at hs
    exact hs.frame h hst hhp
  | holding chunk =>
    rw [hpc] at hs
    cases chunk with
    | hp => exact ⟨by rw [← hw.rt]; exact hst.trans hs.1, h.atSomeBlock hs.2⟩
    | lp | oversize =>
      have := hring hs
      rw [hw.rt] at this
      exact this
  | loop =>
    rw [hpc] at hs
    exact hs.frame h hst hhp
  | oversizeLock | oversizeSearch | returnParent =>
    rw [hpc] at hs
    have := hring hs
    rw [hw.rt] at this
    exact this
  | recycleCheck | recycleLock | recycle =>
    rw [hpc] at hs
    exact ⟨hs.1, h.noGroup hs.2.1, hs.2.2⟩
  | leaveBlock next =>
    rw [hpc] at hs
    refine ⟨hs.1, hs.2.1, hs.2.2.imp ?_ ?_⟩
    · rintro ⟨g, b, passed, rest, hb, hn⟩
      exact ⟨g, b, passed, rest, h.atBlock hb, hn⟩
    · rintro ⟨g, hg, hn⟩
      exact ⟨g, h.atGroup hg, by rw [h.used g hg.walks.mem]; exact hn⟩
  | enterBlock b =>
    rw [hpc] at hs
    obtain ⟨h1, h2, g, passed, rest, hb⟩ := hs
    exact ⟨h1, h2, g, passed, rest, h.entering hb⟩
  | leaveGroup next =>
    rw [hpc] at hs
    refine ⟨hs.1, hs.2.1, hs.2.2.imp ?_ ?_⟩
    · exact fun hn => ⟨h.noGroup hn.1, fun g hg => h.mem_groups (hn.2 g hg)⟩
    · rintro ⟨g, hg, hn⟩
      exact ⟨g, h.behindGroup hg, by rw [h.nextOf_eq hg.walks.mem]; exact hn⟩
  | lockGroup next held =>
    rw [hpc] at hs
    obtain ⟨h1, h2, g, hg, hn⟩ := hs
    have hmem := hg.behind.walks.mem
    refine ⟨h1, h2, g, ⟨h.behindGroup hg.behind, fun x hx => ?_⟩, by rw [h.nextOf_eq hmem]; exact hn⟩
    obtain ⟨hnone, hafter, hlock⟩ := hg.held x hx
    have hxmem := mem_of_afterOf hafter
    refine ⟨h.lastGroup.trans hnone, by rw [h.afterOf_eq hxmem]; exact hafter, (hh x hxmem ?_ hlock).1⟩
    rw [State.rtLocked, hpc]
    exact hx
  | checkGroup next =>
    rw [hpc] at hs
    obtain ⟨h1, h2, g, hg, hn, hlock⟩ := hs
    have hmem := hg.walks.mem
    refine ⟨h1, h2, g, h.behindGroup hg, by rw [h.nextOf_eq hmem]; exact hn, (hh g hmem ?_ hlock).1⟩
    rw [State.rtLocked, hpc]
    exact hg.walks.curGroup
  | unlinkGroup next =>
    rw [hpc] at hs
    obtain ⟨h1, h2, g, hg, hn, hlock, hused, hstage⟩ := hs
    have hmem := hg.walks.mem
    obtain ⟨hlock', hstage'⟩ := hh g hmem (by rw [State.rtLocked, hpc]; exact hg.walks.curGroup) hlock
    exact ⟨h1, h2, g, h.behindGroup hg, by rw [h.nextOf_eq hmem]; exact hn, hlock',
      (h.used g hmem).trans hused, hstage'.trans hstage⟩
  | pushPool next =>
    rw [hpc] at hs
    obtain ⟨h1, h2, g, hg⟩ := hs
    exact ⟨h1, h2, g, h.unlinked hg⟩
  | crashed => trivial

end QLog.LogBuffer
