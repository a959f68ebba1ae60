import QLog.Buffer.GroupList.Model

/-!
# The invariant of the group list

The groups that are linked form a chain from the head on, and the locks agree with the places of the
threads. `WriterOk` and `ReaderOk` say for each place what its thread relies on: a pointer that is locked is
live, and leads to the group of the iterator. What a thread relies on is not changed by the others, because
a pointer is only written under its write lock, and a group is only unlinked when no lock in it is held
(`WriterOk.frame`, `ReaderOk.frame`).
-/

namespace QLog.GroupList

/-! ## What a thread relies on -/

/-- The pointer is the head, or lies in a linked group. -/
def Live (ls : List ℕ) : Ptr → Prop
  | .head => True
  | .next g => g ∈ ls

/-- An iterator at the group `g`. -/
def At (s : State) (ls : List ℕ) (p : Ptr) (g : ℕ) : Prop := Live ls p ∧ s.node p = some g

/-- A pointer that comes behind the one that is held, or the head. -/
def Ahead (s : State) (ls : List ℕ) (p : Ptr) : Option Ptr → Prop
  | none => p = .head
  | some q => ∃ g, p = .next g ∧ At s ls q g

/-- A group in the hands of one thread. -/
structure Detached (s : State) (ls : List ℕ) (g : ℕ) : Prop where
  not_linked : g ∉ ls
  not_pooled : g ∉ s.pool
  le : g ≤ s.groupIndex

/-- The used and the staged list are empty. -/
def Vacant (s : State) (g : ℕ) : Prop := (s.data g).used = [] ∧ (s.data g).stage = []

/-- The group that a writer is about to link. -/
def Writer.own : Writer → Option ℕ
  | .fresh g | .link g _ | .linkHead g _ => some g
  | _ => none

/-- What a writer relies on. -/
def WriterOk (s : State) (ls : List ℕ) : Writer → Prop
  | .acquire p held | .read p held | .releaseEnd p held => Ahead s ls p held
  | .releaseHeld q p g => Live ls q ∧ At s ls p g
  | .releaseLast q => Live ls q
  | .pop p g | .push p g _ => At s ls p g
  | .leave p => Live ls p
  | .headPop g | .pushHead g _ => s.node .head = some g
  | .fresh g => Detached s ls g ∧ Vacant s g
  | .link g _ => Detached s ls g
  | .linkHead g _ => Detached s ls g ∧ s.node (.next g) = s.node .head
  | .crashed => False
  | .idle | .lockHead | .headLocked | .takePool | .unlockHead => True

/-- The group behind the last group of the reader is linked. -/
def Onward (s : State) (ls : List ℕ) (next : Option ℕ) : Prop :=
  ∀ c, next = some c → c ∈ ls ∧ ∀ l, s.lastGroup = some l → l ∈ ls ∧ s.node (.next l) = some c

/-- The reader visits the group `c`. -/
structure Visits (s : State) (ls : List ℕ) (c : ℕ) : Prop where
  curGroup : s.curGroup = some c
  onward : Onward s ls (some c)
  nextGroup : s.nextGroup = s.node (.next c)

/-- The way of the reader to the pointer that leads to its current group `c`. -/
def Toward (s : State) (ls : List ℕ) (c : ℕ) (p : Ptr) : Option Ptr → Prop
  | none => (s.lastGroup = none ∧ p = .head) ∨ ∃ l, s.lastGroup = some l ∧ p = .next l
  | some q => s.lastGroup = none ∧ ∃ g, p = .next g ∧ At s ls q g ∧ Behind ls g c

/-- A group that the reader has unlinked. -/
structure Removed (s : State) (ls : List ℕ) (g : ℕ) : Prop where
  detached : Detached s ls g
  vacant : Vacant s g
  own : ∀ i, (s.writers i).own ≠ some g
  onward : Onward s ls s.nextGroup

/-- What the reader relies on. -/
def ReaderOk (s : State) (ls : List ℕ) : Reader → Prop
  | .idle => Onward s ls s.curGroup
  | .acquire p held | .read p held => ∃ c, Visits s ls c ∧ Toward s ls c p held
  | .releaseHeld _ p g => ∃ c, Visits s ls c ∧ At s ls p g ∧ (g = c ∨ s.lastGroup = none ∧ Behind ls g c)
  | .checkUsed p g => Visits s ls g ∧ At s ls p g
  | .checkStage p g => Visits s ls g ∧ At s ls p g ∧ (s.data g).used = []
  | .leave _ => ∃ c, Visits s ls c
  | .lockNext p g | .readNext p g => Visits s ls g ∧ At s ls p g ∧ Vacant s g
  | .unlockNext p g nextNode => Visits s ls g ∧ At s ls p g ∧ Vacant s g ∧ nextNode = s.node (.next g)
  | .unlink p g nextNode => Visits s ls g ∧ At s ls p g ∧ Vacant s g ∧ nextNode = s.node (.next g) ∧
      ∀ i, Ptr.next g ∉ (s.writers i).reads
  | .unlockLast _ g | .pushPool g => Removed s ls g
  | .crashed => False

/-- The invariant, when the groups of `ls` are linked. -/
structure Inv (s : State) (ls : List ℕ) : Prop where
  linked : s.Linked ls
  locks : Accounts s.lock s.reads s.writes
  le : ∀ g ∈ ls, g ≤ s.groupIndex
  pool : ∀ g ∈ s.pool, g ∉ ls ∧ g ≤ s.groupIndex ∧ Vacant s g
  pool_nodup : s.pool.Nodup
  blocks : ∀ g ≤ s.groupIndex, ∀ b < maxBlockCountPerGroup, b ∈ (s.data g).used ∨ b ∈ (s.data g).stage ∨
    b ∈ (s.data g).free ∨ ∃ i, (s.writers i).hand = some (g, b)
  writers : ∀ i, WriterOk s ls (s.writers i)
  reader : ReaderOk s ls s.reader

/-! ## Iterators -/

variable {s s' : State} {ls ls' : List ℕ} {p q : Ptr} {g : ℕ} {i j : ℕ} {pc : Writer} {r : Reader}

theorem At.mem (h : At s ls p g) (hl : s.Linked ls) : g ∈ ls := by
  obtain ⟨hlive, hnode⟩ := h
  cases p with
  | head =>
    have hhead := hl.head?_eq
    rw [hnode] at hhead
    exact List.mem_of_head? hhead
  | next a => exact hl.mem_of_next hlive hnode

/-- Only one live pointer leads to a group. -/
theorem At.unique (h : At s ls p g) (h' : At s ls q g) (hl : s.Linked ls) : p = q := by
  obtain ⟨hp, hpg⟩ := h
  obtain ⟨hq, hqg⟩ := h'
  cases p with
  | head =>
    cases q with
    | head => rfl
    | next b =>
      unfold State.Linked at hl
      rw [hpg] at hl
      exact absurd hqg (hl.next_ne_head hq)
  | next a =>
    cases q with
    | head =>
      unfold State.Linked at hl
      rw [hqg] at hl
      exact absurd hpg (hl.next_ne_head hp)
    | next b => rw [hl.eq_of_next hp hq hpg hqg]

theorem Ahead.live {held : Option Ptr} (h : Ahead s ls p held) (hl : s.Linked ls) : Live ls p := by
  cases held with
  | none =>
    obtain rfl : p = .head := h
    trivial
  | some q =>
    obtain ⟨g, rfl, hat⟩ := h
    exact hat.mem hl

/-! ## Frames -/

/-- A step of another thread, as a writer sees it. -/
structure Keeps (s s' : State) (ls ls' : List ℕ) (pc : Writer) : Prop where
  held : ∀ p, p ∈ pc.reads ∨ p ∈ pc.writes → Live ls p → Live ls' p ∧ s'.node p = s.node p
  own : ∀ g, pc.own = some g → Detached s ls g →
    Detached s' ls' g ∧ s'.node (.next g) = s.node (.next g) ∧ s'.data g = s.data g

theorem Keeps.iterator (h : Keeps s s' ls ls' pc) (hp : p ∈ pc.reads) (hat : At s ls p g) : At s' ls' p g := by
  obtain ⟨hlive, hnode⟩ := h.held p (.inl hp) hat.1
  exact ⟨hlive, hnode.trans hat.2⟩

theorem Keeps.ahead (h : Keeps s s' ls ls' pc) {held : Option Ptr} (hheld : ∀ q ∈ held, q ∈ pc.reads)
    (ha : Ahead s ls p held) : Ahead s' ls' p held := by
  cases held with
  | none => exact ha
  | some q =>
    obtain ⟨g, rfl, hat⟩ := ha
    exact ⟨g, rfl, h.iterator (hheld q rfl) hat⟩

/-- **What a writer relies on stays.** -/
theorem WriterOk.frame (h : WriterOk s ls pc) (hk : Keeps s s' ls ls' pc) : WriterOk s' ls' pc := by
  cases pc with
  | idle | lockHead | headLocked | takePool | unlockHead => trivial
  | crashed => exact h
  | acquire p held => exact hk.ahead (fun q hq => Option.mem_toList.2 hq) h
  | read p held | releaseEnd p held =>
    exact hk.ahead (fun q hq => List.mem_cons_of_mem p (Option.mem_toList.2 hq)) h
  | releaseHeld q p g =>
    exact ⟨(hk.held q (.inl (List.mem_cons_of_mem p List.mem_cons_self)) h.1).1,
      hk.iterator List.mem_cons_self h.2⟩
  | releaseLast q => exact (hk.held q (.inl List.mem_cons_self) h).1
  | pop p g | push p g b => exact hk.iterator List.mem_cons_self h
  | leave p => exact (hk.held p (.inl List.mem_cons_self) h).1
  | headPop g | pushHead g b =>
    exact (hk.held .head (.inr List.mem_cons_self) trivial).2.trans h
  | fresh g =>
    obtain ⟨hdet, -, hdata⟩ := hk.own g rfl h.1
    refine ⟨hdet, ?_⟩
    rw [Vacant, hdata]
    exact h.2
  | link g b => exact (hk.own g rfl h).1
  | linkHead g b =>
    obtain ⟨hdet, hnode, -⟩ := hk.own g rfl h.1
    exact ⟨hdet, hnode.trans (h.2.trans (hk.held .head (.inr List.mem_cons_self) trivial).2.symm)⟩

/-- The group whose lists the reader has looked at. -/
def Reader.victim : Reader → Option ℕ
  | .checkStage _ g | .lockNext _ g | .readNext _ g | .unlockNext _ g _ | .unlink _ g _ | .unlockLast _ g
  | .pushPool g => some g
  | _ => none

/-- The group that the reader has unlinked. -/
def Reader.removed : Reader → Option ℕ
  | .unlockLast _ g | .pushPool g => some g
  | _ => none

/-- A step of a writer, as the reader sees it. -/
structure Stays (s s' : State) (ls ls' : List ℕ) (r : Reader) : Prop where
  lastGroup : s'.lastGroup = s.lastGroup
  curGroup : s'.curGroup = s.curGroup
  nextGroup : s'.nextGroup = s.nextGroup
  linked : ∀ g ∈ ls, g ∈ ls' ∧ s'.node (.next g) = s.node (.next g)
  behind : ∀ a b, Behind ls a b → Behind ls' a b
  head : Ptr.head ∈ r.writes → s'.node .head = s.node .head
  victim : ∀ g, r.victim = some g →
    (s'.data g).used = (s.data g).used ∧ (s'.data g).stage = (s.data g).stage
  removed : ∀ g, r.removed = some g → Detached s ls g → (∀ i, (s.writers i).own ≠ some g) →
    Detached s' ls' g ∧ ∀ i, (s'.writers i).own ≠ some g
  reads : ∀ p g nextNode, r = .unlink p g nextNode → At s ls p g →
    (∀ i, Ptr.next g ∉ (s.writers i).reads) → ∀ i, Ptr.next g ∉ (s'.writers i).reads

namespace Stays

variable {c : ℕ}

theorem iterator (h : Stays s s' ls ls' r) (hp : p ∈ r.writes) (hat : At s ls p g) : At s' ls' p g := by
  obtain ⟨hlive, hnode⟩ := hat
  cases p with
  | head => exact ⟨trivial, (h.head hp).trans hnode⟩
  | next a => exact ⟨(h.linked a hlive).1, (h.linked a hlive).2.trans hnode⟩

theorem onward (h : Stays s s' ls ls' r) {next : Option ℕ} (ho : Onward s ls next) :
    Onward s' ls' next := fun c hc => by
  obtain ⟨hmem, hlast⟩ := ho c hc
  refine ⟨(h.linked c hmem).1, fun l hl => ?_⟩
  obtain ⟨hlmem, hnode⟩ := hlast l (h.lastGroup ▸ hl)
  exact ⟨(h.linked l hlmem).1, (h.linked l hlmem).2.trans hnode⟩

theorem visits (h : Stays s s' ls ls' r) (hv : Visits s ls c) : Visits s' ls' c where
  curGroup := h.curGroup.trans hv.curGroup
  onward := h.onward hv.onward
  nextGroup := h.nextGroup.trans (hv.nextGroup.trans (h.linked c (hv.onward c rfl).1).2.symm)

theorem toward (h : Stays s s' ls ls' r) {held : Option Ptr} (hheld : ∀ q ∈ held, q ∈ r.writes)
    (ht : Toward s ls c p held) : Toward s' ls' c p held := by
  cases held with
  | none =>
    unfold Toward
    rw [h.lastGroup]
    exact ht
  | some q =>
    obtain ⟨hlast, g, rfl, hat, hb⟩ := ht
    exact ⟨h.lastGroup.trans hlast, g, rfl, h.iterator (hheld q rfl) hat, h.behind g c hb⟩

theorem vacant (h : Stays s s' ls ls' r) (hg : r.victim = some g) (hv : Vacant s g) : Vacant s' g := by
  obtain ⟨hused, hstage⟩ := h.victim g hg
  exact ⟨hused.trans hv.1, hstage.trans hv.2⟩

theorem isRemoved (h : Stays s s' ls ls' r) (hv : r.victim = some g) (hg : r.removed = some g)
    (hr : Removed s ls g) : Removed s' ls' g := by
  obtain ⟨hdet, hown⟩ := h.removed g hg hr.detached hr.own
  exact ⟨hdet, h.vacant hv hr.vacant, hown, h.nextGroup ▸ h.onward hr.onward⟩

end Stays

/-- **What the reader relies on stays.** -/
theorem ReaderOk.frame (h : ReaderOk s ls r) (hs : Stays s s' ls ls' r) : ReaderOk s' ls' r := by
  cases r with
  | idle =>
    have ho := hs.onward h
    rwa [← hs.curGroup] at ho
  | acquire p held =>
    obtain ⟨c, hv, ht⟩ := h
    exact ⟨c, hs.visits hv, hs.toward (fun q hq => Option.mem_toList.2 hq) ht⟩
  | read p held =>
    obtain ⟨c, hv, ht⟩ := h
    exact ⟨c, hs.visits hv, hs.toward (fun q hq => List.mem_cons_of_mem p (Option.mem_toList.2 hq)) ht⟩
  | releaseHeld q p g =>
    obtain ⟨c, hv, hat, hc⟩ := h
    refine ⟨c, hs.visits hv, hs.iterator List.mem_cons_self hat, ?_⟩
    exact hc.imp_right fun ⟨hlast, hb⟩ => ⟨hs.lastGroup.trans hlast, hs.behind g c hb⟩
  | checkUsed p g => exact ⟨hs.visits h.1, hs.iterator List.mem_cons_self h.2⟩
  | checkStage p g =>
    exact ⟨hs.visits h.1, hs.iterator List.mem_cons_self h.2.1, (hs.victim g rfl).1.trans h.2.2⟩
  | leave p =>
    obtain ⟨c, hv⟩ := h
    exact ⟨c, hs.visits hv⟩
  | lockNext p g => exact ⟨hs.visits h.1, hs.iterator List.mem_cons_self h.2.1, hs.vacant rfl h.2.2⟩
  | readNext p g =>
    exact ⟨hs.visits h.1, hs.iterator (List.mem_cons_of_mem _ List.mem_cons_self) h.2.1, hs.vacant rfl h.2.2⟩
  | unlockNext p g nextNode =>
    obtain ⟨hv, hat, hvac, hnext⟩ := h
    exact ⟨hs.visits hv, hs.iterator (List.mem_cons_of_mem _ List.mem_cons_self) hat, hs.vacant rfl hvac,
      hnext.trans (hs.linked g (hv.onward g rfl).1).2.symm⟩
  | unlink p g nextNode =>
    obtain ⟨hv, hat, hvac, hnext, hreads⟩ := h
    exact ⟨hs.visits hv, hs.iterator List.mem_cons_self hat, hs.vacant rfl hvac,
      hnext.trans (hs.linked g (hv.onward g rfl).1).2.symm, hs.reads p g nextNode rfl hat hreads⟩
  | unlockLast p g | pushPool g => exact hs.isRemoved rfl rfl h
  | crashed => exact h

end QLog.GroupList
