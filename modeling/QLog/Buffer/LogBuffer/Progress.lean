import QLog.Foundations.RwLock
import QLog.Buffer.LogBuffer.Locks

/-!
# Nobody waits forever

A writer may wait for the pointer to the next group while it holds the one before it, and so may the reader,
which takes them for writing. They all go through the list in one direction: a writer that waits does so for
the reader, or at the head or the array where it holds nothing; and the reader waits for writers that do not
wait for it. So there is no circle, and whoever waits does so in the end for a party that can go on
(`deadlock_free`).
-/

namespace QLog.LogBuffer

variable {cfg : Config} {s s' : State} {t g b : ℕ} {p : Party}

/-! ## The locks over all lives -/

theorem LocksOk.of_free (hhead : s.headLock = none) (hpool : s.poolLock = none)
    (hreaders : ∀ g, (s.group g).readers = []) (haw : s.arrayWriter = none) (har : s.arrayReaders = [])
    (hpc : ∀ t, (s.tls t).pc = .idle) : LocksOk s where
  head t ht := by rw [hhead] at ht; cases ht
  pool t ht := by rw [hpool] at ht; cases ht
  readers_nodup g := by rw [hreaders]; exact List.nodup_nil
  readers g t ht := by rw [hreaders] at ht; cases ht
  arrayWriter p hp := by rw [haw] at hp; cases hp
  arrayReaders_nodup := by rw [har]; exact List.nodup_nil
  arrayReaders p hp := by rw [har] at hp; cases hp
  exitBlock t ht := by rw [hpc] at ht; cases ht

theorem locksOk_opened (img : Image) (v : VerifyResult) : LocksOk (State.opened img v) := by
  refine .of_free rfl rfl (fun g => ?_) rfl rfl fun _ => rfl
  simp only [State.opened]
  split <;> rfl

theorem locksOk_of_created (h : s.Created cfg) : LocksOk s := by
  obtain ⟨v, rfl⟩ := h
  split
  · exact locksOk_opened _ v
  · exact .of_free rfl rfl (fun _ => rfl) rfl rfl fun _ => rfl

/-- A reader that has crashed takes no step. -/
theorem not_crashed_of_step {a : Act} (ha : a.writer = none) (hs : step cfg s a = some s') :
    s.rt.pc ≠ .crashed := by
  intro hpc
  cases a with
  | alloc | write | commit | exit => cases ha
  | readChunk => simp [step, readChunk, hpc] at hs
  | read due => simp [step, readerStep, hpc] at hs
  | returnReadChunk => simp [step, returnReadChunk, hpc] at hs

theorem Lives.locksOk {ok : State → Act → Prop} {reopenOk : State → State → Prop}
    (h : Lives cfg ok reopenOk s) (hcrash : s.rt.pc ≠ .crashed) : LocksOk s := by
  induction h with
  | create h => exact locksOk_of_created h
  | @step s s' a hs _ hstep ih =>
    have hw := hs.whole
    cases ha : a.writer with
    | some t =>
      rw [(writer_frame hw.shape.lists ha hstep).2.1.rt] at hcrash
      exact (ih hcrash).writer hw.shape.lists ha hstep
    | none =>
      obtain ⟨e, he⟩ := reader_effect hw.shape ha hstep
      exact (ih (not_crashed_of_step ha hstep)).reads he hcrash
  | reopen _ _ hs =>
    obtain ⟨groups, oversize, v, -, -, rfl⟩ := hs
    exact locksOk_opened _ v

/-! ## Calls -/

/-- A writer inside a call, with a step to take. -/
def WriterPc.inCall : WriterPc → Bool
  | idle | finished | holdingHp _ | holdingLp _ | holdingOversize _ _ => false
  | _ => true

/-- The reader inside a call, with a step to take. -/
def ReaderPc.inCall : ReaderPc → Bool
  | idle | holding _ | empty | crashed => false
  | _ => true

/-- The party is inside a call. -/
def State.Busy (s : State) : Party → Prop
  | .writer t => (s.tls t).pc.inCall
  | .reader => s.rt.pc.inCall

/-- The party can take a step inside its call. -/
def CanGo (cfg : Config) (s : State) : Party → Prop
  | .writer t => ∃ c, (step cfg s (.write t c)).isSome
  | .reader => ∃ due, (step cfg s (.read due)).isSome

/-! ## Waiting -/

/-- The locks: those of the pointers to the groups, the first of which is the head, that of the pool and that
of the array of oversize buffers. -/
inductive LockName
  | head
  | link (g : ℕ)
  | pool
  | array
  deriving DecidableEq

namespace State

variable (s : State)

/-- The party holds the lock for reading. -/
def HoldsRead : Party → LockName → Prop
  | .writer t, .head => ∃ g ∈ s.groups.head?, t ∈ (s.group g).readers
  | .writer t, .link g => t ∈ (s.group g).readers
  | p, .array => p ∈ s.arrayReaders
  | _, _ => False

/-- The party holds the lock for writing, or as the only one. -/
def HoldsWrite : Party → LockName → Prop
  | .writer t, .head => s.headLock = some t
  | .writer t, .link g => s.headLock = some t ∧ s.groups.head? = some g
  | .reader, .head => ∃ g ∈ s.groups.head?, s.rtLocked = some g
  | .reader, .link g => s.rtLocked = some g
  | .writer t, .pool => s.poolLock = some t
  | p, .array => s.arrayWriter = some p
  | _, _ => False

/-- The lock that the party takes for reading next. -/
def wantsRead : Party → Option LockName
  | .writer t =>
    match (s.tls t).pc with
    | .lockNext _ _ none => some .head
    | .lockNext _ _ (some g) => (nextOf s.groups g).map .link
    | .oversizeLock _ => some .array
    | _ => none
  | .reader =>
    match s.rt.pc with
    | .oversizeLock _ => some .array
    | _ => none

/-- The lock that the party takes for writing next, or as the only one. -/
def wantsWrite : Party → Option LockName
  | .writer t =>
    match (s.tls t).pc with
    | .lockHead _ _ => some .head
    | .popHead _ _ => some .pool
    | .oversizeGrow _ | .exitLock => some .array
    | _ => none
  | .reader =>
    match s.rt.pc with
    | .lockGroup _ held => (lockTarget s held).map .link
    | .unlinkGroup _ => (s.rt.curGroup.bind (nextOf s.groups)).map .link
    | .pushPool _ => some .pool
    | _ => none

/-- The party holds a lock. -/
def Holds (p : Party) : Prop := ∃ k, s.HoldsRead p k ∨ s.HoldsWrite p k

/-- The party waits for another one, which holds the lock that it takes next. -/
def WaitsFor (p q : Party) : Prop :=
  (∃ k, s.wantsRead p = some k ∧ s.HoldsWrite q k) ∨
    ∃ k, s.wantsWrite p = some k ∧ (s.HoldsRead q k ∨ s.HoldsWrite q k)

/-- The place of a party in the order: the reader waits for writers of rank 0 only, and who waits for the
reader, or may hold nothing, is above it. -/
def rank : Party → ℕ
  | .reader => 1
  | .writer t =>
    match (s.tls t).pc with
    | .lockNext _ _ none | .lockHead _ _ | .oversizeLock _ | .oversizeGrow _ | .exitLock => 3
    | .lockNext _ _ (some g) => if ∃ x ∈ nextOf s.groups g, s.rtLocked = some x then 2 else 0
    | _ => 0

end State

/-! ## Writers -/

/-- The group node that is put in front has a free block. -/
theorem Whole.spare_free (h : Whole s) : ((linkGroup s).group s.spareGroup).free ≠ [] := by
  have hmem : s.spareGroup * blocksPerGroup ∈ groupBlocks s.spareGroup := by
    rw [mem_groupBlocks, groupOf, blocksPerGroup]
    omega
  unfold linkGroup
  cases hpool : s.pool with
  | nil =>
    simp only [Function.update_self, Group.fresh]
    exact List.ne_nil_of_mem hmem
  | cons g pool =>
    -- the blocks of a pooled group are all free
    have hg : s.spareGroup ∈ s.spares := by
      rw [State.spareGroup, State.spares, hpool]
      exact List.mem_cons_self
    have hb := mem_groupBlocks.mp hmem
    have hpooled : groupOf (s.spareGroup * blocksPerGroup) ∈ s.spares := by rwa [hb]
    rcases h.full _ (List.mem_append_right _ hpooled) with hin | ⟨t, ht⟩
    · rw [hb] at hin
      have hfree : s.spareGroup * blocksPerGroup ∈ (s.group s.spareGroup).free := by
        simpa [Group.blocks, (h.pool _ hg).1, (h.pool _ hg).2] using hin
      exact List.ne_nil_of_mem hfree
    · exact absurd hpooled (h.shape.lists.not_spare (h.shape.lists.hand ht).1)

theorem role_of_headPool {pc : WriterPc} (h : pc.listGrip = .headPool) : pc.role = .head := by
  unfold WriterPc.listGrip at h
  split at h
  all_goals first
    | rfl
    | cases h

/-- The pool is not locked while a writer that has not locked it holds the head. -/
theorem LocksOk.pool_free (h : LocksOk s) (hl : ListsOk s) (hrole : (s.tls t).pc.role = .head)
    (hgrip : (s.tls t).pc.listGrip ≠ .headPool) : s.poolLock = none := by
  by_contra hne
  obtain ⟨t', ht'⟩ := Option.ne_none_iff_exists'.mp hne
  have hgrip' := h.pool t' ht'
  have hrole' : (s.tls t').pc.role = .head := role_of_headPool hgrip'
  have hhead := hl.role t
  have hhead' := hl.role t'
  rw [hrole] at hhead
  rw [hrole'] at hhead'
  obtain rfl : t = t' := Option.some.inj (hhead.symm.trans hhead')
  exact hgrip hgrip'

theorem LocksOk.popHead (h : LocksOk s) (hw : Whole s) {call : Call} {seq : ℕ}
    (hpc : (s.tls t).pc = .popHead call seq) : (newBlockStep cfg s t).isSome := by
  have hpool := h.pool_free hw.shape.lists (t := t) (by rw [hpc]; rfl) (by rw [hpc]; simp [WriterPc.listGrip])
  simp only [newBlockStep, hpc, hpool, if_true]
  split
  · rfl
  · split <;> rfl

theorem Whole.newGroup (hw : Whole s) {call : Call} {seq : ℕ} (hpc : (s.tls t).pc = .newGroup call seq) :
    (newBlockStep cfg s t).isSome := by
  simp only [newBlockStep, hpc]
  split
  · rename_i hfree
    exact absurd hfree hw.spare_free
  · rfl

/-- The array can be locked for writing, or someone holds it. -/
theorem array_free_or (s : State) : (s.arrayWriter = none ∧ s.arrayReaders = []) ∨
    ∃ q, s.HoldsRead q .array ∨ s.HoldsWrite q .array := by
  cases haw : s.arrayWriter with
  | some q => exact .inr ⟨q, .inr (by cases q <;> exact haw)⟩
  | none =>
    cases har : s.arrayReaders with
    | nil => exact .inl ⟨rfl, rfl⟩
    | cons q l =>
      have hin : q ∈ s.arrayReaders := by
        rw [har]
        exact List.mem_cons_self
      exact .inr ⟨q, .inl (by cases q <;> exact hin)⟩

/-- A writer can go on, or another party holds the lock that it takes next. -/
theorem LocksOk.writer_progress (h : LocksOk s) (hw : Whole s) (hin : (s.tls t).pc.inCall) :
    CanGo cfg s (.writer t) ∨ ∃ q, s.WaitsFor (.writer t) q := by
  have hgo : (writerStep cfg s t .ok).isSome → CanGo cfg s (.writer t) := fun h => ⟨.ok, h⟩
  cases hpc : (s.tls t).pc with
  | idle | finished | holdingHp | holdingLp | holdingOversize => rw [hpc] at hin; cases hin
  | lockNext call seq group =>
    cases group with
    | none =>
      have hwants : s.wantsRead (.writer t) = some .head := by simp only [State.wantsRead, hpc]
      cases hhead : s.headLock with
      | some t' => exact .inr ⟨.writer t', .inl ⟨.head, hwants, hhead⟩⟩
      | none =>
        cases hg : s.groups with
        | nil => exact .inl (hgo (by simp [writerStep, hpc, newBlockStep, hhead, hg]))
        | cons g gs =>
          by_cases hrt : s.rtLocked = some g
          · exact .inr ⟨.reader, .inl ⟨.head, hwants, g, by rw [hg]; rfl, hrt⟩⟩
          · exact .inl (hgo (by simp [writerStep, hpc, newBlockStep, hhead, hg, hrt]))
    | some g =>
      cases hnext : nextOf s.groups g with
      | none => exact .inl (hgo (by simp [writerStep, hpc, newBlockStep, hnext]))
      | some x =>
        by_cases hrt : s.rtLocked = some x
        · refine .inr ⟨.reader, .inl ⟨.link x, ?_, hrt⟩⟩
          simp only [State.wantsRead, hpc, hnext, Option.map_some]
        · exact .inl (hgo (by simp [writerStep, hpc, newBlockStep, hnext, hrt]))
  | lockHead call seq =>
    have hwants : s.wantsWrite (.writer t) = some .head := by simp only [State.wantsWrite, hpc]
    by_cases hfree : s.headLock = none ∧ ∀ g ∈ s.groups.head?, (s.group g).readers = [] ∧ s.rtLocked ≠ some g
    · refine .inl (hgo ?_)
      simp only [writerStep, hpc, newBlockStep, if_pos hfree, Option.isSome_some]
    · refine .inr ?_
      rcases not_and_or.mp hfree with hhead | hreaders
      · obtain ⟨t', ht'⟩ := Option.ne_none_iff_exists'.mp hhead
        exact ⟨.writer t', .inr ⟨.head, hwants, .inr ht'⟩⟩
      · push Not at hreaders
        obtain ⟨g, hg, hor⟩ := hreaders
        by_cases hr : (s.group g).readers = []
        · exact ⟨.reader, .inr ⟨.head, hwants, .inr ⟨g, hg, hor hr⟩⟩⟩
        · obtain ⟨t', ht'⟩ := List.exists_mem_of_ne_nil _ hr
          exact ⟨.writer t', .inr ⟨.head, hwants, .inl ⟨g, hg, ht'⟩⟩⟩
  | oversizeLock call =>
    cases haw : s.arrayWriter with
    | none => exact .inl (hgo (by simp [writerStep, hpc, oversizeStep, haw]))
    | some q =>
      refine .inr ⟨q, .inl ⟨.array, by simp only [State.wantsRead, hpc], ?_⟩⟩
      cases q <;> exact haw
  | oversizeGrow call =>
    rcases array_free_or s with hfree | ⟨q, hq⟩
    · refine .inl (hgo ?_)
      simp only [writerStep, hpc, oversizeStep, if_pos hfree, Option.isSome_some]
    · exact .inr ⟨q, .inr ⟨.array, by simp only [State.wantsWrite, hpc], hq⟩⟩
  | exitLock =>
    rcases array_free_or s with hfree | ⟨q, hq⟩
    · refine .inl (hgo ?_)
      simp only [writerStep, hpc, exitStep, if_pos hfree, Option.isSome_some]
    · exact .inr ⟨q, .inr ⟨.array, by simp only [State.wantsWrite, hpc], hq⟩⟩
  | hpStart call =>
    refine .inl (hgo ?_)
    simp only [writerStep, hpc, hpStep]
    split
    · rfl
    · split <;> rfl
  | popFree call seq g =>
    refine .inl (hgo ?_)
    simp only [writerStep, hpc, newBlockStep]
    split <;> rfl
  | popHead call seq =>
    refine .inl (hgo ?_)
    simp only [writerStep, hpc]
    exact h.popHead hw hpc
  | newGroup call seq =>
    refine .inl (hgo ?_)
    simp only [writerStep, hpc]
    exact hw.newGroup hpc
  | oversizeSearch call i =>
    refine .inl (hgo ?_)
    simp only [writerStep, hpc, oversizeStep]
    split
    · rfl
    · split <;> rfl
  | exitBlock =>
    refine .inl (hgo ?_)
    simp only [writerStep, hpc, exitStep]
    obtain ⟨b, hb⟩ := Option.isSome_iff_exists.mp (h.exitBlock t hpc)
    rw [hb]
    rfl
  | lpFailed use sizeInvalid =>
    refine .inl (hgo ?_)
    simp only [writerStep, hpc, lpStep, Option.isSome_some]
  | pushStage | hpAlloc | hpFull | lpAlloc | lpReserved | lpGranted | oversizeStart | oversizeCreate
  | oversizeAbort | oversizeUnlock | oversizeParent | exitBuffers | exitCommit =>
    refine .inl (hgo ?_)
    simp only [writerStep, hpc, newBlockStep, hpStep, lpStep, oversizeStep, exitStep, Option.isSome_some]

/-! ## The reader -/

/-- The reader can lock the pointer to a group, or a writer holds the lock. -/
theorem canLock_or (s : State) (g : ℕ) :
    s.CanLock g ∨ ∃ q, s.HoldsRead q (.link g) ∨ s.HoldsWrite q (.link g) := by
  by_cases hr : (s.group g).readers = []
  · by_cases hhead : s.groups.head? = some g → s.headLock = none
    · exact .inl ⟨hr, hhead⟩
    · push Not at hhead
      obtain ⟨t, ht⟩ := Option.ne_none_iff_exists'.mp hhead.2
      exact .inr ⟨.writer t, .inr ⟨ht, hhead.1⟩⟩
  · obtain ⟨t, ht⟩ := List.exists_mem_of_ne_nil _ hr
    exact .inr ⟨.writer t, .inl ht⟩

/-- The reader can go on, or a writer holds the lock that it takes next. -/
theorem reader_progress (h : Shape s) (hin : s.rt.pc.inCall) :
    CanGo cfg s .reader ∨ ∃ q, s.WaitsFor .reader q := by
  have hgo : (readerStep s true).isSome → CanGo cfg s .reader := fun h => ⟨true, h⟩
  have hs := h.stands
  unfold Stands at hs
  cases hpc : s.rt.pc with
  | idle | holding | empty | crashed => rw [hpc] at hin; cases hin
  | loop =>
    refine .inl (hgo ?_)
    rw [hpc] at hs
    obtain ⟨-, hs⟩ := hs
    cases hst : s.rt.state with
    | hpBlockReading =>
      rw [hst] at hs
      obtain ⟨g, b, passed, rest, hs⟩ := hs
      simp [readerStep, hpc, readLoop, hst, hs.curBlock]
    | nextBlockFinding =>
      rw [hst] at hs
      obtain ⟨g, hg⟩ : ∃ g, s.rt.curGroup = some g := by
        rcases hs with ⟨g, _, _, _, hs⟩ | ⟨g, hs⟩
        · exact ⟨g, hs.walks.curGroup⟩
        · exact ⟨g, hs.walks.curGroup⟩
      simp [readerStep, hpc, readLoop, hst, hg]
    | lpBufferReading | nextGroupFinding | traversalCompleted =>
      simp [readerStep, hpc, readLoop, hst]
  | oversizeLock parent =>
    cases haw : s.arrayWriter with
    | none => exact .inl (hgo (by simp [readerStep, hpc, haw]))
    | some q =>
      refine .inr ⟨q, .inl ⟨.array, by simp only [State.wantsRead, hpc], ?_⟩⟩
      cases q <;> exact haw
  | leaveBlock next =>
    refine .inl (hgo ?_)
    rw [hpc] at hs
    obtain ⟨g, hg⟩ : ∃ g, s.rt.curGroup = some g := by
      rcases hs.2.2 with ⟨g, _, _, _, hs, _⟩ | ⟨g, hs, _⟩
      · exact ⟨g, hs.walks.curGroup⟩
      · exact ⟨g, hs.walks.curGroup⟩
    simp [readerStep, hpc, hg]
  | lockGroup next held =>
    rw [hpc] at hs
    obtain ⟨-, -, g, hway, -⟩ := hs
    obtain ⟨x, hx, hcase⟩ := hway.target h.lists
    rcases canLock_or s x with hlock | ⟨q, hq⟩
    · refine .inl (hgo ?_)
      simp only [readerStep, hpc, lockGroup, hx, if_pos hlock]
      rcases hcase with rfl | ⟨hnone, -⟩
      · rw [if_pos hway.behind.walks.curGroup]
        rfl
      · split
        · rfl
        · rfl
    · exact .inr ⟨q, .inr ⟨.link x, by simp only [State.wantsWrite, hpc, hx, Option.map_some], hq⟩⟩
  | checkGroup next =>
    rw [hpc] at hs
    obtain ⟨-, -, g, hb, -⟩ := hs
    exact .inl (hgo (by simp [readerStep, hpc, hb.walks.curGroup]))
  | unlinkGroup next =>
    rw [hpc] at hs
    obtain ⟨-, -, g, hb, -⟩ := hs
    have hg := hb.walks.curGroup
    by_cases hfree : ∀ x ∈ nextOf s.groups g, (s.group x).readers = []
    · refine .inl (hgo ?_)
      simp only [readerStep, hpc, hg, Option.bind_some, unlinkGroup, if_pos hfree, Option.isSome_some]
    · push Not at hfree
      obtain ⟨x, hx, hreaders⟩ := hfree
      obtain ⟨t, ht⟩ := List.exists_mem_of_ne_nil _ hreaders
      refine .inr ⟨.writer t, .inr ⟨.link x, ?_, .inl ht⟩⟩
      simp only [State.wantsWrite, hpc, hg, Option.bind_some, Option.mem_def.mp hx, Option.map_some]
  | pushPool next =>
    rw [hpc] at hs
    obtain ⟨-, -, g, hu⟩ := hs
    cases hpool : s.poolLock with
    | none => exact .inl (hgo (by simp [readerStep, hpc, hu.curGroup, pushPool, hpool]))
    | some t => exact .inr ⟨.writer t, .inr ⟨.pool, by simp only [State.wantsWrite, hpc], .inr hpool⟩⟩
  | recycleLock =>
    refine .inl (hgo ?_)
    simp only [readerStep, hpc]
    split <;> rfl
  | recycle i => exact .inl (hgo (by cases i <;> simp only [readerStep, hpc, Option.isSome_some]))
  | oversizeSearch | recycleCheck | enterBlock | leaveGroup | returnParent =>
    exact .inl (hgo (by simp only [readerStep, hpc, Option.isSome_some]))

/-! ## The order -/

/-- The reader that has a pointer locked is on the way to unlink a group. -/
theorem inCall_of_rtLocked (h : s.rtLocked = some g) : s.rt.pc.inCall := by
  unfold State.rtLocked at h
  split at h
  · rename_i hpc
    rw [hpc]
    rfl
  · rename_i hpc
    rw [hpc]
    rfl
  · rename_i hpc
    rw [hpc]
    rfl
  · cases h

/-- A writer that has the head or the pool can go on. -/
theorem LocksOk.head_rank (h : LocksOk s) (hp : s.headLock = some t ∨ s.poolLock = some t) :
    (s.tls t).pc.inCall ∧ s.rank (.writer t) = 0 := by
  have hgrip : (s.tls t).pc.listGrip = .head ∨ (s.tls t).pc.listGrip = .headPool :=
    hp.elim (h.head t) fun hp => .inr (h.pool t hp)
  rw [State.rank]
  cases hpc : (s.tls t).pc with
  | popHead | newGroup | pushStage => exact ⟨rfl, rfl⟩
  | lockNext call seq group =>
    rw [hpc] at hgrip
    cases group <;> simp [WriterPc.listGrip] at hgrip
  | _ => rw [hpc] at hgrip; simp [WriterPc.listGrip] at hgrip

/-- A writer that has the pointer to a group waits for nobody but the reader, and only when this has the
pointer behind the group. -/
theorem LocksOk.link_rank (h : LocksOk s) (hp : t ∈ (s.group g).readers) :
    (s.tls t).pc.inCall ∧ s.rank (.writer t) ≤ 2 ∧
      ((∀ x ∈ nextOf s.groups g, s.rtLocked ≠ some x) → s.rank (.writer t) = 0) := by
  have hgrip := h.readers g t hp
  rw [State.rank]
  cases hpc : (s.tls t).pc with
  | popFree | pushStage => exact ⟨rfl, Nat.zero_le _, fun _ => rfl⟩
  | lockNext call seq group =>
    rw [hpc] at hgrip
    cases group with
    | none => simp [WriterPc.listGrip] at hgrip
    | some g' =>
      obtain rfl := ListGrip.group.inj hgrip
      refine ⟨rfl, ?_, fun hfree => ?_⟩
      · dsimp only
        split <;> omega
      · dsimp only
        rw [if_neg]
        rintro ⟨x, hx, hrt⟩
        exact hfree x hx hrt
  | _ => rw [hpc] at hgrip; simp [WriterPc.listGrip] at hgrip

/-- Who has the head or the pointer to the first group is below the writers that wait for it. -/
theorem LocksOk.head_rank_le (h : LocksOk s) {q : Party} (hq : s.HoldsRead q .head ∨ s.HoldsWrite q .head) :
    s.rank q ≤ 2 := by
  cases q with
  | reader => exact Nat.le_succ 1
  | writer t =>
    rcases hq with ⟨g, -, hq⟩ | hq
    · exact (h.link_rank hq).2.1
    · rw [(h.head_rank (.inl hq)).2]
      exact Nat.zero_le _

/-- Who has the array can go on. -/
theorem LocksOk.array_rank (h : LocksOk s) {q : Party} (hq : s.HoldsRead q .array ∨ s.HoldsWrite q .array) :
    s.Busy q ∧ s.rank q ≤ 1 ∧ ∀ t, q = .writer t → s.rank q = 0 := by
  have hgrip : s.arrayGrip q ≠ .none := by
    rcases hq with hq | hq
    · have hin : q ∈ s.arrayReaders := by cases q <;> exact hq
      rw [h.arrayReaders q hin]
      simp
    · have hin : s.arrayWriter = some q := by cases q <;> exact hq
      rw [h.arrayWriter q hin]
      simp
  cases q with
  | reader =>
    refine ⟨?_, le_refl _, nofun⟩
    rw [State.arrayGrip] at hgrip
    rw [State.Busy]
    cases hpc : s.rt.pc with
    | oversizeSearch | recycle => rfl
    | _ => rw [hpc] at hgrip; exact absurd rfl hgrip
  | writer t =>
    rw [State.arrayGrip] at hgrip
    rw [State.Busy, State.rank]
    cases hpc : (s.tls t).pc with
    | oversizeSearch | oversizeCreate | exitBuffers => exact ⟨rfl, Nat.zero_le _, fun _ _ => rfl⟩
    | _ => rw [hpc] at hgrip; exact absurd rfl hgrip

/-- A lock is released before the call returns. -/
theorem LocksOk.holder_busy (h : LocksOk s) (hp : s.Holds p) : s.Busy p := by
  obtain ⟨k, hk⟩ := hp
  cases k with
  | array => exact (h.array_rank hk).1
  | head =>
    cases p with
    | writer t =>
      rcases hk with ⟨g, -, hk⟩ | hk
      · exact (h.link_rank hk).1
      · exact (h.head_rank (.inl hk)).1
    | reader =>
      obtain ⟨g, -, hk⟩ := hk.resolve_left id
      exact inCall_of_rtLocked hk
  | link g =>
    cases p with
    | writer t =>
      rcases hk with hk | ⟨hk, -⟩
      · exact (h.link_rank hk).1
      · exact (h.head_rank (.inl hk)).1
    | reader => exact inCall_of_rtLocked (hk.resolve_left id)
  | pool =>
    cases p with
    | writer t => exact (h.head_rank (.inr (hk.resolve_left id))).1
    | reader => exact (hk.resolve_left id).elim


theorem State.WaitsFor.holds {q : Party} (h : s.WaitsFor p q) : s.Holds q := by
  rcases h with ⟨k, -, hk⟩ | ⟨k, -, hk⟩
  · exact ⟨k, .inr hk⟩
  · exact ⟨k, hk⟩

/-- The reader waits for the pointer to a group or for the pool. -/
theorem wantsWrite_reader {k : LockName} (h : s.wantsWrite .reader = some k) :
    (∃ x, k = .link x) ∨ k = .pool := by
  unfold State.wantsWrite at h
  cases hpc : s.rt.pc with
  | lockGroup | unlinkGroup =>
    simp only [hpc, Option.map_eq_some_iff] at h
    obtain ⟨x, -, rfl⟩ := h
    exact .inl ⟨x, rfl⟩
  | pushPool =>
    simp only [hpc, Option.some.injEq] at h
    exact .inr h.symm
  | _ => simp [hpc] at h

/-- The reader goes forward: it has neither the pointer that it takes next nor the one behind it. -/
theorem Shape.rtLocked_ne (h : Shape s) {x : ℕ} (hwants : s.wantsWrite .reader = some (.link x)) :
    s.rtLocked ≠ some x ∧ ∀ y ∈ nextOf s.groups x, s.rtLocked ≠ some y := by
  have hnd := (List.nodup_append.mp h.lists.groups_nodup).1
  have hnext : ∀ y, s.rtLocked = some y → nextOf s.groups y = some x := by
    intro y hy
    unfold State.wantsWrite at hwants
    unfold State.rtLocked at hy
    cases hpc : s.rt.pc with
    | lockGroup next held =>
      simp only [hpc, Option.map_eq_some_iff, LockName.link.injEq, exists_eq_right] at hwants hy
      simpa only [hy, lockTarget] using hwants
    | unlinkGroup next =>
      simp only [hpc, Option.map_eq_some_iff, LockName.link.injEq, exists_eq_right] at hwants hy
      simpa only [hy, Option.bind_some] using hwants
    | _ => simp [hpc] at hwants hy
  constructor
  · intro hx
    exact not_mem_afterOf_self hnd (List.mem_of_head? (hnext x hx))
  · intro y hy hlocked
    have hyx := hnext y hlocked
    exact not_mem_afterOf_self hnd (afterOf_subset_of_nextOf hnd hyx _ (List.mem_of_head? hy))

/-- **The order of waiting.** -/
theorem State.WaitsFor.rank_lt {q : Party} (hl : LocksOk s) (hw : Whole s) (h : s.WaitsFor p q) :
    s.rank q < s.rank p := by
  have hnd := (List.nodup_append.mp hw.shape.lists.groups_nodup).1
  cases p with
  | reader =>
    change s.rank q < 1
    rcases h with ⟨k, hwants, hk⟩ | ⟨k, hwants, hk⟩
    · cases hpc : s.rt.pc with
      | oversizeLock =>
        obtain rfl : .array = k := by simpa [State.wantsRead, hpc] using hwants
        cases q with
        | writer t =>
          rw [(hl.array_rank (.inr hk)).2.2 t rfl]
          exact Nat.one_pos
        | reader =>
          have hgrip : s.rt.pc.grip = .write := hl.arrayWriter _ hk
          rw [hpc] at hgrip
          cases hgrip
      | _ => simp [State.wantsRead, hpc] at hwants
    · rcases wantsWrite_reader hwants with ⟨x, rfl⟩ | rfl
      · obtain ⟨hne, hfree⟩ := hw.shape.rtLocked_ne hwants
        cases q with
        | writer t =>
          rcases hk with hk | ⟨hk, -⟩
          · rw [(hl.link_rank hk).2.2 hfree]
            exact Nat.one_pos
          · rw [(hl.head_rank (.inl hk)).2]
            exact Nat.one_pos
        | reader => exact absurd (hk.resolve_left id) hne
      · cases q with
        | writer t =>
          rw [(hl.head_rank (.inr (hk.resolve_left id))).2]
          exact Nat.one_pos
        | reader => exact (hk.resolve_left id).elim
  | writer t =>
    cases hpc : (s.tls t).pc with
    | lockNext call seq group =>
      obtain ⟨k, hwants, hk⟩ : ∃ k, s.wantsRead (.writer t) = some k ∧ s.HoldsWrite q k :=
        h.resolve_right (by simp [State.wantsWrite, hpc])
      cases group with
      | none =>
        obtain rfl : .head = k := by simpa [State.wantsRead, hpc] using hwants
        have htop : s.rank (.writer t) = 3 := by simp only [State.rank, hpc]
        have hq := hl.head_rank_le (.inr hk)
        omega
      | some g =>
        obtain ⟨x, hnext, rfl⟩ : ∃ x, nextOf s.groups g = some x ∧ .link x = k := by
          simpa [State.wantsRead, hpc] using hwants
        cases q with
        | writer t' => exact absurd hk.2 (head_ne_of_nextOf hnd hnext)
        | reader =>
          have htop : s.rank (.writer t) = 2 := by
            simp only [State.rank, hpc]
            exact if_pos ⟨x, hnext, hk⟩
          rw [htop]
          exact Nat.one_lt_two
    | lockHead =>
      obtain ⟨k, hwants, hk⟩ := h.resolve_left (by simp [State.wantsRead, hpc])
      obtain rfl : .head = k := by simpa [State.wantsWrite, hpc] using hwants
      have htop : s.rank (.writer t) = 3 := by simp only [State.rank, hpc]
      have hq := hl.head_rank_le hk
      omega
    | popHead =>
      obtain ⟨k, hwants, hk⟩ := h.resolve_left (by simp [State.wantsRead, hpc])
      obtain rfl : .pool = k := by simpa [State.wantsWrite, hpc] using hwants
      -- the writer that has the head is the only one that takes from the pool
      have hfree := hl.pool_free hw.shape.lists (t := t) (by rw [hpc]; rfl)
        (by rw [hpc]; simp [WriterPc.listGrip])
      cases q with
      | writer t' => simp [State.HoldsRead, State.HoldsWrite, hfree] at hk
      | reader => simp [State.HoldsRead, State.HoldsWrite] at hk
    | oversizeLock =>
      obtain ⟨k, hwants, hk⟩ := h.resolve_right (by simp [State.wantsWrite, hpc])
      obtain rfl : .array = k := by simpa [State.wantsRead, hpc] using hwants
      have htop : s.rank (.writer t) = 3 := by simp only [State.rank, hpc]
      have hq := (hl.array_rank (.inr hk)).2.1
      omega
    | oversizeGrow | exitLock =>
      obtain ⟨k, hwants, hk⟩ := h.resolve_left (by simp [State.wantsRead, hpc])
      obtain rfl : .array = k := by simpa [State.wantsWrite, hpc] using hwants
      have htop : s.rank (.writer t) = 3 := by simp only [State.rank, hpc]
      have hq := (hl.array_rank hk).2.1
      omega
    | _ => simp [State.WaitsFor, State.wantsRead, State.wantsWrite, hpc] at h

/-! ## The theorem -/

/-- **No deadlock**: in every life, whoever holds a lock is inside a call, and whoever is inside a call can go
on, or waits for the holder of a lock, who may wait for another, and in the end for a party that can go on. -/
theorem deadlock_free {ok : State → Act → Prop} {reopenOk : State → State → Prop}
    (h : Lives cfg ok reopenOk s) (hcrash : s.rt.pc ≠ .crashed) :
    (∀ p, s.Holds p → s.Busy p) ∧
      ∀ p, s.Busy p → ∃ q, Relation.ReflTransGen s.WaitsFor p q ∧ CanGo cfg s q := by
  have hl := h.locksOk hcrash
  have hw := h.whole
  refine ⟨fun _ => hl.holder_busy, fun p hp => ?_⟩
  refine exists_reflTransGen_of_rank s.rank (fun p hp => ?_) (fun p q _ hwait => ?_) hp
  · cases p with
    | writer t => exact hl.writer_progress hw hp
    | reader => exact reader_progress hw.shape hp
  · exact ⟨hl.holder_busy hwait.holds, hwait.rank_lt hl hw⟩

/-- Thread 0 commits a record and ends. The reader reads it and recycles the block, and has the pointer to the
group locked when thread 1 looks for a block. -/
def emptiedGroup : List Act :=
  .alloc 0 ⟨1, 5⟩ :: (List.replicate 7 (.write 0 .ok) ++ .commit 0 [7] :: .exit 0 ::
    List.replicate 3 (.write 0 .ok) ++ .readChunk :: List.replicate 8 (.read false) ++ .returnReadChunk ::
    .readChunk :: List.replicate 6 (.read false) ++ [.alloc 1 ⟨1, 5⟩, .write 1 .ok])

theorem deadlock_free_emptiedGroup : ∃ s : State, s.WaitsFor (.writer 1) .reader ∧ s.Busy (.writer 1) ∧
    (∀ p, s.Holds p → s.Busy p) ∧
      ∀ p, s.Busy p → ∃ q, Relation.ReflTransGen s.WaitsFor p q ∧ CanGo memoryConfig s q := by
  have hrun : ∃ s, QLog.run (step memoryConfig) (State.created .valid) emptiedGroup = some s ∧
      s.rt.pc = .checkGroup none ∧ s.rt.curGroup = some 1 ∧ s.groups = [1] ∧
        (s.tls 1).pc = .lockNext ⟨1, 5⟩ 0 none := ⟨_, rfl, rfl, rfl, rfl, rfl⟩
  obtain ⟨s, hs, hrt, hcur, hgroups, hpc⟩ := hrun
  have hlives : Lives memoryConfig (fun _ _ => True) (fun _ _ => True) s :=
    Lives.run (.create ⟨.valid, rfl⟩) hs
  refine ⟨s, .inl ⟨.head, ?_, 1, ?_, ?_⟩, ?_, deadlock_free hlives (by rw [hrt]; simp)⟩
  · simp only [State.wantsRead, hpc]
  · rw [hgroups]
    rfl
  · simp only [State.rtLocked, hrt, hcur]
  · rw [State.Busy, hpc]
    rfl

end QLog.LogBuffer
