import QLog.Buffer.LogBuffer.Lives

/-!
# The locks of the log buffer

The writers and the reader take the locks of the group list, of the pool of groups and of the array of
oversize buffers. `LocksOk` says who can hold a lock: a party at a program counter between the step that
takes the lock and the step that releases it. Nobody who holds a lock waits for another one that is held,
so some party inside a call can always go on (`deadlock_free`).
-/

namespace QLog.LogBuffer

variable {cfg : Config} {s s' u : State} {t g b : ℕ} {c : Choice}

/-! ## Who holds what -/

/-- The locks of the group list and of the pool that a writer holds. -/
inductive ListGrip
  | none
  /-- The pointer to the group, for reading. -/
  | group (g : ℕ)
  /-- The head, for writing. -/
  | head
  /-- The head and the pool. -/
  | headPool
  deriving DecidableEq

def WriterPc.listGrip : WriterPc → ListGrip
  | lockNext _ _ (some g) | popFree _ _ g | pushStage _ g _ false => .group g
  | popHead _ _ | pushStage _ _ _ true => .head
  | newGroup _ _ => .headPool
  | _ => .none

/-- The lock of the array of oversize buffers that a writer holds. -/
def WriterPc.arrayGrip : WriterPc → ArrayGrip
  | oversizeSearch _ _ => .read
  | oversizeCreate _ | exitBuffers => .write
  | _ => .none

def State.arrayGrip (s : State) : Party → ArrayGrip
  | .writer t => (s.tls t).pc.arrayGrip
  | .reader => s.rt.pc.grip

/-- A lock that is held is held by a party that has taken it and not released it. -/
structure LocksOk (s : State) : Prop where
  head : ∀ t, s.headLock = some t → (s.tls t).pc.listGrip = .head ∨ (s.tls t).pc.listGrip = .headPool
  pool : ∀ t, s.poolLock = some t → (s.tls t).pc.listGrip = .headPool
  readers_nodup : ∀ g, (s.group g).readers.Nodup
  readers : ∀ g, ∀ t ∈ (s.group g).readers, (s.tls t).pc.listGrip = .group g
  arrayWriter : ∀ p, s.arrayWriter = some p → s.arrayGrip p = .write
  arrayReaders_nodup : s.arrayReaders.Nodup
  arrayReaders : ∀ p ∈ s.arrayReaders, s.arrayGrip p = .read
  exitBlock : ∀ t, (s.tls t).pc = .exitBlock → (s.tls t).curBlock.isSome

/-! ## Steps of the writers -/

/-- The locks of the group list and of the pool are the same. -/
structure SameListLocks (s s' : State) : Prop where
  headLock : s'.headLock = s.headLock
  poolLock : s'.poolLock = s.poolLock
  readers : ∀ g, (s'.group g).readers = (s.group g).readers

/-- A step of writer `t`: the locks of the others stay theirs, and its own are those of its new program
counter. -/
structure LockStep (s s' : State) (t : ℕ) : Prop where
  tls : ∀ t', t' ≠ t → s'.tls t' = s.tls t'
  rt : s'.rt = s.rt
  head : ∀ t', s'.headLock = some t' → t' = t ∧ ((s'.tls t).pc.listGrip = .head ∨
    (s'.tls t).pc.listGrip = .headPool) ∨ t' ≠ t ∧ s.headLock = some t'
  pool : ∀ t', s'.poolLock = some t' → t' = t ∧ (s'.tls t).pc.listGrip = .headPool ∨
    t' ≠ t ∧ s.poolLock = some t'
  readers_nodup : ∀ g, (s'.group g).readers.Nodup
  readers : ∀ g, ∀ t' ∈ (s'.group g).readers, t' = t ∧ (s'.tls t).pc.listGrip = .group g ∨
    t' ≠ t ∧ t' ∈ (s.group g).readers
  arrayWriter : ∀ p, s'.arrayWriter = some p → p = .writer t ∧ (s'.tls t).pc.arrayGrip = .write ∨
    p ≠ .writer t ∧ s.arrayWriter = some p
  arrayReaders_nodup : s'.arrayReaders.Nodup
  arrayReaders : ∀ p ∈ s'.arrayReaders, p = .writer t ∧ (s'.tls t).pc.arrayGrip = .read ∨
    p ≠ .writer t ∧ p ∈ s.arrayReaders
  exitBlock : (s'.tls t).pc = .exitBlock → (s'.tls t).curBlock.isSome

theorem State.arrayGrip_of_ne (htls : ∀ t', t' ≠ t → s'.tls t' = s.tls t') (hrt : s'.rt = s.rt)
    {p : Party} (hp : p ≠ .writer t) : s'.arrayGrip p = s.arrayGrip p := by
  cases p with
  | writer t' => rw [arrayGrip, arrayGrip, htls t' fun he => hp (he ▸ rfl)]
  | reader => rw [arrayGrip, arrayGrip, hrt]

theorem LockStep.locksOk (h : LockStep s s' t) (hl : LocksOk s) : LocksOk s' where
  head t' ht' := by
    rcases h.head t' ht' with ⟨rfl, hg⟩ | ⟨hne, ht'⟩
    · exact hg
    · rw [h.tls t' hne]
      exact hl.head t' ht'
  pool t' ht' := by
    rcases h.pool t' ht' with ⟨rfl, hg⟩ | ⟨hne, ht'⟩
    · exact hg
    · rw [h.tls t' hne]
      exact hl.pool t' ht'
  readers_nodup := h.readers_nodup
  readers g t' ht' := by
    rcases h.readers g t' ht' with ⟨rfl, hg⟩ | ⟨hne, ht'⟩
    · exact hg
    · rw [h.tls t' hne]
      exact hl.readers g t' ht'
  arrayWriter p hp := by
    rcases h.arrayWriter p hp with ⟨rfl, hg⟩ | ⟨hne, hp⟩
    · exact hg
    · rw [State.arrayGrip_of_ne h.tls h.rt hne]
      exact hl.arrayWriter p hp
  arrayReaders_nodup := h.arrayReaders_nodup
  arrayReaders p hp := by
    rcases h.arrayReaders p hp with ⟨rfl, hg⟩ | ⟨hne, hp⟩
    · exact hg
    · rw [State.arrayGrip_of_ne h.tls h.rt hne]
      exact hl.arrayReaders p hp
  exitBlock t' ht' := by
    rcases eq_or_ne t' t with rfl | hne
    · exact h.exitBlock ht'
    · rw [h.tls t' hne] at ht' ⊢
      exact hl.exitBlock t' ht'

/-- A step that leaves the lock of the array alone. -/
theorem LockStep.of_list (hl : LocksOk s) (htls : ∀ t', t' ≠ t → s'.tls t' = s.tls t') (hrt : s'.rt = s.rt)
    (haw : s'.arrayWriter = s.arrayWriter) (har : s'.arrayReaders = s.arrayReaders)
    (hgrip : (s'.tls t).pc.arrayGrip = (s.tls t).pc.arrayGrip)
    (hexit : (s'.tls t).pc = .exitBlock → (s'.tls t).curBlock.isSome)
    (head : ∀ t', s'.headLock = some t' → t' = t ∧ ((s'.tls t).pc.listGrip = .head ∨
      (s'.tls t).pc.listGrip = .headPool) ∨ t' ≠ t ∧ s.headLock = some t')
    (pool : ∀ t', s'.poolLock = some t' → t' = t ∧ (s'.tls t).pc.listGrip = .headPool ∨
      t' ≠ t ∧ s.poolLock = some t')
    (hnodup : ∀ g, (s'.group g).readers.Nodup)
    (hreaders : ∀ g, ∀ t' ∈ (s'.group g).readers, t' = t ∧ (s'.tls t).pc.listGrip = .group g ∨
      t' ≠ t ∧ t' ∈ (s.group g).readers) : LockStep s s' t where
  tls := htls
  rt := hrt
  head := head
  pool := pool
  readers_nodup := hnodup
  readers := hreaders
  arrayWriter p hp := by
    rw [haw] at hp
    rcases eq_or_ne p (.writer t) with rfl | hne
    · exact .inl ⟨rfl, hgrip.trans (hl.arrayWriter _ hp)⟩
    · exact .inr ⟨hne, hp⟩
  arrayReaders_nodup := har ▸ hl.arrayReaders_nodup
  arrayReaders p hp := by
    rw [har] at hp
    rcases eq_or_ne p (.writer t) with rfl | hne
    · exact .inl ⟨rfl, hgrip.trans (hl.arrayReaders _ hp)⟩
    · exact .inr ⟨hne, hp⟩
  exitBlock := hexit

/-- A step that leaves the locks of the lists alone. -/
theorem LockStep.of_array (hl : LocksOk s) (htls : ∀ t', t' ≠ t → s'.tls t' = s.tls t')
    (hrt : s'.rt = s.rt) (hs : SameListLocks s s')
    (hgrip : (s'.tls t).pc.listGrip = (s.tls t).pc.listGrip)
    (hexit : (s'.tls t).pc = .exitBlock → (s'.tls t).curBlock.isSome)
    (hwriter : ∀ p, s'.arrayWriter = some p → p = .writer t ∧ (s'.tls t).pc.arrayGrip = .write ∨
      p ≠ .writer t ∧ s.arrayWriter = some p)
    (hnodup : s'.arrayReaders.Nodup)
    (hreaders : ∀ p ∈ s'.arrayReaders, p = .writer t ∧ (s'.tls t).pc.arrayGrip = .read ∨
      p ≠ .writer t ∧ p ∈ s.arrayReaders) : LockStep s s' t where
  tls := htls
  rt := hrt
  head t' ht' := by
    rw [hs.headLock] at ht'
    rcases eq_or_ne t' t with rfl | hne
    · exact .inl ⟨rfl, by rw [hgrip]; exact hl.head _ ht'⟩
    · exact .inr ⟨hne, ht'⟩
  pool t' ht' := by
    rw [hs.poolLock] at ht'
    rcases eq_or_ne t' t with rfl | hne
    · exact .inl ⟨rfl, hgrip.trans (hl.pool _ ht')⟩
    · exact .inr ⟨hne, ht'⟩
  readers_nodup g := by
    rw [hs.readers]
    exact hl.readers_nodup g
  readers g t' ht' := by
    rw [hs.readers] at ht'
    rcases eq_or_ne t' t with rfl | hne
    · exact .inl ⟨rfl, hgrip.trans (hl.readers g _ ht')⟩
    · exact .inr ⟨hne, ht'⟩
  arrayWriter := hwriter
  arrayReaders_nodup := hnodup
  arrayReaders := hreaders
  exitBlock := hexit

/-- A step that takes no lock and releases none. -/
theorem LockStep.of_same (hl : LocksOk s) (htls : ∀ t', t' ≠ t → s'.tls t' = s.tls t') (hrt : s'.rt = s.rt)
    (hs : SameListLocks s s') (haw : s'.arrayWriter = s.arrayWriter)
    (har : s'.arrayReaders = s.arrayReaders) (hgrip : (s'.tls t).pc.listGrip = (s.tls t).pc.listGrip)
    (hgrip' : (s'.tls t).pc.arrayGrip = (s.tls t).pc.arrayGrip)
    (hexit : (s'.tls t).pc = .exitBlock → (s'.tls t).curBlock.isSome) : LockStep s s' t := by
  refine .of_array hl htls hrt hs hgrip hexit (fun p hp => ?_) (har ▸ hl.arrayReaders_nodup) fun p hp => ?_
  · rw [haw] at hp
    rcases eq_or_ne p (.writer t) with rfl | hne
    · exact .inl ⟨rfl, hgrip'.trans (hl.arrayWriter _ hp)⟩
    · exact .inr ⟨hne, hp⟩
  · rw [har] at hp
    rcases eq_or_ne p (.writer t) with rfl | hne
    · exact .inl ⟨rfl, hgrip'.trans (hl.arrayReaders _ hp)⟩
    · exact .inr ⟨hne, hp⟩

/-- Only thread-local data of the writer changes, and data that is not under a lock. -/
theorem LockStep.setTls {th : Tls} (hl : LocksOk s) (htls : u.tls = s.tls) (hrt : u.rt = s.rt)
    (hs : SameListLocks s u) (haw : u.arrayWriter = s.arrayWriter) (har : u.arrayReaders = s.arrayReaders)
    (hgrip : th.pc.listGrip = (s.tls t).pc.listGrip) (hgrip' : th.pc.arrayGrip = (s.tls t).pc.arrayGrip)
    (hexit : th.pc ≠ .exitBlock) : LockStep s (u.setTls t th) t := by
  have hself : ((u.setTls t th).tls t) = th := Function.update_self ..
  refine .of_same hl (fun t' ht => ?_) hrt ⟨hs.headLock, hs.poolLock, hs.readers⟩ haw har ?_ ?_ ?_
  · change Function.update u.tls t th t' = s.tls t'
    rw [Function.update_of_ne ht, htls]
  · rw [hself]
    exact hgrip
  · rw [hself]
    exact hgrip'
  · rw [hself]
    exact fun he => absurd he hexit

theorem SameListLocks.refl (s : State) : SameListLocks s s := ⟨rfl, rfl, fun _ => rfl⟩

/-! ### `alloc_new_block` -/

theorem readers_setGroup {grp : Group} {g' : ℕ} :
    ((s.setGroup g grp).group g').readers = if g' = g then grp.readers else (s.group g').readers := by
  rcases eq_or_ne g' g with rfl | hne
  · simp [State.setGroup]
  · simp [State.setGroup, hne]

theorem goto_tls (s : State) (t : ℕ) (pc : WriterPc) :
    ((s.goto t pc).tls t).pc = pc ∧ ∀ t', t' ≠ t → (s.goto t pc).tls t' = s.tls t' :=
  ⟨by rw [State.goto_tls_self], fun _ ht => State.goto_tls_of_ne _ _ ht⟩

/-- A thread whose program counter does not hold the lock of the head is not its owner. -/
theorem LocksOk.head_of_ne (hl : LocksOk s)
    (hgrip : (s.tls t).pc.listGrip ≠ .head ∧ (s.tls t).pc.listGrip ≠ .headPool) (t' : ℕ)
    (ht' : s.headLock = some t') : t' ≠ t ∧ s.headLock = some t' := by
  refine ⟨?_, ht'⟩
  rintro rfl
  rcases hl.head _ ht' with hg | hg
  · exact hgrip.1 hg
  · exact hgrip.2 hg

/-- A thread whose program counter does not hold the lock of the pool is not its owner. -/
theorem LocksOk.pool_of_ne (hl : LocksOk s) (hgrip : (s.tls t).pc.listGrip ≠ .headPool) (t' : ℕ)
    (ht' : s.poolLock = some t') : t' ≠ t ∧ s.poolLock = some t' := by
  refine ⟨?_, ht'⟩
  rintro rfl
  exact hgrip (hl.pool _ ht')

/-- The pointer to a group is locked for reading, and the one before it, if any, is released. -/
theorem lockStep_lockGroup (hl : LocksOk s) {call : Call} {seq g' : ℕ}
    (hgrip : (s.tls t).pc.listGrip = .none ∨ (s.tls t).pc.listGrip = .group g)
    (harray : (s.tls t).pc.arrayGrip = .none) (hne : (s.tls t).pc.listGrip ≠ .group g')
    (htls : u.tls = s.tls) (hrt : u.rt = s.rt) (haw : u.arrayWriter = s.arrayWriter)
    (har : u.arrayReaders = s.arrayReaders) (hhead : u.headLock = s.headLock)
    (hpool : u.poolLock = s.poolLock)
    (hreaders : ∀ x, (u.group x).readers = if x = g' then t :: (s.group x).readers
      else (s.group x).readers.erase t) : LockStep s (u.goto t (.popFree call seq g')) t := by
  obtain ⟨hpc, hother⟩ := goto_tls u t (.popFree call seq g')
  have hnot : ∀ x, t ∉ ((s.group x).readers.erase t) := fun x =>
    List.Nodup.not_mem_erase (hl.readers_nodup x)
  have hnot' : t ∉ (s.group g').readers := fun hin => hne (hl.readers g' t hin)
  refine .of_list hl (fun t' ht => by rw [hother t' ht, htls]) hrt haw har (by rw [hpc, harray]; rfl)
    (fun he => by rw [hpc] at he; cases he) (fun t' ht' => ?_) (fun t' ht' => ?_) (fun x => ?_)
    fun x t' ht' => ?_
  · change u.headLock = some t' at ht'
    rw [hhead] at ht'
    refine .inr (hl.head_of_ne ?_ t' ht')
    rcases hgrip with hg | hg <;> rw [hg] <;> simp
  · change u.poolLock = some t' at ht'
    rw [hpool] at ht'
    refine .inr (hl.pool_of_ne ?_ t' ht')
    rcases hgrip with hg | hg <;> rw [hg] <;> simp
  · change (u.group x).readers.Nodup
    rw [hreaders]
    split
    · rename_i he
      subst he
      exact List.nodup_cons.mpr ⟨hnot', hl.readers_nodup _⟩
    · exact (hl.readers_nodup x).erase t
  · change t' ∈ (u.group x).readers at ht'
    rw [hreaders] at ht'
    split at ht'
    · rename_i he
      subst he
      rcases List.mem_cons.mp ht' with rfl | ht'
      · exact .inl ⟨rfl, by rw [hpc]; rfl⟩
      · exact .inr ⟨fun he => hnot' (he ▸ ht'), ht'⟩
    · exact .inr ⟨fun he => hnot x (he ▸ ht'), List.mem_of_mem_erase ht'⟩

/-- The pointer to a group is released. -/
theorem lockStep_unlockGroup (hl : LocksOk s) (hgrip : (s.tls t).pc.listGrip = .group g)
    (harray : (s.tls t).pc.arrayGrip = .none) (htls : ∀ t', t' ≠ t → u.tls t' = s.tls t')
    (hrt : u.rt = s.rt) (haw : u.arrayWriter = s.arrayWriter) (har : u.arrayReaders = s.arrayReaders)
    (hhead : u.headLock = s.headLock) (hpool : u.poolLock = s.poolLock)
    (hreaders : ∀ x, (u.group x).readers = if x = g then (s.group x).readers.erase t
      else (s.group x).readers)
    (hpc : (u.tls t).pc.arrayGrip = .none ∧ (u.tls t).pc ≠ .exitBlock) : LockStep s u t := by
  have hnot : t ∉ ((s.group g).readers.erase t) := List.Nodup.not_mem_erase (hl.readers_nodup g)
  refine .of_list hl htls hrt haw har (by rw [hpc.1, harray]) (fun he => absurd he hpc.2)
    (fun t' ht' => ?_) (fun t' ht' => ?_) (fun x => ?_) fun x t' ht' => ?_
  · rw [hhead] at ht'
    exact .inr (hl.head_of_ne (by rw [hgrip]; simp) t' ht')
  · rw [hpool] at ht'
    exact .inr (hl.pool_of_ne (by rw [hgrip]; simp) t' ht')
  · rw [hreaders]
    split
    · exact (hl.readers_nodup x).erase t
    · exact hl.readers_nodup x
  · rw [hreaders] at ht'
    split at ht'
    · rename_i he
      subst he
      exact .inr ⟨fun he => hnot (he ▸ ht'), List.mem_of_mem_erase ht'⟩
    · rename_i he
      refine .inr ⟨?_, ht'⟩
      rintro rfl
      have hg := hl.readers x _ ht'
      rw [hgrip] at hg
      cases hg
      exact he rfl

theorem sameListLocks_takeBlock (s : State) (t : ℕ) (call : Call) (seq g b : ℕ) (rest : List ℕ)
    (head : Bool) : SameListLocks s (takeBlock s t call seq g b rest head) :=
  ⟨rfl, rfl, fun x => by
    change ((s.setGroup g { s.group g with free := rest }).group x).readers = _
    rw [readers_setGroup]
    split
    · rename_i he
      rw [he]
    · rfl⟩

theorem takeBlock_tls (s : State) (t : ℕ) (call : Call) (seq g b : ℕ) (rest : List ℕ) (head : Bool) :
    ((takeBlock s t call seq g b rest head).tls t).pc = .pushStage call g b head := by
  rw [takeBlock, State.goto_tls_self]

/-- The locks of the head and of the pool change hands. -/
theorem lockStep_head (pc : WriterPc) (hl : LocksOk s)
    (hgrip : ∀ x, (s.tls t).pc.listGrip ≠ .group x) (harray : (s.tls t).pc.arrayGrip = .none)
    (htls : ∀ t', t' ≠ t → u.tls t' = s.tls t') (hpc : (u.tls t).pc = pc) (hrt : u.rt = s.rt)
    (haw : u.arrayWriter = s.arrayWriter) (har : u.arrayReaders = s.arrayReaders)
    (hreaders : ∀ x, (u.group x).readers = [] ∨ (u.group x).readers = (s.group x).readers)
    (hhead : ∀ t', u.headLock = some t' → t' = t ∧ (pc.listGrip = .head ∨ pc.listGrip = .headPool) ∨
      t' ≠ t ∧ s.headLock = some t')
    (hpool : ∀ t', u.poolLock = some t' → t' = t ∧ pc.listGrip = .headPool ∨
      t' ≠ t ∧ s.poolLock = some t')
    (hpc' : pc.arrayGrip = .none ∧ pc ≠ .exitBlock) : LockStep s u t := by
  subst hpc
  refine .of_list hl htls hrt haw har (hpc'.1.trans harray.symm) (fun he => absurd he hpc'.2) hhead hpool
    (fun x => ?_) fun x t' ht' => ?_
  · rcases hreaders x with hx | hx <;> rw [hx]
    · exact List.nodup_nil
    · exact hl.readers_nodup x
  · rcases hreaders x with hx | hx <;> rw [hx] at ht'
    · cases ht'
    · refine .inr ⟨?_, ht'⟩
      rintro rfl
      exact hgrip x (hl.readers x _ ht')

theorem linkGroup_locks (s : State) : (linkGroup s).headLock = s.headLock ∧
    (linkGroup s).poolLock = none ∧ ∀ x, ((linkGroup s).group x).readers = [] ∨
      ((linkGroup s).group x).readers = (s.group x).readers := by
  unfold linkGroup
  split
  · refine ⟨rfl, rfl, fun x => ?_⟩
    rcases eq_or_ne x s.spareGroup with rfl | hne
    · simp [Group.fresh]
    · simp [hne]
  · exact ⟨rfl, rfl, fun _ => .inr rfl⟩

/-- The pointer to the first group is locked. -/
theorem lockStep_first (hl : LocksOk s) {call : Call} {seq : ℕ}
    (hpc : (s.tls t).pc = .lockNext call seq none) :
    LockStep s ((s.setGroup g { s.group g with readers := t :: (s.group g).readers }).goto t
      (.popFree call seq g)) t := by
  have hnone : (s.tls t).pc.listGrip = .none := by rw [hpc]; rfl
  refine lockStep_lockGroup (g := g) hl (.inl hnone) (by rw [hpc]; rfl) (by rw [hnone]; simp) rfl rfl
    rfl rfl rfl rfl fun x => ?_
  rw [readers_setGroup]
  split
  · rename_i he
    rw [he]
  · refine (List.erase_of_not_mem fun hin => ?_).symm
    have := hl.readers x t hin
    rw [hnone] at this
    cases this

/-- The pointer behind `g` is locked, and the pointer to `g` is released. -/
theorem lockStep_behind (hl : LocksOk s) {call : Call} {seq g' : ℕ}
    (hpc : (s.tls t).pc = .lockNext call seq (some g)) (hne : g' ≠ g) :
    LockStep s ((unlockGroup (s.setGroup g' { s.group g' with
      readers := t :: (s.group g').readers }) g t).goto t (.popFree call seq g')) t := by
  have hgrip : (s.tls t).pc.listGrip = .group g := by rw [hpc]; rfl
  refine lockStep_lockGroup (g := g) hl (.inr hgrip) (by rw [hpc]; rfl) ?_ rfl rfl rfl rfl rfl rfl
    fun x => ?_
  · rw [hgrip]
    exact fun he => hne (ListGrip.group.inj he).symm
  · rw [unlockGroup, readers_setGroup]
    rcases eq_or_ne x g with rfl | hx
    · rw [if_pos rfl, if_neg hne.symm]
      simp [State.setGroup, hne.symm]
    · rw [if_neg hx, readers_setGroup]
      split
      · rename_i he
        rw [he]
      · refine (List.erase_of_not_mem fun hin => hx ?_).symm
        have := hl.readers x t hin
        rw [hgrip] at this
        exact (ListGrip.group.inj this).symm

/-- The list ends behind `g`: the pointer to `g` is released. -/
theorem lockStep_behindLast (hl : LocksOk s) {call : Call} {seq : ℕ}
    (hpc : (s.tls t).pc = .lockNext call seq (some g)) :
    LockStep s ((unlockGroup s g t).goto t (.lockHead call seq)) t := by
  refine lockStep_unlockGroup (g := g) hl (by rw [hpc]; rfl) (by rw [hpc]; rfl)
    (fun t' ht => State.goto_tls_of_ne _ _ ht) rfl rfl rfl rfl rfl (fun x => ?_) ?_
  · change ((unlockGroup s g t).group x).readers = _
    rw [unlockGroup, readers_setGroup]
    split
    · rename_i he
      rw [he]
    · rfl
  · rw [State.goto_tls_self]
    exact ⟨rfl, by simp⟩

/-- A block is taken under the locks the writer has. -/
theorem lockStep_takeBlock (hl : LocksOk s) (call : Call) (seq g b : ℕ) (rest : List ℕ) (head : Bool)
    (hgrip : (s.tls t).pc.listGrip = (WriterPc.pushStage call g b head).listGrip)
    (harray : (s.tls t).pc.arrayGrip = .none)
    (htls : ∀ t', t' ≠ t → (takeBlock s t call seq g b rest head).tls t' = s.tls t') :
    LockStep s (takeBlock s t call seq g b rest head) t := by
  refine .of_same hl htls rfl (sameListLocks_takeBlock s _ _ _ _ _ _ _) rfl rfl ?_ ?_ ?_
  · rw [takeBlock_tls, hgrip]
  · rw [takeBlock_tls, harray]
    rfl
  · rw [takeBlock_tls]
    exact fun he => by cases he

/-- The lock of the head is taken. -/
theorem lockStep_lockHead (hl : LocksOk s) {call : Call} {seq : ℕ}
    (hpc : (s.tls t).pc = .lockHead call seq) :
    LockStep s ({ s with headLock := some t }.goto t (.popHead call seq)) t := by
  have hnone : (s.tls t).pc.listGrip = .none := by rw [hpc]; rfl
  refine lockStep_head (.popHead call seq) hl (by rw [hnone]; simp) (by rw [hpc]; rfl)
    (fun t' ht => State.goto_tls_of_ne _ _ ht) (by rw [State.goto_tls_self]) rfl rfl rfl (fun _ => .inr rfl)
    (fun t' ht' => ?_) (fun t' ht' => ?_) ⟨rfl, by simp⟩
  · exact .inl ⟨(Option.some.inj ht').symm, .inl rfl⟩
  · exact .inr (hl.pool_of_ne (by rw [hnone]; simp) t' ht')

/-- The lock of the pool is taken under that of the head. -/
theorem lockStep_lockPool (hl : LocksOk s) {call : Call} {seq : ℕ}
    (hpc : (s.tls t).pc = .popHead call seq) :
    LockStep s ({ s with poolLock := some t }.goto t (.newGroup call seq)) t := by
  refine lockStep_head (.newGroup call seq) hl (by rw [hpc]; simp [WriterPc.listGrip])
    (by rw [hpc]; rfl) (fun t' ht => State.goto_tls_of_ne _ _ ht) (by rw [State.goto_tls_self]) rfl rfl
    rfl (fun _ => .inr rfl) (fun t' ht' => ?_) (fun t' ht' => ?_) ⟨rfl, by simp⟩
  · rcases eq_or_ne t' t with rfl | hne
    · exact .inl ⟨rfl, .inr rfl⟩
    · exact .inr ⟨hne, ht'⟩
  · exact .inl ⟨(Option.some.inj ht').symm, rfl⟩

/-- The group of the pool is linked at the head, and the lock of the pool is released. -/
theorem lockStep_linkGroup (hl : LocksOk s) {call : Call} {seq b : ℕ} (rest : List ℕ)
    (hpc : (s.tls t).pc = .newGroup call seq)
    (htls : ∀ t', t' ≠ t →
      (takeBlock (linkGroup s) t call seq s.spareGroup b rest true).tls t' = s.tls t')
    (hrt : (takeBlock (linkGroup s) t call seq s.spareGroup b rest true).rt = s.rt) :
    LockStep s (takeBlock (linkGroup s) t call seq s.spareGroup b rest true) t := by
  obtain ⟨hhead, hpool, hreaders⟩ := linkGroup_locks s
  have hsame := sameListLocks_takeBlock (linkGroup s) t call seq s.spareGroup b rest true
  refine lockStep_head (.pushStage call s.spareGroup b true) hl
    (by rw [hpc]; simp [WriterPc.listGrip]) (by rw [hpc]; rfl) htls (takeBlock_tls _ _ _ _ _ _ _ _)
    hrt ?_ ?_ (fun x => ?_) (fun t' ht' => ?_) (fun t' ht' => ?_) ⟨rfl, by simp⟩
  · change (linkGroup s).arrayWriter = s.arrayWriter
    unfold linkGroup
    split <;> rfl
  · change (linkGroup s).arrayReaders = s.arrayReaders
    unfold linkGroup
    split <;> rfl
  · rw [hsame.readers]
    exact hreaders x
  · rw [hsame.headLock, hhead] at ht'
    rcases eq_or_ne t' t with rfl | hne
    · exact .inl ⟨rfl, .inl rfl⟩
    · exact .inr ⟨hne, ht'⟩
  · rw [hsame.poolLock, hpool] at ht'
    cases ht'

/-- The block is staged, and the lock it was taken under is released. -/
theorem lockStep_stageBlock (hl : LocksOk s) {call : Call} {b : ℕ} {head : Bool}
    (hpc : (s.tls t).pc = .pushStage call g b head)
    (hother : ∀ t', t' ≠ t → (stageBlock cfg s t call g b head).tls t' = s.tls t') :
    LockStep s (stageBlock cfg s t call g b head) t := by
  have htls : ((stageBlock cfg s t call g b head).tls t).pc = .hpAlloc call := by
    simp [stageBlock, State.setTls]
  cases head with
  | false =>
    refine lockStep_unlockGroup (g := g) hl (by rw [hpc]; rfl) (by rw [hpc]; rfl) hother rfl rfl rfl rfl
      rfl (fun x => ?_) (by rw [htls]; exact ⟨rfl, by simp⟩)
    change ((s.setGroup g { s.group g with
      stage := b :: (s.group g).stage, readers := (s.group g).readers.erase t }).group x).readers = _
    rw [readers_setGroup]
    split
    · rename_i he
      rw [he]
    · rfl
  | true =>
    refine lockStep_head (.hpAlloc call) hl (by rw [hpc]; simp [WriterPc.listGrip])
      (by rw [hpc]; rfl) hother htls rfl rfl rfl (fun x => .inr ?_) (fun t' ht' => by cases ht')
      (fun t' ht' => .inr (hl.pool_of_ne (by rw [hpc]; simp [WriterPc.listGrip]) t' ht')) ⟨rfl, by simp⟩
    change ((s.setGroup g { s.group g with stage := b :: (s.group g).stage }).group x).readers = _
    rw [readers_setGroup]
    split
    · rename_i he
      rw [he]
    · rfl

theorem newBlockStep_lock (h : ListsOk s) (hl : LocksOk s) (hs : newBlockStep cfg s t = some s') :
    LockStep s s' t := by
  have hframe := newBlockStep_frame h hs
  unfold newBlockStep at hs
  split at hs <;> rename_i hpc
  · -- the head of the list
    split at hs
    · cases hs
    · obtain rfl := Option.some.inj hs
      exact .setTls hl rfl rfl (SameListLocks.refl s) rfl rfl (by rw [hpc]; rfl) (by rw [hpc]; rfl)
        (by simp)
    · split at hs
      · cases hs
      · obtain rfl := Option.some.inj hs
        exact lockStep_first hl hpc
  · split at hs
    · obtain rfl := Option.some.inj hs
      exact lockStep_behindLast hl hpc
    · rename_i g' hnext
      split at hs
      · cases hs
      · obtain rfl := Option.some.inj hs
        refine lockStep_behind hl hpc ?_
        rintro rfl
        exact not_mem_afterOf_self (List.nodup_append.mp h.groups_nodup).1 (List.mem_of_head? hnext)
  · split at hs <;> obtain rfl := Option.some.inj hs
    · exact .setTls hl rfl rfl (SameListLocks.refl s) rfl rfl (by rw [hpc]; rfl) (by rw [hpc]; rfl)
        (by simp)
    · exact lockStep_takeBlock hl _ _ _ _ _ _ (by rw [hpc]; rfl) (by rw [hpc]; rfl) hframe.tls
  · split at hs
    · obtain rfl := Option.some.inj hs
      exact lockStep_lockHead hl hpc
    · cases hs
  · -- the list is empty, or its first group has no free block: the pool is asked
    split at hs
    · split at hs
      · obtain rfl := Option.some.inj hs
        exact lockStep_lockPool hl hpc
      · cases hs
    · split at hs
      · split at hs
        · obtain rfl := Option.some.inj hs
          exact lockStep_lockPool hl hpc
        · cases hs
      · obtain rfl := Option.some.inj hs
        exact lockStep_takeBlock hl _ _ _ _ _ _ (by rw [hpc]; rfl) (by rw [hpc]; rfl) hframe.tls
  · split at hs
    · cases hs
    · obtain rfl := Option.some.inj hs
      exact lockStep_linkGroup hl _ hpc hframe.tls hframe.rt
  · obtain rfl := Option.some.inj hs
    exact lockStep_stageBlock hl hpc hframe.tls
  · cases hs

/-! ### The other functions -/

/-- Everything a lock protects is as before. -/
structure SameLocks (s u : State) : Prop where
  lists : SameListLocks s u
  arrayWriter : u.arrayWriter = s.arrayWriter
  arrayReaders : u.arrayReaders = s.arrayReaders
  tls : u.tls = s.tls
  rt : u.rt = s.rt

theorem SameLocks.refl (s : State) : SameLocks s s := ⟨SameListLocks.refl s, rfl, rfl, rfl, rfl⟩

theorem sameLocks_removeCurBlock (s : State) (t : ℕ) : SameLocks s (removeCurBlock s t) := by
  unfold removeCurBlock
  split
  · exact SameLocks.refl s
  · exact ⟨⟨rfl, rfl, fun _ => rfl⟩, rfl, rfl, rfl, rfl⟩

/-- The program counters of a writer without locks. -/
def WriterPc.free (pc : WriterPc) : Prop :=
  pc.listGrip = .none ∧ pc.arrayGrip = .none

/-- A step from one program counter without locks to another. -/
theorem LockStep.free {th : Tls} (hl : LocksOk s) (hs : SameLocks s u) (hfree : (s.tls t).pc.free)
    (hfree' : th.pc.free) (hexit : th.pc ≠ .exitBlock) : LockStep s (u.setTls t th) t :=
  .setTls hl hs.tls hs.rt hs.lists hs.arrayWriter hs.arrayReaders (hfree'.1.trans hfree.1.symm)
    (hfree'.2.trans hfree.2.symm) hexit

theorem hpStep_lock (hl : LocksOk s) (hs : hpStep cfg s t c = some s') : LockStep s s' t := by
  unfold hpStep at hs
  split at hs <;> rename_i hpc
  · have hfree : (s.tls t).pc.free := by rw [hpc]; exact ⟨rfl, rfl⟩
    split at hs
    · obtain rfl := Option.some.inj hs
      exact .free hl (SameLocks.refl s) hfree ⟨rfl, rfl⟩ (by simp)
    · split at hs <;> obtain rfl := Option.some.inj hs
      · exact .free hl ⟨⟨rfl, rfl, fun _ => rfl⟩, rfl, rfl, rfl, rfl⟩ hfree ⟨rfl, rfl⟩ (by simp)
      · exact .free hl (SameLocks.refl s) hfree ⟨rfl, rfl⟩ (by simp)
  · have hfree : (s.tls t).pc.free := by rw [hpc]; exact ⟨rfl, rfl⟩
    split at hs
    · obtain rfl := Option.some.inj hs
      exact .free hl (SameLocks.refl s) hfree ⟨rfl, rfl⟩ (by simp)
    · obtain rfl := Option.some.inj hs
      refine .free hl (SameLocks.refl s) hfree ?_ ?_ <;> dsimp only <;> split
      · exact ⟨rfl, rfl⟩
      · exact ⟨rfl, rfl⟩
      · simp
      · simp
    · obtain rfl := Option.some.inj hs
      refine .free hl (SameLocks.refl s) hfree ?_ ?_ <;> dsimp only <;> split
      · exact ⟨rfl, rfl⟩
      · exact ⟨rfl, rfl⟩
      · simp
      · simp
    · cases hs
  · obtain rfl := Option.some.inj hs
    exact .free hl (sameLocks_removeCurBlock s t) (by rw [hpc]; exact ⟨rfl, rfl⟩) ⟨rfl, rfl⟩ (by simp)
  · cases hs

theorem lpFailedStep_lock {use : LpUse} {sizeInvalid : Bool} (hl : LocksOk s)
    (hfree : (s.tls t).pc.free) : LockStep s (lpFailedStep cfg s t use sizeInvalid) t := by
  unfold lpFailedStep
  split
  · split
    · exact .free hl (SameLocks.refl s) hfree ⟨rfl, rfl⟩ (by simp)
    · refine .free hl (sameLocks_removeCurBlock s t) hfree ?_ ?_ <;> dsimp only <;> split
      · exact ⟨rfl, rfl⟩
      · exact ⟨rfl, rfl⟩
      · simp
      · simp
  · exact .free hl (SameLocks.refl s) hfree ⟨rfl, rfl⟩ (by simp)
  · exact .free hl (SameLocks.refl s) hfree ⟨rfl, rfl⟩ (by simp)

theorem lpStep_lock (hl : LocksOk s) (hs : lpStep cfg s t c = some s') : LockStep s s' t := by
  unfold lpStep at hs
  split at hs <;> rename_i hpc
  · have hfree : (s.tls t).pc.free := by rw [hpc]; exact ⟨rfl, rfl⟩
    split at hs
    · obtain rfl := Option.some.inj hs
      exact .free hl ⟨⟨rfl, rfl, fun _ => rfl⟩, rfl, rfl, rfl, rfl⟩ hfree ⟨rfl, rfl⟩ (by simp)
    · obtain rfl := Option.some.inj hs
      exact .free hl (SameLocks.refl s) hfree ⟨rfl, rfl⟩ (by simp)
    · obtain rfl := Option.some.inj hs
      exact .free hl (SameLocks.refl s) hfree ⟨rfl, rfl⟩ (by simp)
    · cases hs
  · have hfree : (s.tls t).pc.free := by rw [hpc]; exact ⟨rfl, rfl⟩
    split at hs
    · obtain rfl := Option.some.inj hs
      refine .free hl ⟨⟨rfl, rfl, fun _ => rfl⟩, rfl, rfl, rfl, rfl⟩ hfree ?_ ?_ <;> dsimp only <;> split
      · exact ⟨rfl, rfl⟩
      · exact ⟨rfl, rfl⟩
      · exact ⟨rfl, rfl⟩
      · simp
      · simp
      · simp
    · obtain rfl := Option.some.inj hs
      exact .free hl ⟨⟨rfl, rfl, fun _ => rfl⟩, rfl, rfl, rfl, rfl⟩ hfree ⟨rfl, rfl⟩ (by simp)
    · split at hs
      · obtain rfl := Option.some.inj hs
        exact .free hl ⟨⟨rfl, rfl, fun _ => rfl⟩, rfl, rfl, rfl, rfl⟩ hfree ⟨rfl, rfl⟩ (by simp)
      · cases hs
    · cases hs
  · obtain rfl := Option.some.inj hs
    exact lpFailedStep_lock hl (by rw [hpc]; exact ⟨rfl, rfl⟩)
  · obtain rfl := Option.some.inj hs
    exact .free hl (sameLocks_removeCurBlock s t) (by rw [hpc]; exact ⟨rfl, rfl⟩) ⟨rfl, rfl⟩ (by simp)
  · cases hs

/-- The lock of the array changes hands. -/
theorem LockStep.array {pc : WriterPc} (hl : LocksOk s) (htls : u.tls = s.tls) (hrt : u.rt = s.rt)
    (hs : SameListLocks s u) (hfree : (s.tls t).pc.listGrip = .none) (hpc : pc.listGrip = .none)
    (hexit : pc = .exitBlock → (s.tls t).curBlock.isSome)
    (hwriter : ∀ p, u.arrayWriter = some p → p = .writer t ∧ pc.arrayGrip = .write ∨
      p ≠ .writer t ∧ s.arrayWriter = some p)
    (hnodup : u.arrayReaders.Nodup)
    (hreaders : ∀ p ∈ u.arrayReaders, p = .writer t ∧ pc.arrayGrip = .read ∨
      p ≠ .writer t ∧ p ∈ s.arrayReaders) : LockStep s (u.goto t pc) t := by
  obtain ⟨hpc', hother⟩ := goto_tls u t pc
  refine .of_array hl (fun t' ht => by rw [hother t' ht, htls]) hrt ⟨hs.headLock, hs.poolLock, hs.readers⟩
    (by rw [hpc', hpc, hfree]) ?_ ?_ hnodup ?_
  · rw [hpc', State.goto_tls_self, htls]
    exact hexit
  · rw [hpc']
    exact hwriter
  · rw [hpc']
    exact hreaders

theorem LocksOk.not_arrayReader (hl : LocksOk s) (h : (s.tls t).pc.arrayGrip ≠ .read) :
    .writer t ∉ s.arrayReaders := fun hin => h (hl.arrayReaders _ hin)

theorem LocksOk.not_arrayWriter (hl : LocksOk s) (h : (s.tls t).pc.arrayGrip ≠ .write) :
    s.arrayWriter ≠ some (.writer t) := fun he => h (hl.arrayWriter _ he)

/-- The holders of the array other than `t`. -/
theorem LocksOk.others (hl : LocksOk s) :
    ((s.tls t).pc.arrayGrip ≠ .write → ∀ p, s.arrayWriter = some p → p ≠ .writer t) ∧
      ((s.tls t).pc.arrayGrip ≠ .read → ∀ p ∈ s.arrayReaders, p ≠ .writer t) :=
  ⟨fun h _ hp he => hl.not_arrayWriter h (he ▸ hp), fun h _ hp he => hl.not_arrayReader h (he ▸ hp)⟩

theorem oversizeStep_lock (hl : LocksOk s) (hs : oversizeStep s t c = some s') : LockStep s s' t := by
  have hw : (s.tls t).pc.arrayGrip ≠ .write → ∀ {pc : WriterPc} p, s.arrayWriter = some p →
      p = .writer t ∧ pc.arrayGrip = .write ∨ p ≠ .writer t ∧ s.arrayWriter = some p :=
    fun h _ p hp => .inr ⟨hl.others.1 h p hp, hp⟩
  have hr : (s.tls t).pc.arrayGrip ≠ .read → ∀ {pc : WriterPc}, ∀ p ∈ s.arrayReaders,
      p = .writer t ∧ pc.arrayGrip = .read ∨ p ≠ .writer t ∧ p ∈ s.arrayReaders :=
    fun h _ p hp => .inr ⟨hl.others.2 h p hp, hp⟩
  -- the read lock is released
  have herase : ∀ {pc : WriterPc}, ∀ p ∈ s.arrayReaders.erase (.writer t),
      p = .writer t ∧ pc.arrayGrip = .read ∨ p ≠ .writer t ∧ p ∈ s.arrayReaders := fun p hp =>
    .inr ⟨fun he => hl.arrayReaders_nodup.not_mem_erase (he ▸ hp), List.mem_of_mem_erase hp⟩
  unfold oversizeStep at hs
  split at hs <;> rename_i hpc
  · obtain rfl := Option.some.inj hs
    exact .free hl (sameLocks_removeCurBlock s t) (by rw [hpc]; exact ⟨rfl, rfl⟩) ⟨rfl, rfl⟩ (by simp)
  · split at hs
    · obtain rfl := Option.some.inj hs
      have hnot : (s.tls t).pc.arrayGrip ≠ .read := by rw [hpc]; simp [WriterPc.arrayGrip]
      refine .array hl rfl rfl ⟨rfl, rfl, fun _ => rfl⟩ (by rw [hpc]; rfl) rfl (by simp)
        (hw (by rw [hpc]; simp [WriterPc.arrayGrip])) ?_ fun p hp => ?_
      · exact List.nodup_cons.mpr ⟨hl.not_arrayReader hnot, hl.arrayReaders_nodup⟩
      · rcases List.mem_cons.mp hp with rfl | hp
        · exact .inl ⟨rfl, rfl⟩
        · exact hr hnot p hp
    · cases hs
  · have hnot : (s.tls t).pc.arrayGrip ≠ .write := by rw [hpc]; simp [WriterPc.arrayGrip]
    have hnone : (s.tls t).pc.listGrip = .none := by rw [hpc]; rfl
    split at hs
    · obtain rfl := Option.some.inj hs
      exact .array hl rfl rfl ⟨rfl, rfl, fun _ => rfl⟩ hnone rfl (by simp) (hw hnot)
        (hl.arrayReaders_nodup.erase _) herase
    · split at hs <;> obtain rfl := Option.some.inj hs
      · exact .array hl rfl rfl ⟨rfl, rfl, fun _ => rfl⟩ hnone rfl (by simp) (hw hnot)
          (hl.arrayReaders_nodup.erase _) herase
      · exact .setTls hl rfl rfl (SameListLocks.refl s) rfl rfl hnone.symm (by rw [hpc]; rfl) (by simp)
  · split at hs
    · obtain rfl := Option.some.inj hs
      exact .array hl rfl rfl ⟨rfl, rfl, fun _ => rfl⟩ (by rw [hpc]; rfl) rfl (by simp)
        (fun p hp => .inl ⟨(Option.some.inj hp).symm, rfl⟩) hl.arrayReaders_nodup
        (hr (by rw [hpc]; simp [WriterPc.arrayGrip]))
    · cases hs
  · have hnot : (s.tls t).pc.arrayGrip ≠ .read := by rw [hpc]; simp [WriterPc.arrayGrip]
    split at hs <;> obtain rfl := Option.some.inj hs
    · exact .array hl rfl rfl ⟨rfl, rfl, fun _ => rfl⟩ (by rw [hpc]; rfl) rfl (by simp)
        (fun p hp => by cases hp) hl.arrayReaders_nodup (hr hnot)
    · exact .array hl rfl rfl ⟨rfl, rfl, fun _ => rfl⟩ (by rw [hpc]; rfl) rfl (by simp)
        (fun p hp => by cases hp) hl.arrayReaders_nodup (hr hnot)
  · obtain rfl := Option.some.inj hs
    exact .free hl ⟨⟨rfl, rfl, fun _ => rfl⟩, rfl, rfl, rfl, rfl⟩ (by rw [hpc]; exact ⟨rfl, rfl⟩) ⟨rfl, rfl⟩
      (by simp)
  · obtain rfl := Option.some.inj hs
    exact .free hl ⟨⟨rfl, rfl, fun _ => rfl⟩, rfl, rfl, rfl, rfl⟩ (by rw [hpc]; exact ⟨rfl, rfl⟩) ⟨rfl, rfl⟩
      (by simp)
  · obtain rfl := Option.some.inj hs
    exact .free hl ⟨⟨rfl, rfl, fun _ => rfl⟩, rfl, rfl, rfl, rfl⟩ (by rw [hpc]; exact ⟨rfl, rfl⟩) ⟨rfl, rfl⟩
      (by simp)
  · cases hs

theorem exitStep_lock (hl : LocksOk s) (hs : exitStep s t = some s') : LockStep s s' t := by
  unfold exitStep at hs
  split at hs <;> rename_i hpc
  · split at hs
    · obtain rfl := Option.some.inj hs
      exact .array hl rfl rfl ⟨rfl, rfl, fun _ => rfl⟩ (by rw [hpc]; rfl) rfl (by simp)
        (fun p hp => .inl ⟨(Option.some.inj hp).symm, rfl⟩) hl.arrayReaders_nodup fun p hp =>
          .inr ⟨hl.others.2 (by rw [hpc]; simp [WriterPc.arrayGrip]) p hp, hp⟩
    · cases hs
  · obtain rfl := Option.some.inj hs
    refine .array hl rfl rfl ⟨rfl, rfl, fun _ => rfl⟩ (by rw [hpc]; rfl) (by split <;> rfl) (fun he => ?_)
      (fun p hp => by cases hp) hl.arrayReaders_nodup fun p hp =>
        .inr ⟨hl.others.2 (by rw [hpc]; simp [WriterPc.arrayGrip]) p hp, hp⟩
    split at he
    · assumption
    · cases he
  · split at hs
    · cases hs
    · obtain rfl := Option.some.inj hs
      exact .free hl ⟨⟨rfl, rfl, fun _ => rfl⟩, rfl, rfl, rfl, rfl⟩ (by rw [hpc]; exact ⟨rfl, rfl⟩)
        ⟨rfl, rfl⟩ (by simp)
  · obtain rfl := Option.some.inj hs
    exact .free hl ⟨⟨rfl, rfl, fun _ => rfl⟩, rfl, rfl, rfl, rfl⟩ (by rw [hpc]; exact ⟨rfl, rfl⟩)
      ⟨rfl, rfl⟩ (by simp)
  · cases hs

theorem commitWriteChunk_lock {payload : List UInt8} (hl : LocksOk s)
    (hs : commitWriteChunk s t payload = some s') : LockStep s s' t := by
  unfold commitWriteChunk at hs
  split at hs <;> rename_i hpc
  · split at hs
    · cases hs
    · split at hs
      · obtain rfl := Option.some.inj hs
        exact .free hl ⟨⟨rfl, rfl, fun _ => rfl⟩, rfl, rfl, rfl, rfl⟩ (by rw [hpc]; exact ⟨rfl, rfl⟩)
          ⟨rfl, rfl⟩ (by simp)
      · cases hs
  · split at hs
    · obtain rfl := Option.some.inj hs
      exact .free hl ⟨⟨rfl, rfl, fun _ => rfl⟩, rfl, rfl, rfl, rfl⟩ (by rw [hpc]; exact ⟨rfl, rfl⟩)
        ⟨rfl, rfl⟩ (by simp)
    · cases hs
  · split at hs
    · obtain rfl := Option.some.inj hs
      exact .free hl ⟨⟨rfl, rfl, fun _ => rfl⟩, rfl, rfl, rfl, rfl⟩ (by rw [hpc]; exact ⟨rfl, rfl⟩)
        ⟨rfl, rfl⟩ (by simp)
    · cases hs
  · cases hs

theorem free_allocPath (s : State) (high : Bool) (call : Call) :
    (allocPath s high call).free ∧ allocPath s high call ≠ .exitBlock := by
  unfold allocPath
  split
  · exact ⟨⟨rfl, rfl⟩, by simp⟩
  · split <;> exact ⟨⟨rfl, rfl⟩, by simp⟩

theorem LocksOk.writer {a : Act} (h : ListsOk s) (hl : LocksOk s) (ha : a.writer = some t)
    (hs : step cfg s a = some s') : LocksOk s' := by
  suffices hstep : LockStep s s' t from hstep.locksOk hl
  cases a with
  | alloc t' call =>
    obtain rfl : t' = t := by simpa [Act.writer] using ha
    simp only [step] at hs
    split at hs
    · rename_i hpc
      split at hs
      · obtain rfl := Option.some.inj hs
        exact .free hl (SameLocks.refl s) (by rw [hpc]; exact ⟨rfl, rfl⟩) (free_allocPath _ _ _).1
          (free_allocPath _ _ _).2
      · cases hs
    · cases hs
  | write t' c =>
    obtain rfl : t' = t := by simpa [Act.writer] using ha
    simp only [step, writerStep] at hs
    split at hs
    all_goals first
      | exact newBlockStep_lock h hl hs
      | exact hpStep_lock hl hs
      | exact lpStep_lock hl hs
      | exact oversizeStep_lock hl hs
      | exact exitStep_lock hl hs
      | cases hs
  | commit t' payload =>
    obtain rfl : t' = t := by simpa [Act.writer] using ha
    exact commitWriteChunk_lock hl hs
  | exit t' =>
    obtain rfl : t' = t := by simpa [Act.writer] using ha
    simp only [step] at hs
    split at hs
    · rename_i hpc
      obtain rfl := Option.some.inj hs
      exact .free hl (SameLocks.refl s) (by rw [hpc]; exact ⟨rfl, rfl⟩) ⟨rfl, rfl⟩ (by simp)
    · cases hs
  | readChunk | read | returnReadChunk => cases ha

/-! ## Steps of the reader -/

theorem ReaderEffect.sameListLocks {e : ReaderEffect} {pc' : ReaderPc} (h : e.Leads s pc') :
    SameListLocks s (e.apply s) := by
  cases e with
  | group g grp =>
    obtain ⟨-, -, -, -, -, hreaders, -⟩ := h
    refine ⟨rfl, rfl, fun x => ?_⟩
    change ((s.setGroup g grp).group x).readers = _
    rw [readers_setGroup]
    split
    · rename_i he
      rw [he, hreaders]
    · rfl
  | move | pop | handLp | handHp | handOversize | returnOversize | lockArray | missOversize | lockRecycle
  | unlockRecycle | oversize | unlinkGroup | pushPool => exact ⟨rfl, rfl, fun _ => rfl⟩

/-- What the reader does to the lock of the array. -/
structure ArrayStep (s u : State) (pc' : ReaderPc) : Prop where
  writer : ∀ p, u.arrayWriter = some p → p = .reader ∧ pc'.grip = .write ∨
    p ≠ .reader ∧ s.arrayWriter = some p
  nodup : u.arrayReaders.Nodup
  readers : ∀ p ∈ u.arrayReaders, p = .reader ∧ pc'.grip = .read ∨ p ≠ .reader ∧ p ∈ s.arrayReaders

theorem ArrayStep.of_same {pc' : ReaderPc} (hl : LocksOk s) (hw : u.arrayWriter = s.arrayWriter)
    (hr : u.arrayReaders = s.arrayReaders) (hgrip : pc'.grip = s.rt.pc.grip) : ArrayStep s u pc' where
  writer p hp := by
    rw [hw] at hp
    rcases eq_or_ne p .reader with rfl | hne
    · exact .inl ⟨rfl, hgrip.trans (hl.arrayWriter _ hp)⟩
    · exact .inr ⟨hne, hp⟩
  nodup := hr ▸ hl.arrayReaders_nodup
  readers p hp := by
    rw [hr] at hp
    rcases eq_or_ne p .reader with rfl | hne
    · exact .inl ⟨rfl, hgrip.trans (hl.arrayReaders _ hp)⟩
    · exact .inr ⟨hne, hp⟩

theorem ReaderEffect.arrayStep {e : ReaderEffect} {pc' : ReaderPc} (hl : LocksOk s) (h : e.Leads s pc')
    (hcrash : pc' ≠ .crashed) : ArrayStep s (e.apply s) pc' := by
  have hsame : ∀ {u}, u.arrayWriter = s.arrayWriter → u.arrayReaders = s.arrayReaders →
      pc'.grip = .none ∧ s.rt.pc.grip = .none → ArrayStep s u pc' := fun h1 h2 h3 =>
    .of_same hl h1 h2 (h3.1.trans h3.2.symm)
  have hw : s.rt.pc.grip ≠ .write → ∀ p, s.arrayWriter = some p → p = .reader ∧ pc'.grip = .write ∨
      p ≠ .reader ∧ s.arrayWriter = some p := fun hne p hp =>
    .inr ⟨by rintro rfl; exact hne (hl.arrayWriter _ hp), hp⟩
  have hr : s.rt.pc.grip ≠ .read → ∀ p ∈ s.arrayReaders, p = .reader ∧ pc'.grip = .read ∨
      p ≠ .reader ∧ p ∈ s.arrayReaders := fun hne p hp =>
    .inr ⟨by rintro rfl; exact hne (hl.arrayReaders _ hp), hp⟩
  have herase : ∀ p ∈ s.arrayReaders.erase .reader, p = .reader ∧ pc'.grip = .read ∨
      p ≠ .reader ∧ p ∈ s.arrayReaders := fun p hp =>
    .inr ⟨fun he => hl.arrayReaders_nodup.not_mem_erase (he ▸ hp), List.mem_of_mem_erase hp⟩
  cases e with
  | move => exact .of_same hl rfl rfl (h.1.resolve_right hcrash)
  | pop => exact hsame rfl rfl ⟨h.1, h.2.1⟩
  | handLp => exact hsame rfl rfl ⟨h.1, h.2.1⟩
  | handHp => exact hsame rfl rfl ⟨h.1, h.2.1⟩
  | returnOversize => exact hsame rfl rfl ⟨h.1, h.2.1⟩
  | group => exact hsame rfl rfl ⟨h.1, h.2.1⟩
  | unlinkGroup => exact hsame rfl rfl ⟨h.1, h.2.1⟩
  | pushPool => exact hsame rfl rfl ⟨h.1, h.2.1⟩
  | oversize => exact .of_same hl rfl rfl h.1
  | handOversize => exact ⟨hw (by rw [h.2.1]; simp), hl.arrayReaders_nodup.erase _, herase⟩
  | missOversize => exact ⟨hw (by rw [h.1]; simp), hl.arrayReaders_nodup.erase _, herase⟩
  | lockArray =>
    obtain ⟨-, hgrip, hgrip', -⟩ := h
    have hnot : Party.reader ∉ s.arrayReaders := fun hin => by
      have := hl.arrayReaders _ hin
      rw [State.arrayGrip, hgrip] at this
      cases this
    refine ⟨hw (by rw [hgrip]; simp), List.nodup_cons.mpr ⟨hnot, hl.arrayReaders_nodup⟩, fun p hp => ?_⟩
    rcases List.mem_cons.mp hp with rfl | hp
    · exact .inl ⟨rfl, hgrip'⟩
    · exact hr (by rw [hgrip]; simp) p hp
  | lockRecycle =>
    obtain ⟨-, -, hgrip, hgrip', -⟩ := h
    exact ⟨fun p hp => .inl ⟨(Option.some.inj hp).symm, hgrip'⟩, hl.arrayReaders_nodup,
      hr (by rw [hgrip]; simp)⟩
  | unlockRecycle =>
    exact ⟨fun p hp => (by cases hp), hl.arrayReaders_nodup, hr (by rw [h.1]; simp)⟩

theorem LocksOk.reads {e : ReaderEffect} (hl : LocksOk s) (h : Reads s s' e)
    (hcrash : s'.rt.pc ≠ .crashed) : LocksOk s' := by
  obtain ⟨hst, hleads⟩ := h
  have hlists := ReaderEffect.sameListLocks hleads
  have harray := ReaderEffect.arrayStep hl hleads hcrash
  have hpcs : ∀ t, (s'.tls t).pc = (s.tls t).pc := fun t => by
    rw [hst.pcs]
    cases e <;> rfl
  have hcur : ∀ t, (s'.tls t).curBlock = (s.tls t).curBlock := fun t => by
    rw [hst.curBlock]
    cases e <;> rfl
  have hgrip : ∀ {p}, p ≠ Party.reader → s'.arrayGrip p = s.arrayGrip p := by
    intro p hp
    cases p with
    | writer t => rw [State.arrayGrip, State.arrayGrip, hpcs]
    | reader => exact absurd rfl hp
  refine ⟨fun t ht => ?_, fun t ht => ?_, fun g => ?_, fun g t ht => ?_, fun p hp => ?_, ?_, fun p hp => ?_,
    fun t ht => ?_⟩
  · rw [hst.lists.headLock, hlists.headLock] at ht
    rw [hpcs]
    exact hl.head t ht
  · rw [hst.poolLock, hlists.poolLock] at ht
    rw [hpcs]
    exact hl.pool t ht
  · rw [hst.lists.group, hlists.readers]
    exact hl.readers_nodup g
  · rw [hst.lists.group, hlists.readers] at ht
    rw [hpcs]
    exact hl.readers g t ht
  · rw [hst.arrayWriter] at hp
    rcases harray.writer p hp with ⟨rfl, hg⟩ | ⟨hne, hp⟩
    · exact hg
    · rw [hgrip hne]
      exact hl.arrayWriter p hp
  · rw [hst.arrayReaders]
    exact harray.nodup
  · rw [hst.arrayReaders] at hp
    rcases harray.readers p hp with ⟨rfl, hg⟩ | ⟨hne, hp⟩
    · exact hg
    · rw [hgrip hne]
      exact hl.arrayReaders p hp
  · rw [hpcs] at ht
    rw [hcur]
    exact hl.exitBlock t ht

end QLog.LogBuffer
