import QLog.Buffer.LogBuffer.Lists

/-!
# What the writers leave alone

* `Quiet s s' t`: a step of writer `t` that leaves the lists of blocks, the reader and the other writers
  alone. Every step of a writer outside `alloc_new_block` is quiet.
* `WriterFrame s s' t`: what holds for all steps of writer `t`: the reader, the other writers, the used
  lists and the version are untouched, and groups are only put in front.
-/

namespace QLog.LogBuffer

variable {cfg : Config} {s s' u : State} {t : ℕ} {c : Choice}

/-- Everything but the stores and the array of oversize buffers is the same. -/
structure Unchanged (s u : State) : Prop where
  lists : SameLists s u
  version : u.version = s.version
  rt : u.rt = s.rt
  delivered : u.delivered = s.delivered
  missed : u.missed = s.missed
  tls : u.tls = s.tls

/-- A step of writer `t` that leaves the lists, the reader and the other writers alone. -/
structure Quiet (s s' : State) (t : ℕ) : Prop where
  lists : SameLists s s'
  version : s'.version = s.version
  rt : s'.rt = s.rt
  delivered : s'.delivered = s.delivered
  missed : s'.missed = s.missed
  tls : ∀ t', t' ≠ t → s'.tls t' = s.tls t'
  readSeq : (s'.tls t).readSeq = (s.tls t).readSeq
  role : (s'.tls t).pc.role = .none

theorem Quiet.of_setTls {th : Tls} (hu : Unchanged s u) (hread : th.readSeq = (s.tls t).readSeq)
    (hrole : th.pc.role = .none) : Quiet s (u.setTls t th) t where
  lists := ⟨hu.lists.groups, hu.lists.pool, hu.lists.removed, hu.lists.groupIndex, hu.lists.group,
    hu.lists.headLock⟩
  version := hu.version
  rt := hu.rt
  delivered := hu.delivered
  missed := hu.missed
  tls t' ht := by
    simp only [State.setTls, Function.update_of_ne ht, hu.tls]
  readSeq := by
    simpa only [State.setTls, Function.update_self] using hread
  role := by
    simpa only [State.setTls, Function.update_self] using hrole

theorem Quiet.goto {pc : WriterPc} (hu : Unchanged s u) (hrole : pc.role = .none) :
    Quiet s (u.goto t pc) t :=
  Quiet.of_setTls hu (by rw [hu.tls]) hrole

theorem Unchanged.refl (s : State) : Unchanged s s :=
  ⟨⟨rfl, rfl, rfl, rfl, rfl, rfl⟩, rfl, rfl, rfl, rfl, rfl⟩

theorem unchanged_removeCurBlock (s : State) (t : ℕ) : Unchanged s (removeCurBlock s t) := by
  unfold removeCurBlock
  split
  · exact Unchanged.refl s
  · exact ⟨⟨rfl, rfl, rfl, rfl, rfl, rfl⟩, rfl, rfl, rfl, rfl, rfl⟩

theorem quiet_dropCurBlock {pc : WriterPc} (hrole : pc.role = .none) :
    Quiet s (dropCurBlock s t pc) t :=
  Quiet.of_setTls (unchanged_removeCurBlock s t) rfl hrole

theorem quiet_allocNewHpBlock {call : Call} (hu : Unchanged s u) :
    Quiet s (allocNewHpBlock u t call) t :=
  Quiet.of_setTls hu (by rw [hu.tls]) rfl

theorem hpStep_quiet (h : hpStep cfg s t c = some s') : Quiet s s' t := by
  unfold hpStep at h
  split at h
  · split at h
    · obtain rfl := Option.some.inj h
      exact quiet_allocNewHpBlock (Unchanged.refl s)
    · split at h <;> obtain rfl := Option.some.inj h
      · exact quiet_allocNewHpBlock ⟨⟨rfl, rfl, rfl, rfl, rfl, rfl⟩, rfl, rfl, rfl, rfl, rfl⟩
      · exact Quiet.goto (Unchanged.refl s) rfl
  · split at h
    · obtain rfl := Option.some.inj h
      exact Quiet.goto (Unchanged.refl s) rfl
    · obtain rfl := Option.some.inj h
      exact Quiet.goto (Unchanged.refl s) (by split <;> rfl)
    · obtain rfl := Option.some.inj h
      exact Quiet.goto (Unchanged.refl s) (by split <;> rfl)
    · cases h
  · obtain rfl := Option.some.inj h
    exact quiet_allocNewHpBlock (unchanged_removeCurBlock s t)
  · cases h

theorem lpFailedStep_quiet {use : LpUse} {sizeInvalid : Bool} :
    Quiet s (lpFailedStep cfg s t use sizeInvalid) t := by
  unfold lpFailedStep
  split
  · split
    · exact Quiet.of_setTls (Unchanged.refl s) rfl rfl
    · exact quiet_dropCurBlock (by split <;> rfl)
  · exact Quiet.goto (Unchanged.refl s) rfl
  · exact Quiet.goto (Unchanged.refl s) rfl

theorem lpStep_quiet (h : lpStep cfg s t c = some s') : Quiet s s' t := by
  unfold lpStep at h
  split at h
  · split at h
    · obtain rfl := Option.some.inj h
      exact Quiet.goto ⟨⟨rfl, rfl, rfl, rfl, rfl, rfl⟩, rfl, rfl, rfl, rfl, rfl⟩ rfl
    · obtain rfl := Option.some.inj h
      exact Quiet.goto (Unchanged.refl s) rfl
    · obtain rfl := Option.some.inj h
      exact Quiet.goto (Unchanged.refl s) rfl
    · cases h
  · split at h
    · obtain rfl := Option.some.inj h
      exact Quiet.of_setTls ⟨⟨rfl, rfl, rfl, rfl, rfl, rfl⟩, rfl, rfl, rfl, rfl, rfl⟩ rfl (by split <;> rfl)
    · obtain rfl := Option.some.inj h
      exact Quiet.goto ⟨⟨rfl, rfl, rfl, rfl, rfl, rfl⟩, rfl, rfl, rfl, rfl, rfl⟩ rfl
    · split at h
      · obtain rfl := Option.some.inj h
        exact Quiet.goto ⟨⟨rfl, rfl, rfl, rfl, rfl, rfl⟩, rfl, rfl, rfl, rfl, rfl⟩ rfl
      · cases h
    · cases h
  · obtain rfl := Option.some.inj h
    exact lpFailedStep_quiet
  · obtain rfl := Option.some.inj h
    exact quiet_dropCurBlock rfl
  · cases h

theorem oversizeStep_quiet (h : oversizeStep s t c = some s') : Quiet s s' t := by
  unfold oversizeStep at h
  split at h
  · obtain rfl := Option.some.inj h
    exact quiet_dropCurBlock rfl
  · split at h
    · obtain rfl := Option.some.inj h
      exact Quiet.goto ⟨⟨rfl, rfl, rfl, rfl, rfl, rfl⟩, rfl, rfl, rfl, rfl, rfl⟩ rfl
    · cases h
  · split at h
    · obtain rfl := Option.some.inj h
      exact Quiet.goto ⟨⟨rfl, rfl, rfl, rfl, rfl, rfl⟩, rfl, rfl, rfl, rfl, rfl⟩ rfl
    · split at h <;> obtain rfl := Option.some.inj h
      · exact Quiet.goto ⟨⟨rfl, rfl, rfl, rfl, rfl, rfl⟩, rfl, rfl, rfl, rfl, rfl⟩ rfl
      · exact Quiet.goto (Unchanged.refl s) rfl
  · split at h
    · obtain rfl := Option.some.inj h
      exact Quiet.goto ⟨⟨rfl, rfl, rfl, rfl, rfl, rfl⟩, rfl, rfl, rfl, rfl, rfl⟩ rfl
    · cases h
  · split at h <;> obtain rfl := Option.some.inj h
    · exact Quiet.goto ⟨⟨rfl, rfl, rfl, rfl, rfl, rfl⟩, rfl, rfl, rfl, rfl, rfl⟩ rfl
    · exact Quiet.goto ⟨⟨rfl, rfl, rfl, rfl, rfl, rfl⟩, rfl, rfl, rfl, rfl, rfl⟩ rfl
  · obtain rfl := Option.some.inj h
    exact Quiet.of_setTls ⟨⟨rfl, rfl, rfl, rfl, rfl, rfl⟩, rfl, rfl, rfl, rfl, rfl⟩ rfl rfl
  · obtain rfl := Option.some.inj h
    exact Quiet.goto ⟨⟨rfl, rfl, rfl, rfl, rfl, rfl⟩, rfl, rfl, rfl, rfl, rfl⟩ rfl
  · obtain rfl := Option.some.inj h
    exact Quiet.goto ⟨⟨rfl, rfl, rfl, rfl, rfl, rfl⟩, rfl, rfl, rfl, rfl, rfl⟩ rfl
  · cases h

theorem exitStep_quiet (h : exitStep s t = some s') : Quiet s s' t := by
  unfold exitStep at h
  split at h
  · split at h
    · obtain rfl := Option.some.inj h
      exact Quiet.goto ⟨⟨rfl, rfl, rfl, rfl, rfl, rfl⟩, rfl, rfl, rfl, rfl, rfl⟩ rfl
    · cases h
  · obtain rfl := Option.some.inj h
    exact Quiet.goto ⟨⟨rfl, rfl, rfl, rfl, rfl, rfl⟩, rfl, rfl, rfl, rfl, rfl⟩ (by split <;> rfl)
  · split at h
    · cases h
    · obtain rfl := Option.some.inj h
      exact Quiet.goto ⟨⟨rfl, rfl, rfl, rfl, rfl, rfl⟩, rfl, rfl, rfl, rfl, rfl⟩ rfl
  · obtain rfl := Option.some.inj h
    exact Quiet.goto ⟨⟨rfl, rfl, rfl, rfl, rfl, rfl⟩, rfl, rfl, rfl, rfl, rfl⟩ rfl
  · cases h

theorem commitWriteChunk_quiet {payload : List UInt8} (h : commitWriteChunk s t payload = some s') :
    Quiet s s' t := by
  unfold commitWriteChunk at h
  split at h
  · split at h
    · cases h
    · split at h
      · obtain rfl := Option.some.inj h
        exact Quiet.goto ⟨⟨rfl, rfl, rfl, rfl, rfl, rfl⟩, rfl, rfl, rfl, rfl, rfl⟩ rfl
      · cases h
  · split at h
    · obtain rfl := Option.some.inj h
      exact Quiet.goto ⟨⟨rfl, rfl, rfl, rfl, rfl, rfl⟩, rfl, rfl, rfl, rfl, rfl⟩ rfl
    · cases h
  · split at h
    · obtain rfl := Option.some.inj h
      exact Quiet.goto ⟨⟨rfl, rfl, rfl, rfl, rfl, rfl⟩, rfl, rfl, rfl, rfl, rfl⟩ rfl
    · cases h
  · cases h

theorem updateFrequency_fst (th : Tls) (epochMs : ℕ) :
    (updateFrequency cfg th epochMs).1.readSeq = th.readSeq ∧
      (updateFrequency cfg th epochMs).1.writeSeq = th.writeSeq ∧
      (updateFrequency cfg th epochMs).1.curBlock = th.curBlock := by
  unfold updateFrequency
  dsimp only
  split <;> split <;> exact ⟨rfl, rfl, rfl⟩

theorem role_allocPath (s : State) (high : Bool) (call : Call) :
    (allocPath s high call).role = .none := by
  unfold allocPath
  split
  · rfl
  · split <;> rfl

theorem callAlloc_quiet {call : Call} : Quiet s (callAlloc cfg s t call) t :=
  Quiet.of_setTls (Unchanged.refl s) (updateFrequency_fst (s.tls t) call.epochMs).1
    (role_allocPath s _ call)

/-! ## All steps of a writer -/

/-- The program counters outside `alloc_new_block`. -/
theorem writerStep_cases (h : writerStep cfg s t c = some s') :
    ((s.tls t).pc.role = .none ∧ Quiet s s' t) ∨ newBlockStep cfg s t = some s' := by
  unfold writerStep at h
  split at h
  all_goals rename_i hpc
  all_goals try rw [hpc]
  all_goals first
    | exact .inr h
    | exact .inl ⟨rfl, hpStep_quiet h⟩
    | exact .inl ⟨rfl, lpStep_quiet h⟩
    | exact .inl ⟨rfl, oversizeStep_quiet h⟩
    | exact .inl ⟨rfl, exitStep_quiet h⟩
    | cases h

/-- The writer that acts. -/
def Act.writer : Act → Option ℕ
  | alloc t _ | write t _ | commit t _ | exit t => some t
  | _ => none

theorem writer_cases {a : Act} (ha : a.writer = some t) (h : step cfg s a = some s') :
    ((s.tls t).pc.role = .none ∧ Quiet s s' t) ∨ newBlockStep cfg s t = some s' := by
  cases a with
  | alloc t' call =>
    obtain rfl : t' = t := by simpa [Act.writer] using ha
    simp only [step] at h
    split at h
    · rename_i hpc
      split at h
      · obtain rfl := Option.some.inj h
        exact .inl ⟨by rw [hpc]; rfl, callAlloc_quiet⟩
      · cases h
    · cases h
  | write t' c =>
    obtain rfl : t' = t := by simpa [Act.writer] using ha
    exact writerStep_cases h
  | commit t' payload =>
    obtain rfl : t' = t := by simpa [Act.writer] using ha
    refine .inl ⟨?_, commitWriteChunk_quiet h⟩
    simp only [step, commitWriteChunk] at h
    split at h
    · rename_i hpc
      rw [hpc]
      rfl
    · rename_i hpc
      rw [hpc]
      rfl
    · rename_i hpc
      rw [hpc]
      rfl
    · cases h
  | exit t' =>
    obtain rfl : t' = t := by simpa [Act.writer] using ha
    simp only [step] at h
    split at h
    · rename_i hpc
      obtain rfl := Option.some.inj h
      exact .inl ⟨by rw [hpc]; rfl, Quiet.goto (Unchanged.refl s) rfl⟩
    · cases h
  | readChunk | read | returnReadChunk => cases ha

/-- What a step of writer `t` leaves alone. -/
structure WriterFrame (s s' : State) (t : ℕ) : Prop where
  version : s'.version = s.version
  rt : s'.rt = s.rt
  delivered : s'.delivered = s.delivered
  missed : s'.missed = s.missed
  removed : s'.removed = s.removed
  tls : ∀ t', t' ≠ t → s'.tls t' = s.tls t'
  readSeq : (s'.tls t).readSeq = (s.tls t).readSeq
  used : ∀ g ∈ s.groups, (s'.group g).used = (s.group g).used
  groups : s'.groups = s.groups ∨ ∃ g, g ∉ s.groups ∧ s'.groups = g :: s.groups

theorem Quiet.frame (h : Quiet s s' t) : WriterFrame s s' t where
  version := h.version
  rt := h.rt
  delivered := h.delivered
  missed := h.missed
  removed := h.lists.removed
  tls := h.tls
  readSeq := h.readSeq
  used g _ := by rw [h.lists.group]
  groups := .inl h.lists.groups

/-- A writer takes locks, or lists other than the used ones change. -/
theorem WriterFrame.of_goto (pc : WriterPc) (hv : s'.version = s.version) (hrt : s'.rt = s.rt)
    (hd : s'.delivered = s.delivered) (hm : s'.missed = s.missed) (hremoved : s'.removed = s.removed)
    (htls : s'.tls = (s.goto t pc).tls) (hused : ∀ g ∈ s.groups, (s'.group g).used = (s.group g).used)
    (hgroups : s'.groups = s.groups ∨ ∃ g, g ∉ s.groups ∧ s'.groups = g :: s.groups) :
    WriterFrame s s' t where
  version := hv
  rt := hrt
  delivered := hd
  missed := hm
  removed := hremoved
  tls t' ht := by rw [htls, State.goto_tls_of_ne _ _ ht]
  readSeq := by rw [htls, State.goto_tls_self]
  used := hused
  groups := hgroups

theorem used_setGroup {g : ℕ} {grp : Group} (h : grp.used = (s.group g).used) (g' : ℕ) :
    ((s.setGroup g grp).group g').used = (s.group g').used := by
  rcases eq_or_ne g' g with rfl | hg
  · simpa [State.setGroup] using h
  · simp [State.setGroup, hg]

/-- Only the new group is changed, and it was not linked. -/
theorem linkGroup_frame (h : ListsOk s) :
    s.spareGroup ∉ s.groups ∧ (linkGroup s).groups = s.spareGroup :: s.groups ∧
      (∀ g ∈ s.groups, (linkGroup s).group g = s.group g) ∧ Unchanged s { linkGroup s with
        groups := s.groups, pool := s.pool, groupIndex := s.groupIndex, group := s.group } := by
  have hnd := h.groups_nodup
  unfold LogBuffer.linkGroup
  cases hpool : s.pool with
  | nil =>
    have hspare : s.spareGroup = s.groupIndex + 1 := by rw [State.spareGroup, hpool]; rfl
    have hnew : s.spareGroup ∉ s.groups := fun hmem => by
      have := h.groups_le _ (List.mem_append_left _ hmem)
      omega
    refine ⟨hnew, rfl, fun g hg => ?_, ⟨⟨rfl, hpool.symm, rfl, rfl, rfl, rfl⟩, rfl, rfl, rfl, rfl, rfl⟩⟩
    exact Function.update_of_ne (fun he : g = s.spareGroup => hnew (he ▸ hg)) _ _
  | cons g pool =>
    have hspare : s.spareGroup = g := by rw [State.spareGroup, hpool]; rfl
    rw [State.spares, hpool] at hnd
    have hnd' := (List.nodup_cons.mp (List.nodup_middle.mp hnd)).1
    refine ⟨?_, rfl, fun _ _ => rfl, ⟨⟨rfl, hpool.symm, rfl, rfl, rfl, rfl⟩, rfl, rfl, rfl, rfl, rfl⟩⟩
    rw [hspare]
    exact fun hmem => hnd' (List.mem_append_left _ hmem)

theorem newBlockStep_frame (h : ListsOk s) (hs : newBlockStep cfg s t = some s') :
    WriterFrame s s' t := by
  unfold LogBuffer.newBlockStep at hs
  split at hs
  · split at hs
    · cases hs
    · obtain rfl := Option.some.inj hs
      exact WriterFrame.of_goto _ rfl rfl rfl rfl rfl rfl (fun _ _ => rfl) (.inl rfl)
    · split at hs
      · cases hs
      · obtain rfl := Option.some.inj hs
        exact WriterFrame.of_goto _ rfl rfl rfl rfl rfl rfl
          (fun g _ => used_setGroup (s := s) (by rfl) g) (.inl rfl)
  · split at hs
    · obtain rfl := Option.some.inj hs
      exact WriterFrame.of_goto _ rfl rfl rfl rfl rfl rfl
        (fun g _ => used_setGroup (s := s) (by rfl) g) (.inl rfl)
    · split at hs
      · cases hs
      · obtain rfl := Option.some.inj hs
        refine WriterFrame.of_goto _ rfl rfl rfl rfl rfl rfl (fun g _ => ?_) (.inl rfl)
        exact (used_setGroup (by rfl) g).trans (used_setGroup (s := s) (by rfl) g)
  · split at hs <;> obtain rfl := Option.some.inj hs
    · exact WriterFrame.of_goto _ rfl rfl rfl rfl rfl rfl (fun _ _ => rfl) (.inl rfl)
    · exact WriterFrame.of_goto _ rfl rfl rfl rfl rfl rfl
        (fun g _ => used_setGroup (s := s) (by rfl) g) (.inl rfl)
  · split at hs
    · obtain rfl := Option.some.inj hs
      exact WriterFrame.of_goto _ rfl rfl rfl rfl rfl rfl (fun _ _ => rfl) (.inl rfl)
    · cases hs
  · have hpool : ∀ {call seq s'}, (if s.poolLock = none then
        some ({ s with poolLock := some t }.goto t (.newGroup call seq)) else none) = some s' →
        WriterFrame s s' t := by
      intro call seq s' hs
      split at hs
      · obtain rfl := Option.some.inj hs
        exact WriterFrame.of_goto _ rfl rfl rfl rfl rfl rfl (fun _ _ => rfl) (.inl rfl)
      · cases hs
    split at hs
    · exact hpool hs
    · split at hs
      · exact hpool hs
      · obtain rfl := Option.some.inj hs
        exact WriterFrame.of_goto _ rfl rfl rfl rfl rfl rfl
          (fun g _ => used_setGroup (s := s) (by rfl) g) (.inl rfl)
  · split at hs
    · cases hs
    · rename_i call seq _ _ b rest hfree
      obtain rfl := Option.some.inj hs
      obtain ⟨hnew, hgroups, hgroup, hu⟩ := linkGroup_frame h
      refine WriterFrame.of_goto (.pushStage call s.spareGroup b true) hu.version hu.rt
        hu.delivered hu.missed hu.lists.removed ?_ (fun g hg => ?_) (.inr ⟨_, hnew, hgroups⟩)
      · have htls : (linkGroup s).tls = s.tls := hu.tls
        simp only [takeBlock, State.goto, State.setTls, initBlock, State.setBlock, State.setGroup, htls]
      · exact (used_setGroup (s := linkGroup s) (by rfl) g).trans (by rw [hgroup g hg])
  · rename_i call g b head hpc
    obtain rfl := Option.some.inj hs
    cases head with
    | false =>
      refine ⟨rfl, rfl, rfl, rfl, rfl, fun t' ht => Function.update_of_ne ht _ _, ?_,
        fun g' _ => used_setGroup (s := s) (by rfl) g', .inl rfl⟩
      simp [stageBlock, State.setTls]
    | true =>
      refine ⟨rfl, rfl, rfl, rfl, rfl, fun t' ht => Function.update_of_ne ht _ _, ?_,
        fun g' _ => used_setGroup (s := s) (by rfl) g', .inl rfl⟩
      simp [stageBlock, State.setTls]
  · cases hs

/-! ## The pointer that the reader has locked -/

/-- A group whose pointer the reader has locked stays as it is, and nobody else gets the lock. -/
def HeldFrame (s s' : State) : Prop := ∀ g ∈ s.groups, s.rtLocked = some g → s.CanLock g →
  s'.CanLock g ∧ (s'.group g).stage = (s.group g).stage

theorem SameLists.heldFrame (h : SameLists s s') : HeldFrame s s' := fun g _ _ hlock => by
  rw [State.CanLock, h.groups, h.group, h.headLock]
  exact ⟨hlock, rfl⟩

theorem HeldFrame.trans (h : HeldFrame s u) (h' : HeldFrame u s') (hrt : u.rt = s.rt)
    (hgroups : ∀ g ∈ s.groups, g ∈ u.groups) : HeldFrame s s' := by
  intro g hg hheld hlock
  obtain ⟨h1, h2⟩ := h g hg hheld hlock
  obtain ⟨h3, h4⟩ := h' g (hgroups g hg) (by rw [State.rtLocked, hrt]; exact hheld) h1
  exact ⟨h3, h4.trans h2⟩

/-- A group changes whose pointer the reader has not locked. -/
theorem HeldFrame.setGroup {g : ℕ} (grp : Group) (hg : s.rtLocked = some g → ¬ s.CanLock g) :
    HeldFrame s (s.setGroup g grp) := by
  intro x _ hheld hlock
  have hne : x ≠ g := by
    rintro rfl
    exact hg hheld hlock
  have hgroup : (s.setGroup g grp).group x = s.group x := Function.update_of_ne hne _ _
  rw [State.CanLock, hgroup]
  exact ⟨hlock, rfl⟩

/-- The reader has not locked a pointer that a writer has locked. -/
theorem not_canLock_of_reader {g : ℕ} (h : t ∈ (s.group g).readers) : ¬ s.CanLock g := fun hlock => by
  rw [hlock.1] at h
  cases h

theorem not_canLock_of_head {g : ℕ} (h : s.headLock = some t) (hg : s.groups.head? = some g) :
    ¬ s.CanLock g := fun hlock => by
  rw [hlock.2 hg] at h
  cases h

theorem heldFrame_linkGroup (h : ListsOk s) : HeldFrame s (linkGroup s) := by
  obtain ⟨hnew, hgroups, hgroup, -⟩ := linkGroup_frame h
  intro g hg _ hlock
  rw [State.CanLock, hgroup g hg, hgroups, List.head?_cons]
  refine ⟨⟨hlock.1, fun he => ?_⟩, rfl⟩
  obtain rfl := Option.some.inj he
  exact absurd hg hnew

theorem newBlockStep_held (h : ListsOk s) (hs : newBlockStep cfg s t = some s') : HeldFrame s s' := by
  have hr := h.role t
  unfold LogBuffer.newBlockStep at hs
  split at hs <;> rename_i hpc <;> try rw [hpc] at hr
  · split at hs
    · cases hs
    · obtain rfl := Option.some.inj hs
      exact SameLists.heldFrame ⟨rfl, rfl, rfl, rfl, rfl, rfl⟩
    · rename_i g _ _ _
      split at hs
      · cases hs
      · rename_i hfree
        obtain rfl := Option.some.inj hs
        exact HeldFrame.setGroup { s.group g with readers := t :: (s.group g).readers } fun he =>
          absurd he hfree
  · rename_i call seq g
    split at hs
    · obtain rfl := Option.some.inj hs
      exact HeldFrame.setGroup { s.group g with readers := (s.group g).readers.erase t } fun _ =>
        not_canLock_of_reader hr.2
    · rename_i g' _
      split at hs
      · cases hs
      · rename_i hfree
        obtain rfl := Option.some.inj hs
        refine (HeldFrame.setGroup { s.group g' with readers := t :: (s.group g').readers } fun he =>
          absurd he hfree).trans (HeldFrame.setGroup _ fun _ => not_canLock_of_reader (t := t) ?_) rfl
            fun _ hx => hx
        exact mem_readers_setReaders hr.2 fun _ => List.mem_cons_of_mem t
  · rename_i call seq g
    split at hs <;> obtain rfl := Option.some.inj hs
    · exact SameLists.heldFrame ⟨rfl, rfl, rfl, rfl, rfl, rfl⟩
    · rename_i b rest _
      exact HeldFrame.setGroup { s.group g with free := rest } fun _ => not_canLock_of_reader hr.2
  · split at hs
    · rename_i hfree
      obtain rfl := Option.some.inj hs
      exact fun g _ hheld hlock => ⟨⟨hlock.1, fun hg => absurd hheld (hfree.2 g hg).2⟩, rfl⟩
    · cases hs
  · have hpool : ∀ {call seq s'}, (if s.poolLock = none then
        some ({ s with poolLock := some t }.goto t (.newGroup call seq)) else none) = some s' →
        HeldFrame s s' := by
      intro call seq s' hs
      split at hs
      · obtain rfl := Option.some.inj hs
        exact SameLists.heldFrame ⟨rfl, rfl, rfl, rfl, rfl, rfl⟩
      · cases hs
    split at hs
    · exact hpool hs
    · rename_i g hg
      split at hs
      · exact hpool hs
      · rename_i b rest _
        obtain rfl := Option.some.inj hs
        exact HeldFrame.setGroup { s.group g with free := rest } fun _ => not_canLock_of_head hr hg
  · split at hs
    · cases hs
    · rename_i b rest _
      obtain rfl := Option.some.inj hs
      obtain ⟨-, hgroups, -, hu⟩ := linkGroup_frame h
      have hhead : (linkGroup s).headLock = some t := by
        unfold linkGroup
        split <;> exact hr
      refine (heldFrame_linkGroup h).trans (HeldFrame.setGroup
        { (linkGroup s).group s.spareGroup with free := rest } fun _ => not_canLock_of_head hhead ?_) hu.rt
          fun g hg => ?_
      · rw [hgroups, List.head?_cons]
      · rw [hgroups]
        exact List.mem_cons_of_mem _ hg
  · rename_i call g b head
    obtain rfl := Option.some.inj hs
    have hg : ¬ s.CanLock g := by
      cases head with
      | false => exact not_canLock_of_reader hr.2.1
      | true => exact not_canLock_of_head hr.1 hr.2.1
    intro x hx hheld hlock
    have hne : x ≠ g := by
      rintro rfl
      exact hg hlock
    cases head with
    | false => exact HeldFrame.setGroup _ (fun _ => hg) x hx hheld hlock
    | true =>
      obtain ⟨h1, h2⟩ := HeldFrame.setGroup { s.group g with stage := b :: (s.group g).stage }
        (fun _ => hg) x hx hheld hlock
      exact ⟨⟨h1.1, fun _ => rfl⟩, h2⟩
  · cases hs

end QLog.LogBuffer
