import QLog.Buffer.LogBuffer.Position

/-!
# The steps of the reader on the lists

Every step of the reader keeps the invariant of the lists and leads from one place to the next.

* `SamePlace s s'`: the reader stays where it is, and the lists are the same.
* `Shape` combines the invariants; `Shape.step` carries it over every step, `Shape.reopen` over the
  openings.
-/

namespace QLog.LogBuffer

variable {cfg : Config} {s s' u : State} {t g b : ℕ} {due : Bool}

/-- The reader stays where it is; the lists and the program counters of the writers are the same. -/
structure SamePlace (s s' : State) : Prop where
  lists : SameLists s s'
  pcs : ∀ t, (s'.tls t).pc = (s.tls t).pc
  curGroup : s'.rt.curGroup = s.rt.curGroup
  curBlock : s'.rt.curBlock = s.rt.curBlock
  lastBlock : s'.rt.lastBlock = s.rt.lastBlock
  lastGroup : s'.rt.lastGroup = s.rt.lastGroup

namespace SamePlace

theorem trans (h : SamePlace s u) (h' : SamePlace u s') : SamePlace s s' where
  lists := h.lists.trans h'.lists
  pcs t := (h'.pcs t).trans (h.pcs t)
  curGroup := h'.curGroup.trans h.curGroup
  curBlock := h'.curBlock.trans h.curBlock
  lastBlock := h'.lastBlock.trans h.lastBlock
  lastGroup := h'.lastGroup.trans h.lastGroup

theorem pos (h : SamePlace s s') : PosFrame s s' :=
  ⟨h.curGroup, h.curBlock, h.lastBlock, h.lastGroup, h.lists.removed, fun g _ => by rw [h.lists.group],
    .inl h.lists.groups⟩

theorem listsOk (h : SamePlace s s') (hl : ListsOk s) : ListsOk s' :=
  hl.frame h.lists fun t => by rw [h.pcs]

/-- The reader changes something other than its position. -/
theorem of_rt (hl : SameLists s s') (ht : s'.tls = s.tls) (hg : s'.rt.curGroup = s.rt.curGroup)
    (hc : s'.rt.curBlock = s.rt.curBlock) (hlast : s'.rt.lastBlock = s.rt.lastBlock)
    (hgroup : s'.rt.lastGroup = s.rt.lastGroup) : SamePlace s s' :=
  ⟨hl, fun t => by rw [ht], hg, hc, hlast, hgroup⟩

end SamePlace

/-! ## Registers of the reader -/

@[simp] theorem refresh_curGroup (r : Reader) : r.refreshTraverseEndMark.curGroup = r.curGroup := by
  unfold Reader.refreshTraverseEndMark
  split <;> rfl

@[simp] theorem refresh_curBlock (r : Reader) : r.refreshTraverseEndMark.curBlock = r.curBlock := by
  unfold Reader.refreshTraverseEndMark
  split <;> rfl

@[simp] theorem refresh_lastBlock (r : Reader) : r.refreshTraverseEndMark.lastBlock = r.lastBlock := by
  unfold Reader.refreshTraverseEndMark
  split <;> rfl

@[simp] theorem refresh_lastGroup (r : Reader) : r.refreshTraverseEndMark.lastGroup = r.lastGroup := by
  unfold Reader.refreshTraverseEndMark
  split <;> rfl

@[simp] theorem refresh_state (r : Reader) : r.refreshTraverseEndMark.state = r.state := by
  unfold Reader.refreshTraverseEndMark
  split <;> rfl

@[simp] theorem refresh_hpHandle (r : Reader) : r.refreshTraverseEndMark.hpHandle = r.hpHandle := by
  unfold Reader.refreshTraverseEndMark
  split <;> rfl

@[simp] theorem refresh_version (r : Reader) : r.refreshTraverseEndMark.version = r.version := by
  unfold Reader.refreshTraverseEndMark
  split <;> rfl

@[simp] theorem refresh_isInRecoveryReading (r : Reader) :
    r.refreshTraverseEndMark.isInRecoveryReading = r.isInRecoveryReading := by
  unfold Reader.refreshTraverseEndMark
  split <;> rfl

@[simp] theorem refresh_pc (r : Reader) : r.refreshTraverseEndMark.pc = r.pc := by
  unfold Reader.refreshTraverseEndMark
  split <;> rfl

theorem countSeq_place (s : State) (c : Context) : SamePlace s (countSeq s c) := by
  unfold countSeq
  split
  · split
    · exact SamePlace.of_rt ⟨rfl, rfl, rfl, rfl, rfl, rfl⟩ rfl rfl rfl rfl rfl
    · refine ⟨⟨rfl, rfl, rfl, rfl, rfl, rfl⟩, fun t => ?_, rfl, rfl, rfl, rfl⟩
      rcases eq_or_ne t c.tls with rfl | ht
      · simp [State.setTls]
      · simp [State.setTls, ht]
  · exact SamePlace.of_rt ⟨rfl, rfl, rfl, rfl, rfl, rfl⟩ rfl rfl rfl rfl rfl

theorem countSeq_rt (s : State) (c : Context) :
    (countSeq s c).rt.state = s.rt.state ∧ (countSeq s c).rt.hpHandle = s.rt.hpHandle ∧
      (countSeq s c).rt.pc = s.rt.pc ∧ (countSeq s c).rt.version = s.rt.version ∧
      (countSeq s c).rt.isInRecoveryReading = s.rt.isInRecoveryReading := by
  unfold countSeq
  split
  · split <;> exact ⟨rfl, rfl, rfl, rfl, rfl⟩
  · exact ⟨rfl, rfl, rfl, rfl, rfl⟩

theorem deregisterSeq_place (s : State) (c : Context) : SamePlace s (deregisterSeq s c) :=
  (countSeq_place s c).trans (SamePlace.of_rt ⟨rfl, rfl, rfl, rfl, rfl, rfl⟩ rfl
    (refresh_curGroup _) (refresh_curBlock _) (refresh_lastBlock _) (refresh_lastGroup _))

theorem deregisterSeq_state (s : State) (c : Context) :
    (deregisterSeq s c).rt.state = s.rt.state :=
  (refresh_state _).trans (countSeq_rt s c).1

theorem deregisterSeq_hpHandle (s : State) (c : Context) :
    (deregisterSeq s c).rt.hpHandle = s.rt.hpHandle :=
  (refresh_hpHandle _).trans (countSeq_rt s c).2.1

theorem deregisterSeq_pc (s : State) (c : Context) : (deregisterSeq s c).rt.pc = s.rt.pc :=
  (refresh_pc _).trans (countSeq_rt s c).2.2.1

/-! ## The invariant -/

/-- The lists are sound and the reader stands somewhere on them. -/
structure Shape (s : State) : Prop where
  lists : ListsOk s
  stands : Stands s

/-- A step of the reader that leaves it where it is. -/
theorem Shape.stay (h : Shape s) (hp : SamePlace s s') (hst : Stands s') : Shape s' :=
  ⟨hp.listsOk h.lists, hst⟩

theorem Shape.crash (h : Shape s) : Shape (crash s) :=
  h.stay (SamePlace.of_rt ⟨rfl, rfl, rfl, rfl, rfl, rfl⟩ rfl rfl rfl rfl rfl) trivial

theorem stands_loop (hpc : s.rt.pc = .loop) : Stands s ↔ StandsInLoop s := by
  rw [Stands, hpc]

theorem Shape.inLoop (h : Shape s) (hpc : s.rt.pc = .loop) : StandsInLoop s := (stands_loop hpc).mp h.stands

theorem Shape.atRing (h : Shape s) (hpc : s.rt.pc = .loop) (hst : s.rt.state = .lpBufferReading) :
    AtRing s ∧ s.rt.hpHandle = none := by
  have hs := h.inLoop hpc
  rw [StandsInLoop, hst] at hs
  exact ⟨hs.2, hs.1⟩

/-! ## The ring -/

/-- The program counters at which the reader may stand at the ring. -/
def ReaderPc.atRing : ReaderPc → Bool
  | idle | loop | oversizeLock _ | oversizeSearch _ _ | returnParent => true
  | holding (.lp _) | holding (.oversize _ _) => true
  | _ => false

/-- The reader stays at the ring. -/
theorem Shape.ring (h : Shape s) (hr : AtRing s ∧ s.rt.hpHandle = none) (hp : SamePlace s s')
    (hst : s'.rt.state = s.rt.state) (hhp : s'.rt.hpHandle = s.rt.hpHandle)
    (hpc : s'.rt.pc.atRing) : Shape s' := by
  have hr' : AtRing s' ∧ s'.rt.hpHandle = none :=
    ⟨hp.pos.atRing hr.1 (hst.trans hr.1.state), hhp.trans hr.2⟩
  refine h.stay hp ?_
  unfold Stands
  cases hpc' : s'.rt.pc with
  | idle => exact .inl hr'
  | loop =>
    change StandsInLoop s'
    rw [StandsInLoop, hr'.1.state]
    exact ⟨hr'.2, hr'.1⟩
  | oversizeLock | oversizeSearch | returnParent => exact hr'
  | holding chunk =>
    cases chunk with
    | lp | oversize => exact hr'
    | hp => simp [hpc', ReaderPc.atRing] at hpc
  | recycleCheck | recycleLock | recycle | leaveBlock | enterBlock | leaveGroup | lockGroup | checkGroup
  | unlinkGroup | pushPool | empty | crashed => simp [hpc', ReaderPc.atRing] at hpc

theorem Shape.lpNothing (h : Shape s) (hr : AtRing s ∧ s.rt.hpHandle = none) :
    Shape (lpNothing s) :=
  h.stay (SamePlace.of_rt ⟨rfl, rfl, rfl, rfl, rfl, rfl⟩ rfl rfl rfl rfl rfl)
    ⟨rfl, ⟨hr.1.curGroup, hr.1.curBlock, hr.1.lastBlock⟩, hr.2⟩

theorem Shape.popSlot (h : Shape s) (hr : AtRing s ∧ s.rt.hpHandle = none) (hpc : s.rt.pc = .loop) :
    Shape (popSlot s) :=
  h.ring hr (SamePlace.of_rt ⟨rfl, rfl, rfl, rfl, rfl, rfl⟩ rfl rfl rfl rfl rfl) rfl rfl
    (by change s.rt.pc.atRing; rw [hpc]; rfl)

theorem Shape.readSlot (h : Shape s) (hr : AtRing s ∧ s.rt.hpHandle = none) (hpc : s.rt.pc = .loop)
    (size : ℕ) (c : Context) (data : List UInt8) : Shape (readSlot s size c data) := by
  unfold LogBuffer.readSlot
  split
  · exact h.crash
  · split
    · refine h.ring hr ((deregisterSeq_place s c).trans
        (SamePlace.of_rt ⟨rfl, rfl, rfl, rfl, rfl, rfl⟩ rfl rfl rfl rfl rfl)) ?_ ?_ ?_
      · exact deregisterSeq_state s c
      · exact deregisterSeq_hpHandle s c
      · change (deregisterSeq s c).rt.pc.atRing
        rw [deregisterSeq_pc, hpc]
        rfl
    · split
      · exact h.ring hr (SamePlace.of_rt ⟨rfl, rfl, rfl, rfl, rfl, rfl⟩ rfl rfl rfl rfl rfl) rfl rfl rfl
      · exact h.ring hr (SamePlace.of_rt ⟨rfl, rfl, rfl, rfl, rfl, rfl⟩ rfl rfl rfl rfl rfl) rfl rfl rfl
  · exact h.popSlot hr hpc
  · exact h.popSlot hr hpc
  · exact h.lpNothing hr
  · exact h.lpNothing hr

theorem Shape.readFromLpBuffer (h : Shape s) (hpc : s.rt.pc = .loop)
    (hst : s.rt.state = .lpBufferReading) : Shape (readFromLpBuffer s) := by
  have hr := h.atRing hpc hst
  unfold LogBuffer.readFromLpBuffer
  split
  · exact h.lpNothing hr
  · exact h.lpNothing hr
  · exact h.lpNothing hr
  · exact h.popSlot hr hpc
  · exact h.readSlot hr hpc _ _ _

theorem Shape.readOversizeChunk (h : Shape s) {parent : Context} {i : ℕ}
    (hpc : s.rt.pc = .oversizeSearch parent i) : Shape (readOversizeChunk s parent i) := by
  have hr : AtRing s ∧ s.rt.hpHandle = none := by
    have := h.stands
    rwa [Stands, hpc] at this
  have hnext : Shape (gotoReader s (.oversizeSearch parent (i + 1))) :=
    h.ring hr (SamePlace.of_rt ⟨rfl, rfl, rfl, rfl, rfl, rfl⟩ rfl rfl rfl rfl rfl) rfl rfl rfl
  unfold LogBuffer.readOversizeChunk
  dsimp only
  split
  · have hunlock : SamePlace s { s with arrayReaders := s.arrayReaders.erase .reader } :=
      SamePlace.of_rt ⟨rfl, rfl, rfl, rfl, rfl, rfl⟩ rfl rfl rfl rfl rfl
    refine h.ring hr ((hunlock.trans (deregisterSeq_place _ parent)).trans
        (SamePlace.of_rt ⟨rfl, rfl, rfl, rfl, rfl, rfl⟩ rfl rfl rfl rfl rfl)) ?_ ?_ rfl
    · exact deregisterSeq_state _ parent
    · exact deregisterSeq_hpHandle _ parent
  · split
    · exact hnext
    · split
      · exact hnext
      · split
        · exact h.ring hr (SamePlace.of_rt ⟨rfl, rfl, rfl, rfl, rfl, rfl⟩ rfl rfl rfl rfl rfl) rfl rfl rfl
        · exact h.ring hr (SamePlace.of_rt ⟨rfl, rfl, rfl, rfl, rfl, rfl⟩ rfl rfl rfl rfl rfl) rfl rfl
            (by rw [hpc]; rfl)
        · exact h.ring hr (SamePlace.of_rt ⟨rfl, rfl, rfl, rfl, rfl, rfl⟩ rfl rfl rfl rfl rfl) rfl rfl
            (by rw [hpc]; rfl)
        · exact hnext
        · exact hnext

/-! ## The blocks -/

theorem Shape.readHpBlock (h : Shape s) (hpc : s.rt.pc = .loop) (hst : s.rt.state = .hpBlockReading) :
    Shape (readHpBlock s b) := by
  have hs := h.inLoop hpc
  rw [StandsInLoop, hst] at hs
  have hplace : ∀ {u : State}, SameLists s u → u.tls = s.tls → u.rt.curGroup = s.rt.curGroup →
      u.rt.curBlock = s.rt.curBlock → u.rt.lastBlock = s.rt.lastBlock → u.rt.lastGroup = s.rt.lastGroup →
      SamePlace s u ∧ ∃ g b passed rest, AtBlock u g b passed rest := by
    intro u h1 h2 h3 h4 h5 h6
    have hp := SamePlace.of_rt h1 h2 h3 h4 h5 h6
    exact ⟨hp, hp.pos.atSomeBlock hs.2⟩
  unfold LogBuffer.readHpBlock
  split
  · obtain ⟨hp, hat⟩ := hplace (u := setReadState (s.setReader { s.rt with hpHandle := none })
      .nextBlockFinding) ⟨rfl, rfl, rfl, rfl, rfl, rfl⟩ rfl rfl rfl rfl rfl
    refine h.stay hp ?_
    rw [stands_loop (by exact hpc)]
    exact ⟨rfl, .inl hat⟩
  · rename_i payload rest hrec
    obtain ⟨hp, hat⟩ := hplace (u := handOut ((s.setBlock b { s.block b with records := rest }).setReader
      { s.rt with hpHandle := some rest.length }) (.hp (s.block b).context) payload.length payload)
      ⟨rfl, rfl, rfl, rfl, rfl, rfl⟩ rfl rfl rfl rfl rfl
    exact h.stay hp ⟨hst, hat⟩

/-- The reader moves blocks from one list of a group to another, or groups that are not linked. -/
theorem ListsOk.permute (h : ListsOk s) (hgroups : s'.groups = s.groups) (hpool : s'.spares.Perm s.spares)
    (hindex : s'.groupIndex = s.groupIndex) (hhead : s'.headLock = s.headLock)
    (hpcs : ∀ t, (s'.tls t).pc = (s.tls t).pc)
    (hperm : ∀ g, (s'.group g).blocks.Perm (s.group g).blocks)
    (hreaders : ∀ g, (s'.group g).readers = (s.group g).readers) : ListsOk s' where
  nodup g := (hperm g).nodup_iff.mpr (h.nodup g)
  groupOf_eq g b hb := h.groupOf_eq g b ((hperm g).mem_iff.mp hb)
  groups_nodup := by
    rw [hgroups]
    exact (hpool.append_left s.groups).nodup_iff.mpr h.groups_nodup
  groups_le g hg := by
    rw [hgroups] at hg
    rw [hindex]
    exact h.groups_le g ((hpool.append_left s.groups).mem_iff.mp hg)
  role t := by
    have hr := h.role t
    rw [hpcs]
    cases hrole : (s.tls t).pc.role with
    | none => trivial
    | group g =>
      rw [hrole] at hr
      exact ⟨hgroups ▸ hr.1, by rw [hreaders]; exact hr.2⟩
    | hand g b =>
      rw [hrole] at hr
      exact ⟨hgroups ▸ hr.1, by rw [hreaders]; exact hr.2.1, hr.2.2.1,
        fun hb => hr.2.2.2 ((hperm g).mem_iff.mp hb)⟩
    | head =>
      rw [hrole] at hr
      exact hhead.trans hr
    | headHand g b =>
      rw [hrole] at hr
      exact ⟨hhead.trans hr.1, by rw [hgroups]; exact hr.2.1, hr.2.2.1,
        fun hb => hr.2.2.2 ((hperm g).mem_iff.mp hb)⟩
  hand_inj t t' b := by
    rw [hpcs, hpcs]
    exact h.hand_inj t t' b

/-- The same when the lists of one group are changed. -/
theorem ListsOk.permuteGroup (h : ListsOk s) {grp : Group} (hgroup : s'.group = Function.update s.group g grp)
    (hgroups : s'.groups = s.groups) (hpool : s'.spares = s.spares)
    (hindex : s'.groupIndex = s.groupIndex) (hhead : s'.headLock = s.headLock)
    (hpcs : ∀ t, (s'.tls t).pc = (s.tls t).pc) (hperm : grp.blocks.Perm (s.group g).blocks)
    (hreaders : grp.readers = (s.group g).readers) : ListsOk s' := by
  refine h.permute hgroups (.of_eq hpool) hindex hhead hpcs (fun g' => ?_) fun g' => ?_
  all_goals
    rw [hgroup]
    rcases eq_or_ne g' g with rfl | hg
  · rwa [Function.update_self]
  · rw [Function.update_of_ne hg]
  · rwa [Function.update_self]
  · rw [Function.update_of_ne hg]

/-- The used list of the group the reader is in gets longer at the end; the walk goes on. -/
theorem Walks.append (hw : Walks s g) {grp : Group} (hsub : ∀ b ∈ (s.group g).used, b ∈ grp.used)
    (hgroup : s'.group = Function.update s.group g grp) (hgroups : s'.groups = s.groups)
    (hcur : s'.rt.curGroup = s.rt.curGroup) (hlast : s'.rt.lastBlock = s.rt.lastBlock)
    (hlg : s'.rt.lastGroup = s.rt.lastGroup) : Walks s' g where
  curGroup := hcur.trans hw.curGroup
  lastGroup l hl := by
    rw [hgroups]
    exact hw.lastGroup l (hlg ▸ hl)
  mem := by rw [hgroups]; exact hw.mem
  last b hb := by
    rw [hlast] at hb
    obtain ⟨⟨hb1, hb2⟩, hb3⟩ := hw.last b hb
    refine ⟨⟨?_, by rw [hgroups]; exact hb2⟩, by rw [hgroups]; exact hb3⟩
    rw [hgroup]
    rcases eq_or_ne (groupOf b) g with hg | hg
    · rw [hg, Function.update_self]
      exact hsub b (hg ▸ hb1)
    · rwa [Function.update_of_ne hg]

/-- The current block if it lies in group `g`. -/
theorem AtBlock.inGroup {passed rest : List ℕ} (h : AtBlock s g b passed rest) :
    s.rt.curBlock.filter (groupOf · = g) = some b := by
  rw [h.curBlock]
  simp [h.groupOf_eq]

theorem AtGroup.inGroup (h : AtGroup s g) : s.rt.curBlock.filter (groupOf · = g) = none := by
  rw [h.curBlock]
  exact h.last

theorem ListsOk.used_nodup (h : ListsOk s) (g : ℕ) : (s.group g).used.Nodup :=
  (List.nodup_append.mp (h.nodup g)).1

theorem nextOf_used {passed rest : List ℕ} (hl : ListsOk s) (h : AtBlock s g b passed rest) :
    nextOf (s.group g).used b = rest.head? := by
  have hnd := hl.used_nodup g
  rw [h.used] at hnd ⊢
  exact nextOf_append (not_mem_of_nodup_append hnd)

/-- The staged block `c` is put behind the current block `b`. -/
theorem AtBlock.pushAfter {passed : List ℕ} {c : ℕ} (hl : ListsOk s) (h : AtBlock s g b passed []) :
    QLog.pushAfter (s.group g).used (some b) c = passed ++ [b, c] := by
  have hnd := hl.used_nodup g
  rw [h.used] at hnd ⊢
  exact pushAfter_append_some (not_mem_of_nodup_append hnd)

theorem Shape.findNextBlock (h : Shape s) (hpc : s.rt.pc = .loop)
    (hst : s.rt.state = .nextBlockFinding) (hg : s.rt.curGroup = some g) :
    Shape (findNextBlock s g) := by
  have hs := h.inLoop hpc
  rw [StandsInLoop, hst] at hs
  obtain ⟨hhp, hs⟩ := hs
  -- the block found is on the used list already
  have hfound : ∀ {next : Option ℕ},
      ((∃ g b passed rest, AtBlock s g b passed rest ∧ next = rest.head?) ∨
        ∃ g, AtGroup s g ∧ next = (s.group g).used.head?) →
      Shape (gotoReader s (.leaveBlock next)) := by
    intro next hnext
    have hp : SamePlace s (gotoReader s (.leaveBlock next)) :=
      SamePlace.of_rt ⟨rfl, rfl, rfl, rfl, rfl, rfl⟩ rfl rfl rfl rfl rfl
    refine h.stay hp ⟨hst, hhp, hnext.imp ?_ ?_⟩
    · rintro ⟨g, b, passed, rest, hb, hn⟩
      exact ⟨g, b, passed, rest, hp.pos.atBlock hb, hn⟩
    · rintro ⟨g, hg, hn⟩
      exact ⟨g, hp.pos.atGroup hg, hn⟩
  -- the block found is staged
  have hstaged : ∀ {c : ℕ} {rest used : List ℕ}, (s.group g).stage = c :: rest →
      used = (s.group g).used ++ [c] →
      ListsOk (gotoReader (s.setGroup g { s.group g with stage := rest, used := used })
        (.leaveBlock (some c))) := by
    intro c rest used hstage hused
    refine h.lists.permuteGroup rfl rfl rfl rfl rfl (fun _ => rfl) ?_ rfl
    simp only [Group.blocks, hused, hstage, List.append_assoc, List.cons_append]
    exact List.Perm.refl _
  unfold LogBuffer.findNextBlock
  rcases hs with ⟨g', b, passed, rest, hb⟩ | ⟨g', hb⟩
  · obtain rfl : g' = g := Option.some.inj (hb.walks.curGroup.symm.trans hg)
    simp only [hb.inGroup, nextOf_used h.lists hb]
    cases rest with
    | cons c rest => exact hfound (.inl ⟨g', b, passed, c :: rest, hb, rfl⟩)
    | nil =>
      simp only [List.head?_nil]
      split
      · exact hfound (.inl ⟨g', b, passed, [], hb, rfl⟩)
      · rename_i c rest hstage
        have hused : QLog.pushAfter (s.group g').used (some b) c = (s.group g').used ++ [c] := by
          rw [hb.pushAfter h.lists, hb.used, List.append_assoc]
          rfl
        refine ⟨hstaged hstage hused, hst, hhp, .inl ⟨g', b, passed, [c], ?_, rfl⟩⟩
        refine ⟨hb.walks.append (fun x hx => ?_) rfl rfl rfl rfl rfl, hb.curBlock, hb.groupOf_eq, ?_,
          hb.last⟩
        · rw [hused]
          exact List.mem_append_left _ hx
        · simp only [gotoReader, State.setReader, State.setGroup, Function.update_self,
            hb.pushAfter h.lists]
  · obtain rfl : g' = g := Option.some.inj (hb.walks.curGroup.symm.trans hg)
    simp only [hb.inGroup]
    cases hused : (s.group g').used with
    | cons c rest => exact hfound (.inr ⟨g', hb, by rw [hused]; rfl⟩)
    | nil =>
      simp only [List.head?_nil]
      split
      · exact hfound (.inr ⟨g', hb, by rw [hused]; rfl⟩)
      · rename_i c rest hstage
        refine ⟨hstaged hstage (by rw [hused]; rfl), hst, hhp, .inr ⟨g', ?_, ?_⟩⟩
        · refine ⟨hb.walks.append (fun x hx => ?_) rfl rfl rfl rfl rfl, hb.curBlock, hb.last⟩
          rw [hused] at hx
          cases hx
        · simp [gotoReader, State.setReader, State.setGroup, QLog.pushAfter]

/-- `last_block_` is the predecessor of the current block, so the block is unlinked. -/
theorem AtBlock.removeAfter {passed rest : List ℕ} (hl : ListsOk s) (h : AtBlock s g b passed rest) :
    QLog.removeAfter (s.group g).used (s.lastIn g) b = passed ++ rest := by
  have hnd := hl.used_nodup g
  rw [h.last]
  rw [h.used] at hnd ⊢
  rcases List.eq_nil_or_concat passed with rfl | ⟨pre, p, rfl⟩
  · exact removeAfter_cons_none
  · rw [List.concat_eq_append] at hnd ⊢
    have hb : b ∉ pre ++ [p] := not_mem_of_nodup_append hnd
    rw [List.append_assoc] at hnd
    simp only [List.getLast?_append, List.getLast?_singleton, Option.some_or, List.append_assoc,
      List.singleton_append]
    exact removeAfter_append_some (not_mem_of_nodup_append hnd) hb

/-- The reader recycles the block it stands at. -/
theorem recycleBlock_group (s : State) (g b : ℕ) : (recycleBlock s g b).group =
    Function.update s.group g { s.group g with
      used := QLog.removeAfter (s.group g).used (s.lastIn g) b, free := b :: (s.group g).free } := rfl

theorem perm_recycled {passed rest stage free : List ℕ} :
    (passed ++ rest ++ (stage ++ b :: free)).Perm (passed ++ b :: rest ++ (stage ++ free)) := by
  have h1 : (passed ++ rest ++ (stage ++ b :: free)).Perm (b :: (passed ++ rest ++ (stage ++ free))) := by
    rw [← List.append_assoc, ← List.append_assoc]
    exact List.perm_middle
  have h2 : (passed ++ b :: rest ++ (stage ++ free)).Perm (b :: (passed ++ rest ++ (stage ++ free))) := by
    rw [List.append_assoc, List.append_assoc, List.cons_append]
    exact List.perm_middle
  exact h1.trans h2.symm

theorem ListsOk.recycle {passed rest : List ℕ} (hl : ListsOk s) (h : AtBlock s g b passed rest)
    (hgroup : s'.group = (recycleBlock s g b).group) (hgroups : s'.groups = s.groups)
    (hpool : s'.spares = s.spares) (hindex : s'.groupIndex = s.groupIndex)
    (hhead : s'.headLock = s.headLock) (hpcs : ∀ t, (s'.tls t).pc = (s.tls t).pc) : ListsOk s' := by
  refine hl.permuteGroup (hgroup.trans (recycleBlock_group s g b)) hgroups hpool hindex hhead hpcs
    ?_ rfl
  simp only [Group.blocks, h.removeAfter hl]
  rw [h.used]
  exact perm_recycled

/-- The walk after the current block was recycled. -/
theorem Walks.recycle {passed rest : List ℕ} (hl : ListsOk s) (h : AtBlock s g b passed rest)
    (hgroup : s'.group = (recycleBlock s g b).group) (hgroups : s'.groups = s.groups)
    (hcur : s'.rt.curGroup = s.rt.curGroup) (hlast : s'.rt.lastBlock = s.rt.lastBlock)
    (hlg : s'.rt.lastGroup = s.rt.lastGroup) : Walks s' g where
  curGroup := hcur.trans h.walks.curGroup
  lastGroup l hl := by
    rw [hgroups]
    exact h.walks.lastGroup l (hlg ▸ hl)
  mem := by rw [hgroups]; exact h.walks.mem
  last p hp := by
    rw [hlast] at hp
    obtain ⟨⟨hp1, hp2⟩, hp3⟩ := h.walks.last p hp
    refine ⟨⟨?_, by rw [hgroups]; exact hp2⟩, by rw [hgroups]; exact hp3⟩
    rw [hgroup, recycleBlock_group]
    rcases eq_or_ne (groupOf p) g with hg | hg
    · have hin : passed.getLast? = some p := by
        rw [← h.last, State.lastIn, hp]
        simp [hg]
      rw [hg, Function.update_self, h.removeAfter hl]
      exact List.mem_append_left _ (List.mem_of_getLast? hin)
    · rwa [Function.update_of_ne hg]

theorem AtBlock.kept {passed rest : List ℕ} (h : AtBlock s g b passed rest) : Kept s b := by
  refine ⟨?_, ?_⟩
  · rw [h.groupOf_eq, h.used]
    simp
  · rw [h.groupOf_eq]
    exact h.walks.mem

/-- The walk when the current block becomes the last one. -/
theorem Walks.keep {passed rest : List ℕ} (hl : ListsOk s) (h : AtBlock s g b passed rest)
    (hgroup : s'.group = s.group) (hgroups : s'.groups = s.groups)
    (hcur : s'.rt.curGroup = s.rt.curGroup) (hlast : s'.rt.lastBlock = some b)
    (hlg : s'.rt.lastGroup = s.rt.lastGroup) : Walks s' g where
  curGroup := hcur.trans h.walks.curGroup
  lastGroup l hl := by
    rw [hgroups]
    exact h.walks.lastGroup l (hlg ▸ hl)
  mem := by rw [hgroups]; exact h.walks.mem
  last p hp := by
    obtain rfl : b = p := Option.some.inj (hlast.symm.trans hp)
    have hk := h.kept
    refine ⟨⟨by rw [hgroup]; exact hk.1, by rw [hgroups]; exact hk.2⟩, ?_⟩
    rw [hgroups, h.groupOf_eq]
    exact not_mem_afterOf_self (List.nodup_append.mp hl.groups_nodup).1

theorem deregisterIfValid_place (s : State) (b : ℕ) : SamePlace s (deregisterIfValid s b) := by
  unfold deregisterIfValid
  split
  · exact deregisterSeq_place s _
  · exact SamePlace.of_rt ⟨rfl, rfl, rfl, rfl, rfl, rfl⟩ rfl rfl rfl rfl rfl

theorem deregisterIfValid_rt (s : State) (b : ℕ) :
    (deregisterIfValid s b).rt.state = s.rt.state ∧
      (deregisterIfValid s b).rt.hpHandle = s.rt.hpHandle := by
  unfold deregisterIfValid
  split
  · exact ⟨deregisterSeq_state s _, deregisterSeq_hpHandle s _⟩
  · exact ⟨rfl, rfl⟩

/-- On to the next block of the group, or behind the group. -/
theorem Shape.goOn (passed rest : List ℕ) {removed : Bool} (hl : ListsOk s) (hw : Walks s g)
    (hst : s.rt.state = .nextBlockFinding) (hhp : s.rt.hpHandle = none)
    (hused : (s.group g).used = passed ++ rest) (hlast : s.lastIn g = passed.getLast?)
    (hcur : removed = false → s.rt.curBlock = s.rt.lastBlock) :
    Shape (goOn s removed rest.head?) := by
  cases rest with
  | cons c rest =>
    have hp : SamePlace s (gotoReader s (.enterBlock c)) :=
      SamePlace.of_rt ⟨rfl, rfl, rfl, rfl, rfl, rfl⟩ rfl rfl rfl rfl rfl
    refine ⟨hp.listsOk hl, hst, hhp, g, passed, rest, hp.pos.walks hw, ?_, hused, hlast⟩
    refine hl.groupOf_eq g c ?_
    rw [Group.blocks, hused]
    simp
  | nil =>
    have hcur' : (if removed then s.rt.lastBlock else s.rt.curBlock) = s.rt.lastBlock := by
      cases removed with
      | true => rfl
      | false => exact hcur rfl
    refine ⟨hl.frame ⟨rfl, rfl, rfl, rfl, rfl, rfl⟩ fun _ => rfl, hhp, .inr ⟨g, ?_, hcur'⟩⟩
    exact ⟨hw.curGroup, hw.mem, hw.last, hw.lastGroup⟩

theorem Shape.leaveBlock (h : Shape s) {next : Option ℕ} (hpc : s.rt.pc = .leaveBlock next)
    (hg : s.rt.curGroup = some g) : Shape (leaveBlock s g next) := by
  have hs := h.stands
  rw [Stands, hpc] at hs
  obtain ⟨hst, hhp, hs⟩ := hs
  unfold LogBuffer.leaveBlock
  rcases hs with ⟨g', b, passed, rest, hb, rfl⟩ | ⟨g', hb, rfl⟩
  · obtain rfl : g' = g := Option.some.inj (hb.walks.curGroup.symm.trans hg)
    simp only [hb.inGroup]
    split
    · have hp := deregisterIfValid_place s b
      have hb' := hp.pos.atBlock hb
      have hl' := hp.listsOk h.lists
      obtain ⟨hst', hhp'⟩ := deregisterIfValid_rt s b
      refine Shape.goOn (g := g') passed rest (hl'.recycle hb' rfl rfl rfl rfl rfl fun _ => rfl)
        (Walks.recycle hl' hb' rfl rfl rfl rfl rfl) (hst'.trans hst) (hhp'.trans hhp) ?_ hb'.last ?_
      · rw [recycleBlock_group, Function.update_self]
        exact hb'.removeAfter hl'
      · exact fun hf => by cases hf
    · refine Shape.goOn (g := g') (passed ++ [b]) rest
        (h.lists.frame ⟨rfl, rfl, rfl, rfl, rfl, rfl⟩ fun _ => rfl)
        (Walks.keep h.lists hb rfl rfl rfl rfl rfl) hst hhp ?_ ?_ fun _ => hb.curBlock
      · rw [List.append_assoc]
        exact hb.used
      · simp [State.lastIn, State.setReader, hb.groupOf_eq]
  · obtain rfl : g' = g := Option.some.inj (hb.walks.curGroup.symm.trans hg)
    simp only [hb.inGroup]
    have hsame : (if s.rt.curBlock = none then s.setReader { s.rt with lastBlock := none } else s) = s := by
      split
      · rename_i hnone
        rw [State.setReader, ← hnone, hb.curBlock]
      · rfl
    rw [hsame]
    exact Shape.goOn [] _ h.lists hb.walks hst hhp rfl hb.last fun _ => hb.curBlock

/-! ## Entering a block -/

theorem tryTraverseToNextVersion_place (s : State) : SamePlace s (tryTraverseToNextVersion s) :=
  SamePlace.of_rt ⟨rfl, rfl, rfl, rfl, rfl, rfl⟩ rfl rfl rfl rfl rfl

theorem meetEndMark_place (s : State) (v : VerifyResult) (b : ℕ) : SamePlace s (meetEndMark s v b) := by
  unfold meetEndMark
  dsimp only
  split
  · exact SamePlace.of_rt ⟨rfl, rfl, rfl, rfl, rfl, rfl⟩ rfl rfl rfl rfl rfl
  · split
    · split
      · exact SamePlace.of_rt ⟨rfl, rfl, rfl, rfl, rfl, rfl⟩ rfl rfl rfl rfl rfl
      · exact tryTraverseToNextVersion_place s
    · split
      · exact SamePlace.of_rt ⟨rfl, rfl, rfl, rfl, rfl, rfl⟩ rfl rfl rfl rfl rfl
      · exact SamePlace.of_rt ⟨rfl, rfl, rfl, rfl, rfl, rfl⟩ rfl rfl rfl rfl rfl

theorem meetEndMark_rt (s : State) (v : VerifyResult) (b : ℕ) :
    (meetEndMark s v b).rt.hpHandle = s.rt.hpHandle ∧
      ((meetEndMark s v b).rt.state = s.rt.state ∨
        (meetEndMark s v b).rt.state = .traversalCompleted) := by
  unfold meetEndMark
  dsimp only
  split
  · exact ⟨rfl, .inl rfl⟩
  · split
    · split
      · exact ⟨rfl, .inr rfl⟩
      · exact ⟨rfl, .inl rfl⟩
    · split <;> exact ⟨rfl, .inl rfl⟩

/-- The reader arrives at the block it is about to enter. -/
theorem Entering.arriveAt {passed rest : List ℕ} (h : Entering s g b passed rest) (v : VerifyResult) :
    AtBlock (arriveAt s v b) g b passed rest :=
  ⟨⟨h.walks.curGroup, h.walks.mem, h.walks.last, h.walks.lastGroup⟩, rfl, h.groupOf_eq, h.used, h.last⟩

theorem stands_of_atBlock {passed rest : List ℕ} (hpc : s.rt.pc = .loop) (hhp : s.rt.hpHandle = none)
    (hat : AtBlock s g b passed rest) (hst : s.rt.state = .hpBlockReading ∨
      s.rt.state = .nextBlockFinding ∨ s.rt.state = .traversalCompleted) : Stands s := by
  rw [stands_loop hpc]
  refine ⟨hhp, ?_⟩
  rcases hst with hst | hst | hst <;> rw [hst]
  · exact ⟨g, b, passed, rest, hat⟩
  · exact .inl ⟨g, b, passed, rest, hat⟩
  · exact .inr ⟨g, b, passed, rest, hat⟩

theorem Shape.enterBlock (h : Shape s) (hpc : s.rt.pc = .enterBlock b) : Shape (enterBlock s b) := by
  have hs := h.stands
  rw [Stands, hpc] at hs
  obtain ⟨hst, hhp, g, passed, rest, hb⟩ := hs
  unfold LogBuffer.enterBlock
  split
  · exact h.crash
  · rename_i v _
    have hl : ListsOk (arriveAt s v b) := h.lists.frame ⟨rfl, rfl, rfl, rfl, rfl, rfl⟩ fun _ => rfl
    have hp := meetEndMark_place (arriveAt s v b) v b
    obtain ⟨hhp', hst'⟩ := meetEndMark_rt (arriveAt s v b) v b
    have hfin : ∀ st : ReadState, SamePlace (meetEndMark (arriveAt s v b) v b)
        ((meetEndMark (arriveAt s v b) v b).setReader
          { (meetEndMark (arriveAt s v b) v b).rt with state := st, pc := .loop }) :=
      fun _ => SamePlace.of_rt ⟨rfl, rfl, rfl, rfl, rfl, rfl⟩ rfl rfl rfl rfl rfl
    refine ⟨(hfin _).listsOk (hp.listsOk hl), stands_of_atBlock rfl (hhp'.trans hhp)
      ((hfin _).pos.atBlock (hp.pos.atBlock (hb.arriveAt v))) ?_⟩
    dsimp only [State.setReader]
    split
    · exact .inl rfl
    · rcases hst' with hst' | hst'
      · exact .inr (.inl (hst'.trans hst))
      · exact .inr (.inr hst')

/-! ## Groups -/

/-- A group without used and staged blocks is unlinked under its lock. -/
theorem ListsOk.unlinkGroup (h : ListsOk s) (hg : g ∈ s.groups) (hlock : s.CanLock g)
    (hgroups : s'.groups = s.groups.erase g) (hpool : s'.spares.Perm (g :: s.spares))
    (hindex : s'.groupIndex = s.groupIndex) (hgroup : s'.group = s.group)
    (hhead : s'.headLock = s.headLock) (hpcs : ∀ t, (s'.tls t).pc = (s.tls t).pc) : ListsOk s' := by
  have hnd := List.nodup_append.mp h.groups_nodup
  have hperm : (s'.groups ++ s'.spares).Perm (s.groups ++ s.spares) := by
    rw [hgroups]
    exact (hpool.append_left _).trans
      (List.perm_middle.trans ((List.perm_cons_erase hg).symm.append_right s.spares))
  have hkeep : ∀ t g', g' ∈ s.groups → t ∈ (s.group g').readers → g' ∈ s'.groups := by
    intro t g' hg' ht
    rw [hgroups, hnd.1.mem_erase_iff]
    refine ⟨?_, hg'⟩
    rintro rfl
    rw [hlock.1] at ht
    cases ht
  constructor
  · rw [hgroup]
    exact h.nodup
  · rw [hgroup]
    exact h.groupOf_eq
  · exact hperm.nodup_iff.mpr h.groups_nodup
  · intro g' hg'
    rw [hindex]
    exact h.groups_le g' (hperm.mem_iff.mp hg')
  · intro t
    have hr := h.role t
    rw [hpcs]
    cases hrole : (s.tls t).pc.role with
    | none => trivial
    | group g' =>
      rw [hrole] at hr
      exact ⟨hkeep t g' hr.1 hr.2, by rw [hgroup]; exact hr.2⟩
    | hand g' b =>
      rw [hrole] at hr
      refine ⟨hkeep t g' hr.1 hr.2.1, by rw [hgroup]; exact hr.2.1, ?_⟩
      rw [HandOk, hgroup]
      exact hr.2.2
    | head =>
      rw [hrole] at hr
      exact hhead.trans hr
    | headHand g' b =>
      rw [hrole] at hr
      refine ⟨hhead.trans hr.1, ?_, ?_⟩
      · have hne : g' ≠ g := by
          rintro rfl
          have := hlock.2 hr.2.1
          rw [hr.1] at this
          cases this
        obtain ⟨gs, hgs⟩ := List.head?_eq_some_iff.mp hr.2.1
        rw [hgroups, hgs, List.erase_cons_tail (by simpa using hne)]
        rfl
      · rw [HandOk, hgroup]
        exact hr.2.2
  · intro t t' b
    rw [hpcs, hpcs]
    exact h.hand_inj t t' b

/-- The reader enters the next group or goes back to the ring. -/
theorem Shape.enterGroup {next : Option ℕ} (hl : ListsOk s) (hhp : s.rt.hpHandle = none)
    (hcur : s.rt.curBlock = s.rt.lastBlock) (hnext : Ahead s next) : Shape (enterGroup s next) := by
  cases next with
  | some g =>
    obtain ⟨hg, hlast, hgroup⟩ := hnext g rfl
    refine ⟨hl.frame ⟨rfl, rfl, rfl, rfl, rfl, rfl⟩ fun _ => rfl, ?_⟩
    rw [stands_loop rfl]
    refine ⟨hhp, .inr ⟨g, ⟨rfl, hg, fun b hb => ?_, hgroup⟩, hcur, ?_⟩⟩
    · exact ⟨(hlast b hb).1, (hlast b hb).2.2⟩
    · change s.lastIn g = none
      cases hb : s.rt.lastBlock with
      | none => rw [State.lastIn, hb]; rfl
      | some b =>
        rw [State.lastIn, hb]
        simp [(hlast b hb).2.1]
  | none =>
    unfold LogBuffer.enterGroup
    dsimp only
    split
    · refine ⟨hl.frame ⟨rfl, rfl, rfl, rfl, rfl, rfl⟩ fun _ => rfl, ?_⟩
      rw [stands_loop rfl]
      exact ⟨hhp, ⟨rfl, rfl, rfl, rfl⟩⟩
    · split
      · split
        · refine ⟨hl.frame ⟨rfl, rfl, rfl, rfl, rfl, rfl⟩ fun _ => rfl, ?_⟩
          rw [stands_loop rfl]
          exact ⟨hhp, .inl ⟨rfl, rfl, rfl⟩⟩
        · refine ⟨hl.frame ⟨rfl, rfl, rfl, rfl, rfl, rfl⟩ fun _ => rfl, ?_⟩
          rw [stands_loop rfl]
          exact ⟨hhp, ⟨rfl, rfl, rfl, rfl⟩⟩
      · refine ⟨hl.frame ⟨rfl, rfl, rfl, rfl, rfl, rfl⟩ fun _ => rfl, ?_⟩
        rw [stands_loop rfl]
        exact ⟨hhp, ⟨rfl, rfl, rfl, rfl⟩⟩

/-- The last block passed stays when the group, which has no used blocks, is unlinked. -/
theorem BehindGroup.kept_erase (hb : BehindGroup s g) (hused : (s.group g).used = [])
    (hgroups : s'.groups = s.groups.erase g) (hgroup : s'.group = s.group) (h : s.rt.lastBlock = some b) :
    Kept s' b := by
  obtain ⟨hk, -⟩ := hb.walks.last b h
  have hne : groupOf b ≠ g := by
    intro he
    have hk1 := hk.1
    rw [he, hused] at hk1
    cases hk1
  rw [Kept, hgroups, hgroup]
  exact ⟨hk.1, (List.mem_erase_of_ne hne).mpr hk.2⟩

theorem BehindGroup.ahead (hl : ListsOk s) (hb : BehindGroup s g) {g' : ℕ}
    (hnext : nextOf s.groups g = some g') :
    g' ∈ s.groups ∧ g' ≠ g ∧ ∀ b, s.rt.lastBlock = some b →
      Kept s b ∧ groupOf b ≠ g' ∧ groupOf b ∉ afterOf s.groups g' := by
  have hnd := (List.nodup_append.mp hl.groups_nodup).1
  have hmem : g' ∈ afterOf s.groups g := List.mem_of_head? hnext
  refine ⟨mem_of_nextOf hnext, ?_, fun b hb' => ?_⟩
  · rintro rfl
    exact not_mem_afterOf_self hnd hmem
  · obtain ⟨hk, hafter⟩ := hb.walks.last b hb'
    refine ⟨hk, fun he => hafter (he ▸ hmem), fun hin => hafter ?_⟩
    exact afterOf_subset_of_nextOf hnd hnext _ hin

/-- The current group stays linked, and the reader goes on behind it. -/
theorem Shape.keepGroup {next : Option ℕ} (hl : ListsOk s) (hhp : s.rt.hpHandle = none)
    (hb : BehindGroup s g) (hnext : next = nextOf s.groups g) : Shape (keepGroup s g next) := by
  refine Shape.enterGroup (hl.frame ⟨rfl, rfl, rfl, rfl, rfl, rfl⟩ fun _ => rfl) hhp hb.curBlock
    fun g' hg' => ?_
  have hnext' : nextOf s.groups g = some g' := hnext.symm.trans hg'
  obtain ⟨hmem, -, hlast⟩ := hb.ahead hl hnext'
  refine ⟨hmem, hlast, fun l hlast' => ?_⟩
  obtain rfl := Option.some.inj hlast'
  exact hnext'

theorem Shape.leaveGroup (h : Shape s) {next : Option ℕ} (hpc : s.rt.pc = .leaveGroup next) :
    Shape (leaveGroup s next) := by
  have hst := h.stands
  rw [Stands, hpc] at hst
  obtain ⟨hstate, hhp, hst⟩ := hst
  unfold LogBuffer.leaveGroup
  rcases hst with ⟨hn, hnext⟩ | ⟨g, hb, hnext⟩
  · simp only [hn.curGroup]
    refine Shape.enterGroup (h.lists.frame ⟨rfl, rfl, rfl, rfl, rfl, rfl⟩ fun _ => rfl) hhp
      (hn.curBlock.trans hn.lastBlock.symm) fun g hg => ⟨hnext g hg, fun b hb => ?_, nofun⟩
    cases hn.lastBlock.symm.trans hb
  · simp only [hb.walks.curGroup]
    split
    · have hp : SamePlace s (gotoReader s (.lockGroup next none)) :=
        SamePlace.of_rt ⟨rfl, rfl, rfl, rfl, rfl, rfl⟩ rfl rfl rfl rfl rfl
      exact h.stay hp ⟨hstate, hhp, g, ⟨hp.pos.behindGroup hb, nofun⟩, hnext⟩
    · exact Shape.keepGroup h.lists hhp hb hnext

/-- The way leads to the current group: the pointer that is locked next leads to it, or to a group in front of
it, and then the reader started at the head. -/
theorem OnTheWay.target (hl : ListsOk s) {held : Option ℕ} (h : OnTheWay s g held) :
    ∃ x, lockTarget s held = some x ∧ (x = g ∨ s.rt.lastGroup = none ∧ g ∈ afterOf s.groups x) := by
  have hnd := (List.nodup_append.mp hl.groups_nodup).1
  unfold lockTarget
  cases held with
  | some x =>
    obtain ⟨hnone, hafter, -⟩ := h.held x rfl
    obtain ⟨y, hy, hcase⟩ := exists_next_of_mem hnd hafter
    exact ⟨y, hy, hcase.imp_right fun hg => ⟨hnone, hg⟩⟩
  | none =>
    cases hlast : s.rt.lastGroup with
    | some l => exact ⟨g, h.behind.walks.lastGroup l hlast, .inl rfl⟩
    | none =>
      obtain ⟨y, hy, hcase⟩ := exists_head_of_mem h.behind.walks.mem
      exact ⟨y, hy, hcase.imp_right fun hg => ⟨rfl, hg⟩⟩

theorem Shape.lockGroup (h : Shape s) {next held : Option ℕ} (hpc : s.rt.pc = .lockGroup next held)
    (hs : lockGroup s next held = some s') : Shape s' := by
  have hst := h.stands
  rw [Stands, hpc] at hst
  obtain ⟨hstate, hhp, g, hway, hnext⟩ := hst
  obtain ⟨x, hx, hcase⟩ := hway.target h.lists
  have hp : ∀ pc, SamePlace s (gotoReader s pc) :=
    fun _ => SamePlace.of_rt ⟨rfl, rfl, rfl, rfl, rfl, rfl⟩ rfl rfl rfl rfl rfl
  have hb : ∀ pc, BehindGroup (gotoReader s pc) g := fun pc => (hp pc).pos.behindGroup hway.behind
  simp only [LogBuffer.lockGroup, hx] at hs
  split at hs
  · rename_i hlock
    split at hs
    · rename_i hcur
      obtain rfl := Option.some.inj hs
      obtain rfl := Option.some.inj (hway.behind.walks.curGroup.symm.trans hcur)
      exact h.stay (hp _) ⟨hstate, hhp, g, hb _, hnext, hlock⟩
    · rename_i hcur
      split at hs
      · rename_i hnone
        obtain rfl := Option.some.inj hs
        have hne : x ≠ g := by
          rintro rfl
          exact hcur hway.behind.walks.curGroup
        refine h.stay (hp _) ⟨hstate, hhp, g, ⟨hb _, fun y hy => ?_⟩, hnext⟩
        obtain rfl := Option.some.inj hy
        exact ⟨hnone, (hcase.resolve_left hne).2, hlock⟩
      · cases hs
  · cases hs

theorem Shape.checkGroup (h : Shape s) {next : Option ℕ} (hpc : s.rt.pc = .checkGroup next)
    (hg : s.rt.curGroup = some g) : Shape (checkGroup s g next) := by
  have hst := h.stands
  rw [Stands, hpc] at hst
  obtain ⟨hstate, hhp, g', hb, hnext, hlock⟩ := hst
  obtain rfl : g' = g := Option.some.inj (hb.walks.curGroup.symm.trans hg)
  unfold LogBuffer.checkGroup
  split
  · rename_i hempty
    have hp : SamePlace s (gotoReader s (.unlinkGroup next)) :=
      SamePlace.of_rt ⟨rfl, rfl, rfl, rfl, rfl, rfl⟩ rfl rfl rfl rfl rfl
    exact h.stay hp ⟨hstate, hhp, g', hp.pos.behindGroup hb, hnext, hlock, hempty⟩
  · exact Shape.keepGroup h.lists hhp hb hnext

theorem Shape.unlinkGroup (h : Shape s) {next : Option ℕ}
    (hpc : s.rt.pc = .unlinkGroup next) (hg : s.rt.curGroup = some g)
    (hs : unlinkGroup s g next = some s') : Shape s' := by
  have hst := h.stands
  rw [Stands, hpc] at hst
  obtain ⟨hstate, hhp, g', hb, rfl, hlock, hused, -⟩ := hst
  obtain rfl : g' = g := Option.some.inj (hb.walks.curGroup.symm.trans hg)
  unfold LogBuffer.unlinkGroup at hs
  split at hs
  · obtain rfl := Option.some.inj hs
    have hnd := (List.nodup_append.mp h.lists.groups_nodup).1
    refine ⟨h.lists.unlinkGroup hb.walks.mem hlock rfl List.perm_middle rfl rfl rfl fun _ => rfl, hstate, hhp,
      g', hg, List.mem_cons_self, hb.curBlock, fun b hb' => ?_, fun x hx => ?_⟩
    · exact hb.kept_erase hused rfl rfl hb'
    · obtain ⟨hmem, hne, hlast⟩ := hb.ahead h.lists hx
      refine ⟨(List.mem_erase_of_ne hne).mpr hmem, fun b hb' => ?_, fun l hl => ?_⟩
      · obtain ⟨-, hne', hafter⟩ := hlast b hb'
        exact ⟨hb.kept_erase hused rfl rfl hb', hne', fun hin => hafter (afterOf_erase hne.symm hin)⟩
      · exact (nextOf_erase hnd (hb.walks.lastGroup l hl)).trans hx
  · cases hs

/-- The group that comes to the pool was among the spare ones before. -/
theorem perm_spares_of_removed (hg : g ∈ s.removed) :
    (g :: s.pool ++ s.removed.erase g).Perm s.spares :=
  List.perm_middle.symm.trans ((List.perm_cons_erase hg).symm.append_left s.pool)

theorem Shape.pushPool (h : Shape s) {next : Option ℕ} (hpc : s.rt.pc = .pushPool next)
    (hg : s.rt.curGroup = some g) (hs : pushPool s g next = some s') : Shape s' := by
  have hst := h.stands
  rw [Stands, hpc] at hst
  obtain ⟨-, hhp, g', hu⟩ := hst
  obtain rfl : g' = g := Option.some.inj (hu.curGroup.symm.trans hg)
  unfold LogBuffer.pushPool at hs
  split at hs
  · obtain rfl := Option.some.inj hs
    exact Shape.enterGroup (h.lists.permute rfl (perm_spares_of_removed hu.removed) rfl rfl (fun _ => rfl)
      (fun _ => .refl _) fun _ => rfl) hhp hu.curBlock hu.ahead
  · cases hs

/-! ## All steps -/

theorem Shape.readLoop (h : Shape s) (hpc : s.rt.pc = .loop) (hs : readLoop s = some s') : Shape s' := by
  have hin := h.inLoop hpc
  unfold LogBuffer.readLoop at hs
  split at hs <;> rename_i hst
  · obtain rfl := Option.some.inj hs
    exact h.readFromLpBuffer hpc hst
  · rw [Option.map_eq_some_iff] at hs
    obtain ⟨b, -, rfl⟩ := hs
    exact h.readHpBlock hpc hst
  · rw [Option.map_eq_some_iff] at hs
    obtain ⟨g, hg, rfl⟩ := hs
    exact h.findNextBlock hpc hst hg
  · obtain rfl := Option.some.inj hs
    rw [StandsInLoop, hst] at hin
    have hp : ∀ next, SamePlace s (gotoReader s (.leaveGroup next)) :=
      fun _ => SamePlace.of_rt ⟨rfl, rfl, rfl, rfl, rfl, rfl⟩ rfl rfl rfl rfl rfl
    refine h.stay (hp _) ⟨hst, hin.1, ?_⟩
    rcases hin.2 with hn | ⟨g, hb⟩
    · refine .inl ⟨(hp _).pos.noGroup hn, fun g hg => ?_⟩
      simp only [hn.curGroup] at hg
      exact List.mem_of_head? hg
    · exact .inr ⟨g, (hp _).pos.behindGroup hb, by simp only [hb.walks.curGroup]; rfl⟩
  · obtain rfl := Option.some.inj hs
    rw [StandsInLoop, hst] at hin
    have hp : SamePlace s (completeTraversal s) :=
      SamePlace.of_rt ⟨rfl, rfl, rfl, rfl, rfl, rfl⟩ rfl rfl rfl rfl rfl
    refine h.stay hp ?_
    rcases hin.2 with hn | ⟨g, b, passed, rest, hb⟩
    · refine .inl ⟨⟨?_, hn.curGroup, hn.curBlock, hn.lastBlock⟩, hin.1⟩
      simp [completeTraversal, State.setReader, hn.curBlock]
    · refine .inr ⟨?_, g, b, passed, rest, hp.pos.atBlock hb⟩
      simp [completeTraversal, State.setReader, hb.curBlock]

/-- The reader recycles oversize buffers. -/
theorem Shape.recycling (h : Shape s) (hin : s.rt.state = .nextGroupFinding ∧ NoGroup s ∧
      s.rt.hpHandle = none) (hp : SamePlace s s') (hst : s'.rt.state = s.rt.state)
    (hhp : s'.rt.hpHandle = s.rt.hpHandle)
    (hpc : s'.rt.pc = .loop ∨ s'.rt.pc = .recycleLock ∨ ∃ i, s'.rt.pc = .recycle i) : Shape s' := by
  have hin' : s'.rt.state = .nextGroupFinding ∧ NoGroup s' ∧ s'.rt.hpHandle = none :=
    ⟨hst.trans hin.1, hp.pos.noGroup hin.2.1, hhp.trans hin.2.2⟩
  refine h.stay hp ?_
  unfold Stands
  rcases hpc with hpc | hpc | ⟨i, hpc⟩ <;> rw [hpc]
  · change StandsInLoop s'
    rw [StandsInLoop, hin'.1]
    exact ⟨hin'.2.2, .inl hin'.2.1⟩
  · exact hin'
  · exact hin'

theorem Shape.recycleOversizeBuffer (h : Shape s) {i : ℕ} (hin : s.rt.state = .nextGroupFinding ∧
      NoGroup s ∧ s.rt.hpHandle = none) : Shape (recycleOversizeBuffer s i) := by
  unfold LogBuffer.recycleOversizeBuffer
  split
  · exact h.recycling hin (SamePlace.of_rt ⟨rfl, rfl, rfl, rfl, rfl, rfl⟩ rfl rfl rfl rfl rfl) rfl rfl
      (.inr (.inr ⟨_, rfl⟩))
  · split
    · exact h.recycling hin (SamePlace.of_rt ⟨rfl, rfl, rfl, rfl, rfl, rfl⟩ rfl rfl rfl rfl rfl) rfl rfl
        (.inr (.inr ⟨_, rfl⟩))
    · split
      · exact h.crash
      · exact h.recycling hin (SamePlace.of_rt ⟨rfl, rfl, rfl, rfl, rfl, rfl⟩ rfl rfl rfl rfl rfl) rfl rfl
          (.inr (.inr ⟨_, rfl⟩))
      · exact h.recycling hin (SamePlace.of_rt ⟨rfl, rfl, rfl, rfl, rfl, rfl⟩ rfl rfl rfl rfl rfl) rfl rfl
          (.inr (.inr ⟨_, rfl⟩))

theorem Shape.readerStep (h : Shape s) (hs : readerStep s due = some s') : Shape s' := by
  have hst := h.stands
  unfold Stands at hst
  unfold LogBuffer.readerStep at hs
  split at hs <;> rename_i hpc
  · exact h.readLoop hpc hs
  · rw [hpc] at hst
    split at hs
    · obtain rfl := Option.some.inj hs
      exact h.ring hst (SamePlace.of_rt ⟨rfl, rfl, rfl, rfl, rfl, rfl⟩ rfl rfl rfl rfl rfl) rfl rfl rfl
    · cases hs
  · obtain rfl := Option.some.inj hs
    exact h.readOversizeChunk hpc
  · rw [hpc] at hst
    obtain rfl := Option.some.inj hs
    refine h.recycling hst (SamePlace.of_rt ⟨rfl, rfl, rfl, rfl, rfl, rfl⟩ rfl rfl rfl rfl rfl) rfl rfl ?_
    simp only [gotoReader, State.setReader]
    split
    · exact .inr (.inl rfl)
    · exact .inl rfl
  · rw [hpc] at hst
    split at hs <;> obtain rfl := Option.some.inj hs
    · exact h.recycling hst (SamePlace.of_rt ⟨rfl, rfl, rfl, rfl, rfl, rfl⟩ rfl rfl rfl rfl rfl) rfl rfl
        (.inr (.inr ⟨_, rfl⟩))
    · exact h.recycling hst (SamePlace.of_rt ⟨rfl, rfl, rfl, rfl, rfl, rfl⟩ rfl rfl rfl rfl rfl) rfl rfl
        (.inl rfl)
  · rw [hpc] at hst
    obtain rfl := Option.some.inj hs
    exact h.recycling hst (SamePlace.of_rt ⟨rfl, rfl, rfl, rfl, rfl, rfl⟩ rfl rfl rfl rfl rfl) rfl rfl
      (.inl rfl)
  · rw [hpc] at hst
    obtain rfl := Option.some.inj hs
    exact h.recycleOversizeBuffer hst
  · rw [Option.map_eq_some_iff] at hs
    obtain ⟨g, hg, rfl⟩ := hs
    exact h.leaveBlock hpc hg
  · obtain rfl := Option.some.inj hs
    exact h.enterBlock hpc
  · obtain rfl := Option.some.inj hs
    exact h.leaveGroup hpc
  · exact h.lockGroup hpc hs
  · rw [Option.map_eq_some_iff] at hs
    obtain ⟨g, hg, rfl⟩ := hs
    exact h.checkGroup hpc hg
  · rw [Option.bind_eq_some_iff] at hs
    obtain ⟨g, hg, hs⟩ := hs
    exact h.unlinkGroup hpc hg hs
  · rw [Option.bind_eq_some_iff] at hs
    obtain ⟨g, hg, hs⟩ := hs
    exact h.pushPool hpc hg hs
  · rw [hpc] at hst
    obtain rfl := Option.some.inj hs
    exact h.ring hst (SamePlace.of_rt ⟨rfl, rfl, rfl, rfl, rfl, rfl⟩ rfl rfl rfl rfl rfl) rfl rfl rfl
  · cases hs

/-- The reader enters the loop from where it rested. -/
theorem Rests.inLoop (h : Rests s) (hp : PosFrame s s') (hst : s'.rt.state = s.rt.state)
    (hhp : s'.rt.hpHandle = none) : StandsInLoop s' := by
  refine ⟨hhp, ?_⟩
  rcases h with ⟨hr, -⟩ | ⟨hstate, hat⟩
  · rw [hst.trans hr.state]
    exact hp.atRing hr (hst.trans hr.state)
  · rw [hst.trans hstate]
    exact hp.atSomeBlock hat

theorem Shape.readChunk (h : Shape s) (hs : readChunk s = some s') : Shape s' := by
  have hst := h.stands
  unfold LogBuffer.readChunk at hs
  split at hs
  · rename_i hpc
    rw [Stands, hpc] at hst
    split at hs
    · rename_i n b hhp hb
      split at hs
      · cases hs
      · rename_i payload rest hrec
        obtain rfl := Option.some.inj hs
        rcases hst with ⟨-, hnone⟩ | ⟨hstate, hat⟩
        · rw [hnone] at hhp
          cases hhp
        · have hp : SamePlace s (handOut ((s.setBlock b
              { s.block b with records := rest }).setReader { s.rt with hpHandle := some n })
              (.hp (s.block b).context) payload.length payload) :=
            SamePlace.of_rt ⟨rfl, rfl, rfl, rfl, rfl, rfl⟩ rfl rfl rfl rfl rfl
          exact h.stay hp ⟨hstate, hp.pos.atSomeBlock hat⟩
    · obtain rfl := Option.some.inj hs
      have hp : SamePlace s (gotoReader (s.setReader
          { s.rt with hpHandle := none }.refreshTraverseEndMark) .loop) :=
        SamePlace.of_rt ⟨rfl, rfl, rfl, rfl, rfl, rfl⟩ rfl (refresh_curGroup { s.rt with hpHandle := none })
          (refresh_curBlock { s.rt with hpHandle := none })
          (refresh_lastBlock { s.rt with hpHandle := none })
          (refresh_lastGroup { s.rt with hpHandle := none })
      exact h.stay hp ((stands_loop rfl).mpr (Rests.inLoop hst hp.pos
        (refresh_state { s.rt with hpHandle := none })
        (refresh_hpHandle { s.rt with hpHandle := none })))
  · cases hs

theorem Shape.returnReadChunk (h : Shape s) (hs : returnReadChunk s = some s') : Shape s' := by
  have hst := h.stands
  unfold LogBuffer.returnReadChunk at hs
  split at hs
  · rename_i hpc
    obtain rfl := Option.some.inj hs
    have hp : SamePlace s (gotoReader s .idle) :=
      SamePlace.of_rt ⟨rfl, rfl, rfl, rfl, rfl, rfl⟩ rfl rfl rfl rfl rfl
    rw [Stands, hpc] at hst
    exact h.stay hp (Rests.frame hst hp.pos rfl rfl)
  · rename_i chunk hpc
    have hring : ∀ {u : State}, AtRing s ∧ s.rt.hpHandle = none → SamePlace (deregisterSeq s chunk.context) u →
        u.rt.state = (deregisterSeq s chunk.context).rt.state →
        u.rt.hpHandle = (deregisterSeq s chunk.context).rt.hpHandle → u.rt.pc.atRing → Shape u :=
      fun hr hp hs1 hs2 hpc' => h.ring hr ((deregisterSeq_place s chunk.context).trans hp)
        (hs1.trans (deregisterSeq_state _ _)) (hs2.trans (deregisterSeq_hpHandle _ _)) hpc'
    rw [Stands, hpc] at hst
    split at hs
    · obtain rfl := Option.some.inj hs
      have hp : SamePlace s (gotoReader s .idle) :=
        SamePlace.of_rt ⟨rfl, rfl, rfl, rfl, rfl, rfl⟩ rfl rfl rfl rfl rfl
      refine h.stay hp ?_
      cases chunk with
      | hp => exact .inr ⟨hst.1, hp.pos.atSomeBlock hst.2⟩
      | lp | oversize => exact .inl ⟨hp.pos.atRing hst.1 hst.1.state, hst.2⟩
    · rename_i hn
      cases chunk with
      | hp =>
        obtain ⟨-, g, b, passed, rest, hb⟩ := hst
        exact absurd (.inr (by rw [hb.curBlock]; rfl)) hn
      | lp =>
        obtain rfl := Option.some.inj hs
        exact hring hst (SamePlace.of_rt ⟨rfl, rfl, rfl, rfl, rfl, rfl⟩ rfl rfl rfl rfl rfl) rfl rfl rfl
      | oversize =>
        obtain rfl := Option.some.inj hs
        exact hring hst (SamePlace.of_rt ⟨rfl, rfl, rfl, rfl, rfl, rfl⟩ rfl rfl rfl rfl rfl) rfl rfl rfl
  · cases hs

/-! ## Lives -/

/-- The writers keep the lists sound and leave the reader alone. -/
theorem writer_frame {a : Act} (h : ListsOk s) (ha : a.writer = some t) (hs : step cfg s a = some s') :
    ListsOk s' ∧ WriterFrame s s' t ∧ HeldFrame s s' := by
  rcases writer_cases ha hs with ⟨hrole, hq⟩ | hn
  · refine ⟨h.frame hq.lists fun t' => ?_, hq.frame, hq.lists.heldFrame⟩
    rcases eq_or_ne t' t with rfl | ht
    · rw [hq.role, hrole]
    · rw [hq.tls t' ht]
  · exact ⟨h.newBlockStep hn, newBlockStep_frame h hn, newBlockStep_held h hn⟩

theorem Shape.step {a : Act} (h : Shape s) (hs : step cfg s a = some s') : Shape s' := by
  cases ha : a.writer with
  | some t =>
    obtain ⟨hl, hf, hh⟩ := writer_frame h.lists ha hs
    exact ⟨hl, h.stands.writer hf hh⟩
  | none =>
    cases a with
    | readChunk => exact h.readChunk hs
    | read due => exact h.readerStep hs
    | returnReadChunk => exact h.returnReadChunk hs
    | alloc | write | commit | exit => cases ha

theorem stands_fresh {version reading : Version} {records : List RecoveryMap} {v : VerifyResult}
    (h : s.rt = Reader.fresh version reading records v) : Stands s := by
  rw [Stands, h]
  exact .inl ⟨⟨by rw [h]; rfl, by rw [h]; rfl, by rw [h]; rfl, by rw [h]; rfl⟩, by rw [h]; rfl⟩

theorem Shape.of_created (h : s.Created cfg) : Shape s := by
  refine ⟨ListsOk.of_created h, ?_⟩
  obtain ⟨v, rfl⟩ := h
  split
  · exact stands_fresh rfl
  · exact stands_fresh rfl

theorem Shape.reopen {rejected : Bool} (h : Shape s) (hs : Reopens s s' rejected) : Shape s' := by
  refine ⟨h.lists.reopen hs, ?_⟩
  obtain ⟨groups, oversize, v, -, -, rfl⟩ := hs
  exact stands_fresh rfl

end QLog.LogBuffer
