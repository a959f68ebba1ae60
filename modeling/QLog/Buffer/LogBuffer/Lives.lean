import QLog.Buffer.LogBuffer.ReaderEffects

/-!
# The blocks over the lives of a log buffer

`Shape` says that no block is in two places. Here it is completed by what says that no block gets lost: a
block of a linked or spare group is on a list of its group or in the hands of a writer, and the groups in
the pool, or on the way to it, have all their blocks free. `BlocksSafe` collects what the callers of the lists
rely on, and `blocks_safe` proves it for every state of every life, over crashes and openings.
-/

namespace QLog.LogBuffer

variable {cfg : Config} {s s' u : State} {t g b : ℕ}

/-- A block is on a list of its group or in the hands of a writer. -/
def Settled (s : State) (b : ℕ) : Prop :=
  b ∈ (s.group (groupOf b)).blocks ∨ ∃ t, (s.tls t).pc.role.block = some b

/-- No block of a linked or spare group is lost. -/
def Full (s : State) : Prop := ∀ b, groupOf b ∈ s.groups ++ s.spares → Settled s b

/-- The invariant of the block lists: `Shape`, and nothing is lost. -/
structure Whole (s : State) : Prop where
  shape : Shape s
  pool : PoolOk s
  full : Full s

theorem Full.mono (h : Full s) (hg : ∀ g ∈ s'.groups ++ s'.spares, g ∈ s.groups ++ s.spares)
    (hs : ∀ b, Settled s b → Settled s' b) : Full s' :=
  fun b hb => hs b (h b (hg _ hb))

theorem Settled.congr (hblocks : ∀ g, (s'.group g).blocks = (s.group g).blocks)
    (hrole : ∀ t, (s'.tls t).pc.role.block = (s.tls t).pc.role.block) (h : Settled s b) :
    Settled s' b := by
  refine h.imp (fun hb => ?_) fun ⟨t, ht⟩ => ⟨t, ?_⟩
  · rwa [hblocks]
  · rwa [hrole]

/-- The lists and the hands of the writers are the same. -/
theorem Whole.frame_full (h : Full s) (hs : SameLists s s')
    (hrole : ∀ t, (s'.tls t).pc.role.block = (s.tls t).pc.role.block) : Full s' := by
  refine h.mono ?_ fun b hb => hb.congr (fun g => by rw [hs.group]) hrole
  rw [hs.groups, hs.spares]
  exact fun _ hg => hg

/-! ## Steps of the writers -/

/-- What becomes of the spare groups: they are linked, or nothing happens to them. -/
def PoolFrame (s s' : State) : Prop := ∀ g ∈ s'.spares, g ∈ s.spares ∧ s'.group g = s.group g

theorem PoolFrame.poolOk (h : PoolFrame s s') (hp : PoolOk s) : PoolOk s' := fun g hg => by
  rw [(h g hg).2]
  exact hp g (h g hg).1

theorem SameLists.poolFrame (h : SameLists s s') : PoolFrame s s' := fun g hg => by
  rw [h.spares] at hg
  exact ⟨hg, by rw [h.group]⟩

theorem ListsOk.not_spare (h : ListsOk s) (hg : g ∈ s.groups) : g ∉ s.spares := fun hp =>
  (List.nodup_append.mp h.groups_nodup).2.2 g hg g hp rfl

/-- A group that is not spare changes. -/
theorem PoolFrame.setGroup (grp : Group) (hg : g ∉ s.spares) : PoolFrame s (s.setGroup g grp) := by
  refine fun g' hg' => ⟨hg', Function.update_of_ne ?_ _ _⟩
  rintro rfl
  exact hg hg'

theorem PoolFrame.trans (h : PoolFrame s u) (h' : PoolFrame u s') : PoolFrame s s' := fun g hg =>
  ⟨(h g (h' g hg).1).1, (h' g hg).2.trans (h g (h' g hg).1).2⟩

theorem poolFrame_linkGroup (h : ListsOk s) : PoolFrame s (linkGroup s) := by
  intro g hg
  cases hpool : s.pool with
  | nil =>
    have hmem : g ∈ s.spares := by simpa [linkGroup, hpool, State.spares] using hg
    have hle := h.groups_le g (List.mem_append_right _ hmem)
    refine ⟨hmem, ?_⟩
    simp only [linkGroup, hpool, State.spareGroup, List.headD_nil]
    exact Function.update_of_ne (by omega) _ _
  | cons g' pool =>
    have hmem : g ∈ pool ++ s.removed := by simpa [linkGroup, hpool, State.spares] using hg
    rw [State.spares, hpool]
    refine ⟨List.mem_cons_of_mem _ hmem, ?_⟩
    simp only [linkGroup, hpool]

theorem mem_groups_linkGroup (s : State) : s.spareGroup ∈ (linkGroup s).groups :=
  List.mem_of_head? (State.linkGroup_head s)

theorem newBlockStep_pool (h : ListsOk s) (hs : newBlockStep cfg s t = some s') : PoolFrame s s' := by
  have hr := h.role t
  have hgoto : ∀ (u : State) (pc : WriterPc), PoolFrame u (u.goto t pc) := fun _ _ _ hg => ⟨hg, rfl⟩
  have htake : ∀ (u : State) call seq g b rest head, g ∉ u.spares →
      PoolFrame u (takeBlock u t call seq g b rest head) := fun u call seq g b rest head hg =>
    (PoolFrame.setGroup _ hg).trans fun _ hg' => ⟨hg', rfl⟩
  unfold newBlockStep at hs
  split at hs <;> rename_i hpc <;> try rw [hpc] at hr
  · split at hs
    · cases hs
    · obtain rfl := Option.some.inj hs
      exact hgoto _ _
    · rename_i hg
      split at hs
      · cases hs
      · obtain rfl := Option.some.inj hs
        exact (PoolFrame.setGroup _ (h.not_spare (by rw [hg]; exact List.mem_cons_self))).trans (hgoto _ _)
  · split at hs
    · obtain rfl := Option.some.inj hs
      exact (PoolFrame.setGroup _ (h.not_spare hr.1)).trans (hgoto _ _)
    · rename_i hnext
      split at hs
      · cases hs
      · obtain rfl := Option.some.inj hs
        exact ((PoolFrame.setGroup _ (h.not_spare (mem_of_nextOf hnext))).trans
          (PoolFrame.setGroup _ (h.not_spare hr.1))).trans (hgoto _ _)
  · split at hs <;> obtain rfl := Option.some.inj hs
    · exact hgoto _ _
    · exact htake _ _ _ _ _ _ _ (h.not_spare hr.1)
  · split at hs
    · obtain rfl := Option.some.inj hs
      exact fun g hg => ⟨hg, rfl⟩
    · cases hs
  · split at hs
    · split at hs
      · obtain rfl := Option.some.inj hs
        exact fun g hg => ⟨hg, rfl⟩
      · cases hs
    · rename_i hhead
      split at hs
      · split at hs
        · obtain rfl := Option.some.inj hs
          exact fun g hg => ⟨hg, rfl⟩
        · cases hs
      · obtain rfl := Option.some.inj hs
        exact htake _ _ _ _ _ _ _ (h.not_spare (List.mem_of_head? hhead))
  · split at hs
    · cases hs
    · obtain rfl := Option.some.inj hs
      have hrole : (s.tls t).pc.role = .head := by rw [hpc]; rfl
      exact (poolFrame_linkGroup h).trans (htake _ _ _ _ _ _ _
        ((h.linkGroup hr hrole).not_spare (mem_groups_linkGroup s)))
  · rename_i call g b head
    obtain rfl := Option.some.inj hs
    have hg : g ∉ s.spares := h.not_spare (by
      cases head with
      | false => exact hr.1
      | true => exact List.mem_of_head? hr.2.1)
    cases head <;> exact (PoolFrame.setGroup _ hg).trans fun g' hg' => ⟨hg', rfl⟩
  · cases hs

/-! ## No block is lost -/

theorem Settled.hand (h : (s.tls t).pc.role.block = some b) : Settled s b := .inr ⟨t, h⟩

/-- A block that was settled is settled after a step of writer `t` if its own hand and the lists say so. -/
theorem Settled.writer (hs : ∀ t', t' ≠ t → s'.tls t' = s.tls t')
    (hlist : b ∈ (s.group (groupOf b)).blocks → Settled s' b)
    (hhand : (s.tls t).pc.role.block = some b → Settled s' b) (h : Settled s b) : Settled s' b := by
  rcases h with h | ⟨t', h⟩
  · exact hlist h
  · rcases eq_or_ne t' t with rfl | ht
    · exact hhand h
    · exact .hand (by rw [hs t' ht]; exact h)

theorem settled_takeBlock {call : Call} {seq : ℕ} {rest : List ℕ} {head : Bool} {x : ℕ}
    (hfree : (s.group g).free = b :: rest) (hrole : (s.tls t).pc.role.block = none) (h : Settled s x) :
    Settled (takeBlock s t call seq g b rest head) x := by
  have hself : ((takeBlock s t call seq g b rest head).tls t).pc = .pushStage call g b head := by
    simp [takeBlock, State.goto, State.setTls]
  refine h.writer (t := t) (fun t' ht => ?_) (fun hx => ?_) fun hx => ?_
  · simp [takeBlock, State.goto, State.setTls, initBlock, State.setBlock, State.setGroup, ht]
  · rcases eq_or_ne x b with rfl | hne
    · refine .hand (t := t) ?_
      rw [hself]
      cases head <;> rfl
    · refine .inl ?_
      change x ∈ ((Function.update s.group g { s.group g with free := rest }) (groupOf x)).blocks
      rcases eq_or_ne (groupOf x) g with he | hg
      · rw [he, Group.blocks, hfree] at hx
        rw [he, Function.update_self, Group.blocks]
        simpa [hne] using hx
      · rwa [Function.update_of_ne hg]
  · rw [hrole] at hx
    cases hx

theorem settled_stageBlock {call : Call} {head : Bool} {x : ℕ} (hb : groupOf b = g)
    (hpc : (s.tls t).pc = .pushStage call g b head) (h : Settled s x) :
    Settled (stageBlock cfg s t call g b head) x := by
  have hgroup : ∃ readers, (stageBlock cfg s t call g b head).group = Function.update s.group g
      { s.group g with stage := b :: (s.group g).stage, readers := readers } := by
    cases head <;> exact ⟨_, rfl⟩
  obtain ⟨readers, hgroup⟩ := hgroup
  refine h.writer (t := t) (fun t' ht => ?_) (fun hx => .inl ?_) fun hx => .inl ?_
  · cases head <;> exact Function.update_of_ne ht _ _
  · rw [hgroup]
    rcases eq_or_ne (groupOf x) g with he | hg
    · rw [he, Group.blocks] at hx
      rw [he, Function.update_self, Group.blocks]
      simp only [List.mem_append, List.mem_cons] at hx ⊢
      tauto
    · rwa [Function.update_of_ne hg]
  · obtain rfl : b = x := by
      rw [hpc] at hx
      cases head <;> simpa [WriterPc.role, Role.block] using hx
    rw [hgroup, hb, Function.update_self, Group.blocks]
    simp

theorem Full.linkGroup (h : Full s) : Full (linkGroup s) := by
  have hhand : ∀ t, ((LogBuffer.linkGroup s).tls t) = s.tls t := by
    intro t
    unfold LogBuffer.linkGroup
    split <;> rfl
  cases hpool : s.pool with
  | nil =>
    intro b hb
    have hgroup : (LogBuffer.linkGroup s).group =
        Function.update s.group (s.groupIndex + 1) (Group.fresh (s.groupIndex + 1)) := by
      simp [LogBuffer.linkGroup, hpool, State.spareGroup]
    have hgroups : (LogBuffer.linkGroup s).groups ++ (LogBuffer.linkGroup s).spares =
        (s.groupIndex + 1) :: (s.groups ++ s.spares) := by
      simp [LogBuffer.linkGroup, hpool, State.spareGroup, State.spares]
    rw [hgroups, List.mem_cons] at hb
    rcases eq_or_ne (groupOf b) (s.groupIndex + 1) with he | hne
    · refine .inl ?_
      rw [hgroup, he, Function.update_self, Group.blocks]
      simpa [Group.fresh] using mem_groupBlocks.mpr he
    · rcases h b (hb.resolve_left hne) with hx | ⟨t, ht⟩
      · refine .inl ?_
        rwa [hgroup, Function.update_of_ne hne]
      · refine .inr ⟨t, ?_⟩
        rw [hhand]
        exact ht
  | cons g pool =>
    refine h.mono (fun g' hg' => ?_) fun b hb => hb.congr (fun g' => ?_) fun t => by rw [hhand]
    · simp only [LogBuffer.linkGroup, hpool, State.spareGroup, State.spares, List.headD_cons,
        List.cons_append, List.mem_cons, List.mem_append] at hg' ⊢
      tauto
    · simp [LogBuffer.linkGroup, hpool]

/-- A step that only takes and releases locks. -/
theorem Full.of_locks {pc : WriterPc} (h : Full s) (hgroups : s'.groups = s.groups)
    (hpool : s'.spares = s.spares) (hblocks : ∀ g, (s'.group g).blocks = (s.group g).blocks)
    (htls : s'.tls = (s.goto t pc).tls) (hrole : pc.role.block = (s.tls t).pc.role.block) :
    Full s' := by
  refine h.mono ?_ fun b hb => hb.congr hblocks fun t' => ?_
  · rw [hgroups, hpool]
    exact fun _ hg => hg
  · rw [htls]
    rcases eq_or_ne t' t with rfl | ht
    · rw [State.goto_tls_self]
      exact hrole
    · rw [State.goto_tls_of_ne _ _ ht]

theorem Full.newBlockStep (hl : ListsOk s) (h : Full s) (hs : newBlockStep cfg s t = some s') :
    Full s' := by
  have hr := hl.role t
  unfold LogBuffer.newBlockStep at hs
  split at hs <;> rename_i hpc <;> try rw [hpc] at hr
  · split at hs
    · cases hs
    · obtain rfl := Option.some.inj hs
      exact h.of_locks rfl rfl (fun _ => rfl) rfl (by rw [hpc]; rfl)
    · rename_i g _ _ _
      split at hs
      · cases hs
      · obtain rfl := Option.some.inj hs
        exact h.of_locks rfl rfl (fun g' => blocks_setReaders s g (t :: ·) g') rfl (by rw [hpc]; rfl)
  · rename_i g
    split at hs
    · obtain rfl := Option.some.inj hs
      exact h.of_locks rfl rfl (fun g' => blocks_setReaders s g (·.erase t) g') rfl (by rw [hpc]; rfl)
    · rename_i g' _
      split at hs
      · cases hs
      · obtain rfl := Option.some.inj hs
        exact h.of_locks rfl rfl (fun x => (blocks_setReaders _ g (·.erase t) x).trans
          (blocks_setReaders s g' (t :: ·) x)) rfl (by rw [hpc]; rfl)
  · split at hs <;> obtain rfl := Option.some.inj hs
    · exact h.of_locks rfl rfl (fun _ => rfl) rfl (by rw [hpc]; rfl)
    · rename_i hfree
      exact h.mono (fun _ hg => hg) fun b hb => settled_takeBlock hfree (by rw [hpc]; rfl) hb
  · split at hs
    · obtain rfl := Option.some.inj hs
      exact h.of_locks rfl rfl (fun _ => rfl) rfl (by rw [hpc]; rfl)
    · cases hs
  · rename_i call seq
    have hpool : ∀ {s'}, (if s.poolLock = none then
        some ({ s with poolLock := some t }.goto t (.newGroup call seq)) else none) = some s' →
        Full s' := by
      intro s' hs
      split at hs
      · obtain rfl := Option.some.inj hs
        exact h.of_locks rfl rfl (fun _ => rfl) rfl (by rw [hpc]; rfl)
      · cases hs
    split at hs
    · exact hpool hs
    · split at hs
      · exact hpool hs
      · rename_i hfree
        obtain rfl := Option.some.inj hs
        exact h.mono (fun _ hg => hg) fun b hb => settled_takeBlock hfree (by rw [hpc]; rfl) hb
  · split at hs
    · cases hs
    · rename_i hfree
      obtain rfl := Option.some.inj hs
      refine h.linkGroup.mono (fun _ hg => hg) fun b hb => settled_takeBlock hfree ?_ hb
      have htls : (LogBuffer.linkGroup s).tls = s.tls := (linkGroup_frame hl).2.2.2.tls
      rw [htls, hpc]
      rfl
  · rename_i call g b head
    obtain rfl := Option.some.inj hs
    have hb : groupOf b = g := by
      cases head with
      | false => exact hr.2.2.1
      | true => exact hr.2.2.1
    refine h.mono ?_ fun x hx => settled_stageBlock hb hpc hx
    cases head <;> exact fun _ hg => hg
  · cases hs

theorem Whole.writer {a : Act} (h : Whole s) (ha : a.writer = some t) (hs : step cfg s a = some s') :
    Whole s' := by
  refine ⟨h.shape.step hs, ?_, ?_⟩ <;> rcases writer_cases ha hs with ⟨hrole, hq⟩ | hn
  · exact hq.lists.poolFrame.poolOk h.pool
  · exact (newBlockStep_pool h.shape.lists hn).poolOk h.pool
  · refine Whole.frame_full h.full hq.lists fun t' => ?_
    rcases eq_or_ne t' t with rfl | ht
    · rw [hq.role, hrole]
    · rw [hq.tls t' ht]
  · exact h.full.newBlockStep h.shape.lists hn

/-! ## Steps of the reader -/

theorem Whole.reads {e : ReaderEffect} (hl : ListsOk s) (hp : PoolOk s) (hf : Full s) (h : Reads s s' e) :
    PoolOk s' ∧ Full s' := by
  obtain ⟨hst, hleads⟩ := h
  -- the effect first, then the rest of the step
  suffices he : PoolOk (e.apply s) ∧ Full (e.apply s) from
    ⟨hst.lists.poolFrame.poolOk he.1, Whole.frame_full he.2 hst.lists fun t => by rw [hst.pcs]⟩
  cases e with
  | group g grp =>
    obtain ⟨-, -, -, -, hg, -, hblocks⟩ := hleads
    refine ⟨(PoolFrame.setGroup grp (hl.not_spare hg)).poolOk hp, hf.mono (fun _ hx => hx) fun b hb => ?_⟩
    refine hb.imp (fun hb => ?_) id
    change b ∈ ((Function.update s.group g grp) (groupOf b)).blocks
    rcases eq_or_ne (groupOf b) g with he | hne
    · rw [he] at hb ⊢
      rw [Function.update_self]
      exact hblocks b hb
    · rwa [Function.update_of_ne hne]
  | unlinkGroup g =>
    obtain ⟨-, -, -, -, -, -, hg, hempty⟩ := hleads
    have hmem : ∀ {g'}, g' ∈ s.pool ++ g :: s.removed → g' = g ∨ g' ∈ s.spares := fun hg' => by
      rw [State.spares]
      simp only [List.mem_append, List.mem_cons] at hg' ⊢
      tauto
    refine ⟨fun g' hg' => ?_, hf.mono (fun g' hg' => ?_) fun _ hb => hb⟩
    · rcases hmem hg' with rfl | hg'
      · exact hempty
      · exact hp g' hg'
    · rcases List.mem_append.mp hg' with hg' | hg'
      · exact List.mem_append_left _ (List.mem_of_mem_erase hg')
      · rcases hmem hg' with rfl | hg'
        · exact List.mem_append_left _ hg
        · exact List.mem_append_right _ hg'
  | pushPool g =>
    have hperm := perm_spares_of_removed hleads.2.2.2.2.1
    exact ⟨fun g' hg' => hp g' (hperm.mem_iff.mp hg'),
      hf.mono (fun g' hg' => (hperm.append_left s.groups).mem_iff.mp hg') fun _ hb => hb⟩
  | move | pop | handLp | handHp | handOversize | returnOversize | lockArray | missOversize | lockRecycle
  | unlockRecycle | oversize => exact ⟨hp, hf⟩

theorem Whole.step {a : Act} (h : Whole s) (hs : step cfg s a = some s') : Whole s' := by
  cases ha : a.writer with
  | some t => exact h.writer ha hs
  | none =>
    obtain ⟨e, he⟩ := reader_effect h.shape ha hs
    obtain ⟨hp, hf⟩ := Whole.reads h.shape.lists h.pool h.full he
    exact ⟨h.shape.step hs, hp, hf⟩

/-! ## Openings -/

theorem full_opened (img : Image) (v : VerifyResult) : Full (State.opened img v) := by
  intro b hb
  have hg : groupOf b ∈ img.groups := by simpa [State.opened, State.created, State.spares] using hb
  refine .inl ?_
  simp only [State.opened, hg, if_true, loadGroup, Group.blocks, List.mem_append, List.mem_filter,
    mem_groupBlocks, decide_eq_true_eq]
  tauto

theorem Whole.of_created (h : s.Created cfg) : Whole s := by
  refine ⟨Shape.of_created h, ?_, ?_⟩ <;> obtain ⟨v, rfl⟩ := h <;> split
  · exact fun g hg => absurd hg List.not_mem_nil
  · exact fun g hg => absurd hg List.not_mem_nil
  · exact full_opened _ v
  · exact fun b hb => absurd hb List.not_mem_nil

theorem Whole.reopen {rejected : Bool} (h : Whole s) (hs : Reopens s s' rejected) : Whole s' := by
  refine ⟨h.shape.reopen hs, ?_, ?_⟩ <;> obtain ⟨groups, oversize, v, -, -, rfl⟩ := hs
  · exact fun g hg => absurd hg List.not_mem_nil
  · exact full_opened _ v

theorem Lives.whole {ok : State → Act → Prop} {reopenOk : State → State → Prop}
    (h : Lives cfg ok reopenOk s) : Whole s := by
  induction h with
  | create h => exact Whole.of_created h
  | step _ _ hs ih => exact ih.step hs
  | reopen _ _ hs _ ih => exact ih.reopen hs

/-! ## What the lists promise -/

/-- The reader is not between two blocks. -/
def ReaderPc.atPlace : ReaderPc → Bool
  | enterBlock _ | crashed => false
  | _ => true

/-- What the writers and the reader rely on when they follow the lists. -/
structure BlocksSafe (s : State) : Prop where
  /-- A block is on one list, once, and the list belongs to its group. -/
  nodup : ∀ g, (s.group g).blocks.Nodup
  groupOf_eq : ∀ g, ∀ b ∈ (s.group g).blocks, groupOf b = g
  /-- A block in the hands of a writer is on no list and in no other hands. -/
  hand : ∀ t b, (s.tls t).pc.role.block = some b → groupOf b ∈ s.groups ∧
    b ∉ (s.group (groupOf b)).blocks ∧ ∀ t', (s.tls t').pc.role.block = some b → t' = t
  /-- No block is lost. -/
  settled : ∀ b, groupOf b ∈ s.groups → Settled s b
  /-- A group in the pool, or on the way to it, is in nobody's way. -/
  pooled : ∀ b, groupOf b ∈ s.spares → groupOf b ∉ s.groups ∧ b ∈ (s.group (groupOf b)).free
  /-- What the reader remembers is still there, unless it brings its group to the pool. -/
  curGroup : ∀ g, s.rt.pc.atPlace → s.rt.curGroup = some g → g ∈ s.groups ∨ g ∈ s.removed
  curBlock : ∀ b, s.rt.pc.atPlace → s.rt.curBlock = some b → Kept s b
  lastBlock : ∀ b, s.rt.pc.atPlace → s.rt.lastBlock = some b → Kept s b

/-- What the reader remembers lies in linked groups, but for the group that it brings to the pool. -/
structure Remembers (s : State) : Prop where
  curGroup : ∀ g, s.rt.curGroup = some g → g ∈ s.groups ∨ g ∈ s.removed
  curBlock : ∀ b, s.rt.curBlock = some b → Kept s b
  lastBlock : ∀ b, s.rt.lastBlock = some b → Kept s b

theorem Remembers.of_none (hg : s.rt.curGroup = none) (hc : s.rt.curBlock = none)
    (hl : s.rt.lastBlock = none) : Remembers s where
  curGroup g h := by rw [hg] at h; cases h
  curBlock b h := by rw [hc] at h; cases h
  lastBlock b h := by rw [hl] at h; cases h

theorem AtRing.remembers (h : AtRing s) : Remembers s := .of_none h.curGroup h.curBlock h.lastBlock

theorem NoGroup.remembers (h : NoGroup s) : Remembers s := .of_none h.curGroup h.curBlock h.lastBlock

theorem Walks.remembers (h : Walks s g) (hc : ∀ b, s.rt.curBlock = some b → Kept s b) :
    Remembers s where
  curGroup _ hg := .inl (Option.some.inj (h.curGroup.symm.trans hg) ▸ h.mem)
  curBlock := hc
  lastBlock b hb := (h.last b hb).1

theorem AtBlock.remembers {passed rest : List ℕ} (h : AtBlock s g b passed rest) : Remembers s :=
  h.walks.remembers fun _ hx => Option.some.inj (h.curBlock.symm.trans hx) ▸ h.kept

theorem AtGroup.remembers (h : AtGroup s g) : Remembers s :=
  h.walks.remembers fun b hb => (h.walks.last b (h.curBlock ▸ hb)).1

theorem BehindGroup.remembers (h : BehindGroup s g) : Remembers s :=
  h.walks.remembers fun b hb => (h.walks.last b (h.curBlock ▸ hb)).1

theorem Unlinked.remembers {next : Option ℕ} (h : Unlinked s g next) : Remembers s where
  curGroup _ hg := .inr (Option.some.inj (h.curGroup.symm.trans hg) ▸ h.removed)
  curBlock b hb := h.last b (h.curBlock ▸ hb)
  lastBlock := h.last

theorem Stands.remembers (h : Stands s) (hpc : s.rt.pc.atPlace) : Remembers s := by
  have hat : (∃ g b passed rest, AtBlock s g b passed rest) → Remembers s :=
    fun ⟨_, _, _, _, h⟩ => h.remembers
  have hrests : Rests s → Remembers s := fun h => h.elim (fun h => h.1.remembers) fun h => hat h.2
  unfold Stands at h
  split at h <;> rename_i heq <;> rw [heq] at hpc
  · exact hrests h
  · exact hrests h
  · split at h
    · exact hat h.2
    · exact h.1.remembers
  · obtain ⟨-, h⟩ := h
    split at h
    · exact h.remembers
    · exact hat h
    · exact h.elim hat fun ⟨_, h⟩ => h.remembers
    · exact h.elim (·.remembers) fun ⟨_, h⟩ => h.remembers
    · exact h.elim (·.remembers) hat
  · exact h.1.remembers
  · exact h.1.remembers
  · exact h.1.remembers
  · exact h.2.1.remembers
  · exact h.2.1.remembers
  · exact h.2.1.remembers
  · exact h.2.2.elim (fun ⟨_, _, _, _, h, _⟩ => h.remembers) fun ⟨_, h, _⟩ => h.remembers
  · cases hpc
  · exact h.2.2.elim (·.1.remembers) fun ⟨_, h, _⟩ => h.remembers
  · obtain ⟨-, -, _, h, -⟩ := h
    exact h.behind.remembers
  · obtain ⟨-, -, _, h, -⟩ := h
    exact h.remembers
  · obtain ⟨-, -, _, h, -⟩ := h
    exact h.remembers
  · obtain ⟨-, -, _, h⟩ := h
    exact h.remembers
  · cases hpc

theorem ListsOk.hand (h : ListsOk s) (hb : (s.tls t).pc.role.block = some b) :
    groupOf b ∈ s.groups ∧ b ∉ (s.group (groupOf b)).blocks := by
  have hr := h.role t
  cases hrole : (s.tls t).pc.role with
  | none | group | head => rw [hrole] at hb; cases hb
  | hand g b' =>
    rw [hrole] at hb hr
    obtain rfl : b' = b := by simpa [Role.block] using hb
    obtain ⟨hg, -, rfl, hout⟩ := hr
    exact ⟨hg, hout⟩
  | headHand g b' =>
    rw [hrole] at hb hr
    obtain rfl : b' = b := by simpa [Role.block] using hb
    obtain ⟨-, hg, rfl, hout⟩ := hr
    exact ⟨List.mem_of_head? hg, hout⟩

/-- **The block lists over all lives**: whatever the writers, the reader, the crashes and the openings do,
no block is in two places, none is lost, and the reader never remembers a block or a group that is gone. -/
theorem blocks_safe {ok : State → Act → Prop} {reopenOk : State → State → Prop}
    (h : Lives cfg ok reopenOk s) : BlocksSafe s := by
  obtain ⟨hshape, hpool, hfull⟩ := h.whole
  have hl := hshape.lists
  refine ⟨hl.nodup, hl.groupOf_eq, fun t b hb => ⟨(hl.hand hb).1, (hl.hand hb).2, fun t' ht' =>
    hl.hand_inj t' t b ht' hb⟩, fun b hb => hfull b (List.mem_append_left _ hb), fun b hb => ?_,
    fun g hpc => (hshape.stands.remembers hpc).curGroup g, fun b hpc => (hshape.stands.remembers hpc).curBlock b,
    fun b hpc => (hshape.stands.remembers hpc).lastBlock b⟩
  have hg : groupOf b ∉ s.groups := fun hg => hl.not_spare hg hb
  refine ⟨hg, ?_⟩
  rcases hfull b (List.mem_append_right _ hb) with hin | ⟨t, ht⟩
  · simpa [Group.blocks, (hpool _ hb).1, (hpool _ hb).2] using hin
  · exact absurd (hl.hand ht).1 hg

/-! ## A run -/

theorem Lives.run {reopenOk : State → State → Prop} {as : List Act}
    (h : Lives cfg (fun _ _ => True) reopenOk s) (hrun : QLog.run (LogBuffer.step cfg) s as = some s') :
    Lives cfg (fun _ _ => True) reopenOk s' := by
  have hruns : Runs (LogBuffer.step cfg) (fun _ _ => True) s s' := .of_run (fun _ _ => trivial) hrun
  exact hruns.invariant h fun _ _ _ hu _ hs => .step hu trivial hs

/-- A log buffer in memory whose writers are always fast. -/
def memoryConfig : Config := ⟨false, .autoExpandWhenFull, 1, 100⟩

/-- A thread gets a block and commits a record, the reader finds the block and hands the record out. -/
def oneRecord (payload : List UInt8) : List Act :=
  .alloc 0 ⟨payload.length, 5⟩ :: (List.replicate 7 (.write 0 .ok) ++
    .commit 0 payload :: .readChunk :: List.replicate 8 (.read false))

theorem lives_oneRecord : ∃ s, Lives memoryConfig (fun _ _ => True) (fun _ _ => True) s ∧
    s.rt.curBlock = some 31 ∧ s.delivered.map Delivery.payload = [[7]] := by
  have hrun : ∃ s, QLog.run (step memoryConfig) (State.created .valid) (oneRecord [7]) = some s ∧
      s.rt.curBlock = some 31 ∧ s.delivered.map Delivery.payload = [[7]] := ⟨_, rfl, rfl, rfl⟩
  obtain ⟨s, hs, hb⟩ := hrun
  exact ⟨s, Lives.run (.create ⟨.valid, rfl⟩) hs, hb⟩

theorem blocks_safe_oneRecord : ∃ s : State, s.rt.curBlock = some 31 ∧ BlocksSafe s := by
  obtain ⟨s, hs, hb, -⟩ := lives_oneRecord
  exact ⟨s, hb, blocks_safe hs⟩

end QLog.LogBuffer
