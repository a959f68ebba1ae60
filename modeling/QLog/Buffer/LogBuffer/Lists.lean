import QLog.Buffer.LogBuffer.System

/-!
# The lists of blocks

Every block of a group is on at most one of the lists of the group or in the hands of one writer, and a
writer that has a block in its hands or looks for one keeps the group linked through its lock.

* `Role` says what a writer has to do with the lists, by its program counter.
* `ListsOk` is the invariant; `ListsOk.frame` carries it over the steps that leave the lists alone, and
  `ListsOk.newBlockStep` over those of `alloc_new_block`.
-/

namespace QLog.LogBuffer

variable {cfg : Config} {s s' : State} {t : ℕ}

/-- What a writer has to do with the lists. -/
inductive Role
  | none
  /-- It holds the lock of the pointer to a group. -/
  | group (g : ℕ)
  /-- It also has a block of the group. -/
  | hand (g b : ℕ)
  /-- It holds the lock of the head. -/
  | head
  /-- It also has a block of the first group. -/
  | headHand (g b : ℕ)
  deriving DecidableEq

def WriterPc.role : WriterPc → Role
  | lockNext _ _ (some g) => .group g
  | popFree _ _ g => .group g
  | popHead _ _ => .head
  | newGroup _ _ => .head
  | pushStage _ g b false => .hand g b
  | pushStage _ g b true => .headHand g b
  | _ => .none

/-- The block in the hands of a writer. -/
def Role.block : Role → Option ℕ
  | hand _ b => some b
  | headHand _ b => some b
  | _ => Option.none

/-- The blocks on the lists of a group. -/
def Group.blocks (grp : Group) : List ℕ := grp.used ++ (grp.stage ++ grp.free)

/-- A block in the hands of a writer is on no list. -/
def HandOk (s : State) (g b : ℕ) : Prop := groupOf b = g ∧ b ∉ (s.group g).blocks

/-- What holds for a writer in its role. -/
def RoleOk (s : State) (t : ℕ) : Role → Prop
  | .none => True
  | .group g => g ∈ s.groups ∧ t ∈ (s.group g).readers
  | .hand g b => g ∈ s.groups ∧ t ∈ (s.group g).readers ∧ HandOk s g b
  | .head => s.headLock = some t
  | .headHand g b => s.headLock = some t ∧ s.groups.head? = some g ∧ HandOk s g b

/-- The invariant of the lists. -/
structure ListsOk (s : State) : Prop where
  nodup : ∀ g, (s.group g).blocks.Nodup
  groupOf_eq : ∀ g, ∀ b ∈ (s.group g).blocks, groupOf b = g
  groups_nodup : (s.groups ++ s.spares).Nodup
  groups_le : ∀ g ∈ s.groups ++ s.spares, g ≤ s.groupIndex
  role : ∀ t, RoleOk s t (s.tls t).pc.role
  hand_inj : ∀ t t' b, (s.tls t).pc.role.block = some b → (s.tls t').pc.role.block = some b → t = t'

/-! ## Opening -/

theorem mem_groupBlocks {g b : ℕ} : b ∈ groupBlocks g ↔ groupOf b = g := by
  simp only [groupBlocks, List.mem_reverse, List.mem_map, List.mem_range, groupOf, blocksPerGroup]
  constructor
  · rintro ⟨i, hi, rfl⟩
    omega
  · rintro rfl
    exact ⟨b % 16, Nat.mod_lt _ (by norm_num), by omega⟩

theorem nodup_groupBlocks (g : ℕ) : (groupBlocks g).Nodup := by
  rw [groupBlocks, List.nodup_reverse]
  exact List.Nodup.map (fun _ _ h => Nat.add_left_cancel h) List.nodup_range

/-- A group whose used and staged lists are sound is loaded soundly. -/
theorem nodup_loadGroup {g : ℕ} {grp : Group} (h : (grp.used ++ grp.stage).Nodup) :
    (loadGroup g grp).blocks.Nodup := by
  rw [List.nodup_append] at h
  simp only [Group.blocks, loadGroup]
  rw [List.nodup_append, List.nodup_append]
  refine ⟨h.1, ⟨h.2.1, (nodup_groupBlocks g).filter _, ?_⟩, ?_⟩
  · rintro b hb c hc rfl
    simp only [List.mem_filter, decide_eq_true_eq] at hc
    exact hc.2.2 hb
  · rintro b hb c hc rfl
    rw [List.mem_append] at hc
    rcases hc with hc | hc
    · exact h.2.2 b hb b hc rfl
    · simp only [List.mem_filter, decide_eq_true_eq] at hc
      exact hc.2.1 hb

theorem ListsOk.used_stage_nodup (h : ListsOk s) (g : ℕ) :
    ((s.group g).used ++ (s.group g).stage).Nodup := by
  have hg := h.nodup g
  rw [Group.blocks, ← List.append_assoc] at hg
  exact (List.nodup_append.mp hg).1

/-- The lists of a log buffer opened from sound files. -/
theorem listsOk_opened {img : Image} {v : VerifyResult} (hn : img.groups.Nodup)
    (hle : ∀ g ∈ img.groups, g ≤ img.groupIndex)
    (hg : ∀ g ∈ img.groups, ((img.group g).used ++ (img.group g).stage).Nodup)
    (hr : ∀ g ∈ img.groups, ∀ b ∈ (img.group g).used ++ (img.group g).stage, groupOf b = g) :
    ListsOk (State.opened img v) where
  nodup g := by
    simp only [State.opened]
    split
    · rename_i hmem
      exact nodup_loadGroup (hg g hmem)
    · exact nodup_groupBlocks g
  groupOf_eq g b hb := by
    simp only [State.opened] at hb
    split at hb
    · rename_i hmem
      simp only [Group.blocks, loadGroup, List.mem_append, List.mem_filter] at hb
      rcases hb with hb | hb | hb
      · exact hr g hmem b (List.mem_append_left _ hb)
      · exact hr g hmem b (List.mem_append_right _ hb)
      · exact mem_groupBlocks.mp hb.1
    · exact mem_groupBlocks.mp hb
  groups_nodup := by simpa [State.opened, State.created, State.spares] using hn
  groups_le := by simpa [State.opened, State.created, State.spares] using hle
  role _ := trivial
  hand_inj t t' b h := by cases h

theorem listsOk_created (v : VerifyResult) : ListsOk (State.created v) where
  nodup := nodup_groupBlocks
  groupOf_eq _ _ hb := mem_groupBlocks.mp hb
  groups_nodup := List.nodup_nil
  groups_le _ hg := by cases hg
  role _ := trivial
  hand_inj t t' b h := by cases h

theorem ListsOk.crashImage (h : ListsOk s) {groups : List ℕ} {v : VerifyResult} {img : Image}
    (hgroups : groups.Perm (s.groups ++ s.spares)) (h1 : img.groups = groups)
    (h2 : img.group = s.group) (h3 : img.groupIndex = s.groupIndex) :
    ListsOk (State.opened img v) := by
  refine listsOk_opened ?_ ?_ ?_ ?_
  · rw [h1]
    exact hgroups.nodup_iff.mpr h.groups_nodup
  · rw [h1, h3]
    exact fun g hg => h.groups_le g (hgroups.mem_iff.mp hg)
  · rw [h2]
    exact fun g _ => h.used_stage_nodup g
  · rw [h2]
    intro g _ b hb
    refine h.groupOf_eq g b ?_
    rw [Group.blocks, ← List.append_assoc]
    exact List.mem_append_left _ hb

theorem ListsOk.of_created (h : s.Created cfg) : ListsOk s := by
  obtain ⟨v, rfl⟩ := h
  split
  · exact listsOk_opened List.nodup_nil (by simp [Image.blank]) (by simp [Image.blank])
      (by simp [Image.blank])
  · exact listsOk_created v

theorem ListsOk.reopen (h : ListsOk s) {rejected : Bool} (hs : Reopens s s' rejected) :
    ListsOk s' := by
  obtain ⟨groups, oversize, v, hgroups, -, rfl⟩ := hs
  cases rejected <;> exact h.crashImage hgroups rfl rfl rfl

/-! ## Steps that leave the lists alone -/

/-- The lists, the group list and the lock of the head are the same. -/
structure SameLists (s s' : State) : Prop where
  groups : s'.groups = s.groups
  pool : s'.pool = s.pool
  removed : s'.removed = s.removed
  groupIndex : s'.groupIndex = s.groupIndex
  group : s'.group = s.group
  headLock : s'.headLock = s.headLock

theorem SameLists.spares (h : SameLists s s') : s'.spares = s.spares := by
  rw [State.spares, h.pool, h.removed, State.spares]

theorem SameLists.trans {u : State} (h : SameLists s u) (h' : SameLists u s') : SameLists s s' :=
  ⟨h'.groups.trans h.groups, h'.pool.trans h.pool, h'.removed.trans h.removed,
    h'.groupIndex.trans h.groupIndex, h'.group.trans h.group, h'.headLock.trans h.headLock⟩

theorem RoleOk.frame {r : Role} (h : RoleOk s t r) (hs : SameLists s s') : RoleOk s' t r := by
  obtain ⟨h1, -, -, -, h2, h3⟩ := hs
  cases r with
  | none => trivial
  | group | hand | head | headHand => simpa only [RoleOk, HandOk, h1, h2, h3] using h

theorem ListsOk.frame (h : ListsOk s) (hs : SameLists s s')
    (hr : ∀ t, (s'.tls t).pc.role = (s.tls t).pc.role) : ListsOk s' where
  nodup := by
    rw [hs.group]
    exact h.nodup
  groupOf_eq := by
    rw [hs.group]
    exact h.groupOf_eq
  groups_nodup := by
    rw [hs.groups, hs.spares]
    exact h.groups_nodup
  groups_le := by
    rw [hs.groups, hs.spares, hs.groupIndex]
    exact h.groups_le
  role t := by
    rw [hr]
    exact (h.role t).frame hs
  hand_inj t t' b := by
    rw [hr, hr]
    exact h.hand_inj t t' b

/-! ## Steps of `alloc_new_block` -/

/-- What a step of writer `t` may do to the lists without harm to the other writers: the groups stay
linked, the others keep their locks, and a block that appears on a list was in the hands of `t`. -/
structure ListsStep (s s' : State) (t : ℕ) : Prop where
  tls : ∀ t', t' ≠ t → s'.tls t' = s.tls t'
  groups : ∀ g ∈ s.groups, g ∈ s'.groups
  readers : ∀ g ∈ s.groups, ∀ t' ∈ (s.group g).readers, t' ≠ t → t' ∈ (s'.group g).readers
  headLock : ∀ t', t' ≠ t → s.headLock = some t' →
    s'.headLock = some t' ∧ s'.groups.head? = s.groups.head?
  blocks : ∀ g ∈ s.groups, ∀ b ∈ (s'.group g).blocks,
    b ∈ (s.group g).blocks ∨ (s.tls t).pc.role.block = some b

theorem ListsStep.roleOk (hs : ListsStep s s' t) (h : ListsOk s) {t' : ℕ} (ht : t' ≠ t) :
    RoleOk s' t' (s'.tls t').pc.role := by
  have hr := h.role t'
  have hinj := h.hand_inj t' t
  rw [hs.tls t' ht]
  cases hrole : (s.tls t').pc.role with
  | none => trivial
  | group g =>
    rw [hrole] at hr
    exact ⟨hs.groups g hr.1, hs.readers g hr.1 t' hr.2 ht⟩
  | hand g b =>
    rw [hrole] at hr hinj
    refine ⟨hs.groups g hr.1, hs.readers g hr.1 t' hr.2.1 ht, hr.2.2.1, fun hb => ?_⟩
    rcases hs.blocks g hr.1 b hb with hb | hb
    · exact hr.2.2.2 hb
    · exact ht (hinj b rfl hb)
  | head =>
    rw [hrole] at hr
    exact (hs.headLock t' ht hr).1
  | headHand g b =>
    rw [hrole] at hr hinj
    have hg : g ∈ s.groups := List.mem_of_head? hr.2.1
    obtain ⟨hl, hh⟩ := hs.headLock t' ht hr.1
    refine ⟨hl, hh.trans hr.2.1, hr.2.2.1, fun hb => ?_⟩
    rcases hs.blocks g hg b hb with hb | hb
    · exact hr.2.2.2 hb
    · exact ht (hinj b rfl hb)

/-- A step of writer `t` keeps the invariant if it does no harm to the others, its own role is sound
and the block in its hands, if any, comes from a list or was there before. -/
theorem ListsOk.of_step (h : ListsOk s) (hs : ListsStep s s' t) (hnodup : ∀ g, (s'.group g).blocks.Nodup)
    (hof : ∀ g, ∀ b ∈ (s'.group g).blocks, groupOf b = g) (hn : (s'.groups ++ s'.spares).Nodup)
    (hle : ∀ g ∈ s'.groups ++ s'.spares, g ≤ s'.groupIndex) (hrole : RoleOk s' t (s'.tls t).pc.role)
    (hhand : ∀ b, (s'.tls t).pc.role.block = some b →
      ∀ t', t' ≠ t → (s.tls t').pc.role.block ≠ some b) : ListsOk s' where
  nodup := hnodup
  groupOf_eq := hof
  groups_nodup := hn
  groups_le := hle
  role t' := by
    rcases eq_or_ne t' t with rfl | ht
    · exact hrole
    · exact hs.roleOk h ht
  hand_inj t₁ t₂ b h₁ h₂ := by
    rcases eq_or_ne t₁ t with rfl | ht₁ <;> rcases eq_or_ne t₂ t₁ with rfl | ht
    · rfl
    · rw [hs.tls t₂ ht] at h₂
      exact absurd h₂ (hhand b h₁ t₂ ht)
    · rfl
    · rw [hs.tls t₁ ht₁] at h₁
      rcases eq_or_ne t₂ t with rfl | ht₂
      · exact absurd h₁ (hhand b h₂ t₁ ht₁)
      · rw [hs.tls t₂ ht₂] at h₂
        exact h.hand_inj t₁ t₂ b h₁ h₂

/-- A block on a list of a linked group is in nobody's hands. -/
theorem ListsOk.not_hand (h : ListsOk s) {g b : ℕ} (hb : b ∈ (s.group g).blocks) (t : ℕ) :
    (s.tls t).pc.role.block ≠ some b := by
  intro hrole
  have hr := h.role t
  have hg := h.groupOf_eq g b hb
  cases hrole' : (s.tls t).pc.role with
  | none | group | head => rw [hrole'] at hrole; cases hrole
  | hand g' b' =>
    rw [hrole'] at hrole hr
    obtain rfl : b' = b := by simpa [Role.block] using hrole
    obtain rfl : g' = g := hr.2.2.1.symm.trans hg
    exact hr.2.2.2 hb
  | headHand g' b' =>
    rw [hrole'] at hrole hr
    obtain rfl : b' = b := by simpa [Role.block] using hrole
    obtain rfl : g' = g := hr.2.2.1.symm.trans hg
    exact hr.2.2.2 hb

@[simp] theorem State.goto_tls_self (s : State) (t : ℕ) (pc : WriterPc) :
    (s.goto t pc).tls t = { s.tls t with pc := pc } := by
  simp [State.goto, State.setTls]

theorem State.goto_tls_of_ne (s : State) {t t' : ℕ} (pc : WriterPc) (h : t' ≠ t) :
    (s.goto t pc).tls t' = s.tls t' := by
  simp [State.goto, State.setTls, h]

/-- A step of writer `t` that only takes and releases locks. -/
theorem ListsOk.of_locks (h : ListsOk s) (pc : WriterPc)
    (hgroups : s'.groups = s.groups) (hpool : s'.spares = s.spares)
    (hindex : s'.groupIndex = s.groupIndex) (htls : s'.tls = (s.goto t pc).tls)
    (hblocks : ∀ g, (s'.group g).blocks = (s.group g).blocks)
    (hreaders : ∀ g, ∀ t' ∈ (s.group g).readers, t' ≠ t → t' ∈ (s'.group g).readers)
    (hhead : ∀ t', t' ≠ t → s.headLock = some t' → s'.headLock = some t')
    (hrole : RoleOk s' t pc.role) (hhand : pc.role.block = none) : ListsOk s' := by
  have htls_self : (s'.tls t).pc = pc := by rw [htls, State.goto_tls_self]
  refine h.of_step (t := t) ⟨?_, ?_, ?_, ?_, ?_⟩ ?_ ?_ ?_ ?_ ?_ ?_
  · intro t' ht
    rw [htls, State.goto_tls_of_ne _ _ ht]
  · rw [hgroups]
    exact fun _ hg => hg
  · exact fun g _ => hreaders g
  · exact fun t' ht hl => ⟨hhead t' ht hl, by rw [hgroups]⟩
  · intro g _ b hb
    rw [hblocks] at hb
    exact .inl hb
  · intro g
    rw [hblocks]
    exact h.nodup g
  · intro g
    rw [hblocks]
    exact h.groupOf_eq g
  · rw [hgroups, hpool]
    exact h.groups_nodup
  · rw [hgroups, hpool, hindex]
    exact h.groups_le
  · rw [htls_self]
    exact hrole
  · intro b hb
    rw [htls_self, hhand] at hb
    cases hb

/-- The lock of the pointer to a group changes hands. -/
theorem blocks_setReaders (s : State) (g : ℕ) (f : List ℕ → List ℕ) (g' : ℕ) :
    ((s.setGroup g { s.group g with readers := f (s.group g).readers }).group g').blocks =
      (s.group g').blocks := by
  rcases eq_or_ne g' g with rfl | hg
  · simp [State.setGroup, Group.blocks]
  · simp [State.setGroup, hg]

theorem mem_readers_setReaders {g g' t' : ℕ} {f : List ℕ → List ℕ}
    (ht : t' ∈ (s.group g').readers) (hf : ∀ l : List ℕ, t' ∈ l → t' ∈ f l) :
    t' ∈ ((s.setGroup g { s.group g with readers := f (s.group g).readers }).group g').readers := by
  rcases eq_or_ne g' g with rfl | hg
  · simpa [State.setGroup] using hf _ ht
  · simpa [State.setGroup, hg] using ht

theorem ListsOk.lockFirst (h : ListsOk s) {call : Call} {seq g : ℕ} {gs : List ℕ}
    (hg : s.groups = g :: gs) :
    ListsOk ((s.setGroup g { s.group g with readers := t :: (s.group g).readers }).goto t
      (.popFree call seq g)) := by
  refine h.of_locks (t := t) (.popFree call seq g) rfl rfl rfl rfl
    (fun g' => blocks_setReaders s g (t :: ·) g') ?_ (fun _ _ hl => hl) ?_ rfl
  · exact fun g' t' ht' _ => mem_readers_setReaders ht' fun _ => List.mem_cons_of_mem t
  · refine ⟨?_, ?_⟩
    · change g ∈ s.groups
      rw [hg]
      exact List.mem_cons_self
    · simp [State.goto, State.setTls, State.setGroup]

theorem ListsOk.lockNext (h : ListsOk s) {call : Call} {seq g g' : ℕ}
    (hpc : (s.tls t).pc = .lockNext call seq (some g)) (hnext : nextOf s.groups g = some g') :
    ListsOk ((unlockGroup (s.setGroup g' { s.group g' with readers := t :: (s.group g').readers })
      g t).goto t (.popFree call seq g')) := by
  have hne : g' ≠ g := by
    rintro rfl
    exact not_mem_afterOf_self (List.nodup_append.mp h.groups_nodup).1 (List.mem_of_head? hnext)
  refine h.of_locks (t := t) (.popFree call seq g') rfl rfl rfl rfl ?_ ?_ (fun _ _ hl => hl) ?_ rfl
  · intro g''
    exact (blocks_setReaders _ g (·.erase t) g'').trans (blocks_setReaders s g' (t :: ·) g'')
  · intro g'' t' ht' hne'
    refine mem_readers_setReaders (f := (·.erase t)) ?_ fun l hl => ?_
    · exact mem_readers_setReaders ht' fun _ => List.mem_cons_of_mem t
    · exact (List.mem_erase_of_ne hne').mpr hl
  · refine ⟨mem_of_nextOf hnext, ?_⟩
    simp [State.goto, State.setTls, unlockGroup, State.setGroup, hne]

theorem ListsOk.unlock (h : ListsOk s) {call : Call} {seq g : ℕ} :
    ListsOk ((unlockGroup s g t).goto t (.lockHead call seq)) := by
  refine h.of_locks (t := t) (.lockHead call seq) rfl rfl rfl rfl
    (fun g' => blocks_setReaders s g (·.erase t) g') ?_ (fun _ _ hl => hl) trivial rfl
  exact fun g' t' ht' hne' => mem_readers_setReaders (f := (·.erase t)) ht' fun l hl =>
    (List.mem_erase_of_ne hne').mpr hl

theorem ListsOk.lockHead (h : ListsOk s) {call : Call} {seq : ℕ} (hfree : s.headLock = none) :
    ListsOk ({ s with headLock := some t }.goto t (.popHead call seq)) := by
  refine h.of_locks (t := t) (.popHead call seq) rfl rfl rfl rfl (fun _ => rfl)
    (fun _ _ ht _ => ht) (fun t' _ hl => ?_) rfl rfl
  rw [hfree] at hl
  cases hl

/-- A writer takes a block from the free list of a linked group. -/
theorem ListsOk.takeBlock (h : ListsOk s) {call : Call} {seq g b : ℕ} {rest : List ℕ} {head : Bool}
    (hfree : (s.group g).free = b :: rest)
    (hrole : RoleOk s t (if head then .head else .group g)) (hg : g ∈ s.groups)
    (hhead : head = true → s.groups.head? = some g) :
    ListsOk (takeBlock s t call seq g b rest head) := by
  have hblocks : (s.group g).blocks = (s.group g).used ++ ((s.group g).stage ++ b :: rest) := by
    rw [Group.blocks, hfree]
  have hmem : b ∈ (s.group g).blocks := by
    rw [hblocks]
    simp
  have hnd := h.nodup g
  rw [hblocks] at hnd
  have hsub : ∀ g', ((Function.update s.group g { s.group g with free := rest }) g').blocks.Sublist
      (s.group g').blocks := by
    intro g'
    rcases eq_or_ne g' g with rfl | hne
    · rw [Function.update_self, hblocks]
      exact List.Sublist.append_left
        (List.Sublist.append_left (List.sublist_cons_self b rest) _) _
    · rw [Function.update_of_ne hne]
  have hout : b ∉ (s.group g).used ++ ((s.group g).stage ++ rest) := by
    rw [← List.append_assoc] at hnd ⊢
    have := List.nodup_middle.mp hnd
    exact (List.nodup_cons.mp this).1
  have htls : (LogBuffer.takeBlock s t call seq g b rest head).tls t =
      { s.tls t with pc := .pushStage call g b head } := by
    simp [LogBuffer.takeBlock, State.goto, State.setTls, initBlock, State.setBlock, State.setGroup]
  refine h.of_step (t := t) ⟨?_, fun _ hg => hg, ?_, fun _ _ hl => ⟨hl, rfl⟩, ?_⟩ ?_ ?_
    h.groups_nodup h.groups_le ?_ ?_
  · intro t' ht
    simp [LogBuffer.takeBlock, State.goto, State.setTls, initBlock, State.setBlock, State.setGroup, ht]
  · intro g' _ t' ht' _
    change t' ∈ ((Function.update s.group g { s.group g with free := rest }) g').readers
    rcases eq_or_ne g' g with rfl | hne
    · simpa using ht'
    · simpa [hne] using ht'
  · exact fun g' _ b' hb' => .inl ((hsub g').subset hb')
  · exact fun g' => (h.nodup g').sublist (hsub g')
  · exact fun g' b' hb' => h.groupOf_eq g' b' ((hsub g').subset hb')
  · have hhand : HandOk (LogBuffer.takeBlock s t call seq g b rest head) g b := by
      refine ⟨h.groupOf_eq g b hmem, ?_⟩
      simpa [LogBuffer.takeBlock, State.goto, State.setTls, initBlock, State.setBlock,
        State.setGroup, Group.blocks] using hout
    rw [htls]
    cases head with
    | false =>
      refine ⟨hg, ?_, hhand⟩
      simpa [LogBuffer.takeBlock, State.goto, State.setTls, initBlock, State.setBlock,
        State.setGroup] using hrole.2
    | true => exact ⟨hrole, hhead rfl, hhand⟩
  · intro b' hb' t' _
    rw [htls] at hb'
    obtain rfl : b = b' := by
      cases head <;> simpa [WriterPc.role, Role.block] using hb'
    exact h.not_hand hmem t'

/-- A group that is not linked is put in front. -/
theorem ListsOk.link (h : ListsOk s) {g : ℕ} (hhead : s.headLock = some t)
    (hrole : (s.tls t).pc.role = .head) (htls : s'.tls = s.tls) (hlock : s'.headLock = s.headLock)
    (hgroups : s'.groups = g :: s.groups) (hg : g ∉ s.groups ++ s'.spares)
    (hpool : s'.spares.Sublist s.spares) (hgroup : ∀ g', g' ≠ g → s'.group g' = s.group g')
    (hindex : g ≤ s'.groupIndex) (hindex' : s.groupIndex ≤ s'.groupIndex)
    (hnd : (s'.group g).blocks.Nodup) (hof : ∀ b ∈ (s'.group g).blocks, groupOf b = g) :
    ListsOk s' := by
  rw [List.mem_append, not_or] at hg
  have hne : ∀ g' ∈ s.groups, g' ≠ g := fun g' hg' he => hg.1 (he ▸ hg')
  refine h.of_step (t := t) ⟨?_, ?_, ?_, ?_, ?_⟩ ?_ ?_ ?_ ?_ ?_ ?_
  · exact fun t' _ => congrFun htls t'
  · rw [hgroups]
    exact fun _ => List.mem_cons_of_mem g
  · intro g' hg' t' ht' _
    rwa [hgroup g' (hne g' hg')]
  · intro t' ht' hl
    rw [hhead] at hl
    exact absurd (Option.some.inj hl).symm ht'
  · intro g' hg' b hb
    rw [hgroup g' (hne g' hg')] at hb
    exact .inl hb
  · intro g'
    rcases eq_or_ne g' g with rfl | hg'
    · exact hnd
    · rw [hgroup g' hg']
      exact h.nodup g'
  · intro g' b hb
    rcases eq_or_ne g' g with rfl | hg'
    · exact hof b hb
    · rw [hgroup g' hg'] at hb
      exact h.groupOf_eq g' b hb
  · rw [hgroups, List.cons_append, List.nodup_cons, List.mem_append, not_or]
    exact ⟨hg, h.groups_nodup.sublist (List.Sublist.append_left hpool _)⟩
  · intro g' hg'
    rw [hgroups, List.cons_append, List.mem_cons] at hg'
    rcases hg' with rfl | hg'
    · exact hindex
    · exact (h.groups_le g' ((List.Sublist.append_left hpool _).subset hg')).trans hindex'
  · rw [htls, hrole]
    exact hlock.trans hhead
  · intro b hb
    rw [htls, hrole] at hb
    cases hb

theorem ListsOk.linkGroup (h : ListsOk s) (hhead : s.headLock = some t)
    (hrole : (s.tls t).pc.role = .head) : ListsOk (linkGroup s) := by
  have hnd := h.groups_nodup
  cases hpool : s.pool with
  | nil =>
    have hnew : s.groupIndex + 1 ∉ s.groups ++ s.spares := fun hmem =>
      Nat.not_succ_le_self _ (h.groups_le _ hmem)
    have hspare : s.spareGroup = s.groupIndex + 1 := by rw [State.spareGroup, hpool]; rfl
    refine h.link (g := s.groupIndex + 1) hhead hrole ?_ ?_ ?_ ?_ ?_ ?_ ?_ ?_ ?_ ?_ <;>
      simp only [LogBuffer.linkGroup, State.spares, hpool, hspare]
    · rwa [State.spares, hpool] at hnew
    · exact List.Sublist.refl _
    · exact fun g' hg' => Function.update_of_ne hg' _ _
    · exact Nat.le_refl _
    · exact Nat.le_succ _
    · rw [Function.update_self]
      exact nodup_groupBlocks _
    · rw [Function.update_self]
      exact fun b hb => mem_groupBlocks.mp hb
  | cons g pool =>
    have hspare : s.spareGroup = g := by rw [State.spareGroup, hpool]; rfl
    rw [State.spares, hpool] at hnd
    have hnd' := List.nodup_cons.mp (List.nodup_middle.mp hnd)
    refine h.link (g := g) hhead hrole ?_ ?_ ?_ ?_ ?_ ?_ ?_ ?_ ?_ ?_ <;>
      simp only [LogBuffer.linkGroup, State.spares, hpool, hspare]
    · exact hnd'.1
    · exact List.sublist_cons_self _ _
    · exact fun _ _ => trivial
    · exact h.groups_le g (by simp [State.spares, hpool])
    · exact Nat.le_refl _
    · exact h.nodup g
    · exact h.groupOf_eq g

theorem State.linkGroup_head (s : State) : (linkGroup s).groups.head? = some s.spareGroup := by
  unfold LogBuffer.linkGroup
  split <;> rfl

theorem ListsOk.stageBlock (h : ListsOk s) {call : Call} {g b : ℕ} {head : Bool}
    (hpc : (s.tls t).pc = .pushStage call g b head) :
    ListsOk (stageBlock cfg s t call g b head) := by
  have hr := h.role t
  rw [hpc] at hr
  have hhand : HandOk s g b := by cases head with
    | false => exact hr.2.2
    | true => exact hr.2.2
  have hblock : (s.tls t).pc.role.block = some b := by
    rw [hpc]
    cases head <;> rfl
  -- the lists of the group afterwards
  have hgroup : ∀ g', ((LogBuffer.stageBlock cfg s t call g b head).group g').blocks =
      if g' = g then (s.group g).used ++ (b :: (s.group g).stage ++ (s.group g).free)
      else (s.group g').blocks := by
    intro g'
    rcases eq_or_ne g' g with rfl | hg
    · cases head <;> simp [LogBuffer.stageBlock, State.setGroup, State.setTls, Group.blocks]
    · cases head <;> simp [LogBuffer.stageBlock, State.setGroup, State.setTls, hg]
  have hperm : ((s.group g).used ++ (b :: (s.group g).stage ++ (s.group g).free)).Perm
      (b :: (s.group g).blocks) := List.perm_middle
  have htls : ((LogBuffer.stageBlock cfg s t call g b head).tls t).pc = .hpAlloc call := by
    simp [LogBuffer.stageBlock, State.setTls]
  have hgroups : (LogBuffer.stageBlock cfg s t call g b head).groups = s.groups := by
    cases head <;> rfl
  have hpool : (LogBuffer.stageBlock cfg s t call g b head).spares = s.spares := by
    cases head <;> rfl
  have hindex : (LogBuffer.stageBlock cfg s t call g b head).groupIndex = s.groupIndex := by
    cases head <;> rfl
  refine h.of_step (t := t) ⟨?_, ?_, ?_, ?_, ?_⟩ ?_ ?_ ?_ ?_ ?_ ?_
  · intro t' ht
    cases head <;> simp [LogBuffer.stageBlock, State.setTls, State.setGroup, ht]
  · rw [hgroups]
    exact fun _ hg => hg
  · intro g' _ t' ht' hne
    rcases eq_or_ne g' g with rfl | hg
    · cases head with
      | false =>
        simpa [LogBuffer.stageBlock, State.setTls, State.setGroup] using
          (List.mem_erase_of_ne hne).mpr ht'
      | true => simpa [LogBuffer.stageBlock, State.setTls, State.setGroup] using ht'
    · cases head <;> simpa [LogBuffer.stageBlock, State.setTls, State.setGroup, hg] using ht'
  · intro t' ht' hl
    rw [hgroups]
    cases head with
    | false => exact ⟨hl, rfl⟩
    | true =>
      rw [hr.1] at hl
      exact absurd (Option.some.inj hl).symm ht'
  · intro g' _ b' hb'
    rw [hgroup] at hb'
    split at hb'
    · rename_i hg
      subst hg
      rcases List.mem_cons.mp (hperm.mem_iff.mp hb') with rfl | hb'
      · exact .inr hblock
      · exact .inl hb'
    · exact .inl hb'
  · intro g'
    rw [hgroup]
    split
    · exact hperm.nodup_iff.mpr (List.nodup_cons.mpr ⟨hhand.2, h.nodup g⟩)
    · exact h.nodup g'
  · intro g' b' hb'
    rw [hgroup] at hb'
    split at hb'
    · rename_i hg
      subst hg
      rcases List.mem_cons.mp (hperm.mem_iff.mp hb') with rfl | hb'
      · exact hhand.1
      · exact h.groupOf_eq g' b' hb'
    · exact h.groupOf_eq g' b' hb'
  · rw [hgroups, hpool]
    exact h.groups_nodup
  · rw [hgroups, hpool, hindex]
    exact h.groups_le
  · rw [htls]
    trivial
  · intro b' hb'
    rw [htls] at hb'
    cases hb'

/-- A step to a program counter that has no more to do with the lists. -/
theorem ListsOk.goto (h : ListsOk s) (pc : WriterPc) (hpc : pc.role = (s.tls t).pc.role)
    (hs : SameLists s s') (htls : s'.tls = (s.goto t pc).tls) : ListsOk s' := by
  refine h.frame hs fun t' => ?_
  rw [htls]
  rcases eq_or_ne t' t with rfl | ht
  · rw [State.goto_tls_self]
    exact hpc
  · rw [State.goto_tls_of_ne _ _ ht]

theorem ListsOk.newBlockStep (h : ListsOk s) (hs : newBlockStep cfg s t = some s') : ListsOk s' := by
  have hr := h.role t
  unfold LogBuffer.newBlockStep at hs
  split at hs
  · rename_i call seq hpc
    split at hs
    · cases hs
    · obtain rfl := Option.some.inj hs
      exact h.goto (.lockHead call seq) (by rw [hpc]; rfl) ⟨rfl, rfl, rfl, rfl, rfl, rfl⟩ rfl
    · rename_i g gs _ hg
      split at hs
      · cases hs
      · obtain rfl := Option.some.inj hs
        exact h.lockFirst hg
  · rename_i call seq g hpc
    split at hs
    · obtain rfl := Option.some.inj hs
      exact h.unlock
    · rename_i g' hnext
      split at hs
      · cases hs
      · obtain rfl := Option.some.inj hs
        exact h.lockNext hpc hnext
  · rename_i call seq g hpc
    rw [hpc] at hr
    split at hs
    · obtain rfl := Option.some.inj hs
      exact h.goto (.lockNext call seq (some g)) (by rw [hpc]; rfl)
        ⟨rfl, rfl, rfl, rfl, rfl, rfl⟩ rfl
    · rename_i b rest hfree
      obtain rfl := Option.some.inj hs
      exact h.takeBlock hfree hr hr.1 (fun hf => by cases hf)
  · rename_i call seq hpc
    split at hs
    · rename_i hcond
      obtain rfl := Option.some.inj hs
      exact h.lockHead hcond.1
    · cases hs
  · rename_i call seq hpc
    rw [hpc] at hr
    have hpool : ∀ {s'}, (if s.poolLock = none then
        some ({ s with poolLock := some t }.goto t (.newGroup call seq)) else none) = some s' →
        ListsOk s' := by
      intro s' hs
      split at hs
      · obtain rfl := Option.some.inj hs
        exact h.goto (.newGroup call seq) (by rw [hpc]; rfl) ⟨rfl, rfl, rfl, rfl, rfl, rfl⟩ rfl
      · cases hs
    split at hs
    · exact hpool hs
    · rename_i g hg
      split at hs
      · exact hpool hs
      · rename_i b rest hfree
        obtain rfl := Option.some.inj hs
        exact h.takeBlock hfree hr (List.mem_of_head? hg) fun _ => hg
  · rename_i call seq hpc
    have hrole : (s.tls t).pc.role = .head := by rw [hpc]; rfl
    rw [hrole] at hr
    split at hs
    · cases hs
    · rename_i b rest hfree
      obtain rfl := Option.some.inj hs
      have hhead := State.linkGroup_head s
      refine (h.linkGroup hr hrole).takeBlock hfree ?_ (List.mem_of_head? hhead) fun _ => hhead
      change (LogBuffer.linkGroup s).headLock = some t
      unfold LogBuffer.linkGroup
      split <;> exact hr
  · rename_i call g b head hpc
    obtain rfl := Option.some.inj hs
    exact h.stageBlock hpc
  · cases hs

end QLog.LogBuffer
