import QLog.Buffer.GroupList.Invariant

/-!
# The writers keep the invariant

Most steps of a writer change its place and a lock (`Inv.moves`), or move a block between a list and the
writer (`Inv.movesBlock`). The others take a group out of the pool, prepare it and link it in front.
-/

namespace QLog.GroupList

variable {s s' : State} {ls ls' : List ℕ} {p q : Ptr} {g b : ℕ} {i j : ℕ} {pc : Writer} {d : DataHead}
  {l : RwLock Party}

/-! ## The locks -/

theorem reads_goto (s : State) (i : ℕ) (pc : Writer) :
    (s.goto i pc).reads = Function.update s.reads (.writer i) pc.reads := by
  funext P
  cases P with
  | reader => rfl
  | writer j =>
    rcases eq_or_ne j i with rfl | hj
    · rw [Function.update_self]
      change (Function.update s.writers j pc j).reads = pc.reads
      rw [Function.update_self]
    · rw [Function.update_of_ne (by simpa using hj)]
      change (Function.update s.writers i pc j).reads = (s.writers j).reads
      rw [Function.update_of_ne hj]

theorem writes_goto (s : State) (i : ℕ) (pc : Writer) :
    (s.goto i pc).writes = Function.update s.writes (.writer i) pc.writes := by
  funext P
  cases P with
  | reader => rfl
  | writer j =>
    rcases eq_or_ne j i with rfl | hj
    · rw [Function.update_self]
      change (Function.update s.writers j pc j).writes = pc.writes
      rw [Function.update_self]
    · rw [Function.update_of_ne (by simpa using hj)]
      change (Function.update s.writers i pc j).writes = (s.writers j).writes
      rw [Function.update_of_ne hj]

theorem reads_goto_eq (hr : pc.reads = (s.writers i).reads) : (s.goto i pc).reads = s.reads := by
  rw [reads_goto, hr]
  exact Function.update_eq_self (Party.writer i) s.reads

theorem writes_goto_eq (hw : pc.writes = (s.writers i).writes) : (s.goto i pc).writes = s.writes := by
  rw [writes_goto, hw]
  exact Function.update_eq_self (Party.writer i) s.writes

section Locks

variable (h : Accounts s.lock s.reads s.writes)

include h

/-- A writer goes on with the locks it holds. -/
theorem accounts_goto (hr : pc.reads = (s.writers i).reads) (hw : pc.writes = (s.writers i).writes) :
    Accounts s.lock (s.goto i pc).reads (s.goto i pc).writes := by
  rw [reads_goto_eq hr, writes_goto_eq hw]
  exact h

/-- The same in a state that differs elsewhere. -/
theorem accounts_of_writers (hwriters : s'.writers = Function.update s.writers i pc)
    (hreader : s'.reader = s.reader) (hlock : s'.lock = s.lock) (hr : pc.reads = (s.writers i).reads)
    (hw : pc.writes = (s.writers i).writes) : Accounts s'.lock s'.reads s'.writes := by
  have hreads : s'.reads = (s.goto i pc).reads := by
    funext P
    cases P with
    | reader => rfl
    | writer j =>
      change (s'.writers j).reads = _
      rw [hwriters]
      rfl
  have hwrites : s'.writes = (s.goto i pc).writes := by
    funext P
    cases P with
    | reader =>
      change s'.reader.writes = _
      rw [hreader]
      rfl
    | writer j =>
      change (s'.writers j).writes = _
      rw [hwriters]
      rfl
  rw [hreads, hwrites, hlock]
  exact accounts_goto h hr hw

theorem accounts_readLock (hl : (s.lock p).readLock (.writer i) = some l)
    (hr : pc.reads = p :: (s.writers i).reads) (hw : pc.writes = (s.writers i).writes) :
    Accounts (Function.update s.lock p l) (s.goto i pc).reads (s.goto i pc).writes := by
  rw [reads_goto, writes_goto_eq hw, hr]
  exact h.readLock hl

theorem accounts_readUnlock (hr : (s.writers i).reads.Perm (p :: pc.reads))
    (hw : pc.writes = (s.writers i).writes) :
    Accounts (Function.update s.lock p ((s.lock p).readUnlock (.writer i))) (s.goto i pc).reads
      (s.goto i pc).writes := by
  rw [reads_goto, writes_goto_eq hw]
  exact h.readUnlock hr

theorem accounts_writeLock (hl : (s.lock p).writeLock (.writer i) = some l)
    (hr : pc.reads = (s.writers i).reads) (hw : pc.writes = p :: (s.writers i).writes) :
    Accounts (Function.update s.lock p l) (s.goto i pc).reads (s.goto i pc).writes := by
  rw [reads_goto_eq hr, writes_goto, hw]
  exact h.writeLock hl

theorem accounts_writeUnlock (hr : pc.reads = (s.writers i).reads)
    (hw : (s.writers i).writes.Perm (p :: pc.writes)) :
    Accounts (Function.update s.lock p ((s.lock p).writeUnlock (.writer i))) (s.goto i pc).reads
      (s.goto i pc).writes := by
  rw [reads_goto_eq hr, writes_goto]
  exact h.writeUnlock hw

end Locks

/-! ## What the others rely on -/

/-- Only one writer is about to link a group. -/
theorem Inv.own_unique (h : Inv s ls) (hi : (s.writers i).writes = [.head]) (hj : (s.writers j).own = some g) :
    j = i := by
  have hwj : Ptr.head ∈ s.writes (.writer j) := by
    change Ptr.head ∈ (s.writers j).writes
    cases hpc : s.writers j <;> rw [hpc] at hj <;> first | exact List.mem_cons_self | cases hj
  have hwi : Ptr.head ∈ s.writes (.writer i) := by
    change Ptr.head ∈ (s.writers i).writes
    rw [hi]
    exact List.mem_cons_self
  exact Party.writer.inj (h.locks.eq_of_mem_writes hwj hwi)

theorem WriterOk.detached (h : WriterOk s ls pc) (hg : pc.own = some g) : Detached s ls g := by
  cases pc
  case fresh => cases hg; exact h.1
  case link => cases hg; exact h
  case linkHead => cases hg; exact h.1
  all_goals cases hg

/-- A step of a writer puts the invariant together. -/
theorem Inv.of_writer (h : Inv s ls) (hwriters : s'.writers = Function.update s.writers i pc)
    (hreader : s'.reader = s.reader) (hlinked : s'.Linked ls') (hlocks : Accounts s'.lock s'.reads s'.writes)
    (hle : ∀ g ∈ ls', g ≤ s'.groupIndex)
    (hpool : ∀ g ∈ s'.pool, g ∉ ls' ∧ g ≤ s'.groupIndex ∧ Vacant s' g) (hnodup : s'.pool.Nodup)
    (hblocks : ∀ g ≤ s'.groupIndex, ∀ b < maxBlockCountPerGroup, b ∈ (s'.data g).used ∨
      b ∈ (s'.data g).stage ∨ b ∈ (s'.data g).free ∨ ∃ i, (s'.writers i).hand = some (g, b))
    (hkeeps : ∀ j ≠ i, Keeps s s' ls ls' (s.writers j)) (hok : WriterOk s' ls' pc)
    (hstays : Stays s s' ls ls' s.reader) : Inv s' ls' := by
  refine ⟨hlinked, hlocks, hle, hpool, hnodup, hblocks, fun j => ?_, hreader ▸ h.reader.frame hstays⟩
  rw [hwriters]
  rcases eq_or_ne j i with rfl | hj
  · rw [Function.update_self]
    exact hok
  · rw [Function.update_of_ne hj]
    exact (h.writers j).frame (hkeeps j hj)

/-- The writers that are about to link the group of the reader: none, if there was none before. -/
theorem own_update_ne {g : ℕ} (hown : ∀ j, (s.writers j).own ≠ some g) (hpc : pc.own ≠ some g) (j : ℕ) :
    (Function.update s.writers i pc j).own ≠ some g := by
  rcases eq_or_ne j i with rfl | hj
  · rwa [Function.update_self]
  · rw [Function.update_of_ne hj]
    exact hown j

theorem reads_update_not_mem (hreads : ∀ j, p ∉ (s.writers j).reads) (hpc : p ∉ pc.reads) (j : ℕ) :
    p ∉ (Function.update s.writers i pc j).reads := by
  rcases eq_or_ne j i with rfl | hj
  · rwa [Function.update_self]
  · rw [Function.update_of_ne hj]
    exact hreads j

/-! ## A writer goes on -/

/-- **A writer goes on**, with another lock or without one. -/
theorem Inv.moves (h : Inv s ls) {L : Ptr → RwLock Party}
    (hlocks : Accounts L (s.goto i pc).reads (s.goto i pc).writes) (hok : WriterOk s ls pc)
    (hhand : pc.hand = (s.writers i).hand) (hown : pc.own = none)
    (hreads : ∀ p g nextNode, s.reader = .unlink p g nextNode → At s ls p g → Ptr.next g ∉ pc.reads) :
    Inv { s with lock := L, writers := Function.update s.writers i pc } ls := by
  refine h.of_writer rfl rfl h.linked hlocks h.le h.pool h.pool_nodup ?_
    (fun j hj => ⟨fun p _ hlive => ⟨hlive, rfl⟩, fun g _ hdet => ⟨⟨hdet.1, hdet.2, hdet.3⟩, rfl, rfl⟩⟩) ?_ ?_
  · intro g hg b hb
    refine (h.blocks g hg b hb).imp_right (Or.imp_right (Or.imp_right ?_))
    rintro ⟨j, hj⟩
    refine ⟨j, ?_⟩
    rcases eq_or_ne j i with rfl | hne
    · simp only [Function.update_self]
      exact hhand.trans hj
    · simp only [Function.update_of_ne hne]
      exact hj
  · cases pc <;> first | exact hok | cases hown
  · refine ⟨rfl, rfl, rfl, fun g hg => ⟨hg, rfl⟩, fun a b hb => hb, fun _ => rfl, fun g _ => ⟨rfl, rfl⟩,
      fun g _ hdet hnone => ⟨⟨hdet.1, hdet.2, hdet.3⟩, own_update_ne hnone (by rw [hown]; nofun)⟩, ?_⟩
    intro p g nextNode hr hat hnot
    exact reads_update_not_mem hnot (hreads p g nextNode hr hat)

/-- A writer goes on without a lock that it has not held before. -/
theorem Inv.moves_of_subset (h : Inv s ls) (pc : Writer) {L : Ptr → RwLock Party}
    (hlocks : Accounts L (s.goto i pc).reads (s.goto i pc).writes) (hok : WriterOk s ls pc)
    (hhand : pc.hand = (s.writers i).hand) (hown : pc.own = none) (hsub : pc.reads ⊆ (s.writers i).reads) :
    Inv { s with lock := L, writers := Function.update s.writers i pc } ls := by
  refine h.moves hlocks hok hhand hown fun p g nextNode hr _ hmem => ?_
  have hreader := h.reader
  rw [hr] at hreader
  exact hreader.2.2.2.2 i (hsub hmem)

/-- A writer goes on with the locks it holds. -/
theorem Inv.goes (h : Inv s ls) (pc : Writer) {pc₀ : Writer} (hpc : s.writers i = pc₀) (hr : pc.reads = pc₀.reads)
    (hw : pc.writes = pc₀.writes) (hok : WriterOk s ls pc) (hhand : pc.hand = pc₀.hand)
    (hown : pc.own = none) : Inv (s.goto i pc) ls := by
  subst hpc
  exact h.moves_of_subset pc (accounts_goto h.locks hr hw) hok hhand hown fun _ hp => hr ▸ hp

/-- A writer releases a lock for reading. -/
theorem Inv.unlocks (h : Inv s ls) (pc : Writer) {pc₀ : Writer} (hpc : s.writers i = pc₀)
    (hr : pc₀.reads.Perm (p :: pc.reads)) (hw : pc.writes = pc₀.writes) (hok : WriterOk s ls pc)
    (hhand : pc.hand = pc₀.hand) (hown : pc.own = none) :
    Inv ((s.setLock p ((s.lock p).readUnlock (.writer i))).goto i pc) ls := by
  subst hpc
  exact h.moves_of_subset pc (accounts_readUnlock h.locks hr hw) hok hhand hown fun _ hp =>
    hr.mem_iff.2 (List.mem_cons_of_mem p hp)

/-- The lock of the next pointer: the reader is not at the group behind it. -/
theorem Inv.moves_acquire (h : Inv s ls) {held : Option Ptr} (hpc : s.writers i = .acquire p held)
    (hl : (s.lock p).readLock (.writer i) = some l) : Inv ((s.setLock p l).goto i (.read p held)) ls := by
  have hok := h.writers i
  rw [hpc] at hok
  have hreads : (s.writers i).reads = held.toList := by rw [hpc]; rfl
  refine h.moves (accounts_readLock h.locks hl (by rw [hreads]; rfl) (by rw [hpc]; rfl)) hok
    (by rw [hpc]; rfl) rfl fun q g nextNode hr hat hmem => ?_
  have hreader := h.reader
  rw [hr] at hreader
  rcases List.mem_cons.1 hmem with heq | hheld
  · -- the writer would come from the pointer that the reader has locked
    cases held with
    | none =>
      obtain rfl : p = .head := hok
      cases heq
    | some q' =>
      obtain ⟨g', hp, hat'⟩ := hok
      obtain rfl : g = g' := Ptr.next.inj (heq.trans hp)
      obtain rfl := hat.unique hat' h.linked
      have hw : q ∈ s.writes .reader := by
        change q ∈ s.reader.writes
        rw [hr]
        exact List.mem_cons_self
      have hnot : q ∉ (s.writers i).reads := h.locks.not_mem_reads hw (.writer i)
      rw [hreads] at hnot
      exact hnot List.mem_cons_self
  · exact hreader.2.2.2.2 i (hreads ▸ hheld)

/-! ## A block is moved -/

/-- **A block is moved** between a list of a group and a writer. -/
theorem Inv.movesBlock (h : Inv s ls) (hr : pc.reads = (s.writers i).reads)
    (hw : pc.writes = (s.writers i).writes) (hok : WriterOk ((s.setData g d).goto i pc) ls pc)
    (hown : ∀ g', pc.own = some g' → (s.writers i).own = some g')
    (hothers : ∀ j ≠ i, (s.writers j).own ≠ some g) (hpool : g ∉ s.pool)
    (hvictim : s.reader.victim = some g → d.used = (s.data g).used ∧ d.stage = (s.data g).stage)
    (hhand : ∀ g' b, g' ≠ g → (s.writers i).hand = some (g', b) → pc.hand = some (g', b))
    (hblocks : ∀ b, b ∈ (s.data g).used ∨ b ∈ (s.data g).stage ∨ b ∈ (s.data g).free ∨
        (s.writers i).hand = some (g, b) →
      b ∈ d.used ∨ b ∈ d.stage ∨ b ∈ d.free ∨ pc.hand = some (g, b)) :
    Inv ((s.setData g d).goto i pc) ls := by
  have hdata : ∀ g' ≠ g, (Function.update s.data g d) g' = s.data g' := fun g' hg' =>
    Function.update_of_ne hg' _ _
  refine h.of_writer rfl rfl h.linked (accounts_of_writers h.locks rfl rfl rfl hr hw) h.le ?_ h.pool_nodup ?_
    (fun j hj => ⟨fun p _ hlive => ⟨hlive, rfl⟩, fun g' hg' hdet => ⟨⟨hdet.1, hdet.2, hdet.3⟩, rfl, ?_⟩⟩) ?_ ?_
  · intro g' hg'
    obtain ⟨hnot, hle, hvac⟩ := h.pool g' hg'
    refine ⟨hnot, hle, ?_⟩
    have hne : g' ≠ g := fun heq => hpool (heq ▸ hg')
    change ((Function.update s.data g d) g').used = [] ∧ ((Function.update s.data g d) g').stage = []
    rw [hdata g' hne]
    exact hvac
  · intro g' hg' b hb
    change b ∈ ((Function.update s.data g d) g').used ∨ b ∈ ((Function.update s.data g d) g').stage ∨
      b ∈ ((Function.update s.data g d) g').free ∨ ∃ j, ((Function.update s.writers i pc) j).hand = some (g', b)
    have hother : ∀ j ≠ i, (s.writers j).hand = some (g', b) →
        ∃ j, ((Function.update s.writers i pc) j).hand = some (g', b) := fun j hj hand =>
      ⟨j, by rwa [Function.update_of_ne hj]⟩
    have hself : pc.hand = some (g', b) →
        ∃ j, ((Function.update s.writers i pc) j).hand = some (g', b) := fun hand =>
      ⟨i, by rwa [Function.update_self]⟩
    rcases eq_or_ne g' g with rfl | hne
    · rw [Function.update_self]
      have hold := hblocks b
      rcases h.blocks g' hg' b hb with hin | hin | hin | ⟨j, hj⟩
      · exact (hold (.inl hin)).imp_right (Or.imp_right (Or.imp_right hself))
      · exact (hold (.inr (.inl hin))).imp_right (Or.imp_right (Or.imp_right hself))
      · exact (hold (.inr (.inr (.inl hin)))).imp_right (Or.imp_right (Or.imp_right hself))
      · rcases eq_or_ne j i with rfl | hji
        · exact (hold (.inr (.inr (.inr hj)))).imp_right (Or.imp_right (Or.imp_right hself))
        · exact .inr (.inr (.inr (hother j hji hj)))
    · rw [hdata g' hne]
      refine (h.blocks g' hg' b hb).imp_right (Or.imp_right (Or.imp_right ?_))
      rintro ⟨j, hj⟩
      rcases eq_or_ne j i with rfl | hji
      · exact hself (hhand g' b hne hj)
      · exact hother j hji hj
  · exact hdata g' fun heq => hothers j hj (heq ▸ hg')
  · exact hok
  · refine ⟨rfl, rfl, rfl, fun g hg => ⟨hg, rfl⟩, fun a b hb => hb, fun _ => rfl, fun g' hg' => ?_,
      fun g' hg' hdet hnone => ⟨⟨hdet.1, hdet.2, hdet.3⟩, own_update_ne hnone fun hpc => hnone i (hown g' hpc)⟩, ?_⟩
    · change ((Function.update s.data g d) g').used = _ ∧ ((Function.update s.data g d) g').stage = _
      rcases eq_or_ne g' g with rfl | hne
      · rw [Function.update_self]
        exact hvictim hg'
      · rw [hdata g' hne]
        exact ⟨rfl, rfl⟩
    · intro p g' nextNode hreader _ hnot
      exact reads_update_not_mem hnot (hr ▸ hnot i)

/-! ## The steps -/

/-- A group from which a writer holds a block is linked, or is about to be. -/
theorem Inv.mem_of_hand (h : Inv s ls) (hand : (s.writers i).hand = some (g, b)) :
    g ∈ ls ∨ (s.writers i).own = some g := by
  have hok := h.writers i
  cases hpc : s.writers i <;> rw [hpc] at hand hok <;> cases hand
  case push => exact .inl (At.mem hok h.linked)
  case pushHead => exact .inl (At.mem (p := .head) ⟨trivial, hok⟩ h.linked)
  case link => exact .inr rfl
  case linkHead => exact .inr rfl

/-- The reader does not look at a group at which a writer is. -/
theorem Inv.victim_ne (h : Inv s ls) (hat : At s ls p g)
    (hp : p ∈ (s.writers i).reads ∨ p ∈ (s.writers i).writes) : s.reader.victim ≠ some g := fun hv => by
  have hconflict : ∀ q, q ∈ s.reader.writes → ¬ At s ls q g := fun q hq hat' => by
    obtain rfl := hat.unique hat' h.linked
    rcases hp with hp | hp
    · exact h.locks.not_mem_reads (show p ∈ s.writes .reader from hq) (.writer i) hp
    · have heq := h.locks.eq_of_mem_writes (show p ∈ s.writes .reader from hq)
        (show p ∈ s.writes (.writer i) from hp)
      cases heq
  have hmem := hat.mem h.linked
  have hok := h.reader
  cases hr : s.reader <;> rw [hr] at hv hok hconflict <;> cases hv
  case checkStage => exact hconflict _ List.mem_cons_self hok.2.1
  case lockNext => exact hconflict _ List.mem_cons_self hok.2.1
  case readNext => exact hconflict _ (List.mem_cons_of_mem _ List.mem_cons_self) hok.2.1
  case unlockNext => exact hconflict _ (List.mem_cons_of_mem _ List.mem_cons_self) hok.2.1
  case unlink => exact hconflict _ List.mem_cons_self hok.2.1
  case unlockLast => exact hok.detached.not_linked hmem
  case pushPool => exact hok.detached.not_linked hmem

/-- The reader only looks at groups that there are. -/
theorem Inv.victim_le (h : Inv s ls) (hv : s.reader.victim = some g) : g ≤ s.groupIndex := by
  have hvisit : Visits s ls g → g ≤ s.groupIndex := fun hvis => h.le g (hvis.onward g rfl).1
  have hok := h.reader
  cases hr : s.reader <;> rw [hr] at hv hok <;> cases hv
  case unlockLast => exact hok.detached.le
  case pushPool => exact hok.detached.le
  all_goals exact hvisit hok.1

/-- A writer at a group of the list pops a block. -/
theorem Inv.popsBlock (h : Inv s ls) (pc : Writer) {pc₀ : Writer} (hpc : s.writers i = pc₀)
    (hunique : ∀ j ≠ i, (s.writers j).own ≠ some g) (hpool : g ∉ s.pool) {rest : List ℕ}
    (hfree : (s.data g).free = b :: rest) (hr : pc.reads = pc₀.reads) (hw : pc.writes = pc₀.writes)
    (hok : WriterOk ((s.setData g { s.data g with free := rest }).goto i pc) ls pc)
    (hown : ∀ g', pc.own = some g' → pc₀.own = some g') (hnone : pc₀.hand = none)
    (hhand : pc.hand = some (g, b)) : Inv ((s.setData g { s.data g with free := rest }).goto i pc) ls := by
  subst hpc
  refine h.movesBlock hr hw hok hown hunique hpool (fun _ => ⟨rfl, rfl⟩)
    (fun g' b' _ hold => by rw [hnone] at hold; cases hold) fun b' hold => ?_
  rw [hfree, hnone] at hold
  rw [hhand]
  rcases hold with hin | hin | hin | hin
  · exact .inl hin
  · exact .inr (.inl hin)
  · rcases List.mem_cons.1 hin with rfl | hin
    · exact .inr (.inr (.inr rfl))
    · exact .inr (.inr (.inl hin))
  · cases hin

/-- A writer at a group of the list pushes its block to the stage. -/
theorem Inv.pushesBlock (h : Inv s ls) (pc : Writer) {pc₀ : Writer} (hpc : s.writers i = pc₀) (hat : At s ls p g)
    (hp : p ∈ pc₀.reads ∨ p ∈ pc₀.writes) (hr : pc.reads = pc₀.reads) (hw : pc.writes = pc₀.writes)
    (hok : WriterOk ((s.setData g { s.data g with stage := b :: (s.data g).stage }).goto i pc) ls pc)
    (hown : pc.own = none) (hhand : pc₀.hand = some (g, b)) :
    Inv ((s.setData g { s.data g with stage := b :: (s.data g).stage }).goto i pc) ls := by
  subst hpc
  have hmem := hat.mem h.linked
  refine h.movesBlock hr hw hok (fun g' hg' => by rw [hown] at hg'; cases hg')
    (fun j _ hj => ((h.writers j).detached hj).not_linked hmem) (fun hpool => (h.pool g hpool).1 hmem)
    (fun hv => absurd hv (h.victim_ne hat hp)) (fun g' b' hne hold => ?_) fun b' hold => ?_
  · rw [hhand] at hold
    cases hold
    exact absurd rfl hne
  · rw [hhand] at hold
    rcases hold with hin | hin | hin | hin
    · exact .inl hin
    · exact .inr (.inl (List.mem_cons_of_mem b hin))
    · exact .inr (.inr (.inl hin))
    · cases hin
      exact .inr (.inl List.mem_cons_self)

/-- A writer takes a group out of the pool. -/
theorem Inv.takesPool (h : Inv s ls) (hpc : s.writers i = .takePool) {rest : List ℕ}
    (hpool : s.pool = g :: rest) : Inv ({ s with pool := rest }.goto i (.fresh g)) ls := by
  have hw : (s.writers i).writes = [.head] := by rw [hpc]; rfl
  have hsub : ∀ g' ∈ rest, g' ∈ s.pool := fun g' hg' => hpool ▸ List.mem_cons_of_mem g hg'
  have hmem : g ∈ s.pool := hpool ▸ List.mem_cons_self
  obtain ⟨hnot, hle, hvac⟩ := h.pool g hmem
  have hnodup := h.pool_nodup
  rw [hpool, List.nodup_cons] at hnodup
  refine h.of_writer rfl rfl h.linked
    (accounts_of_writers h.locks rfl rfl rfl (by rw [hpc]; rfl) (by rw [hpc]; rfl)) h.le
    (fun g' hg' => h.pool g' (hsub g' hg')) hnodup.2 ?_
    (fun j hj => ⟨fun p _ hlive => ⟨hlive, rfl⟩, fun g' hg' => absurd (h.own_unique hw hg') hj⟩)
    ⟨⟨hnot, hnodup.1, hle⟩, hvac⟩ ?_
  · intro g' hg' b hb
    refine (h.blocks g' hg' b hb).imp_right (Or.imp_right (Or.imp_right ?_))
    rintro ⟨j, hj⟩
    have hji : j ≠ i := fun heq => by
      rw [heq, hpc] at hj
      cases hj
    refine ⟨j, ?_⟩
    change (Function.update s.writers i _ j).hand = _
    rwa [Function.update_of_ne hji]
  · refine ⟨rfl, rfl, rfl, fun g hg => ⟨hg, rfl⟩, fun a b hb => hb, fun _ => rfl, fun g _ => ⟨rfl, rfl⟩,
      fun g' _ hdet hnone => ⟨⟨hdet.1, fun hin => hdet.2 (hsub g' hin), hdet.3⟩, own_update_ne hnone ?_⟩,
      fun p g' nextNode _ _ hnot => reads_update_not_mem hnot (by nofun)⟩
    intro heq
    obtain rfl := Option.some.inj heq
    exact hdet.2 hmem

/-- A writer creates a group. -/
theorem Inv.createsGroup (h : Inv s ls) (hpc : s.writers i = .takePool) (hpool : s.pool = []) :
    Inv (({ s with groupIndex := s.groupIndex + 1 }.setData (s.groupIndex + 1) DataHead.fresh).goto i
      (.fresh (s.groupIndex + 1))) ls := by
  have hw : (s.writers i).writes = [.head] := by rw [hpc]; rfl
  have hdata : ∀ g ≤ s.groupIndex, Function.update s.data (s.groupIndex + 1) DataHead.fresh g = s.data g :=
    fun g hg => Function.update_of_ne (by omega) _ _
  refine h.of_writer rfl rfl h.linked (accounts_of_writers h.locks rfl rfl rfl
    (by rw [hpc]; rfl) (by rw [hpc]; rfl)) (fun g hg => Nat.le_succ_of_le (h.le g hg)) ?_ h.pool_nodup ?_
    (fun j hj => ⟨fun p _ hlive => ⟨hlive, rfl⟩, fun g' hg' => absurd (h.own_unique hw hg') hj⟩) ?_ ?_
  · intro g hg
    change g ∈ s.pool at hg
    rw [hpool] at hg
    cases hg
  · intro g hg b hb
    change b ∈ (Function.update s.data (s.groupIndex + 1) DataHead.fresh g).used ∨
      b ∈ (Function.update s.data (s.groupIndex + 1) DataHead.fresh g).stage ∨
      b ∈ (Function.update s.data (s.groupIndex + 1) DataHead.fresh g).free ∨ _
    rcases Nat.lt_or_ge s.groupIndex g with hlt | hle
    · obtain rfl : g = s.groupIndex + 1 := Nat.le_antisymm hg hlt
      rw [Function.update_self]
      exact .inr (.inr (.inl (List.mem_range.2 hb)))
    · rw [hdata g hle]
      refine (h.blocks g hle b hb).imp_right (Or.imp_right (Or.imp_right ?_))
      rintro ⟨j, hj⟩
      have hji : j ≠ i := fun heq => by
        rw [heq, hpc] at hj
        cases hj
      refine ⟨j, ?_⟩
      change (Function.update s.writers i _ j).hand = _
      rwa [Function.update_of_ne hji]
  · refine ⟨⟨fun hin => ?_, fun hin => ?_, Nat.le_refl _⟩, ?_⟩
    · have := h.le _ hin
      omega
    · change _ ∈ s.pool at hin
      rw [hpool] at hin
      cases hin
    · change (Function.update s.data (s.groupIndex + 1) DataHead.fresh (s.groupIndex + 1)).used = [] ∧
        (Function.update s.data (s.groupIndex + 1) DataHead.fresh (s.groupIndex + 1)).stage = []
      rw [Function.update_self]
      exact ⟨rfl, rfl⟩
  · refine ⟨rfl, rfl, rfl, fun g hg => ⟨hg, rfl⟩, fun a b hb => hb, fun _ => rfl, fun g hg => ?_,
      fun g' _ hdet hnone => ⟨⟨hdet.1, hdet.2, Nat.le_succ_of_le hdet.3⟩, own_update_ne hnone ?_⟩,
      fun p g' nextNode _ _ hnot => reads_update_not_mem hnot (by nofun)⟩
    · change (Function.update s.data (s.groupIndex + 1) DataHead.fresh g).used = _ ∧
        (Function.update s.data (s.groupIndex + 1) DataHead.fresh g).stage = _
      rw [hdata g (h.victim_le hg)]
      exact ⟨rfl, rfl⟩
    · intro heq
      obtain rfl := Option.some.inj heq
      have := hdet.le
      omega

/-- What a store of a writer to a pointer leaves as it is. -/
theorem Inv.hand_goto (h : Inv s ls) (hhand : pc.hand = (s.writers i).hand) : ∀ g ≤ s.groupIndex,
    ∀ b < maxBlockCountPerGroup, b ∈ (s.data g).used ∨ b ∈ (s.data g).stage ∨ b ∈ (s.data g).free ∨
      ∃ j, (Function.update s.writers i pc j).hand = some (g, b) := fun g hg b hb => by
  refine (h.blocks g hg b hb).imp_right (Or.imp_right (Or.imp_right ?_))
  rintro ⟨j, hj⟩
  refine ⟨j, ?_⟩
  rcases eq_or_ne j i with rfl | hne
  · rw [Function.update_self]
    exact hhand.trans hj
  · rwa [Function.update_of_ne hne]

/-- The pointer of a group is set before the group is linked. -/
theorem Inv.links (h : Inv s ls) (hpc : s.writers i = .link g b) :
    Inv ((s.setNode (.next g) (s.node .head)).goto i (.linkHead g b)) ls := by
  have hw : (s.writers i).writes = [.head] := by rw [hpc]; rfl
  have hok := h.writers i
  rw [hpc] at hok
  have hdet : Detached s ls g := hok
  have hnext : ∀ a ∈ ls, Function.update s.node (.next g) (s.node .head) (.next a) = s.node (.next a) :=
    fun a ha => Function.update_of_ne (fun heq : Ptr.next a = .next g =>
      hdet.not_linked (Ptr.next.inj heq ▸ ha)) _ _
  have hhead : Function.update s.node (.next g) (s.node .head) .head = s.node .head :=
    Function.update_of_ne (show Ptr.head ≠ .next g from nofun) _ _
  refine h.of_writer rfl rfl ?_ (accounts_of_writers h.locks rfl rfl rfl (by rw [hpc]; rfl) (by rw [hpc]; rfl)) h.le h.pool h.pool_nodup (h.hand_goto (by rw [hpc]; rfl))
    (fun j hj => ⟨fun p _ hlive => ⟨hlive, ?_⟩, fun g' hg' => absurd (h.own_unique hw hg') hj⟩) ?_ ?_
  · change IsChain (fun a => Function.update s.node (.next g) (s.node .head) (.next a))
      (Function.update s.node (.next g) (s.node .head) .head) ls
    rw [hhead]
    exact h.linked.congr hnext
  · cases p with
    | head => exact hhead
    | next a => exact hnext a hlive
  · refine ⟨⟨hdet.1, hdet.2, hdet.3⟩, ?_⟩
    change Function.update s.node (.next g) (s.node .head) (.next g) =
      Function.update s.node (.next g) (s.node .head) .head
    rw [Function.update_self, hhead]
  · exact ⟨rfl, rfl, rfl, fun a ha => ⟨ha, hnext a ha⟩, fun a b hb => hb, fun _ => hhead,
      fun g _ => ⟨rfl, rfl⟩, fun g' _ hdet' hnone => ⟨⟨hdet'.1, hdet'.2, hdet'.3⟩,
        own_update_ne hnone fun heq => hnone i (by rw [hpc]; exact heq)⟩,
      fun p g' nextNode _ _ hnot => reads_update_not_mem hnot (by nofun)⟩

/-- The group is linked in front. -/
theorem Inv.linksHead (h : Inv s ls) (hpc : s.writers i = .linkHead g b) :
    Inv ((s.setNode .head (some g)).goto i (.pushHead g b)) (g :: ls) := by
  have hw : (s.writers i).writes = [.head] := by rw [hpc]; rfl
  have hwi : Ptr.head ∈ s.writes (.writer i) := by
    change Ptr.head ∈ (s.writers i).writes
    rw [hw]
    exact List.mem_cons_self
  have hok := h.writers i
  rw [hpc] at hok
  obtain ⟨hdet, hlink⟩ := hok
  have hnext : ∀ a, Function.update s.node .head (some g) (.next a) = s.node (.next a) := fun a =>
    Function.update_of_ne (show Ptr.next a ≠ .head from nofun) _ _
  refine h.of_writer rfl rfl ?_ (accounts_of_writers h.locks rfl rfl rfl (by rw [hpc]; rfl) (by rw [hpc]; rfl)) ?_ ?_ h.pool_nodup (h.hand_goto (by rw [hpc]; rfl))
    (fun j hj => ⟨fun p hp hlive => ?_, fun g' hg' => absurd (h.own_unique hw hg') hj⟩) ?_ ?_
  · change IsChain (fun a => Function.update s.node .head (some g) (.next a))
      (Function.update s.node .head (some g) .head) (g :: ls)
    rw [Function.update_self]
    refine ⟨rfl, ?_⟩
    simp only [hnext]
    rw [hlink]
    exact h.linked
  · intro a ha
    rcases List.mem_cons.1 ha with rfl | ha
    · exact hdet.le
    · exact h.le a ha
  · intro g' hg'
    obtain ⟨hnot, hle, hvac⟩ := h.pool g' hg'
    refine ⟨fun hin => ?_, hle, hvac⟩
    rcases List.mem_cons.1 hin with rfl | hin
    · exact hdet.not_pooled hg'
    · exact hnot hin
  · cases p with
    | head =>
      -- the head is locked by this writer
      rcases hp with hp | hp
      · exact absurd hp (h.locks.not_mem_reads hwi (.writer j))
      · exact absurd (Party.writer.inj (h.locks.eq_of_mem_writes hp hwi)) hj
    | next a => exact ⟨List.mem_cons_of_mem g hlive, hnext a⟩
  · change Function.update s.node .head (some g) .head = some g
    rw [Function.update_self]
  · refine ⟨rfl, rfl, rfl, fun a ha => ⟨List.mem_cons_of_mem g ha, hnext a⟩, fun a b hb => hb.cons g, fun hp => ?_,
      fun g _ => ⟨rfl, rfl⟩, fun g' _ hdet' hnone => ⟨⟨fun hin => ?_, hdet'.2, hdet'.3⟩,
        own_update_ne hnone (by nofun)⟩,
      fun p g' nextNode _ _ hnot => reads_update_not_mem hnot (by nofun)⟩
    · have heq := h.locks.eq_of_mem_writes (show Ptr.head ∈ s.writes .reader from hp) hwi
      cases heq
    · rcases List.mem_cons.1 hin with rfl | hin
      · exact hnone i (by rw [hpc]; rfl)
      · exact hdet'.1 hin

/-- The group of a writer that has the head locked and no linked group holds all of its blocks. -/
theorem Inv.free_ne_nil (h : Inv s ls) (hpc : s.writers i = .fresh g) : (s.data g).free ≠ [] := by
  have hok := h.writers i
  rw [hpc] at hok
  obtain ⟨hdet, hused, hstage⟩ := hok
  intro hfree
  rcases h.blocks g hdet.le 0 (by decide) with hin | hin | hin | ⟨j, hj⟩
  · rw [hused] at hin
    cases hin
  · rw [hstage] at hin
    cases hin
  · rw [hfree] at hin
    cases hin
  · rcases h.mem_of_hand hj with hin | hown
    · exact hdet.not_linked hin
    · obtain rfl := h.own_unique (by rw [hpc]; rfl) hown
      rw [hpc] at hj
      cases hj

/-- Nobody else is about to link a linked group. -/
theorem Inv.own_ne (h : Inv s ls) (hg : g ∈ ls) (j : ℕ) : (s.writers j).own ≠ some g := fun hj =>
  ((h.writers j).detached hj).not_linked hg

/-- **The steps of the writers keep the invariant**, and every linked group stays linked. -/
theorem Inv.writerStep (h : Inv s ls) (hs : writerStep s i = some s') :
    ∃ ls', Inv s' ls' ∧ ∀ g ∈ ls, g ∈ ls' := by
  have hok := h.writers i
  have hstay : ∀ {t : State}, Inv t ls → t = s' → ∃ ls', Inv s' ls' ∧ ∀ g ∈ ls, g ∈ ls' := fun ht heq =>
    ⟨ls, heq ▸ ht, fun _ hg => hg⟩
  cases hpc : s.writers i with
  | idle =>
    simp only [GroupList.writerStep, hpc, Option.some.injEq] at hs
    exact hstay (h.goes (.acquire .head none) hpc rfl rfl rfl rfl rfl) hs
  | acquire p held =>
    simp only [GroupList.writerStep, hpc] at hs
    obtain ⟨l, hl, rfl⟩ := Option.map_eq_some_iff.1 hs
    exact hstay (h.moves_acquire hpc hl) rfl
  | read p held =>
    rw [hpc] at hok
    have hlive := Ahead.live hok h.linked
    simp only [GroupList.writerStep, hpc] at hs
    split at hs
    · rename_i g hnode
      exact hstay (h.goes (.pop p g) hpc rfl rfl ⟨hlive, hnode⟩ rfl rfl) (Option.some.inj hs)
    · rename_i g q hnode
      obtain ⟨g', rfl, hat⟩ := hok
      exact hstay (h.goes (.releaseHeld q _ g) hpc rfl rfl ⟨hat.1, hlive, hnode⟩ rfl rfl)
        (Option.some.inj hs)
    · exact hstay (h.goes (.releaseEnd p _) hpc rfl rfl hok rfl rfl) (Option.some.inj hs)
  | releaseHeld q p g =>
    rw [hpc] at hok
    simp only [GroupList.writerStep, hpc, Option.some.injEq] at hs
    exact hstay (h.unlocks (.pop p g) hpc (List.Perm.swap q p []) rfl hok.2 rfl rfl) hs
  | releaseEnd p held =>
    rw [hpc] at hok
    simp only [GroupList.writerStep, hpc, Option.some.injEq] at hs
    cases held with
    | none => exact hstay (h.unlocks .lockHead hpc (List.Perm.refl _) rfl trivial rfl rfl) hs
    | some q =>
      obtain ⟨g, rfl, hat⟩ := hok
      exact hstay (h.unlocks (.releaseLast q) hpc (List.Perm.refl _) rfl hat.1 rfl rfl) hs
  | releaseLast q =>
    simp only [GroupList.writerStep, hpc, Option.some.injEq] at hs
    exact hstay (h.unlocks .lockHead hpc (List.Perm.refl _) rfl trivial rfl rfl) hs
  | pop p g =>
    rw [hpc] at hok
    have hmem := At.mem hok h.linked
    simp only [GroupList.writerStep, hpc] at hs
    split at hs
    · exact hstay (h.goes (.acquire (.next g) (some p)) hpc rfl rfl ⟨g, rfl, hok⟩ rfl rfl)
        (Option.some.inj hs)
    · rename_i b rest hfree
      exact hstay (h.popsBlock (.push p g b) hpc (fun j _ => h.own_ne hmem j)
        (fun hin => (h.pool g hin).1 hmem) hfree rfl rfl hok (by nofun) rfl rfl) (Option.some.inj hs)
  | push p g b =>
    rw [hpc] at hok
    simp only [GroupList.writerStep, hpc, Option.some.injEq] at hs
    exact hstay (h.pushesBlock (.leave p) hpc hok (.inl List.mem_cons_self) rfl rfl hok.1 rfl rfl) hs
  | leave p =>
    simp only [GroupList.writerStep, hpc, Option.some.injEq] at hs
    exact hstay (h.unlocks .idle hpc (List.Perm.refl _) rfl trivial rfl rfl) hs
  | lockHead =>
    simp only [GroupList.writerStep, hpc] at hs
    obtain ⟨l, hl, rfl⟩ := Option.map_eq_some_iff.1 hs
    refine hstay (h.moves_of_subset .headLocked (accounts_writeLock h.locks hl ?_ ?_) trivial ?_ rfl
      (List.nil_subset _)) rfl
    all_goals
      rw [hpc]
      rfl
  | headLocked =>
    simp only [GroupList.writerStep, hpc] at hs
    split at hs
    · rename_i g hnode
      exact hstay (h.goes (.headPop g) hpc rfl rfl hnode rfl rfl) (Option.some.inj hs)
    · exact hstay (h.goes .takePool hpc rfl rfl trivial rfl rfl) (Option.some.inj hs)
  | headPop g =>
    rw [hpc] at hok
    have hmem := At.mem (p := .head) ⟨trivial, hok⟩ h.linked
    simp only [GroupList.writerStep, hpc] at hs
    split at hs
    · exact hstay (h.goes .takePool hpc rfl rfl trivial rfl rfl) (Option.some.inj hs)
    · rename_i b rest hfree
      exact hstay (h.popsBlock (.pushHead g b) hpc (fun j _ => h.own_ne hmem j)
        (fun hin => (h.pool g hin).1 hmem) hfree rfl rfl hok (by nofun) rfl rfl) (Option.some.inj hs)
  | takePool =>
    simp only [GroupList.writerStep, hpc] at hs
    split at hs
    · rename_i g rest hpool
      exact hstay (h.takesPool hpc hpool) (Option.some.inj hs)
    · rename_i hpool
      exact hstay (h.createsGroup hpc hpool) (Option.some.inj hs)
  | fresh g =>
    rw [hpc] at hok
    simp only [GroupList.writerStep, hpc] at hs
    split at hs
    · rename_i hfree
      exact absurd hfree (h.free_ne_nil hpc)
    · rename_i b rest hfree
      exact hstay (h.popsBlock (.link g b) hpc (fun j hj hown => hj (h.own_unique (by rw [hpc]; rfl) hown))
        hok.1.not_pooled hfree rfl rfl ⟨hok.1.1, hok.1.2, hok.1.3⟩ (fun _ hg' => hg') rfl rfl)
        (Option.some.inj hs)
  | link g b =>
    simp only [GroupList.writerStep, hpc, Option.some.injEq] at hs
    exact hstay (h.links hpc) hs
  | linkHead g b =>
    simp only [GroupList.writerStep, hpc, Option.some.injEq] at hs
    exact ⟨g :: ls, hs ▸ h.linksHead hpc, fun _ hg => List.mem_cons_of_mem g hg⟩
  | pushHead g b =>
    rw [hpc] at hok
    simp only [GroupList.writerStep, hpc, Option.some.injEq] at hs
    exact hstay (h.pushesBlock .unlockHead hpc (p := .head) ⟨trivial, hok⟩ (.inr List.mem_cons_self)
      rfl rfl trivial rfl rfl) hs
  | unlockHead =>
    simp only [GroupList.writerStep, hpc, Option.some.injEq] at hs
    refine hstay (h.moves_of_subset .idle (accounts_writeUnlock h.locks ?_ ?_) trivial ?_ rfl
      (List.nil_subset _)) hs
    all_goals rw [hpc]
    · rfl
    · exact List.Perm.refl _
    · rfl
  | crashed =>
    rw [hpc] at hok
    exact hok.elim

end QLog.GroupList
