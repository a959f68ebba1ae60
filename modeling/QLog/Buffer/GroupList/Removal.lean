import QLog.Buffer.GroupList.Writers

/-!
# Removing a group is safe

The steps of the reader keep the invariant (`Inv.readerStep`), so it holds in every state of every run from
a state in which no thread is inside an operation (`Inv.of_runs`). What it says about the removal of groups
is collected in `group_removal`: a group is unlinked when all of its blocks are free and no writer is at it,
the other groups stay linked, a writer pops from linked groups only, apart from the group that it is about
to link itself, and the locks are taken as often as they are released and held.
-/

namespace QLog.GroupList

variable {s s' : State} {ls ls' : List ℕ} {p q : Ptr} {g b c : ℕ} {i j : ℕ} {r : Reader} {l : RwLock Party}
  {d : DataHead}

/-! ## The locks of the reader -/

theorem reads_of_writers (hwriters : s'.writers = s.writers) : s'.reads = s.reads := by
  funext P
  cases P with
  | reader => rfl
  | writer j =>
    change (s'.writers j).reads = (s.writers j).reads
    rw [hwriters]

theorem writes_of_writers (hwriters : s'.writers = s.writers) :
    s'.writes = Function.update s.writes .reader s'.reader.writes := by
  funext P
  cases P with
  | reader =>
    rw [Function.update_self]
    rfl
  | writer j =>
    rw [Function.update_of_ne (show Party.writer j ≠ .reader from nofun)]
    change (s'.writers j).writes = (s.writers j).writes
    rw [hwriters]

theorem accounts_of_reader (hwriters : s'.writers = s.writers)
    (h : Accounts s'.lock s.reads (Function.update s.writes .reader s'.reader.writes)) :
    Accounts s'.lock s'.reads s'.writes := by
  rwa [reads_of_writers hwriters, writes_of_writers hwriters]

section Locks

variable (h : Accounts s.lock s.reads s.writes) {w : List Ptr}

include h

/-- The reader goes on with the locks it holds. -/
theorem accounts_reader (hw : w = s.reader.writes) :
    Accounts s.lock s.reads (Function.update s.writes .reader w) := by
  have hself : Function.update s.writes .reader s.reader.writes = s.writes :=
    Function.update_eq_self Party.reader s.writes
  rw [hw, hself]
  exact h

theorem accounts_reader_lock (hl : (s.lock p).writeLock .reader = some l) (hw : w = p :: s.reader.writes) :
    Accounts (Function.update s.lock p l) s.reads (Function.update s.writes .reader w) := by
  rw [hw]
  exact h.writeLock hl

theorem accounts_reader_unlock (hw : s.reader.writes.Perm (p :: w)) :
    Accounts (Function.update s.lock p ((s.lock p).writeUnlock .reader)) s.reads
      (Function.update s.writes .reader w) :=
  h.writeUnlock hw

end Locks

/-! ## The reader goes on -/

/-- **The reader goes on**, and no list changes. -/
theorem Inv.of_reader (h : Inv s ls) (hnode : s'.node = s.node) (hdata : s'.data = s.data)
    (hpool : s'.pool = s.pool) (hindex : s'.groupIndex = s.groupIndex) (hwriters : s'.writers = s.writers)
    (hlocks : Accounts s'.lock s.reads (Function.update s.writes .reader s'.reader.writes))
    (hok : ReaderOk s' ls s'.reader) : Inv s' ls := by
  have hlocks' := accounts_of_reader hwriters hlocks
  obtain ⟨node, lock, data, pool, groupIndex, writers, reader, lastGroup, curGroup, nextGroup⟩ := s'
  simp only at hnode hdata hpool hindex hwriters
  subst hnode hdata hpool hindex hwriters
  exact ⟨h.linked, hlocks', h.le, h.pool, h.pool_nodup, h.blocks, fun j => (h.writers j).frame
    ⟨fun p _ hlive => ⟨hlive, rfl⟩, fun g _ hdet => ⟨⟨hdet.1, hdet.2, hdet.3⟩, rfl, rfl⟩⟩, hok⟩

/-- What the reader relies on does not depend on its locks and its place. -/
theorem ReaderOk.same (h : ReaderOk s ls r) (hnode : s'.node = s.node) (hdata : s'.data = s.data)
    (hpool : s'.pool = s.pool) (hindex : s'.groupIndex = s.groupIndex) (hwriters : s'.writers = s.writers)
    (hlast : s'.lastGroup = s.lastGroup) (hcur : s'.curGroup = s.curGroup)
    (hnext : s'.nextGroup = s.nextGroup) : ReaderOk s' ls r := by
  obtain ⟨node, lock, data, pool, groupIndex, writers, reader, lastGroup, curGroup, nextGroup⟩ := s'
  simp only at hnode hdata hpool hindex hwriters hlast hcur hnext
  subst hnode hdata hpool hindex hwriters hlast hcur hnext
  exact h.frame ⟨rfl, rfl, rfl, fun g hg => ⟨hg, rfl⟩, fun a b hb => hb, fun _ => rfl, fun g _ => ⟨rfl, rfl⟩,
    fun g _ hdet hnone => ⟨⟨hdet.1, hdet.2, hdet.3⟩, hnone⟩, fun _ _ _ _ _ hn => hn⟩

/-- **The reader goes on** inside `rt_try_traverse_to_next_group`. -/
theorem Inv.goesReader (h : Inv s ls) (r : Reader) {L : Ptr → RwLock Party}
    (hlocks : Accounts L s.reads (Function.update s.writes .reader r.writes)) (hok : ReaderOk s ls r) :
    Inv { s with lock := L, reader := r } ls :=
  h.of_reader rfl rfl rfl rfl rfl hlocks (hok.same rfl rfl rfl rfl rfl rfl rfl rfl)

/-- The pointer that the reader locks leads to a group on its way. -/
theorem Toward.found {held : Option Ptr} (ht : Toward s ls c p held) (hv : Visits s ls c)
    (hl : s.Linked ls) : ∃ g, At s ls p g ∧ (g = c ∨ s.lastGroup = none ∧ Behind ls g c) := by
  obtain ⟨hmem, hlast⟩ := hv.onward c rfl
  cases held with
  | none =>
    rcases ht with ⟨hnone, rfl⟩ | ⟨l, hl', rfl⟩
    · obtain ⟨a, ha, hac⟩ := Behind.of_head hl hmem
      exact ⟨a, ⟨trivial, ha⟩, hac.imp_right fun hb => ⟨hnone, hb⟩⟩
    · obtain ⟨hlmem, hnode⟩ := hlast l hl'
      exact ⟨c, ⟨hlmem, hnode⟩, .inl rfl⟩
  | some q =>
    obtain ⟨hnone, g, rfl, hat, hb⟩ := ht
    obtain ⟨a, ha, hac⟩ := hb.of_next hl
    exact ⟨a, ⟨hb.mem, ha⟩, hac.imp_right fun hb => ⟨hnone, hb⟩⟩

theorem reached_ok (hv : Visits s ls c) (hat : At s ls p g)
    (hc : g = c ∨ s.lastGroup = none ∧ Behind ls g c) :
    ReaderOk s ls (reached s p g) ∧ (reached s p g).writes = [p] := by
  unfold reached
  split
  · rename_i hcur
    obtain rfl : c = g := Option.some.inj (hv.curGroup.symm.trans hcur)
    exact ⟨⟨hv, hat⟩, rfl⟩
  · rename_i hcur
    rcases hc with rfl | ⟨hnone, hb⟩
    · exact absurd hv.curGroup hcur
    · rw [if_pos hnone]
      exact ⟨⟨c, hv, hnone, g, rfl, hat, hb⟩, rfl⟩

/-- Behind the current group the reader goes on with the next one. -/
theorem Visits.onward_next (hv : Visits s ls c) (hl : s.Linked ls) :
    ∀ n, s.nextGroup = some n → n ∈ ls ∧ ∀ l, s.curGroup = some l → l ∈ ls ∧ s.node (.next l) = some n := by
  intro n hn
  have hmem := (hv.onward c rfl).1
  have hnode : s.node (.next c) = some n := hv.nextGroup.symm.trans hn
  refine ⟨hl.mem_of_next hmem hnode, fun l hl' => ?_⟩
  obtain rfl : c = l := Option.some.inj (hv.curGroup.symm.trans hl')
  exact ⟨hmem, hnode⟩

/-! ## A group is unlinked -/

theorem next_ne_self (hl : s.Linked ls) (hg : g ∈ ls) : s.node (.next g) ≠ some g := fun hnode => by
  obtain ⟨pre, post, rfl⟩ := List.append_of_mem hg
  have hpost := hl.of_append
  rw [hnode] at hpost
  obtain ⟨rest, rfl, -⟩ := hpost.exists_cons
  have hnodup := (List.nodup_append.1 hl.nodup).2.1
  exact (List.nodup_cons.1 hnodup).1 List.mem_cons_self

/-- **The chain without a group.** -/
theorem linked_setNode (hl : s.Linked ls) (hat : At s ls p g) :
    ∃ ls', (s.setNode p (s.node (.next g))).Linked ls' ∧ ∀ a, a ∈ ls' ↔ a ∈ ls ∧ a ≠ g := by
  obtain ⟨hlive, hnode⟩ := hat
  have hnodup := hl.nodup
  cases p with
  | head =>
    unfold State.Linked at hl
    rw [hnode] at hl
    obtain ⟨rest, rfl, hrest⟩ := hl.exists_cons
    obtain ⟨hnot, -⟩ := List.nodup_cons.1 hnodup
    refine ⟨rest, ?_, fun a => ⟨fun ha => ⟨List.mem_cons_of_mem g ha, fun hag => hnot (hag ▸ ha)⟩,
      fun ⟨ha, hne⟩ => (List.mem_cons.1 ha).resolve_left hne⟩⟩
    change IsChain (fun a => Function.update s.node .head (s.node (.next g)) (.next a))
      (Function.update s.node .head (s.node (.next g)) .head) rest
    rw [Function.update_self]
    exact hrest.congr fun a _ => Function.update_of_ne (show Ptr.next a ≠ .head from nofun) _ _
  | next a =>
    obtain ⟨pre, post, rfl⟩ := List.append_of_mem hlive
    have hpost := hl.of_append
    rw [hnode] at hpost
    obtain ⟨rest, rfl, -⟩ := hpost.exists_cons
    have hremove := IsChain.remove hl
    have hsplit : pre ++ a :: g :: rest = (pre ++ [a]) ++ g :: rest := by
      rw [List.append_assoc, List.singleton_append]
    have hperm : (pre ++ a :: g :: rest).Perm (g :: (pre ++ a :: rest)) := by
      rw [hsplit, show pre ++ a :: rest = (pre ++ [a]) ++ rest by
        rw [List.append_assoc, List.singleton_append]]
      exact List.perm_middle
    have hnot := (List.nodup_cons.1 (hperm.nodup_iff.1 hnodup)).1
    refine ⟨pre ++ a :: rest, ?_, fun x => ?_⟩
    · have hupdate : (fun x => Function.update s.node (.next a) (s.node (.next g)) (.next x)) =
          Function.update (fun x => s.node (.next x)) a (s.node (.next g)) := by
        funext x
        rcases eq_or_ne x a with rfl | hx
        · rw [Function.update_self, Function.update_self]
        · rw [Function.update_of_ne hx, Function.update_of_ne fun heq => hx (Ptr.next.inj heq)]
      change IsChain (fun x => Function.update s.node (.next a) (s.node (.next g)) (.next x))
        (Function.update s.node (.next a) (s.node (.next g)) .head) _
      rw [hupdate, Function.update_of_ne (show Ptr.head ≠ .next a from nofun)]
      exact hremove
    · rw [hperm.mem_iff, List.mem_cons]
      exact ⟨fun hx => ⟨.inr hx, fun hxg => hnot (hxg ▸ hx)⟩, fun ⟨hx, hne⟩ => hx.resolve_left hne⟩

/-- **The reader unlinks a group.** -/
theorem Inv.unlinks (h : Inv s ls) {nextNode : Option ℕ} (hr : s.reader = .unlink p g nextNode) :
    ∃ ls', Inv ((s.setNode p nextNode).gotoReader (.unlockLast p g)) ls' ∧
      ∀ a, a ∈ ls' ↔ a ∈ ls ∧ a ≠ g := by
  have hok := h.reader
  rw [hr] at hok
  obtain ⟨hv, hat, hvac, rfl, hreads⟩ := hok
  have hg : g ∈ ls := hat.mem h.linked
  have hp : p ∈ s.writes .reader := by
    change p ∈ s.reader.writes
    rw [hr]
    exact List.mem_cons_self
  obtain ⟨ls', hlinked, hmem⟩ := linked_setNode h.linked hat
  refine ⟨ls', ⟨hlinked, accounts_of_reader (s := s) rfl (accounts_reader h.locks (by rw [hr]; rfl)), fun a ha => h.le a ((hmem a).1 ha).1,
    fun a ha => ?_, h.pool_nodup, h.blocks, fun j => (h.writers j).frame ⟨fun q hq hlive => ?_,
      fun a _ hdet => ⟨⟨fun ha => hdet.1 ((hmem a).1 ha).1, hdet.2, hdet.3⟩, ?_, rfl⟩⟩, ?_⟩, hmem⟩
  · obtain ⟨hnot, hle, hvac⟩ := h.pool a ha
    exact ⟨fun ha => hnot ((hmem a).1 ha).1, hle, hvac⟩
  · -- a pointer that a writer has locked is neither the one that is written, nor in the group
    have hqp : q ≠ p := fun heq => by
      subst heq
      rcases hq with hq | hq
      · exact h.locks.not_mem_reads hp (.writer j) hq
      · have heq := h.locks.eq_of_mem_writes hp (show q ∈ s.writes (.writer j) from hq)
        cases heq
    refine ⟨?_, Function.update_of_ne hqp _ _⟩
    cases q with
    | head => trivial
    | next a =>
      refine (hmem a).2 ⟨hlive, fun hag => ?_⟩
      subst hag
      rcases hq with hq | hq
      · exact hreads j hq
      · cases hpc : s.writers j <;> rw [hpc] at hq <;> cases hq <;> rename_i hq <;> cases hq
  · refine Function.update_of_ne (fun heq : Ptr.next a = p => ?_) _ _
    subst heq
    exact hdet.1 hat.1
  · refine ⟨⟨fun hin => ((hmem g).1 hin).2 rfl, fun hin => (h.pool g hin).1 hg, h.le g hg⟩, hvac,
      fun j => h.own_ne hg j, fun n hn => ?_⟩
    have hn' : s.node (.next g) = some n := hv.nextGroup.symm.trans hn
    have hng : n ≠ g := fun heq => next_ne_self h.linked hg (heq ▸ hn')
    refine ⟨(hmem n).2 ⟨h.linked.mem_of_next hg hn', hng⟩, fun l hl => ?_⟩
    obtain ⟨hlmem, hlnode⟩ := (hv.onward g rfl).2 l hl
    have hlg : l ≠ g := fun heq => next_ne_self h.linked hg (heq ▸ hlnode)
    obtain rfl : p = .next l := hat.unique ⟨hlmem, hlnode⟩ h.linked
    refine ⟨(hmem l).2 ⟨hlmem, hlg⟩, ?_⟩
    change Function.update s.node (.next l) (s.node (.next g)) (.next l) = some n
    rw [Function.update_self]
    exact hn'

/-- The removed group is pushed to the pool. -/
theorem Inv.pushesPool (h : Inv s ls) (hr : s.reader = .pushPool g) :
    Inv (finishTraverse { s with pool := g :: s.pool } true) ls := by
  have hok := h.reader
  rw [hr] at hok
  obtain ⟨hdet, hvac, hown, honward⟩ := hok
  refine ⟨h.linked, accounts_of_reader (s := s) rfl (accounts_reader h.locks (by rw [hr]; rfl)), h.le, fun a ha => ?_,
    List.nodup_cons.2 ⟨hdet.not_pooled, h.pool_nodup⟩, h.blocks, fun j => (h.writers j).frame
      ⟨fun q _ hlive => ⟨hlive, rfl⟩, fun a ha hdet' => ⟨⟨hdet'.1, fun hin => ?_, hdet'.3⟩, rfl, rfl⟩⟩, honward⟩
  · rcases List.mem_cons.1 ha with rfl | ha
    · exact ⟨hdet.not_linked, hdet.le, hvac⟩
    · exact h.pool a ha
  · rcases List.mem_cons.1 hin with rfl | hin
    · exact hown j ha
    · exact hdet'.2 hin

/-- The reader changes the lists of its current group, and leaves every block in one of them. -/
theorem Inv.setsData (h : Inv s ls) (hr : s.reader = .idle) (hcur : s.curGroup = some c)
    (hblocks : ∀ b, b ∈ (s.data c).used ∨ b ∈ (s.data c).stage ∨ b ∈ (s.data c).free →
      b ∈ d.used ∨ b ∈ d.stage ∨ b ∈ d.free) : Inv (s.setData c d) ls := by
  have hok := h.reader
  rw [hr] at hok
  have hc : c ∈ ls := (hok c hcur).1
  have hdata : ∀ g ≠ c, (Function.update s.data c d) g = s.data g := fun g hg =>
    Function.update_of_ne hg _ _
  have hreader : ReaderOk (s.setData c d) ls (s.setData c d).reader := by
    change ReaderOk (s.setData c d) ls s.reader
    rw [hr]
    exact hok
  refine ⟨h.linked, accounts_of_reader (s := s) rfl (accounts_reader h.locks rfl), h.le, fun a ha => ?_, h.pool_nodup,
    fun g hg b hb => ?_, fun j => (h.writers j).frame ⟨fun q _ hlive => ⟨hlive, rfl⟩,
      fun a ha hdet => ⟨⟨hdet.1, hdet.2, hdet.3⟩, rfl, hdata a fun heq => hdet.1 (heq ▸ hc)⟩⟩, hreader⟩
  · obtain ⟨hnot, hle, hvac⟩ := h.pool a ha
    refine ⟨hnot, hle, ?_⟩
    change ((Function.update s.data c d) a).used = [] ∧ ((Function.update s.data c d) a).stage = []
    rw [hdata a fun heq => hnot (heq ▸ hc)]
    exact hvac
  · change b ∈ ((Function.update s.data c d) g).used ∨ b ∈ ((Function.update s.data c d) g).stage ∨
      b ∈ ((Function.update s.data c d) g).free ∨ ∃ i, (s.writers i).hand = some (g, b)
    rcases eq_or_ne g c with rfl | hne
    · rw [Function.update_self]
      have hold := hblocks b
      rcases h.blocks g hg b hb with hin | hin | hin | hin
      · exact (hold (.inl hin)).imp_right (Or.imp_right .inl)
      · exact (hold (.inr (.inl hin))).imp_right (Or.imp_right .inl)
      · exact (hold (.inr (.inr hin))).imp_right (Or.imp_right .inl)
      · exact .inr (.inr (.inr hin))
    · rw [hdata g hne]
      exact h.blocks g hg b hb

/-! ## The steps -/

/-- **The steps of the reader keep the invariant**; a group stays linked unless it is the one that is
unlinked. -/
theorem Inv.readerStep (h : Inv s ls) (hs : readerStep s = some s') : ∃ ls', Inv s' ls' ∧
    ∀ g ∈ ls, g ∈ ls' ∨ ∃ p nextNode, s.reader = .unlink p g nextNode := by
  have hok := h.reader
  have hstay : Inv s' ls → ∃ ls', Inv s' ls' ∧
      ∀ g ∈ ls, g ∈ ls' ∨ ∃ p nextNode, s.reader = .unlink p g nextNode := fun h' =>
    ⟨ls, h', fun _ hg => .inl hg⟩
  obtain ⟨r, hr⟩ : ∃ r, s.reader = r := ⟨_, rfl⟩
  rw [hr] at hok
  cases r with
  | idle =>
    simp only [GroupList.readerStep, hr] at hs
    cases hs
  | acquire p held =>
    simp only [GroupList.readerStep, hr] at hs
    obtain ⟨l, hl, rfl⟩ := Option.map_eq_some_iff.1 hs
    exact hstay (h.goesReader (.read p held) (accounts_reader_lock h.locks hl (by rw [hr]; rfl)) hok)
  | read p held =>
    obtain ⟨c, hv, ht⟩ := hok
    obtain ⟨g, hat, hc⟩ := ht.found hv h.linked
    simp only [GroupList.readerStep, hr, hat.2] at hs
    cases held with
    | none =>
      obtain rfl := Option.some.inj hs
      obtain ⟨hreached, hwrites⟩ := reached_ok hv hat hc
      exact hstay (h.goesReader _ (accounts_reader h.locks (by rw [hr]; exact hwrites)) hreached)
    | some q =>
      obtain rfl := Option.some.inj hs
      exact hstay (h.goesReader (.releaseHeld q p g) (accounts_reader h.locks (by rw [hr]; rfl))
        ⟨c, hv, hat, hc⟩)
  | releaseHeld q p g =>
    obtain ⟨c, hv, hat, hc⟩ := hok
    obtain ⟨hreached, hwrites⟩ := reached_ok hv hat hc
    simp only [GroupList.readerStep, hr, Option.some.injEq] at hs
    subst hs
    refine hstay (h.goesReader _ (accounts_reader_unlock h.locks ?_) hreached)
    rw [hr]
    change [p, q].Perm (q :: (reached s p g).writes)
    rw [hwrites]
    exact List.Perm.swap q p []
  | checkUsed p g =>
    simp only [GroupList.readerStep, hr, Option.some.injEq] at hs
    by_cases hused : (s.data g).used = []
    · rw [if_pos hused] at hs
      subst hs
      exact hstay (h.goesReader (.checkStage p g) (accounts_reader h.locks (by rw [hr]; rfl))
        ⟨hok.1, hok.2, hused⟩)
    · rw [if_neg hused] at hs
      subst hs
      exact hstay (h.goesReader (.leave p) (accounts_reader h.locks (by rw [hr]; rfl)) ⟨g, hok.1⟩)
  | checkStage p g =>
    simp only [GroupList.readerStep, hr, Option.some.injEq] at hs
    by_cases hstage : (s.data g).stage = []
    · rw [if_pos hstage] at hs
      subst hs
      exact hstay (h.goesReader (.lockNext p g) (accounts_reader h.locks (by rw [hr]; rfl))
        ⟨hok.1, hok.2.1, hok.2.2, hstage⟩)
    · rw [if_neg hstage] at hs
      subst hs
      exact hstay (h.goesReader (.leave p) (accounts_reader h.locks (by rw [hr]; rfl)) ⟨g, hok.1⟩)
  | leave p =>
    obtain ⟨c, hv⟩ := hok
    simp only [GroupList.readerStep, hr, Option.some.injEq] at hs
    subst hs
    exact hstay (h.of_reader rfl rfl rfl rfl rfl (accounts_reader_unlock h.locks
      (by rw [hr]; exact List.Perm.refl _)) (hv.onward_next h.linked))
  | lockNext p g =>
    simp only [GroupList.readerStep, hr] at hs
    obtain ⟨l, hl, rfl⟩ := Option.map_eq_some_iff.1 hs
    exact hstay (h.goesReader (.readNext p g) (accounts_reader_lock h.locks hl (by rw [hr]; rfl)) hok)
  | readNext p g =>
    simp only [GroupList.readerStep, hr, Option.some.injEq] at hs
    subst hs
    exact hstay (h.goesReader (r := .unlockNext p g (s.node (.next g)))
      (accounts_reader h.locks (by rw [hr]; rfl)) ⟨hok.1, hok.2.1, hok.2.2, rfl⟩)
  | unlockNext p g nextNode =>
    simp only [GroupList.readerStep, hr, Option.some.injEq] at hs
    subst hs
    -- the pointer in the group is still locked here, so no writer holds it
    have hnext : Ptr.next g ∈ s.writes .reader := by
      change Ptr.next g ∈ s.reader.writes
      rw [hr]
      exact List.mem_cons_self
    exact hstay (h.goesReader (.unlink p g nextNode) (accounts_reader_unlock h.locks
      (by rw [hr]; exact List.Perm.refl _))
      ⟨hok.1, hok.2.1, hok.2.2.1, hok.2.2.2, fun j => h.locks.not_mem_reads hnext (.writer j)⟩)
  | unlink p g nextNode =>
    simp only [GroupList.readerStep, hr, Option.some.injEq] at hs
    subst hs
    obtain ⟨ls', h', hmem⟩ := h.unlinks hr
    refine ⟨ls', h', fun a ha => ?_⟩
    rcases eq_or_ne a g with rfl | hne
    · exact .inr ⟨p, nextNode, hr⟩
    · exact .inl ((hmem a).2 ⟨ha, hne⟩)
  | unlockLast p g =>
    simp only [GroupList.readerStep, hr, Option.some.injEq] at hs
    subst hs
    exact hstay (h.goesReader (.pushPool g) (accounts_reader_unlock h.locks
      (by rw [hr]; exact List.Perm.refl _)) hok)
  | pushPool g =>
    simp only [GroupList.readerStep, hr, Option.some.injEq] at hs
    subst hs
    exact hstay (h.pushesPool hr)
  | crashed => exact hok.elim

/-- The reader begins to leave its current group. -/
theorem Inv.traverse (h : Inv s ls) (hr : s.reader = .idle) (noneUsing : Bool) :
    Inv (traverse s noneUsing) ls := by
  have hok := h.reader
  rw [hr] at hok
  have honward : Onward s ls s.curGroup := hok
  unfold GroupList.traverse
  split
  · rename_i hcur
    refine h.of_reader rfl rfl rfl rfl rfl (accounts_reader h.locks (by rw [hr]; rfl)) fun n hn => ?_
    refine ⟨At.mem (p := .head) ⟨trivial, hn⟩ h.linked, fun l hl => ?_⟩
    have hl' : s.curGroup = some l := hl
    rw [hcur] at hl'
    cases hl'
  · rename_i c hcur
    rw [hcur] at honward
    cases noneUsing with
    | true =>
      rw [if_pos rfl]
      refine h.of_reader rfl rfl rfl rfl rfl (accounts_reader h.locks (by rw [hr]; rfl)) ?_
      refine ⟨c, ⟨hcur, honward, rfl⟩, ?_⟩
      split
      · rename_i hlast
        exact .inl ⟨hlast, rfl⟩
      · rename_i l hlast
        exact .inr ⟨l, hlast, rfl⟩
    | false =>
      have hv : Visits { s with nextGroup := s.node (.next c) } ls c := ⟨hcur, honward, rfl⟩
      exact h.of_reader rfl rfl rfl rfl rfl (accounts_reader h.locks (by rw [hr]; rfl))
        (hv.onward_next h.linked)

theorem Inv.takeStaged (h : Inv s ls) (hr : s.reader = .idle) (hs : takeStaged s = some s') : Inv s' ls := by
  rw [GroupList.takeStaged, Option.bind_eq_some_iff] at hs
  obtain ⟨c, hcur, hs⟩ := hs
  split at hs
  · cases hs
  · rename_i b rest hstage
    obtain rfl := Option.some.inj hs
    refine h.setsData hr hcur fun x hx => ?_
    rw [hstage, List.mem_cons] at hx
    rcases hx with hx | (rfl | hx) | hx
    · exact .inl (List.mem_append_left [b] hx)
    · exact .inl (List.mem_append_right _ List.mem_cons_self)
    · exact .inr (.inl hx)
    · exact .inr (.inr hx)

theorem Inv.recycle (h : Inv s ls) (hr : s.reader = .idle) (hs : recycle s b = some s') : Inv s' ls := by
  rw [GroupList.recycle, Option.bind_eq_some_iff] at hs
  obtain ⟨c, hcur, hs⟩ := hs
  split at hs
  · obtain rfl := Option.some.inj hs
    refine h.setsData hr hcur fun x hx => ?_
    rcases hx with hx | hx | hx
    · rcases eq_or_ne x b with rfl | hne
      · exact .inr (.inr List.mem_cons_self)
      · exact .inl ((List.mem_erase_of_ne hne).2 hx)
    · exact .inr (.inl hx)
    · exact .inr (.inr (List.mem_cons_of_mem b hx))
  · cases hs

/-- **Every step keeps the invariant**; a group stays linked unless it is the one that is unlinked. -/
theorem Inv.step {a : Act} (h : Inv s ls) (hs : step s a = some s') : ∃ ls', Inv s' ls' ∧
    ∀ g ∈ ls, g ∈ ls' ∨ a = .reader ∧ ∃ p nextNode, s.reader = .unlink p g nextNode := by
  cases a with
  | writer i =>
    obtain ⟨ls', h', hsub⟩ := h.writerStep hs
    exact ⟨ls', h', fun g hg => .inl (hsub g hg)⟩
  | reader =>
    obtain ⟨ls', h', hsub⟩ := h.readerStep hs
    exact ⟨ls', h', fun g hg => (hsub g hg).imp_right fun hr => ⟨rfl, hr⟩⟩
  | traverse noneUsing =>
    simp only [GroupList.step] at hs
    split at hs
    · rename_i hr
      obtain rfl := Option.some.inj hs
      exact ⟨ls, h.traverse hr noneUsing, fun g hg => .inl hg⟩
    · cases hs
  | takeStaged =>
    simp only [GroupList.step] at hs
    split at hs
    · rename_i hr
      exact ⟨ls, h.takeStaged hr hs, fun g hg => .inl hg⟩
    · cases hs
  | recycle b =>
    simp only [GroupList.step] at hs
    split at hs
    · rename_i hr
      exact ⟨ls, h.recycle hr hs, fun g hg => .inl hg⟩
    · cases hs

theorem State.Start.inv (h : s.Start) : ∃ ls, Inv s ls := by
  obtain ⟨⟨ls, hlinked, hle⟩, hlock, hpool, hblocks, hwriters, hreader, hlast, hcur⟩ := h
  have hreads : s.reads = fun _ => [] := by
    funext P
    cases P with
    | reader => rfl
    | writer i =>
      change (s.writers i).reads = []
      rw [hwriters]
      rfl
  have hwrites : s.writes = fun _ => [] := by
    funext P
    cases P with
    | reader =>
      change s.reader.writes = []
      rw [hreader]
      rfl
    | writer i =>
      change (s.writers i).writes = []
      rw [hwriters]
      rfl
  refine ⟨ls, hlinked, ?_, hle, fun g hg => ?_, hpool ▸ List.nodup_nil, fun g hg b hb => ?_, fun i => ?_, ?_⟩
  · rw [hlock, hreads, hwrites]
    exact Accounts.fresh
  · rw [hpool] at hg
    cases hg
  · exact (hblocks g hg b hb).imp_right (Or.imp_right .inl)
  · rw [hwriters]
    trivial
  · rw [hreader]
    intro c hc
    rw [hcur] at hc
    cases hc

/-- **The invariant holds in every run.** -/
theorem Inv.of_runs {s₀ : State} (h₀ : s₀.Start) (h : Runs GroupList.step (fun _ _ => True) s₀ s) : ∃ ls, Inv s ls :=
  h.invariant (I := fun s => ∃ ls, Inv s ls) h₀.inv fun _ _ _ ⟨_, hinv⟩ _ hs => by
    obtain ⟨ls', h', -⟩ := hinv.step hs
    exact ⟨ls', h'⟩

/-! ## Safety -/

theorem Inv.reachable_iff (h : Inv s ls) : s.Reachable g ↔ g ∈ ls := by
  constructor
  · rintro ⟨ls', hlinked, hg⟩
    rwa [h.linked.unique hlinked]
  · exact fun hg => ⟨ls, h.linked, hg⟩

/-- No block of the group is in use, and no writer holds one. -/
def Unused (s : State) (g : ℕ) : Prop :=
  (s.data g).used = [] ∧ (s.data g).stage = [] ∧ ∀ i b, (s.writers i).hand ≠ some (g, b)

/-- What is safe in a state. -/
structure Safe (s : State) : Prop where
  /-- The group that is unlinked next has no block in use, and all of its blocks are free. -/
  unlink : ∀ p g nextNode, s.reader = .unlink p g nextNode →
    Unused s g ∧ ∀ b < maxBlockCountPerGroup, b ∈ (s.data g).free
  /-- The groups in the pool are unlinked, and stay as they were. -/
  pool : ∀ g ∈ s.pool, ¬ s.Reachable g ∧ Unused s g
  /-- A writer pops from a linked group, or from the one that it is about to link under the lock of the
  head. -/
  pops : ∀ i g, (s.writers i).pops = some g → s.Reachable g ∨
    s.writers i = .fresh g ∧ (s.lock .head).writer = some (.writer i) ∧ ∀ j ≠ i, (s.writers j).pops ≠ some g
  /-- A lock is taken as often as it is released and held. -/
  locks : ∀ p P, (s.lock p).taken P = (s.lock p).released P + ((s.reads P).count p + (s.writes P).count p)
  /-- Between two operations a thread has released every lock that it took. -/
  writer_idle : ∀ i, s.writers i = .idle → ∀ p, (s.lock p).taken (.writer i) = (s.lock p).released (.writer i)
  reader_idle : s.reader = .idle → ∀ p, (s.lock p).taken .reader = (s.lock p).released .reader

/-- The reader looks at a group that no writer is at. -/
theorem Inv.unused (h : Inv s ls) (hg : g ∈ ls) (hv : s.reader.victim = some g) (hvac : Vacant s g) :
    Unused s g := by
  refine ⟨hvac.1, hvac.2, fun i b hand => ?_⟩
  have hok := h.writers i
  cases hpc : s.writers i <;> rw [hpc] at hand hok <;> cases hand
  case push p =>
    exact h.victim_ne (p := p) hok (.inl (by rw [hpc]; exact List.mem_cons_self)) hv
  case pushHead =>
    exact h.victim_ne (p := .head) ⟨trivial, hok⟩ (.inr (by rw [hpc]; exact List.mem_cons_self)) hv
  case link => exact hok.not_linked hg
  case linkHead => exact hok.1.not_linked hg

/-- Nobody pops from a group that is in the hands of a writer, apart from that writer. -/
theorem Inv.pops_ne (h : Inv s ls) (hi : s.writers i = .fresh g) (hj : j ≠ i) :
    (s.writers j).pops ≠ some g := fun hp => by
  have hoki := h.writers i
  have hokj := h.writers j
  rw [hi] at hoki
  cases hpc : s.writers j <;> rw [hpc] at hp hokj <;> cases hp
  case pop => exact hoki.1.not_linked (At.mem hokj h.linked)
  case headPop => exact hoki.1.not_linked (At.mem (p := .head) ⟨trivial, hokj⟩ h.linked)
  case fresh => exact hj (h.own_unique (by rw [hi]; rfl) (by rw [hpc]; rfl))

theorem Inv.safe (h : Inv s ls) : Safe s where
  unlink p g nextNode hr := by
    have hok := h.reader
    rw [hr] at hok
    have hg := hok.2.1.mem h.linked
    have hunused := h.unused hg (by rw [hr]; rfl) hok.2.2.1
    refine ⟨hunused, fun b hb => ?_⟩
    rcases h.blocks g (h.le g hg) b hb with hin | hin | hin | ⟨i, hi⟩
    · rw [hunused.1] at hin
      cases hin
    · rw [hunused.2.1] at hin
      cases hin
    · exact hin
    · exact absurd hi (hunused.2.2 i b)
  pool g hg := by
    obtain ⟨hnot, -, hvac⟩ := h.pool g hg
    refine ⟨fun hr => hnot (h.reachable_iff.1 hr), hvac.1, hvac.2, fun i b hand => ?_⟩
    rcases h.mem_of_hand hand with hin | hown
    · exact hnot hin
    · exact ((h.writers i).detached hown).not_pooled hg
  pops i g hp := by
    have hok := h.writers i
    cases hpc : s.writers i <;> rw [hpc] at hp hok <;> cases hp
    case pop => exact .inl (h.reachable_iff.2 (At.mem hok h.linked))
    case headPop => exact .inl (h.reachable_iff.2 (At.mem (p := .head) ⟨trivial, hok⟩ h.linked))
    case fresh =>
      refine .inr ⟨rfl, (h.locks.writer .head (.writer i)).2 ?_, fun j hj => h.pops_ne hpc hj⟩
      change Ptr.head ∈ (s.writers i).writes
      rw [hpc]
      exact List.mem_cons_self
  locks := h.locks.balanced
  writer_idle i hi p := by
    have hbal := h.locks.balanced p (.writer i)
    change _ = _ + ((s.writers i).reads.count p + (s.writers i).writes.count p) at hbal
    rw [hi] at hbal
    exact hbal
  reader_idle hr p := by
    have hbal := h.locks.balanced p .reader
    change _ = _ + (0 + s.reader.writes.count p) at hbal
    rw [hr] at hbal
    exact hbal

/-- **Removing a group is safe**: in every interleaving, in the state reached and by its next step. A group
that can be reached stays reachable, unless it is the one that the reader unlinks. -/
theorem group_removal {s₀ : State} (h₀ : s₀.Start) (h : Runs step (fun _ _ => True) s₀ s) :
    Safe s ∧ ∀ a s', step s a = some s' → ∀ g, s.Reachable g →
      s'.Reachable g ∨ a = .reader ∧ ∃ p nextNode, s.reader = .unlink p g nextNode := by
  obtain ⟨ls, hinv⟩ := Inv.of_runs h₀ h
  refine ⟨hinv.safe, fun a s' hs g hg => ?_⟩
  obtain ⟨ls', h', hstay⟩ := hinv.step hs
  exact (hstay g (hinv.reachable_iff.1 hg)).imp_left h'.reachable_iff.2

/-! ## A group that comes back -/

/-- A group list without groups. -/
def State.empty : State where
  node _ := none
  lock _ := RwLock.fresh
  data _ := DataHead.fresh
  pool := []
  groupIndex := 0
  writers _ := .idle
  reader := .idle
  lastGroup := none
  curGroup := none
  nextGroup := none

theorem State.empty_start : State.empty.Start where
  linked := ⟨[], rfl, fun g hg => (by cases hg)⟩
  lock := rfl
  pool := rfl
  blocks _ _ b hb := .inr (.inr (List.mem_range.2 hb))
  writers := rfl
  reader := rfl
  lastGroup := rfl
  curGroup := rfl

/-- A writer adds a group, the reader moves its block through the lists and removes the group, and the
writer takes it out of the pool. -/
def comeBack : List Act :=
  List.replicate 12 (.writer 0) ++ [.traverse false, .takeStaged, .recycle 0, .traverse true] ++
    List.replicate 10 .reader ++ List.replicate 7 (.writer 0)

theorem exists_comeBack : ∃ s, Runs step (fun _ _ => True) State.empty s ∧ s.writers 0 = .fresh 1 ∧
    s.node .head = none := by
  have hrun : ((run step State.empty comeBack).map fun s => (s.writers 0, s.node .head)) =
      some (.fresh 1, none) := by decide +kernel
  obtain ⟨s, hs, heq⟩ := Option.map_eq_some_iff.1 hrun
  obtain ⟨hw, hnode⟩ := Prod.mk.inj heq
  exact ⟨s, Runs.of_run (fun _ _ => trivial) hs, hw, hnode⟩

theorem group_removal_comeBack : ∃ s, s.writers 0 = .fresh 1 ∧ Safe s := by
  obtain ⟨s, hruns, hw, -⟩ := exists_comeBack
  exact ⟨s, hw, (group_removal State.empty_start hruns).1⟩

/-- **A writer pops a block from a group that is not linked**: from the one that it has taken out of the
pool and links afterwards. -/
theorem pops_unlinked : ¬ ∀ s₀ s : State, s₀.Start → Runs step (fun _ _ => True) s₀ s →
    ∀ i g, (s.writers i).pops = some g → s.Reachable g := by
  intro hall
  obtain ⟨s, hruns, hw, hnode⟩ := exists_comeBack
  obtain ⟨ls, hlinked, hmem⟩ := hall _ s State.empty_start hruns 0 1 (by rw [hw]; rfl)
  obtain rfl : ls = [] := hlinked.eq_nil_iff.1 hnode
  cases hmem

end QLog.GroupList
