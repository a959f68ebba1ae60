import QLog.Buffer.Miso.Invariant

/-!
# The producers' steps

No step of a producer changes what the consumer relies on (`Keeps`). Every store of a producer stays
inside the blocks granted to it: `RingOk.updateSlot` is that argument, made once for every step that
changes one open reservation and its blocks (`SlotUpdate`). The `fetch_add` and the compare-exchange
change the end of the history only (`RingOk.append`, `RingOk.dropLast`), and the remaining steps
only the thread itself.
-/

namespace QLog.Miso

variable {N : BlockCount} {start : ℕ} {s s' : State}

/-! ## Threads -/

/-- The ring does not look at the threads. -/
theorem RingOk.setThread (h : RingOk N start s) (t : ℕ) (th : Thread) :
    RingOk N start (s.setThread t th) :=
  { h with }

theorem ThreadOk.setThread {u : ℕ} {th' : Thread} (h : ThreadOk N start s u th') (t : ℕ)
    (th : Thread) : ThreadOk N start (s.setThread t th) u th' :=
  h.frame le_rfl fun _ _ hr _ _ _ => ⟨hr, rfl, fun _ _ _ => rfl⟩

theorem Inv.setThread (h : Inv N start s) {t : ℕ} {th : Thread} (hth : ThreadOk N start s t th) :
    Inv N start (s.setThread t th) where
  toRingOk := h.toRingOk.setThread t th
  threads u := by
    by_cases hu : u = t
    · subst hu
      simpa [State.setThread] using hth.setThread u th
    · simpa [State.setThread, hu] using (h.threads u).setThread t th

/-- Moving on inside a call. -/
theorem Inv.goto (h : Inv N start s) {t : ℕ} {pc : Pc}
    (hcopy : pc.hasCopy → (s.threads t).cache.isSome) (hpc : PcOk N start s t pc) :
    Inv N start (s.goto t pc) :=
  h.setThread ⟨(h.threads t).copy, hcopy, (h.threads t).loaded_le, hpc⟩

/-- A load of the published read cursor into the thread-local copy. -/
theorem RingOk.threadOk_loadCopy (h : RingOk N start s) {t : ℕ} {pc : Pc}
    (hpc : PcOk N start s t pc) :
    ThreadOk N start s t ⟨some s.readCursor, pc, s.blocksBefore s.released⟩ where
  copy c hc := by
    cases hc
    exact h.readCursor
  hasCopy _ := rfl
  loaded_le := le_rfl
  pcOk := hpc

theorem Inv.loadCopy (h : Inv N start s) {t : ℕ} {pc : Pc} (hpc : PcOk N start s t pc) :
    Inv N start (s.loadCopy t pc) :=
  h.setThread (h.toRingOk.threadOk_loadCopy hpc)

/-! ## What the consumer relies on -/

/-- The step leaves the consumer and the settled reservations as they are. -/
structure Keeps (start : ℕ) (s s' : State) : Prop where
  readCursor : s'.readCursor = s.readCursor
  readCursorCache : s'.readCursorCache = s.readCursorCache
  readCursorStartCache : s'.readCursorStartCache = s.readCursorStartCache
  consumer : s'.consumer = s.consumer
  read : s'.read = s.read
  released : s'.released = s.released
  delivered : s'.delivered = s.delivered
  filled : s'.filled = s.filled
  resv : ∀ (k : ℕ) (r : Resv), s.resv[k]? = some r → r.phase.settled → s'.resv[k]? = some r
  pos : ∀ (k : ℕ) (r : Resv), s.resv[k]? = some r → r.phase.settled →
    s'.pos start (k + 1) = s.pos start (k + 1)

namespace Keeps

theorem settledBefore (h : Keeps start s s') {k : ℕ} (hk : s.SettledBefore k) :
    s'.SettledBefore k := by
  intro j hj
  obtain ⟨r, hr, hs⟩ := hk j hj
  exact ⟨r, h.resv j r hr hs, hs⟩

theorem pos_eq (h : Keeps start s s') {k : ℕ} (hk : s.SettledBefore k) :
    s'.pos start k = s.pos start k := by
  cases k with
  | zero => simp
  | succ k =>
    obtain ⟨r, hr, hs⟩ := hk k (Nat.lt_succ_self k)
    exact h.pos k r hr hs

theorem take_eq (h : Keeps start s s') {k : ℕ} (hk : s.SettledBefore k) :
    s'.resv.take k = s.resv.take k := by
  refine List.ext_getElem? fun j => ?_
  by_cases hj : j < k
  · obtain ⟨r, hr, hs⟩ := hk j hj
    rw [List.getElem?_take_of_lt hj, List.getElem?_take_of_lt hj, hr, h.resv j r hr hs]
  · rw [List.getElem?_take_eq_none (by omega), List.getElem?_take_eq_none (by omega)]

theorem tight (h : Keeps start s s') (hs : s.SettledBefore s.released) (ht : Tight N start s) :
    Tight N start s' := by
  unfold Tight
  rw [h.consumer, h.read, h.released, h.pos_eq hs]
  rcases ht with hfl | ⟨k, r, hk, hr, hc, hq⟩ | ⟨r, hr, hinv⟩
  · exact .inl hfl
  · have hset := Phase.settled_of_isCommitted hc
    refine .inr (.inl ⟨k, r, hk, h.resv k r hr hset, hc, ?_⟩)
    rw [h.pos k r hr hset]
    exact hq
  · exact .inr (.inr ⟨r, h.resv _ r hr (by rw [hinv]; rfl), hinv⟩)

/-- A reservation that keeps its end keeps its room. -/
theorem room (h : Keeps start s s') (hs : s.SettledBefore s.released) {k : ℕ}
    (he : s'.pos start (k + 1) = s.pos start (k + 1)) (hr : Room N start s k) :
    Room N start s' k := by
  unfold Room
  rw [he, h.released, h.pos_eq hs, h.filled]
  exact hr.imp id (And.imp id (And.imp id (h.tight hs)))

/-- The consumer's own facts, when the status bytes that it has reset stay as they are. -/
theorem consumerOk (h : Keeps start s s') (hok : RingOk N start s)
    (hst : ∀ q, s.pos start s.released ≤ q → q < s.pos start s.read →
      statusByte s'.blocks (q % N.count) = statusByte s.blocks (q % N.count))
    (hnext : ∀ r, s.resv[s.read]? = some r → r.phase.settled →
      statusByte s'.blocks (s.pos start s.read % N.count) =
        statusByte s.blocks (s.pos start s.read % N.count)) :
    ConsumerOk N start s' s'.consumer := by
  have hread := h.pos_eq hok.settled
  have hrel := h.pos_eq (hok.settled.mono hok.released_le)
  have hreset : ∀ n ≤ s.pos start s.read - s.pos start s.released,
      (∀ j < n, statusByte s.blocks ((s.pos start s.released + j) % N.count) = 0) →
      ∀ j < n, statusByte s'.blocks ((s.pos start s.released + j) % N.count) = 0 :=
    fun n hn hz j hj => (hst _ (by omega) (by omega)).trans (hz j hj)
  have hc := hok.consumerOk
  rw [h.consumer]
  cases hcon : s.consumer with
  | idle => trivial
  | looking => trivial
  | empty => trivial
  | clearing n =>
    rw [hcon] at hc
    obtain ⟨r, hr, hinv, hn⟩ := hc
    refine ⟨r, ?_, hinv, hn⟩
    rw [h.read]
    exact h.resv _ r hr (by rw [hinv]; rfl)
  | skipping n =>
    rw [hcon] at hc
    obtain ⟨r, hr, hinv, hn, hz⟩ := hc
    have hset : r.phase.settled := by rw [hinv]; rfl
    simp only [ConsumerOk]
    rw [h.read, hread]
    exact ⟨r, h.resv _ r hr hset, hinv, hn, (hnext r hr hset).trans hz⟩
  | holding handle =>
    rw [hcon] at hc
    obtain ⟨r, hr, hcm, hh⟩ := hc
    simp only [ConsumerOk]
    rw [h.read, hread]
    exact ⟨r, h.resv _ r hr (Phase.settled_of_isCommitted hcm), hcm, hh⟩
  | flushing i =>
    rw [hcon] at hc
    simp only [ConsumerOk]
    rw [h.read, h.released, hread, hrel]
    exact ⟨hc.1, hreset i hc.1.le hc.2⟩
  | restart =>
    rw [hcon] at hc
    simp only [ConsumerOk]
    rw [h.read, h.released, hread, hrel]
    exact ⟨hc.1, hreset _ le_rfl hc.2⟩
  | release =>
    rw [hcon] at hc
    simp only [ConsumerOk]
    rw [h.read, h.released, hread, hrel]
    exact ⟨hc.1, hreset _ le_rfl hc.2⟩
  | traversing cursor =>
    rw [hcon] at hc
    obtain ⟨k, hk, hset, hcur, hlt⟩ := hc
    simp only [ConsumerOk]
    rw [h.released, hrel]
    refine ⟨k, hk, h.settledBefore hset, ?_, ?_⟩
    · rw [h.pos_eq hset]
      exact hcur
    · rw [h.pos_eq hset]
      exact hlt

theorem delivered_eq (h : Keeps start s s') (hok : RingOk N start s) :
    s'.delivered = (s'.resv.take s'.passed).filterMap Resv.delivery := by
  have hpassed : s'.passed = s.passed := by simp only [State.passed, h.consumer, h.read]
  rw [h.delivered, hok.delivered, hpassed, h.take_eq hok.settled_passed]

theorem kept_iff (h : Keeps start s s') (k : ℕ) (r : Resv) : s'.Kept k r ↔ s.Kept k r := by
  unfold State.Kept
  rw [h.read, h.consumer]

end Keeps

/-- The part of the invariant that a producer's step has to care for. -/
theorem RingOk.of_keeps (h : RingOk N start s) (hk : Keeps start s s')
    (hpos : ∀ (k : ℕ) (r : Resv), s'.resv[k]? = some r → 0 < r.blocks)
    (hwrite : s'.writeCursor = s'.pos start s'.resv.length % 2 ^ 32)
    (hspan : s'.pos start s'.resv.length < s.pos start s.released + 2 ^ 32)
    (hroom : ∀ k r, s.released ≤ k → s'.resv[k]? = some r → r.phase ≠ .reserved → Room N start s' k)
    (hkept : ∀ k r, s.released ≤ k → s'.resv[k]? = some r → s.Kept k r →
      ChunkOk N s'.blocks (s'.pos start k) r)
    (hfree : ∀ q, s.pos start s.released ≤ q → q < s.pos start s.released + N.count →
      s'.Uncovered start q → statusByte s'.blocks (q % N.count) = 0)
    (hst : ∀ q, s.pos start s.released ≤ q → q < s.pos start s.read →
      statusByte s'.blocks (q % N.count) = statusByte s.blocks (q % N.count))
    (hnext : ∀ r, s.resv[s.read]? = some r → r.phase.settled →
      statusByte s'.blocks (s.pos start s.read % N.count) =
        statusByte s.blocks (s.pos start s.read % N.count)) :
    RingOk N start s' := by
  have hread := hk.pos_eq h.settled
  have hrel := hk.pos_eq (h.settled.mono h.released_le)
  refine ⟨?_, ?_, hpos, hwrite, ?_, ?_, ?_, ?_, ?_, ?_, ?_, ?_, hk.consumerOk h hst hnext,
    hk.delivered_eq h⟩
  · rw [hk.released, hk.read]
    exact h.released_le
  · rw [hk.read]
    exact hk.settledBefore h.settled
  · rw [hk.readCursor, hk.released, hrel]
    exact h.readCursor
  · rw [hk.readCursorCache, hk.read, hread]
    exact h.cache
  · rw [hk.readCursorStartCache, hk.consumer, hk.read, hk.released, h.startCache]
    split
    · rw [hread]
    · rw [hrel]
  · rw [hk.released, hrel]
    exact hspan
  · rw [hk.released]
    exact hroom
  · intro k r hkr hr hkp
    rw [hk.released] at hkr
    exact hkept k r hkr hr ((hk.kept_iff k r).mp hkp)
  · intro k r hkr hlt hr hinv
    rw [hk.released] at hkr
    rw [hk.read] at hlt
    have hsb := h.settled.mono hlt.le
    obtain ⟨r₁, hr₁, hs₁⟩ := h.settled k hlt
    obtain rfl : r₁ = r := Option.some.inj ((hk.resv k r₁ hr₁ hs₁).symm.trans hr)
    rw [hk.pos_eq hsb, hst _ (s.pos_mono start hkr) (h.pos_lt hlt h.read_le)]
    exact h.cleared k r₁ hkr hlt hr₁ hinv
  · rw [hk.released, hrel]
    exact hfree

/-! ## One open reservation -/

section Slot

variable {k : ℕ} {r r' : Resv} {m : Mem}

theorem getElem?_set_of_ne {j : ℕ} (hj : j ≠ k) : (s.resv.set k r')[j]? = s.resv[j]? :=
  List.getElem?_set_ne (Ne.symm hj)

theorem getElem?_set_self_of_some (hk : s.resv[k]? = some r) :
    (s.resv.set k r')[k]? = some r' := by
  obtain ⟨hlt, -⟩ := List.getElem?_eq_some_iff.mp hk
  exact List.getElem?_set_self hlt

/-- Positions depend on the block counts only. -/
theorem map_blocks_set (hk : s.resv[k]? = some r) (hb : r'.blocks = r.blocks) :
    (s.resv.set k r').map Resv.blocks = s.resv.map Resv.blocks := by
  refine List.ext_getElem? fun j => ?_
  by_cases hj : j = k
  · subst hj
    rw [List.getElem?_map, getElem?_set_self_of_some hk, List.getElem?_map, hk, Option.map_some,
      Option.map_some, hb]
  · rw [List.getElem?_map, getElem?_set_of_ne hj, List.getElem?_map]

theorem setPhase_self (hk : s.resv[k]? = some r) : s.setPhase k r = s := by
  have : s.resv.set k r = s.resv := by
    refine List.ext_getElem? fun j => ?_
    by_cases hj : j = k
    · subst hj
      rw [getElem?_set_self_of_some hk, hk]
    · exact getElem?_set_of_ne hj
  rw [State.setPhase, this]

/-- A step on the open reservation `r` at `k`, which becomes `r'` while the memory becomes `m`:
its blocks are the only ones written, and none is written before they are granted. -/
structure SlotUpdate (N : BlockCount) (start : ℕ) (s : State) (k : ℕ) (r r' : Resv) (m : Mem) :
    Prop where
  resv : s.resv[k]? = some r
  isOpen : r.phase.settled = false
  blocks : r'.blocks = r.blocks
  granted : r'.phase ≠ .reserved
  room : Room N start s k
  grant : r.phase = .reserved → m = s.blocks
  frame : ∀ x, x / 128 ∉ ringBlocks N.count (s.pos start k) r.blocks → m x = s.blocks x
  chunk : ChunkOk N m (s.pos start k) r'

namespace SlotUpdate

theorem pos_eq (u : SlotUpdate N start s k r r' m) (j : ℕ) :
    ((s.setBlocks m).setPhase k r').pos start j = s.pos start j :=
  congrArg (fun ns => start + offset ns j) (map_blocks_set u.resv u.blocks)

theorem other (_u : SlotUpdate N start s k r r' m) {j : ℕ} (hj : j ≠ k) :
    ((s.setBlocks m).setPhase k r').resv[j]? = s.resv[j]? :=
  getElem?_set_of_ne hj

theorem self (u : SlotUpdate N start s k r r' m) :
    ((s.setBlocks m).setPhase k r').resv[k]? = some r' :=
  getElem?_set_self_of_some u.resv

theorem ne_of_settled (u : SlotUpdate N start s k r r' m) {j : ℕ} {r₁ : Resv}
    (hr : s.resv[j]? = some r₁) (hs : r₁.phase.settled) : j ≠ k := by
  rintro rfl
  rw [u.resv] at hr
  cases hr
  simp [u.isOpen] at hs

theorem keeps (u : SlotUpdate N start s k r r' m) :
    Keeps start s ((s.setBlocks m).setPhase k r') :=
  ⟨rfl, rfl, rfl, rfl, rfl, rfl, rfl, rfl,
    fun _ _ hr hs => (u.other (u.ne_of_settled hr hs)).trans hr, fun j _ _ _ => u.pos_eq (j + 1)⟩

theorem read_le (u : SlotUpdate N start s k r r' m) (h : RingOk N start s) : s.read ≤ k :=
  h.settled.le_of_not_settled u.resv u.isOpen

theorem released_le (u : SlotUpdate N start s k r r' m) (h : RingOk N start s) : s.released ≤ k :=
  h.released_le.trans (u.read_le h)

theorem pos_succ_le (u : SlotUpdate N start s k r r' m) :
    s.pos start (k + 1) ≤ s.pos start s.released + N.count := by
  rcases u.room with hlt | ⟨he, -⟩ <;> omega

/-- The other granted chunks are untouched. -/
theorem agreeOn (u : SlotUpdate N start s k r r' m) (h : RingOk N start s) {j : ℕ} {r₁ : Resv}
    (hj : j ≠ k) (hrel : s.released ≤ j) (hr₁ : s.resv[j]? = some r₁)
    (hg₁ : r₁.phase ≠ .reserved) :
    AgreeOn m s.blocks (ringBlocks N.count (s.pos start j) r₁.blocks) := by
  by_cases hres : r.phase = .reserved
  · rw [u.grant hres]
    exact fun _ _ => rfl
  · have hdisj := h.disjoint hj hrel hr₁ hg₁ (u.released_le h) u.resv hres
    exact fun x hx => u.frame x fun hx' => Set.disjoint_left.mp hdisj hx hx'

/-- The status bytes outside the chunk are untouched. -/
theorem statusByte_eq (u : SlotUpdate N start s k r r' m) (h : RingOk N start s) {q : ℕ}
    (hq : s.pos start s.released ≤ q) (hq' : q < s.pos start s.released + N.count)
    (hout : r.phase ≠ .reserved → ¬ (s.pos start k ≤ q ∧ q < s.pos start (k + 1))) :
    statusByte m (q % N.count) = statusByte s.blocks (q % N.count) := by
  by_cases hres : r.phase = .reserved
  · rw [u.grant hres]
  · refine u.frame _ ?_
    rw [show (128 * (q % N.count) + 3) / 128 = q % N.count by omega]
    exact h.mod_not_mem (u.released_le h) u.resv hres hq hq' (hout hres)

theorem kept (u : SlotUpdate N start s k r r' m) (h : RingOk N start s) {j : ℕ} {r₁ : Resv}
    (hj : s.released ≤ j) (hr₁ : ((s.setBlocks m).setPhase k r').resv[j]? = some r₁)
    (hkept : s.Kept j r₁) : ChunkOk N m (s.pos start j) r₁ := by
  by_cases hjk : j = k
  · subst hjk
    rw [u.self] at hr₁
    cases hr₁
    exact u.chunk
  · rw [u.other hjk] at hr₁
    by_cases hg₁ : r₁.phase = .reserved
    · simp [ChunkOk, hg₁]
    · exact (h.kept j r₁ hj hr₁ hkept).congr (h.blocks_pos j r₁ hr₁)
        (u.agreeOn h hjk hj hr₁ hg₁).symm

theorem uncovered (u : SlotUpdate N start s k r r' m) {q : ℕ}
    (hun : ((s.setBlocks m).setPhase k r').Uncovered start q) : s.Uncovered start q := by
  intro j r₁ hj hr₁ hg₁ hcov
  rw [← u.pos_eq, ← u.pos_eq] at hcov
  by_cases hjk : j = k
  · subst hjk
    exact hun j r' hj u.self u.granted hcov
  · exact hun j r₁ hj ((u.other hjk).trans hr₁) hg₁ hcov

end SlotUpdate

/-- **A step of one producer on its own reservation keeps the ring.** -/
theorem RingOk.updateSlot (h : RingOk N start s) (u : SlotUpdate N start s k r r' m) :
    RingOk N start ((s.setBlocks m).setPhase k r') := by
  have hread := u.read_le h
  have hrel := u.released_le h
  have hend := u.pos_succ_le
  have hkpos := s.pos_mono start hread
  have hblocks := h.blocks_pos k r u.resv
  have hsucc := s.pos_succ start u.resv
  have hsettled := h.settled.mono h.released_le
  refine h.of_keeps u.keeps ?_ ?_ ?_ ?_ ?_ ?_ ?_ ?_
  · intro j r₁ hr₁
    by_cases hj : j = k
    · subst hj
      rw [u.self] at hr₁
      cases hr₁
      rw [u.blocks]
      exact hblocks
    · exact h.blocks_pos j r₁ ((u.other hj).symm.trans hr₁)
  · rw [u.pos_eq]
    simpa [State.setPhase, State.setBlocks] using h.write
  · rw [u.pos_eq]
    simpa [State.setPhase, State.setBlocks] using h.span
  · intro j r₁ hj hr₁ hg₁
    refine u.keeps.room hsettled (u.pos_eq _) ?_
    by_cases hjk : j = k
    · subst hjk
      exact u.room
    · exact h.room j r₁ hj ((u.other hjk).symm.trans hr₁) hg₁
  · intro j r₁ hj hr₁ hkept
    rw [u.pos_eq]
    exact u.kept h hj hr₁ hkept
  · intro q hq hq' hun
    have hun' := u.uncovered hun
    exact (u.statusByte_eq h hq hq' fun hres => hun' k r hrel u.resv hres).trans
      (h.free q hq hq' hun')
  · intro q hq hq'
    exact u.statusByte_eq h hq (by omega) fun _ => by omega
  · intro r₁ hr₁ hs
    have hne := u.ne_of_settled hr₁ hs
    have hlt := s.pos_mono start (show s.read + 1 ≤ k by omega)
    have hpos₁ := h.blocks_pos _ r₁ hr₁
    rw [s.pos_succ start hr₁] at hlt
    exact u.statusByte_eq h (s.pos_mono start h.released_le) (by omega) fun _ => by omega

/-- The same for the whole invariant: the owner moves on, the other threads are not disturbed. -/
theorem Inv.updateSlot (h : Inv N start s) (u : SlotUpdate N start s k r r' m) (th : Thread)
    (hth : ThreadOk N start ((s.setBlocks m).setPhase k r') r.owner th) :
    Inv N start (((s.setBlocks m).setPhase k r').setThread r.owner th) where
  toRingOk := (h.toRingOk.updateSlot u).setThread r.owner th
  threads t := by
    by_cases ht : t = r.owner
    · subst ht
      simpa [State.setThread] using hth.setThread _ th
    · have hne : (((s.setBlocks m).setPhase k r').setThread r.owner th).threads t = s.threads t := by
        simp [State.setThread, State.setPhase, State.setBlocks, ht]
      rw [hne]
      refine ThreadOk.setThread ((h.threads t).frame (u.pos_eq _).ge fun j r₁ hr₁ ho hs _ => ?_) _ _
      have hjk : j ≠ k := by
        rintro rfl
        rw [u.resv] at hr₁
        cases hr₁
        exact ht ho.symm
      have hrel := h.released_le.trans (h.settled.le_of_not_settled hr₁ hs)
      exact ⟨(u.other hjk).trans hr₁, u.pos_eq j,
        fun hgr => u.agreeOn h.toRingOk hjk hrel hr₁ (by simp [hgr])⟩

end Slot

/-! ## The end of the history -/

section End

variable {next cursor : ℕ} {r : Resv}

theorem getElem?_append_of_some {k : ℕ} {r₁ : Resv} (hr : s.resv[k]? = some r₁) :
    (s.append next r).resv[k]? = some r₁ := by
  obtain ⟨hlt, -⟩ := List.getElem?_eq_some_iff.mp hr
  rw [← hr]
  exact List.getElem?_append_left hlt

theorem getElem?_append_inv {k : ℕ} {r₁ : Resv} (hr : (s.append next r).resv[k]? = some r₁) :
    s.resv[k]? = some r₁ ∨ (k = s.resv.length ∧ r₁ = r) := by
  have hr' : (s.resv ++ [r])[k]? = some r₁ := hr
  rcases Nat.lt_or_ge k s.resv.length with hlt | hge
  · rw [List.getElem?_append_left hlt] at hr'
    exact .inl hr'
  · rw [List.getElem?_append_right hge] at hr'
    obtain ⟨h0, he⟩ := List.getElem?_eq_some_iff.mp hr'
    simp at h0 he
    exact .inr ⟨by omega, he.symm⟩

theorem pos_append {k : ℕ} (hk : k ≤ s.resv.length) :
    (s.append next r).pos start k = s.pos start k := by
  unfold State.pos State.blocksBefore State.append
  simp only [List.map_append]
  rw [offset_append_of_le _ (by simpa using hk)]

theorem pos_append_end :
    (s.append next r).pos start (s.append next r).resv.length =
      s.pos start s.resv.length + r.blocks := by
  have hlen : (s.append next r).resv.length = s.resv.length + 1 := by simp [State.append]
  have hlast : (s.append next r).resv[s.resv.length]? = some r := by simp [State.append]
  rw [hlen, State.pos_succ _ start hlast, pos_append le_rfl]

theorem keeps_append : Keeps start s (s.append next r) :=
  ⟨rfl, rfl, rfl, rfl, rfl, rfl, rfl, rfl, fun _ _ hr _ => getElem?_append_of_some hr,
    fun _ _ hr _ => pos_append (List.getElem?_eq_some_iff.mp hr).1⟩

/-- A new reservation that has not been granted anything. -/
theorem RingOk.append (h : RingOk N start s) (hres : r.phase = .reserved) (hpos : 0 < r.blocks)
    (hnext : next = (s.pos start s.resv.length + r.blocks) % 2 ^ 32)
    (hspan : s.pos start s.resv.length + r.blocks < s.pos start s.released + 2 ^ 32) :
    RingOk N start (s.append next r) := by
  have hold : ∀ {k : ℕ} {r₁ : Resv}, (s.append next r).resv[k]? = some r₁ → r₁.phase ≠ .reserved →
      s.resv[k]? = some r₁ := by
    intro k r₁ hr hg
    rcases getElem?_append_inv hr with hr | ⟨-, rfl⟩
    · exact hr
    · exact absurd hres hg
  refine h.of_keeps keeps_append ?_ ?_ ?_ ?_ ?_ ?_ (fun _ _ _ => rfl) fun _ _ _ => rfl
  · intro k r₁ hr
    rcases getElem?_append_inv hr with hr | ⟨-, rfl⟩
    · exact h.blocks_pos k r₁ hr
    · exact hpos
  · rw [pos_append_end]
    exact hnext
  · rw [pos_append_end]
    exact hspan
  · intro k r₁ hk hr hg
    have hr' := hold hr hg
    exact keeps_append.room (h.settled.mono h.released_le)
      (pos_append (List.getElem?_eq_some_iff.mp hr').1) (h.room k r₁ hk hr' hg)
  · intro k r₁ hk hr hkept
    rcases getElem?_append_inv hr with hr' | ⟨-, rfl⟩
    · rw [pos_append (List.getElem?_eq_some_iff.mp hr').1.le]
      exact h.kept k r₁ hk hr' hkept
    · simp [ChunkOk, hres]
  · intro q hq hq' hun
    refine h.free q hq hq' fun k r₁ hk hr hg hcov => ?_
    have hlt := (List.getElem?_eq_some_iff.mp hr).1
    refine hun k r₁ hk (getElem?_append_of_some hr) hg ?_
    rw [pos_append hlt.le, pos_append hlt]
    exact hcov

theorem Inv.append (h : Inv N start s) (hres : r.phase = .reserved) (hpos : 0 < r.blocks)
    (hnext : next = (s.pos start s.resv.length + r.blocks) % 2 ^ 32)
    (hspan : s.pos start s.resv.length + r.blocks < s.pos start s.released + 2 ^ 32) :
    Inv N start (s.append next r) where
  toRingOk := h.toRingOk.append hres hpos hnext hspan
  threads t := by
    have hrel : s.released ≤ s.resv.length := h.released_le.trans h.toRingOk.read_le
    refine (h.threads t).frame (pos_append hrel).ge fun k r₁ hr _ _ _ => ?_
    exact ⟨getElem?_append_of_some hr, pos_append (List.getElem?_eq_some_iff.mp hr).1.le,
      fun _ _ _ => rfl⟩

theorem getElem?_dropLast_inv {k : ℕ} {r₁ : Resv} (hr : (s.dropLast cursor).resv[k]? = some r₁) :
    k + 1 < s.resv.length ∧ s.resv[k]? = some r₁ := by
  have hr' : s.resv.dropLast[k]? = some r₁ := hr
  rw [List.getElem?_dropLast] at hr'
  split at hr'
  · exact ⟨by omega, hr'⟩
  · cases hr'

theorem getElem?_dropLast {k : ℕ} (hk : k + 1 < s.resv.length) :
    (s.dropLast cursor).resv[k]? = s.resv[k]? := by
  have : s.resv.dropLast[k]? = s.resv[k]? := by
    rw [List.getElem?_dropLast, if_pos (by omega)]
  exact this

theorem pos_dropLast {k : ℕ} (hk : k + 1 ≤ s.resv.length) :
    (s.dropLast cursor).pos start k = s.pos start k := by
  unfold State.pos State.blocksBefore State.dropLast offset
  simp only [List.dropLast_eq_take, List.map_take, List.take_take]
  rw [Nat.min_eq_left (by omega)]

variable {slot : ℕ}

/-- Taking back the last reservation, which was not granted. -/
theorem RingOk.dropLast (h : RingOk N start s) (hslot : slot + 1 = s.resv.length)
    (hlast : s.resv[slot]? = some r) (hres : r.phase = .reserved)
    (hcursor : cursor = s.pos start slot % 2 ^ 32) : RingOk N start (s.dropLast cursor) := by
  have hopen : r.phase.settled = false := by rw [hres]; rfl
  have hread : s.read ≤ slot := h.settled.le_of_not_settled hlast hopen
  have hlt : ∀ {k : ℕ} {r₁ : Resv}, s.resv[k]? = some r₁ → r₁.phase ≠ .reserved → k + 1 < s.resv.length := by
    intro k r₁ hr hg
    have hk := (List.getElem?_eq_some_iff.mp hr).1
    have hne : k ≠ slot := by
      rintro rfl
      rw [hlast] at hr
      cases hr
      exact hg hres
    omega
  have hlen : (s.dropLast cursor).resv.length = slot := by
    simp [State.dropLast]
    omega
  have hkeeps : Keeps start s (s.dropLast cursor) := by
    refine ⟨rfl, rfl, rfl, rfl, rfl, rfl, rfl, rfl, fun k r₁ hr hs => ?_, fun k r₁ hr hs => ?_⟩
    · have hk := hlt hr (by rintro he; rw [he] at hs; cases hs)
      exact (getElem?_dropLast hk).trans hr
    · exact pos_dropLast (hlt hr (by rintro he; rw [he] at hs; cases hs))
  refine h.of_keeps hkeeps ?_ ?_ ?_ ?_ ?_ ?_ (fun _ _ _ => rfl) fun _ _ _ => rfl
  · intro k r₁ hr
    exact h.blocks_pos k r₁ (getElem?_dropLast_inv hr).2
  · rw [hlen, pos_dropLast hslot.le]
    exact hcursor
  · rw [hlen, pos_dropLast hslot.le]
    have := s.pos_mono start (show slot ≤ s.resv.length by omega)
    have := h.span
    omega
  · intro k r₁ hk hr hg
    obtain ⟨hk', hr'⟩ := getElem?_dropLast_inv hr
    exact hkeeps.room (h.settled.mono h.released_le) (pos_dropLast hk') (h.room k r₁ hk hr' hg)
  · intro k r₁ hk hr hkept
    obtain ⟨hk', hr'⟩ := getElem?_dropLast_inv hr
    rw [pos_dropLast (by omega)]
    exact h.kept k r₁ hk hr' hkept
  · intro q hq hq' hun
    refine h.free q hq hq' fun k r₁ hk hr hg hcov => ?_
    have hk' := hlt hr hg
    refine hun k r₁ hk ((getElem?_dropLast hk').trans hr) hg ?_
    rw [pos_dropLast (by omega), pos_dropLast hk']
    exact hcov

theorem Inv.dropLast (h : Inv N start s) {t : ℕ} {th : Thread} (hslot : slot + 1 = s.resv.length)
    (hlast : s.resv[slot]? = some r) (hres : r.phase = .reserved) (howner : r.owner = t)
    (hcursor : cursor = s.pos start slot % 2 ^ 32)
    (hth : ThreadOk N start (s.dropLast cursor) t th) :
    Inv N start ((s.dropLast cursor).setThread t th) where
  toRingOk := (h.toRingOk.dropLast hslot hlast hres hcursor).setThread t th
  threads u := by
    by_cases hu : u = t
    · subst hu
      simpa [State.setThread] using hth.setThread u th
    · have hne : ((s.dropLast cursor).setThread t th).threads u = s.threads u := by
        simp [State.setThread, State.dropLast, hu]
      have hread := h.settled.le_of_not_settled hlast (by rw [hres]; rfl)
      have hrel := h.released_le
      rw [hne]
      refine ThreadOk.setThread ((h.threads u).frame (pos_dropLast (by omega)).ge
        fun k r₁ hr ho _ _ => ?_) t th
      have hk := (List.getElem?_eq_some_iff.mp hr).1
      have hks : k ≠ slot := by
        rintro rfl
        rw [hlast] at hr
        cases hr
        exact hu (ho.symm.trans howner)
      exact ⟨(getElem?_dropLast (by omega)).trans hr, pos_dropLast (by omega), fun _ _ _ => rfl⟩

end End

/-! ## The steps of `alloc_write_chunk` -/

section Steps

variable {t : ℕ} {call : Call} {cursor slot : ℕ}

theorem CallOk.withUsed (h : CallOk N call) (used : ℕ) : CallOk N { call with used := used } :=
  ⟨h.need_pos, h.need_le, h.need_lt, h.size_lt, h.fits⟩

theorem pcOk_checkRoom (h : CallOk N call) (ref cur : ℕ) :
    PcOk N start s t (checkRoom N ref cur call) := by
  unfold checkRoom
  split <;> exact h

theorem Inv.alloc (h : Inv N start s) (size : ℕ) (hsize : size + 8 ≤ 2 ^ 32) (tlsRecycled : Bool) :
    Inv N start (allocCall N s t size tlsRecycled) := by
  have hth := h.threads t
  have hcopy : ∀ c, (if tlsRecycled then none else (s.threads t).cache) = some c →
      c = (start + (s.threads t).loaded) % 2 ^ 32 := by
    intro c hc
    split at hc
    · cases hc
    · exact hth.copy c hc
  unfold allocCall
  simp only
  split
  · exact h.setThread ⟨hcopy, nofun, hth.loaded_le, trivial⟩
  · rename_i hvalid
    have hvalid' : needBlocks size ≤ N.count ∧ needBlocks size ≠ 0 ∧ needBlocks size < 2 ^ 24 := by
      unfold maxBlockNumPerChunk at hvalid
      omega
    obtain ⟨hle, hne, hlt⟩ := hvalid'
    refine h.setThread ⟨hcopy, nofun, hth.loaded_le, ?_⟩
    exact ⟨Nat.pos_of_ne_zero hne, hle, hlt, show size < 2 ^ 32 by omega, fits_needBlocks hsize hne⟩

/-- The head block of an open reservation. -/
theorem SlotOk.index_eq {ph : Phase} (h : SlotOk start s t call cursor slot ph) :
    N.index cursor = s.pos start slot % N.count := by
  rw [h.cursor, N.index_mod]

theorem SlotOk.lt_length {ph : Phase} (h : SlotOk start s t call cursor slot ph) :
    slot < s.resv.length :=
  (List.getElem?_eq_some_iff.mp h.resv).1

theorem SlotOk.next_eq {ph : Phase} (h : SlotOk start s t call cursor slot ph) :
    add32 cursor call.need = s.pos start (slot + 1) % 2 ^ 32 := by
  rw [h.cursor, add32_mod, s.pos_succ start h.resv]

/-- The reservation of a call in phase `ph`. -/
abbrev Call.resv (call : Call) (t : ℕ) (ph : Phase) : Resv := ⟨t, call.size, call.need, ph⟩

/-- The blocks of a reservation with room that is not granted yet are unused. -/
theorem RingOk.statusByte_of_reserved (h : RingOk N start s)
    (hs : SlotOk start s t call cursor slot .reserved)
    (hlt : s.pos start slot < s.pos start s.released + N.count) :
    statusByte s.blocks (s.pos start slot % N.count) = 0 := by
  have hrel : s.released ≤ slot :=
    h.released_le.trans (h.settled.le_of_not_settled hs.resv rfl)
  refine h.free _ (s.pos_mono start hrel) hlt fun k r hk hr hg hcov => ?_
  rcases lt_trichotomy k slot with hlt | rfl | hlt
  · have := s.pos_mono start (show k + 1 ≤ slot by omega)
    omega
  · rw [hs.resv] at hr
    cases hr
    exact hg rfl
  · have := h.pos_lt hlt (List.getElem?_eq_some_iff.mp hr).1.le
    omega

/-- The test of the room succeeded: the reservation is granted. -/
theorem Inv.grant (h : Inv N start s) (hcall : CallOk N call)
    (hs : SlotOk start s t call cursor slot .reserved)
    (hlt : s.pos start (slot + 1) < s.pos start s.released + N.count) (th : Thread)
    (hpc : th.pc = .setHead call cursor slot)
    (hth : ∀ pc, PcOk N start s t pc → ThreadOk N start s t { th with pc := pc }) :
    Inv N start ((s.setPhase slot (call.resv t .granted)).setThread t th) := by
  have hle := s.pos_mono start (slot.le_add_right 1)
  have hz := h.toRingOk.statusByte_of_reserved hs (by omega)
  have u : SlotUpdate N start s slot (call.resv t .reserved) (call.resv t .granted) s.blocks :=
    ⟨hs.resv, rfl, rfl, nofun, .inl hlt, fun _ => rfl, fun _ _ => rfl, hz⟩
  have hslot : SlotOk start ((s.setBlocks s.blocks).setPhase slot (call.resv t .granted)) t call
      cursor slot .granted := ⟨u.self, by rw [u.pos_eq]; exact hs.cursor⟩
  refine h.updateSlot u th ?_
  have hth' := hth .idle trivial
  refine ⟨hth'.copy, fun _ => ?_, ?_, ?_⟩
  · exact (hth (.rollBack call cursor slot) ⟨hcall, hs⟩).hasCopy rfl
  · rw [u.pos_eq]
    exact hth'.loaded_le
  · rw [hpc]
    exact ⟨hcall, hslot⟩

theorem Inv.reserve (h : Inv N start s) (hpc : (s.threads t).pc = .reserve call)
    (hok : ReserveOk N s (s.threads t) call) :
    ∀ s', allocStep N s t = some s' → Inv N start s' := by
  have hth := h.threads t
  have hcall : CallOk N call := by simpa [hpc, PcOk] using hth.pcOk
  obtain ⟨c, hc⟩ := Option.isSome_iff_exists.mp (hth.hasCopy (by rw [hpc]; rfl))
  have hloaded := hth.loaded_le
  have hrel : s.released ≤ s.resv.length := h.released_le.trans h.toRingOk.read_le
  have hmono := s.pos_mono start hrel
  obtain ⟨hspan, hexact⟩ := hok
  have hpos : ∀ k, s.pos start k = start + s.blocksBefore k := fun _ => rfl
  have hnext : add32 s.writeCursor call.need =
      (s.pos start s.resv.length + call.need) % 2 ^ 32 := by rw [h.write, add32_mod]
  have hsub : sub32 (add32 s.writeCursor call.need) c =
      (s.blocksBefore s.resv.length + call.need - (s.threads t).loaded) % 2 ^ 32 := by
    rw [hnext, hth.copy c hc, sub32_mod_mod (by omega)]
    congr 1
    rw [hpos]
    omega
  have happ := h.append (r := call.resv t .reserved) rfl hcall.need_pos hnext
    (by rw [hpos, hpos] at *; show _ + call.need < _; omega)
  have hslot : SlotOk start (s.append (add32 s.writeCursor call.need) (call.resv t .reserved)) t
      call s.writeCursor s.resv.length .reserved :=
    ⟨by simp [State.append], by rw [pos_append le_rfl]; exact h.write⟩
  have hsame : ∀ pc, PcOk N start (s.append (add32 s.writeCursor call.need)
      (call.resv t .reserved)) t pc → ThreadOk N start (s.append (add32 s.writeCursor call.need)
      (call.resv t .reserved)) t { s.threads t with pc := pc } := by
    intro pc hp
    refine ⟨hth.copy, fun _ => by simp [hc], ?_, hp⟩
    have : (s.append (add32 s.writeCursor call.need) (call.resv t .reserved)).pos start s.released =
      s.pos start s.released := pos_append hrel
    exact this ▸ hloaded
  intro s' hs'
  simp only [allocStep, hpc, Thread.readCursorRef, hc, Option.getD_some] at hs'
  split at hs'
  · cases hs'
    exact happ.setThread (hsame (.recheck call s.writeCursor s.resv.length) ⟨hcall, hslot⟩)
  · rename_i hlt
    cases hs'
    rw [hsub] at hlt
    have hroom : (s.append (add32 s.writeCursor call.need) (call.resv t .reserved)).pos start
        (s.resv.length + 1) < (s.append (add32 s.writeCursor call.need)
        (call.resv t .reserved)).pos start s.released + N.count := by
      rw [State.pos_succ _ start hslot.resv, pos_append le_rfl, pos_append hrel]
      rw [hpos, hpos] at *
      show _ + call.need < _
      have : s.blocksBefore s.resv.length + call.need - (s.threads t).loaded < N.count := by
        rcases hexact with hsmall | hbig
        · rw [Nat.mod_eq_of_lt hsmall] at hlt
          omega
        · omega
      omega
    have := happ.grant hcall hslot hroom { s.threads t with
      pc := .setHead call s.writeCursor s.resv.length } rfl fun pc hp => hsame pc hp
    have he : (s.append (add32 s.writeCursor call.need) (call.resv t .reserved)).setPhase
        s.resv.length (call.resv t .granted) =
        s.append (add32 s.writeCursor call.need) (call.resv t .granted) := by
      simp [State.append, State.setPhase]
    rw [he] at this
    exact this

theorem Inv.recheck (h : Inv N start s) (hpc : (s.threads t).pc = .recheck call cursor slot) :
    ∀ s', allocStep N s t = some s' → Inv N start s' := by
  have hth := h.threads t
  obtain ⟨hcall, hs⟩ : CallOk N call ∧ SlotOk start s t call cursor slot .reserved := by
    simpa [hpc, PcOk] using hth.pcOk
  have hread := h.settled.le_of_not_settled hs.resv rfl
  have hlen := hs.lt_length
  have hmono := s.pos_mono start (h.released_le.trans (hread.trans (slot.le_add_right 1)))
  have hsub : sub32 (add32 cursor call.need) s.readCursor =
      s.pos start (slot + 1) - s.pos start s.released := by
    rw [hs.next_eq, h.readCursor]
    exact h.toRingOk.sub32_pos le_rfl (h.released_le.trans (by omega)) hlen
  intro s' hs'
  simp only [allocStep, hpc, hsub] at hs'
  split at hs'
  · cases hs'
    exact h.loadCopy ⟨hcall, hs⟩
  · rename_i hlt
    cases hs'
    have hb : (s.setPhase slot (call.resv t .granted)).blocksBefore s.released =
        s.blocksBefore s.released := congrArg (offset · s.released) (map_blocks_set hs.resv rfl)
    have := h.grant hcall hs (by omega)
      ⟨some s.readCursor, .setHead call cursor slot, s.blocksBefore s.released⟩ rfl
      fun pc hp => h.toRingOk.threadOk_loadCopy hp
    rw [← hb] at this
    exact this

/-- The compare-exchange succeeds only while the reservation is the last one. -/
theorem RingOk.last_of_cursor_eq (h : RingOk N start s)
    (hs : SlotOk start s t call cursor slot .reserved)
    (he : s.writeCursor = add32 cursor call.need) : slot + 1 = s.resv.length := by
  have hread := h.settled.le_of_not_settled hs.resv rfl
  have hlen := hs.lt_length
  by_contra hne
  have hlt := h.pos_lt (show slot + 1 < s.resv.length by omega) le_rfl
  have hsub := h.sub32_pos (show s.released ≤ slot + 1 from h.released_le.trans (by omega)) hlen
    le_rfl
  rw [← h.write, he, ← hs.next_eq] at hsub
  have h0 : sub32 (add32 cursor call.need) (add32 cursor call.need) = 0 := by
    unfold sub32
    omega
  omega

theorem Inv.rollBack (h : Inv N start s) (hpc : (s.threads t).pc = .rollBack call cursor slot) :
    ∀ s', allocStep N s t = some s' → Inv N start s' := by
  have hth := h.threads t
  obtain ⟨hcall, hs⟩ : CallOk N call ∧ SlotOk start s t call cursor slot .reserved := by
    simpa [hpc, PcOk] using hth.pcOk
  intro s' hs'
  simp only [allocStep, hpc] at hs'
  split at hs'
  · rename_i he
    cases hs'
    have hlast := h.toRingOk.last_of_cursor_eq hs he
    have hread := h.settled.le_of_not_settled hs.resv rfl
    refine h.dropLast hlast hs.resv rfl rfl hs.cursor ⟨hth.copy, by simp [Pc.hasCopy], ?_, trivial⟩
    have hrel := h.released_le
    have : (s.dropLast cursor).pos start s.released = s.pos start s.released :=
      pos_dropLast (by omega)
    exact this ▸ hth.loaded_le
  · cases hs'
    exact h.goto (fun _ => hth.hasCopy (by rw [hpc]; rfl)) ⟨hcall, hs⟩

/-- A store into the granted blocks that leaves the chunk unused. -/
theorem Inv.writeSlot (h : Inv N start s) {m : Mem} {pc : Pc}
    (hs : SlotOk start s t call cursor slot .granted)
    (hframe : ∀ x, x / 128 ∉ ringBlocks N.count (s.pos start slot) call.need → m x = s.blocks x)
    (hz : statusByte m (s.pos start slot % N.count) = 0)
    (hcopy : pc.hasCopy → (s.threads t).cache.isSome)
    (hpc : PcOk N start (s.setBlocks m) t pc) : Inv N start ((s.setBlocks m).goto t pc) := by
  have hrel := h.released_le.trans (h.settled.le_of_not_settled hs.resv rfl)
  have u : SlotUpdate N start s slot (call.resv t .granted) (call.resv t .granted) m :=
    ⟨hs.resv, rfl, rfl, nofun, h.room slot _ hrel hs.resv nofun, nofun, hframe, hz⟩
  have hself : (s.setBlocks m).setPhase slot (call.resv t .granted) = s.setBlocks m :=
    setPhase_self (s := s.setBlocks m) hs.resv
  have hth := h.threads t
  have := h.updateSlot u { s.threads t with pc := pc }
    ⟨hth.copy, hcopy, by rw [u.pos_eq]; exact hth.loaded_le, by rw [hself]; exact hpc⟩
  rw [hself] at this
  exact this

/-- The granted chunk is unused until it is committed. -/
theorem RingOk.statusByte_of_granted (h : RingOk N start s)
    (hs : SlotOk start s t call cursor slot .granted) :
    statusByte s.blocks (s.pos start slot % N.count) = 0 := by
  have hread := h.settled.le_of_not_settled hs.resv rfl
  have hskip : s.consumer.isSkipping → slot ≠ s.read := by
    rintro hsk rfl
    have hc := h.consumerOk
    cases hcon : s.consumer <;> simp only [hcon, Consumer.isSkipping] at hsk <;> try cases hsk
    rw [hcon] at hc
    obtain ⟨r, hr, hinv, -⟩ := hc
    rw [hs.resv] at hr
    cases hr
    cases hinv
  exact h.kept slot _ (h.released_le.trans hread) hs.resv (.inl ⟨hread, hskip⟩)

/-- Stores into the head stay inside the chunk. -/
theorem not_head_of_not_mem (hcall : CallOk N call) {p x : ℕ}
    (h : x / 128 ∉ ringBlocks N.count p call.need) : x / 128 ≠ p % N.count :=
  fun he => h (he ▸ mod_mem_ringBlocks p hcall.need_pos)

theorem Inv.setHead (h : Inv N start s) (hpc : (s.threads t).pc = .setHead call cursor slot) :
    ∀ s', allocStep N s t = some s' → Inv N start s' := by
  have hth := h.threads t
  obtain ⟨hcall, hs⟩ : CallOk N call ∧ SlotOk start s t call cursor slot .granted := by
    simpa [hpc, PcOk] using hth.pcOk
  intro s' hs'
  simp only [allocStep, hpc, hs.index_eq (N := N), Option.some.injEq] at hs'
  subst hs'
  refine h.writeSlot hs ?_ (statusByte_setBlockNum _ _ hcall.need_lt)
    (fun _ => hth.hasCopy (by rw [hpc]; rfl)) ?_
  · intro x hx
    exact Mem.store_apply_of_not_mem _ _ (by have := not_head_of_not_mem hcall hx; omega)
  · have hnum := getBlockNum_setBlockNum s.blocks (s.pos start slot % N.count) hcall.need_lt
    split
    · exact ⟨hcall, ⟨hs.resv, hs.cursor⟩, hnum⟩
    · rename_i hfit
      exact ⟨hcall, ⟨hs.resv, hs.cursor⟩, hnum, not_lt.mp hfit⟩

theorem Inv.setSize (h : Inv N start s) (hpc : (s.threads t).pc = .setSize call cursor slot) :
    ∀ s', allocStep N s t = some s' → Inv N start s' := by
  have hth := h.threads t
  have hpcOk := hth.pcOk
  rw [hpc] at hpcOk
  obtain ⟨hcall, hs, hnum, hfit⟩ := hpcOk
  have hz := h.toRingOk.statusByte_of_granted hs
  have hsize := dataSize_setDataSize s.blocks (s.pos start slot % N.count) hcall.size_lt
  have hnum' := (getBlockNum_setDataSize s.blocks (s.pos start slot % N.count) call.size).trans hnum
  intro s' hs'
  simp only [allocStep, hpc, hs.index_eq (N := N), Option.some.injEq] at hs'
  subst hs'
  refine h.writeSlot hs ?_ ((statusByte_setDataSize _ _ _).trans hz)
    (fun _ => hth.hasCopy (by rw [hpc]; rfl)) ?_
  · intro x hx
    exact Mem.store_apply_of_not_mem _ _ (by have := not_head_of_not_mem hcall hx; omega)
  · split
    · exact ⟨hcall.withUsed _, ⟨hs.resv, hs.cursor⟩, hnum', hfit, hsize⟩
    · exact ⟨hcall.withUsed _, ⟨hs.resv, hs.cursor⟩, hnum', hfit, hsize⟩

/-- A reservation that runs over the end is left behind. -/
theorem Inv.markInvalid (h : Inv N start s)
    (hpc : (s.threads t).pc = .markInvalid call cursor slot) :
    ∀ s', allocStep N s t = some s' → Inv N start s' := by
  have hth := h.threads t
  have hpcOk := hth.pcOk
  rw [hpc] at hpcOk
  obtain ⟨hcall, hs, hnum⟩ := hpcOk
  have hrel := h.released_le.trans (h.settled.le_of_not_settled hs.resv rfl)
  intro s' hs'
  simp only [allocStep, hpc, hs.index_eq (N := N), Option.some.injEq] at hs'
  subst hs'
  have u : SlotUpdate N start s slot (call.resv t .granted) (call.resv t .invalid)
      (setStatus s.blocks (s.pos start slot % N.count) .invalid) := by
    refine ⟨hs.resv, rfl, rfl, nofun, h.room slot _ hrel hs.resv nofun, nofun, ?_, ?_⟩
    · intro x hx
      exact setStatus_apply_of_ne _ _ _ (by have := not_head_of_not_mem hcall hx; omega)
    · exact ⟨by rw [statusByte_setStatus_self]; rfl, by rw [getBlockNum_setStatus]; exact hnum⟩
  refine h.updateSlot u _ ⟨hth.copy, fun _ => hth.hasCopy (by rw [hpc]; rfl), ?_,
    pcOk_checkRoom hcall _ _⟩
  rw [u.pos_eq]
  exact hth.loaded_le

/-- **`alloc_write_chunk` keeps the invariant**, step by step. -/
theorem Inv.produce (h : Inv N start s) (hok : StepOk N s (.produce t)) :
    ∀ s', allocStep N s t = some s' → Inv N start s' := by
  have hth := h.threads t
  have hpcOk := hth.pcOk
  simp only [StepOk] at hok
  cases hpc : (s.threads t).pc with
  | idle =>
    intro s' hs'
    simp [allocStep, hpc] at hs'
  | loadWrite call =>
    rw [hpc] at hpcOk
    intro s' hs'
    simp only [allocStep, hpc] at hs'
    cases hc : (s.threads t).cache with
    | none =>
      rw [hc] at hs'
      cases hs'
      exact h.goto nofun hpcOk
    | some ref =>
      rw [hc] at hs'
      cases hs'
      exact h.goto (fun _ => by simp [hc]) (pcOk_checkRoom (CallOk.withUsed hpcOk _) _ _)
  | loadRead call cur =>
    rw [hpc] at hpcOk
    intro s' hs'
    simp only [allocStep, hpc, Option.some.injEq] at hs'
    subst hs'
    exact h.loadCopy (pcOk_checkRoom (CallOk.withUsed hpcOk _) _ _)
  | reload call cur =>
    rw [hpc] at hpcOk
    intro s' hs'
    simp only [allocStep, hpc, Option.some.injEq] at hs'
    subst hs'
    refine h.loadCopy ?_
    split
    · trivial
    · exact hpcOk
  | reserve call =>
    exact h.reserve hpc (hok call (by rw [hpc]; rfl))
  | recheck call cursor slot => exact h.recheck hpc
  | rollBack call cursor slot => exact h.rollBack hpc
  | setHead call cursor slot => exact h.setHead hpc
  | markInvalid call cursor slot => exact h.markInvalid hpc
  | setSize call cursor slot => exact h.setSize hpc
  | lowSpace call cursor slot =>
    rw [hpc] at hpcOk
    obtain ⟨hcall, hs, hrest⟩ := hpcOk
    intro s' hs'
    simp only [allocStep, hpc, Option.some.injEq] at hs'
    subst hs'
    exact h.loadCopy ⟨hcall.withUsed _, ⟨hs.resv, hs.cursor⟩, hrest⟩
  | holding call cursor slot flag =>
    intro s' hs'
    simp [allocStep, hpc] at hs'

/-! ## The payload and the commit -/

variable {flag : Bool}

theorem Inv.writePayload (h : Inv N start s)
    (hpc : (s.threads t).pc = .holding call cursor slot flag) {i : ℕ} (hi : i < call.size) (v : UInt8) :
    Inv N start (s.setBlocks (s.blocks.poke (dataAddr (N.index cursor) + i) v)) := by
  have hth := h.threads t
  have hpcOk := hth.pcOk
  rw [hpc] at hpcOk
  obtain ⟨hcall, hs, hnum, hfit, hsize⟩ := hpcOk
  have hz := h.toRingOk.statusByte_of_granted hs
  rw [hs.index_eq]
  obtain ⟨hst, hnum', hsize'⟩ := head_of_poke (m := s.blocks) (b := s.pos start slot % N.count) i v
  have hself : ∀ m, (s.setBlocks m).goto t (.holding call cursor slot flag) = s.setBlocks m := by
    intro m
    simp only [State.goto, State.setThread, State.setBlocks, ← hpc]
    rw [Function.update_eq_self]
  rw [← hself]
  refine h.writeSlot hs ?_ (hst.trans hz) (fun _ => hth.hasCopy (by rw [hpc]; rfl)) ?_
  · intro x hx
    refine Mem.poke_apply_of_ne _ _ ?_
    rintro rfl
    obtain ⟨j, hj, he⟩ := payload_block (b := s.pos start slot % N.count) hcall.fits.1 hi
    exact hx (he ▸ mod_add_mem_ringBlocks hfit hj)
  · exact ⟨hcall, ⟨hs.resv, hs.cursor⟩, hnum'.trans hnum, hfit, hsize'.trans hsize⟩

theorem Inv.commit (h : Inv N start s) (hpc : (s.threads t).pc = .holding call cursor slot flag) :
    Inv N start (commitWriteChunk N s t call cursor slot) := by
  have hth := h.threads t
  have hpcOk := hth.pcOk
  rw [hpc] at hpcOk
  obtain ⟨hcall, hs, hnum, hfit, hsize⟩ := hpcOk
  have hrel := h.released_le.trans (h.settled.le_of_not_settled hs.resv rfl)
  unfold commitWriteChunk
  simp only [hs.index_eq (N := N)]
  have u : SlotUpdate N start s slot (call.resv t .granted) (call.resv t (.committed
      (s.blocks.slice (dataAddr (s.pos start slot % N.count)) call.size)))
      (setStatus s.blocks (s.pos start slot % N.count) .used) := by
    refine ⟨hs.resv, rfl, rfl, nofun, h.room slot _ hrel hs.resv nofun, nofun, ?_, ?_⟩
    · intro x hx
      exact setStatus_apply_of_ne _ _ _ (by have := not_head_of_not_mem hcall hx; omega)
    · refine ⟨by rw [statusByte_setStatus_self]; rfl, ?_, ?_, slice_setStatus _ _ _ _, hfit,
        hcall.fits⟩
      · rw [getBlockNum_setStatus]
        exact hnum
      · rw [dataSize_setStatus]
        exact hsize
  refine h.updateSlot u _ ⟨hth.copy, nofun, ?_, trivial⟩
  rw [u.pos_eq]
  exact hth.loaded_le

end Steps

end QLog.Miso
