import QLog.Buffer.Miso.Producer

/-!
# The consumer's steps

`RingOk.look` says what the consumer finds: at a settled reservation the chunk that its phase says,
elsewhere an unused block. The consumer's stores only reset status bytes of blocks that it has
passed (`RingOk.setUnused`), its cursor moves over one settled reservation at a time
(`RingOk.advance`), and the release gives back blocks that have all been reset.
-/

namespace QLog.Miso

variable {N : BlockCount} {start : ℕ} {s s' : State} {c : Consumer}

/-- The threads do not notice a consumer that leaves the granted blocks alone. -/
theorem Inv.of_consumer (h : Inv N start s) (h' : RingOk N start s') (hresv : s'.resv = s.resv)
    (hthreads : s'.threads = s.threads)
    (hrel : s.pos start s.released ≤ s'.pos start s'.released)
    (hag : ∀ (k : ℕ) (r : Resv), s.read ≤ k → s.resv[k]? = some r → r.phase = .granted →
      AgreeOn s'.blocks s.blocks (ringBlocks N.count (s.pos start k) r.blocks)) :
    Inv N start s' where
  toRingOk := h'
  threads t := by
    rw [hthreads]
    refine (h.threads t).frame hrel fun k r hr _ hs _ => ⟨by rw [hresv]; exact hr, ?_, fun hg => ?_⟩
    · unfold State.pos State.blocksBefore
      rw [hresv]
    · exact hag k r (h.settled.le_of_not_settled hr hs) hr hg

/-! ## What the consumer finds -/

namespace RingOk

/-- The reservation behind the ones that can be passed starts inside the ring, unless the consumer
has come round to a first block that it has reset. -/
theorem statusByte_of_uncovered (h : RingOk N start s) {k : ℕ} (hk : s.read ≤ k)
    (hset : s.SettledBefore k) (hres : ∀ r, s.resv[k]? = some r → r.phase = .reserved)
    (hin : s.pos start k < s.pos start s.released + N.count ∨
      k = s.read ∧ s.consumer.isFlushing = false) :
    statusByte s.blocks (s.pos start k % N.count) = 0 := by
  have hrel := h.released_le
  have hmono := s.pos_mono start (hrel.trans hk)
  by_cases hlt : s.pos start k < s.pos start s.released + N.count
  · refine h.free _ hmono hlt fun j r hj hr hg hcov => ?_
    rcases lt_trichotomy j k with hjk | rfl | hjk
    · have := s.pos_mono start (show j + 1 ≤ k by omega)
      omega
    · exact hg (hres r hr)
    · have := h.pos_lt hjk (List.getElem?_eq_some_iff.mp hr).1.le
      omega
  · obtain ⟨rfl, hfl⟩ := hin.resolve_left hlt
    have hne : s.released < s.read := by
      rcases Nat.lt_or_ge s.released s.read with hlt' | hge
      · exact hlt'
      · have := N.count_pos
        rw [le_antisymm hge hrel] at hlt
        omega
    obtain ⟨r, hr, hs⟩ := hset (s.read - 1) (by omega)
    have hroom := h.room (s.read - 1) r (by omega) hr (by rintro he; rw [he] at hs; cases hs)
    rw [Room, show s.read - 1 + 1 = s.read by omega] at hroom
    obtain ⟨hend, -, htight⟩ := hroom.resolve_left hlt
    rcases htight with hfl' | ⟨j, r', hj, hr', hc, -⟩ | ⟨r', hr', hinv⟩
    · rw [hfl] at hfl'
      cases hfl'
    · have hset' := Phase.settled_of_isCommitted hc
      have hle := h.pos_succ_le (hrel.trans hj) hr' (by rintro he; rw [he] at hset'; cases hset')
      have := h.pos_lt (show s.read < j + 1 by omega) (List.getElem?_eq_some_iff.mp hr').1
      omega
    · rw [hend, Nat.add_mod_right]
      exact h.cleared _ r' le_rfl hne hr' hinv

/-- **What the consumer finds**: the chunk of a settled reservation, or an unused block. -/
theorem look (h : RingOk N start s) {k : ℕ} (hk : s.read ≤ k) (hset : s.SettledBefore k)
    (hsk : s.consumer.isSkipping = false)
    (hin : s.pos start k < s.pos start s.released + N.count ∨
      k = s.read ∧ s.consumer.isFlushing = false) :
    (∃ r, s.resv[k]? = some r ∧ r.phase.settled ∧ ChunkOk N s.blocks (s.pos start k) r) ∨
    ((∀ r, s.resv[k]? = some r → r.phase.settled = false) ∧
      statusByte s.blocks (s.pos start k % N.count) = 0) := by
  have hrel := h.released_le.trans hk
  have hkept : ∀ r, s.resv[k]? = some r → ChunkOk N s.blocks (s.pos start k) r :=
    fun r hr => h.kept k r hrel hr (.inl ⟨hk, by simp [hsk]⟩)
  cases hr : s.resv[k]? with
  | none =>
    refine .inr ⟨nofun, h.statusByte_of_uncovered hk hset (fun r hr' => ?_) hin⟩
    rw [hr] at hr'
    cases hr'
  | some r =>
    have hchunk := hkept r hr
    cases hph : r.phase with
    | reserved =>
      refine .inr ⟨fun r' hr' => ?_, h.statusByte_of_uncovered hk hset (fun r' hr' => ?_) hin⟩
      · cases hr'
        rw [hph]
        rfl
      · rw [hr] at hr'
        cases hr'
        exact hph
    | granted =>
      refine .inr ⟨fun r' hr' => ?_, by simpa [ChunkOk, hph] using hchunk⟩
      cases hr'
      rw [hph]
      rfl
    | invalid => exact .inl ⟨r, rfl, by rw [hph]; rfl, hchunk⟩
    | committed payload => exact .inl ⟨r, rfl, by rw [hph]; rfl, hchunk⟩

end RingOk

theorem status_of_byte_zero {m : Mem} {b : ℕ} (h : statusByte m b = 0) :
    status m b = some .unused := by
  simp [status, h, BlockStatus.ofByte]

theorem ChunkOk.status_invalid {m : Mem} {p : ℕ} {r : Resv} (h : ChunkOk N m p r)
    (hph : r.phase = .invalid) :
    status m (p % N.count) = some .invalid ∧ getBlockNum m (p % N.count) = r.blocks := by
  simp only [ChunkOk, hph] at h
  simp [status, h.1, h.2, BlockStatus.ofByte]

theorem ChunkOk.status_committed {m : Mem} {p : ℕ} {r : Resv} {payload : List UInt8}
    (h : ChunkOk N m p r) (hph : r.phase = .committed payload) :
    status m (p % N.count) = some .used ∧ getBlockNum m (p % N.count) = r.blocks ∧
    dataSize m (p % N.count) = r.size ∧ m.slice (dataAddr (p % N.count)) r.size = payload ∧
    dataAddr (p % N.count) + r.size ≤ 128 * N.count := by
  simp only [ChunkOk, hph] at h
  obtain ⟨hst, hnum, hsize, hslice, hfit, hfits⟩ := h
  refine ⟨by simp [status, hst, BlockStatus.ofByte], hnum, hsize, hslice, ?_⟩
  unfold Fits at hfits
  unfold dataAddr
  omega

theorem filterMap_take_succ {k : ℕ} {r : Resv} (hr : s.resv[k]? = some r) :
    (s.resv.take (k + 1)).filterMap Resv.delivery =
      (s.resv.take k).filterMap Resv.delivery ++ r.delivery.toList := by
  obtain ⟨hlt, rfl⟩ := List.getElem?_eq_some_iff.mp hr
  rw [List.take_succ_eq_append_getElem hlt, List.filterMap_append]
  cases hd : Resv.delivery s.resv[k] <;> simp [hd]

/-! ## Steps that only move the consumer -/

theorem RingOk.setConsumer (h : RingOk N start s) (hfl : c.isFlushing = s.consumer.isFlushing)
    (hsk : s.consumer.isSkipping = false) (hh : c.isHolding = s.consumer.isHolding)
    (hrl : c = .release ↔ s.consumer = .release) (hc : ConsumerOk N start s c) :
    RingOk N start { s with consumer := c } := by
  have htight : Tight N start s → Tight N start { s with consumer := c } := by
    rintro (hf | ht | ht)
    · exact .inl (hfl.trans hf)
    · exact .inr (.inl ht)
    · exact .inr (.inr ht)
  refine { h with startCache := ?_, room := ?_, kept := ?_, consumerOk := hc, delivered := ?_ }
  · simp only [hrl]
    exact h.startCache
  · intro k r hk hr hg
    exact (h.room k r hk hr hg).imp id (And.imp id (And.imp id htight))
  · rintro k r hk hr (⟨hle, -⟩ | ⟨hlt, hcm, hf⟩)
    · exact h.kept k r hk hr (.inl ⟨hle, by simp [hsk]⟩)
    · exact h.kept k r hk hr (.inr ⟨hlt, hcm, hfl.symm.trans hf⟩)
  · have : ({ s with consumer := c } : State).passed = s.passed := by simp [State.passed, hh]
    rw [this]
    exact h.delivered

theorem Inv.setConsumer (h : Inv N start s) (hfl : c.isFlushing = s.consumer.isFlushing)
    (hsk : s.consumer.isSkipping = false) (hh : c.isHolding = s.consumer.isHolding)
    (hrl : c = .release ↔ s.consumer = .release) (hc : ConsumerOk N start s c) :
    Inv N start { s with consumer := c } :=
  h.of_consumer (h.toRingOk.setConsumer hfl hsk hh hrl hc) rfl rfl le_rfl fun _ _ _ _ _ _ _ => rfl

/-- `read_chunk` hands out the chunk of a committed reservation. -/
theorem RingOk.deliver (h : RingOk N start s) (hcon : s.consumer = .looking) {r : Resv}
    {payload : List UInt8} (hr : s.resv[s.read]? = some r) (hph : r.phase = .committed payload) :
    RingOk N start { s with
      consumer := .holding ⟨dataAddr (s.pos start s.read % N.count), .success, r.size⟩
      delivered := s.delivered ++ [⟨r.size, payload⟩] } := by
  have htight : Tight N start s → Tight N start { s with
      consumer := .holding ⟨dataAddr (s.pos start s.read % N.count), .success, r.size⟩
      delivered := s.delivered ++ [⟨r.size, payload⟩] } := by
    rintro (hf | ht | ht)
    · rw [hcon] at hf
      cases hf
    · exact .inr (.inl ht)
    · exact .inr (.inr ht)
  refine { h with startCache := ?_, room := ?_, kept := ?_, consumerOk := ?_, delivered := ?_ }
  · simpa [State.pos, State.blocksBefore] using h.startCache_of_ne (by simp [hcon])
  · intro k r' hk hr' hg
    exact (h.room k r' hk hr' hg).imp id (And.imp id (And.imp id htight))
  · rintro k r' hk hr' (⟨hle, -⟩ | ⟨hlt, hcm, -⟩)
    · exact h.kept k r' hk hr' (.inl ⟨hle, by simp [hcon, Consumer.isSkipping]⟩)
    · exact h.kept k r' hk hr' (.inr ⟨hlt, hcm, by simp [hcon, Consumer.isFlushing]⟩)
  · exact ⟨r, hr, by rw [hph]; rfl, rfl⟩
  · have hpassed : s.passed = s.read := by simp [State.passed, hcon, Consumer.isHolding]
    have hd : r.delivery = some ⟨r.size, payload⟩ := by simp [Resv.delivery, hph]
    have hdel := h.delivered
    rw [hpassed] at hdel
    simp only [State.passed, Consumer.isHolding, if_true]
    rw [filterMap_take_succ hr, hd, hdel]
    rfl

/-! ## Resetting a block -/

theorem statusByte_setUnused {m : Mem} {b b' : ℕ} (h : statusByte m b' = 0) :
    statusByte (setStatus m b .unused) b' = 0 := by
  by_cases hb : b' = b
  · rw [hb, statusByte_setStatus_self]
    rfl
  · rw [statusByte_setStatus_of_ne _ _ _ hb]
    exact h

theorem RingOk.agreeOn_setUnused (h : RingOk N start s) {q k : ℕ} {r : Resv}
    (hq : s.pos start s.released ≤ q) (hq' : q < s.pos start s.released + N.count)
    (hk : s.released ≤ k) (hr : s.resv[k]? = some r) (hg : r.phase ≠ .reserved)
    (hout : ¬ (s.pos start k ≤ q ∧ q < s.pos start (k + 1))) :
    AgreeOn (setStatus s.blocks (q % N.count) .unused) s.blocks
      (ringBlocks N.count (s.pos start k) r.blocks) :=
  agreeOn_setStatus _ _ _ (h.mod_not_mem hk hr hg hq hq' hout)

/-- A status byte is reset that no chunk still kept owns. -/
theorem RingOk.setUnused (h : RingOk N start s) {q : ℕ} (hq : s.pos start s.released ≤ q)
    (hq' : q < s.pos start s.released + N.count) (hh : s.consumer.isHolding = false)
    (hh' : c.isHolding = false) (hrl : s.consumer ≠ .release) (hrl' : c ≠ .release)
    (hfl : s.consumer.isFlushing → c.isFlushing)
    (hkept : ∀ k r, s.released ≤ k → s.resv[k]? = some r → r.phase ≠ .reserved →
      ({ s with consumer := c } : State).Kept k r →
      s.Kept k r ∧ ¬ (s.pos start k ≤ q ∧ q < s.pos start (k + 1)))
    (hc : ConsumerOk N start
      { s with blocks := setStatus s.blocks (q % N.count) .unused, consumer := c } c) :
    RingOk N start
      { s with blocks := setStatus s.blocks (q % N.count) .unused, consumer := c } := by
  have htight : Tight N start s → Tight N start
      { s with blocks := setStatus s.blocks (q % N.count) .unused, consumer := c } := by
    rintro (hf | ht | ht)
    · exact .inl (hfl hf)
    · exact .inr (.inl ht)
    · exact .inr (.inr ht)
  refine { h with startCache := ?_, room := ?_, kept := ?_, cleared := ?_, free := ?_,
                  consumerOk := hc, delivered := ?_ }
  · simpa [hrl', State.pos, State.blocksBefore] using h.startCache_of_ne hrl
  · intro k r hk hr hg
    exact (h.room k r hk hr hg).imp id (And.imp id (And.imp id htight))
  · intro k r hk hr hkp
    by_cases hg : r.phase = .reserved
    · simp [ChunkOk, hg]
    · obtain ⟨hkp', hout⟩ := hkept k r hk hr hg hkp
      exact (h.kept k r hk hr hkp').congr (h.blocks_pos k r hr)
        (h.agreeOn_setUnused hq hq' hk hr hg hout).symm
  · intro k r hk hlt hr hinv
    exact statusByte_setUnused (h.cleared k r hk hlt hr hinv)
  · intro p hp hp' hun
    exact statusByte_setUnused (h.free p hp hp' hun)
  · simpa [State.passed, hh, hh'] using h.delivered

/-! ## Moving over a reservation -/

/-- The consumer's cursor moves over a settled reservation. -/
theorem RingOk.advance (h : RingOk N start s) {r : Resv} (hr : s.resv[s.read]? = some r)
    (hset : r.phase.settled) (hfl : s.consumer.isFlushing = false)
    (hsk : s.consumer.isSkipping → r.phase = .invalid)
    (hz : r.phase = .invalid → statusByte s.blocks (s.pos start s.read % N.count) = 0)
    (hdel : s.delivered = (s.resv.take (s.read + 1)).filterMap Resv.delivery)
    (hh' : c.isHolding = false) (hrl' : c ≠ .release)
    (hc : ConsumerOk N start { s with
      readCursorCache := add32 s.readCursorCache r.blocks, read := s.read + 1, consumer := c } c)
    (htight : r.phase.isCommitted →
      N.count >>> 2 ≤ s.pos start (s.read + 1) - s.pos start s.released → c.isFlushing) :
    RingOk N start { s with
      readCursorCache := add32 s.readCursorCache r.blocks, read := s.read + 1, consumer := c } := by
  have hrl : s.consumer ≠ .release := by
    intro he
    rw [he] at hfl
    cases hfl
  have htight' : Tight N start s → Tight N start { s with
      readCursorCache := add32 s.readCursorCache r.blocks, read := s.read + 1, consumer := c } := by
    rintro (hf | ⟨k, r', hk, hr', hcm, hquarter⟩ | ht)
    · rw [hfl] at hf
      cases hf
    · by_cases hkr : k = s.read
      · subst hkr
        rw [hr] at hr'
        cases hr'
        exact .inl (htight hcm hquarter)
      · exact .inr (.inl ⟨k, r', show s.read + 1 ≤ k by omega, hr', hcm, hquarter⟩)
    · exact .inr (.inr ht)
  refine { h with released_le := Nat.le_succ_of_le h.released_le,
                  settled := h.settled.succ hr hset, cache := ?_, startCache := ?_, room := ?_,
                  kept := ?_, cleared := ?_, consumerOk := hc, delivered := ?_ }
  · show add32 s.readCursorCache r.blocks = s.pos start (s.read + 1) % 2 ^ 32
    rw [h.cache, add32_mod, s.pos_succ start hr]
  · simpa [hrl', State.pos, State.blocksBefore] using h.startCache_of_ne hrl
  · intro k r' hk hr' hg
    exact (h.room k r' hk hr' hg).imp id (And.imp id (And.imp id htight'))
  · rintro k r' hk hr' (⟨hle, -⟩ | ⟨hlt, hcm, -⟩)
    · have hle' : s.read + 1 ≤ k := hle
      exact h.kept k r' hk hr' (.inl ⟨by omega, fun _ => by omega⟩)
    · have hlt' : k < s.read + 1 := hlt
      by_cases hkr : k = s.read
      · refine h.kept k r' hk hr' (.inl ⟨hkr.ge, fun hs => ?_⟩)
        subst hkr
        rw [hr] at hr'
        cases hr'
        rw [hsk hs] at hcm
        cases hcm
      · exact h.kept k r' hk hr' (.inr ⟨by omega, hcm, hfl⟩)
  · intro k r' hk hlt hr' hinv
    have hlt' : k < s.read + 1 := hlt
    by_cases hkr : k = s.read
    · subst hkr
      rw [hr] at hr'
      cases hr'
      exact hz hinv
    · exact h.cleared k r' hk (by omega) hr' hinv
  · simpa [State.passed, hh'] using hdel

/-! ## The calls -/

section Calls

theorem Inv.readChunk (h : Inv N start s) (hcon : s.consumer = .idle) :
    Inv N start { s with consumer := .looking } :=
  h.setConsumer (by rw [hcon]; rfl) (by rw [hcon]; rfl) (by rw [hcon]; rfl) (by simp [hcon]) trivial

theorem Inv.dataTraverse (h : Inv N start s) (hcon : s.consumer = .idle) :
    Inv N start { s with consumer := .traversing s.readCursor } := by
  have hc : ConsumerOk N start s (.traversing s.readCursor) :=
    ⟨s.released, le_rfl, h.settled.mono h.released_le, h.readCursor,
      Nat.lt_add_of_pos_right N.count_pos⟩
  exact h.setConsumer (by rw [hcon]; rfl) (by rw [hcon]; rfl) (by rw [hcon]; rfl) (by simp [hcon]) hc

/-- One look of `read_chunk`. -/
theorem Inv.looking (h : Inv N start s) (hcon : s.consumer = .looking) :
    ∀ s', consumerStep N s = some s' → Inv N start s' := by
  have hring := h.toRingOk
  have hfl : s.consumer.isFlushing = false := by rw [hcon]; rfl
  have hsk : s.consumer.isSkipping = false := by rw [hcon]; rfl
  have hmove : ∀ {c : Consumer}, c.isFlushing = false → c.isHolding = false → c ≠ .release →
      ConsumerOk N start s c → Inv N start { s with consumer := c } := by
    intro c hf hh hr hc
    exact h.setConsumer (by rw [hf, hfl]) hsk (by rw [hh, hcon]; rfl) (by simp [hr, hcon]) hc
  intro s' hs'
  simp only [consumerStep, hcon, hring.readBlock_eq] at hs'
  rcases hring.look le_rfl h.settled hsk (.inr ⟨rfl, hfl⟩) with ⟨r, hr, hset, hchunk⟩ | ⟨-, hz⟩
  · cases hph : r.phase with
    | reserved => simp [hph, Phase.settled] at hset
    | granted => simp [hph, Phase.settled] at hset
    | invalid =>
      obtain ⟨hst, hnum⟩ := hchunk.status_invalid hph
      rw [hst] at hs'
      cases hs'
      rw [hnum]
      exact hmove rfl rfl (by simp) ⟨r, hr, hph, rfl⟩
    | committed payload =>
      obtain ⟨hst, -, hsize, hslice, -⟩ := hchunk.status_committed hph
      rw [hst] at hs'
      simp only [Option.some.injEq] at hs'
      subst hs'
      rw [hsize, hslice]
      exact h.of_consumer (hring.deliver hcon hr hph) rfl rfl le_rfl fun _ _ _ _ _ _ _ => rfl
  · rw [status_of_byte_zero hz] at hs'
    cases hs'
    exact hmove rfl rfl (by simp) trivial

/-- The granted chunks behind a settled reservation do not contain its head. -/
theorem RingOk.lt_of_granted (h : RingOk N start s) {k : ℕ} {r r' : Resv}
    (hr : s.resv[s.read]? = some r) (hset : r.phase.settled) (hk : s.read ≤ k)
    (hr' : s.resv[k]? = some r') (hg : r'.phase = .granted) :
    s.pos start s.read < s.pos start k := by
  refine h.pos_lt (lt_of_le_of_ne hk ?_) (List.getElem?_eq_some_iff.mp hr').1.le
  rintro rfl
  rw [hr] at hr'
  cases hr'
  rw [hg] at hset
  cases hset

theorem Inv.clearing (h : Inv N start s) {n : ℕ} (hcon : s.consumer = .clearing n) :
    Inv N start { s with
      blocks := setStatus s.blocks (s.readBlock N) .unused, consumer := .skipping n } := by
  have hring := h.toRingOk
  have hc := hring.consumerOk
  rw [hcon] at hc
  obtain ⟨r, hr, hinv, hn⟩ := hc
  have hset : r.phase.settled := by rw [hinv]; rfl
  have hq := s.pos_mono start h.released_le
  have hq' : s.pos start s.read < s.pos start s.released + N.count := by
    have := hring.pos_succ_le h.released_le hr (by rw [hinv]; nofun)
    have := hring.blocks_pos _ r hr
    rw [s.pos_succ start hr] at *
    omega
  rw [hring.readBlock_eq]
  refine h.of_consumer (hring.setUnused hq hq' (by rw [hcon]; rfl) rfl (by simp [hcon]) nofun
    (by rw [hcon]; nofun) ?_ ⟨r, hr, hinv, hn, ?_⟩) rfl rfl le_rfl ?_
  · rintro k r' hk hr' hg (⟨hle, hne⟩ | ⟨hlt, hcm, -⟩)
    · have hlt : s.pos start s.read < s.pos start k :=
        hring.pos_lt (lt_of_le_of_ne hle (Ne.symm (hne rfl))) (List.getElem?_eq_some_iff.mp hr').1.le
      exact ⟨.inl ⟨hle, by simp [hcon, Consumer.isSkipping]⟩, by omega⟩
    · have hle := s.pos_mono start (show k + 1 ≤ s.read from hlt)
      exact ⟨.inr ⟨hlt, hcm, by rw [hcon]; rfl⟩, by omega⟩
  · exact statusByte_setStatus_self _ _ _
  · intro k r' hk hr' hg
    have hlt := hring.lt_of_granted hr hset hk hr' hg
    exact hring.agreeOn_setUnused hq hq' (h.released_le.trans hk) hr' (by simp [hg]) (by omega)

theorem Inv.skipping (h : Inv N start s) {n : ℕ} (hcon : s.consumer = .skipping n) :
    Inv N start { s with
      readCursorCache := add32 s.readCursorCache n, read := s.read + 1, consumer := .looking } := by
  have hring := h.toRingOk
  have hc := hring.consumerOk
  rw [hcon] at hc
  obtain ⟨r, hr, hinv, rfl, hz⟩ := hc
  have hdel := hring.delivered
  have hpassed : s.passed = s.read := by simp [State.passed, hcon, Consumer.isHolding]
  have hnone : r.delivery = none := by simp [Resv.delivery, hinv]
  rw [hpassed] at hdel
  refine h.of_consumer (hring.advance hr (by rw [hinv]; rfl) (by rw [hcon]; rfl) (fun _ => hinv)
    (fun _ => hz) ?_ rfl (by simp) trivial ?_) rfl rfl le_rfl fun _ _ _ _ _ _ _ => rfl
  · rw [filterMap_take_succ hr, hnone, hdel]
    simp
  · rw [hinv]
    rintro ⟨⟩

theorem Inv.returnEmpty (h : Inv N start s) (hcon : s.consumer = .empty) :
    Inv N start (afterReturn s true) := by
  have hring := h.toRingOk
  have hun := hring.unflushed_eq (by simp [hcon])
  have hidle : Inv N start { s with consumer := .idle } :=
    h.setConsumer (by rw [hcon]; rfl) (by rw [hcon]; rfl) (by rw [hcon]; rfl) (by simp [hcon]) trivial
  unfold afterReturn
  split
  · rename_i hpos
    have hpos' : 0 < s.pos start s.read - s.pos start s.released := hun ▸ hpos.2
    have hflush : RingOk N start { s with consumer := .flushing 0 } := ?_
    · exact h.of_consumer hflush rfl rfl le_rfl fun _ _ _ _ _ _ _ => rfl
    refine { hring with startCache := ?_, room := ?_, kept := ?_, consumerOk := ⟨hpos', nofun⟩,
                        delivered := ?_ }
    · simpa [State.pos, State.blocksBefore] using hring.startCache_of_ne (by simp [hcon])
    · intro k r hk hr hg
      exact (hring.room k r hk hr hg).imp id (And.imp id (And.imp id fun _ => .inl rfl))
    · rintro k r hk hr (⟨hle, -⟩ | ⟨-, -, hf⟩)
      · exact hring.kept k r hk hr (.inl ⟨hle, by simp [hcon, Consumer.isSkipping]⟩)
      · cases hf
    · simpa [State.passed, hcon, Consumer.isHolding] using hring.delivered
  · exact hidle

theorem Inv.returnChunk (h : Inv N start s) {handle : ReadHandle}
    (hcon : s.consumer = .holding handle) :
    ∀ s', returnReadChunk N s = some s' → Inv N start s' := by
  have hring := h.toRingOk
  have hc := hring.consumerOk
  rw [hcon] at hc
  obtain ⟨r, hr, hcm, -⟩ := hc
  have hset := Phase.settled_of_isCommitted hcm
  have hkept := hring.kept _ r h.released_le hr (.inl ⟨le_rfl, by simp [hcon, Consumer.isSkipping]⟩)
  have hnum : getBlockNum s.blocks (s.readBlock N) = r.blocks := by
    rw [hring.readBlock_eq]
    cases hph : r.phase with
    | committed payload => exact (hkept.status_committed hph).2.1
    | _ => simp [hph, Phase.isCommitted] at hcm
  have hdel := hring.delivered
  have hpassed : s.passed = s.read + 1 := by simp [State.passed, hcon, Consumer.isHolding]
  rw [hpassed] at hdel
  have hun : sub32 (add32 s.readCursorCache r.blocks) s.readCursorStartCache =
      s.pos start (s.read + 1) - s.pos start s.released := by
    rw [hring.cache, add32_mod, ← s.pos_succ start hr, hring.startCache_of_ne (by simp [hcon])]
    exact hring.sub32_pos le_rfl (Nat.le_succ_of_le h.released_le)
      (List.getElem?_eq_some_iff.mp hr).1
  have hpos : s.pos start s.released < s.pos start (s.read + 1) := by
    have := s.pos_mono start h.released_le
    have := hring.blocks_pos _ r hr
    rw [s.pos_succ start hr]
    omega
  have hadv : ∀ {c : Consumer}, c.isHolding = false → c ≠ .release →
      ConsumerOk N start { s with
        readCursorCache := add32 s.readCursorCache r.blocks, read := s.read + 1, consumer := c } c →
      (N.count >>> 2 ≤ s.pos start (s.read + 1) - s.pos start s.released → c.isFlushing) →
      Inv N start { s with
        readCursorCache := add32 s.readCursorCache r.blocks, read := s.read + 1, consumer := c } := by
    intro c hh hrl hcok hq
    refine h.of_consumer (hring.advance hr hset (by rw [hcon]; rfl)
      (by rw [hcon]; rintro ⟨⟩) ?_ hdel hh hrl hcok fun _ => hq) rfl rfl le_rfl
      fun _ _ _ _ _ _ _ => rfl
    intro hinv
    rw [hinv] at hcm
    cases hcm
  intro s' hs'
  simp only [returnReadChunk, hcon, hnum, afterReturn, State.unflushed, hun, Option.some.injEq] at hs'
  subst hs'
  split
  · rename_i hfl
    exact hadv rfl (by simp) ⟨hfl.2, by simp⟩ fun _ => rfl
  · rename_i hfl
    refine hadv rfl (by simp) trivial fun hq => ?_
    exact absurd ⟨by simpa using hq, by omega⟩ hfl

/-! ## The flush -/

theorem Inv.flushing (h : Inv N start s) {i : ℕ} (hcon : s.consumer = .flushing i) :
    ∀ s', consumerStep N s = some s' → Inv N start s' := by
  have hring := h.toRingOk
  have hc := hring.consumerOk
  rw [hcon] at hc
  obtain ⟨hi, hz⟩ := hc
  have hun := hring.unflushed_eq (by simp [hcon])
  have hidx : N.index (add32 s.readCursorStartCache i) = (s.pos start s.released + i) % N.count := by
    rw [hring.startCache_of_ne (by simp [hcon]), add32_mod, N.index_mod]
  have hread := hring.pos_read_le
  have hq : s.pos start s.released ≤ s.pos start s.released + i := Nat.le_add_right _ _
  have hstep : ∀ {c : Consumer}, c.isFlushing → c ≠ .release → c.isHolding = false →
      (ConsumerOk N start { s with
        blocks := setStatus s.blocks ((s.pos start s.released + i) % N.count) .unused,
        consumer := c } c) → Inv N start { s with
        blocks := setStatus s.blocks ((s.pos start s.released + i) % N.count) .unused,
        consumer := c } := by
    intro c hf hrl hh hcok
    refine h.of_consumer (hring.setUnused hq (by omega) (by rw [hcon]; rfl) hh (by simp [hcon]) hrl
      (fun _ => hf) ?_ hcok) rfl rfl le_rfl ?_
    · rintro k r hk hr hg (⟨hle, -⟩ | ⟨-, -, hf'⟩)
      · have := s.pos_mono start (show s.read ≤ k from hle)
        exact ⟨.inl ⟨hle, by simp [hcon, Consumer.isSkipping]⟩, by omega⟩
      · rw [hf] at hf'
        cases hf'
    · intro k r hk hr hg
      have := s.pos_mono start hk
      exact hring.agreeOn_setUnused hq (by omega) (h.released_le.trans hk) hr (by simp [hg]) (by omega)
  have hz' : ∀ j < i + 1, statusByte (setStatus s.blocks ((s.pos start s.released + i) % N.count)
      .unused) ((s.pos start s.released + j) % N.count) = 0 := by
    intro j hj
    by_cases hji : j = i
    · rw [hji, statusByte_setStatus_self]
      rfl
    · exact statusByte_setUnused (hz j (by omega))
  intro s' hs'
  simp only [consumerStep, hcon, hidx, hun, Option.some.injEq] at hs'
  subst hs'
  split
  · rename_i hlt
    exact hstep rfl (by simp) rfl ⟨hlt, hz'⟩
  · rename_i hge
    exact hstep rfl (by simp) rfl ⟨show s.pos start s.released < s.pos start s.read by omega,
      fun j hj => hz' j (by have : j < s.pos start s.read - s.pos start s.released := hj; omega)⟩

theorem Inv.restart (h : Inv N start s) (hcon : s.consumer = .restart) :
    Inv N start { s with readCursorStartCache := s.readCursorCache, consumer := .release } := by
  have hring := h.toRingOk
  have hc := hring.consumerOk
  rw [hcon] at hc
  refine h.of_consumer ?_ rfl rfl le_rfl fun _ _ _ _ _ _ _ => rfl
  refine { hring with startCache := ?_, room := ?_, kept := ?_, consumerOk := hc, delivered := ?_ }
  · simpa [State.pos, State.blocksBefore] using hring.cache
  · intro k r hk hr hg
    exact (hring.room k r hk hr hg).imp id (And.imp id (And.imp id fun _ => .inl rfl))
  · rintro k r hk hr (⟨hle, -⟩ | ⟨-, -, hf⟩)
    · exact hring.kept k r hk hr (.inl ⟨hle, by simp [hcon, Consumer.isSkipping]⟩)
    · cases hf
  · simpa [State.passed, hcon, Consumer.isHolding] using hring.delivered

/-- **The release**: every block given back has been reset. -/
theorem Inv.release (h : Inv N start s) (hcon : s.consumer = .release) :
    Inv N start { s with
      readCursor := s.readCursorCache, released := s.read, consumer := .idle } := by
  have hring := h.toRingOk
  have hc := hring.consumerOk
  rw [hcon] at hc
  obtain ⟨hlt, hz⟩ := hc
  have hstart := hring.startCache
  rw [if_pos hcon] at hstart
  have hend : ∀ k r, s.read ≤ k → s.resv[k]? = some r → r.phase ≠ .reserved →
      s.pos start (k + 1) < s.pos start s.read + N.count := by
    intro k r hk hr hg
    have := hring.pos_succ_le (h.released_le.trans hk) hr hg
    omega
  refine h.of_consumer ?_ rfl rfl (s.pos_mono start h.released_le) fun _ _ _ _ _ _ _ => rfl
  refine { hring with released_le := le_rfl, readCursor := hring.cache, startCache := ?_, span := ?_,
                      room := ?_, kept := ?_, cleared := ?_, free := ?_, consumerOk := trivial,
                      delivered := ?_ }
  · simpa [State.pos, State.blocksBefore] using hstart
  · have := hring.span
    show s.pos start s.resv.length < s.pos start s.read + 2 ^ 32
    omega
  · intro k r hk hr hg
    exact .inl (hend k r hk hr hg)
  · rintro k r hk hr (⟨hle, -⟩ | ⟨hlt', -, -⟩)
    · exact hring.kept k r (h.released_le.trans hle) hr
        (.inl ⟨hle, by simp [hcon, Consumer.isSkipping]⟩)
    · exact absurd hlt' (not_lt.mpr hk)
  · intro k r hk hlt' _ _
    exact absurd hlt' (not_lt.mpr hk)
  · intro q hq hq' hun
    have hq₁ : s.pos start s.read ≤ q := hq
    have hq₂ : q < s.pos start s.read + N.count := hq'
    by_cases hin : q < s.pos start s.released + N.count
    · refine hring.free q (by omega) hin fun k r hk hr hg hcov => ?_
      rcases Nat.lt_or_ge k s.read with hk' | hk'
      · have := s.pos_mono start (show k + 1 ≤ s.read from hk')
        omega
      · exact hun k r hk' hr hg hcov
    · have := hz (q - N.count - s.pos start s.released) (by omega)
      rw [show s.pos start s.released + (q - N.count - s.pos start s.released) = q - N.count by omega]
        at this
      rw [Nat.mod_eq_sub_mod (by omega)]
      exact this
  · simpa [State.passed, hcon, Consumer.isHolding] using hring.delivered

/-! ## `data_traverse` -/

/-- What `data_traverse` finds at the next reservation. -/
theorem RingOk.traverse (h : RingOk N start s) {cursor : ℕ} (hcon : s.consumer = .traversing cursor) :
    (∃ k r, s.released ≤ k ∧ s.SettledBefore k ∧ cursor = s.pos start k % 2 ^ 32 ∧
      s.resv[k]? = some r ∧ r.phase.settled ∧ ChunkOk N s.blocks (s.pos start k) r) ∨
    status s.blocks (N.index cursor) = some .unused := by
  have hc := h.consumerOk
  rw [hcon] at hc
  obtain ⟨k, hk, hset, hcur, hlt⟩ := hc
  have hidx : N.index cursor = s.pos start k % N.count := by rw [hcur, N.index_mod]
  have hfl : s.consumer.isFlushing = false := by rw [hcon]; rfl
  have hsk : s.consumer.isSkipping = false := by rw [hcon]; rfl
  rw [hidx]
  rcases Nat.lt_or_ge k s.read with hkr | hkr
  · obtain ⟨r, hr, hs⟩ := h.settled k hkr
    cases hph : r.phase with
    | reserved => simp [hph, Phase.settled] at hs
    | granted => simp [hph, Phase.settled] at hs
    | invalid => exact .inr (status_of_byte_zero (h.cleared k r hk hkr hr hph))
    | committed payload =>
      have hcm : r.phase.isCommitted := by rw [hph]; rfl
      exact .inl ⟨k, r, hk, hset, hcur, hr, hs, h.kept k r hk hr (.inr ⟨hkr, hcm, hfl⟩)⟩
  · rcases h.look hkr hset hsk (.inl hlt) with ⟨r, hr, hs, hchunk⟩ | ⟨-, hz⟩
    · exact .inl ⟨k, r, hk, hset, hcur, hr, hs, hchunk⟩
    · exact .inr (status_of_byte_zero hz)

theorem ChunkOk.getBlockNum_eq {m : Mem} {p : ℕ} {r : Resv} (h : ChunkOk N m p r)
    (hs : r.phase.settled) : getBlockNum m (p % N.count) = r.blocks := by
  cases hph : r.phase with
  | reserved => simp [hph, Phase.settled] at hs
  | granted => simp [hph, Phase.settled] at hs
  | invalid => exact (h.status_invalid hph).2
  | committed payload => exact (h.status_committed hph).2.1

theorem Inv.traversing (h : Inv N start s) {cursor : ℕ} (hcon : s.consumer = .traversing cursor) :
    ∀ s', consumerStep N s = some s' → Inv N start s' := by
  have hring := h.toRingOk
  have hmove : ∀ {c : Consumer}, c.isFlushing = false → c.isHolding = false → c ≠ .release →
      ConsumerOk N start s c → Inv N start { s with consumer := c } := by
    intro c hf hh hr hc
    exact h.setConsumer (by rw [hf, hcon]; rfl) (by rw [hcon]; rfl) (by rw [hh, hcon]; rfl)
      (by simp [hr, hcon]) hc
  intro s' hs'
  simp only [consumerStep, hcon] at hs'
  split at hs'
  · cases hs'
    exact hmove rfl rfl nofun trivial
  · rename_i hgo
    rw [not_or] at hgo
    cases hs'
    rcases hring.traverse hcon with ⟨k, r, hk, hset, hcur, hr, hs, hchunk⟩ | hun
    · have hnext : add32 cursor (getBlockNum s.blocks (N.index cursor)) =
          s.pos start (k + 1) % 2 ^ 32 := by
        rw [hcur, N.index_mod, hchunk.getBlockNum_eq hs, add32_mod, s.pos_succ start hr]
      have hlt := hgo.2
      rw [hnext, h.readCursor, hring.sub32_pos le_rfl (show s.released ≤ k + 1 by omega)
        (List.getElem?_eq_some_iff.mp hr).1] at hlt
      refine hmove rfl rfl nofun ⟨k + 1, Nat.le_succ_of_le hk, hset.succ hr hs, hnext, by omega⟩
    · exact absurd hun hgo.1

/-- **Every step of the consumer keeps the invariant.** -/
theorem Inv.consume (h : Inv N start s) :
    ∀ s', consumerStep N s = some s' → Inv N start s' := by
  cases hcon : s.consumer with
  | looking => exact h.looking hcon
  | clearing n =>
    intro s' hs'
    simp only [consumerStep, hcon, Option.some.injEq] at hs'
    exact hs' ▸ h.clearing hcon
  | skipping n =>
    intro s' hs'
    simp only [consumerStep, hcon, Option.some.injEq] at hs'
    exact hs' ▸ h.skipping hcon
  | flushing i => exact h.flushing hcon
  | restart =>
    intro s' hs'
    simp only [consumerStep, hcon, Option.some.injEq] at hs'
    exact hs' ▸ h.restart hcon
  | release =>
    intro s' hs'
    simp only [consumerStep, hcon, Option.some.injEq] at hs'
    exact hs' ▸ h.release hcon
  | traversing cursor => exact h.traversing hcon
  | _ =>
    intro s' hs'
    simp [consumerStep, hcon] at hs'

end Calls

/-! ## Runs -/

/-- **Every admitted step keeps the invariant.** -/
theorem inv_step {a : Act} (h : Inv N start s) (hok : StepOk N s a) (hs : step N s a = some s') :
    Inv N start s' := by
  cases a with
  | alloc t size tlsRecycled =>
    simp only [step] at hs
    split at hs
    · split at hs <;> cases hs
      exact h.alloc size hok tlsRecycled
    · cases hs
  | produce t => exact h.produce hok s' hs
  | write t i b =>
    simp only [step] at hs
    split at hs
    · rename_i hpc
      split at hs <;> cases hs
      rename_i hi
      exact h.writePayload hpc hi b
    · cases hs
  | commit t =>
    simp only [step] at hs
    split at hs <;> cases hs
    rename_i hpc
    exact h.commit hpc
  | readChunk =>
    simp only [step] at hs
    split at hs <;> cases hs
    rename_i hcon
    exact h.readChunk hcon
  | returnReadChunk =>
    simp only [step] at hs
    cases hcon : s.consumer with
    | empty =>
      simp only [returnReadChunk, hcon, Option.some.injEq] at hs
      exact hs ▸ h.returnEmpty hcon
    | holding handle => exact h.returnChunk hcon s' hs
    | _ => simp [returnReadChunk, hcon] at hs
  | dataTraverse =>
    simp only [step] at hs
    split at hs <;> cases hs
    rename_i hcon
    exact h.dataTraverse hcon
  | consume => exact h.consume s' hs

theorem Inv.runs (h : Inv N start s) (hr : Runs (step N) (StepOk N) s s') : Inv N start s' :=
  Runs.invariant (I := Inv N start) hr h fun _ _ _ hu hok hs => inv_step hu hok hs

end QLog.Miso
