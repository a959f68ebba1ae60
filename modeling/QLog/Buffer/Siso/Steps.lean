import QLog.Buffer.Siso.Invariant

/-!
# Every step keeps the invariant of the single-producer ring

One lemma for each action of the producer and of the consumer. The producer only writes on the
blocks it has reserved behind the committed chunks (`Inv.stored_frame`); the consumer writes no
memory at all.
-/

namespace QLog.Siso

variable {N : BlockCount} {start i j : ℕ} {s : State}

namespace Inv

/-! ## Producer -/

/-- Moving the producer changes nothing else. -/
theorem withProducer (h : Inv N start i j s) (pr : Producer)
    (hspace : s.pos start s.committed.length +
      pr.extent N (s.pos start s.committed.length % N.count) ≤ s.pos start i + N.count)
    (hok : ProducerOk N s.data (s.pos start s.committed.length) s.wtWritingCursorCache pr) :
    Inv N start i j { s with producer := pr } :=
  { h with space := hspace, producerOk := hok }

/-- Reloading the producer's copy of the read cursor. -/
theorem reloadReading (h : Inv N start i j s) :
    Inv N start s.returned j { s with wtReadingCursorCache := s.readingCursor } :=
  { h with
    i_le := le_rfl
    wtReading := h.reading
    space := h.space.trans (Nat.add_le_add_right (s.pos_mono start h.i_le) _) }

theorem allocWriteChunk (h : Inv N start i j s) {size : ℕ} (hsize : size < 2 ^ 32)
    (hw : s.wtWritingCursorCache = s.pos start s.committed.length % 2 ^ 32) :
    Inv N start i j (allocWriteChunk N s size) := by
  unfold Siso.allocWriteChunk
  rw [h.index_wtWriting hw, h.freeBlocks_eq hw]
  split
  · exact h.withProducer .idle h.pos_length_le hw
  · rename_i hv
    split
    · exact h.withProducer (.refreshing size) h.pos_length_le ⟨hw, hsize, hv⟩
    · rename_i hroom
      have := h.pos_length_le
      refine h.withProducer (.placing size) ?_ ⟨hw, hsize, hv⟩
      simp only [Producer.extent]
      omega

theorem refreshReading (h : Inv N start i j s) {size : ℕ} (hp : s.producer = .refreshing size) :
    Inv N start s.returned j (refreshReading N s size) := by
  have hok := h.producerOk
  rw [hp] at hok
  obtain ⟨hw, hsize, hv⟩ := hok
  have h' := h.reloadReading
  unfold Siso.refreshReading
  simp only
  rw [h.index_wtWriting hw, h'.freeBlocks_eq hw]
  have hle := h'.pos_length_le
  split
  · exact h'.withProducer .idle hle hw
  · rename_i hroom
    refine h'.withProducer (.placing size) ?_ ⟨hw, hsize, hv⟩
    simp only [Producer.extent, State.pos] at hroom hle ⊢
    omega

/-- **Writes behind the committed chunks leave every chunk that is not returned intact.** -/
theorem stored_frame (h : Inv N start i j s) {data' : Mem} {e : ℕ}
    (he : s.pos start s.committed.length + e ≤ s.pos start i + N.count)
    (hx : ∀ x, x / 8 ∉ ringBlocks N.count (s.pos start s.committed.length) e →
      data' x = s.data x) (k : ℕ) (hk : k < s.committed.length) (hr : s.returned ≤ k) :
    Stored N data' (s.pos start k) (s.committed.get ⟨k, hk⟩) := by
  refine (h.stored k hk hr).congr fun x hmem => (hx x ?_).symm
  have hik := s.pos_mono start (h.i_le.trans hr)
  have hend := s.pos_mono start (show k + 1 ≤ s.committed.length by omega)
  rw [s.pos_succ start hk] at hend
  exact Set.disjoint_left.1 (disjoint_ringBlocks hend (by omega)) hmem

theorem placeHead (h : Inv N start i j s) {size : ℕ} (hp : s.producer = .placing size) :
    Inv N start i j (placeHead N s size) := by
  have hok := h.producerOk
  rw [hp] at hok
  obtain ⟨hw, hsize, hv⟩ := hok
  have hspace := h.space
  rw [hp] at hspace
  simp only [Producer.extent] at hspace
  have hlt := Nat.mod_lt (s.pos start s.committed.length) N.count_pos
  have hpos : 0 < chunkBlocks N (s.pos start s.committed.length % N.count) size :=
    chunkBlocks_pos hlt
  have hle := chunkBlocks_le hlt hv
  have hcount := N.count_lt
  unfold Siso.placeHead
  simp only
  rw [h.index_wtWriting hw]
  generalize hP : s.pos start s.committed.length = P at *
  set data' := (s.data.store (P % N.count * 8) 4 (chunkBlocks N (P % N.count) size)).store
    (P % N.count * 8 + 4) 4 size with hdata
  have hframe : ∀ x, x / 8 ∉ ringBlocks N.count P (chunkBlocks N (P % N.count) size) →
      data' x = s.data x := by
    intro x hx
    have hout : x < P % N.count * 8 ∨ P % N.count * 8 + 8 ≤ x := by
      by_contra hc
      exact hx (head_mem_ringBlocks hpos (by omega) (by omega))
    rw [hdata, Mem.store_apply_of_not_mem _ _ (by omega), Mem.store_apply_of_not_mem _ _ (by omega)]
  have hhead : HeadWritten N data' P size ⟨payloadAddr N (P % N.count) size, .success, false⟩ := by
    refine ⟨hsize, hv, ?_, Mem.load_store _ _ (by norm_num; omega), rfl⟩
    have hfirst : data'.load (P % N.count * 8) 4 = (s.data.store (P % N.count * 8) 4
        (chunkBlocks N (P % N.count) size)).load (P % N.count * 8) 4 :=
      Mem.load_congr fun x _ hx' => Mem.store_apply_of_lt _ _ (by omega)
    rw [hfirst]
    exact Mem.load_store _ _ (by norm_num; omega)
  have hstored := h.stored_frame (hP ▸ hspace) (by rwa [hP])
  refine { h with space := ?_, stored := hstored, producerOk := ?_ }
  · simp only [State.pos] at hP hspace ⊢
    rw [hP]
    split <;> exact hspace
  · simp only [State.pos] at hP ⊢
    rw [hP]
    split <;> exact ⟨hw, hhead⟩

theorem confirmLowSpace (h : Inv N start i j s) {size : ℕ} {handle : WriteHandle}
    (hp : s.producer = .confirming size handle) :
    Inv N start s.returned j (confirmLowSpace N s size handle) := by
  have h' := h.reloadReading
  have hok := h.producerOk
  rw [hp] at hok
  have hspace := h'.space
  simp only [hp] at hspace
  exact h'.withProducer (.holding size _) hspace
    ⟨hok.1, hok.2.size_lt, hok.2.valid, hok.2.load_blocks, hok.2.load_size, hok.2.dataAddr⟩

/-- A payload byte is not a head byte of its own chunk. -/
theorem payload_outside_head {p size x : ℕ} (hv : ¬ sizeInvalid N (p % N.count) size)
    (h : payloadAddr N (p % N.count) size ≤ x)
    (h' : x < payloadAddr N (p % N.count) size + size) :
    x < p % N.count * 8 ∨ p % N.count * 8 + 8 ≤ x := by
  have hlt := Nat.mod_lt p N.count_pos
  rw [not_sizeInvalid_iff] at hv
  unfold payloadAddr at h h'
  rw [normalBlocks_eq] at h h'
  unfold tail at *
  split_ifs at h h' <;> omega

theorem writePayload (h : Inv N start i j s) {size k : ℕ} {handle : WriteHandle} (b : UInt8)
    (hp : s.producer = .holding size handle) (hk : k < size) :
    Inv N start i j { s with data := s.data.poke (handle.dataAddr + k) b } := by
  have hok := h.producerOk
  rw [hp] at hok
  obtain ⟨hw, hhead⟩ := hok
  have hspace := h.space
  simp only [hp, Producer.extent] at hspace
  have hmem := payload_mem_ringBlocks (x := handle.dataAddr + k) hhead.valid
    (by rw [hhead.dataAddr]; omega) (by rw [hhead.dataAddr]; omega)
  have hout := payload_outside_head (x := handle.dataAddr + k) hhead.valid
    (by rw [hhead.dataAddr]; omega) (by rw [hhead.dataAddr]; omega)
  have hhead' : HeadWritten N (s.data.poke (handle.dataAddr + k) b)
      (s.pos start s.committed.length) size handle := by
    refine hhead.congr fun x hx hx' => (Mem.poke_apply_of_ne _ _ ?_).symm
    omega
  refine { h with stored := h.stored_frame hspace fun x hx => ?_, producerOk := ?_ }
  · exact Mem.poke_apply_of_ne _ _ fun he => hx (he ▸ hmem)
  · simp only [hp]
    exact ⟨hw, hhead'⟩

theorem commitWriteChunk (h : Inv N start i j s) {size : ℕ} {handle : WriteHandle}
    (hp : s.producer = .holding size handle) :
    Inv N start i j (commitWriteChunk N s size handle) := by
  have hok := h.producerOk
  rw [hp] at hok
  obtain ⟨hw, hhead⟩ := hok
  have hspace := h.space
  simp only [hp, Producer.extent] at hspace
  have hload := hhead.load_blocks
  unfold Siso.commitWriteChunk
  simp only
  rw [h.index_wtWriting hw, hload]
  have hstored : Stored N s.data (s.pos start s.committed.length) ⟨s.wtWritingCursorCache,
      chunkBlocks N (s.pos start s.committed.length % N.count) size, handle.dataAddr,
      s.data.slice handle.dataAddr size⟩ :=
    ⟨hw, by simpa using hhead.valid, by simp, by simpa using hhead.dataAddr, hload,
      by simpa using hhead.load_size, by simp⟩
  have hcursor : add32 s.wtWritingCursorCache
      (chunkBlocks N (s.pos start s.committed.length % N.count) size) =
      (s.pos start s.committed.length +
        chunkBlocks N (s.pos start s.committed.length % N.count) size) % 2 ^ 32 := by
    rw [hw, add32_mod]
  exact { h with space := hspace, producerOk := ⟨hcursor, hstored⟩ }

theorem publish (h : Inv N start i j s) {c : Chunk} (hp : s.producer = .publishing c) :
    Inv N start i j { s with
      writingCursor := s.wtWritingCursorCache
      producer := .idle
      committed := s.committed ++ [c] } := by
  have hok := h.producerOk
  rw [hp] at hok
  obtain ⟨hw, hc⟩ := hok
  have hspace := h.space
  simp only [hp, Producer.extent] at hspace
  set s' : State := { s with
      writingCursor := s.wtWritingCursorCache
      producer := .idle
      committed := s.committed ++ [c] } with hs'
  have hpos : ∀ k ≤ s.committed.length, s'.pos start k = s.pos start k := by
    intro k hk
    simp only [State.pos, hs', List.map_append]
    rw [offset_append_of_le _ (by simpa using hk)]
  have hend : s'.pos start s'.committed.length = s.pos start s.committed.length + c.blocks := by
    have hlen : s'.committed.length = s.committed.length + 1 := by simp [hs']
    rw [hlen, s'.pos_succ start (by omega), hpos _ le_rfl]
    simp [hs']
  have hlej := h.j_le
  have hlep := h.passed_le
  have hler := h.returned_le
  have hlei := h.i_le
  refine ⟨?_, h.i_le, h.returned_le, h.passed_le, ?_, ?_, ?_, ?_, ?_, ?_, ?_, ?_, ?_, h.consumerOk⟩
  · show s.seen = (s.committed ++ [c]).take s.seen.length
    rw [List.take_append_of_le_length h.seen_length_le]
    exact h.seen_eq
  · show j ≤ (s.committed ++ [c]).length
    rw [List.length_append]
    omega
  · rw [hpos _ (show s.returned ≤ _ by omega)]
    exact h.reading
  · rw [hend]
    exact hw
  · rw [show s'.passed = s.passed from rfl, hpos _ (by omega)]
    exact h.rtReading
  · rw [hpos j hlej]
    exact h.rtWriting
  · rw [hpos i (by omega)]
    exact h.wtReading
  · rw [hend, hpos i (by omega)]
    exact hspace
  · intro k hk hr
    have hk' : k < s.committed.length + 1 := by simpa [hs'] using hk
    by_cases hlast : k < s.committed.length
    · rw [hpos k hlast.le]
      have : s'.committed.get ⟨k, hk⟩ = s.committed.get ⟨k, hlast⟩ := by
        simp [hs', List.getElem_append_left hlast]
      rw [this]
      exact h.stored k hlast hr
    · obtain rfl : k = s.committed.length := by omega
      rw [hpos _ le_rfl]
      simpa [hs'] using hc
  · rw [hend]
    exact hw

/-! ## Consumer -/

/-- Moving the consumer without passing a chunk changes nothing else. -/
theorem withConsumer (h : Inv N start i j s) (co : Consumer)
    (hpassed : ({ s with consumer := co } : State).passed = s.passed)
    (hok : ConsumerOk { s with consumer := co } j) :
    Inv N start i j { s with consumer := co } :=
  { h with
    returned_le := hpassed ▸ h.returned_le
    passed_le := hpassed ▸ h.passed_le
    rtReading := by
      rw [hpassed]
      exact h.rtReading
    consumerOk := hok }

/-- Reloading the consumer's copy of the write cursor. -/
theorem reloadWriting (h : Inv N start i j s) (hok : ConsumerOk s j → ConsumerOk
      { s with rtWritingCursorCache := s.writingCursor } s.committed.length) :
    Inv N start i s.committed.length { s with rtWritingCursorCache := s.writingCursor } :=
  { h with
    passed_le := h.passed_le.trans h.j_le
    j_le := le_rfl
    rtWriting := h.writing
    consumerOk := hok h.consumerOk }

theorem passed_of_not_holding (s : State) (h : ∀ handle, s.consumer ≠ .holding handle) :
    s.passed = s.seen.length := by
  unfold State.passed
  split
  · rename_i handle he
    exact absurd he (h handle)
  · rfl

theorem readChunk (h : Inv N start i j s) (hc : s.consumer = .idle) :
    Inv N start i j (readChunk s) := by
  have hp : s.passed = s.seen.length := passed_of_not_holding s (by simp [hc])
  unfold Siso.readChunk
  split
  · exact h.withConsumer .loading hp.symm trivial
  · rename_i hne
    have hlt : s.seen.length < j := by
      rw [← hp]
      exact lt_of_le_of_ne h.passed_le fun he => hne (h.cached_eq_iff.2 he)
    exact h.withConsumer .fetching hp.symm hlt

theorem loadWriting (h : Inv N start i j s) (hc : s.consumer = .loading) :
    Inv N start i s.committed.length (loadWriting s) := by
  have hp : s.passed = s.seen.length := passed_of_not_holding s (by simp [hc])
  have h' := h.reloadWriting fun _ => by simp [ConsumerOk, hc]
  unfold Siso.loadWriting
  simp only
  split
  · exact h'.withConsumer .idle hp.symm trivial
  · rename_i hne
    have hlt : s.seen.length < s.committed.length := by
      rw [← hp]
      exact lt_of_le_of_ne h'.passed_le fun he => hne (h'.cached_eq_iff.2 he)
    exact h'.withConsumer .fetching hp.symm hlt

/-- The chunk at the consumer's cursor, when its copy of the write cursor is ahead. -/
theorem chunkAt_passed (h : Inv N start i j s) (hlt : s.passed < j) :
    ∃ hk : s.passed < s.committed.length,
      Stored N s.data (s.pos start s.passed) (s.committed.get ⟨s.passed, hk⟩) ∧
      s.chunkAt N s.rtReadingCursorCache = s.committed.get ⟨s.passed, hk⟩ := by
  have hk : s.passed < s.committed.length := lt_of_lt_of_le hlt h.j_le
  have hst := h.stored s.passed hk h.returned_le
  refine ⟨hk, hst, ?_⟩
  rw [h.rtReading]
  exact hst.chunkAt_eq

/-- Appending the next committed chunk keeps `seen` a prefix. -/
theorem seen_append (h : Inv N start i j s) (hk : s.seen.length < s.committed.length) :
    s.seen ++ [s.committed.get ⟨s.seen.length, hk⟩] = s.committed.take (s.seen.length + 1) := by
  rw [List.take_succ_eq_append_getElem hk, ← h.seen_eq]
  rfl

theorem fetchChunk (h : Inv N start i j s) (hc : s.consumer = .fetching) :
    Inv N start i j (fetchChunk N s) := by
  have hp : s.passed = s.seen.length := passed_of_not_holding s (by simp [hc])
  have hlt : s.passed < j := by simpa [ConsumerOk, hc] using h.consumerOk
  obtain ⟨hk, hst, hchunk⟩ := h.chunkAt_passed hlt
  have hsize : s.data.load (N.index s.rtReadingCursorCache * 8 + 4) 4 =
      (s.committed.get ⟨s.passed, hk⟩).payload.length := by
    rw [h.rtReading, N.index_mod]
    exact hst.load_size
  unfold Siso.fetchChunk
  simp only
  rw [hchunk, hsize]
  have hpassed' : ∀ (co : ReadHandle) (c : Chunk), ({ s with
      consumer := .holding co, seen := s.seen ++ [c] } : State).passed = s.passed := by
    intro co c
    rw [hp]
    simp [State.passed]
  refine { h with seen_eq := ?_, returned_le := ?_, passed_le := ?_, rtReading := ?_,
                  consumerOk := ?_ }
  · simp only [List.length_append, List.length_singleton]
    rw [← h.seen_append (hp ▸ hk)]
    simp only [hp]
  · rw [hpassed']
    exact h.returned_le
  · rw [hpassed']
    exact h.passed_le
  · rw [hpassed']
    exact h.rtReading
  · have hr := h.returned_le
    simp only [ConsumerOk, hpassed']
    refine ⟨hlt, ?_, ?_⟩
    · simp only [List.length_append, List.length_singleton]
      omega
    · simp

theorem returnReadChunk (h : Inv N start i j s) {handle : ReadHandle}
    (hc : s.consumer = .holding handle) :
    Inv N start i j { s with
      rtReadingCursorCache := add32 s.rtReadingCursorCache
        (s.data.load (N.index s.rtReadingCursorCache * 8) 4)
      consumer := .storing } := by
  have hok := h.consumerOk
  simp only [ConsumerOk, hc] at hok
  obtain ⟨hlt, hret, -⟩ := hok
  have hp : s.passed + 1 = s.seen.length := by
    have : s.passed = s.seen.length - 1 := by simp [State.passed, hc]
    omega
  obtain ⟨hk, hst, -⟩ := h.chunkAt_passed hlt
  have hload : s.data.load (N.index s.rtReadingCursorCache * 8) 4 =
      (s.committed.get ⟨s.passed, hk⟩).blocks := by
    rw [h.rtReading, N.index_mod]
    exact hst.load_blocks
  refine { h with returned_le := ?_, passed_le := ?_, rtReading := ?_, consumerOk := trivial }
  · show s.returned ≤ s.seen.length
    omega
  · show s.seen.length ≤ j
    omega
  · show add32 _ _ = s.pos start s.seen.length % 2 ^ 32
    rw [hload, h.rtReading, add32_mod, ← s.pos_succ start hk, hp]

/-- A discarded chunk is the next one again. -/
theorem discardReadChunk (h : Inv N start i j s) {handle : ReadHandle} (hc : s.consumer = .holding handle) :
    Inv N start i j { s with consumer := .idle, seen := s.seen.dropLast } := by
  have hp : State.passed { s with consumer := .idle, seen := s.seen.dropLast } = s.passed := by
    simp only [State.passed, hc, List.length_dropLast]
  refine { h with seen_eq := ?_, returned_le := ?_, passed_le := ?_, rtReading := ?_, consumerOk := trivial }
  · show s.seen.dropLast = s.committed.take s.seen.dropLast.length
    have htake := congrArg (List.take (s.seen.length - 1)) h.seen_eq
    rw [List.take_take, Nat.min_eq_left (Nat.sub_le _ _)] at htake
    rw [List.length_dropLast, List.dropLast_eq_take, htake]
  · rw [hp]
    exact h.returned_le
  · rw [hp]
    exact h.passed_le
  · rw [hp]
    exact h.rtReading

/-- The store of the shared read cursor returns every chunk seen so far. -/
theorem storeReading (h : Inv N start i j s) (hp : s.passed = s.seen.length) :
    Inv N start i j { s with
      readingCursor := s.rtReadingCursorCache
      consumer := .idle
      returned := s.seen.length } := by
  have hle : s.returned ≤ s.seen.length := hp ▸ h.returned_le
  have hj : s.seen.length ≤ j := hp ▸ h.passed_le
  have hcursor : s.rtReadingCursorCache = s.pos start s.seen.length % 2 ^ 32 := hp ▸ h.rtReading
  exact { h with i_le := h.i_le.trans hle, returned_le := le_rfl, passed_le := hj, reading := hcursor,
                 rtReading := hcursor, stored := fun k hk hr => h.stored k hk (hle.trans hr),
                 consumerOk := trivial }

theorem openBatch (h : Inv N start i j s) (hp : s.passed = s.seen.length) :
    Inv N start i j (openBatch s) := by
  unfold Siso.openBatch
  split
  · exact h.withConsumer .idle hp.symm trivial
  · exact h.withConsumer (.batch _) hp.symm ⟨rfl, rfl⟩

theorem batchRead (h : Inv N start i j s) (hc : s.consumer = .idle) :
    Inv N start i j (batchRead s) := by
  have hp : s.passed = s.seen.length := passed_of_not_holding s (by simp [hc])
  unfold Siso.batchRead
  split
  · exact h.withConsumer .batchLoading hp.symm trivial
  · exact h.openBatch hp

theorem nextChunk (h : Inv N start i j s) {b : BatchReadHandle} (hc : s.consumer = .batch b)
    (hne : b.currentCursor ≠ b.endCursor) : Inv N start i j (nextChunk N s b) := by
  have hp : s.passed = s.seen.length := passed_of_not_holding s (by simp [hc])
  have hok := h.consumerOk
  simp only [ConsumerOk, hc] at hok
  rw [hok.1, hok.2] at hne
  have hlt : s.passed < j := lt_of_le_of_ne h.passed_le fun he => hne (h.cursors_eq_iff.2 he)
  obtain ⟨hk, -, hchunk⟩ := h.chunkAt_passed hlt
  have hcursor : add32 s.rtReadingCursorCache (s.committed.get ⟨s.passed, hk⟩).blocks =
      s.pos start (s.seen.length + 1) % 2 ^ 32 := by
    rw [h.rtReading, add32_mod, ← s.pos_succ start hk, hp]
  unfold Siso.nextChunk
  simp only
  rw [hok.1, hchunk, hcursor]
  have hr := h.returned_le
  refine { h with seen_eq := ?_, returned_le := ?_, passed_le := ?_, rtReading := ?_,
                  consumerOk := ⟨rfl, hok.2⟩ }
  · simp only [List.length_append, List.length_singleton]
    rw [← h.seen_append (hp ▸ hk)]
    simp only [hp]
  · simp only [State.passed, List.length_append, List.length_singleton]
    omega
  · simp only [State.passed, List.length_append, List.length_singleton]
    omega
  · simp [State.passed, State.pos]

end Inv

/-! ## Runs -/

/-- **Every step keeps the invariant**, for suitable positions of the two cached cursors. -/
theorem inv_step {s s' : State} {a : Act} (h : ∃ i j, Inv N start i j s)
    (ha : step N s a = some s') : ∃ i j, Inv N start i j s' := by
  obtain ⟨i, j, h⟩ := h
  have hok := h.producerOk
  cases a with
  | alloc size =>
    simp only [step] at ha
    split at ha
    · rename_i hp
      rw [hp] at hok
      split at ha
      · rename_i hsize
        cases ha
        exact ⟨i, j, h.allocWriteChunk hsize hok⟩
      · cases ha
    · rename_i hp
      rw [hp] at hok
      split at ha
      · rename_i hsize
        cases ha
        exact ⟨i, j, h.allocWriteChunk hsize hok.1⟩
      · cases ha
    · cases ha
  | refresh =>
    simp only [step] at ha
    split at ha <;> cases ha
    rename_i hp
    exact ⟨_, j, h.refreshReading hp⟩
  | place =>
    simp only [step] at ha
    split at ha <;> cases ha
    rename_i hp
    exact ⟨i, j, h.placeHead hp⟩
  | confirm =>
    simp only [step] at ha
    split at ha <;> cases ha
    rename_i hp
    exact ⟨_, j, h.confirmLowSpace hp⟩
  | write k b =>
    simp only [step] at ha
    split at ha
    · rename_i hp
      split at ha <;> cases ha
      rename_i hk
      exact ⟨i, j, h.writePayload b hp hk⟩
    · cases ha
  | commit =>
    simp only [step] at ha
    split at ha <;> cases ha
    rename_i hp
    exact ⟨i, j, h.commitWriteChunk hp⟩
  | publish =>
    simp only [step] at ha
    split at ha <;> cases ha
    rename_i hp
    exact ⟨i, j, h.publish hp⟩
  | readChunk =>
    simp only [step] at ha
    split at ha <;> cases ha
    rename_i hc
    exact ⟨i, j, h.readChunk hc⟩
  | load =>
    simp only [step] at ha
    split at ha <;> cases ha
    rename_i hc
    exact ⟨i, _, h.loadWriting hc⟩
  | fetch =>
    simp only [step] at ha
    split at ha <;> cases ha
    rename_i hc
    exact ⟨i, j, h.fetchChunk hc⟩
  | returnReadChunk =>
    simp only [step] at ha
    split at ha <;> cases ha
    rename_i hc
    exact ⟨i, j, h.returnReadChunk hc⟩
  | storeReading =>
    simp only [step] at ha
    split at ha <;> cases ha
    rename_i hc
    exact ⟨i, j, h.storeReading (Inv.passed_of_not_holding s (by simp [hc]))⟩
  | discardReadChunk =>
    simp only [step] at ha
    split at ha <;> cases ha
    rename_i hc
    exact ⟨i, j, h.discardReadChunk hc⟩
  | batchRead =>
    simp only [step] at ha
    split at ha <;> cases ha
    rename_i hc
    exact ⟨i, j, h.batchRead hc⟩
  | batchLoad =>
    simp only [step] at ha
    split at ha <;> cases ha
    rename_i hc
    have h' := h.reloadWriting fun _ => by simp [ConsumerOk, hc]
    exact ⟨i, _, h'.openBatch (Inv.passed_of_not_holding s (by simp [hc]))⟩
  | next =>
    simp only [step] at ha
    split at ha
    · rename_i hc
      split at ha <;> cases ha
      rename_i hne
      exact ⟨i, j, h.nextChunk hc hne⟩
    · cases ha
  | returnBatchReadChunks =>
    simp only [step] at ha
    split at ha <;> cases ha
    rename_i hc
    exact ⟨i, j, h.storeReading (Inv.passed_of_not_holding s (by simp [hc]))⟩

theorem Reachable.inv {data : Mem} (h : Reachable N start data s) : ∃ i j, Inv N start i j s :=
  Runs.invariant (I := fun s => ∃ i j, Inv N start i j s) h ⟨0, 0, inv_init N start data⟩
    fun _ _ _ hu _ ha => inv_step hu ha

end QLog.Siso
