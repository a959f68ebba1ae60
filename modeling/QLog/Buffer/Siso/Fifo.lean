import QLog.Buffer.Siso.Steps

/-!
# The single-producer ring is a FIFO queue

`siso_fifo` collects what the invariant gives in every reachable state: the consumer has seen a
prefix of the committed chunks, all of them once its cursor meets the published write cursor; every
chunk that is not returned is intact in memory and inside the data area; the chunk held by the
producer shares no block with any of them; and a read of a ring that is not empty hands out the next chunk.
-/

namespace QLog.Siso

variable {N : BlockCount} {start : ℕ} {s : State}

namespace Inv

variable {i j : ℕ}

/-- A chunk that is not returned is a committed chunk at its place in memory. -/
theorem stored_of_mem_drop (h : Inv N start i j s) {c : Chunk} (hc : c ∈ s.committed.drop s.returned) :
    ∃ k, ∃ hk : k < s.committed.length, s.returned ≤ k ∧ s.committed.get ⟨k, hk⟩ = c ∧
      Stored N s.data (s.pos start k) c := by
  obtain ⟨k, hk, he⟩ := List.getElem_of_mem hc
  rw [List.length_drop] at hk
  rw [List.getElem_drop] at he
  refine ⟨s.returned + k, by omega, by omega, he, ?_⟩
  rw [← he]
  exact h.stored _ (by omega) (by omega)

/-- The blocks behind the committed chunks that the producer owns are none of a chunk that is not
returned. -/
theorem disjoint_extent (h : Inv N start i j s) {c : Chunk} (hc : c ∈ s.committed.drop s.returned) :
    Disjoint (ringBlocks N.count (s.pos start s.committed.length)
      (s.producer.extent N (s.pos start s.committed.length % N.count)))
      (ringBlocks N.count c.cursor c.blocks) := by
  obtain ⟨k, hk, hr, rfl, hst⟩ := h.stored_of_mem_drop hc
  rw [hst.cursor, ringBlocks_mod]
  have hend := s.pos_mono start (show k + 1 ≤ s.committed.length by omega)
  rw [s.pos_succ start hk] at hend
  have hik := s.pos_mono start (h.i_le.trans hr)
  have hspace := h.space
  exact (disjoint_ringBlocks hend (by omega)).symm

theorem seen_prefix (h : Inv N start i j s) : s.seen <+: s.committed := by
  rw [h.seen_eq]
  exact List.take_prefix _ _

/-- The consumer's own cursor meets the write cursor only behind all chunks. -/
theorem passed_eq_length (h : Inv N start i j s) (he : s.rtReadingCursorCache = s.writingCursor) :
    s.passed = s.committed.length := by
  have hle : s.passed ≤ s.committed.length := h.passed_le.trans h.j_le
  by_contra hne
  have hlt := h.pos_lt_pos h.returned_le (lt_of_le_of_ne hle hne) le_rfl
  have hsub := h.sub32_pos (h.i_le.trans h.returned_le) hle le_rfl
  rw [← h.rtReading, ← h.writing, he] at hsub
  have h0 : sub32 s.writingCursor s.writingCursor = 0 := by
    unfold sub32
    omega
  omega

theorem seen_eq_committed (h : Inv N start i j s) (he : s.rtReadingCursorCache = s.writingCursor) :
    s.seen = s.committed := by
  have hlen : s.committed.length ≤ s.seen.length := by
    rw [← h.passed_eq_length he]
    unfold State.passed
    split <;> omega
  rw [h.seen_eq, List.take_of_length_le hlen]

/-- The chunk at the consumer's own cursor is the next one. -/
theorem chunkAt_next (h : Inv N start i j s) (hp : s.passed = s.seen.length) (hlt : s.passed < j) {c : Chunk}
    (hc : s.committed[s.seen.length]? = some c) : s.chunkAt N s.rtReadingCursorCache = c := by
  obtain ⟨hk, -, hchunk⟩ := h.chunkAt_passed hlt
  rw [hchunk, List.get_eq_getElem]
  simp only [hp]
  exact (List.getElem?_eq_some_iff.1 hc).2

/-- While a chunk is left, the consumer's cursor has not met the write cursor. -/
theorem cursor_ne_writing (h : Inv N start i j s) {c : Chunk} (hc : s.committed[s.seen.length]? = some c) :
    s.rtReadingCursorCache ≠ s.writingCursor := fun he => by
  rw [h.seen_eq_committed he, List.getElem?_eq_none le_rfl] at hc
  cases hc

theorem not_idle_of_left (h : Inv N start i j s) {c : Chunk} {s' : State}
    (hc : s.committed[s.seen.length]? = some c)
    (hs : step N s .readChunk = some s' ∨ step N s .load = some s' ∨ step N s .batchRead = some s' ∨
      step N s .batchLoad = some s') : s'.consumer ≠ .idle := by
  have hne := h.cursor_ne_writing hc
  rcases hs with hs | hs | hs | hs
  · simp only [step] at hs
    split at hs <;> cases hs
    unfold Siso.readChunk
    split <;> exact Consumer.noConfusion
  · simp only [step] at hs
    split at hs <;> cases hs
    have hr : s.rtReadingCursorCache < 2 ^ 32 := by
      rw [h.rtReading]
      exact Nat.mod_lt _ (by norm_num)
    have hw : s.writingCursor < 2 ^ 32 := by
      rw [h.writing]
      exact Nat.mod_lt _ (by norm_num)
    have hsub : sub32 s.writingCursor s.rtReadingCursorCache ≠ 0 := by
      unfold sub32
      omega
    unfold Siso.loadWriting
    simp only [hsub, if_false]
    exact Consumer.noConfusion
  · simp only [step] at hs
    split at hs <;> cases hs
    unfold Siso.batchRead Siso.openBatch
    split
    · exact Consumer.noConfusion
    · rename_i hcached
      rw [if_neg fun he => hcached he.symm]
      exact Consumer.noConfusion
  · simp only [step] at hs
    split at hs <;> cases hs
    unfold Siso.openBatch
    rw [if_neg hne]
    exact Consumer.noConfusion

theorem fetch_next (h : Inv N start i j s) {c : Chunk} {s' : State}
    (hc : s.committed[s.seen.length]? = some c) (hs : step N s .fetch = some s') :
    s'.seen = s.seen ++ [c] ∧ s'.consumer = .holding ⟨c.dataAddr, .success, c.payload.length⟩ := by
  simp only [step] at hs
  split at hs <;> cases hs
  rename_i hfetch
  have hlt : s.passed < j := by simpa [ConsumerOk, hfetch] using h.consumerOk
  have hchunk := h.chunkAt_next (passed_of_not_holding s (by simp [hfetch])) hlt hc
  refine ⟨by rw [Siso.fetchChunk, hchunk], ?_⟩
  rw [← hchunk, Siso.fetchChunk, State.chunkAt, Mem.length_slice]

theorem nextChunk_next (h : Inv N start i j s) {c : Chunk} {s' : State}
    (hc : s.committed[s.seen.length]? = some c) (hs : step N s .next = some s') : s'.seen = s.seen ++ [c] := by
  simp only [step] at hs
  split at hs
  · rename_i b hbatch
    split at hs <;> cases hs
    rename_i hne
    have hok := h.consumerOk
    simp only [ConsumerOk, hbatch] at hok
    rw [hok.1, hok.2] at hne
    have hlt : s.passed < j := lt_of_le_of_ne h.passed_le fun he => hne (h.cursors_eq_iff.2 he)
    rw [Siso.nextChunk, hok.1, h.chunkAt_next (passed_of_not_holding s (by simp [hbatch])) hlt hc]
  · cases hs

end Inv

/-- **FIFO order, intact payloads and exclusive blocks**, for every power-of-two block count, every
start value of the cursors and every interleaving of the producer with the consumer, which may use
single reads and batches in turn. -/
theorem siso_fifo (N : BlockCount) (start : ℕ) (data : Mem) (s : State)
    (h : Reachable N start data s) :
    -- the consumer sees the committed chunks in order, each once and none left out
    (s.seen <+: s.committed ∧ (s.rtReadingCursorCache = s.writingCursor → s.seen = s.committed)) ∧
    -- what is not returned yet is still in memory, inside the data area, where the head says
    (∀ c ∈ s.committed.drop s.returned, s.data.slice c.dataAddr c.payload.length = c.payload ∧
      c.dataAddr + c.payload.length ≤ 8 * N.count ∧
      getBlockDataAddr N s.data (N.index c.cursor) = c.dataAddr) ∧
    -- a chunk handed out by `read_chunk` is the last one seen
    (∀ handle, s.consumer = .holding handle → ∃ c, s.seen.getLast? = some c ∧
      c ∈ s.committed.drop s.returned ∧
      handle.dataAddr = c.dataAddr ∧ handle.dataSize = c.payload.length) ∧
    -- the producer's chunk lies inside the data area and overlaps nothing that is not returned
    (∀ size handle, s.producer = .holding size handle →
      handle.dataAddr + size ≤ 8 * N.count ∧
      getBlockDataAddr N s.data (s.writeIndex N) = handle.dataAddr ∧
      (∀ x, handle.dataAddr ≤ x → x < handle.dataAddr + size →
        x / 8 ∈ ringBlocks N.count s.wtWritingCursorCache (chunkBlocks N (s.writeIndex N) size)) ∧
      ∀ c ∈ s.committed.drop s.returned,
        Disjoint (ringBlocks N.count s.wtWritingCursorCache (chunkBlocks N (s.writeIndex N) size))
          (ringBlocks N.count c.cursor c.blocks)) ∧
    -- while a chunk is left, `read_chunk` and `batch_read` do not report an empty ring, and the chunk that is
    -- handed out is the next one
    (∀ c s', s.committed[s.seen.length]? = some c →
      (step N s .readChunk = some s' ∨ step N s .load = some s' ∨ step N s .batchRead = some s' ∨
        step N s .batchLoad = some s' → s'.consumer ≠ .idle) ∧
      (step N s .fetch = some s' → s'.seen = s.seen ++ [c] ∧
        s'.consumer = .holding ⟨c.dataAddr, .success, c.payload.length⟩) ∧
      (step N s .next = some s' → s'.seen = s.seen ++ [c])) := by
  obtain ⟨i, j, hinv⟩ := h.inv
  refine ⟨⟨hinv.seen_prefix, hinv.seen_eq_committed⟩, ?_, ?_, ?_, fun c s' hc => ?_⟩
  · intro c hc
    obtain ⟨k, hk, -, -, hst⟩ := hinv.stored_of_mem_drop hc
    refine ⟨hst.payload, hst.dataAddr_add_le, ?_⟩
    rw [hst.cursor, N.index_mod]
    exact (getBlockDataAddr_eq hst.load_size).trans hst.dataAddr.symm
  · intro handle hc
    have hok := hinv.consumerOk
    simp only [ConsumerOk, hc] at hok
    obtain ⟨-, hret, hlast⟩ := hok
    have hne : s.seen ≠ [] := by
      rintro h0
      simp [h0] at hret
    refine ⟨s.seen.getLast hne, List.getLast?_eq_some_getLast hne, ?_,
      hlast _ (List.getLast?_eq_some_getLast hne)⟩
    have hmem : s.seen.getLast hne ∈ s.seen.drop s.returned := by
      rw [← List.getLast_drop (by simpa using hret)]
      exact List.getLast_mem _
    obtain ⟨rest, hrest⟩ := hinv.seen_prefix
    rw [← hrest, List.drop_append_of_le_length hret.le]
    exact List.mem_append_left _ hmem
  · intro size handle hp
    have hok := hinv.producerOk
    rw [hp] at hok
    obtain ⟨hw, hhead⟩ := hok
    have hindex := hinv.index_wtWriting hw
    have hdisj : ∀ c ∈ s.committed.drop s.returned, _ := fun c hc => hinv.disjoint_extent hc
    simp only [hp, Producer.extent] at hdisj
    rw [hindex, hw, ringBlocks_mod]
    refine ⟨?_, (getBlockDataAddr_eq hhead.load_size).trans hhead.dataAddr.symm, ?_, hdisj⟩
    · rw [hhead.dataAddr]
      exact payloadAddr_add_le (Nat.mod_lt _ N.count_pos) hhead.valid
    · intro x hx hx'
      rw [hhead.dataAddr] at hx hx'
      exact payload_mem_ringBlocks hhead.valid hx hx'
  · exact ⟨hinv.not_idle_of_left hc, hinv.fetch_next hc, hinv.nextChunk_next hc⟩

/-- A ring of four blocks whose cursors start at the end of the 32-bit range: one two-byte chunk is
committed and handed out, and a second one, whose payload does not fit the tail, is held. -/
def wrapRun : List Act :=
  [.alloc 2, .place, .confirm, .write 0 7, .write 1 9, .commit, .publish, .readChunk, .load, .fetch,
    .alloc 12, .refresh, .returnReadChunk, .storeReading, .alloc 12, .refresh, .place, .confirm,
    .readChunk]

theorem siso_fifo_wrapRun : ∃ s, run (step ⟨2, by decide⟩) (State.init (2 ^ 32 - 3) fun _ => 0)
      wrapRun = some s ∧ s.seen.map Chunk.payload = [[7, 9]] ∧ s.seen <+: s.committed := by
  refine ⟨(run (step ⟨2, by decide⟩) (State.init (2 ^ 32 - 3) fun _ => 0) wrapRun).get
    (by decide +kernel), (Option.some_get _).symm, by decide +kernel, ?_⟩
  exact (siso_fifo ⟨2, by decide⟩ (2 ^ 32 - 3) (fun _ => 0) _
    (Runs.of_run (fun _ _ => trivial) (Option.some_get (by decide +kernel)).symm)).1.1

end QLog.Siso
