import QLog.Foundations.Queues
import QLog.Buffer.Siso.Fifo

/-!
# The single-producer ring implements a queue

The queue holds the payloads of the chunks that are committed and not passed by the consumer's own cursor.
The store of the write cursor pushes the chunk that the producer filled in; `read_chunk` peeks at the first
one, and `return_read_chunk` and `next` pop what the head and the payload in memory say; and a reload of the
write cursor that finds no chunk reports an empty queue. A chunk that is discarded stays in front. So every
run of the ring is a trace of the queue (`siso_queue`).
-/

namespace QLog.Siso

variable {N : BlockCount} {start i j : ℕ} {s s' : State} {a : Act}

/-- The payloads that are committed and not passed. -/
def State.queue (s : State) : List (List UInt8) := (s.committed.drop s.passed).map Chunk.payload

/-- What the two threads see of a step. -/
def label (N : BlockCount) (s : State) : Act → List (QueueLabel (List UInt8))
  | .publish =>
    match s.producer with
    | .publishing c => [.push c.payload]
    | _ => []
  | .fetch => [.peek (s.chunkAt N s.rtReadingCursorCache).payload]
  | .returnReadChunk => [.pop (s.chunkAt N s.rtReadingCursorCache).payload]
  | .next =>
    match s.consumer with
    | .batch b => [.pop (s.chunkAt N b.currentCursor).payload]
    | _ => []
  | .load => if sub32 s.writingCursor s.rtReadingCursorCache = 0 then [.empty] else []
  | .batchLoad => if s.rtReadingCursorCache = s.writingCursor then [.empty] else []
  | _ => []

namespace Inv

/-- The chunk at the consumer's cursor is the first of the queue. -/
theorem queue_eq_cons (h : Inv N start i j s) (hlt : s.passed < j) :
    s.queue = (s.chunkAt N s.rtReadingCursorCache).payload ::
      (s.committed.drop (s.passed + 1)).map Chunk.payload := by
  obtain ⟨hk, -, hchunk⟩ := h.chunkAt_passed hlt
  rw [State.queue, List.drop_eq_getElem_cons hk, List.map_cons, hchunk, List.get_eq_getElem]

theorem trace_peek (h : Inv N start i j s) (hlt : s.passed < j) (hcommitted : s'.committed = s.committed)
    (hpassed : s'.passed = s.passed) :
    Trace QueueStep s.queue [.peek (s.chunkAt N s.rtReadingCursorCache).payload] s'.queue := by
  have hq : s'.queue = s.queue := by rw [State.queue, State.queue, hcommitted, hpassed]
  rw [hq, h.queue_eq_cons hlt]
  exact .single (.peek _ _)

theorem trace_pop (h : Inv N start i j s) (hlt : s.passed < j) (hcommitted : s'.committed = s.committed)
    (hpassed : s'.passed = s.passed + 1) :
    Trace QueueStep s.queue [.pop (s.chunkAt N s.rtReadingCursorCache).payload] s'.queue := by
  rw [h.queue_eq_cons hlt, ← hpassed, ← hcommitted]
  exact .single (.pop _ _)

/-- The consumer's cursor meets the write cursor: everything committed was passed. -/
theorem trace_empty (h : Inv N start i j s) (he : s.rtReadingCursorCache = s.writingCursor)
    (hcommitted : s'.committed = s.committed) (hpassed : s'.passed = s.passed) :
    Trace QueueStep s.queue [.empty] s'.queue := by
  have hq : s.queue = [] := by
    rw [State.queue, h.passed_eq_length he, List.drop_length, List.map_nil]
  have hq' : s'.queue = [] := by rw [State.queue, hcommitted, hpassed, ← State.queue, hq]
  rw [hq, hq']
  exact .single .empty

end Inv

theorem trace_same (hcommitted : s'.committed = s.committed) (hpassed : s'.passed = s.passed) :
    Trace QueueStep s.queue [] s'.queue :=
  .of_eq (by rw [State.queue, State.queue, hcommitted, hpassed])

/-- Every step of the ring is a step of the queue, or none. -/
theorem trace_step (h : Inv N start i j s) (ha : step N s a = some s') :
    Trace QueueStep s.queue (label N s a) s'.queue := by
  have hsub : ∀ {x y : ℕ}, x < 2 ^ 32 → y < 2 ^ 32 → sub32 x y = 0 → y = x := by
    intro x y hx hy h0
    unfold sub32 at h0
    omega
  cases a with
  | alloc size =>
    simp only [step] at ha
    split at ha
    · split at ha <;> cases ha
      unfold allocWriteChunk
      split
      · exact trace_same rfl rfl
      · split <;> exact trace_same rfl rfl
    · split at ha <;> cases ha
      unfold allocWriteChunk
      split
      · exact trace_same rfl rfl
      · split <;> exact trace_same rfl rfl
    · cases ha
  | refresh =>
    simp only [step] at ha
    split at ha <;> cases ha
    unfold refreshReading
    simp only
    split <;> exact trace_same rfl rfl
  | place | confirm | commit =>
    simp only [step] at ha
    split at ha <;> cases ha
    exact trace_same rfl rfl
  | storeReading | returnBatchReadChunks =>
    simp only [step] at ha
    split at ha <;> cases ha
    rename_i hc
    exact trace_same rfl (Inv.passed_of_not_holding s (by simp [hc])).symm
  | write k b =>
    simp only [step] at ha
    split at ha
    · split at ha <;> cases ha
      exact trace_same rfl rfl
    · cases ha
  | publish =>
    simp only [step] at ha
    split at ha <;> cases ha
    rename_i c hp
    have hle : s.passed ≤ s.committed.length := h.passed_le.trans h.j_le
    have hq : State.queue { s with
        writingCursor := s.wtWritingCursorCache, producer := .idle, committed := s.committed ++ [c] } =
        s.queue ++ [c.payload] := by
      change ((s.committed ++ [c]).drop s.passed).map Chunk.payload = _
      rw [List.drop_append_of_le_length hle, List.map_append, List.map_singleton]
      rfl
    rw [hq]
    simp only [label, hp]
    exact .single (.push _ _)
  | readChunk =>
    simp only [step] at ha
    split at ha <;> cases ha
    rename_i hc
    have hp := Inv.passed_of_not_holding s (by simp [hc])
    unfold readChunk
    split <;> exact trace_same rfl hp.symm
  | load =>
    simp only [step] at ha
    split at ha <;> cases ha
    rename_i hc
    have hp := Inv.passed_of_not_holding s (by simp [hc])
    have hr : s.rtReadingCursorCache < 2 ^ 32 := by
      rw [h.rtReading]
      exact Nat.mod_lt _ (by norm_num)
    have hw : s.writingCursor < 2 ^ 32 := by
      rw [h.writing]
      exact Nat.mod_lt _ (by norm_num)
    unfold loadWriting
    simp only [label]
    split
    · rename_i h0
      exact h.trace_empty (hsub hw hr h0) rfl hp.symm
    · exact trace_same rfl hp.symm
  | fetch =>
    simp only [step] at ha
    split at ha <;> cases ha
    rename_i hc
    have hp := Inv.passed_of_not_holding s (by simp [hc])
    have hlt : s.passed < j := by simpa [ConsumerOk, hc] using h.consumerOk
    refine h.trace_peek hlt rfl ?_
    rw [hp, State.passed, fetchChunk]
    simp only [List.length_append, List.length_singleton, Nat.add_sub_cancel]
  | returnReadChunk =>
    simp only [step] at ha
    split at ha <;> cases ha
    rename_i handle hc
    have hok := h.consumerOk
    simp only [ConsumerOk, hc] at hok
    refine h.trace_pop hok.1 rfl ?_
    simp only [State.passed, hc]
    omega
  | discardReadChunk =>
    simp only [step] at ha
    split at ha <;> cases ha
    rename_i handle hc
    refine trace_same rfl ?_
    simp only [State.passed, hc, List.length_dropLast]
  | batchRead =>
    simp only [step] at ha
    split at ha <;> cases ha
    rename_i hc
    have hp := Inv.passed_of_not_holding s (by simp [hc])
    unfold batchRead openBatch
    split
    · exact trace_same rfl hp.symm
    · split <;> exact trace_same rfl hp.symm
  | batchLoad =>
    simp only [step] at ha
    split at ha <;> cases ha
    rename_i hc
    have hp := Inv.passed_of_not_holding s (by simp [hc])
    unfold openBatch
    simp only [label]
    split
    · rename_i he
      exact h.trace_empty he rfl hp.symm
    · exact trace_same rfl hp.symm
  | next =>
    simp only [step] at ha
    split at ha
    · rename_i b hc
      split at ha <;> cases ha
      rename_i hne
      have hp := Inv.passed_of_not_holding s (by simp [hc])
      have hok := h.consumerOk
      simp only [ConsumerOk, hc] at hok
      rw [hok.1, hok.2] at hne
      have hlt : s.passed < j := lt_of_le_of_ne h.passed_le fun he => hne (h.cursors_eq_iff.2 he)
      simp only [label, hc, hok.1]
      refine h.trace_pop hlt rfl ?_
      rw [hp, State.passed, nextChunk]
      simp only [List.length_append, List.length_singleton]
    · cases ha

/-- The ring simulates the queue. -/
theorem simulates (N : BlockCount) (start : ℕ) : Simulates (step N) (fun _ _ => True) (label N) QueueStep
    State.queue fun s => ∃ i j, Inv N start i j s where
  keeps hI _ hs := inv_step hI hs
  trace hI _ hs := by
    obtain ⟨i, j, h⟩ := hI
    exact trace_step h hs

/-- **The ring is a queue**: in every run the labels that the two threads see are a trace of the queue, so
what the consumer reads out of memory and does not discard, followed by what is still in the ring, is what the
producer put in. -/
theorem siso_queue (N : BlockCount) (start : ℕ) (data : Mem) (as : List Act) (s : State)
    (h : run (step N) (State.init start data) as = some s) :
    Trace QueueStep [] (observe (step N) (label N) (State.init start data) as) s.queue ∧
      (observe (step N) (label N) (State.init start data) as).filterMap QueueLabel.popped ++ s.queue =
        (observe (step N) (label N) (State.init start data) as).filterMap QueueLabel.pushed := by
  have htrace := (simulates N start).run ⟨0, 0, inv_init N start data⟩ (.of_forall fun _ _ => trivial) h
  have hempty : (State.init start data).queue = [] := rfl
  rw [hempty] at htrace
  exact ⟨htrace, by simpa using htrace.fifo⟩

/-- A chunk across the end of the 32-bit range is read and discarded, read once more and returned. -/
def discardRun : List Act :=
  [.alloc 2, .place, .confirm, .write 0 7, .write 1 9, .commit, .publish, .readChunk, .load, .fetch,
    .discardReadChunk, .batchRead, .returnBatchReadChunks, .readChunk, .fetch, .returnReadChunk,
    .storeReading, .readChunk, .load]

theorem siso_queue_discardRun : ∃ s, run (step ⟨2, by decide⟩) (State.init (2 ^ 32 - 3) fun _ => 0)
      discardRun = some s ∧
    observe (step ⟨2, by decide⟩) (label ⟨2, by decide⟩) (State.init (2 ^ 32 - 3) fun _ => 0) discardRun =
      [.push [7, 9], .peek [7, 9], .peek [7, 9], .pop [7, 9], .empty] ∧
    Trace QueueStep [] (observe (step ⟨2, by decide⟩) (label ⟨2, by decide⟩)
      (State.init (2 ^ 32 - 3) fun _ => 0) discardRun) s.queue := by
  refine ⟨(run (step ⟨2, by decide⟩) (State.init (2 ^ 32 - 3) fun _ => 0) discardRun).get
    (by decide +kernel), (Option.some_get _).symm, by decide +kernel, ?_⟩
  exact (siso_queue ⟨2, by decide⟩ (2 ^ 32 - 3) (fun _ => 0) discardRun _
    (Option.some_get (by decide +kernel)).symm).1

end QLog.Siso
