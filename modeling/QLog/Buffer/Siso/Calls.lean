import QLog.Buffer.Siso.Steps

/-!
# Whole calls of the single-producer ring

What a ring does for a thread that has it for itself, under a lock say: `alloc_write_chunk`, the copy of a
payload with `commit_write_chunk`, `read_chunk` and `return_read_chunk`, each from its first action to its
last.

Between two calls the ring is `Quiet`, and `State.held` are the payloads that have not been returned. The
calls are those of a queue: a payload goes to the end (`Quiet.commitCall`), it is read from the front
(`Quiet.readCall`), and there is no room only if something is held (`Quiet.allocCall`).
-/

namespace QLog.Siso

/-! ## The calls -/

section Calls

variable (N : BlockCount)

/-- `get_max_alloc_size`. -/
def getMaxAllocSize : ℕ := sub32 (N.count * 8) 8

/-- The end of the half-full test: the read cursor is loaded once more when half of the ring is passed. -/
def confirmCall (s : State) : State :=
  match s.producer with
  | .confirming size handle => confirmLowSpace N s size handle
  | _ => s

/-- The end of a room test: the chunk head is written, or the error is reported. -/
def placeCall (error : ResultCode) (s : State) : ResultCode × State :=
  match s.producer with
  | .placing size => (.success, confirmCall N (placeHead N s size))
  | _ => (error, s)

/-- The second room test, when the first one found too little room. -/
def refreshCall (s : State) : ResultCode × State :=
  match s.producer with
  | .refreshing size => placeCall N .errNotEnoughSpace (refreshReading N s size)
  | _ => placeCall N .errAllocSizeInvalid s

/-- `alloc_write_chunk`. -/
def allocCall (s : State) (size : ℕ) : ResultCode × State := refreshCall N (allocWriteChunk N s size)

/-- The store of the write cursor. -/
def publishCall (s : State) : State :=
  match s.producer with
  | .publishing c =>
    { s with writingCursor := s.wtWritingCursorCache, producer := .idle, committed := s.committed ++ [c] }
  | _ => s

/-- The payload is copied to the chunk, and `commit_write_chunk`. -/
def commitCall (s : State) (payload : List UInt8) : State :=
  match s.producer with
  | .holding size handle =>
    publishCall (commitWriteChunk N { s with data := s.data.write handle.dataAddr payload } size handle)
  | _ => s

/-- The handle that `read_chunk` returns. -/
def State.readHandle (s : State) : ReadHandle :=
  match s.consumer with
  | .holding handle => handle
  | _ => ⟨0, .errEmptyLogBuffer, 0⟩

/-- The second look for a chunk, when the first one found nothing. -/
def loadCall (s : State) : State :=
  match s.consumer with
  | .loading => loadWriting s
  | _ => s

/-- The head of the chunk is read, if there is one. -/
def fetchCall (s : State) : State :=
  match s.consumer with
  | .fetching => fetchChunk N s
  | _ => s

/-- `read_chunk`. -/
def readCall (s : State) : ReadHandle × State :=
  let s := fetchCall N (loadCall (readChunk s))
  (s.readHandle, s)

/-- `return_read_chunk`. -/
def returnCall (s : State) (handle : ReadHandle) : State :=
  if handle.result ≠ .success then s
  else
    let cursor := add32 s.rtReadingCursorCache (s.data.load (N.index s.rtReadingCursorCache * 8) 4)
    { s with
      rtReadingCursorCache := cursor
      readingCursor := cursor
      consumer := .idle
      returned := s.seen.length }

end Calls

/-- The payloads that are not returned, the oldest first. -/
def State.held (s : State) : List (List UInt8) := (s.committed.drop s.returned).map Chunk.payload

/-- No call is under way. -/
structure Quiet (N : BlockCount) (s : State) : Prop where
  inv : ∃ start i j, Inv N start i j s
  producer : s.producer = .idle
  consumer : s.consumer = .idle
  returned : s.returned = s.seen.length

/-- The two states have the same history, the same consumer and the same write cursor. -/
structure SameHistory (s s' : State) : Prop where
  committed : s'.committed = s.committed
  seen : s'.seen = s.seen
  returned : s'.returned = s.returned
  consumer : s'.consumer = s.consumer
  wtWriting : s'.wtWritingCursorCache = s.wtWritingCursorCache

variable {N : BlockCount} {start i j size : ℕ} {s s' : State} {payload : List UInt8}

theorem SameHistory.refl (s : State) : SameHistory s s := ⟨rfl, rfl, rfl, rfl, rfl⟩

theorem SameHistory.trans {s'' : State} (h : SameHistory s s') (h' : SameHistory s' s'') : SameHistory s s'' where
  committed := h'.committed.trans h.committed
  seen := h'.seen.trans h.seen
  returned := h'.returned.trans h.returned
  consumer := h'.consumer.trans h.consumer
  wtWriting := h'.wtWriting.trans h.wtWriting

theorem SameHistory.held (h : SameHistory s s') : s'.held = s.held := by
  rw [State.held, State.held, h.committed, h.returned]

theorem quiet_init (N : BlockCount) (data : Mem) : Quiet N (State.init 0 data) :=
  ⟨⟨0, 0, 0, inv_init N 0 data⟩, rfl, rfl, rfl⟩

@[simp] theorem held_init (start : ℕ) (data : Mem) : (State.init start data).held = [] := rfl

/-! ## Allocation -/

theorem placeHead_producer (N : BlockCount) (s : State) (size : ℕ) :
    (∃ handle, (placeHead N s size).producer = .confirming size handle) ∨
      ∃ handle, (placeHead N s size).producer = .holding size handle := by
  unfold placeHead
  dsimp only
  split_ifs
  · exact .inl ⟨_, rfl⟩
  · exact .inr ⟨_, rfl⟩

theorem sameHistory_placeHead (N : BlockCount) (s : State) (size : ℕ) : SameHistory s (placeHead N s size) :=
  ⟨rfl, rfl, rfl, rfl, rfl⟩

theorem sameHistory_confirmLowSpace (N : BlockCount) (s : State) (size : ℕ) (handle : WriteHandle) :
    SameHistory s (confirmLowSpace N s size handle) :=
  ⟨rfl, rfl, rfl, rfl, rfl⟩

theorem confirmCall_of_confirming {handle : WriteHandle} (h : s.producer = .confirming size handle) :
    confirmCall N s = confirmLowSpace N s size handle := by
  rw [confirmCall, h]

theorem confirmCall_of_holding {handle : WriteHandle} (h : s.producer = .holding size handle) :
    confirmCall N s = s := by
  rw [confirmCall, h]

theorem placeCall_of_placing (error : ResultCode) (h : s.producer = .placing size) :
    placeCall N error s = (.success, confirmCall N (placeHead N s size)) := by
  rw [placeCall, h]

theorem placeCall_of_idle (error : ResultCode) (h : s.producer = .idle) : placeCall N error s = (error, s) := by
  rw [placeCall, h]

theorem refreshCall_of_refreshing (h : s.producer = .refreshing size) :
    refreshCall N s = placeCall N .errNotEnoughSpace (refreshReading N s size) := by
  rw [refreshCall, h]

theorem refreshCall_of_placing (h : s.producer = .placing size) :
    refreshCall N s = placeCall N .errAllocSizeInvalid s := by
  rw [refreshCall, h]

/-- A chunk of the given size is handed out, and nothing else has changed. -/
structure Handed (N : BlockCount) (size : ℕ) (s s' : State) : Prop where
  inv : ∃ start i j, Inv N start i j s'
  producer : ∃ handle, s'.producer = .holding size handle
  same : SameHistory s s'

theorem Handed.of_sameHistory {t : State} (hsame : SameHistory s t) (h : Handed N size t s') : Handed N size s s' :=
  ⟨h.inv, h.producer, hsame.trans h.same⟩

/-- The producer's own fields are no history. -/
theorem sameHistory_producer (s : State) (cursor : ℕ) (pr : Producer) :
    SameHistory s { s with wtReadingCursorCache := cursor, producer := pr } :=
  ⟨rfl, rfl, rfl, rfl, rfl⟩

theorem handed_of_placing (h : Inv N start i j s) (hp : s.producer = .placing size) :
    Handed N size s (confirmCall N (placeHead N s size)) := by
  have hplace := h.placeHead hp
  have hsame := sameHistory_placeHead N s size
  rcases placeHead_producer N s size with ⟨handle, hc⟩ | ⟨handle, hc⟩
  · rw [confirmCall_of_confirming hc]
    refine ⟨⟨_, _, _, hplace.confirmLowSpace hc⟩, ?_, hsame.trans (sameHistory_confirmLowSpace N _ size handle)⟩
    unfold confirmLowSpace
    exact ⟨_, rfl⟩
  · rw [confirmCall_of_holding hc]
    exact ⟨⟨_, _, _, hplace⟩, ⟨handle, hc⟩, hsame⟩

namespace Quiet

theorem wtWriting (h : Quiet N s) (hinv : Inv N start i j s) :
    s.wtWritingCursorCache = s.pos start s.committed.length % 2 ^ 32 := by
  have hok := hinv.producerOk
  rwa [h.producer] at hok

theorem held_eq_nil_iff (h : Quiet N s) : s.held = [] ↔ s.returned = s.committed.length := by
  obtain ⟨start, i, j, hinv⟩ := h.inv
  have hle := hinv.seen_length_le
  have hret := h.returned
  rw [State.held, List.map_eq_nil_iff, List.drop_eq_nil_iff]
  omega

/-- Every chunk that is held takes a block. -/
theorem length_held_le (h : Quiet N s) : s.held.length ≤ N.count := by
  obtain ⟨start, i, j, hinv⟩ := h.inv
  have hpos : ∀ k, s.returned ≤ k → k ≤ s.committed.length →
      s.pos start s.returned + (k - s.returned) ≤ s.pos start k := by
    intro k hk
    induction k, hk using Nat.le_induction with
    | base => intro _; omega
    | succ k hk ih =>
      intro hlen
      have hlt : s.pos start k < s.pos start (k + 1) := hinv.pos_lt_pos hk (Nat.lt_succ_self k) hlen
      have := ih (by omega)
      omega
  have hle : s.returned ≤ s.committed.length := h.returned ▸ hinv.seen_length_le
  have hlast := hpos _ hle le_rfl
  have hend := hinv.pos_length_le
  have hmono := s.pos_mono start hinv.i_le
  rw [State.held, List.length_map, List.length_drop]
  omega

/-- **The other sizes**: a chunk is handed out, or there is no room, and then something is held. -/
theorem allocCall (h : Quiet N s) (hsize : size < 2 ^ 32) (hv : ¬sizeInvalid N (s.writeIndex N) size) :
    (∃ s', allocCall N s size = (.success, s') ∧ Handed N size s s') ∨
      ∃ s', Siso.allocCall N s size = (.errNotEnoughSpace, s') ∧ Quiet N s' ∧ SameHistory s s' ∧ s.held ≠ [] := by
  obtain ⟨start, i, j, hinv⟩ := h.inv
  have hw := h.wtWriting hinv
  have halloc := hinv.allocWriteChunk hsize hw
  have hindex := hinv.index_wtWriting hw
  unfold Siso.allocCall
  by_cases hroom : s.freeBlocks N < chunkBlocks N (s.writeIndex N) size
  · -- The read cursor is loaded.
    have hs : allocWriteChunk N s size = { s with producer := .refreshing size } := by
      rw [allocWriteChunk, if_neg hv, if_pos hroom]
    rw [hs] at halloc ⊢
    rw [refreshCall_of_refreshing rfl]
    have hrefresh := halloc.refreshReading rfl
    by_cases hfree : ({ s with wtReadingCursorCache := s.readingCursor } : State).freeBlocks N <
        chunkBlocks N (s.writeIndex N) size
    · have hr : refreshReading N { s with producer := .refreshing size } size =
          { s with wtReadingCursorCache := s.readingCursor, producer := .idle } := if_pos hfree
      rw [hr] at hrefresh ⊢
      rw [placeCall_of_idle _ rfl]
      refine .inr ⟨_, rfl, ⟨⟨_, _, _, hrefresh⟩, rfl, h.consumer, h.returned⟩, sameHistory_producer s _ _, ?_⟩
      -- An empty ring has room.
      intro hnil
      have hlen := h.held_eq_nil_iff.1 hnil
      have hle := chunkBlocks_le (Nat.mod_lt (s.pos start s.committed.length) N.count_pos) (hindex ▸ hv)
      have hall := (hinv.reloadReading).freeBlocks_eq hw
      rw [hindex] at hfree
      simp only [State.pos, hlen] at hall hfree hle
      omega
    · have hr : refreshReading N { s with producer := .refreshing size } size =
          { s with wtReadingCursorCache := s.readingCursor, producer := .placing size } := if_neg hfree
      rw [hr] at hrefresh ⊢
      rw [placeCall_of_placing _ rfl]
      exact .inl ⟨_, rfl, .of_sameHistory (sameHistory_producer s _ _) (handed_of_placing hrefresh rfl)⟩
  · have hs : allocWriteChunk N s size = { s with producer := .placing size } := by
      rw [allocWriteChunk, if_neg hv, if_neg hroom]
    rw [hs] at halloc ⊢
    rw [refreshCall_of_placing rfl, placeCall_of_placing _ rfl]
    exact .inl ⟨_, rfl, .of_sameHistory (sameHistory_producer s _ _) (handed_of_placing halloc rfl)⟩

end Quiet

/-! ## Writing -/

theorem publishCall_of_publishing {c : Chunk} (h : s.producer = .publishing c) : publishCall s =
    { s with writingCursor := s.wtWritingCursorCache, producer := .idle, committed := s.committed ++ [c] } := by
  rw [publishCall, h]

/-- The blocks in the head of the chunk that the producer holds. -/
theorem Inv.load_blocks (h : Inv N start i j s) {handle : WriteHandle} (hp : s.producer = .holding size handle) :
    s.data.load (s.writeIndex N * 8) 4 = chunkBlocks N (s.writeIndex N) size := by
  have hok := h.producerOk
  rw [hp] at hok
  rw [h.index_wtWriting hok.1]
  exact hok.2.load_blocks

/-- A payload may be copied to the chunk that the producer holds. -/
theorem Inv.writePayload_list (h : Inv N start i j s) {handle : WriteHandle} (hp : s.producer = .holding size handle)
    (hlen : payload.length ≤ size) :
    Inv N start i j { s with data := s.data.write handle.dataAddr payload } := by
  induction payload using List.reverseRecOn with
  | nil => rwa [Mem.write_nil]
  | append_singleton bytes b ih =>
    rw [List.length_append, List.length_singleton] at hlen
    have hbyte := (ih (by omega)).writePayload b hp (show bytes.length < size by omega)
    rwa [Mem.poke_eq_write, Mem.write_append] at hbyte

/-- **A payload goes to the end** of those that are held, and the write cursor passes over its blocks. -/
theorem Handed.commitCall (h : Quiet N s) (hs : Handed N payload.length s s') :
    Quiet N (commitCall N s' payload) ∧ (commitCall N s' payload).held = s.held ++ [payload] ∧
      (commitCall N s' payload).wtWritingCursorCache =
        add32 s.wtWritingCursorCache (chunkBlocks N (s.writeIndex N) payload.length) := by
  obtain ⟨start, i, j, hinv⟩ := hs.inv
  obtain ⟨handle, hp⟩ := hs.producer
  obtain ⟨hcommitted, hseen, hreturned, hconsumer, hw⟩ := hs.same
  have hcopy := hinv.writePayload_list hp le_rfl
  have hblocks := hcopy.load_blocks hp
  have hcall : Siso.commitCall N s' payload = publishCall (commitWriteChunk N
      { s' with data := s'.data.write handle.dataAddr payload } payload.length handle) := by
    rw [Siso.commitCall, hp]
  rw [hcall, publishCall_of_publishing rfl]
  refine ⟨⟨⟨_, _, _, (hcopy.commitWriteChunk hp).publish rfl⟩, rfl, hconsumer.trans h.consumer, ?_⟩, ?_, ?_⟩
  · exact (hreturned.trans h.returned).trans (congrArg List.length hseen).symm
  · have hle : s.returned ≤ s.committed.length := by
      obtain ⟨_, _, _, hq⟩ := h.inv
      exact h.returned ▸ hq.seen_length_le
    have hheld : ∀ c : Chunk, c.payload = payload →
        ((s'.committed ++ [c]).drop s'.returned).map Chunk.payload = s.held ++ [payload] := by
      rintro c rfl
      rw [hcommitted, hreturned, List.drop_append_of_le_length hle, List.map_append]
      rfl
    exact hheld _ (Mem.slice_write s'.data handle.dataAddr payload)
  · have hcursor : add32 s'.wtWritingCursorCache ((s'.data.write handle.dataAddr payload).load (s'.writeIndex N * 8) 4) =
        add32 s.wtWritingCursorCache (chunkBlocks N (s.writeIndex N) payload.length) := by
      rw [hw, State.writeIndex, hw]
      rw [State.writeIndex, hw] at hblocks
      exact congrArg (add32 _) hblocks
    exact hcursor

/-! ## Reading -/

theorem loadCall_of_loading (h : s.consumer = .loading) : loadCall s = loadWriting s := by
  rw [loadCall, h]

theorem loadCall_of_fetching (h : s.consumer = .fetching) : loadCall s = s := by
  rw [loadCall, h]

theorem fetchCall_of_fetching (h : s.consumer = .fetching) : fetchCall N s = fetchChunk N s := by
  rw [fetchCall, h]

theorem fetchCall_of_idle (h : s.consumer = .idle) : fetchCall N s = s := by
  rw [fetchCall, h]

theorem readHandle_of_holding {handle : ReadHandle} (h : s.consumer = .holding handle) : s.readHandle = handle := by
  rw [State.readHandle, h]

theorem readHandle_of_idle (h : s.consumer = .idle) : s.readHandle = ⟨0, .errEmptyLogBuffer, 0⟩ := by
  rw [State.readHandle, h]

theorem returnCall_of_success {handle : ReadHandle} (h : handle.result = .success) : returnCall N s handle =
    let cursor := add32 s.rtReadingCursorCache (s.data.load (N.index s.rtReadingCursorCache * 8) 4)
    { s with rtReadingCursorCache := cursor, readingCursor := cursor, consumer := .idle, returned := s.seen.length } :=
  if_neg (not_not.2 h)

namespace Quiet

/-- Looking for a chunk: nothing is held and nothing has changed, or the head of the oldest one is read next. -/
theorem loadCall (h : Quiet N s) :
    (s.held = [] ∧ Quiet N (loadCall (readChunk s)) ∧ SameHistory s (Siso.loadCall (readChunk s))) ∨
      ∃ cursor, Siso.loadCall (readChunk s) = { s with rtWritingCursorCache := cursor, consumer := .fetching } ∧
        ∃ start i j, Inv N start i j { s with rtWritingCursorCache := cursor, consumer := .fetching } := by
  obtain ⟨start, i, j, hinv⟩ := h.inv
  have hread := hinv.readChunk h.consumer
  by_cases hcached : sub32 s.rtWritingCursorCache s.rtReadingCursorCache = 0
  · have hs : readChunk s = { s with consumer := .loading } := if_pos hcached
    rw [hs] at hread ⊢
    rw [loadCall_of_loading rfl]
    have hload := hread.loadWriting rfl
    by_cases hnew : sub32 s.writingCursor s.rtReadingCursorCache = 0
    · have ht : loadWriting { s with consumer := .loading } =
          { s with rtWritingCursorCache := s.writingCursor, consumer := .idle } := if_pos hnew
      rw [ht] at hload ⊢
      refine .inl ⟨h.held_eq_nil_iff.2 ?_, ⟨⟨_, _, _, hload⟩, h.producer, rfl, h.returned⟩,
        ⟨rfl, rfl, rfl, h.consumer.symm, rfl⟩⟩
      exact h.returned.trans (hload.cached_eq_iff.1 hnew)
    · have ht : loadWriting { s with consumer := .loading } =
          { s with rtWritingCursorCache := s.writingCursor, consumer := .fetching } := if_neg hnew
      rw [ht] at hload ⊢
      exact .inr ⟨s.writingCursor, rfl, _, _, _, hload⟩
  · have hs : readChunk s = { s with consumer := .fetching } := if_neg hcached
    rw [hs] at hread ⊢
    rw [loadCall_of_fetching rfl]
    exact .inr ⟨s.rtWritingCursorCache, rfl, _, _, _, hread⟩

/-- The chunk whose head is read next is the oldest one that is held. -/
theorem exists_fetch (h : Quiet N s) {cursor : ℕ}
    (hinv : Inv N start i j { s with rtWritingCursorCache := cursor, consumer := .fetching }) :
    ∃ c, s.committed[s.returned]? = some c ∧ s.chunkAt N s.rtReadingCursorCache = c ∧
      s.data.load (N.index s.rtReadingCursorCache * 8 + 4) 4 = c.payload.length ∧
      s.data.slice c.dataAddr c.payload.length = c.payload := by
  obtain ⟨hk, hst, hchunk⟩ := hinv.chunkAt_passed hinv.consumerOk
  have hrt : s.rtReadingCursorCache = _ := hinv.rtReading
  have hsize := hst.load_size
  rw [← N.index_mod, ← hrt] at hsize
  refine ⟨s.committed.get ⟨s.seen.length, hk⟩, ?_, hchunk, hsize, hst.payload⟩
  rw [h.returned]
  exact List.getElem?_eq_getElem hk

/-- Nothing is read from a ring that holds nothing. -/
theorem readCall_of_nil (h : Quiet N s) (he : s.held = []) :
    (readCall N s).1.result = .errEmptyLogBuffer ∧ Quiet N (readCall N s).2 ∧ SameHistory s (readCall N s).2 := by
  rcases h.loadCall with ⟨-, hquiet, hsame⟩ | ⟨cursor, -, _, _, _, hinv⟩
  · unfold readCall
    dsimp only
    rw [fetchCall_of_idle hquiet.consumer, readHandle_of_idle hquiet.consumer]
    exact ⟨rfl, hquiet, hsame⟩
  · obtain ⟨c, hc, -⟩ := h.exists_fetch hinv
    rw [h.held_eq_nil_iff.1 he, List.getElem?_eq_none le_rfl] at hc
    cases hc

/-- **A payload is read from the front** of those that are held; it is held no longer once it is returned. -/
theorem readCall_of_cons (h : Quiet N s) {rest : List (List UInt8)} (he : s.held = payload :: rest) :
    (readCall N s).1.result = .success ∧
      (readCall N s).2.data.slice (readCall N s).1.dataAddr (readCall N s).1.dataSize = payload ∧
      Quiet N (returnCall N (readCall N s).2 (readCall N s).1) ∧
      (returnCall N (readCall N s).2 (readCall N s).1).held = rest ∧
      (returnCall N (readCall N s).2 (readCall N s).1).wtWritingCursorCache = s.wtWritingCursorCache := by
  rcases h.loadCall with ⟨hnil, -⟩ | ⟨cursor, hload, start, i, j, hinv⟩
  · rw [hnil] at he
    cases he
  · obtain ⟨c, hc, hchunk, hsize, hpayload⟩ := h.exists_fetch hinv
    have hfetch := hinv.fetchChunk rfl
    have hreturn := hfetch.returnReadChunk rfl
    have hstore := hreturn.storeReading rfl
    have hdrop : s.committed.drop s.returned = c :: s.committed.drop (s.returned + 1) := by
      obtain ⟨hlt, rfl⟩ := List.getElem?_eq_some_iff.1 hc
      exact List.drop_eq_getElem_cons hlt
    rw [State.held, hdrop, List.map_cons, List.cons.injEq] at he
    obtain ⟨rfl, rfl⟩ := he
    have hcall : readCall N s = (⟨c.dataAddr, .success, c.payload.length⟩,
        fetchChunk N { s with rtWritingCursorCache := cursor, consumer := .fetching }) := by
      unfold readCall
      dsimp only
      rw [hload, fetchCall_of_fetching rfl, readHandle_of_holding rfl]
      show ((⟨(s.chunkAt N s.rtReadingCursorCache).dataAddr, .success,
        s.data.load (N.index s.rtReadingCursorCache * 8 + 4) 4⟩ : ReadHandle), _) = _
      rw [hchunk, hsize]
    have hlen : (s.seen ++ [s.chunkAt N s.rtReadingCursorCache]).length = s.returned + 1 := by
      rw [List.length_append, List.length_singleton, h.returned]
    rw [hcall, returnCall_of_success rfl]
    exact ⟨rfl, hpayload, ⟨⟨_, _, _, hstore⟩, h.producer, rfl, rfl⟩,
      congrArg (fun n => (s.committed.drop n).map Chunk.payload) hlen, rfl⟩

end Quiet

end QLog.Siso
