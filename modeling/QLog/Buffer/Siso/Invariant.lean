import QLog.Buffer.Siso.Placement

/-!
# The invariant of the single-producer ring

The committed chunks lie one after the other: `pos k` is the unbounded position of the `k`-th of
them, and every cursor of the ring is the residue of the position of some chunk. The invariant
`Inv N start i j` says which: the published read cursor stands before chunk `returned`, the
consumer's own cursor before chunk `passed`, its copy of the write cursor before chunk `j`, the
producer's copy of the read cursor before chunk `i`, with

  `i ≤ returned ≤ passed ≤ j ≤ committed.length`.

The producer's reservation ends at most a ring after chunk `i` (`Inv.space`), so nothing it writes
touches a chunk that has not been returned, and these stay `Stored`.
-/

namespace QLog.Siso

variable {N : BlockCount} {start i j : ℕ} {s : State}

/-- The unbounded position of the `k`-th committed chunk. -/
def State.pos (s : State) (start k : ℕ) : ℕ := start + offset (s.committed.map Chunk.blocks) k

/-- The chunks that the consumer's own cursor has passed: `read_chunk` leaves the cursor on the
chunk it hands out, `next` steps over it. -/
def State.passed (s : State) : ℕ :=
  match s.consumer with
  | .holding _ => s.seen.length - 1
  | _ => s.seen.length

/-- The blocks behind the committed chunks that the producer owns or is about to take. -/
def Producer.extent (N : BlockCount) (index : ℕ) : Producer → ℕ
  | .placing size => chunkBlocks N index size
  | .confirming size _ => chunkBlocks N index size
  | .holding size _ => chunkBlocks N index size
  | .publishing c => c.blocks
  | _ => 0

/-- The head of a chunk of `size` payload bytes is written at position `p`. -/
structure HeadWritten (N : BlockCount) (data : Mem) (p size : ℕ) (handle : WriteHandle) : Prop where
  size_lt : size < 2 ^ 32
  valid : ¬ sizeInvalid N (p % N.count) size
  load_blocks : data.load (p % N.count * 8) 4 = chunkBlocks N (p % N.count) size
  load_size : data.load (p % N.count * 8 + 4) 4 = size
  dataAddr : handle.dataAddr = payloadAddr N (p % N.count) size

/-- A written head only depends on the head's own bytes. -/
theorem HeadWritten.congr {data data' : Mem} {p size : ℕ} {handle : WriteHandle}
    (h : HeadWritten N data p size handle)
    (he : ∀ x, p % N.count * 8 ≤ x → x < p % N.count * 8 + 8 → data x = data' x) :
    HeadWritten N data' p size handle where
  size_lt := h.size_lt
  valid := h.valid
  load_blocks := by
    rw [← h.load_blocks]
    exact (Mem.load_congr fun x hx hx' => he x hx (by omega)).symm
  load_size := by
    conv_rhs => rw [← h.load_size]
    exact (Mem.load_congr fun x hx hx' => he x (by omega) (by omega)).symm
  dataAddr := h.dataAddr

/-- What holds of the producer when the committed chunks end at position `p`. -/
def ProducerOk (N : BlockCount) (data : Mem) (p wtWriting : ℕ) : Producer → Prop
  | .idle => wtWriting = p % 2 ^ 32
  | .refreshing size =>
    wtWriting = p % 2 ^ 32 ∧ size < 2 ^ 32 ∧ ¬ sizeInvalid N (p % N.count) size
  | .placing size => wtWriting = p % 2 ^ 32 ∧ size < 2 ^ 32 ∧ ¬ sizeInvalid N (p % N.count) size
  | .confirming size handle => wtWriting = p % 2 ^ 32 ∧ HeadWritten N data p size handle
  | .holding size handle => wtWriting = p % 2 ^ 32 ∧ HeadWritten N data p size handle
  | .publishing c => wtWriting = (p + c.blocks) % 2 ^ 32 ∧ Stored N data p c

/-- What holds of the consumer, the cached write cursor standing before chunk `j`. -/
def ConsumerOk (s : State) (j : ℕ) : Prop :=
  match s.consumer with
  | .fetching => s.passed < j
  | .holding handle => s.passed < j ∧ s.returned < s.seen.length ∧
      ∀ c ∈ s.seen.getLast?, handle.dataAddr = c.dataAddr ∧ handle.dataSize = c.payload.length
  | .batch b => b.currentCursor = s.rtReadingCursorCache ∧ b.endCursor = s.rtWritingCursorCache
  | _ => True

/-- The invariant, with the chunks the two cached cursors stand before. -/
structure Inv (N : BlockCount) (start i j : ℕ) (s : State) : Prop where
  seen_eq : s.seen = s.committed.take s.seen.length
  i_le : i ≤ s.returned
  returned_le : s.returned ≤ s.passed
  passed_le : s.passed ≤ j
  j_le : j ≤ s.committed.length
  reading : s.readingCursor = s.pos start s.returned % 2 ^ 32
  writing : s.writingCursor = s.pos start s.committed.length % 2 ^ 32
  rtReading : s.rtReadingCursorCache = s.pos start s.passed % 2 ^ 32
  rtWriting : s.rtWritingCursorCache = s.pos start j % 2 ^ 32
  wtReading : s.wtReadingCursorCache = s.pos start i % 2 ^ 32
  space : s.pos start s.committed.length +
    s.producer.extent N (s.pos start s.committed.length % N.count) ≤ s.pos start i + N.count
  stored : ∀ (k : ℕ) (hk : k < s.committed.length), s.returned ≤ k →
    Stored N s.data (s.pos start k) (s.committed.get ⟨k, hk⟩)
  producerOk : ProducerOk N s.data (s.pos start s.committed.length) s.wtWritingCursorCache
    s.producer
  consumerOk : ConsumerOk s j

/-! ## Positions -/

theorem State.pos_mono (s : State) (start : ℕ) {k l : ℕ} (h : k ≤ l) :
    s.pos start k ≤ s.pos start l :=
  Nat.add_le_add_left (offset_mono _ h) _

theorem State.pos_succ (s : State) (start : ℕ) {k : ℕ} (h : k < s.committed.length) :
    s.pos start (k + 1) = s.pos start k + (s.committed.get ⟨k, h⟩).blocks := by
  unfold State.pos
  rw [offset_succ (by simpa using h)]
  simp [Nat.add_assoc]

namespace Inv

theorem pos_length_le (h : Inv N start i j s) :
    s.pos start s.committed.length ≤ s.pos start i + N.count :=
  le_trans (Nat.le_add_right _ _) h.space

/-- Positions between the producer's copy of the read cursor and the end of the committed chunks
are less than `2 ^ 32` apart, so their cursors differ by their distance. -/
theorem sub32_pos (h : Inv N start i j s) {k l : ℕ} (hik : i ≤ k) (hkl : k ≤ l)
    (hl : l ≤ s.committed.length) :
    sub32 (s.pos start l % 2 ^ 32) (s.pos start k % 2 ^ 32) = s.pos start l - s.pos start k := by
  have h₁ := s.pos_mono start hik
  have h₂ := s.pos_mono start hkl
  have h₃ := s.pos_mono start hl
  have h₄ := h.pos_length_le
  have h₅ := N.count_lt
  exact sub32_mod h₂ (by omega)

/-- Chunks that have not been returned have a positive number of blocks, so their positions
differ. -/
theorem pos_lt_pos (h : Inv N start i j s) {k l : ℕ} (hk : s.returned ≤ k) (hkl : k < l)
    (hl : l ≤ s.committed.length) : s.pos start k < s.pos start l := by
  have hlt : k < s.committed.length := by omega
  have hpos := (h.stored k hlt hk).blocks_pos
  have hsucc := s.pos_succ start hlt
  have hmono := s.pos_mono start (show k + 1 ≤ l by omega)
  omega

theorem cached_eq_iff (h : Inv N start i j s) :
    sub32 s.rtWritingCursorCache s.rtReadingCursorCache = 0 ↔ s.passed = j := by
  have hi : i ≤ s.passed := h.i_le.trans h.returned_le
  rw [h.rtWriting, h.rtReading, h.sub32_pos hi h.passed_le h.j_le]
  constructor
  · intro h0
    by_contra hne
    have := h.pos_lt_pos h.returned_le (lt_of_le_of_ne h.passed_le hne) h.j_le
    omega
  · rintro rfl
    omega

theorem cursors_eq_iff (h : Inv N start i j s) :
    s.rtReadingCursorCache = s.rtWritingCursorCache ↔ s.passed = j := by
  rw [← h.cached_eq_iff]
  constructor
  · intro he
    rw [he]
    unfold sub32
    omega
  · intro h0
    have hl : s.rtWritingCursorCache < 2 ^ 32 := by
      rw [h.rtWriting]
      exact Nat.mod_lt _ (by norm_num)
    have hr : s.rtReadingCursorCache < 2 ^ 32 := by
      rw [h.rtReading]
      exact Nat.mod_lt _ (by norm_num)
    unfold sub32 at h0
    omega

theorem seen_length_le (h : Inv N start i j s) : s.seen.length ≤ s.committed.length := by
  have := congrArg List.length h.seen_eq
  rw [List.length_take] at this
  omega

theorem index_wtWriting (_h : Inv N start i j s)
    (hw : s.wtWritingCursorCache = s.pos start s.committed.length % 2 ^ 32) :
    s.writeIndex N = s.pos start s.committed.length % N.count := by
  rw [State.writeIndex, hw, N.index_mod]

/-- The free blocks computed from the cached cursors are those behind the committed chunks. -/
theorem freeBlocks_eq (h : Inv N start i j s)
    (hw : s.wtWritingCursorCache = s.pos start s.committed.length % 2 ^ 32) :
    s.freeBlocks N = s.pos start i + N.count - s.pos start s.committed.length := by
  have h₁ := s.pos_mono start (h.i_le.trans (h.returned_le.trans (h.passed_le.trans h.j_le)))
  have h₂ := h.pos_length_le
  have h₃ := N.count_lt
  rw [State.freeBlocks, hw, h.wtReading, add32_mod]
  exact sub32_mod h₂ (by omega)

end Inv

theorem inv_init (N : BlockCount) (start : ℕ) (data : Mem) :
    Inv N start 0 0 (State.init start data) where
  seen_eq := rfl
  i_le := le_rfl
  returned_le := le_rfl
  passed_le := le_rfl
  j_le := le_rfl
  reading := by simp [State.init, State.pos]
  writing := by simp [State.init, State.pos]
  rtReading := by simp [State.init, State.pos, State.passed]
  rtWriting := by simp [State.init, State.pos]
  wtReading := by simp [State.init, State.pos]
  space := by simp [State.init, State.pos, Producer.extent]
  stored := fun k hk => absurd hk (Nat.not_lt_zero k)
  producerOk := by simp [State.init, State.pos, ProducerOk]
  consumerOk := trivial

end QLog.Siso
