import QLog.Buffer.Siso.Fifo

/-!
# Recovery of the single-producer ring

A model of `try_recover_from_exist_memory_map`: the mapped bytes hold a head with the block count and
the cursors, and the data area behind it. The scan walks the chunks from the saved read cursor to the
saved write cursor and checks every head.

* `Chain N data p C`: the chunks `C` lie one after the other in the data area, from position `p` on.
  The scan accepts exactly the chains that end at the saved write cursor (`scan_chain`, `chain_of_scan`),
  and it always comes to an end (`exists_scan`).
* `inv_recovered`: the ring set up from a chain satisfies the invariant.
* `Lives`: the states reached over any number of crashes and openings.
-/

namespace QLog.Siso

variable {N : BlockCount} {data : Mem} {start i j p : ℕ} {s s' : State} {C : List Chunk}

/-! ## The mapped bytes -/

/-- `CACHE_LINE_SIZE`. -/
def cacheLineSize : ℕ := 128

/-- `sizeof(head)`. -/
def headSize : ℕ := 4 * cacheLineSize

/-- The loop that doubles the block count while it fits twice; a `size_t` allows 64 rounds. -/
def doubleCount (maxBlocks : ℕ) : ℕ → ℕ → ℕ
  | 0, count => count
  | fuel + 1, count => if count ≤ maxBlocks / 2 then doubleCount maxBlocks fuel (count * 2) else count

/-- The block count of a ring in a buffer of the given size. -/
def blockCountOf (bufferSize : ℕ) : ℕ := doubleCount ((bufferSize - headSize) / 8) 64 1

/-- The mapped bytes of a ring: the fields of the head, over whatever lies between them, and the data
area. -/
def State.image (N : BlockCount) (s : State) (rest : Mem) : Mem :=
  let area : Mem := fun x => if headSize ≤ x then s.data (x - headSize) else rest x
  ((((((area.store 0 4 N.count).store 4 4 s.rtReadingCursorCache).store 8 4
    s.rtWritingCursorCache).store cacheLineSize 4 s.wtReadingCursorCache).store (cacheLineSize + 4) 4
    s.wtWritingCursorCache).store (2 * cacheLineSize) 4 s.readingCursor).store (3 * cacheLineSize) 4
    s.writingCursor

/-! ## The scan -/

/-- The chunk at a cursor, as it lies in the data area. -/
def chunkIn (N : BlockCount) (data : Mem) (cursor : ℕ) : Chunk := (State.init 0 data).chunkAt N cursor

/-- The cursor of the scan, the blocks ahead of it and the chunks passed. -/
structure ScanState where
  cursor : ℕ
  remaining : ℕ
  chunks : List Chunk

/-- The outcome of the scan. -/
inductive Scan
  | running (st : ScanState)
  | accepted (chunks : List Chunk)
  | rejected

/-- One round of the loop, and what follows the loop. -/
def scanRound (N : BlockCount) (data : Mem) (savedWrite : ℕ) (st : ScanState) : Scan :=
  if st.remaining = 0 then
    if st.cursor = savedWrite then .accepted st.chunks else .rejected
  else
    let index := N.index st.cursor
    let blocks := data.load (index * 8) 4
    let size := data.load (index * 8 + 4) 4
    if blocks = 0 ∨ st.remaining < blocks then .rejected
    else if N.count < normalBlocks size ∨
        (tail N index < normalBlocks size ∧ N.count < normalBlocks size + tail N index - 1) then
      .rejected
    else if chunkBlocks N index size ≠ blocks then .rejected
    else .running ⟨add32 st.cursor blocks, st.remaining - blocks,
      st.chunks ++ [chunkIn N data st.cursor]⟩

/-- At most `fuel` rounds. -/
def scan (N : BlockCount) (data : Mem) (savedWrite : ℕ) : ℕ → ScanState → Scan
  | 0, st => .running st
  | fuel + 1, st =>
    match scanRound N data savedWrite st with
    | .running st' => scan N data savedWrite fuel st'
    | r => r

/-- The ring after an accepted scan. -/
def recovered (data : Mem) (savedRead savedWrite : ℕ) (chunks : List Chunk) : State where
  rtReadingCursorCache := savedRead
  rtWritingCursorCache := savedWrite
  wtReadingCursorCache := savedRead
  wtWritingCursorCache := savedWrite
  readingCursor := savedRead
  writingCursor := savedWrite
  data := data
  producer := .idle
  consumer := .idle
  committed := chunks
  seen := []
  returned := 0

/-- The saved cursors and the data area of the mapped bytes. -/
def savedRead (storage : Mem) : ℕ := storage.load 4 4

def savedWrite (storage : Mem) : ℕ := storage.load (cacheLineSize + 4) 4

def dataArea (storage : Mem) : Mem := fun x => storage (headSize + x)

/-- `try_recover_from_exist_memory_map` for at most `fuel` rounds of the scan: `none` while it runs,
`some none` when it returns false, `some (some s)` when it returns true and leaves the ring `s`. The
block count `N` is the one that the code computes from the size of the buffer. -/
def tryRecover (N : BlockCount) (storage : Mem) (fuel : ℕ) : Option (Option State) :=
  if storage.load 0 4 ≠ N.count then some none
  else
    let remaining := sub32 (savedWrite storage) (savedRead storage)
    if N.count < remaining then some none
    else
      match scan N (dataArea storage) (savedWrite storage) fuel
        ⟨savedRead storage, remaining, []⟩ with
      | .running _ => none
      | .accepted chunks =>
        some (some (recovered (dataArea storage) (savedRead storage) (savedWrite storage) chunks))
      | .rejected => some none

/-! ## Chains -/

/-- The chunks lie one after the other from position `p` on. -/
def Chain (N : BlockCount) (data : Mem) : ℕ → List Chunk → Prop
  | _, [] => True
  | p, c :: C => Stored N data p c ∧ Chain N data (p + c.blocks) C

/-- The number of blocks of a chain. -/
def chainBlocks (C : List Chunk) : ℕ := (C.map Chunk.blocks).sum

@[simp] theorem chainBlocks_nil : chainBlocks [] = 0 := rfl

@[simp] theorem chainBlocks_cons (c : Chunk) (C : List Chunk) :
    chainBlocks (c :: C) = c.blocks + chainBlocks C := rfl

theorem chainBlocks_append (C D : List Chunk) :
    chainBlocks (C ++ D) = chainBlocks C + chainBlocks D := by
  rw [chainBlocks, List.map_append, List.sum_append]
  rfl

theorem chain_append {D : List Chunk} :
    Chain N data p (C ++ D) ↔ Chain N data p C ∧ Chain N data (p + chainBlocks C) D := by
  induction C generalizing p with
  | nil => simp [Chain]
  | cons c C ih =>
    simp only [List.cons_append, Chain, ih, chainBlocks_cons, Nat.add_assoc, and_assoc]

theorem Chain.get (h : Chain N data p C) (k : ℕ) (hk : k < C.length) :
    Stored N data (p + offset (C.map Chunk.blocks) k) (C.get ⟨k, hk⟩) := by
  induction C generalizing p k with
  | nil => exact absurd hk (Nat.not_lt_zero k)
  | cons c C ih =>
    cases k with
    | zero => simpa using h.1
    | succ k =>
      have := ih h.2 k (by simpa using hk)
      simpa [offset, Nat.add_assoc] using this

/-! ## The scan on chains -/

theorem Stored.chunkIn_eq {c : Chunk} (h : Stored N data p c) : chunkIn N data (p % 2 ^ 32) = c :=
  Stored.chunkAt_eq (s := State.init 0 data) h

/-- A round at a stored chunk steps over it. -/
theorem scanRound_stored {w remaining : ℕ} {A : List Chunk} {c : Chunk} (h : Stored N data p c)
    (hle : c.blocks ≤ remaining) : scanRound N data w ⟨p % 2 ^ 32, remaining, A⟩ =
      .running ⟨(p + c.blocks) % 2 ^ 32, remaining - c.blocks, A ++ [c]⟩ := by
  have hpos := h.blocks_pos
  have hv := h.valid
  rw [sizeInvalid] at hv
  push Not at hv
  have hb := h.blocks
  unfold scanRound
  simp only [N.index_mod, h.load_blocks, h.load_size, h.chunkIn_eq, add32_mod]
  rw [if_neg (by omega), if_neg (by omega), if_neg (by omega), if_neg (by omega)]

/-- The scan accepts a chain that ends at the saved write cursor. -/
theorem scan_chain {w remaining fuel : ℕ} {A : List Chunk} (h : Chain N data p C)
    (hsum : chainBlocks C = remaining) (hw : (p + remaining) % 2 ^ 32 = w)
    (hfuel : C.length < fuel) :
    scan N data w fuel ⟨p % 2 ^ 32, remaining, A⟩ = .accepted (A ++ C) := by
  induction C generalizing p remaining A fuel with
  | nil =>
    obtain ⟨fuel, rfl⟩ : ∃ f, fuel = f + 1 := ⟨fuel - 1, by simp at hfuel; omega⟩
    obtain rfl : remaining = 0 := hsum.symm
    rw [Nat.add_zero] at hw
    rw [scan, scanRound, if_pos rfl, if_pos hw, List.append_nil]
  | cons c C ih =>
    obtain ⟨fuel, rfl⟩ : ∃ f, fuel = f + 1 := ⟨fuel - 1, by simp at hfuel; omega⟩
    obtain ⟨hc, hC⟩ := h
    rw [chainBlocks_cons] at hsum
    rw [scan, scanRound_stored hc (by omega)]
    simp only
    rw [ih hC (by omega) (by rw [← hw]; congr 1; omega) (by simpa using hfuel), List.append_assoc]
    rfl

/-- What a round that goes on has seen is a stored chunk. -/
theorem stored_of_scanRound {w remaining : ℕ} {A : List Chunk} {st : ScanState}
    (h : scanRound N data w ⟨p % 2 ^ 32, remaining, A⟩ = .running st) :
    ∃ c, Stored N data p c ∧ c.blocks ≤ remaining ∧
      st = ⟨(p + c.blocks) % 2 ^ 32, remaining - c.blocks, A ++ [c]⟩ := by
  unfold scanRound at h
  simp only [N.index_mod] at h
  split at h
  · split at h <;> cases h
  · split at h
    · cases h
    · rename_i hblocks
      split at h
      · cases h
      · rename_i hsize
        split at h
        · cases h
        · rename_i hcount
          push Not at hblocks hcount
          have haddr : getBlockDataAddr N data (p % N.count) =
              payloadAddr N (p % N.count) (data.load (p % N.count * 8 + 4) 4) := getBlockDataAddr_eq rfl
          have hc : Stored N data p (chunkIn N data (p % 2 ^ 32)) := by
            refine ⟨rfl, ?_, ?_, ?_, ?_, ?_, ?_⟩
            · simp only [chunkIn, State.chunkAt, N.index_mod, Mem.length_slice, State.init]
              unfold sizeInvalid
              have : normalBlocks (data.load (p % N.count * 8 + 4) 4) ≠ 0 := by
                rw [normalBlocks_eq]
                omega
              tauto
            · simp only [chunkIn, State.chunkAt, N.index_mod, Mem.length_slice, State.init]
              exact hcount.symm
            · simp only [chunkIn, State.chunkAt, N.index_mod, Mem.length_slice, State.init]
              exact haddr
            · simp only [chunkIn, State.chunkAt, N.index_mod, State.init]
            · simp only [chunkIn, State.chunkAt, N.index_mod, Mem.length_slice, State.init]
            · simp only [chunkIn, State.chunkAt, N.index_mod, Mem.length_slice, State.init]
          refine ⟨_, hc, ?_, ?_⟩
          · rw [← hc.load_blocks]
            omega
          · cases h
            rw [← hc.load_blocks, add32_mod]

/-- A chain that the scan has accepted ends at the saved write cursor. -/
theorem chain_of_scan {w remaining fuel : ℕ} {A L : List Chunk} (hr : remaining < 2 ^ 32)
    (h : scan N data w fuel ⟨p % 2 ^ 32, remaining, A⟩ = .accepted L) :
    ∃ C, L = A ++ C ∧ Chain N data p C ∧ chainBlocks C = remaining ∧
      w = (p + remaining) % 2 ^ 32 := by
  induction fuel generalizing p remaining A with
  | zero => cases h
  | succ fuel ih =>
    rw [scan] at h
    cases hround : scanRound N data w ⟨p % 2 ^ 32, remaining, A⟩ with
    | rejected =>
      rw [hround] at h
      cases h
    | accepted L' =>
      rw [hround] at h
      obtain rfl : L' = L := by simpa using h
      unfold scanRound at hround
      simp only at hround
      split at hround
      · rename_i hzero
        split at hround
        · rename_i hw
          cases hround
          exact ⟨[], by simp, trivial, hzero.symm, by rw [hzero]; exact hw.symm⟩
        · cases hround
      · split at hround
        · cases hround
        · split at hround
          · cases hround
          · split at hround <;> cases hround
    | running st =>
      rw [hround] at h
      obtain ⟨c, hc, hle, rfl⟩ := stored_of_scanRound hround
      obtain ⟨C, rfl, hC, hsum, hw⟩ := ih (by omega) h
      refine ⟨c :: C, by simp, ⟨hc, hC⟩, ?_, ?_⟩
      · rw [chainBlocks_cons]
        omega
      · rw [hw]
        congr 1
        omega

/-- **The scan comes to an end on every image**: each round takes at least one of the blocks that
remain. -/
theorem exists_scan (data : Mem) (w : ℕ) (st : ScanState) (hcursor : st.cursor < 2 ^ 32) :
    ∃ fuel, ∀ st', scan N data w fuel st ≠ .running st' := by
  induction hn : st.remaining using Nat.strong_induction_on generalizing st with
  | _ n ih =>
    cases hround : scanRound N data w st with
    | rejected => exact ⟨1, fun st' h => by simp [scan, hround] at h⟩
    | accepted L => exact ⟨1, fun st' h => by simp [scan, hround] at h⟩
    | running st' =>
      obtain ⟨cursor, remaining, chunks⟩ := st
      have hmod : cursor = cursor % 2 ^ 32 := (Nat.mod_eq_of_lt hcursor).symm
      rw [hmod] at hround
      obtain ⟨c, hc, hle, rfl⟩ := stored_of_scanRound hround
      have hpos := hc.blocks_pos
      simp only at hn
      obtain ⟨fuel, hfuel⟩ := ih (remaining - c.blocks) (by omega)
        ⟨(cursor + c.blocks) % 2 ^ 32, remaining - c.blocks, chunks ++ [c]⟩
        (Nat.mod_lt _ (by norm_num)) rfl
      refine ⟨fuel + 1, fun st' h => hfuel st' ?_⟩
      rw [hmod, scan, hround] at h
      exact h

/-! ## The recovered ring -/

/-- The ring set up from a chain satisfies the invariant. -/
theorem inv_recovered (h : Chain N data p C) (hle : chainBlocks C ≤ N.count) :
    Inv N p 0 C.length
      (recovered data (p % 2 ^ 32) ((p + chainBlocks C) % 2 ^ 32) C) := by
  have hlen : (recovered data (p % 2 ^ 32) ((p + chainBlocks C) % 2 ^ 32) C).pos p C.length =
      p + chainBlocks C := by
    rw [State.pos, chainBlocks, ← offset_length, List.length_map]
    rfl
  refine ⟨rfl, le_rfl, le_rfl, Nat.zero_le _, le_rfl, ?_, ?_, ?_, ?_, ?_, ?_, ?_, ?_, trivial⟩
  · simp [recovered, State.pos]
  · exact congrArg (· % 2 ^ 32) hlen.symm
  · simp [recovered, State.pos, State.passed]
  · exact congrArg (· % 2 ^ 32) hlen.symm
  · simp [recovered, State.pos]
  · change State.pos _ p C.length + 0 ≤ State.pos _ p 0 + N.count
    rw [hlen, State.pos, offset_zero]
    omega
  · exact fun k hk _ => h.get k hk
  · exact congrArg (· % 2 ^ 32) hlen.symm

/-- The chunks between the two persisted cursors: those that the consumer's own cursor has not passed,
and the one about to be published. -/
def State.unread (s : State) : List Chunk :=
  s.committed.drop s.passed ++ (match s.producer with
    | .publishing c => [c]
    | _ => [])

namespace Inv

theorem chain_drop (h : Inv N start i j s) {k : ℕ} (hr : s.returned ≤ k) (hk : k ≤ s.committed.length) :
    Chain N s.data (s.pos start k) (s.committed.drop k) ∧
      s.pos start k + chainBlocks (s.committed.drop k) = s.pos start s.committed.length := by
  induction hk using Nat.decreasingInduction with
  | self => simp [Chain]
  | of_succ k hlt ih =>
    have hst := h.stored k hlt hr
    obtain ⟨hchain, hsum⟩ := ih (by omega)
    rw [List.drop_eq_getElem_cons hlt]
    rw [s.pos_succ start hlt] at hchain hsum
    refine ⟨⟨hst, hchain⟩, ?_⟩
    rw [chainBlocks_cons, ← hsum, Nat.add_assoc]
    rfl

/-- What is not read lies between the persisted cursors. -/
theorem unread_chain (h : Inv N start i j s) :
    Chain N s.data (s.pos start s.passed) s.unread ∧ chainBlocks s.unread ≤ N.count ∧
      s.wtWritingCursorCache = (s.pos start s.passed + chainBlocks s.unread) % 2 ^ 32 := by
  have hle := h.passed_le.trans h.j_le
  obtain ⟨hchain, hsum⟩ := h.chain_drop h.returned_le hle
  have hi := s.pos_mono start (h.i_le.trans h.returned_le)
  have hspace := h.space
  have hok := h.producerOk
  unfold State.unread
  cases hp : s.producer with
  | publishing c =>
    rw [hp] at hspace hok
    simp only [Producer.extent] at hspace
    rw [chain_append, chainBlocks_append, hsum]
    refine ⟨⟨hchain, hok.2, trivial⟩, ?_, ?_⟩
    · rw [chainBlocks_cons, chainBlocks_nil]
      omega
    · rw [hok.1, chainBlocks_cons, chainBlocks_nil, ← Nat.add_assoc, hsum]
      rfl
  | idle | refreshing | placing | confirming | holding =>
    have hw : s.wtWritingCursorCache = s.pos start s.committed.length % 2 ^ 32 := by
      rw [hp] at hok
      first
        | exact hok
        | exact hok.1
    have hlen := h.pos_length_le
    simp only [List.append_nil]
    exact ⟨hchain, by omega, by rw [hsum, hw]⟩

end Inv

/-! ## Reading alone -/

/-- The actions of the consumer. -/
def Act.isConsumer : Act → Bool
  | readChunk | load | fetch | returnReadChunk | storeReading | discardReadChunk | batchRead | batchLoad | next
  | returnBatchReadChunks => true
  | _ => false

/-- Runs in which only the consumer moves. -/
def ConsumerRuns (N : BlockCount) : State → State → Prop := Runs (step N) fun _ a => a.isConsumer

theorem ConsumerRuns.refl (s : State) : ConsumerRuns N s s := Runs.refl s

theorem ConsumerRuns.tail {u v : State} {a : Act} (h : ConsumerRuns N s u) (ha : a.isConsumer = true)
    (hs : step N u a = some v) : ConsumerRuns N s v :=
  Runs.tail h ha hs

/-- Reading alone delivers exactly the chunks `C`: a prefix of them at any time, all of them when the
published write cursor is reached and the ring reported empty, and this point can be reached. -/
def ReadsExactly (N : BlockCount) (s : State) (C : List Chunk) : Prop :=
  (∀ u, ConsumerRuns N s u → u.seen <+: C ∧ (u.rtReadingCursorCache = u.writingCursor → u.seen = C)) ∧
    ∃ u, ConsumerRuns N s u ∧ u.seen = C

theorem committed_of_isConsumer {a : Act} (h : a.isConsumer) (hs : step N s a = some s') :
    s'.committed = s.committed := by
  cases a with
  | alloc | refresh | place | confirm | write | commit | publish => cases h
  | readChunk =>
    simp only [step] at hs
    split at hs
    · obtain rfl := Option.some.inj hs
      unfold readChunk
      split <;> rfl
    · cases hs
  | load =>
    simp only [step] at hs
    split at hs
    · obtain rfl := Option.some.inj hs
      simp only [loadWriting]
      split <;> rfl
    · cases hs
  | fetch | returnReadChunk | storeReading | discardReadChunk | returnBatchReadChunks =>
    simp only [step] at hs
    split at hs
    · obtain rfl := Option.some.inj hs
      rfl
    · cases hs
  | batchRead =>
    simp only [step] at hs
    split at hs
    · obtain rfl := Option.some.inj hs
      unfold batchRead openBatch
      split
      · rfl
      · split <;> rfl
    · cases hs
  | batchLoad =>
    simp only [step] at hs
    split at hs
    · obtain rfl := Option.some.inj hs
      unfold openBatch
      split <;> rfl
    · cases hs
  | next =>
    simp only [step] at hs
    split at hs
    · split at hs
      · cases hs
      · obtain rfl := Option.some.inj hs
        rfl
    · cases hs

/-- `read_chunk` and `return_read_chunk` of one chunk. -/
theorem exists_read_one (h : ∃ i j, Inv N start i j s) (hc : s.consumer = .idle)
    (hlt : s.seen.length < s.committed.length) :
    ∃ u, ConsumerRuns N s u ∧ u.consumer = .idle ∧ u.seen.length = s.seen.length + 1 := by
  obtain ⟨i, j, h⟩ := h
  -- up to the point at which a chunk is known to be there
  obtain ⟨v, hv, hf, hseen⟩ : ∃ v, ConsumerRuns N s v ∧ v.consumer = .fetching ∧ v.seen = s.seen := by
    have h1 : step N s .readChunk = some (readChunk s) := by simp [step, hc]
    have hinv1 := h.readChunk hc
    by_cases hz : sub32 s.rtWritingCursorCache s.rtReadingCursorCache = 0
    · have hload : readChunk s = { s with consumer := .loading } := if_pos hz
      rw [hload] at h1 hinv1
      have h2 : step N { s with consumer := .loading } .load =
          some (loadWriting { s with consumer := .loading }) := rfl
      have hp : s.passed = s.seen.length := Inv.passed_of_not_holding s (by simp [hc])
      have hne : sub32 s.writingCursor s.rtReadingCursorCache ≠ 0 := by
        have hsub := h.sub32_pos (h.i_le.trans h.returned_le) (h.passed_le.trans h.j_le) le_rfl
        have hpos := h.pos_lt_pos h.returned_le (by omega : s.passed < s.committed.length) le_rfl
        rw [h.writing, h.rtReading, hsub]
        omega
      refine ⟨_, ((ConsumerRuns.refl s).tail rfl h1).tail rfl h2, ?_, ?_⟩
      · simp only [loadWriting]
        rw [if_neg hne]
      · simp only [loadWriting]
        rw [if_neg hne]
    · refine ⟨_, (ConsumerRuns.refl s).tail rfl h1, ?_, ?_⟩
      · rw [readChunk, if_neg hz]
      · rw [readChunk, if_neg hz]
  have h3 : step N v .fetch = some (fetchChunk N v) := by simp [step, hf]
  refine ⟨_, ((ConsumerRuns.tail hv rfl h3).tail (a := .returnReadChunk) rfl rfl).tail
    (a := .storeReading) rfl rfl,
    rfl, ?_⟩
  simp [fetchChunk, hseen]

theorem inv_of_consumerRuns {u : State} (h : ∃ i j, Inv N start i j s) (hu : ConsumerRuns N s u) :
    (∃ i j, Inv N start i j u) ∧ u.committed = s.committed := by
  refine Runs.invariant (I := fun v => (∃ i j, Inv N start i j v) ∧ v.committed = s.committed) hu
    ⟨h, rfl⟩ fun v w a hv ha hs => ⟨inv_step hv.1 hs, ?_⟩
  rw [committed_of_isConsumer ha hs, hv.2]

theorem exists_read_all (h : ∃ i j, Inv N start i j s) (hc : s.consumer = .idle) :
    ∃ u, ConsumerRuns N s u ∧ u.seen = s.committed := by
  have hle : s.seen.length ≤ s.committed.length := by
    obtain ⟨i, j, h⟩ := h
    exact h.seen_length_le
  induction hn : s.committed.length - s.seen.length generalizing s with
  | zero =>
    obtain ⟨i, j, h⟩ := h
    refine ⟨s, Runs.refl s, ?_⟩
    rw [h.seen_eq, List.take_of_length_le (by omega)]
  | succ n ih =>
    obtain ⟨v, hv, hidle, hlen⟩ := exists_read_one h hc (by omega)
    obtain ⟨hinv, hcom⟩ := inv_of_consumerRuns h hv
    obtain ⟨u, hu, hseen⟩ := ih hinv hidle (by rw [hcom, hlen]; omega) (by rw [hcom, hlen]; omega)
    exact ⟨u, hv.trans hu, hseen.trans hcom⟩

theorem readsExactly_of_inv (h : ∃ i j, Inv N start i j s) (hc : s.consumer = .idle) :
    ReadsExactly N s s.committed := by
  refine ⟨fun u hu => ?_, exists_read_all h hc⟩
  obtain ⟨⟨i, j, hinv⟩, hcom⟩ := inv_of_consumerRuns h hu
  rw [← hcom]
  exact ⟨hinv.seen_prefix, hinv.seen_eq_committed⟩

/-! ## Images of reachable states -/

theorem load_image (N : BlockCount) (s : State) (rest : Mem) (hr : s.rtReadingCursorCache < 2 ^ 32)
    (hw : s.wtWritingCursorCache < 2 ^ 32) :
    (s.image N rest).load 0 4 = N.count ∧ savedRead (s.image N rest) = s.rtReadingCursorCache ∧
      savedWrite (s.image N rest) = s.wtWritingCursorCache ∧ dataArea (s.image N rest) = s.data := by
  have hN := N.count_lt
  refine ⟨?_, ?_, ?_, ?_⟩
  · unfold State.image cacheLineSize
    rw [Mem.load_store_of_disjoint, Mem.load_store_of_disjoint, Mem.load_store_of_disjoint,
      Mem.load_store_of_disjoint, Mem.load_store_of_disjoint, Mem.load_store_of_disjoint,
      Mem.load_store]
    all_goals omega
  · unfold savedRead State.image cacheLineSize
    rw [Mem.load_store_of_disjoint, Mem.load_store_of_disjoint, Mem.load_store_of_disjoint,
      Mem.load_store_of_disjoint, Mem.load_store_of_disjoint, Mem.load_store]
    all_goals omega
  · unfold savedWrite State.image cacheLineSize
    rw [Mem.load_store_of_disjoint, Mem.load_store_of_disjoint, Mem.load_store]
    all_goals omega
  · funext x
    unfold dataArea State.image headSize cacheLineSize
    rw [Mem.store_apply_of_le, Mem.store_apply_of_le, Mem.store_apply_of_le, Mem.store_apply_of_le,
      Mem.store_apply_of_le, Mem.store_apply_of_le, Mem.store_apply_of_le, if_pos, Nat.add_sub_cancel_left]
    all_goals omega

/-- The states of a ring of `N` blocks over any number of lives: it is constructed or renewed over any
bytes, the two threads take steps, and after a crash it is recovered from the mapped bytes. -/
inductive Lives (N : BlockCount) : State → Prop
  | init (start : ℕ) (data : Mem) : Lives N (State.init start data)
  | step {s s' : State} {a : Act} : Lives N s → step N s a = some s' → Lives N s'
  | reopen {s s' : State} {rest : Mem} {fuel : ℕ} :
      Lives N s → tryRecover N (s.image N rest) fuel = some (some s') → Lives N s'

/-- The image of a state that satisfies the invariant is accepted. -/
theorem Inv.tryRecover_image (h : Inv N start i j s) (rest : Mem) {fuel : ℕ}
    (hfuel : s.unread.length < fuel) : tryRecover N (s.image N rest) fuel =
      some (some (recovered s.data (s.pos start s.passed % 2 ^ 32)
        ((s.pos start s.passed + chainBlocks s.unread) % 2 ^ 32) s.unread)) := by
  obtain ⟨hchain, hle, hw⟩ := h.unread_chain
  have hlt : ∀ x, x % 2 ^ 32 < 2 ^ 32 := fun x => Nat.mod_lt _ (by norm_num)
  obtain ⟨h0, h1, h2, h3⟩ := load_image N s rest (by rw [h.rtReading]; exact hlt _)
    (by rw [hw]; exact hlt _)
  have hN := N.count_lt
  have hsub : sub32 s.wtWritingCursorCache s.rtReadingCursorCache = chainBlocks s.unread := by
    rw [hw, h.rtReading, sub32_mod (by omega) (by omega)]
    omega
  unfold tryRecover
  rw [if_neg (by rw [h0]; exact fun hne => hne rfl)]
  simp only [h1, h2, h3]
  rw [hsub, if_neg (by omega), h.rtReading, hw, scan_chain hchain rfl rfl hfuel]
  rfl

/-- An accepted image gives a ring that satisfies the invariant. -/
theorem exists_inv_of_tryRecover {storage : Mem} {fuel : ℕ}
    (h : tryRecover N storage fuel = some (some s')) :
    ∃ C, Chain N (dataArea storage) (savedRead storage) C ∧ chainBlocks C ≤ N.count ∧
      savedWrite storage = (savedRead storage + chainBlocks C) % 2 ^ 32 ∧
      s' = recovered (dataArea storage) (savedRead storage % 2 ^ 32)
        ((savedRead storage + chainBlocks C) % 2 ^ 32) C := by
  have hmod : savedRead storage = savedRead storage % 2 ^ 32 :=
    (Nat.mod_eq_of_lt (Mem.load_lt storage 4 4)).symm
  unfold tryRecover at h
  split at h
  · cases h
  · simp only at h
    split at h
    · cases h
    · rename_i hle
      split at h
      · cases h
      · rename_i chunks hscan
        rw [hmod] at hscan
        obtain ⟨C, hL, hC, hsum, hw⟩ := chain_of_scan (sub32_lt _ _) hscan
        obtain rfl := Option.some.inj (Option.some.inj h)
        rw [← hmod] at hsum hw
        rw [← hsum] at hw
        refine ⟨C, hC, by omega, hw, ?_⟩
        rw [hL, List.nil_append, ← hmod, ← hw]
      · cases h

theorem Lives.inv (h : Lives N s) : ∃ start i j, Inv N start i j s := by
  induction h with
  | init start data => exact ⟨start, 0, 0, inv_init N start data⟩
  | step _ hs ih =>
    obtain ⟨start, hinv⟩ := ih
    exact ⟨start, inv_step hinv hs⟩
  | reopen _ hr _ =>
    obtain ⟨C, hC, hle, -, rfl⟩ := exists_inv_of_tryRecover hr
    exact ⟨_, 0, _, inv_recovered hC hle⟩

/-! ## Recovery -/

/-- The chunks follow one another from one cursor to the other. -/
def Spans : ℕ → ℕ → List Chunk → Prop
  | a, b, [] => a = b
  | a, b, c :: C => c.cursor = a ∧ Spans (add32 a c.blocks) b C

theorem Chain.spans (h : Chain N data p C) :
    Spans (p % 2 ^ 32) ((p + chainBlocks C) % 2 ^ 32) C := by
  induction C generalizing p with
  | nil => simp [Spans]
  | cons c C ih =>
    refine ⟨h.1.cursor, ?_⟩
    rw [add32_mod, chainBlocks_cons, ← Nat.add_assoc]
    exact ih h.2

/-- **Recovery of the single-producer ring.** The image of every state of every life is accepted, and
what is then read are the chunks between the two persisted cursors; on every image the scan ends, and
if it accepts, the chunks from the read cursor on end at the write cursor and their payloads lie in the
data area. -/
theorem siso_recovery (N : BlockCount) (bufferSize : ℕ) (hN : blockCountOf bufferSize = N.count) :
    (∀ s, Lives N s → ∀ rest, ∃ fuel s', tryRecover N (s.image N rest) fuel = some (some s') ∧
      (s.image N rest).load 0 4 = blockCountOf bufferSize ∧
      Spans s.rtReadingCursorCache s.wtWritingCursorCache s.unread ∧
      ReadsExactly N s' s.unread) ∧
    ∀ storage : Mem, (∃ fuel r, tryRecover N storage fuel = some r) ∧
      ∀ fuel s', tryRecover N storage fuel = some (some s') →
        Spans (savedRead storage) (savedWrite storage) s'.committed ∧
        ∀ c ∈ s'.committed, c = chunkIn N (dataArea storage) c.cursor ∧
          c.dataAddr + c.payload.length ≤ 8 * blockCountOf bufferSize := by
  rw [hN]
  refine ⟨fun s hs rest => ?_, fun storage => ⟨?_, fun fuel s' h => ?_⟩⟩
  · obtain ⟨start, i, j, hinv⟩ := hs.inv
    obtain ⟨hchain, hle, hw⟩ := hinv.unread_chain
    have hspans := hchain.spans
    rw [← hinv.rtReading, ← hw] at hspans
    refine ⟨_, _, hinv.tryRecover_image rest (Nat.lt_succ_self _), ?_, hspans,
      readsExactly_of_inv ⟨0, _, inv_recovered hchain hle⟩ rfl⟩
    have hlt : ∀ x, x % 2 ^ 32 < 2 ^ 32 := fun x => Nat.mod_lt _ (by norm_num)
    exact (load_image N s rest (by rw [hinv.rtReading]; exact hlt _) (by rw [hw]; exact hlt _)).1
  · obtain ⟨fuel, hfuel⟩ := exists_scan (N := N) (dataArea storage) (savedWrite storage)
      ⟨savedRead storage, sub32 (savedWrite storage) (savedRead storage), []⟩
      (Mem.load_lt storage 4 4)
    refine ⟨fuel, ?_⟩
    unfold tryRecover
    split
    · exact ⟨_, rfl⟩
    · simp only
      split
      · exact ⟨_, rfl⟩
      · split
        · rename_i st hst
          exact absurd hst (hfuel st)
        · exact ⟨_, rfl⟩
        · exact ⟨_, rfl⟩
  · obtain ⟨C, hC, -, hw, rfl⟩ := exists_inv_of_tryRecover h
    have hspans := hC.spans
    have hlt : savedRead storage < 2 ^ 32 := Mem.load_lt storage 4 4
    rw [← hw, Nat.mod_eq_of_lt hlt] at hspans
    refine ⟨hspans, fun c hc => ?_⟩
    obtain ⟨⟨k, hk⟩, rfl⟩ := List.get_of_mem hc
    have hst := hC.get k hk
    have heq : chunkIn N (dataArea storage) (C.get ⟨k, hk⟩).cursor = C.get ⟨k, hk⟩ := by
      rw [hst.cursor]
      exact hst.chunkIn_eq
    exact ⟨heq.symm, hst.dataAddr_add_le⟩

theorem Lives.of_run (as : List Act) (h : Lives N s) (hrun : run (Siso.step N) s as = some s') :
    Lives N s' := by
  have hr : Runs (Siso.step N) (fun _ _ => True) s s' := Runs.of_run (fun _ _ => trivial) hrun
  exact Runs.invariant (I := Lives N) hr h fun _ _ _ hu _ hs => hu.step hs

/-- A ring of four blocks whose cursors start at the end of the 32-bit range, after its first chunk is
published. -/
theorem siso_recovery_fourBlocks : ∃ s, run (step ⟨2, by decide⟩)
      (State.init (2 ^ 32 - 3) fun _ => 0) (wrapRun.take 7) = some s ∧
    s.unread.map Chunk.payload = [[7, 9]] ∧
    ∃ fuel s', tryRecover ⟨2, by decide⟩ (s.image ⟨2, by decide⟩ fun _ => 1) fuel = some (some s') ∧
      ReadsExactly ⟨2, by decide⟩ s' s.unread := by
  refine ⟨(run (step ⟨2, by decide⟩) (State.init (2 ^ 32 - 3) fun _ => 0) (wrapRun.take 7)).get
    (by decide +kernel), (Option.some_get _).symm, by decide +kernel, ?_⟩
  have hlives := (Lives.init (N := ⟨2, by decide⟩) (2 ^ 32 - 3) fun _ => 0).of_run
    (wrapRun.take 7) (Option.some_get (by decide +kernel)).symm
  obtain ⟨fuel, s', hs', -, -, hreads⟩ :=
    (siso_recovery ⟨2, by decide⟩ (headSize + 39) (by decide)).1 _ hlives fun _ => 1
  exact ⟨fuel, s', hs', hreads⟩

end QLog.Siso
