import QLog.Buffer.LogBuffer.Defs
import QLog.Buffer.LogBuffer.Sizes
import QLog.Buffer.Miso.Model
import QLog.Record.LogEntry

/-!
# The size of an allocated chunk

From `log_write_begin` to the ring that grants a chunk the size of a record passes through four layers,
each of which adds its own head in 32 bits. `allocWriteChunk` follows one call; what it finds (the
policy, the rings and their cursors, the oversize buffers) is given by `Found`, and the outcome keeps,
next to the result and the room in the chunk, every sum that was formed on the way with the width of its
type. `chunk_holds_record`: a chunk holds its record, and no sum wraps, whatever the call finds, if and
only if the record leaves room for the context and for the head of the low-performance ring below `2 ^ 32`.
-/

namespace QLog.LogBuffer

/-- A sum in a type of `bits` bits, with its exact value. -/
structure Sum where
  bits : ℕ
  value : ℕ
  deriving DecidableEq, Repr

/-- The value fits its type. -/
def Sum.NoWrap (s : Sum) : Prop := s.value < 2 ^ s.bits

/-- The outcome of an allocation: the bytes from `data_addr` to the end of the reserved blocks, and the
sums on the way. -/
structure Alloc where
  result : ResultCode
  capacity : ℕ
  sums : List Sum
  deriving DecidableEq, Repr

/-! ## The rings -/

/-- `miso_ring_buffer::alloc_write_chunk`; `granted` says whether the loop over the cursors ends with a
reservation. -/
def misoAllocWriteChunk (N : BlockCount) (granted : Bool) (size : ℕ) : Alloc :=
  let sums : List Sum := [⟨32, size + 8⟩, ⟨64, (size + 8) % 2 ^ 32 + (128 - 1)⟩]
  let need := Miso.needBlocks size
  if N.count < need ∨ need = 0 ∨ Miso.maxBlockNumPerChunk < need then ⟨.errAllocSizeInvalid, 0, sums⟩
  else if granted then ⟨.success, need * 128 - 8, sums⟩
  else if N.count < need <<< 1 then ⟨.errAllocSizeInvalid, 0, sums⟩
  else ⟨.errNotEnoughSpace, 0, sums⟩

/-- A single-producer ring as the producer finds it: its blocks, the block of its cursor and the blocks
that are free. -/
structure SisoRoom where
  count : ℕ
  index : ℕ
  free : ℕ
  deriving DecidableEq, Repr

/-- The blocks that a chunk takes; a payload that does not fit at the end takes the tail with it. -/
def SisoRoom.chunkBlocks (r : SisoRoom) (size : ℕ) : ℕ :=
  let tail := r.count - r.index
  if tail < Siso.normalBlocks size then tail + (size + 7) >>> 3 else Siso.normalBlocks size

/-- `siso_ring_buffer::alloc_write_chunk`. -/
def sisoAllocWriteChunk (r : SisoRoom) (size : ℕ) : Alloc :=
  let sums : List Sum := [⟨64, size + 8 + 7⟩]
  let tail := r.count - r.index
  let normal := Siso.normalBlocks size
  if r.count < normal ∨ normal = 0 ∨ (tail < normal ∧ r.count < normal + tail - 1) then
    ⟨.errAllocSizeInvalid, 0, sums⟩
  else if r.free < r.chunkBlocks size then ⟨.errNotEnoughSpace, 0, sums⟩
  else if tail < normal then ⟨.success, ((size + 7) >>> 3) * 8, sums⟩
  else ⟨.success, normal * 8 - 8, sums⟩

/-- The size test is the one of the producer of the ring. -/
theorem sisoAllocWriteChunk_invalid_iff (N : BlockCount) (index free size : ℕ) :
    (sisoAllocWriteChunk ⟨N.count, index, free⟩ size).result = .errAllocSizeInvalid ↔
      Siso.sizeInvalid N index size := by
  dsimp only [sisoAllocWriteChunk, Siso.sizeInvalid, Siso.tail]
  split
  · rename_i hinvalid
    exact ⟨fun _ => hinvalid, fun _ => rfl⟩
  · rename_i hvalid
    refine ⟨fun h => ?_, fun h => absurd h hvalid⟩
    split at h
    · cases h
    · split at h <;> cases h

/-- So is the number of blocks. -/
theorem SisoRoom.chunkBlocks_eq (N : BlockCount) (index free size : ℕ) :
    SisoRoom.chunkBlocks ⟨N.count, index, free⟩ size = Siso.chunkBlocks N index size := rfl

/-! ## The log buffer -/

/-- What the rings answer in one round of the loop of `alloc_write_chunk`. -/
structure Round where
  lpGranted : Bool
  hp : SisoRoom

/-- What a call finds: whether the calling thread writes often, `hp_buffer_max_alloc_size_`, the rings,
the oversize buffers of the thread, and whether a new one can be made. -/
structure Found where
  policy : MemoryPolicy
  isHighFrequency : Bool
  hpBufferMaxAllocSize : ℕ
  lpBlocks : BlockCount
  rounds : ℕ → Round
  parentGranted : Bool
  oversizeBuffers : List SisoRoom
  newBufferIsValid : Bool

/-- The sums are kept when a chunk is asked for with a head of its own, which its caller skips. -/
def Alloc.skip (a : Alloc) (head : ℕ) (sum : Sum) : Alloc :=
  ⟨a.result, a.capacity - head, sum :: a.sums⟩

/-- The loop over the oversize buffers of the thread. -/
def allocInBuffers (size : ℕ) : List SisoRoom → Option Alloc
  | [] => none
  | r :: rest =>
    let a := sisoAllocWriteChunk r (add32 size contextSize)
    if a.result = .success then some (a.skip contextSize ⟨32, size + contextSize⟩)
    else allocInBuffers size rest

/-- A new oversize buffer for a record. -/
def newOversizeBuffer (size : ℕ) : SisoRoom :=
  let defaultBufferSize := if size < (2 ^ 32 - 1) >>> 1 then size <<< 1 else 2 ^ 32 - 1
  let count := Siso.blockCountOf (calculateMinSizeOfMemory defaultBufferSize)
  ⟨count, 0, count⟩

/-- `wt_alloc_oversize_write_chunk`. -/
def wtAllocOversizeWriteChunk (f : Found) (size : ℕ) : Alloc :=
  let parent := misoAllocWriteChunk f.lpBlocks f.parentGranted contextSize
  if parent.result ≠ .success then
    match f.policy with
    | .discardWhenFull => ⟨parent.result, 0, parent.sums⟩
    | _ => ⟨if parent.result = .errNotEnoughSpace then .errWaitAndRetry else parent.result, 0, parent.sums⟩
  else
    match allocInBuffers size f.oversizeBuffers with
    | some a => { a with sums := parent.sums ++ a.sums }
    | none =>
      if f.newBufferIsValid then
        let a := (sisoAllocWriteChunk (newOversizeBuffer size) (add32 size contextSize)).skip contextSize
          ⟨32, size + contextSize⟩
        if a.result = .success then { a with sums := parent.sums ++ a.sums }
        else ⟨.errIoFailureDrop, 0, parent.sums ++ a.sums⟩
      else ⟨.errIoFailureDrop, 0, parent.sums⟩

/-- The loop of `log_buffer::alloc_write_chunk` for at most `fuel` rounds, from the `n`-th on. -/
def allocLoop (f : Found) (size : ℕ) : ℕ → ℕ → Bool → Option Alloc
  | 0, _, _ => none
  | fuel + 1, n, isHighFrequency =>
    if isHighFrequency then
      let a := sisoAllocWriteChunk (f.rounds n).hp size
      match a.result, f.policy with
      | .errNotEnoughSpace, .autoExpandWhenFull =>
        (allocLoop f size fuel (n + 1) true).map fun b => { b with sums := a.sums ++ b.sums }
      | .errNotEnoughSpace, .blockWhenFull => some { a with result := .errWaitAndRetry }
      | _, _ => some a
    else
      let a := (misoAllocWriteChunk f.lpBlocks (f.rounds n).lpGranted (add32 size contextSize)).skip
        contextSize ⟨32, size + contextSize⟩
      match a.result, f.policy with
      | .errNotEnoughSpace, .autoExpandWhenFull =>
        (allocLoop f size fuel (n + 1) true).map fun b => { b with sums := a.sums ++ b.sums }
      | .errNotEnoughSpace, .blockWhenFull => some { a with result := .errWaitAndRetry }
      | _, _ => some a

/-- `log_buffer::alloc_write_chunk`. -/
def allocWriteChunk (f : Found) (fuel size : ℕ) : Option Alloc :=
  if f.isHighFrequency ∧ f.hpBufferMaxAllocSize < size then
    -- no ring of a block can hold it; `size` is not zero here
    some (wtAllocOversizeWriteChunk f size)
  else
    (allocLoop f size fuel 0 f.isHighFrequency).map fun a =>
      if a.result = .errAllocSizeInvalid ∧ 0 < size then
        let b := wtAllocOversizeWriteChunk f size
        { b with sums := a.sums ++ b.sums }
      else a

/-! ## The length of a record -/

/-- The bytes of a record: header, format text, arguments and extension. -/
def recordBytes (formatLen argsLen nameLen : ℕ) : ℕ :=
  Record.recordHeaderSize + Record.align4 formatLen + argsLen + (Record.recordExtHeaderSize + nameLen)

/-- `total_length` of `log_write_begin`, with its sums. -/
def totalLength (formatLen argsLen nameLen : ℕ) : ℕ × List Sum :=
  let withoutExt := Record.recordHeaderSize + Record.align4 formatLen + argsLen
  let ext := Record.recordExtHeaderSize + nameLen
  let total := withoutExt % 2 ^ 32 + ext % 2 ^ 32
  (total % 2 ^ 32, [⟨32, withoutExt⟩, ⟨32, ext⟩, ⟨32, total⟩])

/-- The allocation of `log_write_begin`. -/
def logWriteBeginAlloc (f : Found) (fuel formatLen argsLen nameLen : ℕ) : Option Alloc :=
  let length := totalLength formatLen argsLen nameLen
  (allocWriteChunk f fuel length.1).map fun a => { a with sums := length.2 ++ a.sums }

/-! ## What the outcome promises -/

/-- A chunk that is granted has room for `size` bytes, and no sum wraps. -/
structure Alloc.Holds (a : Alloc) (size : ℕ) : Prop where
  room : a.result = .success → size ≤ a.capacity
  noWrap : ∀ s ∈ a.sums, s.NoWrap

section Holds

variable {size : ℕ} {a b : Alloc}

/-- A call that fails promises nothing about room. -/
theorem Alloc.holds_of_failed {r : ResultCode} (c : ℕ) {sums : List Sum} (hr : r ≠ .success)
    (h : ∀ s ∈ sums, s.NoWrap) : Alloc.Holds ⟨r, c, sums⟩ size :=
  ⟨fun hs => absurd hs hr, h⟩

/-- The sums of an earlier attempt do not wrap either. -/
theorem Alloc.Holds.append (h : b.Holds size) {sums : List Sum} (hsums : ∀ s ∈ sums, s.NoWrap) :
    Alloc.Holds { b with sums := sums ++ b.sums } size :=
  ⟨h.room, fun s hs => (List.mem_append.1 hs).elim (hsums s) (h.noWrap s)⟩

/-- The head of the caller is part of the size. -/
theorem Alloc.Holds.skip (h : a.Holds (size + contextSize)) (hlt : size + contextSize < 2 ^ 32) :
    (a.skip contextSize ⟨32, size + contextSize⟩).Holds size := by
  refine ⟨fun hs => ?_, fun s hs => ?_⟩
  · have hroom := h.room hs
    change size ≤ a.capacity - contextSize
    omega
  · rcases List.mem_cons.1 hs with rfl | hs
    · exact hlt
    · exact h.noWrap s hs

theorem misoAllocWriteChunk_holds (N : BlockCount) (granted : Bool) (hsize : size + 8 < 2 ^ 32) :
    (misoAllocWriteChunk N granted size).Holds size := by
  have hsums : ∀ s ∈ [(⟨32, size + 8⟩ : Sum), ⟨64, (size + 8) % 2 ^ 32 + (128 - 1)⟩], s.NoWrap := by
    intro s hs
    simp only [List.mem_cons, List.not_mem_nil, or_false] at hs
    rcases hs with rfl | rfl
    · exact hsize
    · change (size + 8) % 2 ^ 32 + (128 - 1) < 2 ^ 64
      omega
  dsimp only [misoAllocWriteChunk]
  split
  · exact Alloc.holds_of_failed 0 (by decide) hsums
  · split
    · refine ⟨fun _ => ?_, hsums⟩
      change size ≤ Miso.needBlocks size * 128 - 8
      rw [Miso.needBlocks, Nat.mod_eq_of_lt hsize, Nat.shiftRight_eq_div_pow]
      omega
    · split
      · exact Alloc.holds_of_failed 0 (by decide) hsums
      · exact Alloc.holds_of_failed 0 (by decide) hsums

theorem sisoAllocWriteChunk_holds (r : SisoRoom) (hsize : size < 2 ^ 32) :
    (sisoAllocWriteChunk r size).Holds size := by
  have hsums : ∀ s ∈ [(⟨64, size + 8 + 7⟩ : Sum)], s.NoWrap := by
    intro s hs
    rw [List.mem_singleton] at hs
    subst hs
    change size + 8 + 7 < 2 ^ 64
    omega
  dsimp only [sisoAllocWriteChunk]
  split
  · exact Alloc.holds_of_failed 0 (by decide) hsums
  · split
    · exact Alloc.holds_of_failed 0 (by decide) hsums
    · split
      · refine ⟨fun _ => ?_, hsums⟩
        change size ≤ (size + 7) >>> 3 * 8
        rw [Nat.shiftRight_eq_div_pow]
        omega
      · refine ⟨fun _ => ?_, hsums⟩
        change size ≤ Siso.normalBlocks size * 8 - 8
        rw [Siso.normalBlocks, Nat.shiftRight_eq_div_pow]
        omega

/-- A chunk of an oversize buffer, behind its context. -/
theorem oversizeChunk_holds (r : SisoRoom) (hsize : size + contextSize < 2 ^ 32) :
    ((sisoAllocWriteChunk r (add32 size contextSize)).skip contextSize ⟨32, size + contextSize⟩).Holds
      size := by
  have hadd : add32 size contextSize = size + contextSize := Nat.mod_eq_of_lt hsize
  rw [hadd]
  exact (sisoAllocWriteChunk_holds r hsize).skip hsize

theorem allocInBuffers_holds (hsize : size + contextSize < 2 ^ 32) :
    ∀ {rs : List SisoRoom}, allocInBuffers size rs = some a → a.Holds size := by
  intro rs
  induction rs with
  | nil => exact nofun
  | cons r rest ih =>
    intro h
    dsimp only [allocInBuffers] at h
    split at h
    · obtain rfl := Option.some.inj h
      exact oversizeChunk_holds r hsize
    · exact ih h

theorem wtAllocOversizeWriteChunk_holds (f : Found) (hsize : size + contextSize < 2 ^ 32) :
    (wtAllocOversizeWriteChunk f size).Holds size := by
  have hparent := (misoAllocWriteChunk_holds f.lpBlocks f.parentGranted
    (show contextSize + 8 < 2 ^ 32 by decide)).noWrap
  have hnew := oversizeChunk_holds (newOversizeBuffer size) hsize
  dsimp only [wtAllocOversizeWriteChunk]
  split
  · rename_i hfailed
    split
    · exact Alloc.holds_of_failed 0 hfailed hparent
    · refine Alloc.holds_of_failed 0 ?_ hparent
      split
      · decide
      · exact hfailed
  · split
    · rename_i hsome
      exact (allocInBuffers_holds hsize hsome).append hparent
    · split
      · split
        · exact hnew.append hparent
        · exact Alloc.holds_of_failed 0 (by decide)
            ((hnew.append hparent).noWrap)
      · exact Alloc.holds_of_failed 0 (by decide) hparent

theorem allocLoop_holds (f : Found) (hsize : size + contextSize + 8 < 2 ^ 32) {fuel : ℕ} :
    ∀ {n : ℕ} {high : Bool}, allocLoop f size fuel n high = some a → a.Holds size := by
  induction fuel generalizing a with
  | zero => exact nofun
  | succ fuel ih =>
    intro n high h
    have hhp := sisoAllocWriteChunk_holds (f.rounds n).hp (show size < 2 ^ 32 by omega)
    have hadd : add32 size contextSize = size + contextSize := Nat.mod_eq_of_lt (by omega)
    have hlp := (misoAllocWriteChunk_holds f.lpBlocks (f.rounds n).lpGranted hsize).skip (by omega)
    rw [allocLoop] at h
    split at h
    · dsimp only at h
      split at h
      · obtain ⟨b, hb, rfl⟩ := Option.map_eq_some_iff.1 h
        exact (ih hb).append hhp.noWrap
      · obtain rfl := Option.some.inj h
        exact Alloc.holds_of_failed _ (by decide) hhp.noWrap
      · obtain rfl := Option.some.inj h
        exact hhp
    · rw [hadd] at h
      dsimp only at h
      split at h
      · obtain ⟨b, hb, rfl⟩ := Option.map_eq_some_iff.1 h
        exact (ih hb).append hlp.noWrap
      · obtain rfl := Option.some.inj h
        exact Alloc.holds_of_failed _ (by decide) hlp.noWrap
      · obtain rfl := Option.some.inj h
        exact hlp

theorem allocWriteChunk_holds (f : Found) (hsize : size + contextSize + 8 < 2 ^ 32) {fuel : ℕ}
    (h : allocWriteChunk f fuel size = some a) : a.Holds size := by
  have hoversize := wtAllocOversizeWriteChunk_holds f (show size + contextSize < 2 ^ 32 by omega)
  rw [allocWriteChunk] at h
  split at h
  · obtain rfl := Option.some.inj h
    exact hoversize
  · obtain ⟨b, hb, rfl⟩ := Option.map_eq_some_iff.1 h
    have hloop := allocLoop_holds f hsize hb
    split
    · exact hoversize.append hloop.noWrap
    · exact hloop

end Holds

/-! ## The whole way -/

/-- A record that leaves room below `2 ^ 32` has its own length, and no sum of `log_write_begin` wraps. -/
theorem totalLength_eq {formatLen argsLen nameLen : ℕ}
    (h : recordBytes formatLen argsLen nameLen < 2 ^ 32) :
    (totalLength formatLen argsLen nameLen).1 = recordBytes formatLen argsLen nameLen ∧
      ∀ s ∈ (totalLength formatLen argsLen nameLen).2, s.NoWrap := by
  unfold recordBytes at h
  dsimp only [totalLength]
  rw [Nat.mod_eq_of_lt (show Record.recordHeaderSize + Record.align4 formatLen + argsLen < 2 ^ 32 by omega),
    Nat.mod_eq_of_lt (show Record.recordExtHeaderSize + nameLen < 2 ^ 32 by omega), Nat.mod_eq_of_lt h]
  refine ⟨rfl, fun s hs => ?_⟩
  simp only [List.mem_cons, List.not_mem_nil, or_false] at hs
  rcases hs with rfl | rfl | rfl
  · change Record.recordHeaderSize + Record.align4 formatLen + argsLen < 2 ^ 32
    omega
  · change Record.recordExtHeaderSize + nameLen < 2 ^ 32
    omega
  · exact h

theorem four_lt : 4 < 32 := by decide

/-- A thread that writes seldom, on the smallest ring, which has room. -/
def seldom : Found where
  policy := .discardWhenFull
  isHighFrequency := false
  hpBufferMaxAllocSize := 2 ^ 32 - 1
  lpBlocks := ⟨4, four_lt⟩
  rounds := fun _ => ⟨true, ⟨16, 0, 16⟩⟩
  parentGranted := false
  oversizeBuffers := []
  newBufferIsValid := false

/-- Its call adds the context and the head of the low-performance ring. -/
theorem allocWriteChunk_seldom (size : ℕ) : ∃ a, allocWriteChunk seldom 1 size = some a ∧
    ∀ s ∈ [(⟨32, size + contextSize⟩ : Sum), ⟨32, add32 size contextSize + 8⟩], s ∈ a.sums := by
  have hloop : allocLoop seldom size 1 0 false =
      some ((misoAllocWriteChunk seldom.lpBlocks true (add32 size contextSize)).skip contextSize
        ⟨32, size + contextSize⟩) := by
    rw [allocLoop, if_neg (by decide)]
    dsimp only
    split
    · rename_i hpolicy
      cases hpolicy
    · rename_i hpolicy
      cases hpolicy
    · rfl
  have hsums : ∀ s ∈ [(⟨32, size + contextSize⟩ : Sum), ⟨32, add32 size contextSize + 8⟩],
      s ∈ ((misoAllocWriteChunk seldom.lpBlocks true (add32 size contextSize)).skip contextSize
        ⟨32, size + contextSize⟩).sums := by
    have hmiso : (misoAllocWriteChunk seldom.lpBlocks true (add32 size contextSize)).sums =
        [⟨32, add32 size contextSize + 8⟩, ⟨64, (add32 size contextSize + 8) % 2 ^ 32 + (128 - 1)⟩] := by
      dsimp only [misoAllocWriteChunk]
      split
      · rfl
      · rfl
    intro s hs
    rw [Alloc.skip, hmiso]
    simp only [List.mem_cons, List.not_mem_nil, or_false] at hs ⊢
    rcases hs with rfl | rfl
    · exact Or.inl rfl
    · exact Or.inr (Or.inl rfl)
  rw [allocWriteChunk, if_neg (by rintro ⟨h, -⟩; cases h), show seldom.isHighFrequency = false from rfl,
    hloop]
  refine ⟨_, rfl, fun s hs => ?_⟩
  dsimp only
  split
  · exact List.mem_append_left _ (hsums s hs)
  · exact hsums s hs

/-- A record that does not is cut by some sum: of `log_write_begin`, or of the call of that thread. -/
theorem exists_wrap {formatLen argsLen nameLen : ℕ} (hname : nameLen < 2 ^ 8)
    (h : 2 ^ 32 ≤ recordBytes formatLen argsLen nameLen + contextSize + 8) :
    ∃ a, logWriteBeginAlloc seldom 1 formatLen argsLen nameLen = some a ∧ ¬∀ s ∈ a.sums, s.NoWrap := by
  obtain ⟨a, ha, hmem⟩ := allocWriteChunk_seldom (totalLength formatLen argsLen nameLen).1
  refine ⟨{ a with sums := (totalLength formatLen argsLen nameLen).2 ++ a.sums },
    Option.map_eq_some_iff.2 ⟨a, ha, rfl⟩, fun hall => ?_⟩
  have hlength : recordBytes formatLen argsLen nameLen < 2 ^ 32 := by
    have hwithout := hall _ (List.mem_append_left _ (List.mem_cons_self ..))
    have htotal := hall _ (List.mem_append_left _ (List.mem_cons_of_mem _ (List.mem_cons_of_mem _
      (List.mem_cons_self ..))))
    change Record.recordHeaderSize + Record.align4 formatLen + argsLen < 2 ^ 32 at hwithout
    change (Record.recordHeaderSize + Record.align4 formatLen + argsLen) % 2 ^ 32 +
      (Record.recordExtHeaderSize + nameLen) % 2 ^ 32 < 2 ^ 32 at htotal
    rw [Nat.mod_eq_of_lt hwithout, Nat.mod_eq_of_lt (by rw [Record.recordExtHeaderSize]; omega)] at htotal
    exact htotal
  rw [(totalLength_eq hlength).1] at hmem
  have hcontext := hall _ (List.mem_append_right _ (hmem _ (List.mem_cons_self ..)))
  have hhead := hall _ (List.mem_append_right _ (hmem _ (List.mem_cons_of_mem _ (List.mem_cons_self ..))))
  change recordBytes formatLen argsLen nameLen + contextSize < 2 ^ 32 at hcontext
  change add32 (recordBytes formatLen argsLen nameLen) contextSize + 8 < 2 ^ 32 at hhead
  rw [add32, Nat.mod_eq_of_lt hcontext] at hhead
  omega

/-- **The size of an allocated chunk.** For a record with a format text, arguments and a thread name of
any length: whatever the call finds, a chunk that is granted has room for the whole record and no sum on
the way wraps, if and only if the record, the context before it and the head of a chunk of the
low-performance ring are together shorter than `2 ^ 32` bytes. -/
theorem chunk_holds_record (formatLen argsLen : BitVec 32) (nameLen : BitVec 8) :
    (∀ f fuel a, logWriteBeginAlloc f fuel formatLen.toNat argsLen.toNat nameLen.toNat = some a →
      a.Holds (recordBytes formatLen.toNat argsLen.toNat nameLen.toNat)) ↔
      recordBytes formatLen.toNat argsLen.toNat nameLen.toNat + contextSize + 8 < 2 ^ 32 := by
  constructor
  · intro hall
    by_contra hlarge
    obtain ⟨a, ha, hwrap⟩ := exists_wrap nameLen.isLt (not_lt.1 hlarge)
    exact hwrap (hall seldom 1 a ha).noWrap
  · intro h f fuel a ha
    have hrecord : recordBytes formatLen.toNat argsLen.toNat nameLen.toNat < 2 ^ 32 := by omega
    obtain ⟨hlength, hsums⟩ := totalLength_eq hrecord
    obtain ⟨b, hb, rfl⟩ := Option.map_eq_some_iff.1 ha
    rw [hlength] at hb
    exact (allocWriteChunk_holds f h hb).append hsums

/-- A format text of 4 bytes, arguments of `2 ^ 32 - 60` bytes and the thread name "main": the record is
11 bytes shorter than `2 ^ 32`. With its context its length wraps to 5, and the call is granted a chunk
of one block, with room for 104 bytes. -/
theorem chunk_holds_record_wrap : ∃ a, logWriteBeginAlloc seldom 1 4 (2 ^ 32 - 60) 4 = some a ∧
    a.result = .success ∧ a.capacity = 104 ∧ recordBytes 4 (2 ^ 32 - 60) 4 = 2 ^ 32 - 11 ∧
    ¬ a.Holds (recordBytes 4 (2 ^ 32 - 60) 4) := by
  have houtcome : (logWriteBeginAlloc seldom 1 4 (2 ^ 32 - 60) 4).map (fun a => (a.result, a.capacity)) =
      some (.success, 104) := by decide +kernel
  obtain ⟨a, ha, hpair⟩ := Option.map_eq_some_iff.1 houtcome
  obtain ⟨hresult, hcapacity⟩ := Prod.mk.inj hpair
  have hbytes : recordBytes 4 (2 ^ 32 - 60) 4 = 2 ^ 32 - 11 := by decide +kernel
  refine ⟨a, ha, hresult, hcapacity, hbytes, fun hholds => ?_⟩
  have hroom := hholds.room hresult
  rw [hbytes, hcapacity] at hroom
  omega

end QLog.LogBuffer
