import QLog.Buffer.Siso.Calls
import QLog.Buffer.Siso.Recovery
import QLog.Record.LogEntry

/-!
# The snapshot of a log

A model of `log_snapshot`: the newest records are kept in a single-producer ring, from which
`take_snapshot_string` lays them out. `write_data` discards the oldest records until the new one has room,
and `reset_config` moves the records to a ring of another size in the same way. All of this happens under
one lock, so the calls of the ring are whole calls.

`step` executes a call, but `write_data` round by round, so that the states between two rounds are seen as
well. Two history variables record the entry that `write_data` is storing and the entries that the filters
accepted since the buffer was last empty by order: since it was made, or since it was laid out.
-/

namespace QLog.LogSnapshot

open Siso (headSize blockCountOf allocCall commitCall readCall returnCall)

/-! ## The ring -/

/-- A `siso_ring_buffer`. -/
structure Ring where
  N : BlockCount
  state : Siso.State

theorem log2_lt {n : ℕ} (h : n ≤ (2 ^ 31 - 1) / 8) : Nat.log2 n < 32 := by
  rcases Nat.eq_zero_or_pos n with rfl | hn
  · decide
  · exact (Nat.log2_lt (by omega)).2 (by omega)

/-- The constructor of `siso_ring_buffer`, with the assertions of `init_with_memory`; the memory is left as it
was. -/
def construct (bufferSize : ℕ) (memory : Mem) : Option Ring :=
  if h : headSize + 2 * 8 ≤ bufferSize ∧ blockCountOf bufferSize ≤ (2 ^ 31 - 1) / 8 then
    some ⟨⟨Nat.log2 (blockCountOf bufferSize), log2_lt h.2⟩, .init 0 memory⟩
  else none

/-- A ring in new memory, with the assertion of `calculate_min_size_of_memory`. -/
def create (bufferSize : ℕ) (memory : Mem) : Option Ring :=
  if bufferSize ≤ 2 ^ 30 then construct bufferSize memory else none

/-- The outcome of a round of the loop that stores an entry: it is over, or an entry was discarded. -/
inductive Round
  | done (r : Ring)
  | again (r : Ring)

/-- The answer to `err_not_enough_space`: the oldest entry is discarded, and a ring without one is made
anew. -/
def discard (bufferSize : ℕ) (r : Ring) : Option Round :=
  let c := readCall r.N r.state
  let s := returnCall r.N c.2 c.1
  if c.1.result = .errEmptyLogBuffer then (construct bufferSize s.data).map .again
  else some (.again ⟨r.N, s⟩)

/-- What follows `alloc_write_chunk`. -/
def answer (bufferSize : ℕ) (N : BlockCount) (data : List UInt8) : ResultCode × Siso.State → Option Round
  | (.success, s) => some (.done ⟨N, commitCall N s data⟩)
  | (.errNotEnoughSpace, s) => discard bufferSize ⟨N, s⟩
  | (_, s) => some (.done ⟨N, s⟩)

/-- A round of the loop. -/
def storeRound (bufferSize : ℕ) (r : Ring) (data : List UInt8) : Option Round :=
  answer bufferSize r.N data (allocCall r.N r.state data.length)

/-- The loop, for at most so many rounds; `snapshot_text_continuous_` goes with the first entry that is
discarded. -/
def store (bufferSize : ℕ) (data : List UInt8) : ℕ → Ring × Bool → Option (Ring × Bool)
  | 0, _ => none
  | fuel + 1, (r, continuous) =>
    match storeRound bufferSize r data with
    | none => none
    | some (.done r) => some (r, continuous)
    | some (.again r) => store bufferSize data fuel (r, false)

/-- A loop that reads a ring until it is empty, for at most so many chunks, and passes every payload on. -/
def drain {σ : Type} (f : σ → List UInt8 → Option σ) : ℕ → Ring → σ → Option (σ × Ring)
  | 0, _, _ => none
  | fuel + 1, r, t =>
    let c := readCall r.N r.state
    let s := returnCall r.N c.2 c.1
    if c.1.result = .success then
      (f t (c.2.data.slice c.1.dataAddr c.1.dataSize)).bind (drain f fuel ⟨r.N, s⟩)
    else some (t, ⟨r.N, s⟩)

/-! ## The snapshot -/

/-- What the snapshot reads of its configuration: `buffer_size` if it is an integer, the bitmap of `levels` if
there is one, and the mask of the categories. -/
structure Config where
  bufferSize : Option ℤ
  levels : Option ℕ
  categoriesMask : List Bool

/-- `new_buffer_size`. -/
def Config.newBufferSize (config : Config) : ℕ :=
  match config.bufferSize with
  | some size => (size % 2 ^ 32).toNat
  | none => 0

/-- The snapshot and the history of its entries. -/
structure State where
  bufferSize : ℕ
  snapshotBuffer : Option Ring
  snapshotText : Fin 2 → List UInt8
  snapshotTextIndex : Fin 2
  snapshotTextContinuous : Bool
  logLevelBitmap : ℕ
  categoriesMaskArray : List Bool
  /-- The entry that `write_data` is storing. -/
  pending : Option (List UInt8)
  /-- The entries that were accepted since the buffer was made or laid out. -/
  accepted : List (List UInt8)

/-- The index of the first text. -/
def firstText : Fin 2 := ⟨0, Nat.two_pos⟩

/-- The index of the other text, `(snapshot_text_index_ + 1) & 0x01`. -/
def otherText (index : Fin 2) : Fin 2 := ⟨(index.val + 1) % 2, Nat.mod_lt _ Nat.two_pos⟩

/-- Before the first configuration. -/
def State.new : State := ⟨0, none, fun _ => [], firstText, false, 0, [], none, []⟩

/-- The entries in the buffer. -/
def State.held (s : State) : List (List UInt8) :=
  match s.snapshotBuffer with
  | some r => r.state.held
  | none => []

/-- The filters of `write_data`; none for a record without a header, a level that is out of range and a
category without a mask. -/
def accepts (s : State) (data : List UInt8) : Option Bool := do
  let head ← Record.getLogHead data
  if 32 ≤ head.level.toNat then none
  else if s.logLevelBitmap.testBit head.level.toNat then s.categoriesMaskArray[head.categoryIdx]?
  else some false

/-- `write_data` up to its loop. -/
def writeData (s : State) (data : List UInt8) : Option State :=
  match s.snapshotBuffer with
  | none => some s
  | some _ =>
    (accepts s data).map fun ok => if ok then { s with pending := some data } else { s with snapshotTextContinuous := false }

/-- A round of the loop of `write_data`. -/
def writeRound (s : State) (r : Ring) (data : List UInt8) : Option State :=
  (storeRound s.bufferSize r data).map fun
    | .done r => { s with snapshotBuffer := some r, pending := none, accepted := s.accepted ++ [data] }
    | .again r => { s with snapshotBuffer := some r, snapshotTextContinuous := false }

/-- Where the text in front of the new one begins: at the start of a character, if one is near. -/
def textOffset (text : List UInt8) (start leftSize : ℕ) : ℕ → ℕ → ℕ
  | 0, offset => offset
  | fuel + 1, offset =>
    let c := text.getD (start + offset) 0
    if offset < leftSize ∧ ¬(c &&& 0x80 = 0 ∨ c &&& 0xC0 = 0xC0) then textOffset text start leftSize fuel (offset + 1)
    else offset

/-- The text of a snapshot: as much of the one before as there is room for, and the lines of the entries. -/
def joinText (bufferSize : ℕ) (continuous : Bool) (lastText text : List UInt8) : List UInt8 :=
  if continuous = true ∧ text.length < bufferSize then
    let leftSize := min (bufferSize - text.length) lastText.length
    let start := lastText.length - leftSize
    let offset := textOffset lastText start leftSize 4 0
    (lastText.drop (start + offset)).take (leftSize - offset) ++ text
  else text

/-- `take_snapshot_string`; `layout` is the text that the layout makes of a record. -/
def takeSnapshotString (layout : List UInt8 → List UInt8) (s : State) : Option State :=
  let index := otherText s.snapshotTextIndex
  match s.snapshotBuffer with
  | none =>
    some { s with snapshotTextIndex := index, snapshotText := Function.update s.snapshotText index [] }
  | some r =>
    (drain (fun text data => some (text ++ layout data ++ [10])) (r.N.count + 1) r []).map fun result =>
      { s with
        snapshotBuffer := some result.2
        snapshotTextIndex := index
        snapshotText := Function.update s.snapshotText index
          (joinText s.bufferSize s.snapshotTextContinuous (s.snapshotText s.snapshotTextIndex) result.1)
        snapshotTextContinuous := true
        accepted := [] }

/-- A ring is made anew when the usable size of the present one differs by more than two cache lines. -/
def Rebuilds (r : Ring) (bufferSize : ℕ) : Prop :=
  2 * Siso.cacheLineSize < (Int.bmod ((8 * r.N.count : ℤ) - bufferSize) (2 ^ 32)).natAbs

instance (r : Ring) (bufferSize : ℕ) : Decidable (Rebuilds r bufferSize) := by
  unfold Rebuilds
  infer_instance

/-- The buffer of `reset_config` for a size other than zero, and `snapshot_text_continuous_`. -/
def resize (bufferSize : ℕ) (memory : Mem) (continuous : Bool) : Option Ring → Option (Ring × Bool)
  | none => (create bufferSize memory).map fun r => (r, continuous)
  | some r =>
    if Rebuilds r bufferSize then
      (create bufferSize memory).bind fun new =>
        (drain (fun t data => store bufferSize data (t.1.N.count + 1) t) (r.N.count + 1) r (new, continuous)).map Prod.fst
    else some (r, continuous)

/-- `reset_config`; `memory` is what lies in the memory that is allocated. -/
def resetConfig (s : State) (config : Config) (memory : Mem) : Option State :=
  if config.newBufferSize = 0 then
    some { s with
      bufferSize := 0
      snapshotBuffer := none
      snapshotText := fun _ => []
      snapshotTextIndex := firstText
      snapshotTextContinuous := false
      categoriesMaskArray := config.categoriesMask
      accepted := [] }
  else
    (resize config.newBufferSize memory s.snapshotTextContinuous s.snapshotBuffer).map fun result =>
      { s with
        bufferSize := config.newBufferSize
        snapshotBuffer := some result.1
        snapshotTextContinuous := result.2
        logLevelBitmap := config.levels.getD (2 ^ 32 - 1)
        categoriesMaskArray := config.categoriesMask }

/-! ## Steps -/

/-- The calls of the snapshot, and the rounds of `write_data`. -/
inductive Act
  | writeData (data : List UInt8)
  | round
  | takeSnapshotString
  | resetConfig (config : Config) (memory : Mem)

/-- A call begins when no entry is being stored; the size of an entry has 32 bits. -/
def step (layout : List UInt8 → List UInt8) (s : State) : Act → Option State
  | .writeData data => if s.pending = none ∧ data.length < 2 ^ 32 then writeData s data else none
  | .round =>
    match s.pending, s.snapshotBuffer with
    | some data, some r => writeRound s r data
    | _, _ => none
  | .takeSnapshotString => if s.pending = none then takeSnapshotString layout s else none
  | .resetConfig config memory => if s.pending = none then resetConfig s config memory else none

/-! ## The newest entries -/

/-- The entries `held` are the newest of the entries `all`. -/
def Newest {α : Type*} (held all : List α) : Prop := held <:+ all ∧ (all ≠ [] → held ≠ [])

namespace Newest

variable {α : Type*} {held kept all : List α} {a : α}

theorem refl (held : List α) : Newest held held := ⟨List.suffix_rfl, id⟩

theorem trans (h : Newest held kept) (h' : Newest kept all) : Newest held all :=
  ⟨h.1.trans h'.1, fun hne => h.2 (h'.2 hne)⟩

theorem of_suffix (h : held <:+ all) (a : α) : Newest (held ++ [a]) (all ++ [a]) := by
  obtain ⟨front, rfl⟩ := h
  exact ⟨⟨front, (List.append_assoc front held [a]).symm⟩, fun _ => List.append_ne_nil_of_right_ne_nil held (by simp)⟩

/-- The newest of the newest entries and others. -/
theorem append (h : Newest held all) (rest : List α) : Newest (held ++ rest) (all ++ rest) := by
  obtain ⟨⟨front, rfl⟩, hne⟩ := h
  refine ⟨⟨front, (List.append_assoc front held rest).symm⟩, fun hall hnil => ?_⟩
  obtain ⟨rfl, rfl⟩ := List.append_eq_nil_iff.1 hnil
  rw [List.append_nil] at hall
  exact hne hall rfl

end Newest

/-! ## Storing -/

variable {bufferSize : ℕ} {memory : Mem} {r : Ring} {data : List UInt8}

theorem construct_spec (h : construct bufferSize memory = some r) : r.state = .init 0 memory := by
  unfold construct at h
  split at h
  · cases h
    rfl
  · cases h

theorem create_spec (h : create bufferSize memory = some r) : r.state = .init 0 memory := by
  unfold create at h
  split at h
  · exact construct_spec h
  · cases h

/-- A ring takes the entries one after the other, from a position of its write cursor on. -/
def FitsFrom (N : BlockCount) : ℕ → List (List UInt8) → Prop
  | _, [] => True
  | cursor, data :: rest =>
    data.length < 2 ^ 32 ∧ ¬Siso.sizeInvalid N (N.index cursor) data.length ∧
      FitsFrom N (add32 cursor (Siso.chunkBlocks N (N.index cursor) data.length)) rest

instance decidableFitsFrom (N : BlockCount) : ∀ cursor entries, Decidable (FitsFrom N cursor entries)
  | _, [] => isTrue trivial
  | cursor, data :: rest =>
    have := decidableFitsFrom N (add32 cursor (Siso.chunkBlocks N (N.index cursor) data.length)) rest
    inferInstanceAs (Decidable (_ ∧ _ ∧ _))

/-- A round with an entry that the ring takes: it is stored, or the oldest entry is discarded. -/
theorem storeRound_of_fits (h : Siso.Quiet r.N r.state) (hlen : data.length < 2 ^ 32)
    (hv : ¬Siso.sizeInvalid r.N (r.state.writeIndex r.N) data.length) :
    (∃ s, storeRound bufferSize r data = some (.done ⟨r.N, s⟩) ∧ Siso.Quiet r.N s ∧
      s.held = r.state.held ++ [data] ∧ s.wtWritingCursorCache = add32 r.state.wtWritingCursorCache
        (Siso.chunkBlocks r.N (r.state.writeIndex r.N) data.length)) ∨
    ∃ s, storeRound bufferSize r data = some (.again ⟨r.N, s⟩) ∧ Siso.Quiet r.N s ∧
      (∃ oldest, r.state.held = oldest :: s.held) ∧ s.wtWritingCursorCache = r.state.wtWritingCursorCache := by
  unfold storeRound
  rcases h.allocCall hlen hv with ⟨s, hs, hhanded⟩ | ⟨s, hs, hquiet, hsame, hne⟩
  · rw [hs]
    exact .inl ⟨_, rfl, hhanded.commitCall h⟩
  · rw [hs]
    obtain ⟨oldest, rest, hheld⟩ := List.exists_cons_of_ne_nil hne
    rw [← hsame.held] at hheld
    obtain ⟨hresult, -, hreturn, hrest, hcursor⟩ := hquiet.readCall_of_cons hheld
    refine .inr ⟨_, ?_, hreturn, ⟨oldest, ?_⟩, hcursor.trans hsame.wtWriting⟩
    · show discard bufferSize ⟨r.N, s⟩ = _
      unfold discard
      dsimp only
      rw [hresult, if_neg (by decide)]
    · rw [← hsame.held, hheld, hrest]

/-- The loop with an entry that the ring takes: the newest of the entries held and the new one are held. -/
theorem store_of_fits {fuel : ℕ} (continuous : Bool) (h : Siso.Quiet r.N r.state) (hlen : data.length < 2 ^ 32)
    (hv : ¬Siso.sizeInvalid r.N (r.state.writeIndex r.N) data.length) (hfuel : r.state.held.length < fuel) :
    ∃ s c, store bufferSize data fuel (r, continuous) = some (⟨r.N, s⟩, c) ∧ Siso.Quiet r.N s ∧
      Newest s.held (r.state.held ++ [data]) ∧ s.wtWritingCursorCache = add32 r.state.wtWritingCursorCache
        (Siso.chunkBlocks r.N (r.state.writeIndex r.N) data.length) := by
  induction fuel generalizing r continuous with
  | zero => exact absurd hfuel (Nat.not_lt_zero _)
  | succ fuel ih =>
    rw [store]
    rcases @storeRound_of_fits bufferSize _ _ h hlen hv with
      ⟨s, hs, hquiet, hheld, hcursor⟩ | ⟨s, hs, hquiet, ⟨oldest, hheld⟩, hcursor⟩
    · rw [hs]
      exact ⟨s, continuous, rfl, hquiet, hheld ▸ Newest.refl _, hcursor⟩
    · rw [hs]
      have hindex : s.writeIndex r.N = r.state.writeIndex r.N := congrArg r.N.index hcursor
      rw [hheld, List.length_cons] at hfuel
      obtain ⟨t, c, ht, hquiet', hnewest, hcursor'⟩ :=
        ih (r := ⟨r.N, s⟩) false hquiet (hindex ▸ hv) (Nat.lt_of_succ_lt_succ hfuel)
      refine ⟨t, c, ht, hquiet', hnewest.trans ⟨?_, by simp⟩, ?_⟩
      · rw [hheld, List.cons_append]
        exact List.suffix_cons oldest _
      · rw [hcursor']
        dsimp only
        rw [hcursor, hindex]

/-- Draining a ring passes on what it holds. -/
theorem drain_eq {σ : Type} (f : σ → List UInt8 → Option σ) {fuel : ℕ} (t : σ) (h : Siso.Quiet r.N r.state)
    (hfuel : r.state.held.length < fuel) : ∃ s, Siso.Quiet r.N s ∧ s.held = [] ∧
      drain f fuel r t = (r.state.held.foldlM f t).map fun t' => (t', ⟨r.N, s⟩) := by
  induction fuel generalizing r t with
  | zero => exact absurd hfuel (Nat.not_lt_zero _)
  | succ fuel ih =>
    rw [drain]
    cases hheld : r.state.held with
    | nil =>
      obtain ⟨hresult, hquiet, hsame⟩ := h.readCall_of_nil hheld
      have hreturn : returnCall r.N (readCall r.N r.state).2 (readCall r.N r.state).1 = (readCall r.N r.state).2 :=
        if_pos (by rw [hresult]; decide)
      refine ⟨(readCall r.N r.state).2, hquiet, hsame.held.trans hheld, ?_⟩
      rw [hresult, if_neg (by decide), hreturn]
      rfl
    | cons data rest =>
      obtain ⟨hresult, hdata, hquiet, hrest, -⟩ := h.readCall_of_cons hheld
      rw [hheld, List.length_cons] at hfuel
      obtain ⟨u, hu⟩ : ∃ u, returnCall r.N (readCall r.N r.state).2 (readCall r.N r.state).1 = u := ⟨_, rfl⟩
      rw [hu] at hquiet hrest ⊢
      rw [hresult, if_pos rfl, hdata, List.foldlM_cons]
      cases ht : f t data with
      | none =>
        obtain ⟨s, hs, hnil, -⟩ := ih (r := ⟨r.N, u⟩) t hquiet (by rw [hrest]; omega)
        exact ⟨s, hs, hnil, rfl⟩
      | some t' =>
        obtain ⟨s, hs, hnil, hdrain⟩ := ih (r := ⟨r.N, u⟩) t' hquiet (by rw [hrest]; omega)
        rw [hrest] at hdrain
        exact ⟨s, hs, hnil, hdrain⟩

/-- Moving entries to a ring that takes them: the newest of them are held. -/
theorem foldlM_store {entries : List (List UInt8)} (continuous : Bool) (h : Siso.Quiet r.N r.state)
    (hfits : FitsFrom r.N r.state.wtWritingCursorCache entries) :
    ∃ s c, entries.foldlM (fun t data => store bufferSize data (t.1.N.count + 1) t) (r, continuous) =
      some (⟨r.N, s⟩, c) ∧ Siso.Quiet r.N s ∧ Newest s.held (r.state.held ++ entries) := by
  induction entries generalizing r continuous with
  | nil => exact ⟨r.state, continuous, rfl, h, by rw [List.append_nil]; exact Newest.refl _⟩
  | cons data rest ih =>
    obtain ⟨hlen, hv, hrest⟩ := hfits
    obtain ⟨s, c, hs, hquiet, hnewest, hcursor⟩ := @store_of_fits bufferSize _ _ _ continuous h hlen hv
      (Nat.lt_succ_of_le h.length_held_le)
    rw [Siso.State.writeIndex] at hcursor
    rw [← hcursor] at hrest
    obtain ⟨t, c', ht, hquiet', hnewest'⟩ := ih (r := ⟨r.N, s⟩) c hquiet hrest
    refine ⟨t, c', ?_, hquiet', hnewest'.trans ?_⟩
    · rw [List.foldlM_cons, hs]
      exact ht
    · have happend := hnewest.append rest
      rwa [List.append_assoc] at happend

/-! ## Runs -/

/-- An entry of the size that `get_max_alloc_size` allows has room where the write cursor of the ring stands:
before the end of the ring or, when the blocks up to there are left out, behind its start. -/
def HasRoom (r : Ring) (data : List UInt8) : Prop :=
  let tail := Siso.tail r.N (r.state.writeIndex r.N)
  data.length ≤ Siso.getMaxAllocSize r.N ∧
    (Siso.normalBlocks data.length ≤ tail ∨ Siso.normalBlocks data.length + tail ≤ r.N.count + 1)

instance (r : Ring) (data : List UInt8) : Decidable (HasRoom r data) := by
  unfold HasRoom
  infer_instance

/-- Every entry that is stored has room, and so has every entry that is moved to a ring of another size. -/
def Meets (s : State) : Act → Prop
  | .writeData data => accepts s data = some true → ∀ r ∈ s.snapshotBuffer, HasRoom r data
  | .resetConfig config memory => ∀ r ∈ s.snapshotBuffer, Rebuilds r config.newBufferSize →
      ∀ new ∈ create config.newBufferSize memory, FitsFrom new.N 0 s.held
  | _ => True

/-- The ring takes an entry that has room. -/
theorem HasRoom.valid (h : HasRoom r data) : ¬Siso.sizeInvalid r.N (r.state.writeIndex r.N) data.length := by
  obtain ⟨hmax, hroom⟩ := h
  have hcount := r.N.count_pos
  rw [Siso.not_sizeInvalid_iff]
  rw [Siso.normalBlocks_eq] at hroom
  unfold Siso.getMaxAllocSize sub32 at hmax
  omega

/-- The invariant of the snapshot. -/
structure Inv (s : State) : Prop where
  quiet : ∀ r ∈ s.snapshotBuffer, Siso.Quiet r.N r.state
  newest : s.pending = none → Newest s.held s.accepted
  pending : ∀ data ∈ s.pending, s.held <:+ s.accepted ∧ data.length < 2 ^ 32 ∧
    ∃ r ∈ s.snapshotBuffer, ¬Siso.sizeInvalid r.N (r.state.writeIndex r.N) data.length

theorem inv_new : Inv .new where
  quiet := by
    rintro r ⟨⟩
  newest _ := .refl []
  pending := by
    rintro data ⟨⟩

variable {layout : List UInt8 → List UInt8} {s t : State}

/-- A ring of another size is made and filled, and keeps the newest entries. -/
theorem resize_of_rebuilds {continuous : Bool} {old new : Ring} (hquiet : Siso.Quiet old.N old.state)
    (hrebuild : Rebuilds old bufferSize) (hnew : create bufferSize memory = some new)
    (hfits : FitsFrom new.N 0 old.state.held) :
    ∃ t c, resize bufferSize memory continuous (some old) = some (⟨new.N, t⟩, c) ∧ Siso.Quiet new.N t ∧
      Newest t.held old.state.held := by
  have hstate := create_spec hnew
  have hinit := Siso.quiet_init new.N memory
  have hcursor : new.state.wtWritingCursorCache = 0 := congrArg Siso.State.wtWritingCursorCache hstate
  obtain ⟨s, -, -, hall⟩ := drain_eq (fun t data => store bufferSize data (t.1.N.count + 1) t) (new, continuous)
    hquiet (Nat.lt_succ_of_le hquiet.length_held_le)
  rw [← hstate] at hinit
  obtain ⟨t, c, ht, hquiet', hnewest⟩ := @foldlM_store bufferSize _ _ continuous hinit (hcursor ▸ hfits)
  rw [hstate, Siso.held_init, List.nil_append] at hnewest
  refine ⟨t, c, ?_, hquiet', hnewest⟩
  rw [resize, if_pos hrebuild, hnew, Option.bind_some, hall, ht]
  rfl

/-- **A resize keeps the newest entries.** -/
theorem resize_spec {continuous c : Bool} {buffer : Option Ring} (hquiet : ∀ r ∈ buffer, Siso.Quiet r.N r.state)
    (hfits : ∀ q ∈ buffer, Rebuilds q bufferSize → ∀ new ∈ create bufferSize memory, FitsFrom new.N 0 q.state.held)
    (h : resize bufferSize memory continuous buffer = some (r, c)) :
    Siso.Quiet r.N r.state ∧ Newest r.state.held ((buffer.map fun q => q.state.held).getD []) := by
  cases buffer with
  | none =>
    obtain ⟨q, hq, hr⟩ := Option.map_eq_some_iff.1 h
    obtain ⟨rfl, rfl⟩ := Prod.mk.injEq _ _ _ _ |>.mp hr
    have hstate := create_spec hq
    rw [hstate]
    exact ⟨Siso.quiet_init q.N memory, .refl []⟩
  | some old =>
    rw [resize] at h
    split at h
    · rename_i hrebuild
      obtain ⟨new, hnew, -⟩ := Option.bind_eq_some_iff.1 h
      obtain ⟨t, c', hresize, hquiet', hnewest⟩ :=
        resize_of_rebuilds (hquiet old rfl) hrebuild hnew (hfits old rfl hrebuild new hnew)
      rw [resize, if_pos hrebuild, h] at hresize
      obtain ⟨rfl, rfl⟩ := Prod.mk.inj (Option.some.inj hresize)
      exact ⟨hquiet', hnewest⟩
    · obtain ⟨rfl, rfl⟩ : old = r ∧ continuous = c := by simpa using h
      exact ⟨hquiet old rfl, .refl _⟩

/-- A resize returns, if the memory for a ring that it has to make is there. -/
theorem exists_resize (continuous : Bool) {buffer : Option Ring}
    (hquiet : ∀ r ∈ buffer, Siso.Quiet r.N r.state)
    (hfits : ∀ q ∈ buffer, Rebuilds q bufferSize → ∀ new ∈ create bufferSize memory, FitsFrom new.N 0 q.state.held)
    (hcreate : (∀ q ∈ buffer, Rebuilds q bufferSize) → (create bufferSize memory).isSome) :
    ∃ result, resize bufferSize memory continuous buffer = some result := by
  cases buffer with
  | none =>
    obtain ⟨new, hnew⟩ := Option.isSome_iff_exists.1 (hcreate fun q hq => by cases hq)
    exact ⟨(new, continuous), by rw [resize, hnew, Option.map_some]⟩
  | some old =>
    by_cases hrebuild : Rebuilds old bufferSize
    · obtain ⟨new, hnew⟩ := Option.isSome_iff_exists.1 (hcreate fun q hq => by cases hq; exact hrebuild)
      obtain ⟨t, c, hresize, -⟩ :=
        resize_of_rebuilds (hquiet old rfl) hrebuild hnew (hfits old rfl hrebuild new hnew)
      exact ⟨_, hresize⟩
    · exact ⟨(old, continuous), by rw [resize, if_neg hrebuild]⟩

theorem held_eq (s : State) : s.held = (s.snapshotBuffer.map fun r => r.state.held).getD [] := by
  unfold State.held
  cases s.snapshotBuffer <;> rfl

theorem held_of_some (h : s.snapshotBuffer = some r) : s.held = r.state.held := by
  rw [held_eq, h]
  rfl

/-- A reset to a size other than zero keeps the newest entries. -/
theorem Inv.resetConfig_newest (h : Inv s) {config : Config} (hsize : config.newBufferSize ≠ 0)
    (hmeets : Meets s (.resetConfig config memory)) (ht : resetConfig s config memory = some t) :
    (∀ r ∈ t.snapshotBuffer, Siso.Quiet r.N r.state) ∧ Newest t.held s.held ∧ t.pending = s.pending ∧
      t.accepted = s.accepted := by
  rw [resetConfig, if_neg hsize] at ht
  obtain ⟨⟨r, c⟩, hresize, rfl⟩ := Option.map_eq_some_iff.1 ht
  have hspec := resize_spec h.quiet (fun q hq => held_of_some hq ▸ hmeets q hq) hresize
  rw [← held_eq] at hspec
  exact ⟨fun q hq => (by cases hq; exact hspec.1), hspec.2, rfl, rfl⟩

theorem Inv.writeData (h : Inv s) (hnone : s.pending = none) (hlen : data.length < 2 ^ 32)
    (hmeets : Meets s (.writeData data)) (ht : writeData s data = some t) : Inv t := by
  unfold LogSnapshot.writeData at ht
  split at ht
  · cases ht
    exact h
  · rename_i r hr
    obtain ⟨ok, hok, ht⟩ := Option.map_eq_some_iff.1 ht
    cases ok with
    | false =>
      rw [if_neg Bool.false_ne_true] at ht
      subst ht
      exact ⟨h.quiet, h.newest, h.pending⟩
    | true =>
      rw [if_pos rfl] at ht
      subst ht
      refine ⟨h.quiet, fun hpending => (by cases hpending), ?_⟩
      rintro _ ⟨⟩
      exact ⟨(h.newest hnone).1, hlen, r, hr, (hmeets hok r hr).valid⟩

/-- A round of `write_data` ends the write, or discards the oldest entry. -/
theorem Inv.exists_writeRound (h : Inv s) (hdata : s.pending = some data) (hr : s.snapshotBuffer = some r) :
    ∃ t, writeRound s r data = some t ∧ Inv t ∧ t.snapshotBuffer.isSome ∧
      (t.pending = none ∧ t.accepted = s.accepted ++ [data] ∧ t.held = s.held ++ [data] ∨
        t.pending = some data ∧ t.accepted = s.accepted ∧ ∃ oldest, s.held = oldest :: t.held) := by
  obtain ⟨hsuffix, hlen, q, hq, hv⟩ := h.pending data hdata
  obtain rfl : r = q := Option.some.inj (hr.symm.trans hq)
  rw [held_of_some hr] at hsuffix ⊢
  unfold LogSnapshot.writeRound
  rcases @storeRound_of_fits s.bufferSize _ _ (h.quiet r hr) hlen hv with
    ⟨u, hu, hquiet, hheld, -⟩ | ⟨u, hu, hquiet, ⟨oldest, hheld⟩, hcursor⟩
  · -- The entry is stored.
    rw [hu]
    refine ⟨_, rfl, ⟨fun q hq => (by cases hq; exact hquiet), fun _ => ?_, fun data hdata => by cases hdata⟩,
      rfl, .inl ⟨rfl, rfl, hheld⟩⟩
    show Newest u.held (s.accepted ++ [data])
    rw [hheld]
    exact .of_suffix hsuffix data
  · -- The oldest entry is discarded.
    rw [hu]
    refine ⟨_, rfl, ⟨fun q hq => (by cases hq; exact hquiet), fun hnone => ?_, ?_⟩, rfl,
      .inr ⟨hdata, rfl, oldest, hheld⟩⟩
    · exact absurd (hdata.symm.trans hnone) (Option.some_ne_none data)
    · intro data' hdata'
      obtain rfl : data = data' := Option.some.inj (hdata.symm.trans hdata')
      have hindex : u.writeIndex r.N = r.state.writeIndex r.N := congrArg r.N.index hcursor
      refine ⟨List.IsSuffix.trans ?_ hsuffix, hlen, _, rfl, hindex ▸ hv⟩
      rw [hheld]
      exact List.suffix_cons oldest u.held

theorem Inv.writeRound (h : Inv s) (hdata : s.pending = some data) (hr : s.snapshotBuffer = some r)
    (ht : writeRound s r data = some t) : Inv t := by
  obtain ⟨u, hu, hinv, -⟩ := h.exists_writeRound hdata hr
  obtain rfl := Option.some.inj (ht.symm.trans hu)
  exact hinv

theorem step_round (layout : List UInt8 → List UInt8) (hdata : s.pending = some data)
    (hr : s.snapshotBuffer = some r) : step layout s .round = writeRound s r data := by
  rw [step, hdata, hr]

/-- **The loop of `write_data` ends**: every round but the last discards an entry that was held. -/
theorem Inv.exists_rounds (layout : List UInt8 → List UInt8) (h : Inv s) (hdata : s.pending = some data) :
    ∃ n ≤ s.held.length + 1, ∃ t, run (step layout) s (List.replicate n .round) = some t ∧
      t.pending = none ∧ t.accepted = s.accepted ++ [data] ∧ Newest t.held t.accepted := by
  induction hlen : s.held.length using Nat.strong_induction_on generalizing s with
  | _ k ih =>
    obtain ⟨-, -, r, hr, -⟩ := h.pending data hdata
    obtain ⟨t, ht, hinv, -, hcase⟩ := h.exists_writeRound hdata hr
    rw [← step_round layout hdata hr] at ht
    rcases hcase with ⟨hnone, haccepted, -⟩ | ⟨hsome, haccepted, oldest, hheld⟩
    · exact ⟨1, Nat.le_add_left 1 k, t, run_cons_of_step ht [], hnone, haccepted, hinv.newest hnone⟩
    · have hshort : t.held.length + 1 = k := by rw [← hlen, hheld, List.length_cons]
      obtain ⟨n, hn, u, hrun, hnone, hu, hnewest⟩ := ih _ (by omega) hinv hsome rfl
      exact ⟨n + 1, by omega, u, (run_cons_of_step ht _).trans hrun, hnone, haccepted ▸ hu, hnewest⟩

theorem Inv.takeSnapshotString (h : Inv s) (hnone : s.pending = none)
    (ht : takeSnapshotString layout s = some t) : Inv t := by
  unfold LogSnapshot.takeSnapshotString at ht
  dsimp only at ht
  split at ht
  · cases ht
    exact ⟨h.quiet, h.newest, h.pending⟩
  · rename_i r hr
    have hquiet := h.quiet r hr
    obtain ⟨u, hu, hheld, hdrain⟩ := drain_eq (fun text data => some (text ++ layout data ++ [10])) []
      hquiet (Nat.lt_succ_of_le hquiet.length_held_le)
    obtain ⟨result, hresult, ht⟩ := Option.map_eq_some_iff.1 ht
    rw [hdrain] at hresult
    obtain ⟨text, -, rfl⟩ := Option.map_eq_some_iff.1 hresult
    subst ht
    refine ⟨fun q hq => (by cases hq; exact hu), fun _ => ?_, fun data hdata => ?_⟩
    · show Newest u.held []
      rw [hheld]
      exact .refl []
    · exact absurd (hnone.symm.trans hdata) (Option.some_ne_none data).symm

/-- **Every step keeps the invariant.** -/
theorem Inv.step (h : Inv s) {a : Act} (hmeets : Meets s a) (ht : step layout s a = some t) : Inv t := by
  cases a with
  | writeData data =>
    simp only [LogSnapshot.step] at ht
    split at ht
    · rename_i hguard
      exact h.writeData hguard.1 hguard.2 hmeets ht
    · cases ht
  | round =>
    simp only [LogSnapshot.step] at ht
    split at ht
    · rename_i data r hdata hr
      exact h.writeRound hdata hr ht
    · cases ht
  | takeSnapshotString =>
    simp only [LogSnapshot.step] at ht
    split at ht
    · rename_i hnone
      exact h.takeSnapshotString hnone ht
    · cases ht
  | resetConfig config memory =>
    simp only [LogSnapshot.step] at ht
    split at ht
    · rename_i hnone
      by_cases hsize : config.newBufferSize = 0
      · rw [LogSnapshot.resetConfig, if_pos hsize] at ht
        cases ht
        exact ⟨fun r hr => (by cases hr), fun _ => .refl [], fun data hdata => (by rw [hnone] at hdata; cases hdata)⟩
      · obtain ⟨hquiet, hnewest, hpending, haccepted⟩ := h.resetConfig_newest hsize hmeets ht
        refine ⟨hquiet, fun _ => haccepted ▸ hnewest.trans (h.newest hnone), fun data hdata => ?_⟩
        rw [hpending, hnone] at hdata
        cases hdata
    · cases ht

/-- The memory of a ring that `reset_config` has to make satisfies the assertions of its constructor. -/
def Makes (s : State) (config : Config) (memory : Mem) : Prop :=
  (∀ r ∈ s.snapshotBuffer, Rebuilds r config.newBufferSize) → (create config.newBufferSize memory).isSome

/-- **A reset returns.** -/
theorem Inv.exists_resetConfig (h : Inv s) {config : Config} (hmeets : Meets s (.resetConfig config memory))
    (hmakes : Makes s config memory) : ∃ t, resetConfig s config memory = some t := by
  rw [resetConfig]
  split
  · exact ⟨_, rfl⟩
  · obtain ⟨result, hresult⟩ := exists_resize s.snapshotTextContinuous h.quiet
      (fun q hq => held_of_some hq ▸ hmeets q hq) hmakes
    exact ⟨_, by rw [hresult, Option.map_some]⟩

/-- **`take_snapshot_string` returns.** -/
theorem Inv.exists_takeSnapshotString (layout : List UInt8 → List UInt8) (h : Inv s) :
    ∃ t, LogSnapshot.takeSnapshotString layout s = some t := by
  rw [LogSnapshot.takeSnapshotString]
  cases hr : s.snapshotBuffer with
  | none => exact ⟨_, rfl⟩
  | some r =>
    have hquiet := h.quiet r hr
    obtain ⟨u, -, -, hdrain⟩ := drain_eq (fun text data => some (text ++ layout data ++ [10])) []
      hquiet (Nat.lt_succ_of_le hquiet.length_held_le)
    obtain ⟨text, htext⟩ : ∃ text, r.state.held.foldlM
        (fun text data => some (text ++ layout data ++ [10])) ([] : List UInt8) = some text :=
      ⟨_, List.foldlM_pure ..⟩
    rw [htext] at hdrain
    exact ⟨_, (congrArg (Option.map _) hdrain).trans rfl⟩

/-- **The snapshot keeps the newest entries**, in every run whose entries have room where they are stored:
between two calls the buffer holds a contiguous part of the accepted entries that ends with the latest one,
inside `write_data` a contiguous part that ends with the one before. `write_data` is over after at most one
round more than there are entries held, and the new one is held then; a reset to another size returns, and
keeps the newest of the entries that were held; `take_snapshot_string` returns. -/
theorem snapshot_newest (h : Runs (step layout) Meets .new s) :
    (s.pending = none → Newest s.held s.accepted) ∧
      (∀ data ∈ s.pending, s.held <:+ s.accepted ∧ ∃ n ≤ s.held.length + 1, ∃ t,
        run (step layout) s (List.replicate n .round) = some t ∧ t.pending = none ∧
          t.accepted = s.accepted ++ [data] ∧ Newest t.held t.accepted) ∧
      (∀ config memory, s.pending = none → config.newBufferSize ≠ 0 → Meets s (.resetConfig config memory) →
        Makes s config memory → ∃ t, step layout s (.resetConfig config memory) = some t ∧
          Newest t.held s.held) ∧
      (s.pending = none → ∃ t, step layout s .takeSnapshotString = some t) := by
  have hinv : Inv s := h.invariant inv_new fun _ _ _ hu hmeets hv => hu.step hmeets hv
  refine ⟨hinv.newest, fun data hdata => ⟨(hinv.pending data hdata).1, hinv.exists_rounds layout hdata⟩,
    fun config memory hnone hsize hmeets hmakes => ?_, fun hnone => ?_⟩
  · obtain ⟨t, ht⟩ := hinv.exists_resetConfig hmeets hmakes
    refine ⟨t, ?_, (hinv.resetConfig_newest hsize hmeets ht).2.1⟩
    rw [step, if_pos hnone, ht]
  · obtain ⟨t, ht⟩ := hinv.exists_takeSnapshotString layout
    exact ⟨t, by rw [step, if_pos hnone, ht]⟩

/-- A ring of 16 blocks, all levels and one category. -/
def smallConfig : Config := ⟨some 640, none, [true]⟩

/-- Two records are stored, a third one for which both have to go, and the ring is made larger. -/
theorem snapshot_newest_three : ∃ s t u, Runs (step fun _ => []) Meets .new s ∧
    s.pending = some (List.replicate 60 0) ∧ s.held = [List.replicate 40 0, List.replicate 60 0] ∧
    (∃ n ≤ s.held.length + 1, ∃ t, run (step fun _ => []) s (List.replicate n .round) = some t ∧
      t.pending = none ∧ t.accepted = s.accepted ++ [List.replicate 60 0] ∧ Newest t.held t.accepted) ∧
    run (step fun _ => []) s [.round, .round, .round] = some t ∧ Newest t.held t.accepted ∧
    step (fun _ => []) t (.resetConfig ⟨some 1280, none, [true]⟩ fun _ => 0) = some u ∧
    Newest u.held t.held := by
  let s₁ := (step (fun _ => []) .new (.resetConfig smallConfig fun _ => 0)).get (by decide +kernel)
  let s₂ := (step (fun _ => []) s₁ (.writeData (List.replicate 40 0))).get (by decide +kernel)
  let s₃ := (step (fun _ => []) s₂ .round).get (by decide +kernel)
  let s₄ := (step (fun _ => []) s₃ (.writeData (List.replicate 60 0))).get (by decide +kernel)
  let s₅ := (step (fun _ => []) s₄ .round).get (by decide +kernel)
  let s₆ := (step (fun _ => []) s₅ (.writeData (List.replicate 60 0))).get (by decide +kernel)
  let s₇ := (step (fun _ => []) s₆ .round).get (by decide +kernel)
  let s₈ := (step (fun _ => []) s₇ .round).get (by decide +kernel)
  let s₉ := (step (fun _ => []) s₈ .round).get (by decide +kernel)
  have hroom₁ : Meets s₁ (.writeData (List.replicate 40 0)) := fun _ =>
    show ∀ r ∈ s₁.snapshotBuffer, HasRoom r (List.replicate 40 0) by decide +kernel
  have hroom₃ : Meets s₃ (.writeData (List.replicate 60 0)) := fun _ =>
    show ∀ r ∈ s₃.snapshotBuffer, HasRoom r (List.replicate 60 0) by decide +kernel
  have hroom₅ : Meets s₅ (.writeData (List.replicate 60 0)) := fun _ =>
    show ∀ r ∈ s₅.snapshotBuffer, HasRoom r (List.replicate 60 0) by decide +kernel
  have hnew : Runs (step fun _ => []) Meets .new s₁ := Runs.tail (a := .resetConfig smallConfig fun _ => 0)
    (Runs.refl _) (fun r hr => by cases hr) (Option.some_get _).symm
  have hone : Runs (step fun _ => []) Meets .new s₃ :=
    (hnew.tail hroom₁ (Option.some_get _).symm).tail (a := .round) trivial (Option.some_get _).symm
  have htwo : Runs (step fun _ => []) Meets .new s₅ :=
    (hone.tail hroom₃ (Option.some_get _).symm).tail (a := .round) trivial (Option.some_get _).symm
  have hbegun : Runs (step fun _ => []) Meets .new s₆ := htwo.tail hroom₅ (Option.some_get _).symm
  have hround : step (fun _ => []) s₆ .round = some s₇ := (Option.some_get _).symm
  have hround' : step (fun _ => []) s₇ .round = some s₈ := (Option.some_get _).symm
  have hlast : step (fun _ => []) s₈ .round = some s₉ := (Option.some_get _).symm
  have hdiscarded : Runs (step fun _ => []) Meets .new s₇ := Runs.tail (a := .round) hbegun trivial hround
  have hempty : Runs (step fun _ => []) Meets .new s₈ := Runs.tail (a := .round) hdiscarded trivial hround'
  have hend : Runs (step fun _ => []) Meets .new s₉ := Runs.tail (a := .round) hempty trivial hlast
  obtain ⟨hnewest, -, hreset, -⟩ := snapshot_newest hend
  obtain ⟨u, hu, hkept⟩ := hreset ⟨some 1280, none, [true]⟩ (fun _ => 0)
    (by decide +kernel) (by decide +kernel)
    (show ∀ r ∈ s₉.snapshotBuffer, Rebuilds r 1280 → ∀ new ∈ create 1280 fun _ => 0, FitsFrom new.N 0 s₉.held
      by decide +kernel)
    (show (∀ r ∈ s₉.snapshotBuffer, Rebuilds r 1280) → (create 1280 fun _ => 0).isSome by decide +kernel)
  exact ⟨s₆, s₉, u, hbegun, by decide +kernel, by decide +kernel,
    ((snapshot_newest hbegun).2.1 _ (by decide +kernel)).2,
    (run_cons_of_step hround _).trans ((run_cons_of_step hround' _).trans (run_cons_of_step hlast [])),
    hnewest (by decide +kernel), hu, hkept⟩

/-- An entry of 80 bytes is dropped by an empty ring that could take 120. -/
theorem not_newest_dropped : ∃ s, run (step fun _ => []) .new
    [.resetConfig smallConfig fun _ => 0, .writeData (List.replicate 40 0), .round, .takeSnapshotString,
      .writeData (List.replicate 80 0), .round] = some s ∧
    s.pending = none ∧ s.accepted = [List.replicate 80 0] ∧ s.held = [] ∧
    ∃ r, s.snapshotBuffer = some r ∧ 80 ≤ Siso.getMaxAllocSize r.N := by
  refine ⟨(run (step fun _ => []) .new _).get (by decide +kernel), (Option.some_get _).symm, by decide +kernel,
    by decide +kernel, by decide +kernel, Option.get _ (by decide +kernel), (Option.some_get _).symm, by decide +kernel⟩

end QLog.LogSnapshot
