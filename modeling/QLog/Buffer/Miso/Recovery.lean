import QLog.Buffer.Miso.Safety

/-!
# Recovery of the multi-producer ring

A model of `try_recover_from_exist_memory_map`: the scan walks the chunks of a mapped image from the
persisted read cursor on, checks each head and stops at an unused block or after a whole ring.

* `scan` executes the loop for a number of rounds; the loop terminates iff some number suffices.
* `ChainOk N m p C`: the chunks `C` lie one after the other in the memory, from position `p` on.
  The scan accepts exactly such a chain, if every chunk of it passes (`scan_accepts`,
  `scan_rejects`, `scan_accepted`).
* `inv_recovered`: the ring set up from an accepted chain satisfies the invariant.
-/

namespace QLog.Miso

variable {N : BlockCount} {m : Mem} {base : ℕ}

/-! ## The scan -/

/-- The mapped head and blocks. `read_cursor_start_cache_` is overwritten before it is read. -/
structure Image where
  logChecksum : ℕ
  readCursorCache : ℕ
  blocks : Mem

/-- The cursor of the scan, and the chunks passed. -/
structure ScanState where
  cursor : ℕ
  chunks : List Resv

/-- The outcome of the scan. -/
inductive Scan
  | running (st : ScanState)
  | accepted (st : ScanState)
  | rejected

/-- A signed 64-bit difference read as `size_t`. -/
def toSizeT (z : ℤ) : ℕ := (z % 2 ^ 64).toNat

/-- The test of the payload size of a used chunk of `n` blocks. -/
def sizeRejected (n size : ℕ) : Prop :=
  toSizeT (n * 128 - 8) < size ∨ size ≤ (if n = 1 then 0 else toSizeT (n * 128 - 128 - 8))

instance (n size : ℕ) : Decidable (sizeRejected n size) := inferInstanceAs (Decidable (_ ∨ _))

/-- The chunk at a block, as the history of the recovered ring records it. -/
def chunkAt (m : Mem) (b : ℕ) : Resv :=
  if status m b = some .used then
    ⟨0, dataSize m b, getBlockNum m b, .committed (m.slice (dataAddr b) (dataSize m b))⟩
  else ⟨0, 0, getBlockNum m b, .invalid⟩

/-- The end of a round: `total_size_parsed` against the block count. -/
def finishRound (N : BlockCount) (base : ℕ) (st : ScanState) (dataParseFinished : Bool) : Scan :=
  let total := sub32 st.cursor base
  if total = N.count then .accepted st
  else if N.count < total then .rejected
  else if dataParseFinished then .accepted st
  else .running st

/-- One round of the loop. -/
def scanRound (N : BlockCount) (m : Mem) (base : ℕ) (st : ScanState) : Scan :=
  let b := N.index st.cursor
  let n := getBlockNum m b
  let next : ScanState := ⟨add32 st.cursor n, st.chunks ++ [chunkAt m b]⟩
  match status m b with
  | some .used =>
    if N.count < b + n then .rejected
    else if sizeRejected n (dataSize m b) then .rejected
    else finishRound N base next false
  | some .invalid =>
    if N.count < N.index next.cursor + n then .rejected else finishRound N base next false
  | some .unused => finishRound N base st true
  | none => .rejected

/-- At most `fuel` rounds of the loop. -/
def scan (N : BlockCount) (m : Mem) (base : ℕ) : ℕ → ScanState → Scan
  | 0, st => .running st
  | fuel + 1, st =>
    match scanRound N m base st with
    | .running st' => scan N m base fuel st'
    | r => r

/-- The status of the blocks at the `n` cursors from `cursor` on set to unused. -/
def clearFrom (N : BlockCount) (m : Mem) (cursor n : ℕ) : Mem :=
  (List.range n).foldl (fun m i => setStatus m (N.index (cursor + i)) .unused) m

/-- The ring after an accepted scan. -/
def recovered (N : BlockCount) (m : Mem) (base : ℕ) (st : ScanState) : State where
  writeCursor := st.cursor
  readCursor := base
  readCursorCache := base
  readCursorStartCache := base
  blocks := clearFrom N m st.cursor (base + N.count - st.cursor)
  threads := fun _ => Thread.fresh
  consumer := .idle
  resv := st.chunks
  read := 0
  released := 0
  delivered := []
  filled := sub32 st.cursor base = N.count

/-- `try_recover_from_exist_memory_map` for at most `fuel` rounds of the scan: `none` while it runs,
`some none` when it returns false, `some (some s)` when it returns true and leaves the ring `s`. -/
def tryRecover (N : BlockCount) (checkSum : ℕ) (img : Image) (fuel : ℕ) : Option (Option State) :=
  if img.logChecksum ≠ checkSum then some none
  else
    let base := N.index img.readCursorCache
    match scan N img.blocks base fuel ⟨base, []⟩ with
    | .running _ => none
    | .accepted st => some (some (recovered N img.blocks base st))
    | .rejected => some none

/-! ## Chains of chunks -/

/-- The chunks lie one after the other from position `p` on. -/
def ChainOk (N : BlockCount) (m : Mem) : ℕ → List Resv → Prop
  | _, [] => True
  | p, r :: C => r.phase.settled ∧ 0 < r.blocks ∧ ChunkOk N m p r ∧ ChainOk N m (p + r.blocks) C

/-- The number of blocks of a chain. -/
def chainBlocks (C : List Resv) : ℕ := (C.map Resv.blocks).sum

@[simp] theorem chainBlocks_nil : chainBlocks [] = 0 := rfl

@[simp] theorem chainBlocks_cons (r : Resv) (C : List Resv) :
    chainBlocks (r :: C) = r.blocks + chainBlocks C := rfl

/-- The scan lets a chunk at position `p` pass. The test of an invalid chunk looks at the block
behind it. -/
def Passes (N : BlockCount) (p : ℕ) (r : Resv) : Prop :=
  match r.phase with
  | .committed _ => 0 < r.size
  | .invalid => (p + r.blocks) % N.count + r.blocks ≤ N.count
  | _ => False

instance (N : BlockCount) (p : ℕ) (r : Resv) : Decidable (Passes N p r) :=
  match h : r.phase with
  | .committed _ => decidable_of_iff (0 < r.size) (by simp [Passes, h])
  | .invalid => decidable_of_iff ((p + r.blocks) % N.count + r.blocks ≤ N.count) (by simp [Passes, h])
  | .reserved => isFalse (by simp [Passes, h])
  | .granted => isFalse (by simp [Passes, h])

/-- The scan lets every chunk of a chain from position `p` on pass. -/
def ChainPasses (N : BlockCount) : ℕ → List Resv → Prop
  | _, [] => True
  | p, r :: C => Passes N p r ∧ ChainPasses N (p + r.blocks) C

instance ChainPasses.decidable (N : BlockCount) : ∀ p C, Decidable (ChainPasses N p C)
  | _, [] => isTrue trivial
  | p, r :: C =>
    have := ChainPasses.decidable N (p + r.blocks) C
    inferInstanceAs (Decidable (Passes N p r ∧ ChainPasses N (p + r.blocks) C))

/-- A reservation as the history of the recovered ring records it. -/
def Resv.recovered (r : Resv) : Resv :=
  match r.phase with
  | .committed payload => ⟨0, r.size, r.blocks, .committed payload⟩
  | _ => ⟨0, 0, r.blocks, .invalid⟩

@[simp] theorem Resv.recovered_blocks (r : Resv) : r.recovered.blocks = r.blocks := by
  unfold Resv.recovered
  split <;> rfl

theorem Resv.recovered_delivery {r : Resv} : r.recovered.delivery = r.delivery := by
  cases hph : r.phase <;> simp [Resv.recovered, Resv.delivery, hph]

theorem sizeRejected_iff {n size : ℕ} (hn : n < 2 ^ 24) (hsize : size < 2 ^ 32) :
    ¬ sizeRejected n size ↔ 0 < n ∧ 0 < size ∧ Fits size n := by
  unfold sizeRejected toSizeT Fits
  split <;> omega

/-- The chunk found at its place in memory. -/
theorem ChunkOk.chunkAt_eq {p : ℕ} {r : Resv} (h : ChunkOk N m p r) (hs : r.phase.settled) :
    chunkAt m (p % N.count) = r.recovered := by
  cases hph : r.phase with
  | reserved => simp [hph, Phase.settled] at hs
  | granted => simp [hph, Phase.settled] at hs
  | invalid =>
    obtain ⟨hst, hnum⟩ := h.status_invalid hph
    simp [chunkAt, hst, hnum, Resv.recovered, hph]
  | committed payload =>
    obtain ⟨hst, hnum, hsize, hslice, -⟩ := h.status_committed hph
    simp [chunkAt, hst, hnum, hsize, hslice, Resv.recovered, hph]

/-! ## Rounds -/

section Rounds

variable {p t : ℕ} {A : List Resv}

theorem index_add_mod : N.index ((base + t) % 2 ^ 32) = (base + t) % N.count := N.index_mod _

/-- The end of a round, in terms of the blocks `t` passed so far. -/
theorem finishRound_eq (hbase : base < N.count) (ht : t < 2 ^ 32) (L : List Resv) (fin : Bool) :
    finishRound N base ⟨(base + t) % 2 ^ 32, L⟩ fin =
      if t = N.count then .accepted ⟨(base + t) % 2 ^ 32, L⟩
      else if N.count < t then .rejected
      else if fin then .accepted ⟨(base + t) % 2 ^ 32, L⟩
      else .running ⟨(base + t) % 2 ^ 32, L⟩ := by
  have hcount := N.count_lt
  have hsub : sub32 ((base + t) % 2 ^ 32) base = t := by
    unfold sub32
    omega
  unfold finishRound
  simp only [hsub]

/-- A round on a chunk. -/
theorem scanRound_chunk {r : Resv} (h : ChunkOk N m (base + t) r) (hs : r.phase.settled)
    (hpos : 0 < r.blocks) :
    (Passes N (base + t) r → scanRound N m base ⟨(base + t) % 2 ^ 32, A⟩ =
      finishRound N base ⟨(base + (t + r.blocks)) % 2 ^ 32, A ++ [r.recovered]⟩ false) ∧
    (¬ Passes N (base + t) r → scanRound N m base ⟨(base + t) % 2 ^ 32, A⟩ = .rejected) := by
  have hnum := h.getBlockNum_eq hs
  have hchunk := h.chunkAt_eq hs
  have hnext : add32 ((base + t) % 2 ^ 32) r.blocks = (base + (t + r.blocks)) % 2 ^ 32 := by
    rw [add32_mod, Nat.add_assoc]
  cases hph : r.phase with
  | reserved => simp [hph, Phase.settled] at hs
  | granted => simp [hph, Phase.settled] at hs
  | invalid =>
    have hst := (h.status_invalid hph).1
    simp only [Passes, hph, scanRound, index_add_mod, hst, hnum, hchunk, hnext, Nat.add_assoc]
    exact ⟨fun hp => if_neg (not_lt.mpr hp), fun hp => if_pos (not_le.mp hp)⟩
  | committed payload =>
    obtain ⟨hst, -, hsize, -⟩ := h.status_committed hph
    simp only [ChunkOk, hph] at h
    obtain ⟨-, -, -, -, hfit, hfits⟩ := h
    have hrej : sizeRejected r.blocks r.size ↔ ¬ 0 < r.size := by
      have hn : r.blocks < 2 ^ 24 := hnum ▸ getBlockNum_lt _ _
      have hlt : r.size < 2 ^ 32 := hsize ▸ dataSize_lt _ _
      rw [← not_iff_not, sizeRejected_iff hn hlt, not_not]
      exact ⟨fun hr => hr.2.1, fun hr => ⟨hpos, hr, hfits⟩⟩
    simp only [Passes, hph, scanRound, index_add_mod, hst, hnum, hsize, hchunk, hnext,
      if_neg (not_lt.mpr hfit)]
    exact ⟨fun hp => if_neg (by rw [hrej]; exact not_not.mpr hp), fun hp => if_pos (hrej.mpr hp)⟩

/-- A round on an unused block. -/
theorem scanRound_unused (h : statusByte m ((base + t) % N.count) = 0) :
    scanRound N m base ⟨(base + t) % 2 ^ 32, A⟩ =
      finishRound N base ⟨(base + t) % 2 ^ 32, A⟩ true := by
  simp only [scanRound, index_add_mod, status_of_byte_zero h]

end Rounds

/-! ## The scan of a chain -/

section Chains

variable {t : ℕ} {A C : List Resv}

/-- **A chain that passes is accepted**, with its chunks. -/
theorem scan_accepts (hbase : base < N.count) (h : ChainOk N m (base + t) C)
    (hp : ChainPasses N (base + t) C) (ht : t < N.count) (hle : t + chainBlocks C ≤ N.count)
    (hend : t + chainBlocks C < N.count →
      statusByte m ((base + (t + chainBlocks C)) % N.count) = 0) :
    ∃ fuel, scan N m base fuel ⟨(base + t) % 2 ^ 32, A⟩ =
      .accepted ⟨(base + (t + chainBlocks C)) % 2 ^ 32, A ++ C.map Resv.recovered⟩ := by
  have hcount := N.count_lt
  induction C generalizing t A with
  | nil =>
    refine ⟨1, ?_⟩
    have hround := scanRound_unused (A := A) (hend ht)
    simp only [chainBlocks_nil, Nat.add_zero] at hround
    rw [scan, hround, finishRound_eq hbase (by omega), if_neg ht.ne, if_neg (by omega)]
    simp
  | cons r C ih =>
    obtain ⟨hs, hpos, hchunk, hrest⟩ := h
    obtain ⟨hpass, hprest⟩ := hp
    rw [chainBlocks_cons] at hle hend ⊢
    have hround := (scanRound_chunk (A := A) hchunk hs hpos).1 hpass
    rw [finishRound_eq hbase (by omega)] at hround
    by_cases hfull : t + r.blocks = N.count
    · have hC : C = [] := by
        cases C with
        | nil => rfl
        | cons r' C' =>
          obtain ⟨-, hpos', -⟩ := hrest
          rw [chainBlocks_cons] at hle
          omega
      subst hC
      refine ⟨1, ?_⟩
      rw [if_pos hfull] at hround
      rw [scan, hround]
      simp
    · rw [if_neg hfull, if_neg (by omega)] at hround
      rw [Nat.add_assoc] at hrest hprest
      obtain ⟨fuel, hfuel⟩ := ih (A := A ++ [r.recovered]) hrest hprest (by omega) (by omega)
        (by rw [Nat.add_assoc]; exact hend)
      refine ⟨fuel + 1, ?_⟩
      rw [scan, hround]
      simp only [Bool.false_eq_true, if_false]
      rw [hfuel, Nat.add_assoc, List.append_assoc]
      simp

/-- **A chain with a chunk that does not pass is rejected.** -/
theorem scan_rejects (hbase : base < N.count) (h : ChainOk N m (base + t) C)
    (hp : ¬ ChainPasses N (base + t) C) (hle : t + chainBlocks C ≤ N.count) :
    ∃ fuel, scan N m base fuel ⟨(base + t) % 2 ^ 32, A⟩ = .rejected := by
  have hcount := N.count_lt
  induction C generalizing t A with
  | nil => exact absurd trivial hp
  | cons r C ih =>
    obtain ⟨hs, hpos, hchunk, hrest⟩ := h
    rw [chainBlocks_cons] at hle
    have hround := scanRound_chunk (A := A) hchunk hs hpos
    by_cases hpass : Passes N (base + t) r
    · have hprest : ¬ ChainPasses N (base + t + r.blocks) C := fun hC => hp ⟨hpass, hC⟩
      have hne : C ≠ [] := by
        rintro rfl
        exact hprest trivial
      obtain ⟨r', C', rfl⟩ := List.exists_cons_of_ne_nil hne
      have hpos' := hrest.2.1
      rw [chainBlocks_cons] at hle
      rw [Nat.add_assoc] at hrest hprest
      obtain ⟨fuel, hfuel⟩ := ih (A := A ++ [r.recovered]) hrest hprest
        (by rw [chainBlocks_cons]; omega)
      refine ⟨fuel + 1, ?_⟩
      have hrun := hround.1 hpass
      rw [finishRound_eq hbase (by omega), if_neg (by omega), if_neg (by omega)] at hrun
      rw [scan, hrun]
      simpa using hfuel
    · refine ⟨1, ?_⟩
      rw [scan, hround.2 hpass]

theorem chunkAt_recovered (b : ℕ) : (chunkAt m b).recovered = chunkAt m b := by
  unfold chunkAt
  split <;> rfl

theorem status_eq_unused_iff {b : ℕ} : status m b = some .unused ↔ statusByte m b = 0 := by
  refine ⟨fun h => ?_, status_of_byte_zero⟩
  unfold status BlockStatus.ofByte at h
  split at h
  · assumption
  · split at h <;> [cases h; split at h <;> cases h]

theorem statusByte_of_status {b : ℕ} {st : BlockStatus} (h : status m b = some st) :
    statusByte m b = st.toByte := by
  unfold status BlockStatus.ofByte at h
  split at h
  · cases h
    assumption
  · split at h
    · cases h
      assumption
    · split at h <;> cases h
      assumption

/-- A used head that passes the tests of the scan is a chunk. -/
theorem chunkOk_of_used {p : ℕ} (hst : status m (p % N.count) = some .used)
    (hfit : ¬ N.count < p % N.count + getBlockNum m (p % N.count))
    (hrej : ¬ sizeRejected (getBlockNum m (p % N.count)) (dataSize m (p % N.count))) :
    (chunkAt m (p % N.count)).phase.settled ∧ 0 < (chunkAt m (p % N.count)).blocks ∧
    ChunkOk N m p (chunkAt m (p % N.count)) ∧ Passes N p (chunkAt m (p % N.count)) := by
  obtain ⟨hpos, hsize, hfits⟩ := (sizeRejected_iff (getBlockNum_lt _ _) (dataSize_lt _ _)).mp hrej
  simp only [chunkAt, hst, if_true]
  exact ⟨rfl, hpos, ⟨statusByte_of_status hst, rfl, rfl, rfl, not_lt.mp hfit, hfits⟩, hsize⟩

theorem chunkOk_of_invalid {p : ℕ} (hst : status m (p % N.count) = some .invalid) :
    (chunkAt m (p % N.count)).phase = .invalid ∧ ChunkOk N m p (chunkAt m (p % N.count)) ∧
    (chunkAt m (p % N.count)).blocks = getBlockNum m (p % N.count) := by
  have hne : ¬ status m (p % N.count) = some .used := by simp [hst]
  simp only [chunkAt, if_neg hne]
  exact ⟨trivial, ⟨statusByte_of_status hst, rfl⟩, trivial⟩

/-- The scan stands on an invalid head without blocks, which it passes in place. -/
def Stalled (N : BlockCount) (m : Mem) (p : ℕ) : Prop :=
  status m (p % N.count) = some .invalid ∧ getBlockNum m (p % N.count) = 0

/-- What a round that does not reject can find: an unused block, a chunk that passes, or a head on
which the scan stalls. -/
theorem scanRound_cases (A : List Resv)
    (h : scanRound N m base ⟨(base + t) % 2 ^ 32, A⟩ ≠ .rejected) :
    statusByte m ((base + t) % N.count) = 0 ∨ Stalled N m (base + t) ∨
    ∃ r, r.recovered = r ∧ r.phase.settled ∧ 0 < r.blocks ∧ ChunkOk N m (base + t) r ∧
      Passes N (base + t) r := by
  cases hst : status m ((base + t) % N.count) with
  | none =>
    simp only [scanRound, index_add_mod, hst] at h
    exact absurd rfl h
  | some st =>
    simp only [scanRound, index_add_mod, hst] at h
    cases st with
    | unused => exact .inl (status_eq_unused_iff.mp hst)
    | used =>
      simp only at h
      split at h
      · exact absurd rfl h
      · rename_i hfit
        split at h
        · exact absurd rfl h
        · rename_i hrej
          obtain ⟨hs, hpos, hok, hp⟩ := chunkOk_of_used hst hfit hrej
          exact .inr (.inr ⟨_, chunkAt_recovered _, hs, hpos, hok, hp⟩)
    | invalid =>
      simp only at h
      obtain ⟨hph, hok, hb⟩ := chunkOk_of_invalid hst
      rcases Nat.eq_zero_or_pos (getBlockNum m ((base + t) % N.count)) with hz | hpos
      · exact .inr (.inl ⟨hst, hz⟩)
      · refine .inr (.inr ⟨_, chunkAt_recovered _, by rw [hph]; rfl, hb ▸ hpos, hok, ?_⟩)
        split at h
        · exact absurd rfl h
        · rename_i hfit
          rw [add32_mod, N.index_mod] at hfit
          simp only [Passes, hph, hb]
          omega

/-- The scan never leaves a head on which it stalls. -/
theorem scan_stalled (hbase : base < N.count) (ht : t < N.count) (h : Stalled N m (base + t))
    (fuel : ℕ) (A : List Resv) : ∃ st, scan N m base fuel ⟨(base + t) % 2 ^ 32, A⟩ = .running st := by
  have hcount := N.count_lt
  induction fuel generalizing A with
  | zero => exact ⟨_, rfl⟩
  | succ fuel ih =>
    have hround : scanRound N m base ⟨(base + t) % 2 ^ 32, A⟩ = .running ⟨(base + t) % 2 ^ 32,
        A ++ [chunkAt m ((base + t) % N.count)]⟩ := by
      have hlt := Nat.mod_lt (base + t) N.count_pos
      simp only [scanRound, index_add_mod, h.1, h.2, add32_mod, Nat.add_zero]
      rw [if_neg (by omega), finishRound_eq hbase (by omega), if_neg ht.ne, if_neg (by omega)]
      rfl
    rw [scan, hround]
    exact ih _

/-- **What the scan accepts is a chain of chunks that all pass.** -/
theorem scan_accepted (hbase : base < N.count) (ht : t < N.count) {fuel : ℕ} {A : List Resv}
    {st : ScanState} (h : scan N m base fuel ⟨(base + t) % 2 ^ 32, A⟩ = .accepted st) :
    ∃ C, ChainOk N m (base + t) C ∧ ChainPasses N (base + t) C ∧ C.map Resv.recovered = C ∧
      t + chainBlocks C ≤ N.count ∧
      st = ⟨(base + (t + chainBlocks C)) % 2 ^ 32, A ++ C⟩ ∧
      (t + chainBlocks C < N.count →
        statusByte m ((base + (t + chainBlocks C)) % N.count) = 0) := by
  have hcount := N.count_lt
  induction fuel generalizing t A with
  | zero => cases h
  | succ fuel ih =>
    have hrej : scanRound N m base ⟨(base + t) % 2 ^ 32, A⟩ ≠ .rejected := by
      intro he
      rw [scan, he] at h
      cases h
    rcases scanRound_cases A hrej with hz | hstall | ⟨r, hrec, hs, hpos, hok, hp⟩
    · have hround := scanRound_unused (A := A) hz
      rw [finishRound_eq hbase (by omega), if_neg ht.ne, if_neg (by omega), if_pos rfl] at hround
      rw [scan, hround] at h
      cases h
      exact ⟨[], trivial, trivial, rfl, by simpa using ht.le, by simp, fun _ => by simpa using hz⟩
    · obtain ⟨st', hst'⟩ := scan_stalled hbase ht hstall (fuel + 1) A
      rw [hst'] at h
      cases h
    · have hn : r.blocks < 2 ^ 24 := hok.getBlockNum_eq hs ▸ getBlockNum_lt _ _
      have htot : t + r.blocks < 2 ^ 32 := by
        have := N.two_mul_count_le
        omega
      have hround := (scanRound_chunk (A := A) hok hs hpos).1 hp
      rw [finishRound_eq hbase htot, hrec] at hround
      split at hround
      · rename_i hfull
        rw [scan, hround] at h
        cases h
        refine ⟨[r], ⟨hs, hpos, hok, trivial⟩, ⟨hp, trivial⟩, by simp [hrec], ?_, ?_, ?_⟩
        · simpa using hfull.le
        · simp
        · intro hlt
          rw [chainBlocks_cons, chainBlocks_nil] at hlt
          omega
      · split at hround
        · exact absurd hround hrej
        · simp only [Bool.false_eq_true, if_false] at hround
          rw [scan, hround] at h
          obtain ⟨C, hC, hpC, hrecC, hle, hst, hend⟩ := ih (show t + r.blocks < N.count by omega) h
          refine ⟨r :: C, ⟨hs, hpos, hok, ?_⟩, ⟨hp, ?_⟩, by rw [List.map_cons, hrec, hrecC], ?_, ?_, ?_⟩
          · rw [Nat.add_assoc]
            exact hC
          · rw [Nat.add_assoc]
            exact hpC
          · rw [chainBlocks_cons, ← Nat.add_assoc]
            exact hle
          · rw [hst, chainBlocks_cons, ← Nat.add_assoc t, List.append_assoc]
            rfl
          · rw [chainBlocks_cons, ← Nat.add_assoc t]
            exact hend

/-! ## Termination -/

/-- A chain of chunks that pass leads to a head on which the scan stalls. -/
def StallsFrom (N : BlockCount) (m : Mem) (base t : ℕ) : Prop :=
  ∃ C, ChainOk N m (base + t) C ∧ ChainPasses N (base + t) C ∧ t + chainBlocks C < N.count ∧
    Stalled N m (base + (t + chainBlocks C))

theorem scan_running_of_stallsFrom (hbase : base < N.count) (h : StallsFrom N m base t)
    (fuel : ℕ) (A : List Resv) : ∃ st, scan N m base fuel ⟨(base + t) % 2 ^ 32, A⟩ = .running st := by
  have hcount := N.count_lt
  obtain ⟨C, hC, hp, hlt, hstall⟩ := h
  induction C generalizing t A fuel with
  | nil => exact scan_stalled hbase (by simpa using hlt) (by simpa using hstall) fuel A
  | cons r C ih =>
    cases fuel with
    | zero => exact ⟨_, rfl⟩
    | succ fuel =>
      obtain ⟨hs, hpos, hok, hrest⟩ := hC
      obtain ⟨hpass, hprest⟩ := hp
      rw [chainBlocks_cons, ← Nat.add_assoc] at hlt
      rw [chainBlocks_cons, ← Nat.add_assoc t] at hstall
      rw [Nat.add_assoc] at hrest hprest
      have hround := (scanRound_chunk (A := A) hok hs hpos).1 hpass
      rw [finishRound_eq hbase (by omega), if_neg (by omega), if_neg (by omega)] at hround
      rw [scan, hround]
      simpa using ih fuel (A ++ [r.recovered]) hrest hprest hlt hstall

theorem exists_scan_done (hbase : base < N.count) (ht : t < N.count)
    (h : ¬ StallsFrom N m base t) (A : List Resv) :
    ∃ fuel, ∀ st, scan N m base fuel ⟨(base + t) % 2 ^ 32, A⟩ ≠ .running st := by
  have hcount := N.count_lt
  induction hn : N.count - t using Nat.strong_induction_on generalizing t A with
  | h n ih =>
    by_cases hrej : scanRound N m base ⟨(base + t) % 2 ^ 32, A⟩ = .rejected
    · exact ⟨1, fun st => by rw [scan, hrej]; nofun⟩
    rcases scanRound_cases A hrej with hz | hstall | ⟨r, hrec, hs, hpos, hok, hp⟩
    · refine ⟨1, fun st => ?_⟩
      rw [scan, scanRound_unused hz, finishRound_eq hbase (by omega), if_neg ht.ne,
        if_neg (by omega)]
      simp
    · exact absurd ⟨[], trivial, trivial, by simpa using ht, by simpa using hstall⟩ h
    · have hb : r.blocks < 2 ^ 24 := hok.getBlockNum_eq hs ▸ getBlockNum_lt _ _
      have htot : t + r.blocks < 2 ^ 32 := by
        have := N.two_mul_count_le
        omega
      have hround := (scanRound_chunk (A := A) hok hs hpos).1 hp
      rw [finishRound_eq hbase htot] at hround
      split at hround
      · exact ⟨1, fun st => by rw [scan, hround]; nofun⟩
      · split at hround
        · exact absurd hround hrej
        · have hnot : ¬ StallsFrom N m base (t + r.blocks) := by
            rintro ⟨C, hC, hpC, hlt, hst⟩
            refine h ⟨r :: C, ⟨hs, hpos, hok, by rw [Nat.add_assoc]; exact hC⟩,
              ⟨hp, by rw [Nat.add_assoc]; exact hpC⟩, ?_, ?_⟩
            · rw [chainBlocks_cons, ← Nat.add_assoc]
              exact hlt
            · rw [chainBlocks_cons, ← Nat.add_assoc t]
              exact hst
          obtain ⟨fuel, hfuel⟩ := ih (N.count - (t + r.blocks)) (by omega)
            (show t + r.blocks < N.count by omega) hnot (A ++ [r.recovered]) rfl
          refine ⟨fuel + 1, fun st => ?_⟩
          rw [scan, hround]
          simpa using hfuel st

end Chains

/-! ## The recovered ring -/

section Recovered

variable {C : List Resv}

theorem clearFrom_apply (m : Mem) (cursor n : ℕ) {x : ℕ}
    (hx : ∀ i < n, x ≠ 128 * N.index (cursor + i) + 3) : clearFrom N m cursor n x = m x := by
  unfold clearFrom
  induction n with
  | zero => rfl
  | succ n ih =>
    rw [List.range_succ, List.foldl_append]
    simp only [List.foldl_cons, List.foldl_nil]
    rw [setStatus_apply_of_ne _ _ _ (hx n (Nat.lt_succ_self n))]
    exact ih fun i hi => hx i (Nat.lt_succ_of_lt hi)

theorem statusByte_clearFrom (m : Mem) (cursor : ℕ) {i n : ℕ} (hi : i < n) :
    statusByte (clearFrom N m cursor n) (N.index (cursor + i)) = 0 := by
  unfold clearFrom
  induction n with
  | zero => exact absurd hi (Nat.not_lt_zero i)
  | succ n ih =>
    rw [List.range_succ, List.foldl_append]
    simp only [List.foldl_cons, List.foldl_nil]
    by_cases hin : i = n
    · rw [hin, statusByte_setStatus_self]
      rfl
    · exact statusByte_setUnused (ih (by omega))

theorem ChainOk.get {p : ℕ} (h : ChainOk N m p C) {k : ℕ} {r : Resv} (hr : C[k]? = some r) :
    r.phase.settled ∧ 0 < r.blocks ∧ ChunkOk N m (p + offset (C.map Resv.blocks) k) r := by
  induction C generalizing p k with
  | nil => simp at hr
  | cons r' C ih =>
    obtain ⟨hs, hpos, hok, hrest⟩ := h
    cases k with
    | zero =>
      simp only [List.getElem?_cons_zero, Option.some.injEq] at hr
      subst hr
      exact ⟨hs, hpos, by simpa using hok⟩
    | succ k =>
      rw [List.getElem?_cons_succ] at hr
      have := ih hrest hr
      simp only [offset, List.map_cons, List.take_succ_cons, List.sum_cons, ← Nat.add_assoc] at this ⊢
      exact this

/-- On a chain that fills the ring some chunk makes the consumer flush, or the first chunk is one
whose head the consumer resets itself. -/
def TightChain (N : BlockCount) (C : List Resv) : Prop :=
  (∃ k r, C[k]? = some r ∧ r.phase.isCommitted ∧
    N.count >>> 2 ≤ offset (C.map Resv.blocks) (k + 1)) ∨
  ∃ r, C[0]? = some r ∧ r.phase = .invalid

/-- **The ring set up from a chain of chunks satisfies the invariant.** -/
theorem inv_recovered (hbase : base < N.count) (h : ChainOk N m base C)
    (hle : chainBlocks C ≤ N.count) (htight : chainBlocks C = N.count → TightChain N C) :
    Inv N base (recovered N m base ⟨(base + chainBlocks C) % 2 ^ 32, C⟩) := by
  have hcount := N.two_mul_count_le
  have hpos := N.count_pos
  set s := recovered N m base ⟨(base + chainBlocks C) % 2 ^ 32, C⟩ with hs
  have hcursor : (base + chainBlocks C) % 2 ^ 32 = base + chainBlocks C :=
    Nat.mod_eq_of_lt (by omega)
  have hresv : s.resv = C := rfl
  have hat : ∀ k, s.pos base k = base + offset (C.map Resv.blocks) k := fun _ => rfl
  have hend : s.pos base C.length = base + chainBlocks C := by
    rw [hat, ← List.length_map (f := Resv.blocks), offset_length]
    rfl
  have hzero : s.pos base 0 = base := s.pos_zero base
  have hlast : ∀ {k : ℕ} {r : Resv}, C[k]? = some r → s.pos base (k + 1) ≤ base + chainBlocks C := by
    intro k r hr
    rw [← hend]
    exact s.pos_mono base (List.getElem?_eq_some_iff.mp hr).1
  have hblocks : s.blocks = clearFrom N m (base + chainBlocks C)
      (base + N.count - (base + chainBlocks C)) := by
    rw [hs]
    simp only [recovered, hcursor]
  -- the scan resets what lies behind the chain, and no block of it
  have hagree : ∀ {k : ℕ} {r : Resv}, C[k]? = some r →
      AgreeOn m s.blocks (ringBlocks N.count (s.pos base k) r.blocks) := by
    rintro k r hr x ⟨i, hi, hx⟩
    have hk := hlast hr
    have hk0 := s.pos_mono base (Nat.zero_le k)
    rw [s.pos_succ base (hresv ▸ hr)] at hk
    rw [hblocks]
    refine (clearFrom_apply m _ _ fun j hj he => ?_).symm
    have hx' : x / 128 = N.index (base + chainBlocks C + j) := by omega
    rw [hx', N.index_eq_mod] at hx
    exact mod_ne_mod (show s.pos base k + i < base + chainBlocks C + j by omega) (by omega) hx.symm
  have hfilled : s.filled ↔ chainBlocks C = N.count := by
    have hsub : sub32 (base + chainBlocks C) base = chainBlocks C := by
      unfold sub32
      omega
    simp only [hs, recovered, hcursor, hsub, decide_eq_true_eq]
  refine ⟨⟨le_rfl, nofun, ?_, ?_, ?_, ?_, ?_, ?_, ?_, ?_, nofun, ?_, trivial, rfl⟩, fun t => ?_⟩
  · intro k r hr
    exact (h.get hr).2.1
  · rw [hresv, hend]
    rfl
  · show base = s.pos base 0 % 2 ^ 32
    omega
  · show base = s.pos base 0 % 2 ^ 32
    omega
  · show base = s.pos base 0 % 2 ^ 32
    omega
  · show s.pos base C.length < s.pos base 0 + 2 ^ 32
    omega
  · intro k r _ hr _
    have hk := hlast hr
    have hle' : s.pos base (k + 1) ≤ s.pos base 0 + N.count := by omega
    rcases Nat.lt_or_ge (s.pos base (k + 1)) (s.pos base 0 + N.count) with hlt | hge
    · exact .inl hlt
    · refine .inr ⟨le_antisymm hle' hge, hfilled.mpr (by omega), ?_⟩
      rcases htight (by omega) with ⟨j, r', hr', hc, hq⟩ | ⟨r', hr', hinv⟩
      · refine .inr (.inl ⟨j, r', Nat.zero_le _, hr', hc, ?_⟩)
        show _ ≤ s.pos base (j + 1) - s.pos base 0
        rw [hzero, hat, Nat.add_sub_cancel_left]
        exact hq
      · exact .inr (.inr ⟨r', hr', hinv⟩)
  · intro k r _ hr _
    obtain ⟨-, hb, hok⟩ := h.get hr
    exact ChunkOk.congr hok hb (hagree hr)
  · intro q hq hq' hun
    have hq₁ : s.pos base 0 ≤ q := hq
    have hq₂ : q < s.pos base 0 + N.count := hq'
    have hout : base + chainBlocks C ≤ q := by
      by_contra hlt
      obtain ⟨k, hk, hge, hlt'⟩ := exists_offset_le_lt
        (show q - base < (C.map Resv.blocks).sum by
          have : chainBlocks C = (C.map Resv.blocks).sum := rfl
          omega)
      rw [List.length_map] at hk
      have hr : C[k]? = some C[k] := List.getElem?_eq_getElem hk
      refine hun k C[k] (Nat.zero_le _) hr ?_ ⟨?_, ?_⟩
      · intro he
        have := (h.get hr).1
        rw [he] at this
        cases this
      · rw [hat]
        omega
      · rw [hat]
        omega
    have := statusByte_clearFrom (N := N) m (base + chainBlocks C)
      (show q - (base + chainBlocks C) < base + N.count - (base + chainBlocks C) by omega)
    rw [N.index_eq_mod, Nat.add_sub_cancel' hout] at this
    rw [hblocks]
    exact this
  · exact threadOk_fresh N hzero.ge

end Recovered

end QLog.Miso
