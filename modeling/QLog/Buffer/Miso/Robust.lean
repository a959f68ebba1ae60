import QLog.Buffer.Miso.Recovery

/-!
# Recovery from arbitrary images

The mapped image may hold any bytes. `recovery_robust` says when the scan terminates, namely unless
a chain of chunks that pass leads to an invalid head without blocks, and that on the ring of an
accepted image every later call of the consumer takes a bounded number of its steps and hands out
payload ranges inside the block array only, whatever the producers do meanwhile. Left out are images
whose chain fills the ring and never makes the consumer flush (`Wraps`): there the consumer comes
round to its first chunk again and runs ahead of the producers.
-/

namespace QLog.Miso

variable {N : BlockCount} {start : ℕ} {s s' : State}

/-! ## Termination of the consumer's calls -/

/-- The action begins or ends a call of the consumer. -/
def Act.isCall : Act → Bool
  | .readChunk => true
  | .returnReadChunk => true
  | .dataTraverse => true
  | _ => false

/-- The consumer is inside a call. -/
def Consumer.inCall : Consumer → Bool
  | .idle => false
  | .holding _ => false
  | .empty => false
  | _ => true

/-- An upper bound for the steps of the consumer until its call returns. -/
def State.stepsLeft (N : BlockCount) (s : State) : ℕ :=
  let ahead := N.count - sub32 s.readCursorCache s.readCursor
  match s.consumer with
  | .looking => 3 * ahead + 1
  | .clearing _ => 3 * ahead
  | .skipping _ => 3 * ahead - 1
  | .flushing i => s.unflushed - i + 2
  | .restart => 2
  | .release => 1
  | .traversing cursor => N.count - sub32 cursor s.readCursor
  | _ => 0

theorem consumerStep_isSome (h : s.consumer.inCall) : (consumerStep N s).isSome := by
  cases hcon : s.consumer with
  | idle => simp [hcon, Consumer.inCall] at h
  | holding handle => simp [hcon, Consumer.inCall] at h
  | empty => simp [hcon, Consumer.inCall] at h
  | looking =>
    simp only [consumerStep, hcon]
    split <;> rfl
  | traversing cursor =>
    simp only [consumerStep, hcon]
    split <;> rfl
  | clearing n => simp [consumerStep, hcon]
  | skipping n => simp [consumerStep, hcon]
  | flushing i => simp [consumerStep, hcon]
  | restart => simp [consumerStep, hcon]
  | release => simp [consumerStep, hcon]

namespace RingOk

theorem sub32_cache (h : RingOk N start s) : sub32 s.readCursorCache s.readCursor =
    s.pos start s.read - s.pos start s.released := by
  rw [h.cache, h.readCursor]
  exact h.sub32_pos le_rfl h.released_le h.read_le

theorem stepsLeft_le (h : RingOk N start s) : s.stepsLeft N ≤ 3 * N.count + 1 := by
  have hcount := N.count_pos
  have hle := h.pos_read_le
  unfold State.stepsLeft
  simp only
  cases hcon : s.consumer with
  | flushing i =>
    simp only
    have := h.unflushed_eq (by simp [hcon])
    omega
  | _ =>
    simp only
    omega

/-- **Every step of the consumer brings its call nearer to the return.** -/
theorem stepsLeft_consume (h : RingOk N start s) (hs : consumerStep N s = some s') :
    s'.stepsLeft N < s.stepsLeft N := by
  have hle := h.pos_read_le
  have hsub := h.sub32_cache
  -- an invalid chunk at the cursor has a block, so it lies inside the ring
  have hahead : ∀ r, s.resv[s.read]? = some r → r.phase = .invalid →
      s.pos start s.read + r.blocks ≤ s.pos start s.released + N.count ∧ 0 < r.blocks := by
    intro r hr hinv
    have hend := h.pos_succ_le h.released_le hr (by rw [hinv]; nofun)
    rw [s.pos_succ start hr] at hend
    exact ⟨hend, h.blocks_pos _ r hr⟩
  have hmono := s.pos_mono start h.released_le
  have hc := h.consumerOk
  cases hcon : s.consumer with
  | idle => simp [consumerStep, hcon] at hs
  | holding handle => simp [consumerStep, hcon] at hs
  | empty => simp [consumerStep, hcon] at hs
  | looking =>
    simp only [consumerStep, hcon] at hs
    split at hs <;> cases hs <;> simp [State.stepsLeft, hcon]
  | clearing n =>
    rw [hcon] at hc
    obtain ⟨r, hr, hinv, -⟩ := hc
    have := hahead r hr hinv
    simp only [consumerStep, hcon, Option.some.injEq] at hs
    subst hs
    simp only [State.stepsLeft, hcon, hsub]
    omega
  | skipping n =>
    rw [hcon] at hc
    obtain ⟨r, hr, hinv, rfl, -⟩ := hc
    have := hahead r hr hinv
    have hsub' : sub32 (add32 s.readCursorCache r.blocks) s.readCursor =
        s.pos start s.read + r.blocks - s.pos start s.released := by
      rw [h.cache, h.readCursor, add32_mod, ← s.pos_succ start hr]
      exact h.sub32_pos le_rfl (Nat.le_succ_of_le h.released_le)
        (List.getElem?_eq_some_iff.mp hr).1
    simp only [consumerStep, hcon, Option.some.injEq] at hs
    subst hs
    simp only [State.stepsLeft, hcon, hsub, hsub']
    omega
  | flushing i =>
    rw [hcon] at hc
    have hun := h.unflushed_eq (by simp [hcon])
    have hi := hc.1
    have hleft : s.stepsLeft N = s.unflushed - i + 2 := by simp only [State.stepsLeft, hcon]
    simp only [consumerStep, hcon, Option.some.injEq] at hs
    by_cases hmore : i + 1 < s.unflushed
    · rw [if_pos hmore] at hs
      subst hs
      show s.unflushed - (i + 1) + 2 < _
      omega
    · rw [if_neg hmore] at hs
      subst hs
      show 2 < _
      omega
  | restart =>
    simp only [consumerStep, hcon, Option.some.injEq] at hs
    subst hs
    simp [State.stepsLeft, hcon]
  | release =>
    simp only [consumerStep, hcon, Option.some.injEq] at hs
    subst hs
    simp [State.stepsLeft, hcon]
  | traversing cursor =>
    have hleft : s.stepsLeft N = N.count - sub32 cursor s.readCursor := by
      simp only [State.stepsLeft, hcon]
    have hin : ∀ k, s.released ≤ k → s.SettledBefore k → cursor = s.pos start k % 2 ^ 32 →
        sub32 cursor s.readCursor = s.pos start k - s.pos start s.released := by
      intro k hk hset hcur
      rw [hcur, h.readCursor]
      exact h.sub32_pos le_rfl hk hset.le_length
    have hpos : 0 < N.count - sub32 cursor s.readCursor := by
      rw [hcon] at hc
      obtain ⟨k, hk, hset, hcur, hlt⟩ := hc
      have hsubk := hin k hk hset hcur
      have hkmono := s.pos_mono start hk
      rw [hsubk]
      omega
    simp only [consumerStep, hcon] at hs
    split at hs
    · cases hs
      rw [hleft]
      exact hpos
    · rename_i hgo
      rw [not_or] at hgo
      cases hs
      rcases h.traverse hcon with ⟨k, r, hk, hset, hcur, hr, hsr, hchunk⟩ | hun
      · have hnext : add32 cursor (getBlockNum s.blocks (N.index cursor)) =
            s.pos start (k + 1) % 2 ^ 32 := by
          rw [hcur, N.index_mod, hchunk.getBlockNum_eq hsr, add32_mod, s.pos_succ start hr]
        have hsub' := h.sub32_pos le_rfl (show s.released ≤ k + 1 by omega)
          (List.getElem?_eq_some_iff.mp hr).1
        have hblocks := h.blocks_pos k r hr
        have hsucc := s.pos_succ start hr
        have hkmono := s.pos_mono start hk
        have hcurrent := hin k hk hset hcur
        rw [hleft]
        simp only [State.stepsLeft]
        rw [hnext, h.readCursor] at hgo ⊢
        rw [h.readCursor] at hcurrent
        omega
      · exact absurd hun hgo.1

end RingOk

/-- The producers' steps do not move the consumer. -/
theorem stepsLeft_of_producer {a : Act} (hs : step N s a = some s') (hc : a.isCall = false)
    (hne : a ≠ .consume) : s'.stepsLeft N = s.stepsLeft N := by
  have hframe : s'.consumer = s.consumer ∧ s'.readCursor = s.readCursor ∧
      s'.readCursorCache = s.readCursorCache ∧
      s'.readCursorStartCache = s.readCursorStartCache := by
    cases a with
    | alloc t size tlsRecycled =>
      simp only [step] at hs
      split at hs
      · split at hs <;> cases hs
        unfold allocCall
        simp only
        split <;> exact ⟨rfl, rfl, rfl, rfl⟩
      · cases hs
    | produce t =>
      simp only [step, allocStep] at hs
      split at hs <;> try split at hs
      all_goals cases hs
      all_goals exact ⟨rfl, rfl, rfl, rfl⟩
    | write t i b =>
      simp only [step] at hs
      split at hs
      · split at hs <;> cases hs
        exact ⟨rfl, rfl, rfl, rfl⟩
      · cases hs
    | commit t =>
      simp only [step] at hs
      split at hs <;> cases hs
      exact ⟨rfl, rfl, rfl, rfl⟩
    | readChunk => cases hc
    | returnReadChunk => cases hc
    | dataTraverse => cases hc
    | consume => exact absurd rfl hne
  obtain ⟨hcon, hrc, hcache, hsc⟩ := hframe
  simp only [State.stepsLeft, State.unflushed, hcon, hrc, hcache, hsc]

/-- **A call of the consumer takes a bounded number of its steps**, however they are interleaved with
those of the producers. -/
theorem count_consume_le (h : Inv N start s) {as : List Act}
    (hrun : run (guarded (step N) (StepOk N)) s as = some s') (hno : ∀ a ∈ as, a.isCall = false) :
    as.count .consume ≤ s.stepsLeft N := by
  induction as generalizing s with
  | nil => exact Nat.zero_le _
  | cons a as ih =>
    rw [run_cons, Option.bind_eq_some_iff] at hrun
    obtain ⟨u, hu, hrest⟩ := hrun
    unfold guarded at hu
    split at hu
    · rename_i hok
      have hinv := inv_step h hok hu
      have hle := ih hinv hrest fun b hb => hno b (List.mem_cons_of_mem _ hb)
      by_cases ha : a = .consume
      · subst ha
        have := h.toRingOk.stepsLeft_consume hu
        rw [List.count_cons_self]
        omega
      · rw [List.count_cons_of_ne ha]
        rwa [stepsLeft_of_producer hu (hno a List.mem_cons_self) ha] at hle
    · cases hu

/-! ## Payload ranges -/

/-- The consumer hands out payload ranges inside the block array only. -/
theorem RingOk.payloadRange_le (h : RingOk N start s) {a size : ℕ}
    (hp : s.payloadRange N = some (a, size)) : a + size ≤ 128 * N.count := by
  have hused : ∀ {k : ℕ} {r : Resv}, r.phase.settled → ChunkOk N s.blocks (s.pos start k) r →
      (if status s.blocks (s.pos start k % N.count) = some .used then
        some (dataAddr (s.pos start k % N.count), dataSize s.blocks (s.pos start k % N.count))
      else none) = some (a, size) → a + size ≤ 128 * N.count := by
    intro k r hs hchunk he
    cases hph : r.phase with
    | reserved => simp [hph, Phase.settled] at hs
    | granted => simp [hph, Phase.settled] at hs
    | invalid => simp [(hchunk.status_invalid hph).1] at he
    | committed payload =>
      obtain ⟨hst, -, hsize, -, hrange⟩ := hchunk.status_committed hph
      simp only [hst, hsize, if_true, Option.some.injEq, Prod.mk.injEq] at he
      rw [← he.1, ← he.2]
      exact hrange
  unfold State.payloadRange at hp
  simp only at hp
  split at hp
  · rename_i hcon
    rw [h.readBlock_eq] at hp
    rcases h.look le_rfl h.settled (by rw [hcon]; rfl) (.inr ⟨rfl, by rw [hcon]; rfl⟩) with
      ⟨r, -, hs, hchunk⟩ | ⟨-, hz⟩
    · exact hused hs hchunk hp
    · simp [status_of_byte_zero hz] at hp
  · rename_i cursor hcon
    rcases h.traverse hcon with ⟨k, r, -, -, hcur, -, hs, hchunk⟩ | hun
    · rw [hcur, N.index_mod] at hp
      exact hused hs hchunk hp
    · simp [hun] at hp
  · cases hp

/-! ## Robustness -/

/-- Every later call of the consumer, interleaved with any producers, is never blocked, returns after
at most `3 * N + 1` of its steps, and touches blocks and payload ranges of the block array only. -/
def LaterCallsSafe (N : BlockCount) (s : State) : Prop :=
  ∀ u, Runs (step N) (StepOk N) s u →
    (u.consumer.inCall → (consumerStep N u).isSome) ∧
    (∀ as v, run (guarded (step N) (StepOk N)) u as = some v → (∀ a ∈ as, a.isCall = false) →
      as.count .consume ≤ 3 * N.count + 1) ∧
    u.readBlock N < N.count ∧
    (∀ cursor, u.consumer = .traversing cursor → N.index cursor < N.count) ∧
    ∀ a size, u.payloadRange N = some (a, size) → a + size ≤ 128 * N.count

theorem Inv.laterCallsSafe (h : Inv N start s) : LaterCallsSafe N s := by
  intro u hu
  have hinv := h.runs hu
  exact ⟨consumerStep_isSome, fun as v hrun hno =>
    (count_consume_le hinv hrun hno).trans hinv.toRingOk.stepsLeft_le, N.index_lt _,
    fun _ _ => N.index_lt _, fun _ _ hp => hinv.toRingOk.payloadRange_le hp⟩

/-- The chain of the image fills the ring, begins with a used chunk, and no used chunk of it ends a
quarter of the ring or more behind the read cursor. -/
def Wraps (N : BlockCount) (m : Mem) (base : ℕ) : Prop :=
  ∃ C, ChainOk N m base C ∧ ChainPasses N base C ∧ chainBlocks C = N.count ∧ ¬ TightChain N C

section Image

variable {checkSum : ℕ} {img : Image}

theorem tryRecover_eq (himg : img.logChecksum = checkSum) (fuel : ℕ) :
    tryRecover N checkSum img fuel =
      match scan N img.blocks (N.index img.readCursorCache) fuel
        ⟨(N.index img.readCursorCache + 0) % 2 ^ 32, []⟩ with
      | .running _ => none
      | .accepted st => some (some (recovered N img.blocks (N.index img.readCursorCache) st))
      | .rejected => some none := by
  have hlt := N.index_lt img.readCursorCache
  have hcount := N.count_lt
  have hbase : (N.index img.readCursorCache + 0) % 2 ^ 32 = N.index img.readCursorCache := by
    rw [Nat.add_zero, Nat.mod_eq_of_lt (by omega)]
  rw [hbase]
  exact if_neg (by simp [himg])

/-- **The recovery terminates unless the scan stalls.** -/
theorem exists_tryRecover_isSome_iff (himg : img.logChecksum = checkSum) :
    (∃ fuel, (tryRecover N checkSum img fuel).isSome) ↔
      ¬ StallsFrom N img.blocks (N.index img.readCursorCache) 0 := by
  have hlt := N.index_lt img.readCursorCache
  constructor
  · rintro ⟨fuel, hsome⟩ hstall
    obtain ⟨st, hst⟩ := scan_running_of_stallsFrom hlt hstall fuel []
    rw [tryRecover_eq himg, hst] at hsome
    cases hsome
  · intro hno
    obtain ⟨fuel, hfuel⟩ := exists_scan_done hlt N.count_pos hno []
    refine ⟨fuel, ?_⟩
    rw [tryRecover_eq himg]
    cases hscan : scan N img.blocks (N.index img.readCursorCache) fuel
        ⟨(N.index img.readCursorCache + 0) % 2 ^ 32, []⟩ with
    | running st => exact absurd hscan (hfuel st)
    | accepted st => rfl
    | rejected => rfl

/-- What is accepted is the ring of a chain of chunks that pass. -/
theorem chain_of_tryRecover (himg : img.logChecksum = checkSum) {fuel : ℕ} {s : State}
    (hs : tryRecover N checkSum img fuel = some (some s)) :
    ∃ C, ChainOk N img.blocks (N.index img.readCursorCache) C ∧
      ChainPasses N (N.index img.readCursorCache) C ∧ chainBlocks C ≤ N.count ∧
      s = recovered N img.blocks (N.index img.readCursorCache)
        ⟨(N.index img.readCursorCache + chainBlocks C) % 2 ^ 32, C⟩ := by
  rw [tryRecover_eq himg] at hs
  cases hscan : scan N img.blocks (N.index img.readCursorCache) fuel
      ⟨(N.index img.readCursorCache + 0) % 2 ^ 32, []⟩ with
  | running st => rw [hscan] at hs; cases hs
  | rejected => rw [hscan] at hs; cases hs
  | accepted st =>
    rw [hscan] at hs
    obtain ⟨C, hC, hp, -, hle, rfl, -⟩ := scan_accepted (N.index_lt _) N.count_pos hscan
    simp only [Nat.zero_add, Nat.add_zero, List.nil_append] at hC hp hle hs
    cases hs
    exact ⟨C, hC, hp, hle, rfl⟩

end Image

/-- **Robustness of the recovery**, for every image whose checksum matches. -/
theorem recovery_robust (N : BlockCount) (checkSum : ℕ) (img : Image)
    (himg : img.logChecksum = checkSum) :
    -- the scan terminates unless it stalls on an invalid head without blocks
    ((∃ fuel, (tryRecover N checkSum img fuel).isSome) ↔
      ¬ StallsFrom N img.blocks (N.index img.readCursorCache) 0) ∧
    -- and what is accepted is safe to read from then on
    (¬ Wraps N img.blocks (N.index img.readCursorCache) →
      ∀ fuel s, tryRecover N checkSum img fuel = some (some s) → LaterCallsSafe N s) := by
  refine ⟨exists_tryRecover_isSome_iff himg, fun hwraps fuel s hs => ?_⟩
  obtain ⟨C, hC, hp, hle, rfl⟩ := chain_of_tryRecover himg hs
  refine (inv_recovered (N.index_lt _) hC hle fun hfull => ?_).laterCallsSafe
  by_contra htight
  exact hwraps ⟨C, hC, hp, hfull, htight⟩

/-- Sixteen blocks, of which the first is a committed chunk with the payload `[5, 6]`. -/
def oneChunkImage : Image :=
  ⟨0, 0, fun x => if x = 0 then 1 else if x = 3 then 1 else if x = 4 then 2 else
    if x = 8 then 5 else if x = 9 then 6 else 0⟩

theorem oneChunkImage_not_wraps : ¬ Wraps ⟨4, by decide⟩ oneChunkImage.blocks
    (BlockCount.index ⟨4, by decide⟩ oneChunkImage.readCursorCache) := by
  rw [show BlockCount.index ⟨4, by decide⟩ oneChunkImage.readCursorCache = 0 by decide]
  rintro ⟨C, hC, -, hfull, -⟩
  have hchunk : ∀ {p : ℕ} {r : Resv}, r.phase.settled → ChunkOk ⟨4, by decide⟩ oneChunkImage.blocks p r →
      statusByte oneChunkImage.blocks (p % 16) ≠ 0 ∧
      getBlockNum oneChunkImage.blocks (p % 16) = r.blocks := by
    intro p r hs hok
    refine ⟨fun hz => ?_, hok.getBlockNum_eq hs⟩
    cases hph : r.phase <;> simp only [hph, Phase.settled, Bool.false_eq_true, ChunkOk] at hs hok
    · exact absurd (hz.symm.trans hok.1) (by decide)
    · exact absurd (hz.symm.trans hok.1) (by decide)
  cases C with
  | nil => exact absurd hfull (by decide)
  | cons r C =>
    obtain ⟨hs, -, hok, hrest⟩ := hC
    obtain ⟨-, hnum⟩ := hchunk hs hok
    have hone : r.blocks = 1 := hnum ▸ by decide
    cases C with
    | nil =>
      rw [chainBlocks_cons, hone] at hfull
      exact absurd hfull (by decide)
    | cons r' C' =>
      rw [hone] at hrest
      exact (hchunk hrest.1 hrest.2.2.1).1 (by decide)

theorem recovery_robust_oneChunk : ∃ s, tryRecover ⟨4, by decide⟩ 0 oneChunkImage 2 = some (some s) ∧
    s.resv = [⟨0, 2, 1, .committed [5, 6]⟩] ∧ LaterCallsSafe ⟨4, by decide⟩ s := by
  refine ⟨((tryRecover ⟨4, by decide⟩ 0 oneChunkImage 2).get (by decide +kernel)).get
    (by decide +kernel), ?_, by decide +kernel, ?_⟩
  · rw [Option.some_get, Option.some_get]
  · exact (recovery_robust ⟨4, by decide⟩ 0 oneChunkImage rfl).2 oneChunkImage_not_wraps 2 _
      (by rw [Option.some_get, Option.some_get])

/-- Sixteen blocks, of which the first has the status invalid and no blocks. -/
def stalledImage : Image := ⟨0, 0, fun x => if x = 3 then 2 else 0⟩

theorem stalledImage_runs_forever : stalledImage.logChecksum = 0 ∧
    ¬ ∃ fuel, (tryRecover ⟨4, by decide⟩ 0 stalledImage fuel).isSome := by
  refine ⟨rfl, fun h => ?_⟩
  have hno := (exists_tryRecover_isSome_iff rfl).mp h
  exact hno ⟨[], trivial, trivial, by decide, by decide, by decide⟩

end QLog.Miso
