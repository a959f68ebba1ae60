import QLog.Buffer.Miso.Robust

/-!
# Crash and reopening of a mapped ring

A crash leaves the mapped head and blocks of a reachable state, where reachable means over any
number of lives of the ring: the ring is created, its threads take steps, it is reopened from what a
crash left. `recovery_complete` says exactly when the recovery accepts what is left and the
reader then gets the committed chunks up to the first reservation that was not committed.
-/

namespace QLog.Miso

variable {N : BlockCount} {checkSum start : ℕ} {s s' : State}

/-- What a crash leaves in the mapped file. -/
def State.image (checkSum : ℕ) (s : State) : Image := ⟨checkSum, s.readCursorCache, s.blocks⟩

/-- The states of a mapped ring over its lives. A recovery that returns false sets the ring up as a
new one. -/
inductive Reachable (N : BlockCount) (checkSum : ℕ) : ℕ → State → Prop
  | init (m : Mem) : Reachable N checkSum 0 (State.init N 0 m)
  | step {start : ℕ} {s s' : State} {a : Act} (h : Reachable N checkSum start s)
      (hok : StepOk N s a) (hs : step N s a = some s') : Reachable N checkSum start s'
  | reopen {start fuel : ℕ} {s s' : State} (h : Reachable N checkSum start s)
      (hs : tryRecover N checkSum (s.image checkSum) fuel = some (some s')) :
      Reachable N checkSum (N.index s.readCursorCache) s'

/-! ## The outcome of the recovery does not depend on the fuel -/

theorem scan_unique {m : Mem} {base f g : ℕ} {st : ScanState}
    (hf : ∀ st', scan N m base f st ≠ .running st') (hg : ∀ st', scan N m base g st ≠ .running st') :
    scan N m base f st = scan N m base g st := by
  induction f generalizing g st with
  | zero => exact absurd rfl (hf st)
  | succ f ih =>
    cases g with
    | zero => exact absurd rfl (hg st)
    | succ g =>
      rw [scan, scan]
      rw [scan] at hf hg
      cases hround : scanRound N m base st with
      | running st' =>
        rw [hround] at hf hg
        exact ih hf hg
      | accepted st' => rfl
      | rejected => rfl

theorem tryRecover_unique {img : Image} {f g : ℕ} {a b : Option State}
    (hf : tryRecover N checkSum img f = some a) (hg : tryRecover N checkSum img g = some b) :
    a = b := by
  unfold tryRecover at hf hg
  split at hf
  · rename_i hne
    rw [if_pos hne] at hg
    cases hf
    cases hg
    rfl
  · rename_i heq
    rw [if_neg heq] at hg
    simp only at hf hg
    have hscan : scan N img.blocks (N.index img.readCursorCache) f
        ⟨N.index img.readCursorCache, []⟩ = scan N img.blocks (N.index img.readCursorCache) g
        ⟨N.index img.readCursorCache, []⟩ :=
      scan_unique (by intro st' he; rw [he] at hf; cases hf)
        (by intro st' he; rw [he] at hg; cases hg)
    rw [hscan] at hf
    exact Option.some.inj (hf.symm.trans hg)

/-! ## What the image holds -/

/-- The settled reservations from the consumer's cursor on. -/
def State.chain (s : State) : List Resv :=
  (s.resv.drop s.read).takeWhile fun r => r.phase.settled

/-- What the scan walks over: nothing, when the consumer has reset the head of an invalid chunk that
its cursor has not passed yet. -/
def State.visible (s : State) : List Resv := if s.consumer.isSkipping then [] else s.chain

theorem chain_append : ∃ L, s.chain ++ L = s.resv.drop s.read ∧
    ∀ r, L[0]? = some r → r.phase.settled = false := by
  refine ⟨(s.resv.drop s.read).dropWhile fun r => r.phase.settled,
    List.takeWhile_append_dropWhile, fun r hr => ?_⟩
  have h := List.head?_dropWhile_not (fun r : Resv => r.phase.settled) (s.resv.drop s.read)
  rw [List.head?_eq_getElem?, hr] at h
  exact h

theorem getElem?_chain {k : ℕ} {r : Resv} (h : s.chain[k]? = some r) :
    s.resv[s.read + k]? = some r ∧ r.phase.settled := by
  obtain ⟨L, hL, -⟩ := chain_append (s := s)
  refine ⟨?_, List.mem_takeWhile_imp (p := fun r : Resv => r.phase.settled)
    (List.mem_of_getElem? h)⟩
  rw [← List.getElem?_drop, ← hL, List.getElem?_append_left (List.getElem?_eq_some_iff.mp h).1]
  exact h

theorem getElem?_chain_end {r : Resv} (h : s.resv[s.read + s.chain.length]? = some r) :
    r.phase.settled = false := by
  obtain ⟨L, hL, hhead⟩ := chain_append (s := s)
  refine hhead r ?_
  rw [← List.getElem?_drop, ← hL, List.getElem?_append_right le_rfl, Nat.sub_self] at h
  exact h

/-- The positions of the chain are those of the reservations. -/
theorem pos_chain (s : State) (start : ℕ) {k : ℕ} (hk : k ≤ s.chain.length) :
    s.pos start (s.read + k) = s.pos start s.read + offset (s.chain.map Resv.blocks) k := by
  induction k with
  | zero => simp
  | succ k ih =>
    have hr : s.chain[k]? = some s.chain[k] := List.getElem?_eq_getElem hk
    rw [← Nat.add_assoc, s.pos_succ start (getElem?_chain hr).1, ih (by omega),
      offset_succ (by simpa using Nat.lt_of_succ_le hk), Nat.add_assoc]
    simp

theorem ChunkOk.of_mod_eq {m : Mem} {p q : ℕ} {r : Resv} (h : ChunkOk N m p r)
    (he : p % N.count = q % N.count) : ChunkOk N m q r := by
  unfold ChunkOk at *
  rw [← he]
  exact h

theorem chainOk_of_get {m : Mem} {p : ℕ} {C : List Resv}
    (h : ∀ k r, C[k]? = some r → r.phase.settled ∧ 0 < r.blocks ∧
      ChunkOk N m (p + offset (C.map Resv.blocks) k) r) : ChainOk N m p C := by
  induction C generalizing p with
  | nil => trivial
  | cons r C ih =>
    obtain ⟨hs, hpos, hok⟩ := h 0 r rfl
    refine ⟨hs, hpos, by simpa using hok, ih fun k r' hr' => ?_⟩
    have := h (k + 1) r' hr'
    simp only [offset, List.map_cons, List.take_succ_cons, List.sum_cons, ← Nat.add_assoc] at this ⊢
    exact this

theorem chainBlocks_chain (s : State) (start : ℕ) :
    s.pos start (s.read + s.chain.length) = s.pos start s.read + chainBlocks s.chain := by
  have hlen : s.chain.length = (s.chain.map Resv.blocks).length := (List.length_map _).symm
  rw [pos_chain s start le_rfl, hlen, offset_length]
  rfl

namespace RingOk

/-- What can be passed ends inside the ring, unless the ring was recovered full. -/
theorem pos_lt_of_settledBefore (h : RingOk N start s) (hfilled : s.filled = false) {k : ℕ}
    (hk : s.released ≤ k) (hset : s.SettledBefore k) :
    s.pos start k < s.pos start s.released + N.count := by
  rcases Nat.eq_or_lt_of_le hk with rfl | hlt
  · exact Nat.lt_add_of_pos_right N.count_pos
  · obtain ⟨r, hr, hs⟩ := hset (k - 1) (by omega)
    have hroom := h.room (k - 1) r (by omega) hr (by rintro he; rw [he] at hs; cases hs)
    rw [Room, show k - 1 + 1 = k by omega] at hroom
    rcases hroom with hlt | ⟨-, hf, -⟩
    · exact hlt
    · rw [hfilled] at hf
      cases hf

theorem settledBefore_chain (h : RingOk N start s) : s.SettledBefore (s.read + s.chain.length) := by
  intro j hj
  rcases Nat.lt_or_ge j s.read with hlt | hge
  · exact h.settled j hlt
  · have hr : s.chain[j - s.read]? = some _ := List.getElem?_eq_getElem (by omega)
    obtain ⟨hr', hs⟩ := getElem?_chain hr
    rw [Nat.add_sub_cancel' hge] at hr'
    exact ⟨_, hr', hs⟩

/-- **What the scan finds in the image of a crash**: the settled chunks from the consumer's cursor
on, and then an unused block. -/
theorem visible_ok (h : RingOk N start s) (hfilled : s.filled = false) :
    ChainOk N s.blocks (s.pos start s.read % N.count) s.visible ∧
    chainBlocks s.visible < N.count ∧
    statusByte s.blocks ((s.pos start s.read % N.count + chainBlocks s.visible) % N.count) = 0 := by
  have hmod : ∀ n, (s.pos start s.read % N.count + n) % N.count =
      (s.pos start s.read + n) % N.count := fun n => Nat.mod_add_mod _ _ _
  unfold State.visible
  split
  · rename_i hsk
    refine ⟨trivial, N.count_pos, ?_⟩
    have hc := h.consumerOk
    cases hcon : s.consumer <;> simp only [hcon, Consumer.isSkipping] at hsk <;> try cases hsk
    rw [hcon] at hc
    obtain ⟨-, -, -, -, hz⟩ := hc
    rw [hmod, chainBlocks_nil, Nat.add_zero]
    exact hz
  · rename_i hsk
    have hset := h.settledBefore_chain
    have hlt := h.pos_lt_of_settledBefore hfilled (h.released_le.trans (Nat.le_add_right _ _)) hset
    have hend := chainBlocks_chain s start
    have hmono := s.pos_mono start h.released_le
    refine ⟨chainOk_of_get fun k r hr => ?_, by omega, ?_⟩
    · obtain ⟨hr', hs⟩ := getElem?_chain hr
      have hk := (List.getElem?_eq_some_iff.mp hr).1
      have hok := h.kept _ r (h.released_le.trans (Nat.le_add_right _ k)) hr'
        (.inl ⟨Nat.le_add_right _ _, fun hsk' => absurd hsk' hsk⟩)
      rw [pos_chain s start hk.le] at hok
      exact ⟨hs, h.blocks_pos _ r hr', hok.of_mod_eq (hmod _).symm⟩
    · rw [hmod, ← hend]
      rcases h.look (Nat.le_add_right _ _) hset (by simpa using hsk) (.inl hlt) with
        ⟨r, hr, hs, -⟩ | ⟨-, hz⟩
      · rw [getElem?_chain_end hr] at hs
        cases hs
      · exact hz

end RingOk

/-! ## The outcome on the image of a crash -/

section Outcome

theorem index_image (h : RingOk N start s) :
    N.index (s.image checkSum).readCursorCache = s.pos start s.read % N.count := by
  show N.index s.readCursorCache = _
  rw [h.cache, N.index_mod]

theorem tryRecover_image (h : RingOk N start s) (fuel : ℕ) :
    tryRecover N checkSum (s.image checkSum) fuel =
      match scan N s.blocks (s.pos start s.read % N.count) fuel
        ⟨(s.pos start s.read % N.count + 0) % 2 ^ 32, []⟩ with
      | .running _ => none
      | .accepted st => some (some (recovered N s.blocks (s.pos start s.read % N.count) st))
      | .rejected => some none := by
  have heq := tryRecover_eq (N := N) (show (s.image checkSum).logChecksum = checkSum from rfl) fuel
  rw [index_image h] at heq
  exact heq

/-- A chain that passes is accepted, and the recovered ring holds its chunks. -/
theorem tryRecover_passes (h : RingOk N start s) (hfilled : s.filled = false)
    (hp : ChainPasses N (s.pos start s.read % N.count) s.visible) :
    ∃ fuel, tryRecover N checkSum (s.image checkSum) fuel = some (some
      (recovered N s.blocks (s.pos start s.read % N.count)
        ⟨(s.pos start s.read % N.count + chainBlocks s.visible) % 2 ^ 32,
          s.visible.map Resv.recovered⟩)) := by
  obtain ⟨hC, hlt, hend⟩ := h.visible_ok hfilled
  obtain ⟨fuel, hscan⟩ := scan_accepts (t := 0) (A := []) (Nat.mod_lt _ N.count_pos) hC hp N.count_pos
    (by omega) fun _ => by rw [Nat.zero_add]; exact hend
  refine ⟨fuel, ?_⟩
  rw [tryRecover_image h, hscan, Nat.zero_add, List.nil_append]

theorem tryRecover_not_passes (h : RingOk N start s) (hfilled : s.filled = false)
    (hp : ¬ ChainPasses N (s.pos start s.read % N.count) s.visible) :
    ∃ fuel, tryRecover N checkSum (s.image checkSum) fuel = some none := by
  obtain ⟨hC, hlt, -⟩ := h.visible_ok hfilled
  obtain ⟨fuel, hscan⟩ := scan_rejects (t := 0) (A := []) (Nat.mod_lt _ N.count_pos) hC hp (by omega)
  exact ⟨fuel, by rw [tryRecover_image h, hscan]⟩

theorem ChainOk.map_recovered {m : Mem} {p : ℕ} {C : List Resv} (h : ChainOk N m p C) :
    ChainOk N m p (C.map Resv.recovered) := by
  induction C generalizing p with
  | nil => trivial
  | cons r C ih =>
    obtain ⟨hs, hpos, hok, hrest⟩ := h
    refine ⟨?_, by simpa using hpos, ?_, by simpa using ih hrest⟩ <;>
      cases hph : r.phase <;> simp_all [Resv.recovered, Phase.settled, ChunkOk]

@[simp] theorem chainBlocks_map_recovered (C : List Resv) :
    chainBlocks (C.map Resv.recovered) = chainBlocks C := by
  simp [chainBlocks, Function.comp_def]

/-- The ring recovered from the image of a crash. -/
theorem inv_of_visible (h : RingOk N start s) (hfilled : s.filled = false) :
    let u := recovered N s.blocks (s.pos start s.read % N.count)
      ⟨(s.pos start s.read % N.count + chainBlocks s.visible) % 2 ^ 32,
        s.visible.map Resv.recovered⟩
    Inv N (s.pos start s.read % N.count) u ∧ u.filled = false := by
  obtain ⟨hC, hlt, -⟩ := h.visible_ok hfilled
  have hbase := Nat.mod_lt (s.pos start s.read) N.count_pos
  have hcount := N.two_mul_count_le
  have hinv := inv_recovered hbase hC.map_recovered
    (by rw [chainBlocks_map_recovered]; exact hlt.le)
    (by rw [chainBlocks_map_recovered]; exact fun he => absurd he hlt.ne)
  rw [chainBlocks_map_recovered] at hinv
  refine ⟨hinv, decide_eq_false ?_⟩
  have hsub : sub32 ((s.pos start s.read % N.count + chainBlocks s.visible) % 2 ^ 32)
      (s.pos start s.read % N.count) = chainBlocks s.visible := by
    unfold sub32
    omega
  show ¬ sub32 _ _ = N.count
  rw [hsub]
  exact hlt.ne

end Outcome

/-! ## Reachable states -/

theorem step_filled {a : Act} (hs : step N s a = some s') : s'.filled = s.filled := by
  cases a with
  | alloc t size tlsRecycled =>
    simp only [step] at hs
    split at hs
    · split at hs <;> cases hs
      unfold allocCall
      simp only
      split <;> rfl
    · cases hs
  | produce t =>
    simp only [step, allocStep] at hs
    split at hs <;> try split at hs
    all_goals cases hs
    all_goals rfl
  | write t i b =>
    simp only [step] at hs
    split at hs
    · split at hs <;> cases hs
      rfl
    · cases hs
  | commit t =>
    simp only [step] at hs
    split at hs <;> cases hs
    rfl
  | readChunk =>
    simp only [step] at hs
    split at hs <;> cases hs
    rfl
  | dataTraverse =>
    simp only [step] at hs
    split at hs <;> cases hs
    rfl
  | returnReadChunk =>
    simp only [step, returnReadChunk, afterReturn] at hs
    split at hs
    · exact Option.some.inj hs ▸ rfl
    · exact Option.some.inj hs ▸ rfl
    · cases hs
  | consume =>
    simp only [step, consumerStep] at hs
    split at hs <;> try split at hs
    all_goals cases hs
    all_goals rfl

/-- **The invariant holds over all lives of the ring**, which is never recovered full. -/
theorem Reachable.inv (h : Reachable N checkSum start s) : Inv N start s ∧ s.filled = false := by
  induction h with
  | init m => exact ⟨inv_init N 0 m, rfl⟩
  | step _ hok hs ih => exact ⟨inv_step ih.1 hok hs, (step_filled hs).trans ih.2⟩
  | @reopen start fuel s s' h hs ih =>
    have hring := ih.1.toRingOk
    rw [hring.cache, N.index_mod]
    by_cases hp : ChainPasses N (s.pos start s.read % N.count) s.visible
    · obtain ⟨g, hg⟩ := tryRecover_passes hring ih.2 hp
      cases tryRecover_unique hs hg
      exact inv_of_visible hring ih.2
    · obtain ⟨g, hg⟩ := tryRecover_not_passes hring ih.2 hp
      cases tryRecover_unique hs hg

/-! ## Reading until empty -/

/-- The action is one of `read_chunk` and `return_read_chunk`. -/
def Act.isReader : Act → Bool
  | .readChunk => true
  | .returnReadChunk => true
  | .consume => true
  | _ => false

/-- Runs of the reader alone. -/
def ReaderRuns (N : BlockCount) : State → State → Prop := Runs (step N) fun _ a => a.isReader

/-- The reader, alone, gets the chunks `D` in this order and then finds the ring empty. -/
def ReadsExactly (N : BlockCount) (s : State) (D : List Delivery) : Prop :=
  (∀ u, ReaderRuns N s u → u.delivered <+: D ∧ (u.consumer = .empty → u.delivered = D)) ∧
  ∃ u, ReaderRuns N s u ∧ u.consumer = .empty

theorem stepOk_of_isReader {a : Act} (h : a.isReader) : StepOk N s a := by
  cases a <;> trivial

theorem resv_of_isReader {a : Act} (h : a.isReader) (hs : step N s a = some s') :
    s'.resv = s.resv := by
  cases a with
  | readChunk =>
    simp only [step] at hs
    split at hs <;> cases hs
    rfl
  | returnReadChunk =>
    simp only [step, returnReadChunk, afterReturn] at hs
    split at hs
    · exact Option.some.inj hs ▸ rfl
    · exact Option.some.inj hs ▸ rfl
    · cases hs
  | consume =>
    simp only [step, consumerStep] at hs
    split at hs <;> try split at hs
    all_goals cases hs
    all_goals rfl
  | _ => cases h

/-- The reader reports an empty ring only behind the last of the settled reservations. -/
theorem empty_of_isReader (h : Inv N start s) (hall : s.SettledBefore s.resv.length) {a : Act}
    (ha : a.isReader) (hs : step N s a = some s') (he : s'.consumer = .empty) :
    s'.read = s'.resv.length := by
  cases a with
  | consume =>
    cases hcon : s.consumer with
    | looking =>
      have hnone := (h.overlooksNone hcon s' hs).2 he
      have hread : s'.read = s.read := by
        simp only [step, consumerStep, hcon] at hs
        split at hs <;> cases hs <;> rfl
      rw [hread, resv_of_isReader ha hs]
      refine le_antisymm h.toRingOk.read_le ?_
      by_contra hlt
      obtain ⟨r, hr, hset⟩ := hall s.read (by omega)
      rw [hnone r hr] at hset
      cases hset
    | flushing i =>
      simp only [step, consumerStep, hcon, Option.some.injEq] at hs
      subst hs
      simp only at he
      split at he <;> cases he
    | traversing cursor =>
      simp only [step, consumerStep, hcon] at hs
      split at hs <;> cases hs <;> cases he
    | _ =>
      simp only [step, consumerStep, hcon] at hs
      cases hs <;> cases he
  | readChunk =>
    simp only [step] at hs
    split at hs <;> cases hs
    cases he
  | returnReadChunk =>
    simp only [step, returnReadChunk, afterReturn] at hs
    split at hs
    · have hs := Option.some.inj hs
      subst hs
      simp only at he
      split at he <;> cases he
    · have hs := Option.some.inj hs
      subst hs
      simp only at he
      split at he <;> cases he
    · cases hs
  | _ => cases ha

/-- A bound for the reader's steps until it finds the ring empty. -/
def State.drainLeft (N : BlockCount) (s : State) : ℕ :=
  (N.count + 12) * (s.resv.length - s.read) +
    match s.consumer with
    | .looking => 3
    | .clearing _ => 2
    | .skipping _ => 1
    | .holding _ => 2
    | .empty => 0
    | _ => 4 + s.stepsLeft N

/-- Moving over a reservation outweighs a whole flush. -/
theorem drainLeft_advance {n : ℕ} (hlt : s.read < s.resv.length) (hn : n ≤ N.count + 12) :
    (N.count + 12) * (s.resv.length - (s.read + 1)) + n ≤
      (N.count + 12) * (s.resv.length - s.read) := by
  have : s.resv.length - s.read = s.resv.length - (s.read + 1) + 1 := by omega
  rw [this, Nat.mul_succ]
  omega

/-- The reader can always go on, and comes nearer to the end. -/
theorem exists_reader_step (h : Inv N start s) (hne : s.consumer ≠ .empty) :
    ∃ a s', a.isReader ∧ step N s a = some s' ∧ s'.drainLeft N < s.drainLeft N := by
  have hring := h.toRingOk
  have hc := hring.consumerOk
  -- the steps of a flush or a traversal move neither the cursor nor the history
  have hlong : ∀ s', consumerStep N s = some s' → s'.resv = s.resv → s'.read = s.read →
      s.drainLeft N = (N.count + 12) * (s.resv.length - s.read) + (4 + s.stepsLeft N) →
      s'.drainLeft N = (N.count + 12) * (s'.resv.length - s'.read) + (4 + s'.stepsLeft N) →
      s'.drainLeft N < s.drainLeft N := by
    intro s' hs' hresv hread hd hd'
    have := hring.stepsLeft_consume hs'
    rw [hd, hd', hresv, hread]
    omega
  have hcall : s.consumer.inCall → ∃ s', consumerStep N s = some s' :=
    fun hin => Option.isSome_iff_exists.mp (consumerStep_isSome hin)
  cases hcon : s.consumer with
  | empty => exact absurd hcon hne
  | idle =>
    refine ⟨.readChunk, { s with consumer := .looking }, rfl, by simp [step, hcon], ?_⟩
    simp only [State.drainLeft, hcon]
    omega
  | looking =>
    obtain ⟨s', hs'⟩ := hcall (by rw [hcon]; rfl)
    refine ⟨.consume, s', rfl, hs', ?_⟩
    simp only [consumerStep, hcon] at hs'
    split at hs' <;> cases hs' <;> simp [State.drainLeft, hcon]
  | clearing n =>
    obtain ⟨s', hs'⟩ := hcall (by rw [hcon]; rfl)
    refine ⟨.consume, s', rfl, hs', ?_⟩
    simp only [consumerStep, hcon, Option.some.injEq] at hs'
    subst hs'
    simp [State.drainLeft, hcon]
  | skipping n =>
    rw [hcon] at hc
    obtain ⟨r, hr, -⟩ := hc
    have hadv := drainLeft_advance (N := N) (n := 3) (List.getElem?_eq_some_iff.mp hr).1 (by omega)
    obtain ⟨s', hs'⟩ := hcall (by rw [hcon]; rfl)
    refine ⟨.consume, s', rfl, hs', ?_⟩
    simp only [consumerStep, hcon, Option.some.injEq] at hs'
    subst hs'
    simp only [State.drainLeft, hcon]
    omega
  | holding handle =>
    rw [hcon] at hc
    obtain ⟨r, hr, -⟩ := hc
    have hlt := (List.getElem?_eq_some_iff.mp hr).1
    obtain ⟨s', hs'⟩ : ∃ s', returnReadChunk N s = some s' :=
      Option.isSome_iff_exists.mp (by simp [returnReadChunk, hcon])
    have hinv' := h.returnChunk hcon s' hs'
    have hle := hinv'.toRingOk.pos_read_le
    refine ⟨.returnReadChunk, s', rfl, hs', ?_⟩
    simp only [returnReadChunk, hcon, afterReturn, Option.some.injEq] at hs'
    have hread : s'.read = s.read + 1 := by rw [← hs']
    have hresv : s'.resv = s.resv := by rw [← hs']
    have hcases : s'.consumer = .flushing 0 ∨ s'.consumer = .idle := by
      rw [← hs']
      simp only
      split
      · exact .inl rfl
      · exact .inr rfl
    have hflush := drainLeft_advance (N := N) (n := N.count + 6) hlt (by omega)
    have hidle := drainLeft_advance (N := N) (n := 4) hlt (by omega)
    rcases hcases with hcon' | hcon'
    · have hun := hinv'.toRingOk.unflushed_eq (by simp [hcon'])
      simp only [State.drainLeft, State.stepsLeft, hcon, hcon', hread, hresv]
      omega
    · simp only [State.drainLeft, State.stepsLeft, hcon, hcon', hread, hresv]
      omega
  | flushing i =>
    obtain ⟨s', hs'⟩ := hcall (by rw [hcon]; rfl)
    have hlong' := hlong s' hs'
    refine ⟨.consume, s', rfl, hs', ?_⟩
    have hd : s.drainLeft N = (N.count + 12) * (s.resv.length - s.read) + (4 + s.stepsLeft N) := by
      simp only [State.drainLeft, hcon]
    simp only [consumerStep, hcon, Option.some.injEq] at hs'
    by_cases hmore : i + 1 < s.unflushed
    · rw [if_pos hmore] at hs'
      subst hs'
      exact hlong' rfl rfl hd (by simp only [State.drainLeft])
    · rw [if_neg hmore] at hs'
      subst hs'
      exact hlong' rfl rfl hd (by simp only [State.drainLeft])
  | restart =>
    obtain ⟨s', hs'⟩ := hcall (by rw [hcon]; rfl)
    have hlong' := hlong s' hs'
    refine ⟨.consume, s', rfl, hs', ?_⟩
    simp only [consumerStep, hcon, Option.some.injEq] at hs'
    subst hs'
    exact hlong' rfl rfl (by simp only [State.drainLeft, hcon]) (by simp only [State.drainLeft])
  | release =>
    obtain ⟨s', hs'⟩ := hcall (by rw [hcon]; rfl)
    have hlong' := hlong s' hs'
    refine ⟨.consume, s', rfl, hs', ?_⟩
    simp only [consumerStep, hcon, Option.some.injEq] at hs'
    subst hs'
    exact hlong' rfl rfl (by simp only [State.drainLeft, hcon]) (by simp only [State.drainLeft])
  | traversing cursor =>
    obtain ⟨s', hs'⟩ := hcall (by rw [hcon]; rfl)
    have hlong' := hlong s' hs'
    refine ⟨.consume, s', rfl, hs', ?_⟩
    simp only [consumerStep, hcon] at hs'
    have hd : s.drainLeft N = (N.count + 12) * (s.resv.length - s.read) + (4 + s.stepsLeft N) := by
      simp only [State.drainLeft, hcon]
    split at hs' <;> cases hs' <;> exact hlong' rfl rfl hd (by simp only [State.drainLeft])

theorem exists_readerRuns_empty (h : Inv N start s) : ∃ u, ReaderRuns N s u ∧ u.consumer = .empty := by
  induction hn : s.drainLeft N using Nat.strong_induction_on generalizing s with
  | h n ih =>
    by_cases hne : s.consumer = .empty
    · exact ⟨s, Runs.refl s, hne⟩
    · obtain ⟨a, s', ha, hs', hlt⟩ := exists_reader_step h hne
      obtain ⟨u, hu, he⟩ := ih _ (hn ▸ hlt) (inv_step h (stepOk_of_isReader ha) hs') rfl
      exact ⟨u, ((Runs.refl s).tail ha hs').trans hu, he⟩

/-- **A ring whose reservations are all settled is read completely**, in order. -/
theorem readsExactly_of_settled (h : Inv N start s) (hall : s.SettledBefore s.resv.length)
    (hidle : s.consumer = .idle) :
    ReadsExactly N s (s.resv.filterMap Resv.delivery) := by
  refine ⟨fun u hu => ?_, exists_readerRuns_empty h⟩
  have hu' : Inv N start u ∧ u.resv = s.resv ∧ (u.consumer = .empty → u.read = u.resv.length) := by
    refine Runs.invariant (I := fun v => Inv N start v ∧ v.resv = s.resv ∧
      (v.consumer = .empty → v.read = v.resv.length)) hu ⟨h, rfl, by simp [hidle]⟩ ?_
    rintro v w a ⟨hv, hresv, -⟩ ha hstep
    refine ⟨inv_step hv (stepOk_of_isReader ha) hstep, (resv_of_isReader ha hstep).trans hresv, ?_⟩
    refine empty_of_isReader hv ?_ ha hstep
    intro j hj
    rw [hresv] at hj ⊢
    exact hall j hj
  obtain ⟨hinv, hresv, hempty⟩ := hu'
  rw [hinv.delivered, hresv]
  refine ⟨(List.take_prefix _ _).filterMap _, fun he => ?_⟩
  have hpassed : u.passed = s.resv.length := by
    simp only [State.passed, he, Consumer.isHolding]
    rw [← hresv]
    exact hempty he
  rw [hpassed, List.take_length]

/-! ## Completeness -/

/-- The recovery returns true, and the reader then gets the committed chunks from the persisted read
cursor up to the first reservation that is not settled. -/
def RecoversAll (N : BlockCount) (checkSum : ℕ) (s : State) : Prop :=
  ∃ fuel u, tryRecover N checkSum (s.image checkSum) fuel = some (some u) ∧
    ReadsExactly N u (s.chain.filterMap Resv.delivery)

theorem filterMap_map_recovered (C : List Resv) :
    (C.map Resv.recovered).filterMap Resv.delivery = C.filterMap Resv.delivery := by
  rw [List.filterMap_map]
  exact List.filterMap_congr fun r _ => Resv.recovered_delivery

/-- The ring recovered from a chain that passes is read as that chain. -/
theorem readsExactly_of_visible (h : RingOk N start s) (hfilled : s.filled = false) :
    ReadsExactly N (recovered N s.blocks (s.pos start s.read % N.count)
      ⟨(s.pos start s.read % N.count + chainBlocks s.visible) % 2 ^ 32,
        s.visible.map Resv.recovered⟩) (s.visible.filterMap Resv.delivery) := by
  have hC := (h.visible_ok hfilled).1.map_recovered
  rw [← filterMap_map_recovered]
  refine readsExactly_of_settled (inv_of_visible h hfilled).1 (fun j hj => ?_) rfl
  have hr : (s.visible.map Resv.recovered)[j]? = some _ := List.getElem?_eq_getElem hj
  exact ⟨_, hr, (hC.get hr).1⟩

theorem ReadsExactly.unique {D D' : List Delivery} (h : ReadsExactly N s D)
    (h' : ReadsExactly N s D') : D = D' := by
  obtain ⟨u, hu, he⟩ := h.2
  exact ((h.1 u hu).2 he).symm.trans ((h'.1 u hu).2 he)

/-- **Completeness of the recovery**: for every reachable state, the image that a crash leaves is
accepted and read as the claim demands iff every chunk in it passes the tests of the scan and the
crash did not hit the consumer between the two stores that skip an invalid chunk in front of a
committed one. -/
theorem recovery_complete (N : BlockCount) (checkSum start : ℕ) (s : State)
    (h : Reachable N checkSum start s) :
    RecoversAll N checkSum s ↔
      ChainPasses N (s.pos start s.read % N.count) s.visible ∧
      (s.consumer.isSkipping → ∀ r ∈ s.chain, r.delivery = none) := by
  obtain ⟨hinv, hfilled⟩ := h.inv
  have hring := hinv.toRingOk
  have hread := readsExactly_of_visible hring hfilled
  have hskip : s.consumer.isSkipping = false → s.visible = s.chain := by
    intro hsk
    simp [State.visible, hsk]
  constructor
  · rintro ⟨fuel, u, hu, hreads⟩
    by_cases hp : ChainPasses N (s.pos start s.read % N.count) s.visible
    · obtain ⟨g, hg⟩ := tryRecover_passes hring hfilled hp
      cases tryRecover_unique hu hg
      refine ⟨hp, fun hsk => ?_⟩
      have hD := hreads.unique hread
      rw [State.visible, if_pos hsk, List.filterMap_nil] at hD
      exact List.filterMap_eq_nil_iff.mp hD
    · obtain ⟨g, hg⟩ := tryRecover_not_passes hring hfilled hp
      cases tryRecover_unique hu hg
  · rintro ⟨hp, hsk⟩
    obtain ⟨fuel, hfuel⟩ := tryRecover_passes hring hfilled hp
    refine ⟨fuel, _, hfuel, ?_⟩
    cases hb : s.consumer.isSkipping with
    | false =>
      rw [← hskip hb]
      exact hread
    | true =>
      have hnil : s.chain.filterMap Resv.delivery = s.visible.filterMap Resv.delivery := by
        rw [List.filterMap_eq_nil_iff.mpr (hsk hb), State.visible, if_pos hb, List.filterMap_nil]
      rw [hnil]
      exact hread

theorem reachable_of_run {as : List Act} (h : Reachable N checkSum start s)
    (hrun : run (guarded (step N) (StepOk N)) s as = some s') : Reachable N checkSum start s' :=
  Runs.invariant (I := Reachable N checkSum start) (Runs.of_run_guarded hrun) h
    fun _ _ _ hu hok ha => hu.step hok ha

/-- Two threads reserve a block each; the first commits, the second is still writing. -/
def halfCommitted : List Act :=
  [.alloc 0 2 false, .produce 0, .produce 0, .produce 0, .alloc 1 1 false, .produce 1, .produce 1,
    .produce 1, .produce 0, .produce 0, .write 0 0 5, .write 0 1 6, .commit 0, .produce 1, .produce 1]

theorem recovery_complete_halfCommitted :
    ∃ s, run (guarded (step ⟨4, by decide⟩) (StepOk ⟨4, by decide⟩))
      (State.init ⟨4, by decide⟩ 0 fun _ => 0) halfCommitted = some s ∧
    s.chain.filterMap Resv.delivery = [⟨2, [5, 6]⟩] ∧ RecoversAll ⟨4, by decide⟩ 0 s := by
  refine ⟨(run (guarded (step ⟨4, by decide⟩) (StepOk ⟨4, by decide⟩))
    (State.init ⟨4, by decide⟩ 0 fun _ => 0) halfCommitted).get (by decide +kernel),
    (Option.some_get _).symm, by decide +kernel, ?_⟩
  refine (recovery_complete ⟨4, by decide⟩ 0 0 _ (reachable_of_run (.init fun _ => 0)
    (Option.some_get (by decide +kernel)).symm)).mpr ⟨by decide +kernel, by decide +kernel⟩

/-- On sixteen blocks: a chunk of eight blocks is written, read and released; a reservation of
thirteen blocks runs over the end and is left behind as invalid; a chunk of one block is committed
behind it. -/
def overEnd : List Act :=
  [.alloc 0 1016 false, .produce 0, .produce 0, .produce 0, .produce 0, .produce 0, .produce 0,
    .commit 0, .readChunk, .consume, .returnReadChunk, .consume, .consume, .consume, .consume,
    .consume, .consume, .consume, .consume, .consume, .consume,
    .alloc 0 1656 false, .produce 0, .produce 0, .produce 0, .produce 0, .produce 0, .produce 0,
    .produce 0, .produce 0,
    .alloc 1 1 false, .produce 1, .produce 1, .produce 1, .produce 1, .produce 1, .produce 1,
    .write 1 0 7, .commit 1]

theorem overEnd_not_recovered : ∃ s, Reachable ⟨4, by decide⟩ 0 0 s ∧
    s.chain.filterMap Resv.delivery = [⟨1, [7]⟩] ∧ ¬ RecoversAll ⟨4, by decide⟩ 0 s := by
  refine ⟨(run (guarded (step ⟨4, by decide⟩) (StepOk ⟨4, by decide⟩))
    (State.init ⟨4, by decide⟩ 0 fun _ => 0) overEnd).get (by decide +kernel),
    reachable_of_run (.init fun _ => 0) (Option.some_get (by decide +kernel)).symm,
    by decide +kernel, ?_⟩
  rintro ⟨fuel, u, hu, -⟩
  have hfalse : (tryRecover ⟨4, by decide⟩ 0 (State.image 0 ((run (guarded (step ⟨4, by decide⟩)
      (StepOk ⟨4, by decide⟩)) (State.init ⟨4, by decide⟩ 0 fun _ => 0) overEnd).get
      (by decide +kernel))) 1).map Option.isSome = some false := by decide +kernel
  rw [Option.map_eq_some_iff] at hfalse
  obtain ⟨o, ho, hnone⟩ := hfalse
  cases tryRecover_unique hu ho
  cases hnone

end QLog.Miso
