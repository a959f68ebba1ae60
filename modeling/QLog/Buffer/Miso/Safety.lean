import QLog.Buffer.Miso.Consumer

/-!
# Safety of the multi-producer ring

In every run whose `fetch_add`s test their room exactly (`StepOk`) the live reservations share no
block, what a producer is handed is a live reservation of its own, and the consumer is handed the
committed chunks in the order of their reservations, each once, as its producer left it
(`miso_safe`).

The condition is needed. The cursors are compared modulo `2 ^ 32`, so reservations that are not yet
taken back can carry the write cursor once around, after which the test finds room everywhere:
`miso_overlap` is such a run.
-/

namespace QLog.Miso

variable {N : BlockCount} {start : ℕ} {s : State}

/-- The reservation was granted and the consumer has not returned its blocks. -/
def State.Live (s : State) (k : ℕ) (r : Resv) : Prop :=
  s.released ≤ k ∧ s.resv[k]? = some r ∧ r.phase ≠ .reserved

/-- No two live reservations overlap. -/
def LiveDisjoint (N : BlockCount) (start : ℕ) (s : State) : Prop :=
  ∀ k l r r', k ≠ l → s.Live k r → s.Live l r' →
    Disjoint (ringBlocks N.count (s.pos start k) r.blocks)
      (ringBlocks N.count (s.pos start l) r'.blocks)

/-- What a producer holds is a live reservation of its own, large enough for what it asked for and
inside the block array. -/
def HandlesLive (N : BlockCount) (start : ℕ) (s : State) : Prop :=
  ∀ t call cursor slot flag, (s.threads t).pc = .holding call cursor slot flag →
    s.Live slot (call.resv t .granted) ∧ N.index cursor = s.pos start slot % N.count ∧
    call.size + 8 ≤ 128 * call.need ∧ N.index cursor + call.need ≤ N.count

/-- The consumer has been handed the committed chunks among the reservations that it has passed, in
their order, with the sizes asked for and the payloads committed, and passes settled reservations
only. -/
def DeliversInOrder (s : State) : Prop :=
  s.SettledBefore s.passed ∧ s.delivered = (s.resv.take s.passed).filterMap Resv.delivery

/-- A look of `read_chunk` at a committed chunk hands it out, and a look that finds nothing stands
before a reservation that is open or does not exist. -/
def OverlooksNone (N : BlockCount) (s : State) : Prop :=
  s.consumer = .looking → ∀ s', consumerStep N s = some s' →
    (∀ r d, s.resv[s.read]? = some r → r.delivery = some d → s'.delivered = s.delivered ++ [d]) ∧
    (s'.consumer = .empty → ∀ r, s.resv[s.read]? = some r → r.phase.settled = false)

namespace Inv

theorem liveDisjoint (h : Inv N start s) : LiveDisjoint N start s := by
  rintro k l r r' hne ⟨hk, hr, hg⟩ ⟨hl, hr', hg'⟩
  exact h.toRingOk.disjoint hne hk hr hg hl hr' hg'

theorem handlesLive (h : Inv N start s) : HandlesLive N start s := by
  intro t call cursor slot flag hpc
  have hpcOk := (h.threads t).pcOk
  rw [hpc] at hpcOk
  obtain ⟨hcall, hs, -, hfit, -⟩ := hpcOk
  have hread := h.settled.le_of_not_settled hs.resv rfl
  exact ⟨⟨h.released_le.trans hread, hs.resv, nofun⟩, hs.index_eq, hcall.fits.1,
    hs.index_eq (N := N) ▸ hfit⟩

theorem deliversInOrder (h : Inv N start s) : DeliversInOrder s :=
  ⟨h.toRingOk.settled_passed, h.delivered⟩

theorem overlooksNone (h : Inv N start s) : OverlooksNone N s := by
  intro hcon s' hs'
  have hring := h.toRingOk
  simp only [consumerStep, hcon, hring.readBlock_eq] at hs'
  rcases hring.look le_rfl h.settled (by rw [hcon]; rfl) (.inr ⟨rfl, by rw [hcon]; rfl⟩) with
    ⟨r, hr, hset, hchunk⟩ | ⟨hopen, hz⟩
  · cases hph : r.phase with
    | reserved => simp [hph, Phase.settled] at hset
    | granted => simp [hph, Phase.settled] at hset
    | invalid =>
      rw [(hchunk.status_invalid hph).1] at hs'
      cases hs'
      refine ⟨fun r' d hr' hd => ?_, by simp⟩
      rw [hr] at hr'
      cases hr'
      simp [Resv.delivery, hph] at hd
    | committed payload =>
      obtain ⟨hst, -, hsize, hslice, -⟩ := hchunk.status_committed hph
      rw [hst] at hs'
      cases hs'
      refine ⟨fun r' d hr' hd => ?_, by simp⟩
      rw [hr] at hr'
      cases hr'
      simp only [Resv.delivery, hph, Option.some.injEq] at hd
      rw [← hd, hsize, hslice]
  · rw [status_of_byte_zero hz] at hs'
    cases hs'
    refine ⟨fun r d hr hd => ?_, fun _ => hopen⟩
    have hset : r.phase.settled := by
      cases hph : r.phase <;> simp [Resv.delivery, hph] at hd
      rfl
    rw [hopen r hr] at hset
    cases hset

end Inv

/-- **Safety of the ring**, for every power-of-two block count, every start value of the cursors and
every interleaving of any number of producers with the consumer. -/
theorem miso_safe (N : BlockCount) (start : ℕ) (m : Mem) (s : State)
    (h : Runs (step N) (StepOk N) (State.init N start m) s) :
    LiveDisjoint N start s ∧ HandlesLive N start s ∧ DeliversInOrder s ∧ OverlooksNone N s := by
  have hinv := (inv_init N start m).runs h
  exact ⟨hinv.liveDisjoint, hinv.handlesLive, hinv.deliversInOrder, hinv.overlooksNone⟩

/-- A run of two producers and the consumer on a ring of sixteen blocks whose cursors start before
the end of the 32-bit range: a reservation that runs over the end of the ring is left behind, two
chunks are committed out of order and the first is handed out. -/
def mixedRun : List Act :=
  [.alloc 0 200 false, .produce 0, .produce 0, .produce 0, .alloc 1 1 false, .produce 1, .produce 1,
    .produce 1, .produce 1, .produce 1, .write 1 0 7, .commit 1, .produce 0, .produce 0, .produce 0,
    .produce 0, .produce 0, .commit 0, .readChunk, .consume, .consume, .consume, .consume]

theorem miso_safe_mixedRun : ∃ s, run (guarded (step ⟨4, by decide⟩) (StepOk ⟨4, by decide⟩))
      (State.init ⟨4, by decide⟩ (2 ^ 32 - 1) fun _ => 0) mixedRun = some s ∧
    s.delivered = [⟨1, [7]⟩] ∧ DeliversInOrder s := by
  refine ⟨(run (guarded (step ⟨4, by decide⟩) (StepOk ⟨4, by decide⟩))
    (State.init ⟨4, by decide⟩ (2 ^ 32 - 1) fun _ => 0) mixedRun).get (by decide +kernel),
    (Option.some_get _).symm, by decide +kernel, ?_⟩
  exact (miso_safe ⟨4, by decide⟩ (2 ^ 32 - 1) (fun _ => 0) _
    (Runs.of_run_guarded (Option.some_get (by decide +kernel)).symm)).2.2.1

/-! ## A run that goes once around -/

/-- A ring of `2 ^ 23` blocks, one gibibyte. -/
def gib : BlockCount := ⟨23, by decide⟩

/-- A call that asks for the whole ring. -/
def wholeRing : Call := ⟨2 ^ 30 - 8, 2 ^ 23, 0⟩

/-- An empty ring with `threads`, whose write cursor has moved over `resv`. -/
def around (m : Mem) (threads : ℕ → Thread) (write : ℕ) (resv : List Resv) : State where
  writeCursor := write
  readCursor := 0
  readCursorCache := 0
  readCursorStartCache := 0
  blocks := m
  threads := threads
  consumer := .idle
  resv := resv
  read := 0
  released := 0
  delivered := []
  filled := false

/-- `n` threads have loaded the cursors of the empty ring and found room for the whole ring. -/
def crowd (m : Mem) (n : ℕ) : State :=
  around m (fun t => if t < n then ⟨some 0, .reserve wholeRing, 0⟩ else Thread.fresh) 0 []

/-- Of 512 such threads the first `n` have done their `fetch_add` and found the ring full. -/
def spinning (m : Mem) (n : ℕ) : State :=
  around m
    (fun t => if t < n then ⟨some 0, .recheck wholeRing (t * 2 ^ 23) t, 0⟩
      else if t < 512 then ⟨some 0, .reserve wholeRing, 0⟩ else Thread.fresh)
    (n * 2 ^ 23) ((List.range n).map fun t => wholeRing.resv t .reserved)

theorem gib_count : gib.count = 2 ^ 23 := rfl

theorem crowd_succ (m : Mem) (n : ℕ) :
    run (step gib) (crowd m n) [.alloc n (2 ^ 30 - 8) false, .produce n, .produce n] =
      some (crowd m (n + 1)) := by
  have hth : (crowd m n).threads n = Thread.fresh := by simp [crowd, around]
  have hneed : needBlocks 1073741816 = 8388608 := by decide
  have h1 : step gib (crowd m n) (.alloc n (2 ^ 30 - 8) false) =
      some ((crowd m n).setThread n ⟨none, .loadWrite wholeRing, 0⟩) := by
    simp [step, hth, Thread.fresh, allocCall, hneed, gib_count, maxBlockNumPerChunk, wholeRing]
  have h2 : step gib ((crowd m n).setThread n ⟨none, .loadWrite wholeRing, 0⟩) (.produce n) =
      some ((crowd m n).setThread n ⟨none, .loadRead wholeRing 0, 0⟩) := by
    simp [step, allocStep, State.setThread, State.goto, crowd, around]
  have h3 : step gib ((crowd m n).setThread n ⟨none, .loadRead wholeRing 0, 0⟩) (.produce n) =
      some ((crowd m n).setThread n ⟨some 0, .reserve wholeRing, 0⟩) := by
    simp [step, allocStep, State.setThread, State.loadCopy, crowd, around, checkRoom, gib_count,
      wholeRing, State.blocksBefore, sub32, add32]
  rw [run_cons_of_step h1, run_cons_of_step h2, run_cons_of_step h3, run_nil]
  have hthreads : Function.update (crowd m n).threads n ⟨some 0, .reserve wholeRing, 0⟩ =
      (crowd m (n + 1)).threads := by
    funext t
    by_cases ht : t = n
    · subst ht
      simp [crowd, around]
    · have : t < n ↔ t < n + 1 := by omega
      simp [crowd, around, ht, this]
  simp only [State.setThread, hthreads]
  rfl

theorem spinning_succ (m : Mem) {n : ℕ} (h : n < 511) :
    step gib (spinning m n) (.produce n) = some (spinning m (n + 1)) := by
  have hth : (spinning m n).threads n = ⟨some 0, .reserve wholeRing, 0⟩ := by
    simp [spinning, around, show n < 512 by omega]
  have hnext : add32 (n * 2 ^ 23) (2 ^ 23) = (n + 1) * 2 ^ 23 := by
    unfold add32
    omega
  have hfull : 2 ^ 23 ≤ sub32 ((n + 1) * 2 ^ 23) 0 := by
    unfold sub32
    omega
  have hw : (spinning m n).writeCursor = n * 2 ^ 23 := rfl
  have hlen : (spinning m n).resv.length = n := by simp [spinning, around]
  have hresv : (spinning m n).resv ++ [wholeRing.resv n .reserved] =
      (spinning m (n + 1)).resv := by
    simp [spinning, around, List.range_succ]
  have hthreads : Function.update (spinning m n).threads n
      ⟨some 0, .recheck wholeRing (n * 2 ^ 23) n, 0⟩ = (spinning m (n + 1)).threads := by
    funext t
    by_cases ht : t = n
    · subst ht
      simp [spinning, around]
    · have : t < n ↔ t < n + 1 := by omega
      simp [spinning, around, ht, this]
  simp only [step, allocStep, hth, hw, hlen, Thread.readCursorRef, Option.getD_some,
    show wholeRing.need = 2 ^ 23 from rfl, hnext, gib_count, if_pos hfull, State.append, State.goto,
    State.setThread, hthreads]
  rw [show (spinning m n).resv ++ [⟨n, wholeRing.size, 2 ^ 23, .reserved⟩] = _ from hresv]
  rfl


theorem runs_spinning (m : Mem) {n : ℕ} (h : n ≤ 511) :
    Runs (step gib) (fun _ _ => True) (crowd m 0) (spinning m n) := by
  have hcrowd : ∀ n, Runs (step gib) (fun _ _ => True) (crowd m 0) (crowd m n) := by
    intro n
    induction n with
    | zero => exact Runs.refl _
    | succ n ih => exact ih.trans (Runs.of_run (fun _ _ => trivial) (crowd_succ m n))
  induction n with
  | zero =>
    have : spinning m 0 = crowd m 512 := by simp [spinning, crowd]
    exact this ▸ hcrowd 512
  | succ n ih => exact (ih (by omega)).tail trivial (spinning_succ m (by omega))

/-- The last `fetch_add` brings the write cursor back to the read cursor, and the test finds
room. -/
theorem spinning_last (m : Mem) :
    ∃ T, T 512 = Thread.fresh ∧ step gib (spinning m 511) (.produce 511) =
      some (around m T 0 ((spinning m 511).resv ++ [wholeRing.resv 511 .granted])) := by
  have hth : (spinning m 511).threads 511 = ⟨some 0, .reserve wholeRing, 0⟩ := by
    simp [spinning, around]
  have hw : (spinning m 511).writeCursor = 511 * 2 ^ 23 := rfl
  have hnext : add32 (511 * 2 ^ 23) (2 ^ 23) = 0 := by decide
  have hroom : ¬ 2 ^ 23 ≤ sub32 0 0 := by decide
  refine ⟨Function.update (spinning m 511).threads 511 { (spinning m 511).threads 511 with
    pc := .setHead wholeRing (511 * 2 ^ 23) (spinning m 511).resv.length }, ?_, ?_⟩
  · simp [spinning, around]
  · simp only [step, allocStep, hth, hw, Thread.readCursorRef, Option.getD_some,
      show wholeRing.need = 2 ^ 23 from rfl, hnext, gib_count, if_neg hroom, State.append, State.goto,
      State.setThread]
    rfl

/-- A thread new to the ring finds room for a block where the write cursor stands. -/
theorem around_alloc (m : Mem) {T : ℕ → Thread} {t : ℕ} (ht : T t = Thread.fresh)
    (R : List Resv) : ∃ T', run (step gib) (around m T 0 R)
      [.alloc t 1 false, .produce t, .produce t, .produce t] =
        some (around m T' 1 (R ++ [⟨t, 1, 1, .granted⟩])) := by
  have hneed : needBlocks 1 = 1 := by decide
  have h1 : step gib (around m T 0 R) (.alloc t 1 false) =
      some ((around m T 0 R).setThread t ⟨none, .loadWrite ⟨1, 1, 0⟩, 0⟩) := by
    simp [step, around, ht, Thread.fresh, allocCall, hneed, gib_count, maxBlockNumPerChunk]
  have h2 : step gib ((around m T 0 R).setThread t ⟨none, .loadWrite ⟨1, 1, 0⟩, 0⟩) (.produce t) =
      some ((around m T 0 R).setThread t ⟨none, .loadRead ⟨1, 1, 0⟩ 0, 0⟩) := by
    simp [step, allocStep, State.setThread, State.goto, around]
  have h3 : step gib ((around m T 0 R).setThread t ⟨none, .loadRead ⟨1, 1, 0⟩ 0, 0⟩) (.produce t) =
      some ((around m T 0 R).setThread t ⟨some 0, .reserve ⟨1, 1, 0⟩, 0⟩) := by
    simp [step, allocStep, State.setThread, State.loadCopy, around, checkRoom, gib_count,
      State.blocksBefore, sub32, add32]
  have h4 : step gib ((around m T 0 R).setThread t ⟨some 0, .reserve ⟨1, 1, 0⟩, 0⟩) (.produce t) =
      some (around m (Function.update T t ⟨some 0, .setHead ⟨1, 1, 0⟩ 0 R.length, 0⟩) 1
        (R ++ [⟨t, 1, 1, .granted⟩])) := by
    simp [step, allocStep, State.setThread, State.goto, State.append, around, gib_count,
      Thread.readCursorRef, sub32, add32]
  exact ⟨_, by
    rw [run_cons_of_step h1, run_cons_of_step h2, run_cons_of_step h3, run_cons_of_step h4, run_nil]⟩

/-- **The condition is needed**: 512 threads that each ask for the whole ring of `2 ^ 23` blocks do
their `fetch_add`s before any of them takes its reservation back. -/
theorem miso_overlap : ∃ s, Runs (step gib) (fun _ _ => True) (State.init gib 0 fun _ => 0) s ∧
    ¬ LiveDisjoint gib 0 s := by
  set m := clearStatus (fun _ => 0) gib.count with hm
  have hinit : State.init gib 0 (fun _ => 0) = crowd m 0 := by
    simp only [State.init, crowd, around]
    rfl
  obtain ⟨T, hfresh, hlast⟩ := spinning_last m
  obtain ⟨T', hone⟩ := around_alloc m hfresh
    ((spinning m 511).resv ++ [wholeRing.resv 511 .granted])
  rw [hinit]
  refine ⟨_, ((runs_spinning m le_rfl).tail trivial hlast).trans
    (Runs.of_run (fun _ _ => trivial) hone), fun hdisj => ?_⟩
  have hlen : (spinning m 511).resv.length = 511 := by simp [spinning, around]
  have hpos : offset ((spinning m 511).resv.map Resv.blocks) 511 = 511 * 2 ^ 23 := by
    have hmap : (spinning m 511).resv.map Resv.blocks = List.replicate 511 (2 ^ 23) := by
      simp only [spinning, around, List.map_map]
      exact List.eq_replicate_iff.mpr ⟨by simp, by simp [wholeRing]⟩
    rw [hmap, offset, List.take_replicate, List.sum_replicate_nat]
    decide
  generalize hR : (spinning m 511).resv = R at *
  have hfirst : (around m T' 1 (R ++ [wholeRing.resv 511 .granted] ++ [⟨512, 1, 1, .granted⟩])).pos
      0 511 = 511 * 2 ^ 23 := by
    simp only [State.pos, State.blocksBefore, around, List.map_append]
    rw [offset_append_of_le _ (by simp [hlen]), offset_append_of_le _ (by simp [hlen]), hpos]
    rfl
  have hslot : (around m T' 1 (R ++ [wholeRing.resv 511 .granted] ++
      [⟨512, 1, 1, .granted⟩])).resv[511]? = some (wholeRing.resv 511 .granted) := by
    simp [around, hlen]
  have hnext := State.pos_succ _ 0 hslot
  have hd := hdisj 511 512 _ ⟨512, 1, 1, .granted⟩ (by decide) ⟨Nat.zero_le _, hslot, by simp⟩
    ⟨Nat.zero_le _, by simp [around, hlen], by simp⟩
  have hmem : ∀ {p n : ℕ}, 0 < n → p % 2 ^ 23 = 0 → 0 ∈ ringBlocks gib.count p n :=
    fun hn hp => ⟨0, hn, hp.symm⟩
  refine Set.disjoint_left.mp hd (hmem (by decide) ?_) (hmem Nat.one_pos ?_)
  · rw [hfirst]
    decide
  · rw [hnext, hfirst]
    decide

end QLog.Miso
