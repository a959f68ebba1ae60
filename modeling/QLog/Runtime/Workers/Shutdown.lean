import QLog.Runtime.Workers.Exclusion

/-!
# The end of the manager

What a step does to the phase, to the flags of the workers and to what `uninit` has still to do. `uninit`
cancels every worker and waits until it has left its loop. It holds the read lock meanwhile, so that no log
is added and no worker is kept from its last turn; a worker is joined after it was cancelled; and nobody
restarts it, because the phase has changed before.
-/

namespace QLog.Workers

/-! ## What a step does -/

section Effect

variable {ι : Type*}

/-- A worker that is about to wait, or waits. -/
def Pc.asleep : Pc ι → Bool
  | .waitFor | .waiting => true
  | _ => false

/-- What is left of the operations on workers, and whether they belong to `uninit`. -/
def Pc.ops : Pc ι → Option (Bool × List (Op ι))
  | .script u ops | .notifyLock _ u ops | .notifyAll _ u ops | .notifyUnlock _ u ops => some (u, ops)
  | _ => none

/-- The worker that is to be notified. -/
def Pc.notifies : Pc ι → Option (Thread ι)
  | .notifyLock w _ _ | .notifyAll w _ _ => some w
  | _ => none

/-- A place that is not special here: the thread has no operations on workers to do, does not leave its loop
and has been started. -/
def Pc.calm (pc : Pc ι) : Bool :=
  pc.ops.isNone && match pc with
    | .unstarted | .watchDog | .restartLock | .restartCheck | .exited => false
    | _ => true

theorem Pc.ops_of_calm {pc : Pc ι} (h : pc.calm = true) : pc.ops = none := by
  unfold Pc.calm at h
  rw [Bool.and_eq_true, Option.isNone_iff_eq_none] at h
  exact h.1

/-- A calm place is none of the special ones. -/
theorem Pc.ne_of_calm {pc : Pc ι} (h : pc.calm = true) : pc ≠ .unstarted ∧ pc ≠ .watchDog ∧
    pc ≠ .restartLock ∧ pc ≠ .restartCheck ∧ pc ≠ .exited := by
  refine ⟨?_, ?_, ?_, ?_, ?_⟩ <;>
  · rintro rfl
    cases h

theorem Pc.started_of_ops {pc : Pc ι} {r : Bool × List (Op ι)} (h : pc.ops = some r) :
    pc ≠ .unstarted ∧ pc ≠ .exited ∧ pc ≠ .waiting := by
  refine ⟨?_, ?_, ?_⟩ <;>
  · rintro rfl
    cases h

variable [DecidableEq ι]

/-- The phase, the flags and the list stay as they are, and one thread goes on. -/
structure Plain (s : State ι) (t : Thread ι) (pc : Pc ι) (s' : State ι) : Prop where
  phase : s'.phase = s.phase
  logImpList : s'.logImpList = s.logImpList
  cancelled : s'.cancelled = s.cancelled
  awakeFlag : s'.awakeFlag = s.awakeFlag
  goes : s'.pc = (s.goto t pc).pc

/-- What the next action of a thread does. -/
inductive Effect (s : State ι) (t : Thread ι) : State ι → Prop
  /-- Nothing that matters here. -/
  | plain {s' : State ι} (pc : Pc ι) (h : Plain s t pc s') (hfrom : (s.pc t).calm = true)
      (hto : pc.calm = true) (hsleep : pc.asleep = true → (s.pc t).asleep = true)
      (hperform : ∀ job, pc = .perform job → s.phase = .working) : Effect s t s'
  | setAwake (hpc : s.pc t = .setAwake) :
      Effect s t ({ s with awakeFlag := Function.update s.awakeFlag t true }.goto t .waitFor)
  | clearAwake (hpc : s.pc t = .clearAwake) :
      Effect s t ({ s with awakeFlag := Function.update s.awakeFlag t false }.goto t .mutexUnlock)
  /-- The worker sees that it is cancelled. -/
  | leave (didWork : Bool) (hpc : s.pc t = .cancelCheck didWork) (hcancel : s.cancelled t = true) :
      Effect s t (s.goto t .watchDog)
  | exit (hpc : s.pc t = .watchDog) :
      Effect s t (s.goto t (if s.phase = .working then .restartLock else .exited))
  | restart {s' : State ι} (hpc : s.pc t = .restartLock ∨ s.pc t = .restartCheck) : Effect s t s'
  | create (job : Job) (logName : List Char) (mode : ThreadMode) (hpc : s.pc t = .perform job) :
      Effect s t ((s.create logName mode).goto t .writeUnlock)
  | shutdown (hpc : s.pc t = .uninitPhase) (hphase : s.phase = .working) :
      Effect s t ({ s with phase := .uninitialized }.goto t (.script true s.shutdown))
  | done (u : Bool) (hpc : s.pc t = .script u []) :
      Effect s t (s.goto t (if u then .uninitUnlock else .idle))
  | cancel (u : Bool) (w : Thread ι) (ops : List (Op ι)) (hpc : s.pc t = .script u (.cancel w :: ops)) :
      Effect s t ({ s with cancelled := Function.update s.cancelled w true }.goto t (.script u ops))
  | awake (u : Bool) (w : Thread ι) (ops : List (Op ι)) (hpc : s.pc t = .script u (.awake w :: ops)) :
      Effect s t ({ s with awakeFlag := Function.update s.awakeFlag w false }.goto t
        (if s.awakeFlag w then .notifyLock w u ops else .script u ops))
  | join (u : Bool) (w : Thread ι) (ops : List (Op ι)) (hpc : s.pc t = .script u (.join w :: ops))
      (hw : s.pc w = .exited) : Effect s t (s.goto t (.script u ops))
  | notifyLock {s' : State ι} (u : Bool) (w : Thread ι) (ops : List (Op ι))
      (hpc : s.pc t = .notifyLock w u ops) (h : Plain s t (.notifyAll w u ops) s') : Effect s t s'
  | notifyAll (u : Bool) (w : Thread ι) (ops : List (Op ι)) (hpc : s.pc t = .notifyAll w u ops) :
      Effect s t ((s.notify w).goto t (.notifyUnlock w u ops))
  | notifyUnlock {s' : State ι} (u : Bool) (w : Thread ι) (ops : List (Op ι))
      (hpc : s.pc t = .notifyUnlock w u ops) (h : Plain s t (.script u ops) s') : Effect s t s'

variable {s s' : State ι} {t : Thread ι} {k : LockName ι} {pc : Pc ι}

theorem plain_goto : Plain s t pc (s.goto t pc) := ⟨rfl, rfl, rfl, rfl, rfl⟩

theorem plain_release : Plain s t pc (s.release t k pc) := ⟨rfl, rfl, rfl, rfl, rfl⟩

theorem plain_releaseRead : Plain s t pc (s.releaseRead t k pc) := ⟨rfl, rfl, rfl, rfl, rfl⟩

theorem plain_of_acquire (h : s.acquire t k pc = some s') : Plain s t pc s' := by
  obtain ⟨l, -, rfl⟩ := Option.map_eq_some_iff.1 h
  exact ⟨rfl, rfl, rfl, rfl, rfl⟩

theorem plain_of_acquireRead (h : s.acquireRead t k pc = some s') : Plain s t pc s' := by
  obtain ⟨l, -, rfl⟩ := Option.map_eq_some_iff.1 h
  exact ⟨rfl, rfl, rfl, rfl, rfl⟩

/-- A plain step between two places that are known. -/
theorem Effect.ofPlain {pc₀ : Pc ι} (hpc : s.pc t = pc₀) (h : Plain s t pc s') (hfrom : pc₀.calm = true)
    (hto : pc.calm = true) (hsleep : pc.asleep = true → pc₀.asleep = true)
    (hperform : ∀ job, pc = .perform job → s.phase = .working) : Effect s t s' :=
  .plain pc h (hpc ▸ hfrom) hto (hpc ▸ hsleep) hperform

theorem effect_of_runOp {u : Bool} {ops : List (Op ι)} (hpc : s.pc t = .script u ops)
    (h : s.runOp t u ops = some s') : Effect s t s' := by
  cases ops with
  | nil =>
    obtain rfl := Option.some.inj h
    exact .done u hpc
  | cons op ops =>
    cases op with
    | cancel w =>
      obtain rfl := Option.some.inj h
      exact .cancel u w ops hpc
    | awake w =>
      obtain rfl := Option.some.inj h
      exact .awake u w ops hpc
    | join w =>
      simp only [State.runOp] at h
      split at h
      · rename_i hw
        obtain rfl := Option.some.inj h
        exact .join u w ops hpc hw
      · cases h

theorem effect_of_perform {job : Job} (hpc : s.pc t = .perform job) (b : Bool) :
    Effect s t (s.perform t b job) := by
  cases job with
  | createLog logName autoName mode =>
    simp only [State.perform]
    split
    · exact .ofPlain hpc plain_goto rfl rfl (by rintro ⟨⟩) (by simp)
    · cases b with
      | true => exact .create _ _ mode hpc
      | false => exact .ofPlain hpc plain_goto rfl rfl (by rintro ⟨⟩) (by simp)
  | resetConfig logName =>
    simp only [State.perform]
    split <;> exact .ofPlain hpc plain_goto rfl rfl (by rintro ⟨⟩) (by simp)
  | forceFlushAll | tryFlushAll | forceFlush => exact .ofPlain hpc plain_goto rfl rfl (by rintro ⟨⟩) (by simp)

/-- **What the next action of a thread can do.** -/
theorem effect_of_next {b : Bool} (hs : s.next t b = some s') : Effect s t s' := by
  unfold State.next at hs
  cases hpc : s.pc t with
  | idle | unstarted | exited => simp [hpc] at hs
  | head | uninitReadLock =>
    simp only [hpc] at hs
    exact .ofPlain hpc (plain_of_acquireRead hs) rfl rfl nofun nofun
  | phaseCheck =>
    simp only [hpc, Option.some.injEq] at hs
    subst hs
    split <;> exact .ofPlain hpc plain_goto rfl rfl nofun nofun
  | writePhase job =>
    simp only [hpc, Option.some.injEq] at hs
    subst hs
    split
    · rename_i hphase
      exact .ofPlain hpc plain_goto rfl rfl nofun fun _ _ => hphase
    · exact .ofPlain hpc plain_goto rfl rfl nofun nofun
  | turn todo didWork | flush todo =>
    cases todo with
    | nil =>
      simp only [hpc, Option.some.injEq] at hs
      subst hs
      exact .ofPlain hpc plain_goto rfl rfl nofun nofun
    | cons log todo =>
      simp only [hpc, Option.some.injEq] at hs
      subst hs
      exact .ofPlain hpc plain_goto rfl rfl nofun nofun
  | process | flushProcess | exchange | syncProcess =>
    simp only [hpc, Option.some.injEq] at hs
    subst hs
    exact .ofPlain hpc plain_goto rfl rfl nofun nofun
  | readUnlock | uninitReadUnlock =>
    simp only [hpc, Option.some.injEq] at hs
    subst hs
    exact .ofPlain hpc plain_releaseRead rfl rfl nofun nofun
  | cancelCheck didWork =>
    simp only [hpc, Option.some.injEq] at hs
    subst hs
    split
    · rename_i hcancel
      exact .leave didWork hpc hcancel
    · split <;> exact .ofPlain hpc plain_goto rfl rfl nofun nofun
  | mutexLock | woken | exchangeLock | syncLock | uninitLock =>
    simp only [hpc] at hs
    exact .ofPlain hpc (plain_of_acquire hs) rfl rfl nofun nofun
  | setAwake =>
    simp only [hpc, Option.some.injEq] at hs
    subst hs
    exact .setAwake hpc
  | clearAwake =>
    simp only [hpc, Option.some.injEq] at hs
    subst hs
    exact .clearAwake hpc
  | waitFor | mutexUnlock | exchangeUnlock | writeUnlock | syncUnlock | uninitUnlock =>
    simp only [hpc, Option.some.injEq] at hs
    subst hs
    exact .ofPlain hpc plain_release rfl rfl (by first | exact fun _ => rfl | nofun) nofun
  | waiting =>
    simp only [hpc, Option.some.injEq] at hs
    subst hs
    exact .ofPlain hpc plain_goto rfl rfl nofun nofun
  | watchDog =>
    simp only [hpc, Option.some.injEq] at hs
    subst hs
    exact .exit hpc
  | restartLock => exact .restart (Or.inl hpc)
  | restartCheck => exact .restart (Or.inr hpc)
  | writeLock job =>
    simp only [hpc] at hs
    split at hs
    · rename_i s₁ hacquire
      obtain rfl := Option.some.inj hs
      refine .ofPlain hpc (plain_of_acquire hacquire) rfl ?_ (fun h => ?_) fun job' h => ?_
      · cases job <;> rfl
      · cases job <;> cases h
      · cases job <;> cases h
    · split at hs
      · obtain rfl := Option.some.inj hs
        exact .ofPlain hpc plain_goto rfl rfl nofun nofun
      · cases hs
  | perform job =>
    simp only [hpc, Option.some.injEq] at hs
    subst hs
    exact effect_of_perform hpc b
  | script u ops =>
    simp only [hpc] at hs
    exact effect_of_runOp hpc hs
  | notifyLock w u ops =>
    simp only [hpc] at hs
    exact .notifyLock u w ops hpc (plain_of_acquire hs)
  | notifyAll w u ops =>
    simp only [hpc, Option.some.injEq] at hs
    subst hs
    exact .notifyAll u w ops hpc
  | notifyUnlock w u ops =>
    simp only [hpc, Option.some.injEq] at hs
    subst hs
    exact .notifyUnlock u w ops hpc plain_release
  | uninitPhase =>
    simp only [hpc] at hs
    split at hs
    · rename_i hphase
      obtain rfl := Option.some.inj hs
      exact .shutdown hpc hphase
    · obtain rfl := Option.some.inj hs
      exact .ofPlain hpc plain_goto rfl rfl nofun nofun

/-- The loop of `process` stays where it is. -/
theorem plain_of_entry (hs : s.entry t = some s') : ∃ pc, Plain s t pc s' ∧ (s.pc t).calm = true ∧
    pc.calm = true ∧ pc.asleep = false ∧ (∀ job, pc ≠ .perform job) := by
  unfold State.entry at hs
  split at hs
  · rename_i hpc
    obtain rfl := Option.some.inj hs
    exact ⟨_, plain_goto, by rw [hpc]; rfl, rfl, rfl, by simp⟩
  · rename_i hpc
    obtain rfl := Option.some.inj hs
    exact ⟨_, plain_goto, by rw [hpc]; rfl, rfl, rfl, by simp⟩
  · cases hs

theorem effect_of_entry (hs : s.entry t = some s') : Effect s t s' := by
  obtain ⟨pc, hp, hfrom, hto, hwake, hjob⟩ := plain_of_entry hs
  refine .plain pc hp hfrom hto (fun h => ?_) fun job h => (hjob job h).elim
  rw [hwake] at h
  cases h

/-- What a call does: its thread goes to the place where the call begins. -/
theorem plain_of_call {c : Call ι} (hs : s.call t c = some s') : s' = s ∨ ∃ pc, Plain s t pc s' ∧
    ((pc.calm = true ∧ ∀ job, pc ≠ .perform job) ∨ ∃ w, pc = .script false [.awake w]) ∧
      pc.asleep = false := by
  cases c with
  | write job =>
    cases job with
    | forceFlush log =>
      simp only [State.call] at hs
      split at hs
      · exact Or.inl (Option.some.inj hs).symm
      · obtain rfl := Option.some.inj hs
        exact Or.inr ⟨_, plain_goto, Or.inl ⟨rfl, by simp⟩, rfl⟩
      · cases hs
    | createLog | resetConfig | forceFlushAll | tryFlushAll =>
      obtain rfl := Option.some.inj hs
      exact Or.inr ⟨_, plain_goto, Or.inl ⟨rfl, by simp⟩, rfl⟩
  | syncProcess log =>
    simp only [State.call] at hs
    split at hs
    · obtain rfl := Option.some.inj hs
      exact Or.inr ⟨_, plain_goto, Or.inl ⟨rfl, by simp⟩, rfl⟩
    · cases hs
  | awake w =>
    obtain rfl := Option.some.inj hs
    exact Or.inr ⟨_, plain_goto, Or.inr ⟨w, rfl⟩, rfl⟩
  | uninit =>
    obtain rfl := Option.some.inj hs
    exact Or.inr ⟨_, plain_goto, Or.inl ⟨rfl, by simp⟩, rfl⟩

end Effect

/-! ## What `uninit` has still to do -/

section Down

variable {ι : Type*}

theorem mem_shutdown {s : State ι} {w : Thread ι} : Op.join w ∈ s.shutdown ↔
    w = .publicWorker ∨ ∃ n, w = .worker n ∧ s.mode n = some .independent := by
  unfold State.shutdown
  have hflat : ∀ ws : List (Thread ι), Op.join w ∉ ws.flatMap fun w => [.cancel w, .awake w] := by simp
  rw [List.mem_append, List.mem_append, or_iff_left (hflat _), List.mem_map]
  constructor
  · rintro (h | ⟨w', hw', heq⟩)
    · exact Or.inl (by simpa using h)
    · obtain rfl := Op.join.inj heq
      obtain ⟨n, hn, rfl⟩ := List.mem_map.1 hw'
      obtain ⟨m, hm, hmode⟩ := mem_withMode.1 hn
      exact Or.inr ⟨n, rfl, by rw [hm, eq_of_beq hmode]⟩
  · rintro (rfl | ⟨n, rfl, hn⟩)
    · exact Or.inl (by simp)
    · exact Or.inr ⟨_, List.mem_map.2 ⟨n, mem_withMode.2 ⟨_, hn, rfl⟩, rfl⟩, rfl⟩

variable [DecidableEq ι]

/-- A worker is joined after it was cancelled. -/
def CancelsFirst : (Thread ι → Bool) → List (Op ι) → Prop
  | _, [] => True
  | cancelled, .cancel w :: ops => CancelsFirst (Function.update cancelled w true) ops
  | cancelled, .awake _ :: ops => CancelsFirst cancelled ops
  | cancelled, .join w :: ops => cancelled w = true ∧ CancelsFirst cancelled ops

theorem CancelsFirst.mono {c c' : Thread ι → Bool} {ops : List (Op ι)} (hc : ∀ t, c t = true → c' t = true)
    (h : CancelsFirst c ops) : CancelsFirst c' ops := by
  induction ops generalizing c c' with
  | nil => trivial
  | cons op ops ih =>
    cases op with
    | cancel w =>
      refine ih (fun t ht => ?_) h
      rw [Function.update_apply] at ht ⊢
      split
      · rfl
      · rename_i hne
        rw [if_neg hne] at ht
        exact hc t ht
    | awake w => exact ih hc h
    | join w => exact ⟨hc w h.1, ih hc h.2⟩

theorem cancelsFirst_join {c : Thread ι → Bool} {ws : List (Thread ι)} (h : ∀ w ∈ ws, c w = true) :
    CancelsFirst c (ws.map .join) := by
  induction ws with
  | nil => trivial
  | cons w ws ih => exact ⟨h w List.mem_cons_self, ih fun w' hw => h w' (List.mem_cons_of_mem _ hw)⟩

theorem cancelsFirst_cancel {c : Thread ι → Bool} {ws : List (Thread ι)} {ops : List (Op ι)}
    (h : ∀ c', (∀ t, c t = true → c' t = true) → (∀ w ∈ ws, c' w = true) → CancelsFirst c' ops) :
    CancelsFirst c (ws.flatMap (fun w => [.cancel w, .awake w]) ++ ops) := by
  induction ws generalizing c with
  | nil => exact h c (fun _ => id) (by simp)
  | cons w ws ih =>
    refine ih fun c' hc hws => h c' (fun t ht => hc t ?_) fun w' hw' => ?_
    · rw [Function.update_apply]
      split
      · rfl
      · exact ht
    · rcases List.mem_cons.1 hw' with rfl | hw'
      · exact hc _ (Function.update_self _ _ _)
      · exact hws w' hw'

theorem cancelsFirst_shutdown (s : State ι) : CancelsFirst s.cancelled s.shutdown := by
  refine ⟨Function.update_self _ _ _, ?_⟩
  exact cancelsFirst_cancel fun c' _ hws => cancelsFirst_join hws

/-- What is left to do is right. What belongs to `uninit` joins every worker that has not left its loop. -/
def OpsOk (s : State ι) : Bool → List (Op ι) → Prop
  | true, ops => s.phase = .uninitialized ∧ CancelsFirst s.cancelled ops ∧
      (∀ w, Op.join w ∈ ops → w.isWorker = true ∧ s.pc w ≠ .unstarted) ∧
      ∀ w, w.isWorker = true → s.pc w ≠ .unstarted → s.pc w = .exited ∨ Op.join w ∈ ops
  | false, ops => ∀ op ∈ ops, ∃ w, op = .awake w

/-- What holds between two steps, once more. -/
structure Down (s : State ι) : Prop where
  phase : s.phase = .working ∨ s.phase = .uninitialized
  cancelled : ∀ t, s.cancelled t = true → s.phase = .uninitialized
  leaving : ∀ t, s.pc t = .watchDog ∨ s.pc t = .exited → s.cancelled t = true
  restart : ∀ t, s.pc t ≠ .restartLock ∧ s.pc t ≠ .restartCheck
  perform : ∀ t job, s.pc t = .perform job → s.phase = .working
  ops : ∀ t u ops, (s.pc t).ops = some (u, ops) → OpsOk s u ops
  done : s.phase = .uninitialized → (∃ t ops, (s.pc t).ops = some (true, ops)) ∨
    ∀ w, w.isWorker = true → s.pc w = .unstarted ∨ s.pc w = .exited

variable {s s' : State ι} {t : Thread ι} {pc : Pc ι}

/-- Nobody is started, and who has left his loop does not come back. -/
structure Frame (s s' : State ι) : Prop where
  phase : s'.phase = s.phase
  cancelled : ∀ t, s.cancelled t = true → s'.cancelled t = true
  unstarted : ∀ t, s'.pc t = .unstarted ↔ s.pc t = .unstarted
  exited : ∀ t, s.pc t = .exited → s'.pc t = .exited

theorem OpsOk.mono (hf : Frame s s') {u : Bool} {ops : List (Op ι)} (h : OpsOk s u ops) : OpsOk s' u ops := by
  cases u with
  | false => exact h
  | true =>
    obtain ⟨hphase, hcancels, hjoins, hall⟩ := h
    refine ⟨hf.phase.trans hphase, hcancels.mono hf.cancelled, fun w hw => ?_, fun w hw hstarted => ?_⟩
    · exact ⟨(hjoins w hw).1, fun h => (hjoins w hw).2 ((hf.unstarted w).1 h)⟩
    · exact (hall w hw fun h => hstarted ((hf.unstarted w).2 h)).imp_left (hf.exited w)

/-- The first operation is done. -/
theorem OpsOk.tail {op : Op ι} {ops : List (Op ι)} {u : Bool} (h : OpsOk s u (op :: ops))
    (hphase : s'.phase = s.phase) (hpc : s'.pc = s.pc)
    (hcancels : CancelsFirst s.cancelled (op :: ops) → CancelsFirst s'.cancelled ops)
    (hjoin : ∀ w, op = .join w → s.pc w = .exited) : OpsOk s' u ops := by
  cases u with
  | false => exact fun op' hop => h op' (List.mem_cons_of_mem _ hop)
  | true =>
    obtain ⟨hdown, hfirst, hjoins, hall⟩ := h
    refine ⟨hphase.trans hdown, hcancels hfirst, fun w hw => ?_, fun w hw hne => ?_⟩
    · rw [hpc]
      exact hjoins w (List.mem_cons_of_mem _ hw)
    · rw [hpc] at hne ⊢
      rcases hall w hw hne with hex | hmem
      · exact Or.inl hex
      · rcases List.mem_cons.1 hmem with heq | hmem
        · exact Or.inl (hjoin w heq.symm)
        · exact Or.inr hmem

/-- The other threads stay where they are, but for a worker that is woken. -/
def Others (s s' : State ι) (t : Thread ι) : Prop :=
  ∀ u, u ≠ t → s'.pc u = s.pc u ∨ (s.pc u = .waiting ∧ s'.pc u = .woken)

/-- A step after which the thread that moved is all right keeps the invariant. -/
theorem Down.of_frame (h : Down s) (hf : Frame s s') (ho : Others s s' t)
    (hcancelled : ∀ u, s'.cancelled u = true → s.phase = .uninitialized)
    (hleaving : s'.pc t = .watchDog ∨ s'.pc t = .exited → s'.cancelled t = true)
    (hrestart : s'.pc t ≠ .restartLock ∧ s'.pc t ≠ .restartCheck)
    (hperform : ∀ job, s'.pc t = .perform job → s.phase = .working)
    (hops : ∀ u ops, (s'.pc t).ops = some (u, ops) → OpsOk s' u ops)
    (hdone : ∀ ops, (s.pc t).ops = some (true, ops) → (∃ ops', (s'.pc t).ops = some (true, ops')) ∨
      ∀ w, w.isWorker = true → s.pc w = .unstarted ∨ s.pc w = .exited) : Down s' := by
  have hcases : ∀ u, u = t ∨ s'.pc u = s.pc u ∨ (s.pc u = .waiting ∧ s'.pc u = .woken) := by
    intro u
    by_cases hu : u = t
    · exact Or.inl hu
    · exact Or.inr (ho u hu)
  refine ⟨hf.phase ▸ h.phase, fun u hu => hf.phase.trans (hcancelled u hu), fun u hu => ?_, fun u => ?_,
    fun u job hu => ?_, fun u b ops hu => ?_, fun hphase => ?_⟩
  · rcases hcases u with rfl | heq | ⟨-, hw⟩
    · exact hleaving hu
    · exact hf.cancelled u (h.leaving u (heq ▸ hu))
    · simp [hw] at hu
  · rcases hcases u with rfl | heq | ⟨-, hw⟩
    · exact hrestart
    · exact heq ▸ h.restart u
    · simp [hw]
  · rw [hf.phase]
    rcases hcases u with rfl | heq | ⟨-, hw⟩
    · exact hperform job hu
    · exact h.perform u job (heq ▸ hu)
    · simp [hw] at hu
  · rcases hcases u with rfl | heq | ⟨-, hw⟩
    · exact hops b ops hu
    · exact (h.ops u b ops (heq ▸ hu)).mono hf
    · simp [hw, Pc.ops] at hu
  · have hexited : (∀ w, w.isWorker = true → s.pc w = .unstarted ∨ s.pc w = .exited) →
        ∀ w, w.isWorker = true → s'.pc w = .unstarted ∨ s'.pc w = .exited := fun hall w hw =>
      (hall w hw).imp (hf.unstarted w).2 (hf.exited w)
    rcases h.done (hf.phase ▸ hphase) with ⟨u, ops, hu⟩ | hall
    · rcases hcases u with rfl | heq | ⟨hw, -⟩
      · rcases hdone ops hu with ⟨ops', hops'⟩ | hall
        · exact Or.inl ⟨u, ops', hops'⟩
        · exact Or.inr (hexited hall)
      · exact Or.inl ⟨u, ops, heq.symm ▸ hu⟩
      · simp [hw, Pc.ops] at hu
    · exact Or.inr (hexited hall)

theorem Frame.of_goto (hphase : s'.phase = s.phase)
    (hcancelled : ∀ u, s.cancelled u = true → s'.cancelled u = true) (hpc : s'.pc = (s.goto t pc).pc)
    (hfrom : s.pc t ≠ .unstarted ∧ s.pc t ≠ .exited) (hto : pc ≠ .unstarted) : Frame s s' := by
  refine ⟨hphase, hcancelled, fun u => ?_, fun u hu => ?_⟩
  · rw [hpc, goto_pc]
    split
    · rename_i heq
      rw [heq]
      exact iff_of_false hto hfrom.1
    · exact Iff.rfl
  · rw [hpc, goto_pc, if_neg, hu]
    rintro rfl
    exact hfrom.2 hu

theorem Others.of_goto (hpc : s'.pc = (s.goto t pc).pc) : Others s s' t := fun u hu =>
  Or.inl (by rw [hpc, goto_pc_of_ne hu])

theorem notify_phase (w : Thread ι) : (s.notify w).phase = s.phase := by
  unfold State.notify
  split <;> rfl

theorem notify_cancelled (w : Thread ι) : (s.notify w).cancelled = s.cancelled := by
  unfold State.notify
  split <;> rfl

/-- A notification wakes a worker and moves nobody else. -/
theorem others_notify (w : Thread ι) (pc : Pc ι) : Others s ((s.notify w).goto t pc) t := by
  intro v hv
  rw [goto_pc_of_ne hv]
  unfold State.notify
  split
  · rename_i hw
    rw [goto_pc]
    split
    · rename_i heq
      exact Or.inr ⟨heq ▸ hw, rfl⟩
    · exact Or.inl rfl
  · exact Or.inl rfl

theorem frame_notify {w : Thread ι} {u : Bool} {ops : List (Op ι)} (hpc : s.pc t = .notifyAll w u ops) :
    Frame s ((s.notify w).goto t (.notifyUnlock w u ops)) := by
  have hwoken := others_notify (s := s) (t := t) w (.notifyUnlock w u ops)
  refine ⟨notify_phase w, fun v hv => (notify_cancelled (s := s) w).symm ▸ hv, fun v => ?_, fun v hv => ?_⟩
  · by_cases hvt : v = t
    · rw [hvt, goto_pc_self, hpc]
      simp
    · rcases hwoken v hvt with heq | ⟨hw, heq⟩
      · rw [heq]
      · rw [heq, hw]
        simp
  · by_cases hvt : v = t
    · rw [hvt, hpc] at hv
      cases hv
    · rcases hwoken v hvt with heq | ⟨hw, -⟩
      · rw [heq, hv]
      · rw [hw] at hv
        cases hv

/-- A step between calm places. -/
theorem Down.plain (h : Down s) (hp : Plain s t pc s') (hfrom : (s.pc t).calm = true) (hto : pc.calm = true)
    (hperform : ∀ job, pc = .perform job → s.phase = .working) : Down s' := by
  obtain ⟨hstarted, -, -, -, hexited⟩ := Pc.ne_of_calm hfrom
  obtain ⟨hunstarted, hdog, hlock, hcheck, hexited'⟩ := Pc.ne_of_calm hto
  have hself : s'.pc t = pc := by rw [hp.goes, goto_pc_self]
  refine h.of_frame (.of_goto hp.phase (fun u hu => hp.cancelled ▸ hu) hp.goes ⟨hstarted, hexited⟩ hunstarted)
    (.of_goto hp.goes) (fun u hu => h.cancelled u (hp.cancelled ▸ hu)) ?_ ?_ ?_ ?_ ?_
  · rw [hself]
    rintro (heq | heq)
    · exact (hdog heq).elim
    · exact (hexited' heq).elim
  · rw [hself]
    exact ⟨hlock, hcheck⟩
  · rw [hself]
    exact hperform
  · rw [hself, Pc.ops_of_calm hto]
    nofun
  · rw [Pc.ops_of_calm hfrom]
    nofun

/-- A step of a thread that has operations on workers to do. -/
theorem Down.ofOps (h : Down s) {u : Bool} {ops ops' : List (Op ι)} (hops : (s.pc t).ops = some (u, ops))
    (hto : pc.ops = some (u, ops')) (hf : Frame s s') (ho : Others s s' t) (hself : s'.pc t = pc)
    (hcancelled : ∀ u, s'.cancelled u = true → s.phase = .uninitialized) (hok : OpsOk s' u ops') :
    Down s' := by
  refine h.of_frame hf ho hcancelled ?_ ?_ ?_ ?_ ?_
  · rw [hself]
    rintro (rfl | rfl) <;> cases hto
  · rw [hself]
    constructor <;>
    · rintro rfl
      cases hto
  · rw [hself]
    rintro job rfl
    cases hto
  · rw [hself, hto]
    rintro u' ops'' ⟨⟩
    exact hok
  · rw [hops, hself, hto]
    rintro ops'' ⟨⟩
    exact Or.inl ⟨ops', rfl⟩

/-- The flags that wake workers do not matter here. -/
theorem Down.congr (h : Down s) (hphase : s'.phase = s.phase) (hcancelled : s'.cancelled = s.cancelled)
    (hpc : s'.pc = s.pc) : Down s' := by
  have hf : Frame s s' :=
    ⟨hphase, fun t ht => hcancelled ▸ ht, fun t => by rw [hpc], fun t ht => by rw [hpc, ht]⟩
  refine ⟨hphase ▸ h.phase, ?_, ?_, hpc ▸ h.restart, ?_, fun t u ops ht => ?_, fun hdown => ?_⟩
  · rw [hcancelled, hphase]
    exact h.cancelled
  · rw [hcancelled, hpc]
    exact h.leaving
  · rw [hpc, hphase]
    exact h.perform
  · exact (h.ops t u ops (hpc ▸ ht)).mono hf
  · rw [hpc]
    exact h.done (hphase ▸ hdown)

/-- A new log while the manager works. -/
theorem Down.create (h : Down s) {job : Job} (hpc : s.pc t = .perform job) (logName : List Char)
    (mode : ThreadMode) : Down ((s.create logName mode).goto t .writeUnlock) := by
  have hwork := h.perform t job hpc
  have hphase : (s.create logName mode).phase = s.phase := by
    unfold State.create
    split <;> rfl
  have hcancelled : (s.create logName mode).cancelled = s.cancelled := by
    unfold State.create
    split <;> rfl
  have hcases : ∀ u, ((s.create logName mode).goto t .writeUnlock).pc u = .writeUnlock ∨
      ((s.create logName mode).goto t .writeUnlock).pc u = .head ∨
      ((s.create logName mode).goto t .writeUnlock).pc u = s.pc u := by
    intro u
    rw [goto_pc, create_pc]
    split_ifs
    · exact Or.inl rfl
    · exact Or.inr (Or.inl rfl)
    · exact Or.inr (Or.inr rfl)
  have hnot : s.phase ≠ .uninitialized := by
    rw [hwork]
    nofun
  refine ⟨Or.inl (hphase.trans hwork), fun u hu => ?_, fun u hu => ?_, fun u => ?_, fun u job' hu => ?_,
    fun u b ops hu => ?_, fun hdown => (hnot (hphase ▸ hdown)).elim⟩
  · exact (hnot (h.cancelled u (hcancelled ▸ hu))).elim
  · refine (hnot (h.cancelled u (h.leaving u ?_))).elim
    rcases hcases u with heq | heq | heq
    · simp [heq] at hu
    · simp [heq] at hu
    · rwa [heq] at hu
  · rcases hcases u with heq | heq | heq
    · simp [heq]
    · simp [heq]
    · rw [heq]
      exact h.restart u
  · exact hphase.trans hwork
  · rcases hcases u with heq | heq | heq
    · simp [heq, Pc.ops] at hu
    · simp [heq, Pc.ops] at hu
    · rw [heq] at hu
      have hok := h.ops u b ops hu
      cases b with
      | true => exact (hnot hok.1).elim
      | false => exact hok

/-- `uninit` changes the phase. -/
theorem Down.shutdown (h : Down s) (hI : Inv s) (hpc : s.pc t = .uninitPhase) (hphase : s.phase = .working) :
    Down ({ s with phase := .uninitialized }.goto t (.script true s.shutdown)) := by
  have hnot : s.phase ≠ .uninitialized := by
    rw [hphase]
    nofun
  have hcases : ∀ u, u = t ∨ (s.goto t (.script true s.shutdown)).pc u = s.pc u := by
    intro u
    by_cases hu : u = t
    · exact Or.inl hu
    · exact Or.inr (goto_pc_of_ne hu)
  have hself : (s.goto t (.script true s.shutdown)).pc t = .script true s.shutdown := goto_pc_self
  have hstarted : ∀ w, (s.goto t (.script true s.shutdown)).pc w = .unstarted ↔ s.pc w = .unstarted := by
    intro w
    rcases hcases w with rfl | heq
    · rw [hself, hpc]
      simp
    · rw [heq]
  refine ⟨Or.inr rfl, fun _ _ => rfl, fun u hu => ?_, fun u => ?_, fun u job hu => ?_, fun u b ops hu => ?_,
    fun _ => Or.inl ⟨t, s.shutdown, congrArg Pc.ops hself⟩⟩
  · rcases hcases u with rfl | heq
    · rcases hu with hu | hu <;> exact absurd (hself.symm.trans hu) (by nofun)
    · exact h.leaving u (heq ▸ hu)
  · rcases hcases u with rfl | heq
    · exact ⟨fun hu => absurd (hself.symm.trans hu) (by nofun),
        fun hu => absurd (hself.symm.trans hu) (by nofun)⟩
    · exact ⟨fun hu => (h.restart u).1 (heq.symm.trans hu), fun hu => (h.restart u).2 (heq.symm.trans hu)⟩
  · exfalso
    rcases hcases u with rfl | heq
    · exact absurd (hself.symm.trans hu) (by nofun)
    · have hu' : s.pc u = .perform job := heq.symm.trans hu
      have hw : LockName.logs ∈ (s.pc u).writes u := by
        rw [hu']
        exact List.mem_singleton_self _
      refine hI.locked.not_mem_reads hw t ?_
      rw [hpc]
      exact List.mem_singleton_self _
  · rcases hcases u with rfl | heq
    · obtain ⟨rfl, rfl⟩ := Prod.mk.inj (Option.some.inj ((congrArg Pc.ops hself).symm.trans hu))
      refine ⟨rfl, cancelsFirst_shutdown s, fun w hw => ?_, fun w hw hne => Or.inr ?_⟩
      · refine ⟨?_, fun hun => ?_⟩
        · rcases mem_shutdown.1 hw with rfl | ⟨n, rfl, -⟩ <;> rfl
        · rcases mem_shutdown.1 hw with rfl | ⟨n, rfl, hn⟩
          · exact hI.publicStarted ((hstarted _).1 hun)
          · exact (hI.started n).1 ((hstarted _).1 hun) hn
      · rw [mem_shutdown]
        cases w with
        | publicWorker => exact Or.inl rfl
        | worker n =>
          exact Or.inr ⟨n, rfl, not_not.1 (mt (hI.started n).2 fun hun => hne ((hstarted _).2 hun))⟩
        | caller i => cases hw
    · have hok := h.ops u b ops ((congrArg Pc.ops heq).symm.trans hu)
      cases b with
      | true => exact (hnot hok.1).elim
      | false => exact hok

/-- A cancelled worker goes on outside its loop. -/
theorem Down.outside (h : Down s) (hcancel : s.cancelled t = true)
    (hfrom : s.pc t ≠ .unstarted ∧ s.pc t ≠ .exited) (hops : (s.pc t).ops = none)
    (hto : pc = .watchDog ∨ pc = .exited) : Down (s.goto t pc) := by
  have hself : (s.goto t pc).pc t = pc := goto_pc_self
  have hne : pc ≠ .unstarted := by
    rintro rfl
    rcases hto with hto | hto <;> cases hto
  refine h.of_frame (.of_goto rfl (fun _ => id) rfl hfrom hne) (.of_goto rfl) h.cancelled (fun _ => hcancel)
    ?_ ?_ ?_ ?_
  · rw [hself]
    rcases hto with rfl | rfl <;> exact ⟨nofun, nofun⟩
  · rw [hself]
    rcases hto with rfl | rfl <;> nofun
  · rw [hself]
    rcases hto with rfl | rfl <;> nofun
  · rw [hops]
    nofun

/-- The last operation is done: every worker has left its loop, or `uninit` is not what was done. -/
theorem Down.finish (h : Down s) {u : Bool} (hpc : s.pc t = .script u []) :
    Down (s.goto t (if u then .uninitUnlock else .idle)) := by
  have hok := h.ops t u [] (by rw [hpc]; rfl)
  refine h.of_frame (.of_goto rfl (fun _ => id) rfl ⟨by rw [hpc]; nofun, by rw [hpc]; nofun⟩ ?_)
    (.of_goto rfl) h.cancelled ?_ ?_ ?_ ?_ ?_
  · cases u <;> nofun
  · rw [goto_pc_self]
    cases u <;> simp
  · rw [goto_pc_self]
    cases u <;> simp
  · rw [goto_pc_self]
    cases u <;> simp
  · rw [goto_pc_self]
    cases u <;> simp [Pc.ops]
  · rw [hpc]
    rintro ops heq
    obtain ⟨rfl, rfl⟩ := Prod.mk.inj (Option.some.inj heq)
    refine Or.inr fun w hw => ?_
    by_cases hun : s.pc w = .unstarted
    · exact Or.inl hun
    · exact Or.inr ((hok.2.2.2 w hw hun).resolve_right (by simp))

/-- Only `uninit` cancels a worker, and it changes the phase before. -/
theorem Down.cancel (h : Down s) {u : Bool} {w : Thread ι} {ops : List (Op ι)}
    (hpc : s.pc t = .script u (.cancel w :: ops)) :
    Down ({ s with cancelled := Function.update s.cancelled w true }.goto t (.script u ops)) := by
  have hops : (s.pc t).ops = some (u, .cancel w :: ops) := by rw [hpc]; rfl
  have hok := h.ops t u (.cancel w :: ops) hops
  have hdown : s.phase = .uninitialized := by
    cases u with
    | true => exact hok.1
    | false =>
      obtain ⟨w', hw'⟩ := hok _ List.mem_cons_self
      cases hw'
  have hstarted := Pc.started_of_ops hops
  have hok' : OpsOk { s with cancelled := Function.update s.cancelled w true } u ops :=
    hok.tail rfl rfl id fun w' hw' => by cases hw'
  have hf : Frame { s with cancelled := Function.update s.cancelled w true }
      ({ s with cancelled := Function.update s.cancelled w true }.goto t (.script u ops)) :=
    .of_goto rfl (fun _ => id) rfl ⟨hstarted.1, hstarted.2.1⟩ nofun
  refine h.ofOps hops (show (Pc.script u ops).ops = _ from rfl)
    (.of_goto rfl (fun v hv => ?_) rfl ⟨hstarted.1, hstarted.2.1⟩ nofun) (.of_goto rfl) goto_pc_self
    (fun _ _ => hdown) (hok'.mono hf)
  change Function.update s.cancelled w true v = true
  rw [Function.update_apply]
  split
  · rfl
  · exact hv

/-- A thread goes on with the operations behind the first one, which changes no flag that matters here. -/
theorem Down.next (h : Down s) {u : Bool} {op : Op ι} {ops : List (Op ι)}
    (hpc : s.pc t = .script u (op :: ops)) (hto : pc.ops = some (u, ops))
    (hcancels : CancelsFirst s.cancelled (op :: ops) → CancelsFirst s.cancelled ops)
    (hjoin : ∀ w, op = .join w → s.pc w = .exited) : Down (s.goto t pc) := by
  have hops : (s.pc t).ops = some (u, op :: ops) := by rw [hpc]; rfl
  have hstarted := Pc.started_of_ops hops
  have hne : pc ≠ .unstarted := by
    rintro rfl
    cases hto
  have hf : Frame s (s.goto t pc) := .of_goto rfl (fun _ => id) rfl ⟨hstarted.1, hstarted.2.1⟩ hne
  exact h.ofOps hops hto hf (.of_goto rfl) goto_pc_self h.cancelled
    (((h.ops t u _ hops).tail rfl rfl hcancels hjoin).mono hf)

/-- **The next action of a thread** keeps the invariant. -/
theorem Down.effect (h : Down s) (hI : Inv s) (he : Effect s t s') : Down s' := by
  cases he with
  | plain pc hp hfrom hto hsleep hperform => exact h.plain hp hfrom hto hperform
  | setAwake hpc =>
    have hwait : Down (s.goto t .waitFor) := h.plain plain_goto (by rw [hpc]; rfl) rfl nofun
    exact hwait.congr rfl rfl rfl
  | clearAwake hpc =>
    have hunlock : Down (s.goto t .mutexUnlock) := h.plain plain_goto (by rw [hpc]; rfl) rfl nofun
    exact hunlock.congr rfl rfl rfl
  | leave didWork hpc hcancel =>
    exact h.outside hcancel ⟨by rw [hpc]; nofun, by rw [hpc]; nofun⟩ (by rw [hpc]; rfl) (Or.inl rfl)
  | exit hpc =>
    have hcancel := h.leaving t (Or.inl hpc)
    have hphase := h.cancelled t hcancel
    rw [if_neg (by rw [hphase]; nofun)]
    exact h.outside hcancel ⟨by rw [hpc]; nofun, by rw [hpc]; nofun⟩ (by rw [hpc]; rfl) (Or.inr rfl)
  | restart hpc =>
    rcases hpc with hpc | hpc
    · exact ((h.restart t).1 hpc).elim
    · exact ((h.restart t).2 hpc).elim
  | create job logName mode hpc => exact h.create hpc logName mode
  | shutdown hpc hphase => exact h.shutdown hI hpc hphase
  | done u hpc => exact h.finish hpc
  | cancel u w ops hpc => exact h.cancel hpc
  | awake u w ops hpc =>
    have hrest : ∀ pc : Pc ι, pc.ops = some (u, ops) → Down (s.goto t pc) := fun pc hto =>
      h.next hpc hto id fun w' hw' => by cases hw'
    split
    · exact (hrest _ rfl).congr rfl rfl rfl
    · exact (hrest _ rfl).congr rfl rfl rfl
  | join u w ops hpc hw =>
    refine h.next hpc rfl And.right fun w' heq => ?_
    obtain rfl := Op.join.inj heq
    exact hw
  | notifyLock u w ops hpc hp =>
    have hf : Frame s s' := .of_goto hp.phase (fun _ hu => hp.cancelled ▸ hu) hp.goes
      ⟨by rw [hpc]; nofun, by rw [hpc]; nofun⟩ nofun
    have hops : (s.pc t).ops = some (u, ops) := by rw [hpc]; rfl
    refine h.ofOps hops (show (Pc.notifyAll w u ops).ops = _ from rfl) hf (.of_goto hp.goes) ?_ ?_
      (OpsOk.mono hf (h.ops t u ops hops))
    · rw [hp.goes, goto_pc_self]
    · rw [hp.cancelled]
      exact h.cancelled
  | notifyUnlock u w ops hpc hp =>
    have hf : Frame s s' := .of_goto hp.phase (fun _ hu => hp.cancelled ▸ hu) hp.goes
      ⟨by rw [hpc]; nofun, by rw [hpc]; nofun⟩ nofun
    have hops : (s.pc t).ops = some (u, ops) := by rw [hpc]; rfl
    refine h.ofOps hops (show (Pc.script u ops).ops = _ from rfl) hf (.of_goto hp.goes) ?_ ?_
      (OpsOk.mono hf (h.ops t u ops hops))
    · rw [hp.goes, goto_pc_self]
    · rw [hp.cancelled]
      exact h.cancelled
  | notifyAll u w ops hpc =>
    have hf := frame_notify hpc
    have hops : (s.pc t).ops = some (u, ops) := by rw [hpc]; rfl
    exact h.ofOps hops (show (Pc.notifyUnlock w u ops).ops = _ from rfl) hf (others_notify _ _) goto_pc_self
      (fun v hv => h.cancelled v (notify_cancelled w ▸ hv)) (OpsOk.mono hf (h.ops t u ops hops))

theorem Down.new : Down (State.new : State ι) where
  phase := Or.inl rfl
  cancelled := nofun
  leaving t := by cases t <;> simp [State.new]
  restart t := by cases t <;> simp [State.new]
  perform t := by cases t <;> simp [State.new]
  ops t := by cases t <;> simp [State.new, Pc.ops]
  done := nofun

/-- **One step.** -/
theorem Down.step (h : Down s) (hI : Inv s) {a : Thread ι × Act ι} (hs : step s a = some s') : Down s' := by
  obtain ⟨t, act⟩ := a
  cases act with
  | next b => cases t <;> exact h.effect hI (effect_of_next hs)
  | entry => cases t <;> exact h.effect hI (effect_of_entry hs)
  | call c =>
    cases t with
    | publicWorker | worker => cases hs
    | caller i =>
      simp only [Workers.step] at hs
      split at hs
      · rename_i hpc
        rcases plain_of_call hs with rfl | ⟨pc, hp, ⟨hcalm, hjob⟩ | ⟨w, rfl⟩, -⟩
        · exact h
        · exact h.plain hp (by rw [hpc]; rfl) hcalm fun job heq => (hjob job heq).elim
        · have hself : s'.pc (.caller i) = .script false [.awake w] := by rw [hp.goes, goto_pc_self]
          refine h.of_frame (.of_goto hp.phase (fun _ hu => hp.cancelled ▸ hu) hp.goes
            ⟨by rw [hpc]; simp, by rw [hpc]; simp⟩ (by simp)) (.of_goto hp.goes) ?_ ?_ ?_ ?_ ?_ ?_
          · rw [hp.cancelled]
            exact h.cancelled
          · rw [hself]
            simp
          · rw [hself]
            exact ⟨by simp, by simp⟩
          · rw [hself]
            simp
          · rw [hself]
            rintro u ops ⟨⟩
            exact fun op hop => ⟨w, List.mem_singleton.1 hop⟩
          · rw [hpc]
            rintro ops ⟨⟩
      · cases hs

end Down

end QLog.Workers
