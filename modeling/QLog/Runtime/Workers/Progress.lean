import QLog.Runtime.Workers.Shutdown

/-!
# Nobody waits forever

The locks of the manager are taken in an order. Who has the mutex of a worker or the spin lock of a log waits
for nothing; who writes the list may wait for a spin lock; a worker waits for the writer of the list; `uninit`
waits for a worker, another `uninit` for the first, and a writer for all who read. So whoever waits does so
for a thread that can go on (`shutdown_completes`). Besides the entries that it reads, a cancelled worker has
a bounded number of steps to its end: it comes to its end unless the writers fill its logs for ever.

`awake` takes the flag of a worker before it notifies it. A worker that sleeps without its flag will be
notified (`awake_not_lost`).
-/

namespace QLog.Workers

/-! ## Waiting -/

section Waiting

variable {ι : Type*}

/-- A thread that has nothing to do. -/
def Pc.atRest : Pc ι → Bool
  | .idle | .unstarted | .exited => true
  | _ => false

/-- The lock that is taken for reading next. -/
def Pc.wantsRead : Pc ι → Option (LockName ι)
  | .head | .uninitReadLock => some .logs
  | _ => none

/-- The lock that is taken for writing next, or as the only one. -/
def Pc.wantsWrite (t : Thread ι) : Pc ι → Option (LockName ι)
  | .mutexLock | .woken => some (.mutex t)
  | .restartLock | .uninitLock => some .uninit
  | .writeLock _ => some .logs
  | .exchangeLock log | .syncLock log => some (.spin log)
  | .notifyLock w _ _ => some (.mutex w)
  | _ => none

/-- The worker that is joined next. -/
def Pc.joins : Pc ι → Option (Thread ι)
  | .script _ (.join w :: _) => some w
  | _ => none

/-- The thread waits for another one: for a lock, or for its end. -/
def State.WaitsFor (s : State ι) (t u : Thread ι) : Prop :=
  (∃ k, (s.pc t).wantsRead = some k ∧ k ∈ (s.pc u).writes u) ∨
    (∃ k, (s.pc t).wantsWrite t = some k ∧ (k ∈ (s.pc u).reads ∨ k ∈ (s.pc u).writes u)) ∨
      ((s.pc t).joins = some u ∧ s.pc u ≠ .exited)

/-- The place of a thread in the order. -/
def Pc.level : Pc ι → ℕ
  | .exchangeLock _ | .syncLock _ | .mutexLock | .woken | .notifyLock _ _ _ => 1
  | .head | .uninitReadLock => 2
  | .script _ (.join _ :: _) => 3
  | .uninitLock | .restartLock => 4
  | .writeLock _ => 5
  | _ => 0

/-- Who holds a lock is not at rest, and low in the order. -/
theorem level_of_mem_writes {pc : Pc ι} {t : Thread ι} {k : LockName ι} (h : k ∈ pc.writes t) :
    pc.atRest = false ∧ pc.level ≤ 3 ∧ (k = .logs → pc.level ≤ 1) ∧
      ((∃ w, k = .mutex w) ∨ (∃ log, k = .spin log) → pc.level = 0) := by
  cases pc with
  | setAwake | waitFor | clearAwake | mutexUnlock => simp_all [Pc.writes, Pc.atRest, Pc.level]
  | restartCheck | uninitPhase | uninitUnlock => simp_all [Pc.writes, Pc.atRest, Pc.level]
  | writePhase | perform | exchangeLock | flush | flushProcess | writeUnlock =>
    simp_all [Pc.writes, Pc.atRest, Pc.level]
  | exchange | exchangeUnlock | syncProcess | syncUnlock => simp [Pc.atRest, Pc.level]
  | notifyAll w u ops | notifyUnlock w u ops => simp [Pc.atRest, Pc.level]
  | notifyLock w u ops =>
    cases u <;> simp_all [Pc.writes, Pc.atRest, Pc.level]
  | script u ops =>
    have hlevel : (Pc.script u ops).level ≤ 3 := by
      unfold Pc.level
      split <;> simp_all
    cases u with
    | false => cases h
    | true =>
      obtain rfl := List.mem_singleton.1 h
      simp [Pc.atRest, hlevel]
  | _ => cases h

/-- Who reads the list is below the writers. -/
theorem level_of_mem_reads {pc : Pc ι} {k : LockName ι} (h : k ∈ pc.reads) :
    k = .logs ∧ pc.atRest = false ∧ pc.level ≤ 4 := by
  cases pc with
  | script u ops =>
    have hlevel : (Pc.script u ops).level ≤ 4 := by
      unfold Pc.level
      split <;> simp_all
    cases u with
    | false => cases h
    | true => exact ⟨List.mem_singleton.1 h, rfl, hlevel⟩
  | notifyLock w u ops | notifyAll w u ops | notifyUnlock w u ops =>
    cases u with
    | false => cases h
    | true => exact ⟨List.mem_singleton.1 h, rfl, by simp [Pc.level]⟩
  | phaseCheck | turn | process | readUnlock | uninitLock | uninitPhase | uninitUnlock | uninitReadUnlock =>
    exact ⟨List.mem_singleton.1 h, rfl, by simp [Pc.level]⟩
  | _ => cases h

/-- A worker that does not restart waits for the list at most. -/
theorem level_of_isWorker {pc : Pc ι} (h : pc.isWorker = true) (hne : pc ≠ .restartLock) : pc.level ≤ 2 := by
  cases pc with
  | restartLock => exact (hne rfl).elim
  | _ => simp_all [Pc.isWorker, Pc.level]

variable [DecidableEq ι]

/-- The thread can take a step. -/
def State.CanStep (s : State ι) (t : Thread ι) : Prop := ∃ b s', s.next t b = some s'

variable {s s' : State ι} {t u : Thread ι} {k : LockName ι} {pc : Pc ι}

theorem Inv.acquireRead_or (h : Inv s) (t : Thread ι) (k : LockName ι) (pc : Pc ι) :
    (∃ s', s.acquireRead t k pc = some s') ∨ ∃ u, k ∈ (s.pc u).writes u := by
  unfold State.acquireRead RwLock.readLock
  cases hw : (s.lock k).writer with
  | none => exact Or.inl ⟨_, rfl⟩
  | some u => exact Or.inr ⟨u, (h.locked.writer k u).1 hw⟩

theorem Inv.acquire_or (h : Inv s) (t : Thread ι) (k : LockName ι) (pc : Pc ι) :
    (∃ s', s.acquire t k pc = some s') ∨ ∃ u, k ∈ (s.pc u).reads ∨ k ∈ (s.pc u).writes u := by
  unfold State.acquire RwLock.writeLock
  cases hw : (s.lock k).writer with
  | some u => exact Or.inr ⟨u, Or.inr ((h.locked.writer k u).1 hw)⟩
  | none =>
    cases hr : (s.lock k).readers with
    | nil => exact Or.inl ⟨_, rfl⟩
    | cons u us =>
      refine Or.inr ⟨u, Or.inl (List.count_pos_iff.1 ?_)⟩
      have hcount := h.locked.readers k u
      rw [hr, List.count_cons_self] at hcount
      omega

/-- A thread that is not at rest goes on or waits. -/
theorem Inv.canStep_or_waits (h : Inv s) (hrest : (s.pc t).atRest = false) :
    s.CanStep t ∨ ∃ u, s.WaitsFor t u := by
  have hread : ∀ k pc, (s.pc t).wantsRead = some k → (∀ b, s.next t b = s.acquireRead t k pc) →
      s.CanStep t ∨ ∃ u, s.WaitsFor t u := by
    intro k pc hwants hnext
    rcases h.acquireRead_or t k pc with ⟨s', hs'⟩ | ⟨u, hu⟩
    · exact Or.inl ⟨true, s', (hnext true).trans hs'⟩
    · exact Or.inr ⟨u, Or.inl ⟨k, hwants, hu⟩⟩
  have hwrite : ∀ k pc, (s.pc t).wantsWrite t = some k → (∀ b, s.next t b = s.acquire t k pc) →
      s.CanStep t ∨ ∃ u, s.WaitsFor t u := by
    intro k pc hwants hnext
    rcases h.acquire_or t k pc with ⟨s', hs'⟩ | ⟨u, hu⟩
    · exact Or.inl ⟨true, s', (hnext true).trans hs'⟩
    · exact Or.inr ⟨u, Or.inr (Or.inl ⟨k, hwants, hu⟩)⟩
  have hfree : (∃ s', s.next t true = some s') → s.CanStep t ∨ ∃ u, s.WaitsFor t u := fun ⟨s', hs'⟩ =>
    Or.inl ⟨true, s', hs'⟩
  unfold State.next at hread hwrite hfree
  cases hpc : s.pc t with
  | idle | unstarted | exited =>
    rw [hpc] at hrest
    cases hrest
  | head | uninitReadLock => exact hread .logs _ (by rw [hpc]; rfl) fun b => by rw [hpc]
  | mutexLock | woken => exact hwrite (.mutex t) _ (by rw [hpc]; rfl) fun b => by rw [hpc]
  | restartLock | uninitLock => exact hwrite .uninit _ (by rw [hpc]; rfl) fun b => by rw [hpc]
  | exchangeLock log | syncLock log => exact hwrite (.spin log) _ (by rw [hpc]; rfl) fun b => by rw [hpc]
  | notifyLock w u ops => exact hwrite (.mutex w) _ (by rw [hpc]; rfl) fun b => by rw [hpc]
  | writeLock job =>
    rcases h.acquire_or t .logs (s.begin job) with ⟨s', hs'⟩ | ⟨u, hu⟩
    · exact hfree ⟨s', by simp [hpc, hs']⟩
    · exact Or.inr ⟨u, Or.inr (Or.inl ⟨.logs, by rw [hpc]; rfl, hu⟩)⟩
  | script u ops =>
    cases ops with
    | nil => exact hfree ⟨_, by rw [hpc]; rfl⟩
    | cons op ops =>
      cases op with
      | cancel w => exact hfree ⟨_, by rw [hpc]; rfl⟩
      | awake w => exact hfree ⟨_, by rw [hpc]; rfl⟩
      | join w =>
        by_cases hw : s.pc w = .exited
        · exact hfree ⟨s.goto t (.script u ops), by simp [hpc, State.runOp, hw]⟩
        · exact Or.inr ⟨w, Or.inr (Or.inr ⟨by rw [hpc]; rfl, hw⟩)⟩
  | turn todo | flush todo => cases todo <;> exact hfree ⟨_, by rw [hpc]⟩
  | restartCheck | uninitPhase =>
    refine hfree ?_
    rw [hpc]
    by_cases hphase : s.phase = .working
    · exact ⟨_, if_pos hphase⟩
    · exact ⟨_, if_neg hphase⟩
  | _ => exact hfree ⟨_, by rw [hpc]⟩

/-- **The order of waiting.** -/
theorem WaitsFor.level_lt (hI : Inv s) (hD : Down s) (h : s.WaitsFor t u) :
    (s.pc u).atRest = false ∧ (s.pc u).level < (s.pc t).level := by
  rcases h with ⟨k, hwants, hk⟩ | ⟨k, hwants, hk⟩ | ⟨hjoins, hexited⟩
  · obtain ⟨hrest, -, hlogs, -⟩ := level_of_mem_writes hk
    cases hpc : s.pc t with
    | head | uninitReadLock =>
      rw [hpc] at hwants
      obtain rfl := Option.some.inj hwants
      exact ⟨hrest, (hlogs rfl).trans_lt (by simp [Pc.level])⟩
    | _ =>
      rw [hpc] at hwants
      cases hwants
  · -- the mutexes and the spin locks are held by threads that wait for nothing
    have hmutual : (∃ w, k = .mutex w) ∨ (∃ log, k = .spin log) →
        (s.pc u).atRest = false ∧ (s.pc u).level = 0 := by
      intro hkind
      rcases hk with hk | hk
      · obtain ⟨rfl, -⟩ := level_of_mem_reads hk
        rcases hkind with ⟨w, hw⟩ | ⟨log, hlog⟩
        · cases hw
        · cases hlog
      · obtain ⟨hrest, -, -, hzero⟩ := level_of_mem_writes hk
        exact ⟨hrest, hzero hkind⟩
    cases hpc : s.pc t with
    | mutexLock | woken | notifyLock w uninit ops =>
      rw [hpc] at hwants
      obtain rfl := Option.some.inj hwants
      obtain ⟨hrest, hzero⟩ := hmutual (Or.inl ⟨_, rfl⟩)
      exact ⟨hrest, hzero.trans_lt Nat.one_pos⟩
    | exchangeLock log | syncLock log =>
      rw [hpc] at hwants
      obtain rfl := Option.some.inj hwants
      obtain ⟨hrest, hzero⟩ := hmutual (Or.inr ⟨_, rfl⟩)
      exact ⟨hrest, hzero.trans_lt Nat.one_pos⟩
    | restartLock | uninitLock =>
      rw [hpc] at hwants
      obtain rfl := Option.some.inj hwants
      rcases hk with hk | hk
      · cases (level_of_mem_reads hk).1
      · obtain ⟨hrest, hle, -⟩ := level_of_mem_writes hk
        exact ⟨hrest, hle.trans_lt (by simp [Pc.level])⟩
    | writeLock job =>
      rcases hk with hk | hk
      · obtain ⟨-, hrest, hle⟩ := level_of_mem_reads hk
        exact ⟨hrest, hle.trans_lt (by simp [Pc.level])⟩
      · obtain ⟨hrest, hle, -⟩ := level_of_mem_writes hk
        exact ⟨hrest, hle.trans_lt (by simp [Pc.level])⟩
    | _ =>
      rw [hpc] at hwants
      cases hwants
  · cases hpc : s.pc t with
    | script uninit ops =>
      rw [hpc] at hjoins
      cases ops with
      | nil => cases hjoins
      | cons op ops =>
        cases op with
        | cancel w | awake w => cases hjoins
        | join w =>
          obtain rfl := Option.some.inj hjoins
          have hok := hD.ops t uninit (.join w :: ops) (by rw [hpc]; rfl)
          cases uninit with
          | false =>
            obtain ⟨w', hw'⟩ := hok _ List.mem_cons_self
            cases hw'
          | true =>
            obtain ⟨hworker, hstarted⟩ := hok.2.2.1 w List.mem_cons_self
            have hkind : (s.pc w).isWorker = true := (hI.kind w).trans hworker
            refine ⟨?_, (level_of_isWorker hkind (hD.restart w).1).trans_lt (by simp [Pc.level])⟩
            cases hw : s.pc w with
            | unstarted => exact (hstarted hw).elim
            | exited => exact (hexited hw).elim
            | idle =>
              rw [hw] at hkind
              cases hkind
            | _ => rfl
    | _ =>
      rw [hpc] at hjoins
      cases hjoins

/-- Whoever is not at rest waits in the end for a thread that can take a step. -/
theorem exists_canStep (hI : Inv s) (hD : Down s) (hrest : (s.pc t).atRest = false) :
    ∃ u, Relation.ReflTransGen s.WaitsFor t u ∧ s.CanStep u :=
  exists_reflTransGen_of_rank (fun t => (s.pc t).level) (fun _ => hI.canStep_or_waits)
    (fun _ _ _ h => WaitsFor.level_lt hI hD h) hrest

end Waiting

/-! ## The end of a worker -/

section Ending

variable {ι : Type*}

/-- The steps to the end of a worker that is cancelled, besides the entries that it reads. -/
def Pc.stepsLeft : Pc ι → ℕ
  | .watchDog => 1
  | .cancelCheck _ => 2
  | .readUnlock _ => 3
  | .phaseCheck => 4
  | .turn todo _ => 4 + 2 * todo.length
  | .process _ todo _ => 5 + 2 * todo.length
  | .head => 5
  | .mutexUnlock => 6
  | .clearAwake => 7
  | .woken => 8
  | .waiting => 9
  | .waitFor => 10
  | .setAwake => 11
  | .mutexLock => 12
  | _ => 0

variable [DecidableEq ι] {s s' : State ι} {t u w : Thread ι} {k : LockName ι} {pc : Pc ι}

theorem acquire_pc (h : s.acquire t k pc = some s') : s'.pc t = pc := by
  rw [(plain_of_acquire h).goes, goto_pc_self]

theorem acquireRead_pc (h : s.acquireRead t k pc = some s') : s'.pc t = pc := by
  rw [(plain_of_acquireRead h).goes, goto_pc_self]

/-- An own step of a cancelled worker brings it nearer to its end. -/
theorem stepsLeft_lt_of_next (hI : Inv s) (hD : Down s) (hw : w.isWorker = true)
    (hcancel : s.cancelled w = true) {b : Bool} (hs : s.next w b = some s') :
    (s'.pc w).stepsLeft < (s.pc w).stepsLeft := by
  have hphase : s.phase ≠ .working := by
    rw [hD.cancelled w hcancel]
    nofun
  have hkind := (hI.kind w).trans hw
  unfold State.next at hs
  cases hpc : s.pc w with
  | unstarted | exited => simp [hpc] at hs
  | head =>
    simp only [hpc] at hs
    simp [acquireRead_pc hs, Pc.stepsLeft]
  | mutexLock | woken =>
    simp only [hpc] at hs
    simp [acquire_pc hs, Pc.stepsLeft]
  | restartLock => exact ((hD.restart w).1 hpc).elim
  | restartCheck => exact ((hD.restart w).2 hpc).elim
  | turn todo didWork =>
    cases todo with
    | nil =>
      simp only [hpc, Option.some.injEq] at hs
      subst hs
      simp [Pc.stepsLeft]
    | cons log todo =>
      simp only [hpc, Option.some.injEq] at hs
      subst hs
      simp only [goto_pc_self, Pc.stepsLeft, List.length_cons]
      omega
  | phaseCheck | cancelCheck | watchDog =>
    simp only [hpc, Option.some.injEq] at hs
    subst hs
    simp [hphase, hcancel, Pc.stepsLeft]
  | process | setAwake | waiting | clearAwake =>
    simp only [hpc, Option.some.injEq] at hs
    subst hs
    simp [Pc.stepsLeft]
  | readUnlock | waitFor | mutexUnlock =>
    simp only [hpc, Option.some.injEq] at hs
    subst hs
    simp [State.release, State.releaseRead, Pc.stepsLeft]
  | _ =>
    rw [hpc] at hkind
    cases hkind

/-- The steps of the others do not take a cancelled worker farther from its end. -/
theorem stepsLeft_le_of_effect (hD : Down s) (hcancel : s.cancelled w = true) (hne : t ≠ w)
    (he : Effect s t s') : (s'.pc w).stepsLeft ≤ (s.pc w).stepsLeft := by
  have hphase : s.phase ≠ .working := by
    rw [hD.cancelled w hcancel]
    nofun
  have hsame : ∀ {s₁ : State ι} {pc : Pc ι}, s₁.pc = s.pc →
      ((s₁.goto t pc).pc w).stepsLeft ≤ (s.pc w).stepsLeft := by
    intro s₁ pc heq
    rw [goto_pc_of_ne hne.symm, heq]
  have hplain : ∀ {pc : Pc ι}, Plain s t pc s' → (s'.pc w).stepsLeft ≤ (s.pc w).stepsLeft := by
    intro pc hp
    rw [hp.goes]
    exact hsame rfl
  cases he with
  | plain pc hp => exact hplain hp
  | notifyLock u v ops hpc hp => exact hplain hp
  | notifyUnlock u v ops hpc hp => exact hplain hp
  | restart hpc =>
    rcases hpc with hpc | hpc
    · exact ((hD.restart t).1 hpc).elim
    · exact ((hD.restart t).2 hpc).elim
  | create job logName mode hpc => exact (hphase (hD.perform t job hpc)).elim
  | shutdown hpc hwork => exact (hphase hwork).elim
  | notifyAll u v ops hpc =>
    rw [goto_pc_of_ne hne.symm]
    unfold State.notify
    split
    · rename_i hv
      rw [goto_pc]
      split
      · rename_i heq
        rw [heq, hv]
        simp [Pc.stepsLeft]
      · exact le_refl _
    · exact le_refl _
  | setAwake | clearAwake | leave | exit | done | cancel | awake | join => exact hsame rfl

theorem cancelled_of_effect (hD : Down s) (hcancel : s.cancelled w = true) (he : Effect s t s') :
    s'.cancelled w = true := by
  have hplain : ∀ {pc : Pc ι}, Plain s t pc s' → s'.cancelled w = true := fun hp => hp.cancelled ▸ hcancel
  cases he with
  | plain pc hp => exact hplain hp
  | notifyLock u v ops hpc hp => exact hplain hp
  | notifyUnlock u v ops hpc hp => exact hplain hp
  | restart hpc =>
    rcases hpc with hpc | hpc
    · exact ((hD.restart t).1 hpc).elim
    · exact ((hD.restart t).2 hpc).elim
  | create job logName mode hpc =>
    change (s.create logName mode).cancelled w = true
    unfold State.create
    split <;> exact hcancel
  | notifyAll u v ops hpc =>
    change (s.notify v).cancelled w = true
    unfold State.notify
    split <;> exact hcancel
  | cancel u v ops hpc =>
    change Function.update s.cancelled v true w = true
    rw [Function.update_apply]
    split
    · rfl
    · exact hcancel
  | setAwake | clearAwake | leave | exit | shutdown | done | awake | join => exact hcancel

/-- An entry keeps the worker where it is. -/
theorem stepsLeft_of_entry (hs : s.entry w = some s') : (s'.pc w).stepsLeft = (s.pc w).stepsLeft := by
  unfold State.entry at hs
  split at hs
  · rename_i hpc
    obtain rfl := Option.some.inj hs
    rw [goto_pc_self, hpc]
    rfl
  · rename_i hpc
    obtain rfl := Option.some.inj hs
    rw [goto_pc_self, hpc]
  · cases hs

/-- One step of a run, for a worker that is cancelled. -/
theorem stepsLeft_of_step (hI : Inv s) (hD : Down s) (hw : w.isWorker = true) (hcancel : s.cancelled w = true)
    {a : Thread ι × Act ι} (hs : step s a = some s') : s'.cancelled w = true ∧
      (if a.1 = w ∧ a.2 ≠ .entry then 1 else 0) + (s'.pc w).stepsLeft ≤ (s.pc w).stepsLeft := by
  obtain ⟨t, act⟩ := a
  cases act with
  | entry =>
    have hentry : s.entry t = some s' := by
      cases t <;> exact hs
    have he := effect_of_entry hentry
    refine ⟨cancelled_of_effect hD hcancel he, ?_⟩
    rw [if_neg fun h => h.2 rfl, Nat.zero_add]
    by_cases heq : t = w
    · subst heq
      exact (stepsLeft_of_entry hentry).le
    · exact stepsLeft_le_of_effect hD hcancel heq he
  | next b =>
    have hnext : s.next t b = some s' := by
      cases t <;> exact hs
    have he := effect_of_next hnext
    refine ⟨cancelled_of_effect hD hcancel he, ?_⟩
    by_cases heq : t = w
    · subst heq
      have hlt := stepsLeft_lt_of_next hI hD hw hcancel hnext
      split <;> omega
    · rw [if_neg fun h => heq h.1, Nat.zero_add]
      exact stepsLeft_le_of_effect hD hcancel heq he
  | call c =>
    cases t with
    | publicWorker | worker => cases hs
    | caller i =>
      simp only [Workers.step] at hs
      split at hs
      · have hne : Thread.caller i ≠ w := by
          rintro rfl
          cases hw
        rw [if_neg fun h => hne h.1, Nat.zero_add]
        rcases plain_of_call hs with rfl | ⟨pc, hp, -⟩
        · exact ⟨hcancel, le_refl _⟩
        · refine ⟨hp.cancelled ▸ hcancel, ?_⟩
          rw [hp.goes, goto_pc_of_ne hne.symm]
      · cases hs

/-- **A cancelled worker ends**: besides the entries that it reads, it takes no more steps than its place
says. -/
theorem countP_le_stepsLeft (hI : Inv s) (hD : Down s) (hw : w.isWorker = true)
    (hcancel : s.cancelled w = true) {as : List (Thread ι × Act ι)} (hrun : run step s as = some s') :
    as.countP (fun a => a.1 = w ∧ a.2 ≠ .entry) + (s'.pc w).stepsLeft ≤ (s.pc w).stepsLeft := by
  induction as generalizing s with
  | nil =>
    obtain rfl := Option.some.inj hrun
    simp
  | cons a as ih =>
    rw [run_cons, Option.bind_eq_some_iff] at hrun
    obtain ⟨s₁, hstep, hrest⟩ := hrun
    obtain ⟨hcancel₁, hle⟩ := stepsLeft_of_step hI hD hw hcancel hstep
    have hrec := ih (hI.step hstep) (hD.step hI hstep) hcancel₁ hrest
    rw [List.countP_cons]
    simp only [decide_eq_true_eq]
    omega

theorem Down.of_reaches (h : Reaches s) : Down s := by
  have hboth : Inv s ∧ Down s := Runs.invariant (I := fun s => Inv s ∧ Down s) h ⟨Inv.new, Down.new⟩
    fun _ _ _ hu _ hstep => ⟨hu.1.step hstep, hu.2.step hu.1 hstep⟩
  exact hboth.2

/-- **The manager comes to its end.** In every state that its threads reach, in any order of their steps: who
is not at rest waits in the end for a thread that can take a step; `uninit` waits for cancelled workers only;
in every run from there a cancelled worker takes, besides the entries that it reads, at most as many steps as
its place says; and when the phase has changed and no `uninit` is under way, every worker that was started has
left its loop. -/
theorem shutdown_completes (h : Reaches s) :
    (∀ t, (s.pc t).atRest = false → ∃ u, Relation.ReflTransGen s.WaitsFor t u ∧ s.CanStep u) ∧
      (∀ t w, (s.pc t).joins = some w → w.isWorker = true ∧ s.cancelled w = true) ∧
      (∀ w as s', w.isWorker = true → s.cancelled w = true → run step s as = some s' →
        as.countP (fun a => a.1 = w ∧ a.2 ≠ .entry) + (s'.pc w).stepsLeft ≤ (s.pc w).stepsLeft) ∧
      (s.phase = .uninitialized → (∀ t, LockName.uninit ∉ (s.pc t).writes t) →
        ∀ w, w.isWorker = true → s.pc w = .unstarted ∨ s.pc w = .exited) := by
  have hI := Inv.of_reaches h
  have hD := Down.of_reaches h
  refine ⟨fun t ht => exists_canStep hI hD ht, fun t w ht => ?_,
    fun w as s' hw hcancel hrun => countP_le_stepsLeft hI hD hw hcancel hrun, fun hphase hfree w hw => ?_⟩
  · cases hpc : s.pc t with
    | script u ops =>
      rw [hpc] at ht
      cases ops with
      | nil => cases ht
      | cons op ops =>
        cases op with
        | cancel w | awake w => cases ht
        | join w' =>
          obtain rfl := Option.some.inj ht
          have hok := hD.ops t u (.join w' :: ops) (by rw [hpc]; rfl)
          cases u with
          | false =>
            obtain ⟨v, hv⟩ := hok _ List.mem_cons_self
            cases hv
          | true => exact ⟨(hok.2.2.1 w' List.mem_cons_self).1, hok.2.1.1⟩
    | _ =>
      rw [hpc] at ht
      cases ht
  · rcases hD.done hphase with ⟨t, ops, ht⟩ | hall
    · refine (hfree t ?_).elim
      cases hpc : s.pc t with
      | script u ops' | notifyLock v u ops' | notifyAll v u ops' | notifyUnlock v u ops' =>
        rw [hpc] at ht
        obtain ⟨rfl, -⟩ := Prod.mk.inj (Option.some.inj ht)
        simp [Pc.writes]
      | _ =>
        rw [hpc] at ht
        cases ht
    · exact hall w hw

/-- A caller creates an independent log and ends the manager; it waits for the public worker. -/
def joining : List (Thread Unit × Act Unit) :=
  [(.caller (), .call (.write (.createLog ['b'] [] .independent)))] ++
    List.replicate 4 (.caller (), .next true) ++ [(.caller (), .call .uninit)] ++
    List.replicate 5 (.caller (), .next true)

theorem shutdown_completes_joining : ∃ s, run step State.new joining = some s ∧
    (s.pc (.caller ())).joins = some .publicWorker ∧
      ∃ u, Relation.ReflTransGen s.WaitsFor (.caller ()) u ∧ s.CanStep u := by
  have hrun : (run step State.new joining).map
      (fun s => ((s.pc (.caller ())).joins, (s.pc (.caller ())).atRest)) =
        some (some .publicWorker, false) := by decide +kernel
  obtain ⟨s, hs, heq⟩ := Option.map_eq_some_iff.1 hrun
  obtain ⟨hjoins, hrest⟩ := Prod.mk.inj heq
  exact ⟨s, hs, hjoins, (shutdown_completes (Runs.of_run (fun _ _ => trivial) hs)).1 _ hrest⟩

end Ending

/-! ## Waking up -/

section Waking

variable {ι : Type*}

/-- Who sleeps without his flag will be notified. -/
def Alert (s : State ι) : Prop :=
  ∀ w, (s.pc w).asleep = true → s.awakeFlag w = false → ∃ t, (s.pc t).notifies = some w

variable {s s' : State ι} {t u w : Thread ι} {pc : Pc ι}

/-- A step after which nobody sleeps who did not, no flag of a sleeper has been taken, and every notification
that was to come is still to come. -/
theorem Alert.of_keeps (h : Alert s)
    (hsleep : ∀ v, (s'.pc v).asleep = true → s'.awakeFlag v = false →
      (s.pc v).asleep = true ∧ s.awakeFlag v = false)
    (hnotify : ∀ u v, (s.pc u).notifies = some v → (s'.pc v).asleep = true → (s'.pc u).notifies = some v) :
    Alert s' := by
  intro v hv hflag
  obtain ⟨hold, hflag'⟩ := hsleep v hv hflag
  obtain ⟨u, hu⟩ := h v hold hflag'
  exact ⟨u, hnotify u v hu hv⟩

theorem Pc.notifies_of_calm {pc : Pc ι} (h : pc.calm = true) : pc.notifies = none := by
  have hops := Pc.ops_of_calm h
  cases pc <;> first | rfl | cases hops

variable [DecidableEq ι]

/-- The same, when only one thread moves, to a place where it does not sleep, or only if it slept before. -/
theorem Alert.of_goto (h : Alert s) (hpc : s'.pc = (s.goto t pc).pc)
    (hflag : ∀ v, v ≠ t → s'.awakeFlag v = false → s.awakeFlag v = false)
    (hself : pc.asleep = true → s'.awakeFlag t = false → (s.pc t).asleep = true ∧ s.awakeFlag t = false)
    (hnotify : ∀ v, (s.pc t).notifies = some v → pc.notifies = some v) : Alert s' := by
  refine h.of_keeps (fun v hv hoff => ?_) fun u v hu _ => ?_
  · by_cases hvt : v = t
    · subst hvt
      rw [hpc, goto_pc_self] at hv
      exact hself hv hoff
    · rw [hpc, goto_pc_of_ne hvt] at hv
      exact ⟨hv, hflag v hvt hoff⟩
  · rw [hpc, goto_pc]
    split
    · rename_i heq
      exact hnotify v (heq ▸ hu)
    · exact hu

/-- Who is about to notify a worker has its mutex, and the worker is not on its way to sleep. -/
theorem not_waitFor_of_notifyAll (hI : Inv s) {b : Bool} {ops : List (Op ι)}
    (hpc : s.pc t = .notifyAll w b ops) : s.pc w ≠ .waitFor := by
  intro hw
  have ht : LockName.mutex w ∈ (s.pc t).writes t := by
    rw [hpc]
    exact List.mem_cons_self
  have hwm : LockName.mutex w ∈ (s.pc w).writes w := by
    rw [hw]
    exact List.mem_singleton_self _
  obtain rfl := hI.locked.eq_of_mem_writes ht hwm
  rw [hpc] at hw
  cases hw

theorem asleep_notify (hI : Inv s) {b : Bool} {ops : List (Op ι)} (hpc : s.pc t = .notifyAll w b ops) :
    (((s.notify w).goto t (.notifyUnlock w b ops)).pc w).asleep = false := by
  rw [goto_pc]
  split
  · rfl
  · unfold State.notify
    split
    · rw [goto_pc_self]
      rfl
    · rename_i hwait
      have hfor := not_waitFor_of_notifyAll hI hpc
      cases hw : s.pc w with
      | waitFor => exact (hfor hw).elim
      | waiting => exact (hwait hw).elim
      | _ => rfl

/-- The flag of `w` is taken: either it was on and `t` notifies `w`, or nothing changes. -/
theorem Alert.awake (h : Alert s) {u : Bool} {w : Thread ι} {ops : List (Op ι)}
    (hpc : s.pc t = .script u (.awake w :: ops)) :
    Alert ({ s with awakeFlag := Function.update s.awakeFlag w false }.goto t
      (if s.awakeFlag w then .notifyLock w u ops else .script u ops)) := by
  intro v hv hoff
  have hvt : v ≠ t := by
    rintro rfl
    rw [goto_pc_self] at hv
    split at hv <;> cases hv
  rw [goto_pc_of_ne hvt] at hv
  by_cases hon : v = w ∧ s.awakeFlag w = true
  · obtain ⟨rfl, hon⟩ := hon
    refine ⟨t, ?_⟩
    rw [if_pos hon, goto_pc_self]
    rfl
  · have hoff' : s.awakeFlag v = false := by
      by_cases heq : v = w
      · subst heq
        exact Bool.eq_false_iff.2 fun h => hon ⟨rfl, h⟩
      · have hoff' : Function.update s.awakeFlag w false v = false := hoff
        rwa [Function.update_of_ne heq] at hoff'
    obtain ⟨x, hx⟩ := h v hv hoff'
    refine ⟨x, ?_⟩
    rw [goto_pc_of_ne]
    · exact hx
    · rintro rfl
      rw [hpc] at hx
      cases hx

/-- `t` wakes `w`, whom it was going to notify. -/
theorem Alert.notifyAll (h : Alert s) (hI : Inv s) {u : Bool} {w : Thread ι} {ops : List (Op ι)}
    (hpc : s.pc t = .notifyAll w u ops) : Alert ((s.notify w).goto t (.notifyUnlock w u ops)) := by
  have hflag : (s.notify w).awakeFlag = s.awakeFlag := by
    unfold State.notify
    split <;> rfl
  refine h.of_keeps (fun v hv hoff => ⟨?_, hflag ▸ hoff⟩) fun x v hx hv => ?_
  · rw [goto_pc] at hv
    split at hv
    · cases hv
    · unfold State.notify at hv
      split at hv
      · rw [goto_pc] at hv
        split at hv
        · cases hv
        · exact hv
      · exact hv
  · have hxt : x ≠ t := by
      rintro rfl
      rw [hpc] at hx
      obtain rfl := Option.some.inj hx
      rw [asleep_notify hI hpc] at hv
      cases hv
    rw [goto_pc_of_ne hxt]
    have hx' : s.pc x ≠ .waiting := by
      intro heq
      rw [heq] at hx
      cases hx
    rw [notify_pc_of_ne hx']
    exact hx

/-- A new log: the worker it may start is awake. -/
theorem Alert.create (h : Alert s) (hI : Inv s) {job : Job} (hpc : s.pc t = .perform job)
    (logName : List Char) (mode : ThreadMode) : Alert ((s.create logName mode).goto t .writeUnlock) := by
  have hflag : (s.create logName mode).awakeFlag = s.awakeFlag := by
    unfold State.create
    split <;> rfl
  refine h.of_keeps (fun v hv hoff => ?_) fun u v hu _ => ?_
  · rw [goto_pc, create_pc] at hv
    split_ifs at hv
    · cases hv
    · cases hv
    · exact ⟨hv, hflag ▸ hoff⟩
  · have hut : u ≠ t := by
      rintro rfl
      rw [hpc] at hu
      cases hu
    have hnone := mode_eq_none (s := s) (le_refl _)
    rw [goto_pc_of_ne hut, create_pc, if_neg]
    · exact hu
    · rintro ⟨-, rfl⟩
      rw [(hI.started _).2 (by rw [hnone]; nofun)] at hu
      cases hu

/-- **The next action of a thread.** -/
theorem Alert.effect (h : Alert s) (hI : Inv s) (hD : Down s) (he : Effect s t s') : Alert s' := by
  have hgoes : ∀ {pc : Pc ι}, (s.pc t).notifies = none → pc.asleep = false → Alert (s.goto t pc) := by
    intro pc hnone hwake
    refine h.of_goto rfl (fun _ _ => id) (fun hv => ?_) fun v hv => ?_
    · rw [hwake] at hv
      cases hv
    · rw [hnone] at hv
      cases hv
  cases he with
  | plain pc hp hfrom hto hsleep =>
    refine h.of_goto hp.goes (fun v _ hoff => hp.awakeFlag ▸ hoff)
      (fun hv hoff => ⟨hsleep hv, hp.awakeFlag ▸ hoff⟩) fun v hv => ?_
    rw [Pc.notifies_of_calm hfrom] at hv
    cases hv
  | setAwake hpc =>
    refine h.of_goto (show _ = (s.goto t .waitFor).pc from rfl) (fun v hv hoff => ?_) (fun _ hoff => ?_)
      fun v hv => ?_
    · have hoff' : Function.update s.awakeFlag t true v = false := hoff
      rwa [Function.update_of_ne hv] at hoff'
    · have hoff' : Function.update s.awakeFlag t true t = false := hoff
      rw [Function.update_self] at hoff'
      cases hoff'
    · rw [hpc] at hv
      cases hv
  | clearAwake hpc =>
    refine h.of_goto (show _ = (s.goto t .mutexUnlock).pc from rfl) (fun v hv hoff => ?_) nofun fun v hv => ?_
    · have hoff' : Function.update s.awakeFlag t false v = false := hoff
      rwa [Function.update_of_ne hv] at hoff'
    · rw [hpc] at hv
      cases hv
  | leave didWork hpc => exact hgoes (by rw [hpc]; rfl) rfl
  | exit hpc => exact hgoes (by rw [hpc]; rfl) (by split <;> rfl)
  | restart hpc =>
    rcases hpc with hpc | hpc
    · exact ((hD.restart t).1 hpc).elim
    · exact ((hD.restart t).2 hpc).elim
  | create job logName mode hpc => exact h.create hI hpc logName mode
  | shutdown hpc hphase =>
    have hscript : Alert (s.goto t (.script true s.shutdown)) := hgoes (by rw [hpc]; rfl) rfl
    exact hscript
  | done b hpc => exact hgoes (by rw [hpc]; rfl) (by cases b <;> rfl)
  | cancel b v ops hpc =>
    have hscript : Alert (s.goto t (.script b ops)) := hgoes (by rw [hpc]; rfl) rfl
    exact hscript
  | join b v ops hpc => exact hgoes (by rw [hpc]; rfl) rfl
  | notifyLock b v ops hpc hp =>
    refine h.of_goto hp.goes (fun v _ hoff => hp.awakeFlag ▸ hoff) nofun fun v' hv => ?_
    rwa [hpc] at hv
  | notifyUnlock b v ops hpc hp =>
    refine h.of_goto hp.goes (fun v _ hoff => hp.awakeFlag ▸ hoff) nofun fun v' hv => ?_
    rw [hpc] at hv
    cases hv
  | awake b v ops hpc => exact h.awake hpc
  | notifyAll b v ops hpc => exact h.notifyAll hI hpc

theorem Alert.step (h : Alert s) (hI : Inv s) (hD : Down s) {a : Thread ι × Act ι} (hs : step s a = some s') :
    Alert s' := by
  obtain ⟨t, act⟩ := a
  cases act with
  | next b => cases t <;> exact h.effect hI hD (effect_of_next hs)
  | entry => cases t <;> exact h.effect hI hD (effect_of_entry hs)
  | call c =>
    cases t with
    | publicWorker | worker => cases hs
    | caller i =>
      simp only [Workers.step] at hs
      split at hs
      · rename_i hpc
        rcases plain_of_call hs with rfl | ⟨pc, hp, -, hwake⟩
        · exact h
        · refine h.of_goto hp.goes (fun v _ hoff => hp.awakeFlag ▸ hoff) (fun hv => ?_) fun v hv => ?_
          · rw [hwake] at hv
            cases hv
          · rw [hpc] at hv
            cases hv
      · cases hs

/-- **No wake-up is lost.** In every state that the threads of the manager reach, in any order of their steps:
a worker that sleeps, or is about to, while its flag has been taken, has a thread that is going to notify it;
and when this thread has notified it, it does not sleep. -/
theorem awake_not_lost (h : Reaches s) :
    (∀ w, (s.pc w).asleep = true → s.awakeFlag w = false → ∃ t, (s.pc t).notifies = some w) ∧
      ∀ t w b ops c s', s.pc t = .notifyAll w b ops → s.next t c = some s' → (s'.pc w).asleep = false := by
  have hall : Inv s ∧ Down s ∧ Alert s := by
    refine Runs.invariant (I := fun s => Inv s ∧ Down s ∧ Alert s) h ⟨Inv.new, Down.new, ?_⟩ ?_
    · intro w hw
      cases w <;> cases hw
    · intro u v a hu _ hstep
      exact ⟨hu.1.step hstep, hu.2.1.step hu.1 hstep, hu.2.2.step hu.1 hu.2.1 hstep⟩
  refine ⟨hall.2.2, fun t w b ops c s' hpc hs => ?_⟩
  unfold State.next at hs
  simp only [hpc, Option.some.injEq] at hs
  subst hs
  exact asleep_notify hall.1 hpc

/-- The public worker goes to sleep, and a caller takes its flag. -/
def sleeper : List (Thread Unit × Act Unit) :=
  List.replicate 8 (.publicWorker, .next false) ++
    [(.caller (), .call (.awake .publicWorker)), (.caller (), .next true)]

theorem awake_not_lost_sleeper : ∃ s, run step State.new sleeper = some s ∧ s.pc .publicWorker = .waiting ∧
    ∃ t, (s.pc t).notifies = some .publicWorker := by
  have hrun : (run step State.new sleeper).map (fun s => (s.pc .publicWorker, s.awakeFlag .publicWorker)) =
      some (.waiting, false) := by decide +kernel
  obtain ⟨s, hs, heq⟩ := Option.map_eq_some_iff.1 hrun
  obtain ⟨hwait, hflag⟩ := Prod.mk.inj heq
  have hreaches : Reaches s := Runs.of_run (fun _ _ => trivial) hs
  exact ⟨s, hs, hwait, (awake_not_lost hreaches).1 _ (by rw [hwait]; rfl) hflag⟩

end Waking

end QLog.Workers
