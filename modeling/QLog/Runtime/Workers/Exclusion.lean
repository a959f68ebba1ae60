import QLog.Foundations.RwLock
import QLog.Runtime.Workers.Defs

/-!
# One thread at a time

What the threads of the manager hold, and that the locks agree with it. No two threads process the entries of
one log or exchange its appenders: the workers hold the read lock and have logs of their own, the calls hold
the write lock, and a synchronous log has its spin lock (`logs_exclusive`). This is what lets the log buffer
and the appenders do without a lock on the side of the reader.
-/

namespace QLog.Workers

/-! ## What a thread holds -/

section Holds

variable {ι : Type*}

/-- The locks a thread holds for reading. -/
def Pc.reads : Pc ι → List (LockName ι)
  | .phaseCheck | .turn _ _ | .process _ _ _ | .readUnlock _ => [.logs]
  | .script u _ | .notifyLock _ u _ | .notifyAll _ u _ | .notifyUnlock _ u _ => if u then [.logs] else []
  | .uninitLock | .uninitPhase | .uninitUnlock | .uninitReadUnlock => [.logs]
  | _ => []

/-- The locks it holds for writing, and the other locks. -/
def Pc.writes (t : Thread ι) : Pc ι → List (LockName ι)
  | .setAwake | .waitFor | .clearAwake | .mutexUnlock => [.mutex t]
  | .restartCheck => [.uninit]
  | .writePhase _ | .perform _ | .exchangeLock _ | .flush _ | .flushProcess _ _ | .writeUnlock => [.logs]
  | .exchange log | .exchangeUnlock log => [.spin log, .logs]
  | .syncProcess log | .syncUnlock log => [.spin log]
  | .script u _ | .notifyLock _ u _ => if u then [.uninit] else []
  | .notifyAll w u _ | .notifyUnlock w u _ => .mutex w :: if u then [.uninit] else []
  | .uninitPhase | .uninitUnlock => [.uninit]
  | _ => []

/-- The places of a worker. -/
def Pc.isWorker : Pc ι → Bool
  | .unstarted | .head | .phaseCheck | .turn _ _ | .process _ _ _ | .readUnlock _ | .cancelCheck _ => true
  | .mutexLock | .setAwake | .waitFor | .waiting | .woken | .clearAwake | .mutexUnlock => true
  | .watchDog | .restartLock | .restartCheck | .exited => true
  | _ => false

def Thread.isWorker : Thread ι → Bool
  | .publicWorker | .worker _ => true
  | .caller _ => false

variable [DecidableEq ι]

/-- The locks agree with the places of the threads. -/
def State.Locked (s : State ι) : Prop :=
  Accounts s.lock (fun t => (s.pc t).reads) fun t => (s.pc t).writes t

variable {s s' : State ι} {t : Thread ι} {k : LockName ι} {pc : Pc ι}

theorem reads_goto : (fun u => ((s.goto t pc).pc u).reads) =
    Function.update (fun u => (s.pc u).reads) t pc.reads := by
  funext u
  exact Function.apply_update (fun _ => Pc.reads) s.pc t pc u

theorem writes_goto : (fun u => ((s.goto t pc).pc u).writes u) =
    Function.update (fun u => (s.pc u).writes u) t (pc.writes t) := by
  funext u
  exact Function.apply_update (fun u => Pc.writes u) s.pc t pc u

/-- A place where the thread holds the same locks. -/
theorem State.Locked.goto (h : s.Locked) (hr : pc.reads = (s.pc t).reads)
    (hw : pc.writes t = (s.pc t).writes t) : (s.goto t pc).Locked := by
  unfold State.Locked
  rw [reads_goto, writes_goto, hr, hw, Function.update_eq_self t fun u => (s.pc u).reads,
    Function.update_eq_self t fun u => (s.pc u).writes u]
  exact h

theorem State.Locked.acquireRead (h : s.Locked) (hs : s.acquireRead t k pc = some s')
    (hr : pc.reads = k :: (s.pc t).reads) (hw : pc.writes t = (s.pc t).writes t) : s'.Locked := by
  obtain ⟨l, hl, rfl⟩ := Option.map_eq_some_iff.1 hs
  unfold State.Locked
  rw [reads_goto, writes_goto, hr, hw]
  rw [Function.update_eq_self t fun u => (s.pc u).writes u]
  exact Accounts.readLock h hl

theorem State.Locked.releaseRead (h : s.Locked) (hr : (s.pc t).reads = k :: pc.reads)
    (hw : pc.writes t = (s.pc t).writes t) : (s.releaseRead t k pc).Locked := by
  unfold State.Locked State.releaseRead
  rw [reads_goto, writes_goto, hw]
  rw [Function.update_eq_self t fun u => (s.pc u).writes u]
  exact Accounts.readUnlock h (.of_eq hr)

theorem State.Locked.acquire (h : s.Locked) (hs : s.acquire t k pc = some s')
    (hr : pc.reads = (s.pc t).reads) (hw : pc.writes t = k :: (s.pc t).writes t) : s'.Locked := by
  obtain ⟨l, hl, rfl⟩ := Option.map_eq_some_iff.1 hs
  unfold State.Locked
  rw [reads_goto, writes_goto, hr, hw]
  rw [Function.update_eq_self t fun u => (s.pc u).reads]
  exact Accounts.writeLock h hl

theorem State.Locked.release (h : s.Locked) (hr : pc.reads = (s.pc t).reads)
    (hw : (s.pc t).writes t = k :: pc.writes t) : (s.release t k pc).Locked := by
  unfold State.Locked State.release
  rw [reads_goto, writes_goto, hr]
  rw [Function.update_eq_self t fun u => (s.pc u).reads]
  exact Accounts.writeUnlock h (.of_eq hw)

end Holds

/-! ## The invariant -/

section Invariant

variable {ι : Type*}

/-- The logs that are a worker's own. -/
def Serves (mode : ℕ → Option ThreadMode) (log : ℕ) : Thread ι → Prop
  | .publicWorker => mode log = some .async
  | .worker n => log = n ∧ mode n = some .independent
  | .caller _ => False

/-- What a place says of the logs that a thread is about to process. -/
def PcOk (mode : ℕ → Option ThreadMode) (t : Thread ι) : Pc ι → Prop
  | .turn todo _ => ∀ log ∈ todo, Serves mode log t
  | .process log todo _ => ∀ log' ∈ log :: todo, Serves mode log' t
  | .flush todo => ∀ log ∈ todo, ∃ m, mode log = some m ∧ m ≠ .sync
  | .writeLock (.forceFlush log) => ∃ m, mode log = some m ∧ m ≠ .sync
  | .flushProcess log todo => ∀ log' ∈ log :: todo, ∃ m, mode log' = some m ∧ m ≠ .sync
  | .syncLock log | .syncProcess log | .syncUnlock log => mode log = some .sync
  | _ => True

/-- A log never changes its mode. -/
theorem PcOk.mono {mode mode' : ℕ → Option ThreadMode} {t : Thread ι} {pc : Pc ι}
    (hmode : ∀ log m, mode log = some m → mode' log = some m) (h : PcOk mode t pc) : PcOk mode' t pc := by
  have hserves : ∀ log, Serves mode log t → Serves mode' log t := by
    intro log hlog
    cases t with
    | publicWorker => exact hmode _ _ hlog
    | worker n => exact ⟨hlog.1, hmode _ _ hlog.2⟩
    | caller i => exact hlog
  have hflush : ∀ log, (∃ m, mode log = some m ∧ m ≠ .sync) → ∃ m, mode' log = some m ∧ m ≠ .sync := by
    rintro log ⟨m, hm, hne⟩
    exact ⟨m, hmode _ _ hm, hne⟩
  cases pc with
  | turn todo didWork => exact fun log hlog => hserves log (h log hlog)
  | process log todo didWork => exact fun log' hlog => hserves log' (h log' hlog)
  | flush todo => exact fun log hlog => hflush log (h log hlog)
  | flushProcess log todo => exact fun log' hlog => hflush log' (h log' hlog)
  | writeLock job =>
    cases job with
    | forceFlush log => exact hflush log h
    | _ => trivial
  | syncLock log | syncProcess log | syncUnlock log => exact hmode _ _ h
  | _ => trivial

theorem mem_withMode {s : State ι} {p : ThreadMode → Bool} {log : ℕ} :
    log ∈ s.withMode p ↔ ∃ m, s.mode log = some m ∧ p m = true := by
  unfold State.withMode
  rw [List.mem_filter, List.mem_range, Option.any_eq_true]
  refine ⟨fun h => h.2, fun h => ⟨?_, h⟩⟩
  obtain ⟨m, hm, -⟩ := h
  obtain ⟨l, hl, -⟩ := Option.map_eq_some_iff.1 hm
  exact (List.getElem?_eq_some_iff.1 hl).1

theorem mode_eq_none {s : State ι} {log : ℕ} (h : s.logImpList.length ≤ log) : s.mode log = none := by
  rw [State.mode, List.getElem?_eq_none h]
  rfl

variable [DecidableEq ι]

/-- What holds between two steps. -/
structure Inv (s : State ι) : Prop where
  locked : s.Locked
  kind : ∀ t, (s.pc t).isWorker = t.isWorker
  ok : ∀ t, PcOk s.mode t (s.pc t)
  started : ∀ n, s.pc (.worker n) = .unstarted ↔ s.mode n ≠ some .independent
  publicStarted : s.pc .publicWorker ≠ .unstarted

theorem Inv.new : Inv (State.new : State ι) where
  locked := by
    have h : ∀ t : Thread ι, (State.new.pc t : Pc ι).reads = [] ∧ (State.new.pc t : Pc ι).writes t = [] := by
      intro t
      cases t <;> exact ⟨rfl, rfl⟩
    unfold State.Locked
    rw [show (fun t => ((State.new : State ι).pc t).reads) = fun _ => [] from funext fun t => (h t).1,
      show (fun t => ((State.new : State ι).pc t).writes t) = fun _ => [] from funext fun t => (h t).2]
    exact Accounts.fresh
  kind t := by cases t <;> rfl
  ok t := by cases t <;> trivial
  started n := by simp [State.new, State.mode]
  publicStarted := by simp [State.new]

variable {s s' : State ι} {t : Thread ι} {k : LockName ι} {pc₀ pc : Pc ι}

/-- What a thread that leaves its place finds at the new one. -/
structure Arrives (s : State ι) (t : Thread ι) (pc₀ pc : Pc ι) : Prop where
  leaves : s.pc t = pc₀
  kind : pc.isWorker = pc₀.isWorker
  ok : PcOk s.mode t pc
  started : pc ≠ .unstarted ∧ pc₀ ≠ .unstarted

theorem goto_pc (u : Thread ι) : (s.goto t pc).pc u = if u = t then pc else s.pc u :=
  Function.update_apply s.pc t pc u

@[simp] theorem goto_pc_self : (s.goto t pc).pc t = pc := Function.update_self _ _ _

theorem goto_pc_of_ne {u : Thread ι} (h : u ≠ t) : (s.goto t pc).pc u = s.pc u :=
  Function.update_of_ne h _ _

/-- The part of the invariant that does not speak of locks. -/
theorem Inv.of_goto (h : Inv s) (ha : Arrives s t pc₀ pc) (hlog : s'.logImpList = s.logImpList)
    (hpc : s'.pc = (s.goto t pc).pc) (hlocked : s'.Locked) : Inv s' := by
  have hmode : s'.mode = s.mode := by
    funext n
    rw [State.mode, State.mode, hlog]
  refine ⟨hlocked, fun u => ?_, fun u => ?_, fun n => ?_, ?_⟩
  · rw [hpc, goto_pc]
    split
    · rename_i hu
      rw [ha.kind, ← ha.leaves, hu, h.kind]
    · exact h.kind u
  · rw [hpc, hmode, goto_pc]
    split
    · rename_i hu
      rw [hu]
      exact ha.ok
    · exact h.ok u
  · rw [hpc, hmode, ← h.started, goto_pc]
    split
    · rename_i hu
      rw [hu, ha.leaves]
      exact iff_of_false ha.started.1 ha.started.2
    · exact Iff.rfl
  · rw [hpc, goto_pc]
    split
    · exact ha.started.1
    · exact h.publicStarted

theorem Inv.goto (h : Inv s) (ha : Arrives s t pc₀ pc) (hr : pc.reads = pc₀.reads)
    (hw : pc.writes t = pc₀.writes t) : Inv (s.goto t pc) :=
  h.of_goto ha rfl rfl (h.locked.goto (by rw [ha.leaves, hr]) (by rw [ha.leaves, hw]))

theorem Inv.acquireRead (h : Inv s) (hs : s.acquireRead t k pc = some s') (ha : Arrives s t pc₀ pc)
    (hr : pc.reads = k :: pc₀.reads) (hw : pc.writes t = pc₀.writes t) : Inv s' := by
  have hlocked := h.locked.acquireRead hs (by rw [ha.leaves, hr]) (by rw [ha.leaves, hw])
  obtain ⟨l, -, rfl⟩ := Option.map_eq_some_iff.1 hs
  exact h.of_goto ha rfl rfl hlocked

theorem Inv.releaseRead (h : Inv s) (ha : Arrives s t pc₀ pc) (hr : pc₀.reads = k :: pc.reads)
    (hw : pc.writes t = pc₀.writes t) : Inv (s.releaseRead t k pc) :=
  h.of_goto ha rfl rfl (h.locked.releaseRead (by rw [ha.leaves, hr]) (by rw [ha.leaves, hw]))

theorem Inv.acquire (h : Inv s) (hs : s.acquire t k pc = some s') (ha : Arrives s t pc₀ pc)
    (hr : pc.reads = pc₀.reads) (hw : pc.writes t = k :: pc₀.writes t) : Inv s' := by
  have hlocked := h.locked.acquire hs (by rw [ha.leaves, hr]) (by rw [ha.leaves, hw])
  obtain ⟨l, -, rfl⟩ := Option.map_eq_some_iff.1 hs
  exact h.of_goto ha rfl rfl hlocked

theorem Inv.release (h : Inv s) (ha : Arrives s t pc₀ pc) (hr : pc.reads = pc₀.reads)
    (hw : pc₀.writes t = k :: pc.writes t) : Inv (s.release t k pc) :=
  h.of_goto ha rfl rfl (h.locked.release (by rw [ha.leaves, hr]) (by rw [ha.leaves, hw]))

/-- The flags and the phase do not matter. -/
theorem Inv.congr (h : Inv s) (hlog : s'.logImpList = s.logImpList) (hpc : s'.pc = s.pc)
    (hlock : s'.lock = s.lock) : Inv s' := by
  have hmode : s'.mode = s.mode := by
    funext n
    rw [State.mode, State.mode, hlog]
  refine ⟨?_, ?_, ?_, ?_, ?_⟩
  · rw [State.Locked, hpc, hlock]
    exact h.locked
  · exact hpc ▸ h.kind
  · exact hpc ▸ hmode ▸ h.ok
  · exact hpc ▸ hmode ▸ h.started
  · exact hpc ▸ h.publicStarted

/-- A worker processes its own logs. -/
theorem Inv.serves_targets (h : Inv s) (hpc : s.pc t ≠ .unstarted) :
    ∀ log ∈ s.targets t, Serves s.mode log t := by
  intro log hlog
  cases t with
  | publicWorker =>
    obtain ⟨m, hm, heq⟩ := mem_withMode.1 hlog
    rw [Serves, hm, eq_of_beq heq]
  | worker n =>
    obtain rfl := List.mem_singleton.1 hlog
    exact ⟨rfl, not_not.1 (mt (h.started log).2 hpc)⟩
  | caller i => cases hlog

theorem mode_create {logName : List Char} {m : ThreadMode} (log : ℕ) : (s.create logName m).mode log =
    if log = s.logImpList.length then some m else s.mode log := by
  have hlist : (s.create logName m).logImpList = s.logImpList ++ [⟨logName, m⟩] := by
    unfold State.create
    split <;> rfl
  rw [State.mode, hlist, List.getElem?_append]
  split
  · rename_i hlt
    rw [if_neg hlt.ne]
    rfl
  · rename_i hge
    split
    · rename_i heq
      simp [heq]
    · rename_i hne
      rw [State.mode, List.getElem?_eq_none (by simp; omega), List.getElem?_eq_none (by omega)]

theorem create_pc (s : State ι) (logName : List Char) (m : ThreadMode) (u : Thread ι) :
    (s.create logName m).pc u =
      if m = .independent ∧ u = .worker s.logImpList.length then .head else s.pc u := by
  unfold State.create
  by_cases hm : m = .independent
  · rw [if_pos hm, goto_pc]
    simp [hm]
  · rw [if_neg hm]
    simp [hm]

/-- A new log, and its worker if it is independent. -/
theorem Inv.create (h : Inv s) (logName : List Char) (m : ThreadMode) : Inv (s.create logName m) := by
  have hnone := mode_eq_none (s := s) (le_refl _)
  have hidle : s.pc (.worker s.logImpList.length) = .unstarted := (h.started _).2 (by rw [hnone]; nofun)
  have hpc := create_pc s logName m
  have hmode : ∀ log m', s.mode log = some m' → (s.create logName m).mode log = some m' := by
    intro log m' hlog
    rw [mode_create, if_neg, hlog]
    rintro rfl
    rw [hnone] at hlog
    cases hlog
  refine ⟨?_, fun u => ?_, fun u => ?_, fun n => ?_, ?_⟩
  · unfold State.create
    by_cases hm : m = .independent
    · rw [if_pos hm]
      refine State.Locked.goto (s := { s with logImpList := s.logImpList ++ [⟨logName, m⟩] }) h.locked ?_ ?_
      · exact (congrArg Pc.reads hidle).symm
      · exact (congrArg (Pc.writes _) hidle).symm
    · rw [if_neg hm]
      exact h.locked
  · rw [hpc]
    split
    · rename_i hu
      rw [hu.2]
      rfl
    · exact h.kind u
  · rw [hpc]
    split
    · trivial
    · exact (h.ok u).mono hmode
  · rw [hpc, mode_create]
    by_cases hn : n = s.logImpList.length
    · subst hn
      by_cases hm : m = .independent <;> simp [hm, hidle]
    · simp only [Thread.worker.injEq, hn, and_false, if_false]
      exact h.started n
  · rw [hpc]
    simp [h.publicStarted]

/-- A worker that waits is woken. -/
theorem Inv.notify (h : Inv s) (w : Thread ι) : Inv (s.notify w) := by
  unfold State.notify
  split
  · rename_i hw
    exact h.goto ⟨hw, rfl, trivial, nofun, nofun⟩ rfl rfl
  · exact h

theorem notify_pc_of_ne {w : Thread ι} (h : s.pc t ≠ .waiting) : (s.notify w).pc t = s.pc t := by
  unfold State.notify
  split
  · rename_i hw
    exact goto_pc_of_ne fun heq => h (heq ▸ hw)
  · rfl

/-- The operations on workers. -/
theorem Inv.runOp (h : Inv s) {uninit : Bool} {ops : List (Op ι)} (hpc : s.pc t = .script uninit ops)
    (hs : s.runOp t uninit ops = some s') : Inv s' := by
  cases ops with
  | nil =>
    obtain rfl := Option.some.inj hs
    cases uninit with
    | true => exact h.goto ⟨hpc, rfl, trivial, nofun, nofun⟩ rfl rfl
    | false => exact h.goto ⟨hpc, rfl, trivial, nofun, nofun⟩ rfl rfl
  | cons op ops =>
    have hscript : Inv (s.goto t (.script uninit ops)) := h.goto ⟨hpc, rfl, trivial, nofun, nofun⟩ rfl rfl
    cases op with
    | cancel w =>
      obtain rfl := Option.some.inj hs
      exact hscript.congr rfl rfl rfl
    | awake w =>
      obtain rfl := Option.some.inj hs
      split
      · have hnotify : Inv (s.goto t (.notifyLock w uninit ops)) :=
          h.goto ⟨hpc, rfl, trivial, nofun, nofun⟩ rfl rfl
        exact hnotify.congr rfl rfl rfl
      · exact hscript.congr rfl rfl rfl
    | join w =>
      simp only [State.runOp] at hs
      split at hs
      · obtain rfl := Option.some.inj hs
        exact hscript
      · cases hs

/-- `create_log` and `reset_config` under the write lock. -/
theorem Inv.perform (h : Inv s) {job : Job} (hpc : s.pc t = .perform job) (b : Bool) :
    Inv (s.perform t b job) := by
  have hunlock : Inv (s.goto t .writeUnlock) := h.goto ⟨hpc, rfl, trivial, nofun, nofun⟩ rfl rfl
  have hexchange : ∀ log, Inv (s.goto t (.exchangeLock log)) := fun log =>
    h.goto ⟨hpc, rfl, trivial, nofun, nofun⟩ rfl rfl
  cases job with
  | createLog logName autoName mode =>
    simp only [State.perform]
    split
    · exact hexchange _
    · cases b with
      | false => exact hunlock
      | true =>
        have hcreate := h.create (if logName = [] then autoName else logName) mode
        have hsame : (s.create (if logName = [] then autoName else logName) mode).pc t =
            .perform (.createLog logName autoName mode) := by
          rw [create_pc, if_neg, hpc]
          rintro ⟨-, rfl⟩
          have hkind := h.kind (.worker s.logImpList.length)
          rw [hpc] at hkind
          cases hkind
        exact hcreate.goto ⟨hsame, rfl, trivial, nofun, nofun⟩ rfl rfl
  | resetConfig logName =>
    simp only [State.perform]
    split
    · exact hexchange _
    · exact hunlock
  | forceFlushAll | tryFlushAll | forceFlush => exact hunlock

/-- **The next action of a thread** keeps the invariant. -/
theorem Inv.next (h : Inv s) {b : Bool} (hs : s.next t b = some s') : Inv s' := by
  have hok := h.ok t
  unfold State.next at hs
  cases hpc : s.pc t with
  | idle | unstarted | exited => simp [hpc] at hs
  | head =>
    simp only [hpc] at hs
    exact h.acquireRead hs ⟨hpc, rfl, trivial, nofun, nofun⟩ rfl rfl
  | phaseCheck =>
    simp only [hpc, Option.some.injEq] at hs
    subst hs
    split
    · refine h.goto ⟨hpc, rfl, h.serves_targets ?_, nofun, nofun⟩ rfl rfl
      rw [hpc]
      nofun
    · exact h.goto ⟨hpc, rfl, trivial, nofun, nofun⟩ rfl rfl
  | turn todo didWork =>
    rw [hpc] at hok
    cases todo with
    | nil =>
      simp only [hpc, Option.some.injEq] at hs
      subst hs
      exact h.goto ⟨hpc, rfl, trivial, nofun, nofun⟩ rfl rfl
    | cons log todo =>
      simp only [hpc, Option.some.injEq] at hs
      subst hs
      exact h.goto ⟨hpc, rfl, hok, nofun, nofun⟩ rfl rfl
  | process log todo didWork =>
    rw [hpc] at hok
    simp only [hpc, Option.some.injEq] at hs
    subst hs
    exact h.goto ⟨hpc, rfl, fun log' hlog => hok log' (List.mem_cons_of_mem _ hlog), nofun, nofun⟩ rfl rfl
  | readUnlock didWork =>
    simp only [hpc, Option.some.injEq] at hs
    subst hs
    exact h.releaseRead ⟨hpc, rfl, trivial, nofun, nofun⟩ rfl rfl
  | cancelCheck didWork =>
    simp only [hpc, Option.some.injEq] at hs
    subst hs
    split_ifs <;> exact h.goto ⟨hpc, rfl, trivial, nofun, nofun⟩ rfl rfl
  | mutexLock | woken =>
    simp only [hpc] at hs
    exact h.acquire hs ⟨hpc, rfl, trivial, nofun, nofun⟩ rfl rfl
  | setAwake =>
    simp only [hpc, Option.some.injEq] at hs
    subst hs
    have hwait : Inv (s.goto t .waitFor) := h.goto ⟨hpc, rfl, trivial, nofun, nofun⟩ rfl rfl
    exact hwait.congr rfl rfl rfl
  | clearAwake =>
    simp only [hpc, Option.some.injEq] at hs
    subst hs
    have hunlock : Inv (s.goto t .mutexUnlock) := h.goto ⟨hpc, rfl, trivial, nofun, nofun⟩ rfl rfl
    exact hunlock.congr rfl rfl rfl
  | waitFor | mutexUnlock =>
    simp only [hpc, Option.some.injEq] at hs
    subst hs
    exact h.release ⟨hpc, rfl, trivial, nofun, nofun⟩ rfl rfl
  | waiting =>
    simp only [hpc, Option.some.injEq] at hs
    subst hs
    exact h.goto ⟨hpc, rfl, trivial, nofun, nofun⟩ rfl rfl
  | watchDog =>
    simp only [hpc, Option.some.injEq] at hs
    subst hs
    split <;> exact h.goto ⟨hpc, rfl, trivial, nofun, nofun⟩ rfl rfl
  | restartLock =>
    simp only [hpc] at hs
    exact h.acquire hs ⟨hpc, rfl, trivial, nofun, nofun⟩ rfl rfl
  | restartCheck =>
    simp only [hpc] at hs
    split at hs
    · obtain rfl := Option.some.inj hs
      have hhead : Inv (s.release t .uninit .head) := h.release ⟨hpc, rfl, trivial, nofun, nofun⟩ rfl rfl
      exact hhead.congr rfl rfl rfl
    · obtain rfl := Option.some.inj hs
      exact h.release ⟨hpc, rfl, trivial, nofun, nofun⟩ rfl rfl
  | writeLock job =>
    rw [hpc] at hok
    simp only [hpc] at hs
    split at hs
    · rename_i s₁ hacquire
      obtain rfl := Option.some.inj hs
      have hflush : ∀ log ∈ s.withMode (· != .sync), ∃ m, s.mode log = some m ∧ m ≠ .sync := by
        intro log hlog
        obtain ⟨m, hm, hne⟩ := mem_withMode.1 hlog
        exact ⟨m, hm, ne_of_beq_false (by simpa using hne)⟩
      cases job with
      | createLog | resetConfig => exact h.acquire hacquire ⟨hpc, rfl, trivial, nofun, nofun⟩ rfl rfl
      | forceFlushAll | tryFlushAll => exact h.acquire hacquire ⟨hpc, rfl, hflush, nofun, nofun⟩ rfl rfl
      | forceFlush log =>
        refine h.acquire hacquire ⟨hpc, rfl, fun log' hlog => ?_, nofun, nofun⟩ rfl rfl
        obtain rfl := List.mem_singleton.1 hlog
        exact hok
    · split at hs
      · obtain rfl := Option.some.inj hs
        exact h.goto ⟨hpc, rfl, trivial, nofun, nofun⟩ rfl rfl
      · cases hs
  | writePhase job =>
    simp only [hpc, Option.some.injEq] at hs
    subst hs
    split <;> exact h.goto ⟨hpc, rfl, trivial, nofun, nofun⟩ rfl rfl
  | perform job =>
    simp only [hpc, Option.some.injEq] at hs
    subst hs
    exact h.perform hpc b
  | exchangeLock log =>
    simp only [hpc] at hs
    exact h.acquire hs ⟨hpc, rfl, trivial, nofun, nofun⟩ rfl rfl
  | exchange log =>
    simp only [hpc, Option.some.injEq] at hs
    subst hs
    exact h.goto ⟨hpc, rfl, trivial, nofun, nofun⟩ rfl rfl
  | exchangeUnlock log =>
    simp only [hpc, Option.some.injEq] at hs
    subst hs
    exact h.release ⟨hpc, rfl, trivial, nofun, nofun⟩ rfl rfl
  | flush todo =>
    rw [hpc] at hok
    cases todo with
    | nil =>
      simp only [hpc, Option.some.injEq] at hs
      subst hs
      exact h.goto ⟨hpc, rfl, trivial, nofun, nofun⟩ rfl rfl
    | cons log todo =>
      simp only [hpc, Option.some.injEq] at hs
      subst hs
      exact h.goto ⟨hpc, rfl, hok, nofun, nofun⟩ rfl rfl
  | flushProcess log todo =>
    rw [hpc] at hok
    simp only [hpc, Option.some.injEq] at hs
    subst hs
    exact h.goto ⟨hpc, rfl, fun log' hlog => hok log' (List.mem_cons_of_mem _ hlog), nofun, nofun⟩ rfl rfl
  | writeUnlock =>
    simp only [hpc, Option.some.injEq] at hs
    subst hs
    exact h.release ⟨hpc, rfl, trivial, nofun, nofun⟩ rfl rfl
  | syncLock log =>
    rw [hpc] at hok
    simp only [hpc] at hs
    exact h.acquire hs ⟨hpc, rfl, hok, nofun, nofun⟩ rfl rfl
  | syncProcess log =>
    rw [hpc] at hok
    simp only [hpc, Option.some.injEq] at hs
    subst hs
    exact h.goto ⟨hpc, rfl, hok, nofun, nofun⟩ rfl rfl
  | syncUnlock log =>
    simp only [hpc, Option.some.injEq] at hs
    subst hs
    exact h.release ⟨hpc, rfl, trivial, nofun, nofun⟩ rfl rfl
  | script uninit ops =>
    simp only [hpc] at hs
    exact h.runOp hpc hs
  | notifyLock w uninit ops =>
    simp only [hpc] at hs
    exact h.acquire hs ⟨hpc, rfl, trivial, nofun, nofun⟩ rfl rfl
  | notifyAll w uninit ops =>
    simp only [hpc, Option.some.injEq] at hs
    subst hs
    have hsame : (s.notify w).pc t = .notifyAll w uninit ops := by
      rw [← hpc]
      exact notify_pc_of_ne (by rw [hpc]; nofun)
    exact (h.notify w).goto ⟨hsame, rfl, trivial, nofun, nofun⟩ rfl rfl
  | notifyUnlock w uninit ops =>
    simp only [hpc, Option.some.injEq] at hs
    subst hs
    exact h.release ⟨hpc, rfl, trivial, nofun, nofun⟩ rfl rfl
  | uninitReadLock =>
    simp only [hpc] at hs
    exact h.acquireRead hs ⟨hpc, rfl, trivial, nofun, nofun⟩ rfl rfl
  | uninitLock =>
    simp only [hpc] at hs
    exact h.acquire hs ⟨hpc, rfl, trivial, nofun, nofun⟩ rfl rfl
  | uninitPhase =>
    simp only [hpc] at hs
    split at hs
    · obtain rfl := Option.some.inj hs
      have hscript : Inv (s.goto t (.script true s.shutdown)) :=
        h.goto ⟨hpc, rfl, trivial, nofun, nofun⟩ rfl rfl
      exact hscript.congr rfl rfl rfl
    · obtain rfl := Option.some.inj hs
      exact h.goto ⟨hpc, rfl, trivial, nofun, nofun⟩ rfl rfl
  | uninitUnlock =>
    simp only [hpc, Option.some.injEq] at hs
    subst hs
    exact h.release ⟨hpc, rfl, trivial, nofun, nofun⟩ rfl rfl
  | uninitReadUnlock =>
    simp only [hpc, Option.some.injEq] at hs
    subst hs
    exact h.releaseRead ⟨hpc, rfl, trivial, nofun, nofun⟩ rfl rfl

/-- A call keeps it. -/
theorem Inv.call (h : Inv s) {c : Call ι} (hpc : s.pc t = .idle) (hs : s.call t c = some s') : Inv s' := by
  have hwrite : ∀ job, PcOk s.mode t (.writeLock job) → Inv (s.goto t (.writeLock job)) := fun job hok =>
    h.goto ⟨hpc, rfl, hok, nofun, nofun⟩ rfl rfl
  cases c with
  | write job =>
    cases job with
    | forceFlush log =>
      simp only [State.call] at hs
      split at hs
      · obtain rfl := Option.some.inj hs
        exact h
      · rename_i m hne hm
        obtain rfl := Option.some.inj hs
        exact hwrite _ ⟨m, hm, fun heq => hne heq⟩
      · cases hs
    | createLog | resetConfig | forceFlushAll | tryFlushAll =>
      obtain rfl := Option.some.inj hs
      exact hwrite _ trivial
  | syncProcess log =>
    simp only [State.call] at hs
    split at hs
    · rename_i hm
      obtain rfl := Option.some.inj hs
      exact h.goto ⟨hpc, rfl, hm, nofun, nofun⟩ rfl rfl
    · cases hs
  | awake w | uninit =>
    obtain rfl := Option.some.inj hs
    exact h.goto ⟨hpc, rfl, trivial, nofun, nofun⟩ rfl rfl

/-- An entry of the log that the thread processes. -/
theorem Inv.entry (h : Inv s) (hs : s.entry t = some s') : Inv s' := by
  have hok := h.ok t
  unfold State.entry at hs
  split at hs
  · rename_i hpc
    obtain rfl := Option.some.inj hs
    rw [hpc] at hok
    exact h.goto ⟨hpc, rfl, hok, nofun, nofun⟩ rfl rfl
  · rename_i hpc
    obtain rfl := Option.some.inj hs
    rw [hpc] at hok
    exact h.goto ⟨hpc, rfl, hok, nofun, nofun⟩ rfl rfl
  · cases hs

/-- **One step.** -/
theorem Inv.step (h : Inv s) {a : Thread ι × Act ι} (hs : step s a = some s') : Inv s' := by
  obtain ⟨t, act⟩ := a
  cases act with
  | next b =>
    cases t <;> exact h.next hs
  | entry =>
    cases t <;> exact h.entry hs
  | call c =>
    cases t with
    | publicWorker | worker => cases hs
    | caller i =>
      simp only [Workers.step] at hs
      split at hs
      · rename_i hpc
        exact h.call hpc hs
      · cases hs

/-- The runs of the manager from its construction. -/
def Reaches (s : State ι) : Prop := Runs step (fun _ _ => True) State.new s

theorem Inv.of_reaches (h : Reaches s) : Inv s :=
  h.invariant Inv.new fun _ _ _ hu _ hstep => hu.step hstep

end Invariant

/-! ## One thread at a time -/

section Exclusive

variable {ι : Type*}

/-- The log whose entries the thread processes, or whose appenders it exchanges. -/
def Pc.log : Pc ι → Option ℕ
  | .process log _ _ | .flushProcess log _ | .syncProcess log | .exchange log => some log
  | _ => none

/-- What the place says of the thread that uses a log: it reads the list and the log is its own, or it
writes, or it has the spin lock. -/
theorem uses_cases {mode : ℕ → Option ThreadMode} {t : Thread ι} {pc : Pc ι} (hok : PcOk mode t pc) {log : ℕ}
    (h : pc.log = some log) :
    (LockName.logs ∈ pc.reads ∧ Serves mode log t) ∨
      (.logs ∈ pc.writes t ∧ ((∃ m, mode log = some m ∧ m ≠ .sync) ∨ .spin log ∈ pc.writes t)) ∨
      (.spin log ∈ pc.writes t ∧ mode log = some .sync) := by
  cases pc with
  | process log' todo didWork =>
    obtain rfl := Option.some.inj h
    exact Or.inl ⟨List.mem_singleton_self _, hok _ List.mem_cons_self⟩
  | flushProcess log' todo =>
    obtain rfl := Option.some.inj h
    exact Or.inr (Or.inl ⟨List.mem_singleton_self _, Or.inl (hok _ List.mem_cons_self)⟩)
  | syncProcess log' =>
    obtain rfl := Option.some.inj h
    exact Or.inr (Or.inr ⟨List.mem_singleton_self _, hok⟩)
  | exchange log' =>
    obtain rfl := Option.some.inj h
    exact Or.inr (Or.inl ⟨List.mem_cons_of_mem _ (List.mem_singleton_self _), Or.inr List.mem_cons_self⟩)
  | _ => cases h

/-- A log is served by one worker. -/
theorem eq_of_serves {mode : ℕ → Option ThreadMode} {log : ℕ} {t u : Thread ι} (ht : Serves mode log t)
    (hu : Serves mode log u) : t = u := by
  have hcross : ∀ n, mode log = some .async → log = n ∧ mode n = some .independent → False := by
    rintro n h ⟨rfl, h'⟩
    rw [h] at h'
    cases h'
  cases t with
  | publicWorker =>
    cases u with
    | publicWorker => rfl
    | worker n => exact (hcross n ht hu).elim
    | caller i => exact hu.elim
  | worker n =>
    cases u with
    | publicWorker => exact (hcross n hu ht).elim
    | worker n' => rw [← ht.1, ← hu.1]
    | caller i => exact hu.elim
  | caller i => exact ht.elim

theorem not_sync_of_serves {mode : ℕ → Option ThreadMode} {log : ℕ} {t : Thread ι} (h : Serves mode log t) :
    mode log ≠ some .sync := by
  intro hsync
  cases t with
  | publicWorker =>
    have heq := h.symm.trans hsync
    cases heq
  | worker n =>
    obtain ⟨rfl, hmode⟩ := h
    have heq := hmode.symm.trans hsync
    cases heq
  | caller i => exact h

variable [DecidableEq ι] {s : State ι}

/-- **One thread at a time.** In every state that the threads of the manager reach, in any order of their
steps: no two of them process the entries of one log or exchange its appenders; and while a thread adds a log
to the list or looks for one in it, no other thread goes through the list. -/
theorem logs_exclusive (h : Reaches s) :
    (∀ t u log, (s.pc t).log = some log → (s.pc u).log = some log → t = u) ∧
      ∀ t u job, s.pc t = .perform job → u ≠ t →
        LockName.logs ∉ (s.pc u).reads ∧ LockName.logs ∉ (s.pc u).writes u := by
  have hI := Inv.of_reaches h
  have hread : ∀ t u, LockName.logs ∈ (s.pc t).writes t → LockName.logs ∈ (s.pc u).reads → False :=
    fun t u ht hu => hI.locked.not_mem_reads ht u hu
  have hwrite : ∀ k t u, k ∈ (s.pc t).writes t → k ∈ (s.pc u).writes u → t = u :=
    fun k t u => hI.locked.eq_of_mem_writes
  constructor
  · intro t u log ht hu
    rcases uses_cases (hI.ok t) ht with ⟨hr, hs⟩ | ⟨hw, hm⟩ | ⟨hspin, hsync⟩
    · rcases uses_cases (hI.ok u) hu with ⟨-, hs'⟩ | ⟨hw', -⟩ | ⟨-, hsync'⟩
      · exact eq_of_serves hs hs'
      · exact (hread u t hw' hr).elim
      · exact (not_sync_of_serves hs hsync').elim
    · rcases uses_cases (hI.ok u) hu with ⟨hr', -⟩ | ⟨hw', -⟩ | ⟨hspin', hsync'⟩
      · exact (hread t u hw hr').elim
      · exact hwrite _ t u hw hw'
      · rcases hm with ⟨m, hm, hne⟩ | hspin
        · exact (hne (Option.some.inj (hm.symm.trans hsync'))).elim
        · exact hwrite _ t u hspin hspin'
    · rcases uses_cases (hI.ok u) hu with ⟨-, hs'⟩ | ⟨-, ⟨m, hm, hne⟩ | hspin'⟩ | ⟨hspin', -⟩
      · exact (not_sync_of_serves hs' hsync).elim
      · exact (hne (Option.some.inj (hm.symm.trans hsync))).elim
      · exact hwrite _ t u hspin hspin'
      · exact hwrite _ t u hspin hspin'
  · intro t u job ht hne
    have hw : LockName.logs ∈ (s.pc t).writes t := by
      rw [ht]
      exact List.mem_singleton_self _
    exact ⟨hI.locked.not_mem_reads hw u, fun hu => hne (hwrite _ u t hu hw)⟩

/-- An asynchronous and an independent log are created, and the two workers process them side by side. -/
def sideBySide : List (Thread Unit × Act Unit) :=
  [(.caller (), .call (.write (.createLog ['a'] [] .async)))] ++ List.replicate 4 (.caller (), .next true) ++
    [(.caller (), .call (.write (.createLog ['b'] [] .independent)))] ++
      List.replicate 4 (.caller (), .next true) ++ List.replicate 3 (.publicWorker, .next true) ++
        List.replicate 3 (.worker 1, .next true)

theorem logs_exclusive_sideBySide : ∃ s, run step State.new sideBySide = some s ∧
    (s.pc .publicWorker).log = some 0 ∧ (s.pc (.worker 1)).log = some 1 ∧
      ∀ t u log, (s.pc t).log = some log → (s.pc u).log = some log → t = u := by
  have hrun : (run step State.new sideBySide).map
      (fun s => ((s.pc .publicWorker).log, (s.pc (.worker 1)).log)) = some (some 0, some 1) := by
    decide +kernel
  obtain ⟨s, hs, heq⟩ := Option.map_eq_some_iff.1 hrun
  obtain ⟨hpublic, hworker⟩ := Prod.mk.inj heq
  exact ⟨s, hs, hpublic, hworker, (logs_exclusive (Runs.of_run (fun _ _ => trivial) hs)).1⟩

end Exclusive

end QLog.Workers
