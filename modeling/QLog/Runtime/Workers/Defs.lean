import QLog.Foundations.RwLock
import QLog.Runtime.LogManager

/-!
# The threads of the manager

A model of `log_worker::run` and of the calls that share the logs with the workers: `create_log`,
`reset_config`, the three ways to flush, `sync_process` of a synchronous log, `awake` and `uninit`. The public
worker processes the asynchronous logs; an independent log has a worker of its own. The workers and `uninit`
take the lock of the list of logs for reading and the other calls take it for writing; `reset_config` and
`sync_process` take the spin lock of the log; `uninit` has a lock of its own; and a worker sleeps on a
condition variable behind its mutex.

Concurrency is interleaving: a step is the next action of one thread, and a thread that waits for a lock or
joins another one has no step until then. A log is its position in `log_imp_list_`, which only grows. Whether
`init` succeeds is a choice of the environment, and so is what the loop of `log_imp::process` finds in the
buffer: an entry, which keeps it in the loop, or nothing. The writers do not look at the phase, so the loop
may find entries for as long as they go on.

A worker leaves `run` when it is cancelled. A thread that somebody else ends, for which there is
`try_restart_worker`, is not modelled. Nothing calls `awake_and_wait_begin`, so `wait_flag_` is never set, and
it is left out.
-/

namespace QLog.Workers

open LogManager (Phase)

/-! ## Threads -/

/-- `log_thread_mode`. -/
inductive ThreadMode
  | sync
  | async
  | independent
  deriving DecidableEq, Repr

/-- What the manager reads of a `log_imp`. -/
structure LogImp where
  name : List Char
  threadMode : ThreadMode
  deriving DecidableEq, Repr

/-- The public worker, the worker of an independent log, and the threads that call the manager. -/
inductive Thread (ι : Type*)
  | publicWorker
  | worker (log : ℕ)
  | caller (i : ι)
  deriving DecidableEq, Repr

/-- `logs_lock_`, `uninit_lock_`, the `spin_lock_` of a log and the `mutex_` of a worker. -/
inductive LockName (ι : Type*)
  | logs
  | uninit
  | spin (log : ℕ)
  | mutex (w : Thread ι)
  deriving DecidableEq, Repr

/-- What is done under the write lock. A log without a name gets the automatic one. -/
inductive Job
  | createLog (logName autoName : List Char) (mode : ThreadMode)
  | resetConfig (logName : List Char)
  | forceFlushAll
  | tryFlushAll
  | forceFlush (log : ℕ)
  deriving DecidableEq, Repr

/-- What `uninit` and the writers of records do to a worker. -/
inductive Op (ι : Type*)
  | cancel (w : Thread ι)
  | awake (w : Thread ι)
  | join (w : Thread ι)
  deriving DecidableEq, Repr

/-- Where a thread stands. `uninit` tells whether the operations on workers belong to `uninit`. -/
inductive Pc (ι : Type*)
  /-- A caller between two calls. -/
  | idle
  /-- A worker that has not been started. -/
  | unstarted
  /-- The head of the loop of `run`: the read lock of `process_by_worker` is next. -/
  | head
  | phaseCheck
  | turn (todo : List ℕ) (didWork : Bool)
  | process (log : ℕ) (todo : List ℕ) (didWork : Bool)
  | readUnlock (didWork : Bool)
  | cancelCheck (didWork : Bool)
  | mutexLock
  | setAwake
  | waitFor
  | waiting
  /-- The wait is over; the mutex is taken again next. -/
  | woken
  | clearAwake
  | mutexUnlock
  /-- The destructor of `log_worker_watch_dog`. -/
  | watchDog
  | restartLock
  | restartCheck
  | exited
  | writeLock (job : Job)
  | writePhase (job : Job)
  | perform (job : Job)
  | exchangeLock (log : ℕ)
  /-- `reset_config` exchanges the appenders of a log. -/
  | exchange (log : ℕ)
  | exchangeUnlock (log : ℕ)
  | flush (todo : List ℕ)
  | flushProcess (log : ℕ) (todo : List ℕ)
  | writeUnlock
  | syncLock (log : ℕ)
  | syncProcess (log : ℕ)
  | syncUnlock (log : ℕ)
  | script (uninit : Bool) (ops : List (Op ι))
  | notifyLock (w : Thread ι) (uninit : Bool) (ops : List (Op ι))
  | notifyAll (w : Thread ι) (uninit : Bool) (ops : List (Op ι))
  | notifyUnlock (w : Thread ι) (uninit : Bool) (ops : List (Op ι))
  | uninitReadLock
  | uninitLock
  | uninitPhase
  | uninitUnlock
  | uninitReadUnlock
  deriving DecidableEq, Repr

/-- The calls of the other threads. -/
inductive Call (ι : Type*)
  | write (job : Job)
  | syncProcess (log : ℕ)
  | awake (w : Thread ι)
  | uninit
  deriving DecidableEq, Repr

/-- The next call of a thread, its next action with a choice of the environment, or an entry that `process`
finds. -/
inductive Act (ι : Type*)
  | call (c : Call ι)
  | next (b : Bool)
  | entry
  deriving DecidableEq, Repr

/-- The manager, its logs, the locks and the threads. -/
structure State (ι : Type*) where
  phase : Phase
  logImpList : List LogImp
  lock : LockName ι → RwLock (Thread ι)
  cancelled : Thread ι → Bool
  awakeFlag : Thread ι → Bool
  pc : Thread ι → Pc ι

/-- The manager after construction, with the public worker started. -/
def State.new {ι : Type*} : State ι where
  phase := .working
  logImpList := []
  lock _ := .fresh
  cancelled _ := false
  awakeFlag _ := false
  pc
    | .publicWorker => .head
    | .worker _ => .unstarted
    | .caller _ => .idle

/-! ## Steps -/

section Step

variable {ι : Type*} [DecidableEq ι] (s : State ι)

/-- `get_thread_mode`. -/
def State.mode (log : ℕ) : Option ThreadMode := s.logImpList[log]?.map LogImp.threadMode

/-- The logs with a mode, in the order of the list. -/
def State.withMode (p : ThreadMode → Bool) : List ℕ :=
  (List.range s.logImpList.length).filter fun log => (s.mode log).any p

/-- The log with this name. -/
def State.find (logName : List Char) : Option ℕ :=
  s.logImpList.findIdx? fun log => log.name = logName

/-- The thread goes on. -/
def State.goto (t : Thread ι) (pc : Pc ι) : State ι := { s with pc := Function.update s.pc t pc }

/-- `read_lock`. -/
def State.acquireRead (t : Thread ι) (k : LockName ι) (pc : Pc ι) : Option (State ι) :=
  ((s.lock k).readLock t).map fun l => { s with lock := Function.update s.lock k l }.goto t pc

/-- `read_unlock`. -/
def State.releaseRead (t : Thread ι) (k : LockName ι) (pc : Pc ι) : State ι :=
  { s with lock := Function.update s.lock k ((s.lock k).readUnlock t) }.goto t pc

/-- `write_lock`, and `lock` of the other locks. -/
def State.acquire (t : Thread ι) (k : LockName ι) (pc : Pc ι) : Option (State ι) :=
  ((s.lock k).writeLock t).map fun l => { s with lock := Function.update s.lock k l }.goto t pc

/-- `write_unlock`, and `unlock`. -/
def State.release (t : Thread ι) (k : LockName ι) (pc : Pc ι) : State ι :=
  { s with lock := Function.update s.lock k ((s.lock k).writeUnlock t) }.goto t pc

/-- The logs that a worker processes in a turn. -/
def State.targets : Thread ι → List ℕ
  | .publicWorker => s.withMode (· == .async)
  | .worker log => [log]
  | .caller _ => []

/-- `create_log` of a new name: a new log, whose worker is started if it is independent. -/
def State.create (logName : List Char) (mode : ThreadMode) : State ι :=
  let s' := { s with logImpList := s.logImpList ++ [⟨logName, mode⟩] }
  if mode = .independent then s'.goto (.worker s.logImpList.length) .head else s'

/-- What `uninit` does to the workers. -/
def State.shutdown : List (Op ι) :=
  let workers := (s.withMode (· == .independent)).map Thread.worker
  [.cancel .publicWorker, .awake .publicWorker, .join .publicWorker] ++
    workers.flatMap (fun w => [.cancel w, .awake w]) ++ workers.map .join

/-- A call. The caller of `sync_process` has the id of a synchronous log, and `force_flush` of one does
nothing. -/
def State.call (t : Thread ι) : Call ι → Option (State ι)
  | .write (.forceFlush log) =>
    match s.mode log with
    | some .sync => some s
    | some _ => some (s.goto t (.writeLock (.forceFlush log)))
    | none => none
  | .write job => some (s.goto t (.writeLock job))
  | .syncProcess log => if s.mode log = some .sync then some (s.goto t (.syncLock log)) else none
  | .awake w => some (s.goto t (.script false [.awake w]))
  | .uninit => some (s.goto t .uninitReadLock)

/-- What follows when the write lock is taken. -/
def State.begin : Job → Pc ι
  | .createLog logName autoName mode => .writePhase (.createLog logName autoName mode)
  | .resetConfig logName => .writePhase (.resetConfig logName)
  | .forceFlushAll => .flush (s.withMode (· != .sync))
  | .tryFlushAll => .flush (s.withMode (· != .sync))
  | .forceFlush log => .flush [log]

/-- `create_log` and `reset_config` behind the check of the phase. -/
def State.perform (t : Thread ι) (b : Bool) : Job → State ι
  | .createLog logName autoName mode =>
    match if logName ≠ [] then s.find logName else none with
    | some log => s.goto t (.exchangeLock log)
    | none =>
      let s := if b then s.create (if logName = [] then autoName else logName) mode else s
      s.goto t .writeUnlock
  | .resetConfig logName =>
    match s.find logName with
    | some log => s.goto t (.exchangeLock log)
    | none => s.goto t .writeUnlock
  | _ => s.goto t .writeUnlock

/-- The next operation on a worker. A `notify_all` wakes a worker that waits. -/
def State.runOp (t : Thread ι) (uninit : Bool) : List (Op ι) → Option (State ι)
  | [] => some (s.goto t (if uninit then .uninitUnlock else .idle))
  | .cancel w :: ops =>
    some ({ s with cancelled := Function.update s.cancelled w true }.goto t (.script uninit ops))
  | .awake w :: ops =>
    some ({ s with awakeFlag := Function.update s.awakeFlag w false }.goto t
      (if s.awakeFlag w then .notifyLock w uninit ops else .script uninit ops))
  | .join w :: ops => if s.pc w = .exited then some (s.goto t (.script uninit ops)) else none

/-- `notify_all`. -/
def State.notify (w : Thread ι) : State ι := if s.pc w = .waiting then s.goto w .woken else s

/-- `~log_worker_watch_dog` of a worker that was not cancelled starts it again. -/
def State.restart (t : Thread ι) : State ι :=
  { s with
    cancelled := Function.update s.cancelled t false
    awakeFlag := Function.update s.awakeFlag t false }

/-- The next action of a thread. -/
def State.next (t : Thread ι) (b : Bool) : Option (State ι) :=
  match s.pc t with
  | .idle => none
  | .unstarted => none
  | .head => s.acquireRead t .logs .phaseCheck
  | .phaseCheck =>
    some (s.goto t (if s.phase = .working then .turn (s.targets t) false else .readUnlock false))
  | .turn [] didWork => some (s.goto t (.readUnlock didWork))
  | .turn (log :: todo) didWork => some (s.goto t (.process log todo didWork))
  | .process _ todo didWork => some (s.goto t (.turn todo didWork))
  | .readUnlock didWork => some (s.releaseRead t .logs (.cancelCheck didWork))
  | .cancelCheck didWork =>
    some (s.goto t (if s.cancelled t then .watchDog else if didWork then .head else .mutexLock))
  | .mutexLock => s.acquire t (.mutex t) .setAwake
  | .setAwake => some ({ s with awakeFlag := Function.update s.awakeFlag t true }.goto t .waitFor)
  | .waitFor => some (s.release t (.mutex t) .waiting)
  | .waiting => some (s.goto t .woken)
  | .woken => s.acquire t (.mutex t) .clearAwake
  | .clearAwake => some ({ s with awakeFlag := Function.update s.awakeFlag t false }.goto t .mutexUnlock)
  | .mutexUnlock => some (s.release t (.mutex t) .head)
  | .watchDog => some (s.goto t (if s.phase = .working then .restartLock else .exited))
  | .restartLock => s.acquire t .uninit .restartCheck
  | .restartCheck =>
    if s.phase = .working then some ((s.restart t).release t .uninit .head)
    else some (s.release t .uninit .exited)
  | .exited => none
  | .writeLock job =>
    match s.acquire t .logs (s.begin job) with
    | some s' => some s'
    | none => if job = .tryFlushAll then some (s.goto t .idle) else none
  | .writePhase job =>
    some (s.goto t (if s.phase = .working then .perform job else .writeUnlock))
  | .perform job => some (s.perform t b job)
  | .exchangeLock log => s.acquire t (.spin log) (.exchange log)
  | .exchange log => some (s.goto t (.exchangeUnlock log))
  | .exchangeUnlock log => some (s.release t (.spin log) .writeUnlock)
  | .flush [] => some (s.goto t .writeUnlock)
  | .flush (log :: todo) => some (s.goto t (.flushProcess log todo))
  | .flushProcess _ todo => some (s.goto t (.flush todo))
  | .writeUnlock => some (s.release t .logs .idle)
  | .syncLock log => s.acquire t (.spin log) (.syncProcess log)
  | .syncProcess log => some (s.goto t (.syncUnlock log))
  | .syncUnlock log => some (s.release t (.spin log) .idle)
  | .script uninit ops => s.runOp t uninit ops
  | .notifyLock w uninit ops => s.acquire t (.mutex w) (.notifyAll w uninit ops)
  | .notifyAll w uninit ops => some ((s.notify w).goto t (.notifyUnlock w uninit ops))
  | .notifyUnlock w uninit ops => some (s.release t (.mutex w) (.script uninit ops))
  | .uninitReadLock => s.acquireRead t .logs .uninitLock
  | .uninitLock => s.acquire t .uninit .uninitPhase
  | .uninitPhase =>
    if s.phase = .working then
      some ({ s with phase := .uninitialized }.goto t (.script true s.shutdown))
    else some (s.goto t .uninitUnlock)
  | .uninitUnlock => some (s.release t .uninit .uninitReadUnlock)
  | .uninitReadUnlock => some (s.releaseRead t .logs .idle)

/-- The loop of `process` finds an entry, and goes on. -/
def State.entry (t : Thread ι) : Option (State ι) :=
  match s.pc t with
  | .process log todo _ => some (s.goto t (.process log todo true))
  | .flushProcess log todo => some (s.goto t (.flushProcess log todo))
  | _ => none

/-- One step. Only a caller between two calls makes a call. -/
def step : Thread ι × Act ι → Option (State ι)
  | (.caller i, .call c) => if s.pc (.caller i) = .idle then s.call (.caller i) c else none
  | (_, .call _) => none
  | (t, .next b) => s.next t b
  | (t, .entry) => s.entry t

end Step

end QLog.Workers
