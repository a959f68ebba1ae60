import QLog.Foundations.Transition

/-!
# The read-write spin lock

A model of `spin_lock_rw_crazy`. One signed counter holds the readers and the write mark: a reader
increments it first and looks at the old value afterwards, and takes the increment back when the old
value was negative; a writer exchanges zero for the least value of the type, and back. `step` executes
the call of an operation, or one atomic operation on the counter; every thread may hold the lock several
times, up to `depth` read locks.

The counter is the sum of what the threads have added to it (`Inv.counter_eq`), which has room for all of
them when `threads * depth < 2 ^ w`. So it is negative exactly while a writer holds the lock, it is zero
exactly when nobody has a share in it, and it is the write mark exactly when the writer is alone
(`Inv.neg_iff`, `Inv.zero_iff`, `Inv.mark_iff`). `rw_lock_safe` is the property of the lock.
-/

namespace QLog.SpinLock

/-! ## Threads -/

/-- Where a thread stands in an operation; `once` is for the `try_` operations, which do not repeat. -/
inductive Pc
  | idle
  /-- The increment of a reader is next. -/
  | readAdd (once : Bool)
  /-- The increment met a negative value; it is taken back next. -/
  | readUndo (once : Bool)
  /-- `read_lock` waits for a value that is not negative. -/
  | readSpin
  /-- The decrement of `read_unlock` is next. -/
  | readSub
  /-- The exchange of a writer is next. -/
  | writeCas (once : Bool)
  /-- The exchange of `write_unlock` is next. -/
  | unlockCas
  deriving DecidableEq, Repr

/-- A thread: the read locks and the write lock it holds. -/
structure Thread where
  reads : ℕ
  writes : Bool
  pc : Pc
  deriving DecidableEq, Repr

namespace Thread

/-- A thread that holds nothing. -/
def fresh : Thread := ⟨0, false, .idle⟩

/-- The increment that is to be taken back. -/
def pending (th : Thread) : ℕ :=
  match th.pc with
  | .readUndo _ => 1
  | _ => 0

/-- The increments of a thread that are in the counter. -/
def weight (th : Thread) : ℕ := th.reads + th.pending

end Thread

/-! ## Steps -/

/-- The calls, and the next atomic operation of a call. -/
inductive Act
  | readLock | tryReadLock | readUnlock | writeLock | tryWriteLock | writeUnlock
  | atomic
  deriving DecidableEq, Repr

/-- `write_lock_mark_value`, the least value of the counter type with `w` bits and a sign. -/
def writeLockMarkValue (w : ℕ) : ℤ := -2 ^ w

/-- The arithmetic of the counter type. -/
def wrap (w : ℕ) (c : ℤ) : ℤ := c.bmod (2 ^ (w + 1))

/-- The next atomic operation of a thread on the counter. -/
def Thread.atomic (w : ℕ) (c : ℤ) (th : Thread) : Option (ℤ × Thread) :=
  match th.pc with
  | .idle => none
  | .readAdd once =>
    if 0 ≤ c then some (wrap w (c + 1), ⟨th.reads + 1, th.writes, .idle⟩)
    else some (wrap w (c + 1), ⟨th.reads, th.writes, .readUndo once⟩)
  | .readUndo once => some (wrap w (c - 1), ⟨th.reads, th.writes, if once then .idle else .readSpin⟩)
  | .readSpin => some (c, ⟨th.reads, th.writes, if 0 ≤ c then .readAdd false else .readSpin⟩)
  | .readSub => some (wrap w (c - 1), ⟨th.reads - 1, th.writes, .idle⟩)
  | .writeCas once =>
    if c = 0 then some (writeLockMarkValue w, ⟨th.reads, true, .idle⟩)
    else some (c, ⟨th.reads, th.writes, if once then .idle else .writeCas once⟩)
  | .unlockCas =>
    if c = writeLockMarkValue w then some (0, ⟨th.reads, false, .idle⟩)
    else some (c, ⟨th.reads, th.writes, .unlockCas⟩)

/-- The call of an operation. A thread unlocks what it holds, and takes at most `depth` read locks. -/
def Thread.call (depth : ℕ) (th : Thread) : Act → Option Thread
  | .readLock => if th.pc = .idle ∧ th.reads < depth then some { th with pc := .readAdd false } else none
  | .tryReadLock => if th.pc = .idle ∧ th.reads < depth then some { th with pc := .readAdd true } else none
  | .readUnlock => if th.pc = .idle ∧ 0 < th.reads then some { th with pc := .readSub } else none
  | .writeLock => if th.pc = .idle then some { th with pc := .writeCas false } else none
  | .tryWriteLock => if th.pc = .idle then some { th with pc := .writeCas true } else none
  | .writeUnlock => if th.pc = .idle ∧ th.writes then some { th with pc := .unlockCas } else none
  | .atomic => none

/-- The lock and its threads. -/
structure State (ι : Type*) where
  counter : ℤ
  threads : ι → Thread

/-- The lock after construction. -/
def State.init {ι : Type*} : State ι := ⟨0, fun _ => .fresh⟩

section

variable {ι : Type*} [DecidableEq ι]

/-- The counter and a thread after its step. -/
def State.set (s : State ι) (t : ι) (c : ℤ) (th : Thread) : State ι := ⟨c, Function.update s.threads t th⟩

/-- One step of a thread. -/
def step (w depth : ℕ) (s : State ι) : ι × Act → Option (State ι)
  | (t, .atomic) => ((s.threads t).atomic w s.counter).map fun r => s.set t r.1 r.2
  | (t, a) => ((s.threads t).call depth a).map (s.set t s.counter)

end

/-! ## The effect of a step -/

/-- What a step does to the counter and to the share of the thread that moves. -/
inductive Effect (w : ℕ) (c : ℤ) (th : Thread) : ℤ → Thread → Prop
  /-- Nothing changes that others see. -/
  | same (pc : Pc) (hpending : (⟨th.reads, th.writes, pc⟩ : Thread).pending = th.pending) :
      Effect w c th c ⟨th.reads, th.writes, pc⟩
  /-- A reader enters. -/
  | enter (hc : 0 ≤ c) (hpending : th.pending = 0) :
      Effect w c th (wrap w (c + 1)) ⟨th.reads + 1, th.writes, .idle⟩
  /-- The increment of a reader meets a writer. -/
  | stumble (once : Bool) (hc : c < 0) (hpending : th.pending = 0) :
      Effect w c th (wrap w (c + 1)) ⟨th.reads, th.writes, .readUndo once⟩
  /-- That increment is taken back. -/
  | undo (pc : Pc) (hpending : th.pending = 1)
      (hdone : (⟨th.reads, th.writes, pc⟩ : Thread).pending = 0) :
      Effect w c th (wrap w (c - 1)) ⟨th.reads, th.writes, pc⟩
  /-- A reader leaves. -/
  | leave (hpos : 0 < th.reads) (hpending : th.pending = 0) :
      Effect w c th (wrap w (c - 1)) ⟨th.reads - 1, th.writes, .idle⟩
  /-- A writer enters. -/
  | acquire (hc : c = 0) (hpending : th.pending = 0) :
      Effect w c th (writeLockMarkValue w) ⟨th.reads, true, .idle⟩
  /-- A writer leaves. -/
  | release (hc : c = writeLockMarkValue w) (hwrites : th.writes = true) (hpending : th.pending = 0) :
      Effect w c th 0 ⟨th.reads, false, .idle⟩

/-- The thread is taking a read lock. -/
def Pc.wantsRead : Pc → Bool
  | .readAdd _ | .readUndo _ | .readSpin => true
  | _ => false

/-- The place of a thread says what it holds. -/
structure Thread.Ok (depth : ℕ) (th : Thread) : Prop where
  reads_le : th.reads ≤ depth
  reads_lt : th.pc.wantsRead = true → th.reads < depth
  reads_pos : th.pc = .readSub → 0 < th.reads
  writes : th.pc = .unlockCas → th.writes = true

section Effect

variable {w depth : ℕ} {c c' : ℤ} {th th' : Thread}

theorem Thread.ok_idle {reads : ℕ} (writes : Bool) (h : reads ≤ depth) :
    Thread.Ok depth ⟨reads, writes, .idle⟩ where
  reads_le := h
  reads_lt := nofun
  reads_pos := nofun
  writes := nofun

theorem Thread.ok_wantsRead {reads : ℕ} (writes : Bool) {pc : Pc} (hpc : pc.wantsRead = true)
    (h : reads < depth) : Thread.Ok depth ⟨reads, writes, pc⟩ where
  reads_le := h.le
  reads_lt _ := h
  reads_pos := by
    rintro rfl
    cases hpc
  writes := by
    rintro rfl
    cases hpc

theorem Thread.ok_writeCas {reads : ℕ} (writes once : Bool) (h : reads ≤ depth) :
    Thread.Ok depth ⟨reads, writes, .writeCas once⟩ where
  reads_le := h
  reads_lt := nofun
  reads_pos := nofun
  writes := nofun

/-- The share of a thread never exceeds its depth. -/
theorem Thread.Ok.weight_le (h : th.Ok depth) : th.weight ≤ depth := by
  have hle := h.reads_le
  have hlt := h.reads_lt
  obtain ⟨reads, writes, pc⟩ := th
  cases pc with
  | readUndo once => exact hlt rfl
  | _ => exact hle

theorem effect_of_atomic (hth : th.Ok depth) (h : th.atomic w c = some (c', th')) :
    Effect w c th c' th' ∧ th'.Ok depth := by
  have hle := hth.reads_le
  have hlt := hth.reads_lt
  obtain ⟨reads, writes, pc⟩ := th
  cases pc with
  | idle => cases h
  | readAdd once =>
    simp only [Thread.atomic] at h
    split at h
    · rename_i hc
      cases h
      exact ⟨.enter hc rfl, Thread.ok_idle writes (hlt rfl)⟩
    · rename_i hc
      cases h
      exact ⟨.stumble once (not_le.1 hc) rfl, Thread.ok_wantsRead writes rfl (hlt rfl)⟩
  | readUndo once =>
    cases h
    cases once with
    | true => exact ⟨.undo _ rfl rfl, Thread.ok_idle writes hle⟩
    | false => exact ⟨.undo _ rfl rfl, Thread.ok_wantsRead writes rfl (hlt rfl)⟩
  | readSpin =>
    simp only [Thread.atomic] at h
    split at h
    · cases h
      exact ⟨.same _ rfl, Thread.ok_wantsRead writes rfl (hlt rfl)⟩
    · cases h
      exact ⟨.same _ rfl, hth⟩
  | readSub =>
    cases h
    exact ⟨.leave (hth.reads_pos rfl) rfl, Thread.ok_idle writes (le_trans (Nat.sub_le _ _) hle)⟩
  | writeCas once =>
    simp only [Thread.atomic] at h
    split at h
    · rename_i hc
      cases h
      exact ⟨.acquire hc rfl, Thread.ok_idle true hle⟩
    · cases h
      cases once with
      | true => exact ⟨.same _ rfl, Thread.ok_idle writes hle⟩
      | false => exact ⟨.same _ rfl, hth⟩
  | unlockCas =>
    simp only [Thread.atomic] at h
    split at h
    · rename_i hc
      cases h
      exact ⟨.release hc (hth.writes rfl) rfl, Thread.ok_idle false hle⟩
    · cases h
      exact ⟨.same _ rfl, hth⟩

theorem effect_of_call {a : Act} (hth : th.Ok depth) (h : th.call depth a = some th') :
    Effect w c th c th' ∧ th'.Ok depth := by
  have hle := hth.reads_le
  obtain ⟨reads, writes, pc⟩ := th
  cases a with
  | readLock | tryReadLock =>
    obtain ⟨⟨rfl, hlt⟩, ⟨⟩⟩ := Option.ite_none_right_eq_some.1 h
    exact ⟨.same _ rfl, Thread.ok_wantsRead writes rfl hlt⟩
  | readUnlock =>
    obtain ⟨⟨rfl, hpos⟩, ⟨⟩⟩ := Option.ite_none_right_eq_some.1 h
    exact ⟨.same _ rfl, hle, nofun, fun _ => hpos, nofun⟩
  | writeLock | tryWriteLock =>
    obtain ⟨rfl, ⟨⟩⟩ := Option.ite_none_right_eq_some.1 h
    exact ⟨.same _ rfl, Thread.ok_writeCas writes _ hle⟩
  | writeUnlock =>
    obtain ⟨⟨rfl, hwrites⟩, ⟨⟩⟩ := Option.ite_none_right_eq_some.1 h
    exact ⟨.same _ rfl, hle, nofun, nofun, fun _ => hwrites⟩
  | atomic => cases h

/-- Every step is an effect on one thread. -/
theorem exists_effect_of_step {ι : Type*} [DecidableEq ι] {s s' : State ι} {a : ι × Act} (hth : ∀ t, (s.threads t).Ok depth)
    (h : step w depth s a = some s') : ∃ t c th, s' = s.set t c th ∧
      Effect w s.counter (s.threads t) c th ∧ th.Ok depth := by
  obtain ⟨t, a⟩ := a
  cases a with
  | atomic =>
    obtain ⟨⟨c, th⟩, hatomic, rfl⟩ := Option.map_eq_some_iff.1 h
    exact ⟨t, c, th, rfl, effect_of_atomic (hth t) hatomic⟩
  | _ =>
    obtain ⟨th, hcall, rfl⟩ := Option.map_eq_some_iff.1 h
    exact ⟨t, s.counter, th, rfl, effect_of_call (hth t) hcall⟩

end Effect

/-! ## Exclusion -/

section Exclusion

variable {ι : Type*} [DecidableEq ι] {threads : ι → Thread}

/-- A writer is alone. -/
def Exclusive {ι : Type*} (threads : ι → Thread) : Prop :=
  ∀ t, (threads t).writes = true → ∀ u, (threads u).reads = 0 ∧ ((threads u).writes = true → u = t)

/-- A thread that changes neither its read locks nor its write lock leaves a writer alone. -/
theorem Exclusive.update (h : Exclusive threads) (t : ι) {th : Thread}
    (hreads : th.reads ≤ (threads t).reads) (hwrites : th.writes = true → (threads t).writes = true) :
    Exclusive (Function.update threads t th) := by
  intro u hu v
  have hold : ∀ x, (Function.update threads t th x).writes = true → (threads x).writes = true := by
    intro x hx
    by_cases hxt : x = t
    · subst hxt
      rw [Function.update_self] at hx
      exact hwrites hx
    · rwa [Function.update_of_ne hxt] at hx
  obtain ⟨hv, hvu⟩ := h u (hold u hu) v
  refine ⟨?_, fun hw => hvu (hold v hw)⟩
  by_cases hvt : v = t
  · subst hvt
    rw [Function.update_self]
    omega
  · rwa [Function.update_of_ne hvt]

/-- A reader enters while nobody writes. -/
theorem exclusive_of_no_writer (h : ∀ t, (threads t).writes = false) (t : ι) {th : Thread}
    (hwrites : th.writes = (threads t).writes) : Exclusive (Function.update threads t th) := by
  intro u hu
  exfalso
  by_cases hut : u = t
  · subst hut
    rw [Function.update_self, hwrites, h u] at hu
    cases hu
  · rw [Function.update_of_ne hut, h u] at hu
    cases hu

/-- A writer enters while nobody has a share in the counter. -/
theorem exclusive_of_free (h : ∀ t, (threads t).weight = 0 ∧ (threads t).writes = false) (t : ι)
    {th : Thread} (hreads : th.reads = 0) : Exclusive (Function.update threads t th) := by
  intro u hu v
  have hut : u = t := by
    by_contra hne
    rw [Function.update_of_ne hne, (h u).2] at hu
    cases hu
  subst hut
  by_cases hvu : v = u
  · subst hvu
    rw [Function.update_self]
    exact ⟨hreads, fun _ => rfl⟩
  · rw [Function.update_of_ne hvu, (h v).2]
    exact ⟨Nat.eq_zero_of_le_zero ((Nat.le_add_right _ _).trans_eq (h v).1), fun hv => by cases hv⟩

end Exclusion

/-! ## The invariant -/

section Invariant

variable {ι : Type*} [Fintype ι]

/-- What a thread has added to the counter. -/
def Thread.share (w : ℕ) (th : Thread) : ℤ := th.weight + if th.writes then writeLockMarkValue w else 0

/-- What all threads have added to the counter. -/
def total (w : ℕ) (threads : ι → Thread) : ℤ := ∑ t, (threads t).share w

/-- The lock between two steps. -/
structure Inv (w depth : ℕ) (s : State ι) : Prop where
  counter_eq : s.counter = total w s.threads
  exclusive : Exclusive s.threads
  ok : ∀ t, (s.threads t).Ok depth

variable {w depth : ℕ} {threads : ι → Thread} {s s' : State ι}

/-- Only the share of the thread that moves changes. -/
theorem total_update [DecidableEq ι] (t : ι) (th : Thread) :
    total w (Function.update threads t th) = total w threads + (th.share w - (threads t).share w) := by
  have hrest : ∑ u ∈ Finset.univ.erase t, (Function.update threads t th u).share w =
      ∑ u ∈ Finset.univ.erase t, (threads u).share w := by
    refine Finset.sum_congr rfl fun u hu => ?_
    rw [Function.update_of_ne (Finset.ne_of_mem_erase hu)]
  rw [total, total, ← Finset.add_sum_erase _ _ (Finset.mem_univ t), hrest,
    ← Finset.add_sum_erase _ (fun u => (threads u).share w) (Finset.mem_univ t), Function.update_self]
  ring

/-- The increments in the counter. -/
theorem sum_weight_le (hok : ∀ t, (threads t).Ok depth) :
    ∑ t, (threads t).weight ≤ Fintype.card ι * depth := by
  calc ∑ t, (threads t).weight ≤ ∑ _t : ι, depth := Finset.sum_le_sum fun t _ => (hok t).weight_le
    _ = Fintype.card ι * depth := by rw [Finset.sum_const_nat fun _ _ => rfl, Finset.card_univ]

/-- Without a writer the counter holds the increments alone. -/
theorem total_of_no_writer (h : ∀ t, (threads t).writes = false) :
    total w threads = (∑ t, (threads t).weight : ℕ) := by
  rw [total, Nat.cast_sum]
  refine Finset.sum_congr rfl fun t _ => ?_
  rw [Thread.share, h t, if_neg (by decide), add_zero]

/-- With a writer it holds the mark as well. -/
theorem total_of_writer {t : ι} (hexclusive : Exclusive threads) (ht : (threads t).writes = true) :
    total w threads = (∑ t, (threads t).weight : ℕ) + writeLockMarkValue w := by
  have hmark : ∑ u, (if (threads u).writes then writeLockMarkValue w else 0) = writeLockMarkValue w := by
    rw [Finset.sum_eq_single t, if_pos ht]
    · intro u _ hne
      exact if_neg fun hu => hne ((hexclusive t ht u).2 hu)
    · exact fun h => absurd (Finset.mem_univ t) h
  calc total w threads
      = ∑ u, (((threads u).weight : ℤ) + if (threads u).writes then writeLockMarkValue w else 0) := rfl
    _ = _ := by rw [Finset.sum_add_distrib, hmark, Nat.cast_sum]

/-- Either nobody writes, or one thread does. -/
theorem writer_cases (threads : ι → Thread) :
    (∀ t, (threads t).writes = false) ∨ ∃ t, (threads t).writes = true := by
  by_cases h : ∃ t, (threads t).writes = true
  · exact Or.inr h
  · exact Or.inl fun t => Bool.eq_false_iff.2 fun ht => h ⟨t, ht⟩

/-- The shares fit the counter type. -/
theorem wrap_total (hroom : Fintype.card ι * depth < 2 ^ w) (hexclusive : Exclusive threads)
    (hok : ∀ t, (threads t).Ok depth) : wrap w (total w threads) = total w threads := by
  have hle := lt_of_le_of_lt (sum_weight_le hok) hroom
  have hcast : ((∑ t, (threads t).weight : ℕ) : ℤ) < 2 ^ w := by exact_mod_cast hle
  have hpow : (2 : ℤ) ^ (w + 1) = 2 * 2 ^ w := pow_succ' 2 w
  have hnat : ((2 ^ (w + 1) : ℕ) : ℤ) = 2 * 2 ^ w := by exact_mod_cast hpow
  refine Int.bmod_eq_of_le_mul_two ?_ ?_
  all_goals
    rw [hnat]
    rcases writer_cases threads with h | ⟨t, ht⟩
    · rw [total_of_no_writer h]
      omega
    · rw [total_of_writer hexclusive ht, writeLockMarkValue]
      omega

/-- The write mark, when a thread writes. -/
def State.mark {ι : Type*} [Fintype ι] (w : ℕ) (s : State ι) : ℤ :=
  if ∃ t, (s.threads t).writes = true then writeLockMarkValue w else 0

/-- The counter counts the readers and the increments that are to be taken back. -/
theorem Inv.counter_eq_sum (h : Inv w depth s) :
    s.counter = (∑ t, (s.threads t).reads : ℕ) + (∑ t, (s.threads t).pending : ℕ) + s.mark w := by
  have hsum : ∑ t, (s.threads t).weight = ∑ t, (s.threads t).reads + ∑ t, (s.threads t).pending :=
    Finset.sum_add_distrib
  rw [h.counter_eq, State.mark]
  rcases writer_cases s.threads with hno | ⟨t, ht⟩
  · have hnone : ¬∃ t, (s.threads t).writes = true := fun ⟨t, ht⟩ => by
      rw [hno t] at ht
      cases ht
    rw [total_of_no_writer hno, if_neg hnone, hsum, Nat.cast_add, add_zero]
  · rw [total_of_writer h.exclusive ht, if_pos ⟨t, ht⟩, hsum, Nat.cast_add]

namespace Inv

/-- The counter is negative exactly while a writer holds the lock. -/
theorem neg_iff (h : Inv w depth s) (hroom : Fintype.card ι * depth < 2 ^ w) :
    s.counter < 0 ↔ ∃ t, (s.threads t).writes = true := by
  have hle := lt_of_le_of_lt (sum_weight_le h.ok) hroom
  have hcast : ((∑ t, (s.threads t).weight : ℕ) : ℤ) < 2 ^ w := by exact_mod_cast hle
  rw [h.counter_eq]
  rcases writer_cases s.threads with hno | ⟨t, ht⟩
  · rw [total_of_no_writer hno]
    constructor
    · intro hneg
      omega
    · rintro ⟨t, ht⟩
      rw [hno t] at ht
      cases ht
  · rw [total_of_writer h.exclusive ht, writeLockMarkValue]
    exact ⟨fun _ => ⟨t, ht⟩, fun _ => by omega⟩

/-- It is zero exactly when nobody has a share in it. -/
theorem zero_iff (h : Inv w depth s) (hroom : Fintype.card ι * depth < 2 ^ w) :
    s.counter = 0 ↔ ∀ t, (s.threads t).weight = 0 ∧ (s.threads t).writes = false := by
  constructor
  · intro hzero
    have hno : ∀ t, (s.threads t).writes = false := fun t => Bool.eq_false_iff.2 fun ht => by
      have hneg := (h.neg_iff hroom).2 ⟨t, ht⟩
      omega
    have hsum : ∑ t, (s.threads t).weight = 0 := by
      have heq := h.counter_eq
      rw [total_of_no_writer hno] at heq
      omega
    exact fun t => ⟨(Finset.sum_eq_zero_iff.1 hsum) t (Finset.mem_univ t), hno t⟩
  · intro hall
    rw [h.counter_eq, total_of_no_writer fun t => (hall t).2,
      Finset.sum_eq_zero fun t _ => (hall t).1, Nat.cast_zero]

/-- It is the write mark exactly when the writer is the only one with a share in it. -/
theorem mark_iff (h : Inv w depth s) {t : ι} (ht : (s.threads t).writes = true) :
    s.counter = writeLockMarkValue w ↔ ∀ u, (s.threads u).weight = 0 := by
  rw [h.counter_eq, total_of_writer h.exclusive ht]
  constructor
  · intro heq u
    have hsum : ∑ t, (s.threads t).weight = 0 := by omega
    exact (Finset.sum_eq_zero_iff.1 hsum) u (Finset.mem_univ u)
  · intro hall
    rw [Finset.sum_eq_zero fun u _ => hall u, Nat.cast_zero, zero_add]

end Inv

/-! ## Runs -/

theorem inv_init : Inv w depth (State.init : State ι) where
  counter_eq := (Finset.sum_eq_zero fun _ _ => rfl).symm
  exclusive := fun _ h => by cases h
  ok := fun _ => Thread.ok_idle false (Nat.zero_le _)

variable [DecidableEq ι]

/-- The counter after a step holds what the threads have added to it. -/
theorem Inv.set (h : Inv w depth s) {t : ι} {c : ℤ} {th : Thread} (hok : th.Ok depth)
    (hexclusive : Exclusive (Function.update s.threads t th))
    (hc : c = s.counter + (th.share w - (s.threads t).share w)) : Inv w depth (s.set t c th) where
  counter_eq := by
    change c = total w (Function.update s.threads t th)
    rw [total_update, hc, h.counter_eq]
  exclusive := hexclusive
  ok := fun u => by
    change (Function.update s.threads t th u).Ok depth
    by_cases hut : u = t
    · subst hut
      rwa [Function.update_self]
    · rw [Function.update_of_ne hut]
      exact h.ok u

/-- The same when the counter is written by the wrapping arithmetic of its type. -/
theorem Inv.set_wrap (h : Inv w depth s) (hroom : Fintype.card ι * depth < 2 ^ w) {t : ι} {d : ℤ}
    {th : Thread} (hok : th.Ok depth) (hexclusive : Exclusive (Function.update s.threads t th))
    (hd : d = th.share w - (s.threads t).share w) : Inv w depth (s.set t (wrap w (s.counter + d)) th) := by
  have hexact : s.counter + d = total w (Function.update s.threads t th) := by
    rw [total_update, h.counter_eq, hd]
  have hok' : ∀ u, (Function.update s.threads t th u).Ok depth := fun u => by
    by_cases hut : u = t
    · subst hut
      rwa [Function.update_self]
    · rw [Function.update_of_ne hut]
      exact h.ok u
  rw [hexact, wrap_total hroom hexclusive hok', ← hexact]
  exact h.set hok hexclusive (by rw [hd])

/-- The share of a thread, by what it holds. -/
theorem Thread.share_eq (w : ℕ) (th : Thread) : th.share w =
    (th.reads : ℤ) + th.pending + if th.writes then writeLockMarkValue w else 0 := by
  rw [Thread.share, Thread.weight, Nat.cast_add]

/-- Every step keeps the invariant. -/
theorem Inv.step (h : Inv w depth s) (hroom : Fintype.card ι * depth < 2 ^ w) {a : ι × Act}
    (ha : step w depth s a = some s') : Inv w depth s' := by
  obtain ⟨t, c, th, rfl, heffect, hok⟩ := exists_effect_of_step h.ok ha
  have hshare := (s.threads t).share_eq w
  cases heffect with
  | same pc hpending =>
    refine h.set hok (h.exclusive.update t le_rfl id) ?_
    rw [Thread.share_eq, hshare, hpending]
    dsimp only
    omega
  | enter hc hpending =>
    have hno : ∀ u, (s.threads u).writes = false := fun u => Bool.eq_false_iff.2 fun hu => by
      have hneg := (h.neg_iff hroom).2 ⟨u, hu⟩
      omega
    refine h.set_wrap hroom hok (exclusive_of_no_writer hno t rfl) ?_
    rw [Thread.share_eq, hshare, hpending]
    simp only [Thread.pending]
    omega
  | stumble once hc hpending =>
    refine h.set_wrap hroom hok (h.exclusive.update t le_rfl id) ?_
    rw [Thread.share_eq, hshare, hpending]
    simp only [Thread.pending]
    omega
  | undo pc hpending hdone =>
    rw [sub_eq_add_neg]
    refine h.set_wrap hroom hok (h.exclusive.update t le_rfl id) ?_
    rw [Thread.share_eq, hshare, hpending, hdone]
    dsimp only
    omega
  | leave hpos hpending =>
    rw [sub_eq_add_neg]
    refine h.set_wrap hroom hok (h.exclusive.update t (Nat.sub_le _ _) id) ?_
    rw [Thread.share_eq, hshare, hpending]
    simp only [Thread.pending]
    omega
  | acquire hc hpending =>
    have hfree := (h.zero_iff hroom).1 hc
    have hreads : (s.threads t).reads = 0 :=
      Nat.eq_zero_of_le_zero ((Nat.le_add_right _ _).trans_eq (hfree t).1)
    refine h.set hok (exclusive_of_free hfree t hreads) ?_
    rw [Thread.share_eq, hshare, hpending, hreads, (hfree t).2, hc, if_pos rfl, if_neg (by decide)]
    simp only [Thread.pending]
    omega
  | release hc hwrites hpending =>
    have hreads := (h.exclusive t hwrites t).1
    refine h.set hok (h.exclusive.update t le_rfl nofun) ?_
    rw [Thread.share_eq, hshare, hpending, hreads, hwrites, hc, if_pos rfl, if_neg (by decide)]
    simp only [Thread.pending]
    omega

/-- The runs of the lock. -/
def LockRuns (w depth : ℕ) : State ι → State ι → Prop := Runs (SpinLock.step w depth) fun _ _ => True

theorem inv_of_runs (hroom : Fintype.card ι * depth < 2 ^ w) (h : LockRuns w depth State.init s) :
    Inv w depth s :=
  Runs.invariant h inv_init fun _ _ _ hu _ hstep => hu.step hroom hstep

/-- Nobody has a share in the counter. -/
def State.Free {ι : Type*} (s : State ι) : Prop :=
  ∀ u, (s.threads u).reads = 0 ∧ (s.threads u).writes = false ∧ (s.threads u).pending = 0

/-- The exchange of `write_unlock`: it succeeds exactly when no other thread has an increment to take
back, and then the lock is free. -/
theorem Inv.unlock_cas (h : Inv w depth s) {t : ι} (hpc : (s.threads t).pc = .unlockCas)
    (ha : SpinLock.step w depth s (t, .atomic) = some s') :
    ((∀ u, (s.threads u).pending = 0) ∧ s'.counter = 0 ∧ s'.Free) ∨
      ((∃ u, (s.threads u).pending ≠ 0) ∧ s'.counter = s.counter ∧ s'.threads = s.threads) := by
  have hwrites := (h.ok t).writes hpc
  have hreads : ∀ u, (s.threads u).reads = 0 := fun u => (h.exclusive t hwrites u).1
  have hmark : s.counter = writeLockMarkValue w ↔ ∀ u, (s.threads u).pending = 0 := by
    rw [h.mark_iff hwrites]
    exact forall_congr' fun u => by rw [Thread.weight, hreads u, Nat.zero_add]
  rw [SpinLock.step, Thread.atomic, hpc] at ha
  by_cases hc : s.counter = writeLockMarkValue w
  · simp only [if_pos hc, Option.map_some, Option.some.injEq] at ha
    subst ha
    refine Or.inl ⟨hmark.1 hc, rfl, fun u => ?_⟩
    by_cases hut : u = t
    · subst hut
      simp only [State.set, Function.update_self]
      exact ⟨hreads u, trivial, rfl⟩
    · have hnot : (s.threads u).writes = false :=
        Bool.eq_false_iff.2 fun hu => hut ((h.exclusive t hwrites u).2 hu)
      simp only [State.set, Function.update_of_ne hut]
      exact ⟨hreads u, hnot, hmark.1 hc u⟩
  · simp only [if_neg hc, Option.map_some, Option.some.injEq] at ha
    subst ha
    refine Or.inr ⟨not_forall.1 fun hall => hc (hmark.2 hall), rfl, ?_⟩
    rw [← hpc]
    exact Function.update_eq_self t s.threads

end Invariant

/-- **The read-write spin lock.** Any number of threads, with fewer read locks in all than the counter has
positive values, in any order of the calls and of the atomic operations: a writer excludes every other
holder; the counter is the number of readers, plus the number of increments that are to be taken back,
plus the write mark; and the exchange of `write_unlock` succeeds only when no such increment is there, and
then leaves the lock free. -/
theorem rw_lock_safe {ι : Type*} [Fintype ι] [DecidableEq ι] (w depth : ℕ)
    (hroom : Fintype.card ι * depth < 2 ^ w) (s : State ι) (hrun : LockRuns w depth State.init s) :
    Exclusive s.threads ∧
      s.counter = (∑ t, (s.threads t).reads : ℕ) + (∑ t, (s.threads t).pending : ℕ) + s.mark w ∧
      ∀ t s', (s.threads t).pc = .unlockCas → step w depth s (t, .atomic) = some s' →
        ((∀ u, (s.threads u).pending = 0) ∧ s'.counter = 0 ∧ s'.Free) ∨
          ((∃ u, (s.threads u).pending ≠ 0) ∧ s'.counter = s.counter ∧ s'.threads = s.threads) := by
  have h := inv_of_runs hroom hrun
  exact ⟨h.exclusive, h.counter_eq_sum, fun t s' hpc ha => h.unlock_cas hpc ha⟩

/-- A writer, whose unlock meets the increment of a reader. -/
def unlockRun : List (Fin 2 × Act) :=
  [(0, .tryWriteLock), (0, .atomic), (1, .readLock), (1, .atomic), (0, .writeUnlock), (0, .atomic)]

/-- The lock behind that run, on the 64-bit counter. -/
theorem rw_lock_safe_unlockRun : ∃ s : State (Fin 2), run (step 63 1) State.init unlockRun = some s ∧
    Exclusive s.threads ∧
      s.counter = (∑ t, (s.threads t).reads : ℕ) + (∑ t, (s.threads t).pending : ℕ) + s.mark 63 ∧
      ∀ t s', (s.threads t).pc = .unlockCas → step 63 1 s (t, .atomic) = some s' →
        ((∀ u, (s.threads u).pending = 0) ∧ s'.counter = 0 ∧ s'.Free) ∨
          ((∃ u, (s.threads u).pending ≠ 0) ∧ s'.counter = s.counter ∧ s'.threads = s.threads) := by
  obtain ⟨s, hs⟩ := Option.isSome_iff_exists.1
    (show (run (step 63 1) (State.init : State (Fin 2)) unlockRun).isSome by decide +kernel)
  exact ⟨s, hs, rw_lock_safe 63 1 (by decide) s (Runs.of_run (fun _ _ => trivial) hs)⟩

end QLog.SpinLock
