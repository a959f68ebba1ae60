import QLog.Foundations.Transition

/-!
# The logs of the manager

A model of `log_manager::create_log`, with the list of the logs, the phase and the counter of automatic
names. A log without a name gets the next automatic one. The loop that looks for a log of this name
is meant to skip a name that is taken; its `continue` goes on with the next log instead, so that no name is
ever skipped (`skipTakenLoop_eq`).

The run theorem `log_names_unique_iff` says which sequences of calls keep the names apart, and
`names_nodup_of_users` that it is enough when the callers stay away from automatic names.
-/

namespace QLog.LogManager

/-! ## States -/

/-- The address of a `log_imp`. Allocations are aligned. -/
structure Address where
  val : UInt64
  aligned : val % 8 = 0
  deriving DecidableEq

/-- A configuration text: whether `create_from_string` makes nothing of it, and whether its
`appenders_config` is an object, as `log_imp::init` and `log_imp::reset_config` require. -/
structure Config where
  text : List Char
  isNull : Bool
  appendersConfigIsObject : Bool
  deriving DecidableEq

/-- The fields of `log_imp` that the manager reads and writes. -/
structure Log where
  address : Address
  name : List Char
  categoriesNameArray : List (List Char)
  lastConfig : Config
  deriving DecidableEq

/-- `log_id_magic_number`. -/
def logIdMagicNumber : UInt64 := 0x24FE284C23EA5821

/-- `log_imp::id`. -/
def Log.id (l : Log) : UInt64 := l.address.val ^^^ logIdMagicNumber

/-- `log_manager::phase`. -/
inductive Phase
  | invalid
  | working
  | uninitialized
  deriving DecidableEq

/-- The fields of `log_manager`. -/
structure State where
  phase : Phase
  logImpList : List Log
  automaticLogNameSeq : Int32
  deriving DecidableEq

/-- The constructor of `log_manager`. -/
def State.new : State := ⟨.working, [], 0⟩

/-- The names of the logs. -/
def State.names (s : State) : List (List Char) := s.logImpList.map Log.name

/-! ## Calls -/

/-- `%d`. -/
def printInt (n : ℤ) : List Char :=
  if n < 0 then '-' :: Nat.toDigits 10 n.natAbs else Nat.toDigits 10 n.natAbs

/-- The automatic name with a number. -/
def automaticLogName (seq : Int32) : List Char :=
  ['A', 'u', 't', 'o', 'B', 'q', 'L', 'o', 'g', '_'] ++ printInt seq.toInt

/-- A call of `create_log`, and where a new log would be allocated. -/
structure CreateCall where
  logName : List Char
  config : Config
  categoryNames : List (List Char)
  address : Address
  deriving DecidableEq

/-- What `create_log` returns and leaves behind, and whether it fails the assertion that the categories of
a log do not change. -/
structure Created where
  id : UInt64
  state : State
  categoriesChanged : Bool
  deriving DecidableEq

/-- The loop over the logs that is to skip a name that is taken. Its `continue` goes on with the next log. -/
def skipTakenLoop (randomLogName : List Char) : List Log → List Char
  | [] => randomLogName
  | l :: ls =>
    if l.name = randomLogName then skipTakenLoop randomLogName ls
    else skipTakenLoop randomLogName ls

/-- The new value of the counter, and the name of a log that is created without one. The outer loop breaks
in its first turn. -/
def assignLogName (s : State) : Int32 × List Char :=
  let newSeq := s.automaticLogNameSeq + 1
  (newSeq, skipTakenLoop (automaticLogName newSeq) s.logImpList)

/-- `create_log`. -/
def createLog (s : State) (c : CreateCall) : Created :=
  if c.config.isNull then ⟨0, s, false⟩
  else
    match s.phase with
    | .invalid => ⟨0, s, false⟩
    | .uninitialized => ⟨0, s, false⟩
    | .working =>
      match if c.logName ≠ [] then s.logImpList.find? (·.name = c.logName) else none with
      | some l => ⟨l.id, s, l.categoriesNameArray ≠ c.categoryNames⟩
      | none =>
        let seq := if c.logName = [] then (assignLogName s).1 else s.automaticLogNameSeq
        let logName := if c.logName = [] then (assignLogName s).2 else c.logName
        if c.config.appendersConfigIsObject then
          let log : Log := ⟨c.address, logName, c.categoryNames, c.config⟩
          ⟨log.id, { s with logImpList := s.logImpList ++ [log], automaticLogNameSeq := seq }, false⟩
        else ⟨0, { s with automaticLogNameSeq := seq }, false⟩

/-- The loop of `reset_config`, over the logs. -/
def resetConfigLoop (logName : List Char) (config : Config) : List Log → Bool × List Log
  | [] => (false, [])
  | l :: ls =>
    if l.name = logName then
      (true, (if config.appendersConfigIsObject then { l with lastConfig := config } else l) :: ls)
    else
      let r := resetConfigLoop logName config ls
      (r.1, l :: r.2)

/-- `log_manager::reset_config`. -/
def resetConfig (s : State) (logName : List Char) (config : Config) : Bool × State :=
  if config.isNull then (false, s)
  else if logName = [] then (false, s)
  else
    match s.phase with
    | .invalid => (false, s)
    | .uninitialized => (false, s)
    | .working =>
      let r := resetConfigLoop logName config s.logImpList
      (r.1, { s with logImpList := r.2 })

/-- `log_manager::uninit`. -/
def uninit (s : State) : State := if s.phase = .working then { s with phase := .uninitialized } else s

/-- The calls that change the manager. -/
inductive Action
  | createLog (c : CreateCall)
  | resetConfig (logName : List Char) (config : Config)
  | uninit
  deriving DecidableEq

/-- One call. -/
def step (s : State) : Action → Option State
  | .createLog c => some (createLog s c).state
  | .resetConfig logName config => some (resetConfig s logName config).2
  | .uninit => some (uninit s)

/-! ## What a call can do -/

variable {s t : State} {c : CreateCall}

theorem Log.id_ne_zero (l : Log) : l.id ≠ 0 := by
  intro h
  have hval : l.address.val = logIdMagicNumber := by
    rw [← UInt64.xor_zero (a := l.address.val), ← UInt64.xor_self (a := logIdMagicNumber),
      ← UInt64.xor_assoc, show l.address.val ^^^ logIdMagicNumber = 0 from h, UInt64.zero_xor]
  have := l.address.aligned
  rw [hval] at this
  exact absurd this (by decide)

/-- The call passes the guards: the configuration is not null and the manager works. -/
def Accepts (s : State) (c : CreateCall) : Prop := c.config.isNull = false ∧ s.phase = .working

instance : Decidable (Accepts s c) := inferInstanceAs (Decidable (_ ∧ _))

/-- The name that a new log gets. -/
def newName (s : State) (c : CreateCall) : List Char :=
  if c.logName = [] then automaticLogName (s.automaticLogNameSeq + 1) else c.logName

/-- The search for a taken name has no effect. -/
theorem skipTakenLoop_eq (randomLogName : List Char) (ls : List Log) :
    skipTakenLoop randomLogName ls = randomLogName := by
  induction ls with
  | nil => rfl
  | cons l ls ih => rw [skipTakenLoop, ih, ite_self]

theorem assignLogName_eq (s : State) :
    assignLogName s = (s.automaticLogNameSeq + 1, automaticLogName (s.automaticLogNameSeq + 1)) := by
  rw [assignLogName, skipTakenLoop_eq]

/-- The log that a call adds. -/
def newLog (s : State) (c : CreateCall) : Log := ⟨c.address, newName s c, c.categoryNames, c.config⟩

/-- The call goes past the guards and finds no log of its name. -/
structure Adds (s : State) (c : CreateCall) : Prop where
  accepts : Accepts s c
  not_mem : c.logName ≠ [] → c.logName ∉ s.names
  init : c.config.appendersConfigIsObject = true

theorem createLog_of_not_accepts (h : ¬Accepts s c) : createLog s c = ⟨0, s, false⟩ := by
  unfold createLog
  split
  · rfl
  · rename_i hnull
    cases hphase : s.phase with
    | invalid => rfl
    | uninitialized => rfl
    | working => exact absurd ⟨Bool.not_eq_true _ ▸ hnull, hphase⟩ h

theorem find_name_eq_none_iff {name : List Char} :
    s.logImpList.find? (·.name = name) = none ↔ name ∉ s.names := by
  rw [List.find?_eq_none, State.names, List.mem_map, not_exists]
  refine forall_congr' fun l => ?_
  rw [not_and, decide_eq_true_eq]

/-- **A call with a name that is there** returns the id of a log of this name and changes nothing. -/
theorem createLog_of_mem (h : Accepts s c) (hne : c.logName ≠ []) (hmem : c.logName ∈ s.names) :
    ∃ l ∈ s.logImpList, l.name = c.logName ∧ (createLog s c).id = l.id ∧ (createLog s c).state = s := by
  cases hfind : s.logImpList.find? (·.name = c.logName) with
  | none => exact absurd hmem (find_name_eq_none_iff.1 hfind)
  | some l =>
    refine ⟨l, List.mem_of_find?_eq_some hfind, by simpa using List.find?_some hfind, ?_⟩
    have hcall : createLog s c = ⟨l.id, s, l.categoriesNameArray ≠ c.categoryNames⟩ := by
      rw [createLog, h.1, h.2, if_pos hne, hfind]
      rfl
    rw [hcall]
    exact ⟨rfl, rfl⟩

/-- Otherwise a log is added exactly if it can be initialized. -/
theorem createLog_of_not_mem (h : Accepts s c) (hnew : c.logName ≠ [] → c.logName ∉ s.names) :
    createLog s c =
      let seq := if c.logName = [] then s.automaticLogNameSeq + 1 else s.automaticLogNameSeq
      if c.config.appendersConfigIsObject then
        ⟨(newLog s c).id,
          { s with logImpList := s.logImpList ++ [newLog s c], automaticLogNameSeq := seq }, false⟩
      else ⟨0, { s with automaticLogNameSeq := seq }, false⟩ := by
  have hfind : (if c.logName ≠ [] then s.logImpList.find? (·.name = c.logName) else none) = none := by
    split
    · rename_i hne
      exact find_name_eq_none_iff.2 (hnew hne)
    · rfl
  rw [createLog, h.1, h.2, hfind, assignLogName_eq]
  rfl

theorem adds_iff : Adds s c ↔ Accepts s c ∧ (c.logName ≠ [] → s.names.contains c.logName = false) ∧
    c.config.appendersConfigIsObject = true := by
  simp only [List.contains_eq_mem, decide_eq_false_iff_not]
  exact ⟨fun h => ⟨h.accepts, h.not_mem, h.init⟩, fun h => ⟨h.1, h.2.1, h.2.2⟩⟩

instance : Decidable (Adds s c) := decidable_of_iff' _ adds_iff

/-- **What a call does to the names.** -/
theorem names_createLog (s : State) (c : CreateCall) :
    (createLog s c).state.names = s.names ++ if Adds s c then [newName s c] else [] := by
  by_cases h : Accepts s c
  swap
  · rw [createLog_of_not_accepts h, if_neg fun ha => h ha.accepts, List.append_nil]
  by_cases hnew : c.logName ≠ [] → c.logName ∉ s.names
  swap
  · rw [Classical.not_imp, not_not] at hnew
    obtain ⟨l, -, -, -, hstate⟩ := createLog_of_mem h hnew.1 hnew.2
    rw [hstate, if_neg fun ha => ha.not_mem hnew.1 hnew.2, List.append_nil]
  rw [createLog_of_not_mem h hnew]
  by_cases hinit : c.config.appendersConfigIsObject = true
  · rw [if_pos (⟨h, hnew, hinit⟩ : Adds s c)]
    simp only [hinit, if_true]
    exact List.map_append
  · rw [if_neg fun ha : Adds s c => hinit ha.init, List.append_nil]
    simp only [hinit]
    rfl

theorem names_resetConfigLoop (logName : List Char) (config : Config) (ls : List Log) :
    (resetConfigLoop logName config ls).2.map Log.name = ls.map Log.name := by
  induction ls with
  | nil => rfl
  | cons l ls ih =>
    rw [resetConfigLoop]
    split
    · split <;> rfl
    · exact congrArg (l.name :: ·) ih

/-- A new configuration changes no name. -/
theorem names_resetConfig (s : State) (logName : List Char) (config : Config) :
    (resetConfig s logName config).2.names = s.names := by
  unfold resetConfig
  split
  · rfl
  split
  · rfl
  cases s.phase with
  | invalid => rfl
  | uninitialized => rfl
  | working => exact names_resetConfigLoop logName config s.logImpList

theorem names_uninit (s : State) : (uninit s).names = s.names := by
  unfold uninit
  split <;> rfl

/-! ## Runs -/

/-- No log is added under an automatic name that is taken. -/
def KeepsApart (s : State) : Action → Prop
  | .createLog c => Adds s c → c.logName = [] → automaticLogName (s.automaticLogNameSeq + 1) ∉ s.names
  | _ => True

/-- A call with a name that is there passes the guards. -/
def Passes (s : State) : Action → Prop
  | .createLog c => c.logName ≠ [] → c.logName ∈ s.names → Accepts s c
  | _ => True

/-- A call with a name that is there returns the id of a log of this name and adds none. -/
def ReturnsExisting (s : State) : Action → Prop
  | .createLog c => c.logName ≠ [] → c.logName ∈ s.names →
    ∃ l ∈ s.logImpList, l.name = c.logName ∧ (createLog s c).id = l.id ∧
      (createLog s c).state.logImpList = s.logImpList
  | _ => True

/-- A log is found again exactly if the call passes the guards. -/
theorem returnsExisting_iff (s : State) (a : Action) : ReturnsExisting s a ↔ Passes s a := by
  cases a with
  | resetConfig logName config => exact Iff.rfl
  | uninit => exact Iff.rfl
  | createLog c =>
    refine forall_congr' fun hne => forall_congr' fun hmem => ⟨fun ⟨l, _, _, hid, _⟩ => ?_, fun h => ?_⟩
    · by_contra hguard
      rw [createLog_of_not_accepts hguard] at hid
      exact l.id_ne_zero hid.symm
    · obtain ⟨l, hl, hname, hid, hstate⟩ := createLog_of_mem h hne hmem
      exact ⟨l, hl, hname, hid, by rw [hstate]⟩

/-- **One call** keeps the names apart exactly if it does not take an automatic name twice. -/
theorem nodup_names_step_iff {a : Action} (hs : s.names.Nodup) (h : step s a = some t) :
    t.names.Nodup ↔ KeepsApart s a := by
  cases a with
  | resetConfig logName config =>
    obtain rfl := Option.some.inj h
    rw [names_resetConfig]
    exact iff_of_true hs trivial
  | uninit =>
    obtain rfl := Option.some.inj h
    rw [names_uninit]
    exact iff_of_true hs trivial
  | createLog c =>
    obtain rfl := Option.some.inj h
    rw [names_createLog, KeepsApart]
    split
    · rename_i hadds
      have hfresh : (s.names ++ [newName s c]).Nodup ↔ newName s c ∉ s.names := by
        rw [List.nodup_append_comm, List.singleton_append, List.nodup_cons, and_iff_left hs]
      rw [hfresh, newName]
      by_cases hname : c.logName = []
      · rw [if_pos hname]
        exact ⟨fun h _ _ => h, fun h => h hadds hname⟩
      · rw [if_neg hname]
        exact iff_of_true (hadds.not_mem hname) fun _ hnil => absurd hnil hname
    · rename_i hadds
      rw [List.append_nil]
      exact iff_of_true hs fun h => absurd h hadds

/-- A name that is there twice stays so. -/
theorem nodup_of_nodup_step (s : State) (a : Action) :
    ∃ t, step s a = some t ∧ (t.names.Nodup → s.names.Nodup) := by
  cases a with
  | resetConfig logName config => exact ⟨_, rfl, fun h => names_resetConfig s logName config ▸ h⟩
  | uninit => exact ⟨_, rfl, fun h => names_uninit s ▸ h⟩
  | createLog c =>
    refine ⟨_, rfl, fun h => ?_⟩
    rw [names_createLog] at h
    exact (List.nodup_append.1 h).1

/-- **Names of logs.** Every sequence of calls runs through, and its logs have different names, and every
call with a name that is there returns the id of its log and adds none, exactly if no log is added under
an automatic name that is taken and the calls with a name that is there pass the guards. -/
theorem log_names_unique_iff (as : List Action) :
    ∃ t, run step State.new as = some t ∧
      (t.names.Nodup ∧ Admits step ReturnsExisting State.new as ↔
        Admits step KeepsApart State.new as ∧ Admits step Passes State.new as) := by
  have hnew : State.new.names.Nodup := List.nodup_nil
  obtain ⟨t, ht, hiff⟩ := run_iff_admits (P := fun s : State => s.names.Nodup) (I := fun _ _ => True)
    nodup_of_nodup_step (fun s a as t _ hs h => ⟨nodup_names_step_iff hs h, fun _ => trivial⟩) trivial hnew
  refine ⟨t, ht, ?_⟩
  rw [hiff, show (ReturnsExisting : State → Action → Prop) = Passes from
    funext fun s => funext fun a => propext (returnsExisting_iff s a)]

/-- A log with the name `AutoBqLog_1`, and then one without a name: both have this name. -/
theorem log_names_collide :
    ∃ t, run step State.new
      [.createLog ⟨automaticLogName 1, ⟨['c'], false, true⟩, [[]], ⟨8, by decide⟩⟩,
        .createLog ⟨[], ⟨['c'], false, true⟩, [[]], ⟨16, by decide⟩⟩] = some t ∧
      t.names = [automaticLogName 1, automaticLogName 1] ∧ ¬t.names.Nodup := by
  refine ⟨_, rfl, ?_, ?_⟩
  · decide
  · decide

/-! ## Callers that stay away from automatic names -/

theorem printInt_injective : Function.Injective printInt := by
  have hdigits : Function.Injective (Nat.toDigits 10) := by
    intro m n h
    have := congrArg (Nat.ofDigitChars 10 · 0) h
    simpa [Nat.ofDigitChars_toDigits] using this
  have hminus : ∀ n cs, Nat.toDigits 10 n ≠ '-' :: cs := by
    intro n cs h
    have hdigit : ('-' : Char).isDigit = true :=
      Nat.isDigit_of_mem_toDigits (by decide) (by decide) (h ▸ List.mem_cons_self)
    exact absurd hdigit (by decide)
  intro m n h
  unfold printInt at h
  split at h <;> split at h
  · have := hdigits (List.cons.inj h).2
    omega
  · exact absurd h.symm (hminus _ _)
  · exact absurd h (hminus _ _)
  · have := hdigits h
    omega

/-- Automatic names with different numbers are different. -/
theorem automaticLogName_injective : Function.Injective automaticLogName := by
  intro m n h
  exact Int32.toInt_inj.1 (printInt_injective (List.append_cancel_left h))

/-- After `n` automatic names: the counter, and where the names come from. -/
structure Counted (n : ℕ) (s : State) : Prop where
  seq_eq : s.automaticLogNameSeq = Int32.ofNat n
  names : ∀ name ∈ s.names,
    (∃ i, 0 < i ∧ i ≤ n ∧ name = automaticLogName (Int32.ofNat i)) ∨ ∀ m, name ≠ automaticLogName m

/-- The next automatic name is free as long as the counter does not come around. -/
theorem Counted.not_mem {n : ℕ} (h : Counted n s) (hn : n + 1 < 2 ^ 32) :
    automaticLogName (s.automaticLogNameSeq + 1) ∉ s.names := by
  have hseq : s.automaticLogNameSeq + 1 = Int32.ofNat (n + 1) := by
    rw [h.seq_eq, Int32.ofNat_add]
    rfl
  intro hmem
  rcases h.names _ hmem with ⟨i, hpos, hle, heq⟩ | hno
  · have hnum := automaticLogName_injective heq
    rw [hseq, ← Int32.toBitVec_inj, Int32.toBitVec_ofNat', Int32.toBitVec_ofNat'] at hnum
    have := congrArg BitVec.toNat hnum
    rw [BitVec.toNat_ofNat, BitVec.toNat_ofNat, Nat.mod_eq_of_lt hn, Nat.mod_eq_of_lt (by omega)] at this
    omega
  · exact hno _ rfl

theorem seq_createLog (s : State) (c : CreateCall) : (createLog s c).state.automaticLogNameSeq =
    if Accepts s c ∧ c.logName = [] then s.automaticLogNameSeq + 1 else s.automaticLogNameSeq := by
  by_cases h : Accepts s c
  swap
  · rw [createLog_of_not_accepts h, if_neg fun ha => h ha.1]
  by_cases hnew : c.logName ≠ [] → c.logName ∉ s.names
  · rw [createLog_of_not_mem h hnew]
    simp only [h, true_and]
    split <;> rfl
  · rw [Classical.not_imp, not_not] at hnew
    obtain ⟨l, -, -, -, hstate⟩ := createLog_of_mem h hnew.1 hnew.2
    rw [hstate, if_neg fun ha => hnew.1 ha.2]

theorem seq_resetConfig (s : State) (logName : List Char) (config : Config) :
    (resetConfig s logName config).2.automaticLogNameSeq = s.automaticLogNameSeq := by
  unfold resetConfig
  split
  · rfl
  split
  · rfl
  cases s.phase <;> rfl

/-- A call takes at most one automatic name. -/
theorem Counted.step {n : ℕ} {a : Action} (h : Counted n s)
    (ha : ∀ c, a = .createLog c → ∀ m, c.logName ≠ automaticLogName m) (hstep : step s a = some t) :
    ∃ n' ≤ n + 1, Counted n' t := by
  cases a with
  | resetConfig logName config =>
    obtain rfl := Option.some.inj hstep
    exact ⟨n, Nat.le_succ n, (seq_resetConfig ..).trans h.seq_eq, names_resetConfig s .. ▸ h.names⟩
  | uninit =>
    obtain rfl := Option.some.inj hstep
    refine ⟨n, Nat.le_succ n, ?_, names_uninit s ▸ h.names⟩
    rw [uninit]
    split <;> exact h.seq_eq
  | createLog c =>
    obtain rfl := Option.some.inj hstep
    have huser := ha c rfl
    by_cases hauto : Accepts s c ∧ c.logName = []
    · have hseq : (createLog s c).state.automaticLogNameSeq = Int32.ofNat (n + 1) := by
        rw [seq_createLog, if_pos hauto, h.seq_eq, Int32.ofNat_add]
        rfl
      refine ⟨n + 1, le_refl _, hseq, fun name hname => ?_⟩
      rw [names_createLog, List.mem_append] at hname
      rcases hname with hname | hname
      · refine (h.names name hname).imp_left fun ⟨i, hpos, hle, heq⟩ => ?_
        exact ⟨i, hpos, Nat.le_succ_of_le hle, heq⟩
      · refine .inl ⟨n + 1, Nat.succ_pos n, le_refl _, ?_⟩
        split at hname
        · rw [List.mem_singleton.1 hname, newName, if_pos hauto.2, h.seq_eq, Int32.ofNat_add]
          rfl
        · cases hname
    · refine ⟨n, Nat.le_succ n, ?_, fun name hname => ?_⟩
      · rw [seq_createLog, if_neg hauto, h.seq_eq]
      · rw [names_createLog, List.mem_append] at hname
        rcases hname with hname | hname
        · exact h.names name hname
        · refine .inr fun m => ?_
          split at hname
          · rename_i hadds
            rw [List.mem_singleton.1 hname, newName, if_neg fun hnil => hauto ⟨hadds.accepts, hnil⟩]
            exact huser m
          · cases hname

/-- **Names that the callers choose** other than automatic ones: then fewer than `2 ^ 32` calls keep all
names apart. -/
theorem names_nodup_of_users (as : List Action)
    (huser : ∀ c, .createLog c ∈ as → ∀ m, c.logName ≠ automaticLogName m) (hlen : as.length < 2 ^ 32) :
    ∃ t, run step State.new as = some t ∧ t.names.Nodup := by
  -- `n` automatic names are taken when `as` is still to come
  suffices h : ∀ as s n, (∀ c, .createLog c ∈ as → ∀ m, c.logName ≠ automaticLogName m) → Counted n s →
      s.names.Nodup → n + as.length < 2 ^ 32 → ∃ t, run step s as = some t ∧ t.names.Nodup from
    h as State.new 0 huser ⟨rfl, fun _ hname => (List.not_mem_nil hname).elim⟩ List.nodup_nil (by omega)
  intro as
  induction as with
  | nil => exact fun s n _ _ hs _ => ⟨s, rfl, hs⟩
  | cons a as ih =>
    intro s n huser hcount hs hlen
    rw [List.length_cons] at hlen
    obtain ⟨t, ht, -⟩ := nodup_of_nodup_step s a
    obtain ⟨n', hn', hcount'⟩ := hcount.step (fun c hc => huser c (hc ▸ List.mem_cons_self)) ht
    have hapart : KeepsApart s a := by
      cases a with
      | createLog c => exact fun _ _ => hcount.not_mem (by omega)
      | resetConfig logName config => trivial
      | uninit => trivial
    rw [run_cons_of_step ht]
    exact ih t n' (fun c hc => huser c (List.mem_cons_of_mem _ hc)) hcount'
      ((nodup_names_step_iff hs ht).2 hapart) (by omega)

end QLog.LogManager
