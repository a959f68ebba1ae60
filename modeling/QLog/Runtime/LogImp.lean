import QLog.Foundations.Trace

/-!
# Recovery of a log

A model of the part of `log_imp` that tells its appenders about a recovery. The first entries that a log
reads may be of an earlier life: then every appender is asked to begin a recovery, those that agree get the
recovered entries, and they are told when the first entry of this life arrives. In the middle of it
`reset_config` may keep, drop, recreate and add appenders, and the appenders in recovery are kept in a
second list of raw pointers.

An appender is the number of its allocation, so a pointer to a destroyed one is never a pointer to another
one. `trace` is a history variable: what happened to the appenders, the newest event first. `Allowed` is the
protocol, and `recovery_protocol` says that every sequence of calls keeps it.
-/

namespace QLog.LogImp

/-! ## States -/

/-- An appender: its allocation and its name. -/
structure Appender (ν : Type*) where
  id : ℕ
  name : ν
  deriving DecidableEq, Repr

/-- What happens to an appender. -/
inductive Event
  | created (a : ℕ)
  | destroyed (a : ℕ)
  /-- `on_log_item_recovery_begin`, and what it returned. -/
  | recoveryBegin (a : ℕ) (result : Bool)
  /-- `on_log_item_recovery_end`. -/
  | recoveryEnd (a : ℕ)
  /-- `on_log_item_new_begin`. -/
  | newBegin (a : ℕ)
  /-- An entry is passed to the appender, with its timestamp, as a recovered one or not. -/
  | log (a : ℕ) (timestamp : ℕ) (recovered : Bool)
  deriving DecidableEq, Repr

/-- The appender of an event. -/
def Event.appender : Event → ℕ
  | .created a | .destroyed a | .recoveryBegin a _ | .recoveryEnd a | .newBegin a | .log a _ _ => a

/-- `recover_status_enum`. -/
inductive RecoverStatus
  | notStarted
  | inRecovering
  | recovered
  deriving DecidableEq, Repr

/-- The fields of `log_imp` that the recovery reads and writes. -/
structure State (ν : Type*) where
  appendersList : List (Appender ν)
  recoveryAppenders : List ℕ
  recoveryAppendersNeedBegin : Bool
  recoverStatus : RecoverStatus
  lastLogEntryEpochMs : ℕ
  nextId : ℕ
  trace : List Event

variable {ν : Type*}

/-- The appenders that are alive. -/
def State.ids (s : State ν) : List ℕ := s.appendersList.map Appender.id

/-- The constructor of `log_imp`. -/
def State.new : State ν where
  appendersList := []
  recoveryAppenders := []
  recoveryAppendersNeedBegin := false
  recoverStatus := .notStarted
  lastLogEntryEpochMs := 0
  nextId := 0
  trace := []

/-! ## Calls -/

/-- An entry as `process_log_chunk` finds it: what the buffer says of the chunk, what `validate` returns,
and what the appenders return when they are asked to begin. -/
structure LogChunk where
  isCurrentReadingRecovered : Bool
  valid : Bool
  currentReadingVersion : ℕ
  version : ℕ
  timestampEpoch : ℕ
  categoryEnabled : Bool
  recoveryBegin : ℕ → Bool

/-- The configuration of one appender: whether an appender of this name accepts it, and whether a new one
can be made from it. -/
structure AppenderConfig (ν : Type*) where
  name : ν
  resetResult : Bool
  initResult : Bool

/-- The calls of a log; a configuration without an object of appenders is `none`. -/
inductive Call (ν : Type*)
  | processLogChunk (chunk : LogChunk)
  | resetConfig (appendersConfig : Option (List (AppenderConfig ν)))

/-- `add_appender`. -/
def addAppender (s : State ν) (config : AppenderConfig ν) : State ν :=
  if config.initResult then
    { s with
      appendersList := s.appendersList ++ [⟨s.nextId, config.name⟩]
      nextId := s.nextId + 1
      trace := .created s.nextId :: s.trace }
  else s

/-- `log_imp::init`, as far as the appenders go. -/
def init (appendersConfig : List (AppenderConfig ν)) : State ν := appendersConfig.foldl addAppender .new

/-- The appenders that are asked to begin a recovery, one after the other; those that agree are put on the
second list. In the middle of a recovery the appenders on the list are passed over. -/
def beginLoop (chunk : LogChunk) (passOver : Bool) : List ℕ → State ν → State ν
  | [], s => s
  | a :: l, s =>
    if passOver ∧ a ∈ s.recoveryAppenders then beginLoop chunk passOver l s
    else beginLoop chunk passOver l
      { s with
        recoveryAppenders := if chunk.recoveryBegin a then s.recoveryAppenders ++ [a] else s.recoveryAppenders
        trace := .recoveryBegin a (chunk.recoveryBegin a) :: s.trace }

/-- `on_log_item_new_begin` of all appenders. -/
def newBeginAll (s : State ν) : State ν := { s with trace := emit .newBegin s.ids s.trace }

/-- What an entry does to the recovery, and whether it is a recovered one. -/
def recoverStep (s : State ν) (chunk : LogChunk) : State ν × Bool :=
  match s.recoverStatus with
  | .notStarted =>
    if chunk.currentReadingVersion = chunk.version then
      (newBeginAll { s with recoverStatus := .recovered }, false)
    else
      let s := beginLoop chunk false s.ids { s with recoverStatus := .inRecovering, recoveryAppenders := [] }
      ({ s with recoveryAppendersNeedBegin := false }, true)
  | .inRecovering =>
    if chunk.currentReadingVersion = chunk.version then
      (newBeginAll { s with
        recoverStatus := .recovered
        trace := emit .recoveryEnd s.recoveryAppenders s.trace
        recoveryAppenders := []
        recoveryAppendersNeedBegin := false }, false)
    else if s.recoveryAppendersNeedBegin then
      let s := beginLoop chunk true s.ids s
      ({ s with recoveryAppendersNeedBegin := false }, true)
    else (s, true)
  | .recovered => (s, false)

/-- `log` and `log_recovered`: the entry goes to the appenders of one of the two lists. -/
def logTo (s : State ν) (timestamp : ℕ) (categoryEnabled isRecoveredEntry : Bool) : State ν :=
  if categoryEnabled then
    let l := if isRecoveredEntry then s.recoveryAppenders else s.ids
    { s with trace := emit (Event.log · timestamp isRecoveredEntry) l s.trace }
  else s

/-- `process_log_chunk`. -/
def processLogChunk (s : State ν) (chunk : LogChunk) : State ν :=
  if chunk.isCurrentReadingRecovered ∧ ¬ chunk.valid then s
  else
    let r := recoverStep s chunk
    -- A timestamp that would go back is replaced by the last one.
    let timestamp :=
      if r.1.lastLogEntryEpochMs < chunk.timestampEpoch then chunk.timestampEpoch else r.1.lastLogEntryEpochMs
    logTo { r.1 with lastLogEntryEpochMs := timestamp } timestamp chunk.categoryEnabled r.2

section Reset

variable [DecidableEq ν]

/-- The loop of `reset_config` over the names of the new configuration: the appenders that are kept, the
old ones that are left, and the configurations from which new ones are made. -/
def keepLoop : List (AppenderConfig ν) → List (Appender ν) → List (Appender ν) → List (AppenderConfig ν) →
    List (Appender ν) × List (Appender ν) × List (AppenderConfig ν)
  | [], kept, tmpList, newCreate => (kept, tmpList, newCreate)
  | config :: configs, kept, tmpList, newCreate =>
    match tmpList.find? (fun appender => appender.name = config.name) with
    | some old =>
      if config.resetResult then keepLoop configs (kept ++ [old]) (tmpList.erase old) newCreate
      else keepLoop configs kept tmpList (newCreate ++ [config])
    | none => keepLoop configs kept tmpList (newCreate ++ [config])

/-- `reset_config`. -/
def resetConfig (s : State ν) : Option (List (AppenderConfig ν)) → State ν
  | none => s
  | some configs =>
    let r := keepLoop configs [] s.appendersList []
    let kept := r.1.map Appender.id
    let recovery :=
      if s.recoverStatus = .inRecovering then kept.filter (· ∈ s.recoveryAppenders) else s.recoveryAppenders
    let s' := r.2.2.foldl addAppender { s with
      appendersList := r.1
      recoveryAppenders := recovery
      trace := emit .destroyed (r.2.1.map Appender.id) s.trace }
    { s' with
      recoveryAppendersNeedBegin :=
        if s.recoverStatus = .inRecovering then s'.recoveryAppenders.length ≠ s'.appendersList.length
        else s'.recoveryAppendersNeedBegin }

/-- One call. -/
def call (s : State ν) : Call ν → State ν
  | .processLogChunk chunk => processLogChunk s chunk
  | .resetConfig appendersConfig => resetConfig s appendersConfig

end Reset

/-! ## The protocol -/

/-- An appender that exists. -/
def Alive (a : ℕ) (past : List Event) : Prop := .created a ∈ past ∧ .destroyed a ∉ past

/-- An appender that began a recovery. -/
def Began (a : ℕ) (past : List Event) : Prop := .recoveryBegin a true ∈ past

/-- What may happen to an appender, after what happened. -/
def Allowed : Event → List Event → Prop
  | .created a, past => ∀ e ∈ past, e.appender ≠ a
  | .destroyed a, past => Alive a past
  | .recoveryBegin a _, past => Alive a past ∧ ¬ Began a past ∧ .newBegin a ∉ past
  | .recoveryEnd a, past => Alive a past ∧ Began a past ∧ .recoveryEnd a ∉ past ∧ .newBegin a ∉ past
  | .newBegin a, past => Alive a past ∧ (Began a past → .recoveryEnd a ∈ past) ∧ .newBegin a ∉ past
  | .log a timestamp recovered, past => Alive a past ∧ (recovered = true → Began a past ∧ .recoveryEnd a ∉ past) ∧
      ∀ b t r, .log b t r ∈ past → t ≤ timestamp

/-! ## The invariant -/

/-- What holds of the lists and the trace at any time. -/
structure Core (s : State ν) : Prop where
  admitted : Admitted Allowed s.trace
  nodup : s.ids.Nodup
  alive : ∀ a ∈ s.ids, Alive a s.trace
  fresh : ∀ e ∈ s.trace, e.appender < s.nextId
  recoveryNodup : s.recoveryAppenders.Nodup
  subset : ∀ a ∈ s.recoveryAppenders, a ∈ s.ids
  began : ∀ a ∈ s.recoveryAppenders, Began a s.trace
  times : ∀ a t r, .log a t r ∈ s.trace → t ≤ s.lastLogEntryEpochMs

/-- What the recovery has got to. -/
def Phase (s : State ν) : Prop :=
  match s.recoverStatus with
  | .notStarted => s.recoveryAppenders = [] ∧
      ∀ a, ¬ Began a s.trace ∧ .recoveryEnd a ∉ s.trace ∧ .newBegin a ∉ s.trace
  | .inRecovering => (∀ a ∈ s.ids, Began a s.trace → a ∈ s.recoveryAppenders) ∧
      ∀ a, .recoveryEnd a ∉ s.trace ∧ .newBegin a ∉ s.trace
  | .recovered => s.recoveryAppenders = [] ∧ ∀ a ∈ s.ids, Began a s.trace → .recoveryEnd a ∈ s.trace

/-- The invariant between two calls. -/
structure Inv (s : State ν) : Prop where
  core : Core s
  phase : Phase s

section Lemmas

variable {s : State ν} {a : ℕ} {l : List ℕ} {past : List Event}

theorem Core.id_lt (h : Core s) (ha : a ∈ s.ids) : a < s.nextId := h.fresh _ (h.alive a ha).1

/-- Nothing happened to an appender that is not made yet. -/
theorem Core.not_began (h : Core s) : ¬ Began s.nextId s.trace := fun hbegan =>
  lt_irrefl s.nextId (h.fresh _ hbegan)

/-- A loop of events about living appenders. -/
theorem Core.emit (h : Core s) {f : ℕ → Event} (hl : l.Nodup) (hstart : ∀ a ∈ l, Allowed (f a) s.trace)
    (hstep : ∀ a ∈ l, ∀ b ∈ l, a ≠ b → ∀ past, Allowed (f b) past → Allowed (f b) (f a :: past))
    (happender : ∀ a, (f a).appender = a) (hids : ∀ a ∈ l, a ∈ s.ids) (hdestroy : ∀ a b, f a ≠ .destroyed b)
    (htimes : ∀ a b t r, f a = .log b t r → t ≤ s.lastLogEntryEpochMs) :
    Core { s with trace := QLog.emit f l s.trace } where
  admitted := h.admitted.emit hl hstart hstep
  nodup := h.nodup
  alive a ha := by
    obtain ⟨hcreated, hdestroyed⟩ := h.alive a ha
    refine ⟨mem_emit.2 (.inr hcreated), fun hmem => ?_⟩
    rcases mem_emit.1 hmem with ⟨b, -, hb⟩ | hmem
    · exact hdestroy b a hb
    · exact hdestroyed hmem
  fresh e he := by
    rcases mem_emit.1 he with ⟨b, hb, rfl⟩ | he
    · rw [happender]
      exact h.id_lt (hids b hb)
    · exact h.fresh e he
  recoveryNodup := h.recoveryNodup
  subset := h.subset
  began a ha := mem_emit.2 (.inr (h.began a ha))
  times a t r ht := by
    rcases mem_emit.1 ht with ⟨b, -, hb⟩ | ht
    · exact htimes b a t r hb
    · exact h.times a t r ht

/-! ### New appenders -/

theorem Inv.addAppender (h : Inv s) (config : AppenderConfig ν) : Inv (addAppender s config) := by
  unfold LogImp.addAppender
  split
  · have hnew : s.nextId ∉ s.ids := fun ha => lt_irrefl s.nextId (h.core.id_lt ha)
    have hids : (s.appendersList ++ [(⟨s.nextId, config.name⟩ : Appender ν)]).map Appender.id =
        s.ids ++ [s.nextId] := by
      simp [State.ids]
    refine ⟨⟨⟨fun e he => (h.core.fresh e he).ne, h.core.admitted⟩, ?_, ?_, ?_, h.core.recoveryNodup, ?_, ?_, ?_⟩, ?_⟩
    · rw [State.ids, hids]
      refine List.nodup_append.2 ⟨h.core.nodup, List.nodup_singleton _, ?_⟩
      rintro a ha b hb rfl
      exact hnew (List.mem_singleton.1 hb ▸ ha)
    · intro a ha
      rw [State.ids, hids, List.mem_append, List.mem_singleton] at ha
      rcases ha with ha | rfl
      · obtain ⟨hcreated, hdestroyed⟩ := h.core.alive a ha
        exact ⟨List.mem_cons_of_mem _ hcreated, by simpa using hdestroyed⟩
      · refine ⟨List.mem_cons_self, fun hmem => ?_⟩
        have hmem' : Event.destroyed s.nextId ∈ s.trace := by simpa using hmem
        exact lt_irrefl s.nextId (h.core.fresh _ hmem')
    · rintro e (_ | ⟨_, he⟩)
      · exact Nat.lt_succ_self _
      · exact (h.core.fresh e he).trans (Nat.lt_succ_self _)
    · intro a ha
      rw [State.ids, hids]
      exact List.mem_append_left _ (h.core.subset a ha)
    · exact fun a ha => List.mem_cons_of_mem _ (h.core.began a ha)
    · intro a t r ht
      exact h.core.times a t r (by simpa using ht)
    · have hphase := h.phase
      unfold Phase at hphase ⊢
      dsimp only
      cases hstatus : s.recoverStatus with
      | notStarted =>
        rw [hstatus] at hphase
        simpa [Began] using hphase
      | inRecovering =>
        rw [hstatus] at hphase
        refine ⟨fun a ha hbegan => ?_, by simpa using hphase.2⟩
        have hbegan' : Began a s.trace := by simpa [Began] using hbegan
        rw [State.ids, hids, List.mem_append, List.mem_singleton] at ha
        rcases ha with ha | rfl
        · exact hphase.1 a ha hbegan'
        · exact absurd hbegan' h.core.not_began
      | recovered =>
        rw [hstatus] at hphase
        refine ⟨hphase.1, fun a ha hbegan => ?_⟩
        have hbegan' : Began a s.trace := by simpa [Began] using hbegan
        rw [State.ids, hids, List.mem_append, List.mem_singleton] at ha
        rcases ha with ha | rfl
        · exact List.mem_cons_of_mem _ (hphase.2 a ha hbegan')
        · exact absurd hbegan' h.core.not_began
  · exact h

theorem Inv.addAppenders (h : Inv s) (configs : List (AppenderConfig ν)) :
    Inv (configs.foldl LogImp.addAppender s) := by
  induction configs generalizing s with
  | nil => exact h
  | cons config configs ih => exact ih (h.addAppender config)

theorem inv_init (appendersConfig : List (AppenderConfig ν)) : Inv (init appendersConfig) := by
  have hnew : Inv (State.new : State ν) := by
    refine ⟨⟨trivial, ?_, ?_, ?_, ?_, ?_, ?_, ?_⟩, ?_⟩ <;> simp [State.new, State.ids, Phase, Began]
  exact hnew.addAppenders appendersConfig

/-! ### Entries -/

/-- The appenders are asked one after the other: a step of the loop. -/
theorem Inv.begin (h : Inv s) (hstatus : s.recoverStatus = .inRecovering) (ha : a ∈ s.ids)
    (hnot : a ∉ s.recoveryAppenders) (result : Bool) :
    Inv { s with
      recoveryAppenders := if result then s.recoveryAppenders ++ [a] else s.recoveryAppenders
      trace := .recoveryBegin a result :: s.trace } := by
  have hphase := h.phase
  unfold Phase at hphase
  rw [hstatus] at hphase
  obtain ⟨hlist, hnone⟩ := hphase
  have hnotBegan : ¬ Began a s.trace := fun hbegan => hnot (hlist a ha hbegan)
  have hmem : ∀ b, b ∈ (if result then s.recoveryAppenders ++ [a] else s.recoveryAppenders) ↔
      b ∈ s.recoveryAppenders ∨ b = a ∧ result = true := by
    intro b
    cases result <;> simp
  have hbegan : ∀ b, Began b (.recoveryBegin a result :: s.trace) ↔
      b = a ∧ result = true ∨ Began b s.trace := by
    intro b
    unfold Began
    rw [List.mem_cons, Event.recoveryBegin.injEq, eq_comm (a := true)]
  refine ⟨⟨⟨⟨h.core.alive a ha, hnotBegan, (hnone a).2⟩, h.core.admitted⟩, h.core.nodup, ?_, ?_, ?_, ?_, ?_, ?_⟩, ?_⟩
  · intro b hb
    obtain ⟨hcreated, hdestroyed⟩ := h.core.alive b hb
    exact ⟨List.mem_cons_of_mem _ hcreated, by simpa using hdestroyed⟩
  · rintro e (_ | ⟨_, he⟩)
    · exact h.core.id_lt ha
    · exact h.core.fresh e he
  · cases result with
    | false => exact h.core.recoveryNodup
    | true =>
      refine List.nodup_append.2 ⟨h.core.recoveryNodup, List.nodup_singleton a, ?_⟩
      rintro b hb c hc rfl
      exact hnot (List.mem_singleton.1 hc ▸ hb)
  · intro b hb
    rcases (hmem b).1 hb with hb | ⟨rfl, -⟩
    · exact h.core.subset b hb
    · exact ha
  · intro b hb
    rw [hbegan]
    exact ((hmem b).1 hb).elim (fun hb => .inr (h.core.began b hb)) .inl
  · intro b t r ht
    exact h.core.times b t r (by simpa using ht)
  · unfold Phase
    dsimp only
    rw [hstatus]
    refine ⟨fun b hb hb' => (hmem b).2 ?_, by simpa using hnone⟩
    exact ((hbegan b).1 hb').elim .inr fun hb' => .inl (hlist b hb hb')

/-- What a loop over the appenders leaves as it is. -/
structure SameAppenders (s s' : State ν) : Prop where
  appendersList : s'.appendersList = s.appendersList
  lastLogEntryEpochMs : s'.lastLogEntryEpochMs = s.lastLogEntryEpochMs
  recoverStatus : s'.recoverStatus = s.recoverStatus

theorem Inv.beginLoop (h : Inv s) (chunk : LogChunk) (passOver : Bool)
    (hstatus : s.recoverStatus = .inRecovering) (hids : ∀ a ∈ l, a ∈ s.ids) (hl : l.Nodup)
    (hnot : passOver = false → ∀ a ∈ l, a ∉ s.recoveryAppenders) :
    Inv (beginLoop chunk passOver l s) ∧ SameAppenders s (beginLoop chunk passOver l s) := by
  induction l generalizing s with
  | nil => exact ⟨h, rfl, rfl, rfl⟩
  | cons a l ih =>
    obtain ⟨ha, hl⟩ := List.nodup_cons.1 hl
    unfold LogImp.beginLoop
    split
    · exact ih h hstatus (fun b hb => hids b (List.mem_cons_of_mem a hb)) hl
        fun hpass b hb => hnot hpass b (List.mem_cons_of_mem a hb)
    · rename_i hpassed
      have hnotMem : a ∉ s.recoveryAppenders := by
        cases passOver with
        | false => exact hnot rfl a List.mem_cons_self
        | true => exact fun hmem => hpassed ⟨rfl, hmem⟩
      have hinv := h.begin hstatus (hids a List.mem_cons_self) hnotMem (chunk.recoveryBegin a)
      have hnot' : passOver = false → ∀ b ∈ l, b ∉
          if chunk.recoveryBegin a then s.recoveryAppenders ++ [a] else s.recoveryAppenders := by
        intro hpass b hb hmem
        have hb' := hnot hpass b (List.mem_cons_of_mem a hb)
        split at hmem
        · rw [List.mem_append, List.mem_singleton] at hmem
          rcases hmem with hmem | rfl
          · exact hb' hmem
          · exact ha hb
        · exact hb' hmem
      obtain ⟨hinv', hsame⟩ := ih hinv hstatus (fun b hb => hids b (List.mem_cons_of_mem a hb)) hl hnot'
      exact ⟨hinv', hsame.appendersList, hsame.lastLogEntryEpochMs, hsame.recoverStatus⟩

/-- The first entry of this life ends the recovery of the appenders that began. -/
theorem Core.endRecovery (h : Core s) (hphase : Phase s) (hstatus : s.recoverStatus ≠ .recovered) :
    Core { s with
      recoverStatus := .recovered
      trace := QLog.emit .recoveryEnd s.recoveryAppenders s.trace
      recoveryAppenders := []
      recoveryAppendersNeedBegin := false } ∧
    (∀ a ∈ s.ids, Began a (QLog.emit .recoveryEnd s.recoveryAppenders s.trace) →
      .recoveryEnd a ∈ QLog.emit .recoveryEnd s.recoveryAppenders s.trace) ∧
    ∀ a, .newBegin a ∉ QLog.emit .recoveryEnd s.recoveryAppenders s.trace := by
  have hnone : (∀ a, .recoveryEnd a ∉ s.trace ∧ .newBegin a ∉ s.trace) ∧
      ∀ a ∈ s.ids, Began a s.trace → a ∈ s.recoveryAppenders := by
    unfold Phase at hphase
    cases hs : s.recoverStatus with
    | notStarted =>
      rw [hs] at hphase
      exact ⟨fun a => (hphase.2 a).2, fun a _ hbegan => absurd hbegan (hphase.2 a).1⟩
    | inRecovering =>
      rw [hs] at hphase
      exact ⟨hphase.2, hphase.1⟩
    | recovered => exact absurd hs hstatus
  have hemit := h.emit (f := .recoveryEnd) h.recoveryNodup
    (fun a ha => ⟨h.alive a (h.subset a ha), h.began a ha, hnone.1 a⟩) (fun a _ b _ hab past hpast => ?_)
    (fun _ => rfl) h.subset nofun nofun
  · refine ⟨⟨hemit.admitted, h.nodup, hemit.alive, hemit.fresh, List.nodup_nil, nofun, nofun, hemit.times⟩, ?_, ?_⟩
    · intro a ha hbegan
      have hbegan' : Began a s.trace := by simpa [Began] using hbegan
      exact mem_emit.2 (.inl ⟨a, hnone.2 a ha hbegan', rfl⟩)
    · intro a ha
      exact (hnone.1 a).2 (by simpa using ha)
  · obtain ⟨⟨hcreated, hdestroyed⟩, hbegan, hend, hnew⟩ := hpast
    refine ⟨⟨List.mem_cons_of_mem _ hcreated, by simpa using hdestroyed⟩, List.mem_cons_of_mem _ hbegan, ?_, by simpa using hnew⟩
    simpa [hab.symm] using hend

/-- Then all appenders begin anew. -/
theorem Inv.newBeginAll (h : Core s) (hstatus : s.recoverStatus = .recovered) (hrecovery : s.recoveryAppenders = [])
    (hend : ∀ a ∈ s.ids, Began a s.trace → .recoveryEnd a ∈ s.trace) (hnew : ∀ a, .newBegin a ∉ s.trace) :
    Inv (newBeginAll s) := by
  have hemit := h.emit (f := .newBegin) h.nodup (fun a ha => ⟨h.alive a ha, hend a ha, hnew a⟩)
    (fun a _ b _ hab past hpast => ?_) (fun _ => rfl) (fun _ => id) nofun nofun
  · refine ⟨hemit, ?_⟩
    unfold Phase LogImp.newBeginAll
    dsimp only
    rw [hstatus]
    refine ⟨hrecovery, fun a ha hbegan => ?_⟩
    have hbegan' : Began a s.trace := by simpa [Began] using hbegan
    simpa using hend a ha hbegan'
  · obtain ⟨⟨hcreated, hdestroyed⟩, hbegan, hnew⟩ := hpast
    refine ⟨⟨List.mem_cons_of_mem _ hcreated, by simpa using hdestroyed⟩, fun hb => ?_, by simpa [hab.symm] using hnew⟩
    exact List.mem_cons_of_mem _ (hbegan (by simpa [Began] using hb))

/-- **An entry moves the recovery on**, and a recovered entry leaves it running. -/
theorem Inv.recoverStep (h : Inv s) (chunk : LogChunk) :
    Inv (recoverStep s chunk).1 ∧
      ((recoverStep s chunk).2 = true → (recoverStep s chunk).1.recoverStatus = .inRecovering) := by
  have hphase := h.phase
  unfold LogImp.recoverStep
  unfold Phase at hphase
  cases hstatus : s.recoverStatus with
  | recovered => exact ⟨h, nofun⟩
  | notStarted =>
    rw [hstatus] at hphase
    obtain ⟨hempty, hnone⟩ := hphase
    dsimp only
    split
    · refine ⟨Inv.newBeginAll ⟨h.core.admitted, h.core.nodup, h.core.alive, h.core.fresh, h.core.recoveryNodup,
        h.core.subset, h.core.began, h.core.times⟩ rfl hempty (fun a _ hbegan => absurd hbegan (hnone a).1)
        fun a => (hnone a).2.2, nofun⟩
    · have hinv : Inv { s with recoverStatus := .inRecovering, recoveryAppenders := [] } :=
        ⟨⟨h.core.admitted, h.core.nodup, h.core.alive, h.core.fresh, List.nodup_nil, nofun, nofun, h.core.times⟩,
          fun a _ hbegan => absurd hbegan (hnone a).1, fun a => (hnone a).2⟩
      obtain ⟨hloop, hsame⟩ := hinv.beginLoop chunk false rfl (l := s.ids) (fun _ => id) h.core.nodup
        fun _ _ _ => List.not_mem_nil
      exact ⟨⟨⟨hloop.core.admitted, hloop.core.nodup, hloop.core.alive, hloop.core.fresh, hloop.core.recoveryNodup,
        hloop.core.subset, hloop.core.began, hloop.core.times⟩, hloop.phase⟩, fun _ => hsame.recoverStatus⟩
  | inRecovering =>
    dsimp only
    split
    · obtain ⟨hcore, hend, hnew⟩ := h.core.endRecovery h.phase (by rw [hstatus]; nofun)
      exact ⟨Inv.newBeginAll hcore rfl rfl hend hnew, nofun⟩
    · split
      · obtain ⟨hloop, hsame⟩ := h.beginLoop chunk true hstatus (l := s.ids) (fun _ => id) h.core.nodup nofun
        exact ⟨⟨⟨hloop.core.admitted, hloop.core.nodup, hloop.core.alive, hloop.core.fresh,
          hloop.core.recoveryNodup, hloop.core.subset, hloop.core.began, hloop.core.times⟩, hloop.phase⟩,
          fun _ => hsame.recoverStatus.trans hstatus⟩
      · exact ⟨h, fun _ => hstatus⟩

/-- The entry is passed on, with a timestamp that is not below the earlier ones. -/
theorem Inv.logTo (h : Inv s) (categoryEnabled : Bool) {isRecoveredEntry : Bool}
    (hrecovered : isRecoveredEntry = true → s.recoverStatus = .inRecovering) :
    Inv (logTo s s.lastLogEntryEpochMs categoryEnabled isRecoveredEntry) := by
  unfold LogImp.logTo
  split
  · have hsub : ∀ a ∈ (if isRecoveredEntry then s.recoveryAppenders else s.ids), a ∈ s.ids := by
      intro a ha
      split at ha
      · exact h.core.subset a ha
      · exact ha
    have hnodup : (if isRecoveredEntry then s.recoveryAppenders else s.ids).Nodup := by
      split
      · exact h.core.recoveryNodup
      · exact h.core.nodup
    have hbegan : ∀ a ∈ (if isRecoveredEntry then s.recoveryAppenders else s.ids), isRecoveredEntry = true →
        Began a s.trace ∧ .recoveryEnd a ∉ s.trace := by
      intro a ha hr
      rw [if_pos hr] at ha
      have hphase := h.phase
      unfold Phase at hphase
      rw [hrecovered hr] at hphase
      exact ⟨h.core.began a ha, (hphase.2 a).1⟩
    refine ⟨h.core.emit hnodup (fun a ha => ⟨h.core.alive a (hsub a ha), hbegan a ha, fun b t r => h.core.times b t r⟩)
      (fun a _ b _ _ past hpast => ?_) (fun _ => rfl) hsub nofun fun a b t r heq => ?_, ?_⟩
    · obtain ⟨⟨hcreated, hdestroyed⟩, hbegan, htimes⟩ := hpast
      refine ⟨⟨List.mem_cons_of_mem _ hcreated, by simpa using hdestroyed⟩, fun hr => ?_, fun c t r ht => ?_⟩
      · exact ⟨List.mem_cons_of_mem _ (hbegan hr).1, by simpa using (hbegan hr).2⟩
      · rcases List.mem_cons.1 ht with heq | ht
        · injection heq with _ heq
          exact heq.le
        · exact htimes c t r ht
    · injection heq with _ heq
      exact heq.ge
    · have hphase := h.phase
      unfold Phase at hphase ⊢
      dsimp only
      cases hstatus : s.recoverStatus <;> rw [hstatus] at hphase <;> simpa [Began, State.ids] using hphase
  · exact h

theorem Inv.processLogChunk (h : Inv s) (chunk : LogChunk) : Inv (processLogChunk s chunk) := by
  unfold LogImp.processLogChunk
  split
  · exact h
  · obtain ⟨hinv, hstatus⟩ := h.recoverStep chunk
    dsimp only
    generalize htimestamp : (if (LogImp.recoverStep s chunk).1.lastLogEntryEpochMs < chunk.timestampEpoch then
      chunk.timestampEpoch else (LogImp.recoverStep s chunk).1.lastLogEntryEpochMs) = timestamp
    have hle : (LogImp.recoverStep s chunk).1.lastLogEntryEpochMs ≤ timestamp := by
      rw [← htimestamp]
      split <;> omega
    exact Inv.logTo (s := { (LogImp.recoverStep s chunk).1 with lastLogEntryEpochMs := timestamp })
      ⟨⟨hinv.core.admitted, hinv.core.nodup, hinv.core.alive, hinv.core.fresh, hinv.core.recoveryNodup,
        hinv.core.subset, hinv.core.began, fun a t r ht => (hinv.core.times a t r ht).trans hle⟩, hinv.phase⟩ _
      hstatus

/-! ### New configurations -/

section Reset

variable [DecidableEq ν]

/-- An old appender is kept or left over. -/
theorem perm_keepLoop (configs : List (AppenderConfig ν)) (kept tmpList : List (Appender ν))
    (newCreate : List (AppenderConfig ν)) :
    ((keepLoop configs kept tmpList newCreate).1 ++ (keepLoop configs kept tmpList newCreate).2.1).Perm
      (kept ++ tmpList) := by
  induction configs generalizing kept tmpList newCreate with
  | nil => exact .refl _
  | cons config configs ih =>
    unfold keepLoop
    split
    · rename_i old hold
      split
      · refine (ih ..).trans ?_
        rw [List.append_assoc, List.singleton_append]
        exact (List.perm_cons_erase (List.mem_of_find?_eq_some hold)).symm.append_left kept
      · exact ih ..
    · exact ih ..

/-- **A new configuration** keeps the appenders in recovery that survive it, and no other one. -/
theorem Inv.resetConfig (h : Inv s) (appendersConfig : Option (List (AppenderConfig ν))) :
    Inv (resetConfig s appendersConfig) := by
  cases appendersConfig with
  | none => exact h
  | some configs =>
    have hperm := (perm_keepLoop configs [] s.appendersList []).map Appender.id
    rw [List.map_append, List.nil_append] at hperm
    unfold LogImp.resetConfig
    dsimp only
    generalize keepLoop configs [] s.appendersList [] = r at hperm ⊢
    obtain ⟨kept, tmpList, newCreate⟩ := r
    dsimp only at hperm ⊢
    obtain ⟨hkept, hrest, hdisjoint⟩ := List.nodup_append.1 (hperm.nodup_iff.2 h.core.nodup)
    have hkeptIds : ∀ a ∈ kept.map Appender.id, a ∈ s.ids :=
      fun a ha => hperm.mem_iff.1 (List.mem_append_left _ ha)
    have hrestIds : ∀ a ∈ tmpList.map Appender.id, a ∈ s.ids :=
      fun a ha => hperm.mem_iff.1 (List.mem_append_right _ ha)
    have hphase := h.phase
    unfold Phase at hphase
    have hrecovery : ∀ a, a ∈ (if s.recoverStatus = .inRecovering then
        (kept.map Appender.id).filter (· ∈ s.recoveryAppenders) else s.recoveryAppenders) ↔
          a ∈ s.recoveryAppenders ∧ a ∈ kept.map Appender.id := by
      intro a
      cases hstatus : s.recoverStatus with
      | inRecovering =>
        rw [if_pos rfl, List.mem_filter, decide_eq_true_iff]
        exact and_comm
      | notStarted | recovered =>
        rw [hstatus] at hphase
        simp [hphase.1]
    have hdestroy : ∀ e : Event, (∀ a, e ≠ .destroyed a) →
        (e ∈ emit .destroyed (tmpList.map Appender.id) s.trace ↔ e ∈ s.trace) := by
      intro e he
      rw [mem_emit]
      exact ⟨fun hmem => hmem.resolve_left fun ⟨a, _, ha⟩ => he a ha.symm, .inr⟩
    have hinv : Inv { s with
        appendersList := kept
        recoveryAppenders := if s.recoverStatus = .inRecovering then
          (kept.map Appender.id).filter (· ∈ s.recoveryAppenders) else s.recoveryAppenders
        trace := emit .destroyed (tmpList.map Appender.id) s.trace } := by
      refine ⟨⟨?_, hkept, fun a ha => ⟨?_, fun hmem => ?_⟩, fun e he => ?_, ?_, fun a ha => ?_, fun a ha => ?_,
        fun a t r ht => ?_⟩, ?_⟩
      · refine h.core.admitted.emit hrest (fun a ha => h.core.alive a (hrestIds a ha))
          fun a _ b _ hab past hpast => ⟨List.mem_cons_of_mem _ hpast.1, ?_⟩
        simpa [hab.symm] using hpast.2
      · exact (hdestroy (.created a) nofun).2 (h.core.alive a (hkeptIds a ha)).1
      · rcases mem_emit.1 hmem with ⟨b, hb, heq⟩ | hmem
        · injection heq with heq
          exact hdisjoint a ha b hb heq.symm
        · exact (h.core.alive a (hkeptIds a ha)).2 hmem
      · rcases mem_emit.1 he with ⟨b, hb, rfl⟩ | he
        · exact h.core.id_lt (hrestIds b hb)
        · exact h.core.fresh e he
      · dsimp only
        split
        · exact hkept.filter _
        · exact h.core.recoveryNodup
      · exact ((hrecovery a).1 ha).2
      · exact (hdestroy (.recoveryBegin a true) nofun).2 (h.core.began a ((hrecovery a).1 ha).1)
      · exact h.core.times a t r ((hdestroy (.log a t r) nofun).1 ht)
      · unfold Phase
        dsimp only
        cases hstatus : s.recoverStatus with
        | notStarted =>
          rw [hstatus] at hphase
          exact ⟨hphase.1, fun a => by simpa [Began] using hphase.2 a⟩
        | inRecovering =>
          rw [hstatus] at hphase hrecovery
          refine ⟨fun a ha hbegan => (hrecovery a).2 ⟨?_, ha⟩, fun a => by simpa using hphase.2 a⟩
          exact hphase.1 a (hkeptIds a ha) ((hdestroy (.recoveryBegin a true) nofun).1 hbegan)
        | recovered =>
          rw [hstatus] at hphase
          refine ⟨hphase.1, fun a ha hbegan => (hdestroy (.recoveryEnd a) nofun).2 ?_⟩
          exact hphase.2 a (hkeptIds a ha) ((hdestroy (.recoveryBegin a true) nofun).1 hbegan)
    have hadd := hinv.addAppenders newCreate
    exact ⟨⟨hadd.core.admitted, hadd.core.nodup, hadd.core.alive, hadd.core.fresh, hadd.core.recoveryNodup,
      hadd.core.subset, hadd.core.began, hadd.core.times⟩, hadd.phase⟩

theorem Inv.call (h : Inv s) (c : Call ν) : Inv (call s c) := by
  cases c with
  | processLogChunk chunk => exact h.processLogChunk chunk
  | resetConfig appendersConfig => exact h.resetConfig appendersConfig

theorem Inv.calls (h : Inv s) (calls : List (Call ν)) : Inv (calls.foldl LogImp.call s) := by
  induction calls generalizing s with
  | nil => exact h
  | cons c calls ih => exact ih (h.call c)

end Reset

/-- The end of a recovery is told at most once. -/
theorem count_recoveryEnd_le (h : Admitted Allowed past) (a : ℕ) : past.count (.recoveryEnd a) ≤ 1 := by
  induction past with
  | nil => exact Nat.zero_le 1
  | cons e past ih =>
    obtain ⟨he, hpast⟩ := h
    rcases eq_or_ne e (.recoveryEnd a) with rfl | hne
    · have hnot : Event.recoveryEnd a ∉ past := he.2.2.1
      rw [List.count_cons_self, List.count_eq_zero_of_not_mem hnot]
    · rw [List.count_cons_of_ne hne]
      exact ih hpast

end Lemmas

/-! ## Every sequence of calls -/

/-- What a log promises its appenders: the appenders in recovery are alive, each once; every event was
allowed; and when the recovery is over, every appender that is there and began it was told so once. -/
structure Protocol (s : State ν) : Prop where
  recoveryNodup : s.recoveryAppenders.Nodup
  subset : ∀ a ∈ s.recoveryAppenders, a ∈ s.ids
  alive : ∀ a ∈ s.ids, Alive a s.trace
  admitted : Admitted Allowed s.trace
  ended : s.recoverStatus = .recovered → ∀ a ∈ s.ids, Began a s.trace → s.trace.count (.recoveryEnd a) = 1

theorem Inv.protocol {s : State ν} (h : Inv s) : Protocol s where
  recoveryNodup := h.core.recoveryNodup
  subset := h.core.subset
  alive := h.core.alive
  admitted := h.core.admitted
  ended hstatus a ha hbegan := by
    have hphase := h.phase
    unfold Phase at hphase
    rw [hstatus] at hphase
    have hpos := List.count_pos_iff.2 (hphase.2 a ha hbegan)
    have hle := count_recoveryEnd_le h.core.admitted a
    omega

/-- **The recovery of a log.** Whatever entries are read, whatever the appenders answer and however they are
replaced meanwhile, the log keeps the protocol. -/
theorem recovery_protocol [DecidableEq ν] (appendersConfig : List (AppenderConfig ν)) (calls : List (Call ν)) :
    Protocol (calls.foldl call (init appendersConfig)) :=
  ((inv_init appendersConfig).calls calls).protocol

/-- An entry, of an earlier life or of this one. -/
def chunkOf (recovered : Bool) (timestampEpoch : ℕ) : LogChunk :=
  ⟨recovered, true, if recovered then 1 else 2, 2, timestampEpoch, true, fun _ => true⟩

/-- Two appenders begin a recovery; then the second one is replaced, its successor begins as well, and the
recovery ends. -/
def replacedInRecovery : List (Call ℕ) :=
  [.processLogChunk (chunkOf true 10), .resetConfig (some [⟨0, true, true⟩, ⟨2, true, true⟩]),
    .processLogChunk (chunkOf true 9), .processLogChunk (chunkOf false 11)]

theorem recovery_protocol_replaced :
    let s := replacedInRecovery.foldl call (init [⟨0, true, true⟩, ⟨1, true, true⟩])
    s.ids = [0, 2] ∧ .recoveryBegin 1 true ∈ s.trace ∧ .destroyed 1 ∈ s.trace ∧
      s.trace.count (.recoveryEnd 0) = 1 ∧ s.trace.count (.recoveryEnd 2) = 1 := by
  have h := recovery_protocol [⟨0, true, true⟩, ⟨1, true, true⟩] replacedInRecovery
  refine ⟨by decide, by decide, by decide, ?_, ?_⟩
  · exact h.ended (by decide) 0 (by decide) (by unfold Began; decide)
  · exact h.ended (by decide) 2 (by decide) (by unfold Began; decide)

end QLog.LogImp
