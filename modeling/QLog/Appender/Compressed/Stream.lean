import QLog.Appender.Compressed.Decode
import QLog.Record.Assembly

/-!
# Unique decoding of a compressed file

The records of a sequence of calls are encoded into one file: every item is taken as it is, and no new
file is opened. The stream splits into the items that were emitted, and the decoder shows the calls
(`Encodable.decodes`), when the hashes separate the templates of the calls and the estimate of the length
of a UTF-16 text does not overflow. So two different sequences never give the same bytes
(`compressed_stream_determines`).

The hash of a template does not know the encoding of its format text. Two texts with the same bytes, one
in UTF-8 and one in UTF-16, have the same hash, and the entry of the second refers to the template of
the first.
-/

namespace QLog.Appender

open Record Vlq Bytes Probing

/-- A call of the public entry point, from a thread. The stack trace is in the encoding of the format. -/
structure LogCall where
  thread : ThreadInfo
  epochMs : BitVec 64
  level : UInt8
  categoryIndex : BitVec 32
  format : StringArg
  stack : Option (List UInt8)
  args : List Arg
  size_lt : recordSize thread format stack args < 2 ^ 32
  stack_even : format.tag = .stringUtf16Type → (stack.getD []).length % 2 = 0

namespace LogCall

variable (hash : List UInt8 → BitVec 64) (call : LogCall)

/-- The record of a call, in a chunk with any contents. -/
def record (chunk : Mem) : Option (List UInt8) :=
  doLog hash call.thread call.epochMs call.level call.categoryIndex call.format call.stack call.args chunk

/-- The template of a call. -/
def template : Template :=
  ⟨call.level, call.categoryIndex.toNat, call.format.tag = .stringUtf8Type,
    formatBytes call.format call.stack⟩

/-- The hash of the template of a call. -/
def templateHash : BitVec 64 :=
  getFormatTemplateHash call.level call.categoryIndex.toNat (hash (formatBytes call.format call.stack))

/-- What a call logs: its time, its template, its thread, and its arguments. -/
def shown : Shown :=
  ⟨call.epochMs, call.template, call.thread.threadId, call.args.map fun v => (v.tag, v.value)⟩

end LogCall

/-- A call with what surrounds it: the contents of the chunk, and the answers of the allocator. -/
structure Logged where
  call : LogCall
  chunk : Mem
  granted : Bool × Bool

/-- The items of a file in which no allocation opens a new one. `contents` is what a handle holds when so
many items have been written. -/
def plainSink (contents : ℕ → Mem) : Sink (List (List UInt8)) where
  alloc _ s := (s, false)
  contents s := contents s.length
  put item s := s ++ [item]

/-- The encoder when a file has been opened, for limits of the caches. -/
def Encoder.opened (formatEntries threadEntries : ℕ) : Encoder :=
  Encoder.reset
    { formatL1 := fun _ => none
      threadL1 := fun _ => none
      formatL2 := .fresh formatL2MaxConfigEntries formatEntries
      threadL2 := .fresh threadL2MaxConfigEntries threadEntries
      lastThreadId := 0
      lastThreadInfoIdx := 0
      currentFormatTemplateMaxIndex := 0
      currentThreadInfoMaxIndex := 0
      lastLogEntryEpoch := 0 }

/-- The records of the calls are built and encoded one after the other. -/
def logCalls {σ : Type*} (hash : List UInt8 → BitVec 64) (k : Sink σ) :
    List Logged → σ × Encoder → Option (σ × Encoder)
  | [], s => some s
  | l :: ls, s =>
    (l.call.record hash l.chunk).bind fun data =>
      (logImpl hash k l.granted data s).bind fun s => logCalls hash k ls s

/-- Before each of the calls there is an index left for a template of either kind. -/
def indicesLeft {σ : Type*} (hash : List UInt8 → BitVec 64) (k : Sink σ) : List Logged → σ × Encoder → Bool
  | [], _ => true
  | l :: ls, s =>
    decide (s.2.currentFormatTemplateMaxIndex + 1 < 2 ^ 32 ∧ s.2.currentThreadInfoMaxIndex + 1 < 2 ^ 32) &&
      ((l.call.record hash l.chunk).bind fun data => logImpl hash k l.granted data s).all
        fun s => indicesLeft hash k ls s

/-- The calls can be told apart by the encoder: the hash separates their templates, and three times the
length of a UTF-16 text has 32 bits. -/
structure Encodable (hash : List UInt8 → BitVec 64) (calls : List LogCall) : Prop where
  separated : ∀ c ∈ calls, ∀ c' ∈ calls, c.templateHash hash = c'.templateHash hash →
    c.template = c'.template
  format : ∀ c ∈ calls, c.format.tag = .stringUtf16Type →
    (formatBytes c.format c.stack).length * 3 < 2 ^ 32
  args : ∀ c ∈ calls, ∀ v ∈ c.args, v.tag = .stringUtf16Type → v.value.length * 3 < 2 ^ 32

/-! ## Records of calls -/

/-- The parts of a record that holds an entry. -/
theorem readable_of_holds {data : List UInt8} {e : Entry} (h : Holds data e) :
    Readable data ⟨e.timestampEpoch.toNat, data.length - 1 - e.threadName.length, e.categoryIdx.toNat,
      e.logThreadId.toNat, e.formatHash.toNat, e.formatType.toByte, e.level, e.format.length⟩
      e.format e.threadName e.args where
  head_eq := h.head
  format_eq := h.format
  name_eq := by
    have hb := h.bounds
    have hname := h.name_le
    have hext : recordExtHeaderSize = 1 := rfl
    have hofNat : (UInt8.ofNat e.threadName.length).toNat = e.threadName.length := by
      rw [UInt8.toNat_ofNat']
      omega
    have hplace : data.length - 1 - e.threadName.length + recordExtHeaderSize =
        data.length - e.threadName.length := by omega
    rw [getThreadName]
    simp only
    rw [h.nameLen, Option.bind_some, hofNat, hplace]
    exact h.threadName
  argsAt := h.args
  length_lt := h.length_lt

namespace LogCall

/-- The header of the record of a call. -/
def head (hash : List UInt8 → BitVec 64) (call : LogCall) (length : ℕ) : RecordHeader :=
  let e := entryOf hash call.thread call.epochMs call.level call.categoryIndex call.format call.stack
    call.args
  ⟨e.timestampEpoch.toNat, length - 1 - e.threadName.length, e.categoryIdx.toNat, e.logThreadId.toNat,
    e.formatHash.toNat, e.formatType.toByte, e.level, e.format.length⟩

/-- **The record of a call is built, and its parts are there.** -/
theorem record_readable (hash : List UInt8 → BitVec 64) (call : LogCall) (chunk : Mem) :
    ∃ data, call.record hash chunk = some data ∧
      Readable data (call.head hash data.length) (formatBytes call.format call.stack) call.thread.name
        (call.args.map fun v => (v.tag, v.value)) := by
  obtain ⟨data, hdata, -, hholds⟩ : ∃ data, call.record hash chunk = some data ∧ _ ∧
      Holds data (entryOf hash call.thread call.epochMs call.level call.categoryIndex call.format
        call.stack call.args) := doLog_holds call.size_lt chunk
  exact ⟨data, hdata, readable_of_holds hholds⟩

theorem isUtf8Format_head (hash : List UInt8 → BitVec 64) (call : LogCall) (length : ℕ) :
    isUtf8Format (call.head hash length) = decide (call.format.tag = .stringUtf8Type) := by
  change decide (call.format.tag.toByte = ArgumentTag.stringUtf8Type.toByte) = _
  cases call.format.tag <;> rfl

/-- The key of the record of a call is the hash of its template. -/
theorem templateKey_head (hash : List UInt8 → BitVec 64) (call : LogCall) (length : ℕ) :
    templateKey hash (call.head hash length) (formatBytes call.format call.stack) =
      call.templateHash hash := by
  have hentry : BitVec.ofNat 64 (call.head hash length).formatHash =
      if call.stack.isSome ∨ call.format.formatDataPtr = none then 0 else hash call.format.value := by
    change BitVec.ofNat 64 (BitVec.toNat _) = _
    rw [BitVec.ofNat_toNat, BitVec.setWidth_eq]
    rfl
  have hfmt : fmtHash hash (call.head hash length) (formatBytes call.format call.stack) =
      hash (formatBytes call.format call.stack) := by
    rw [fmtHash, hentry]
    by_cases hzero : call.stack.isSome ∨ call.format.formatDataPtr = none
    · rw [if_pos hzero, if_pos rfl]
    · have hnone : call.stack = none := by
        cases hs : call.stack with
        | none => rfl
        | some st => exact absurd (.inl (by rw [hs]; rfl)) hzero
      rw [if_neg hzero, formatBytes, hnone, Option.getD_none, List.append_nil, ite_self]
  rw [templateKey, hfmt]
  rfl

theorem formatBytes_even {call : LogCall} (h : call.format.tag ≠ .stringUtf8Type) :
    call.format.tag = .stringUtf16Type ∧ (formatBytes call.format call.stack).length % 2 = 0 := by
  have htag := call.format.tag_cases.resolve_left h
  have h1 := call.format.value_even htag
  have h2 := call.stack_even htag
  rw [formatBytes, List.length_append]
  exact ⟨htag, by omega⟩

/-- The template of the record of a call. -/
theorem templateOf_head (hash : List UInt8 → BitVec 64) (call : LogCall) (length : ℕ) :
    templateOf (call.head hash length) (isUtf8Format (call.head hash length))
      (formatBytes call.format call.stack) = call.template := by
  rw [isUtf8Format_head, templateOf, template]
  refine congrArg (Template.mk call.level call.categoryIndex.toNat _) ?_
  split
  · rfl
  · rename_i hne
    have heven := (formatBytes_even (by simpa using hne)).2
    rw [List.take_of_length_le (by omega)]

theorem shown_head (hash : List UInt8 → BitVec 64) (call : LogCall) (length : ℕ) :
    Shown.mk (BitVec.ofNat 64 (call.head hash length).timestampEpoch) call.template
      (BitVec.ofNat 64 (call.head hash length).logThreadId) (call.args.map fun v => (v.tag, v.value)) =
        call.shown := by
  change Shown.mk (BitVec.ofNat 64 call.epochMs.toNat) _ (BitVec.ofNat 64 call.thread.threadId.toNat) _ =
    _
  rw [BitVec.ofNat_toNat, BitVec.setWidth_eq, BitVec.ofNat_toNat, BitVec.setWidth_eq]
  rfl

end LogCall

/-! ## The run -/

theorem Decoder.items_append (d : Decoder) (is js : List Item) :
    d.items (is ++ js) = (d.items is).bind fun r => (r.1.items js).map fun r' => (r'.1, r.2 ++ r'.2) := by
  induction is generalizing d with
  | nil =>
    rw [List.nil_append, Decoder.items, Option.bind_some]
    simp only [List.nil_append, Prod.mk.eta, Option.map_id']
  | cons i is ih =>
    obtain ⟨type, body⟩ := i
    cases type with
    | logTemplate =>
      rw [List.cons_append, Decoder.items, Decoder.items]
      cases d.template body with
      | none => rfl
      | some d' => exact ih d'
    | logEntry =>
      rw [List.cons_append, Decoder.items, Decoder.items]
      cases d.entry body with
      | none => rfl
      | some r =>
        obtain ⟨d', shown⟩ := r
        simp only [Option.bind_some, ih d']
        cases d'.items is with
        | none => rfl
        | some r =>
          simp only [Option.bind_some, Option.map_some, Option.map_map]
          rfl

theorem Decoder.items_append_of {d d' d'' : Decoder} {is js : List Item} {shown shown' : List Shown}
    (h : d.items is = some (d', shown)) (h' : d'.items js = some (d'', shown')) :
    d.items (is ++ js) = some (d'', shown ++ shown') := by
  rw [Decoder.items_append, h, Option.bind_some, h', Option.map_some]

theorem length_le_flatMap_argBytes (as : List (ArgumentTag × List UInt8)) :
    as.length ≤ (as.flatMap argBytes).length := by
  induction as with
  | nil => exact le_rfl
  | cons a as ih =>
    have := List.length_pos_iff.2 (argBytes_ne_nil a)
    rw [List.flatMap_cons, List.length_cons, List.length_append]
    omega

/-- The decoder shows an entry that refers to its templates. -/
theorem items_entry {d : Decoder} {head : RecordHeader} {isUtf8 : Bool} {format : List UInt8}
    {args : List (ArgumentTag × List UInt8)} {p : Placed} (h : Refers d head isUtf8 format args p)
    (hargs : ∀ a ∈ args, ArgOk a) (hok : ∀ a ∈ args, TextOk a) :
    d.items [p.item] = some (d.at head, [⟨BitVec.ofNat 64 head.timestampEpoch,
      templateOf head isUtf8 format, BitVec.ofNat 64 head.logThreadId, args⟩]) := by
  obtain ⟨rest, hresolve, hrest⟩ := h.resolve
  obtain rfl := hrest hok
  have htype := h.type
  obtain ⟨⟨type, body⟩, minSize, _, _, _⟩ := p
  change type = .logEntry at htype
  subst htype
  change (d.entry body).bind _ = _
  rw [Decoder.entry, hresolve, Option.bind_some]
  simp only
  rw [takeArgs_argBytes hargs hok (length_le_flatMap_argBytes args), Option.map_some]
  rfl

/-- The items of a plain file. -/
theorem emit_plainSink (contents : ℕ → Mem) (out : Option (ℕ × Placed)) (s : List (List UInt8)) :
    (plainSink contents).emit out s = s ++ (out.map (·.2)).toList.map Placed.bytes := by
  cases out with
  | none => exact (List.append_nil s).symm
  | some r => rfl

theorem opens_plainSink (contents : ℕ → Mem) (out : Option (ℕ × Placed)) (s : List (List UInt8)) :
    (plainSink contents).opens out s = false := by
  cases out <;> rfl

/-- What has been emitted: the items, and what they show. -/
structure Emitted (seen : BitVec 64 → Template → Prop) (out : List (List UInt8)) (e : Encoder)
    (ps : List Placed) (d : Decoder) (shown : List Shown) : Prop where
  out_eq : out = ps.map Placed.bytes
  items : Decoder.start.items (ps.map Placed.item) = some (d, shown)
  synced : Synced seen e d

/-- **One call**: its items are emitted, and the decoder shows it. -/
theorem Emitted.call {seen : BitVec 64 → Template → Prop} {out : List (List UInt8)} {e : Encoder}
    {ps : List Placed} {d : Decoder} {shown : List Shown} (h : Emitted seen out e ps d shown)
    (hash : List UInt8 → BitVec 64) (contents : ℕ → Mem) (l : Logged)
    (hseen : ∀ t, seen (l.call.templateHash hash) t ↔ t = l.call.template)
    (hformat : l.call.format.tag = .stringUtf16Type →
      (formatBytes l.call.format l.call.stack).length * 3 < 2 ^ 32)
    (hargs : ∀ v ∈ l.call.args, v.tag = .stringUtf16Type → v.value.length * 3 < 2 ^ 32)
    (hcf : e.currentFormatTemplateMaxIndex + 1 < 2 ^ 32)
    (hct : e.currentThreadInfoMaxIndex + 1 < 2 ^ 32) :
    ∃ data out' e' ps' d', l.call.record hash l.chunk = some data ∧
      logImpl hash (plainSink contents) l.granted data (out, e) = some (out', e') ∧
      Emitted seen out' e' ps' d' (shown ++ [l.call.shown]) := by
  obtain ⟨data, hrecord, hr⟩ := l.call.record_readable hash l.chunk
  have hkey := l.call.templateKey_head hash data.length
  have htemplate := l.call.templateOf_head hash data.length
  have hutf8 := l.call.isUtf8Format_head hash data.length
  have hname := l.call.thread.name_le
  have hok : ∀ a ∈ l.call.args.map fun v => (v.tag, v.value), TextOk a := by
    intro a ha htag
    obtain ⟨v, hv, rfl⟩ := List.mem_map.1 ha
    exact ⟨v.value_even htag, hargs v hv htag⟩
  obtain ⟨out₁, out₂, p, e', d₁, d₂, hlog, hreads₁, hreads₂, hentry, -, -⟩ :=
    logImpl_spec hash (plainSink contents) hr h.synced (by rw [hkey, htemplate]; exact (hseen _).2 rfl)
      (by rw [hkey, htemplate]; exact fun t => (hseen t).1)
      (fun hne => hformat (LogCall.formatBytes_even (by rw [hutf8] at hne; simpa using hne)).1)
      (by omega) hcf hct l.granted out
  simp only [opens_plainSink] at hreads₁ hreads₂ hentry
  obtain ⟨hsynced, hrefers⟩ := hentry trivial trivial
  have hshown := items_entry hrefers (argOk_of_argsAt hr.argsAt) hok
  rw [htemplate, LogCall.shown_head] at hshown
  refine ⟨data, _, e', ps ++ ((out₁.map (·.2)).toList ++ ((out₂.map (·.2)).toList ++ [p])), _, hrecord,
    hlog, ⟨?_, ?_, hsynced⟩⟩
  · rw [emit_plainSink, emit_plainSink, emit_plainSink, h.out_eq]
    simp only [List.map_append, List.append_assoc]
    rfl
  · have h₁ := hreads₁.items
    have h₂ := hreads₂.items
    simp only [Bool.false_eq_true, if_false] at h₁ h₂
    have hmap : ∀ out : Option (ℕ × Placed), (out.map (·.2)).toList.map Placed.item =
        (out.map (·.2.item)).toList := fun out => by cases out <;> rfl
    have hall := Decoder.items_append_of h.items (Decoder.items_append_of h₁
      (Decoder.items_append_of h₂ hshown))
    rw [← hmap, ← hmap, List.nil_append, List.nil_append] at hall
    rw [List.map_append, List.map_append, List.map_append]
    exact hall

/-- **A run**: the items of all calls are emitted, and the decoder shows the calls. -/
theorem Emitted.run {seen : BitVec 64 → Template → Prop} {out : List (List UInt8)} {e : Encoder}
    {ps : List Placed} {d : Decoder} {shown : List Shown} (h : Emitted seen out e ps d shown)
    (hash : List UInt8 → BitVec 64) (contents : ℕ → Mem) (ls : List Logged)
    (hseen : ∀ l ∈ ls, ∀ t, seen (l.call.templateHash hash) t ↔ t = l.call.template)
    (hformat : ∀ l ∈ ls, l.call.format.tag = .stringUtf16Type →
      (formatBytes l.call.format l.call.stack).length * 3 < 2 ^ 32)
    (hargs : ∀ l ∈ ls, ∀ v ∈ l.call.args, v.tag = .stringUtf16Type → v.value.length * 3 < 2 ^ 32)
    (hleft : indicesLeft hash (plainSink contents) ls (out, e) = true) :
    ∃ out' e' ps' d', logCalls hash (plainSink contents) ls (out, e) = some (out', e') ∧
      Emitted seen out' e' ps' d' (shown ++ ls.map fun l => l.call.shown) := by
  induction ls generalizing out e ps d shown with
  | nil =>
    rw [List.map_nil, List.append_nil]
    exact ⟨out, e, ps, d, rfl, h⟩
  | cons l ls ih =>
    obtain ⟨hseen₁, hseen⟩ := List.forall_mem_cons.1 hseen
    obtain ⟨hformat₁, hformat⟩ := List.forall_mem_cons.1 hformat
    obtain ⟨hargs₁, hargs⟩ := List.forall_mem_cons.1 hargs
    rw [indicesLeft, Bool.and_eq_true, decide_eq_true_iff] at hleft
    obtain ⟨⟨hcf, hct⟩, hrest⟩ := hleft
    obtain ⟨data, out₁, e₁, ps₁, d₁, hrecord, hlog, h₁⟩ :=
      h.call hash contents l hseen₁ hformat₁ hargs₁ hcf hct
    rw [hrecord, Option.bind_some, hlog, Option.all_some] at hrest
    obtain ⟨out', e', ps', d', hrun, h'⟩ := ih h₁ hseen hformat hargs hrest
    rw [List.append_assoc] at h'
    exact ⟨out', e', ps', d', by rw [logCalls, hrecord, Option.bind_some, hlog, Option.bind_some, hrun],
      h'⟩

theorem emitted_opened (seen : BitVec 64 → Template → Prop) (formatEntries threadEntries : ℕ) :
    Emitted seen [] (Encoder.opened formatEntries threadEntries) [] Decoder.start [] where
  out_eq := rfl
  items := rfl
  synced := .reset (BoundedHashCache.fresh_wellFormed (by decide) _)
    (BoundedHashCache.fresh_wellFormed (by decide) _)

/-- A sequence of calls is encoded into one file, with indices for all templates: the items. -/
def EncodedAs (hash : List UInt8 → BitVec 64) (calls : List LogCall) (out : List (List UInt8)) : Prop :=
  ∃ contents formatEntries threadEntries ls e, ls.map Logged.call = calls ∧
    indicesLeft hash (plainSink contents) ls ([], Encoder.opened formatEntries threadEntries) = true ∧
    logCalls hash (plainSink contents) ls ([], Encoder.opened formatEntries threadEntries) =
      some (out, e)

/-- **The stream shows the calls.** -/
theorem Encodable.decodes {hash : List UInt8 → BitVec 64} {calls : List LogCall} (h : Encodable hash calls)
    (contents : ℕ → Mem) (formatEntries threadEntries : ℕ) {ls : List Logged}
    (hls : ls.map Logged.call = calls)
    (hleft : indicesLeft hash (plainSink contents) ls ([], Encoder.opened formatEntries threadEntries) =
      true) :
    ∃ out e, logCalls hash (plainSink contents) ls ([], Encoder.opened formatEntries threadEntries) =
        some (out, e) ∧
      ∃ ps : List Placed, out = ps.map Placed.bytes ∧
        splitItems out.flatten.length out.flatten = some (ps.map Placed.item) ∧
        decodeStream out.flatten = some (calls.map LogCall.shown) := by
  subst hls
  have hmem : ∀ l ∈ ls, l.call ∈ ls.map Logged.call := fun l hl => List.mem_map_of_mem hl
  have hseen : ∀ l ∈ ls, ∀ t, (∃ c ∈ ls.map Logged.call, c.templateHash hash = l.call.templateHash hash ∧
      c.template = t) ↔ t = l.call.template := by
    refine fun l hl t => ⟨?_, fun ht => ⟨l.call, hmem l hl, rfl, ht.symm⟩⟩
    rintro ⟨c, hc, hkey, rfl⟩
    exact h.separated c hc l.call (hmem l hl) hkey
  obtain ⟨out, e, ps, d, hrun, hemitted⟩ :=
    (emitted_opened (fun key t => ∃ c ∈ ls.map Logged.call, c.templateHash hash = key ∧ c.template = t)
      formatEntries threadEntries).run hash contents ls hseen (fun l hl => h.format l.call (hmem l hl))
      (fun l hl => h.args l.call (hmem l hl)) hleft
  have hflat : out.flatten = ps.flatMap Placed.bytes := by
    rw [hemitted.out_eq, List.flatMap_def]
  have hlen : ps.length ≤ (ps.flatMap Placed.bytes).length := by
    clear hrun hemitted hflat
    induction ps with
    | nil => exact le_rfl
    | cons p ps ih =>
      have := p.length_bytes
      rw [List.flatMap_cons, List.length_cons, List.length_append]
      omega
  have hsplit : splitItems out.flatten.length out.flatten = some (ps.map Placed.item) := by
    rw [hflat]
    exact splitItems_bytes ps hlen
  refine ⟨out, e, hrun, ps, hemitted.out_eq, hsplit, ?_⟩
  rw [decodeStream, hsplit, Option.bind_some, hemitted.items, Option.map_some, List.nil_append,
    List.map_map]
  rfl

/-- **A compressed file determines its records**: the records of calls that the encoder can tell apart are
encoded, the stream splits into exactly the items that were emitted, and two sequences with the same
bytes log the same. -/
theorem compressed_stream_determines (hash : List UInt8 → BitVec 64) (calls : List LogCall)
    (h : Encodable hash calls) :
    (∀ contents formatEntries threadEntries ls, ls.map Logged.call = calls →
      indicesLeft hash (plainSink contents) ls ([], Encoder.opened formatEntries threadEntries) = true →
      ∃ out e, logCalls hash (plainSink contents) ls ([], Encoder.opened formatEntries threadEntries) =
        some (out, e)) ∧
      ∀ out, EncodedAs hash calls out →
        (∃ ps : List Placed, out = ps.map Placed.bytes ∧
          splitItems out.flatten.length out.flatten = some (ps.map Placed.item)) ∧
        ∀ calls' out', Encodable hash calls' → EncodedAs hash calls' out' → out.flatten = out'.flatten →
          calls.map LogCall.shown = calls'.map LogCall.shown := by
  refine ⟨fun contents fe te ls hls hleft => ?_, ?_⟩
  · obtain ⟨out, e, hrun, -⟩ := h.decodes contents fe te hls hleft
    exact ⟨out, e, hrun⟩
  rintro out ⟨contents, fe, te, ls, e, hls, hleft, hrun⟩
  obtain ⟨_, _, hrun', ps, hps, hsplit, hdecode⟩ := h.decodes contents fe te hls hleft
  obtain ⟨rfl, -⟩ := Prod.mk.inj (Option.some.inj (hrun.symm.trans hrun'))
  refine ⟨⟨ps, hps, hsplit⟩, ?_⟩
  rintro calls' out' h' ⟨contents', fe', te', ls', e', hls', hleft', hrun₁⟩ hflat
  obtain ⟨_, _, hrun₁', -, -, -, hdecode'⟩ := h'.decodes contents' fe' te' hls' hleft'
  obtain ⟨rfl, -⟩ := Prod.mk.inj (Option.some.inj (hrun₁.symm.trans hrun₁'))
  rw [hflat, hdecode'] at hdecode
  exact (Option.some.inj hdecode).symm

theorem recordSize_short (format : StringArg) (h : format.value.length ≤ 4) :
    recordSize (.current 42 [0x77]) format none [] < 2 ^ 32 := by
  have hlen : (formatBytes format none).length ≤ 4 := by
    rw [formatBytes, Option.getD_none, List.append_nil]
    exact h
  have hle := align4_lt (formatBytes format none).length
  have hname : (ThreadInfo.current 42 [0x77]).name.length = 1 := rfl
  rw [recordSize, hname]
  change 40 + align4 _ + 0 + (1 + 1) < 2 ^ 32
  omega

theorem noStack_even (format : StringArg) :
    format.tag = .stringUtf16Type → ((none : Option (List UInt8)).getD []).length % 2 = 0 := fun _ => rfl

/-- A call with a format of four bytes at most, and no arguments. -/
def shortCall (format : StringArg) (h : format.value.length ≤ 4) : LogCall where
  thread := .current 42 [0x77]
  epochMs := 1
  level := 2
  categoryIndex := 0
  format := format
  stack := none
  args := []
  size_lt := recordSize_short format h
  stack_even := noStack_even format

/-- Two calls with empty chunks, from an allocator that has room. -/
def loggedPair (c c' : LogCall) : List Logged := [⟨c, fun _ => 0, true, true⟩, ⟨c', fun _ => 0, true, true⟩]

theorem encodedAs_pair {hash : List UInt8 → BitVec 64} {c c' : LogCall} {out : List (List UInt8)}
    (hleft : indicesLeft hash (plainSink fun _ _ => 0) (loggedPair c c') ([], Encoder.opened 8 8) = true)
    (hout : (logCalls hash (plainSink fun _ _ => 0) (loggedPair c c') ([], Encoder.opened 8 8)).map Prod.fst =
      some out) : EncodedAs hash [c, c'] out := by
  obtain ⟨⟨out', e⟩, hrun, rfl⟩ := Option.map_eq_some_iff.1 hout
  exact ⟨fun _ _ => 0, 8, 8, loggedPair c c', e, rfl, hleft, hrun⟩

/-- Two calls with different formats. -/
theorem compressed_stream_determines_twoCalls : ∃ out,
    EncodedAs (fun bs => BitVec.ofNat 64 (ofLe bs + 1))
      [shortCall (.text .one (.object [0x62])) (by decide),
        shortCall (.text .one (.object [])) (by decide)] out ∧
    (∃ ps : List Placed, out = ps.map Placed.bytes ∧
      splitItems out.flatten.length out.flatten = some (ps.map Placed.item)) ∧
    ∀ calls' out', Encodable (fun bs => BitVec.ofNat 64 (ofLe bs + 1)) calls' →
      EncodedAs (fun bs => BitVec.ofNat 64 (ofLe bs + 1)) calls' out' → out.flatten = out'.flatten →
      [shortCall (.text .one (.object [0x62])) (by decide),
        shortCall (.text .one (.object [])) (by decide)].map LogCall.shown = calls'.map LogCall.shown := by
  have h : EncodedAs (fun bs => BitVec.ofNat 64 (ofLe bs + 1))
      [shortCall (.text .one (.object [0x62])) (by decide), shortCall (.text .one (.object [])) (by decide)]
      [[0, 0x84, 0, 2, 0x80, 0x62], [0, 0x84, 1, 0x80, 0xaa, 0x77], [0x80, 0x83, 0x82, 0x80, 0x80],
        [0, 0x83, 0, 2, 0x80], [0x80, 0x83, 0x80, 0x81, 0x80]] :=
    encodedAs_pair (by decide +kernel) (by decide +kernel)
  exact ⟨_, h, (compressed_stream_determines (fun bs => BitVec.ofNat 64 (ofLe bs + 1))
    [shortCall (.text .one (.object [0x62])) (by decide), shortCall (.text .one (.object [])) (by decide)]
    { separated := by decide +kernel
      format := by decide +kernel
      args := by decide +kernel }).2 _ h⟩

/-- The text "ba" in UTF-8 and the character U+6162 in UTF-16 have the same bytes. A file with the first
twice is the same as one with the first and the second, whatever the hash function is; this one tells
all short texts apart. -/
theorem compressed_stream_determines_sameBytes : ∃ out,
    EncodedAs (fun bs => BitVec.ofNat 64 (ofLe bs + 1))
      [shortCall (.text .one (.object [0x62, 0x61])) (by decide),
        shortCall (.text .one (.object [0x62, 0x61])) (by decide)] out ∧
    EncodedAs (fun bs => BitVec.ofNat 64 (ofLe bs + 1))
      [shortCall (.text .one (.object [0x62, 0x61])) (by decide),
        shortCall (.text .two (.object [0x6162])) (by decide)] out ∧
    [shortCall (.text .one (.object [0x62, 0x61])) (by decide),
        shortCall (.text .one (.object [0x62, 0x61])) (by decide)].map LogCall.shown ≠
      [shortCall (.text .one (.object [0x62, 0x61])) (by decide),
        shortCall (.text .two (.object [0x6162])) (by decide)].map LogCall.shown :=
  ⟨[[0, 0x85, 0, 2, 0x80, 0x62, 0x61], [0, 0x84, 1, 0x80, 0xaa, 0x77], [0x80, 0x83, 0x82, 0x80, 0x80],
    [0x80, 0x83, 0x80, 0x80, 0x80]], encodedAs_pair (by decide +kernel) (by decide +kernel),
    encodedAs_pair (by decide +kernel) (by decide +kernel), by decide +kernel⟩

end QLog.Appender
