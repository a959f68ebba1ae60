import QLog.Appender.Compressed.LogImpl

/-!
# Reading a compressed file

A decoder of the items of a file: format templates are numbered in the order in which they come, a
thread template sets the thread of its index, and an entry refers to both and counts its time from the
entry before it. `Synced` relates the caches of an encoder to the state of the decoder: every binding
of a cache refers to a template that carries what the key stands for.

Each phase of `log_impl` keeps `Synced`, in the file that is open afterwards (`formatTemplateIdx_spec`,
`threadInfoIdx_spec`).
-/

namespace QLog.Appender

open Record Vlq Bytes Probing

/-- What a format template says. -/
structure Template where
  level : UInt8
  categoryIdx : ℕ
  isUtf8 : Bool
  format : List UInt8
  deriving DecidableEq

/-- What has been read of a file. The index with which the encoder starts stands for the thread with
which it starts. -/
structure Decoder where
  formats : List Template
  threads : ℕ → Option (BitVec 64)
  epoch : BitVec 64

/-- Nothing has been read. -/
def Decoder.start : Decoder :=
  ⟨[], fun i => if i = cacheEmpty then some (BitVec.allOnes 64) else none, 0⟩

/-- An entry with what it refers to. -/
structure Shown where
  timestampEpoch : BitVec 64
  template : Template
  threadId : BitVec 64
  args : List (ArgumentTag × List UInt8)
  deriving DecidableEq

/-- A format template behind its sub type. -/
def decodeFormat (isUtf8 : Bool) : List UInt8 → Option Template
  | [] => none
  | level :: bs =>
    (decode bs).bind fun (categoryIdx, l) =>
      (if isUtf8 then some (bs.drop l) else unmix (bs.drop l)).map fun format =>
        ⟨level, categoryIdx, isUtf8, format⟩

/-- A template. -/
def Decoder.template (d : Decoder) : List UInt8 → Option Decoder
  | [] => none
  | subType :: bs =>
    if subType = TemplateSubType.threadInfoTemplate.toByte then
      (decode bs).bind fun (idx, l) =>
        (decode (bs.drop l)).map fun (threadId, _) =>
          { d with threads := Function.update d.threads idx (some (BitVec.ofNat 64 threadId)) }
    else
      (decodeFormat (subType = TemplateSubType.formatTemplateUtf8.toByte) bs).map fun t =>
        { d with formats := d.formats ++ [t] }

/-- The numbers in front of the arguments: the time, the indices, and the arguments. -/
def entryNumbers (d : Decoder) (bs : List UInt8) : Option (BitVec 64 × ℕ × ℕ × List UInt8) :=
  (decode bs).bind fun (offset, l) =>
    (decode (bs.drop l)).bind fun (formatIdx, l') =>
      (decode ((bs.drop l).drop l')).map fun (threadIdx, l'') =>
        (d.epoch + unzigzag (BitVec.ofNat 64 offset), formatIdx, threadIdx,
          ((bs.drop l).drop l').drop l'')

/-- What an entry refers to: its time, its template, its thread, and the bytes of its arguments. -/
def Decoder.resolve (d : Decoder) (bs : List UInt8) :
    Option (BitVec 64 × Template × BitVec 64 × List UInt8) :=
  (entryNumbers d bs).bind fun (epoch, formatIdx, threadIdx, rest) =>
    (d.formats[formatIdx]?).bind fun t => (d.threads threadIdx).map fun id => (epoch, t, id, rest)

/-- An entry. -/
def Decoder.entry (d : Decoder) (bs : List UInt8) : Option (Decoder × Shown) :=
  (d.resolve bs).bind fun (epoch, t, id, rest) =>
    (takeArgs rest.length rest).map fun args => ({ d with epoch := epoch }, ⟨epoch, t, id, args⟩)

/-- The items of a file: the entries that are shown. -/
def Decoder.items (d : Decoder) : List Item → Option (Decoder × List Shown)
  | [] => some (d, [])
  | ⟨.logTemplate, body⟩ :: is => (d.template body).bind fun d => d.items is
  | ⟨.logEntry, body⟩ :: is =>
    (d.entry body).bind fun (d, shown) => (d.items is).map fun (d, rest) => (d, shown :: rest)

/-- The records of a file, from the bytes of its items. -/
def decodeStream (bs : List UInt8) : Option (List Shown) :=
  (splitItems bs.length bs).bind fun is => (Decoder.start.items is).map (·.2)

/-! ## Templates read back -/

/-- The template of a record. -/
def templateOf (head : RecordHeader) (isUtf8 : Bool) (format : List UInt8) : Template :=
  ⟨head.level, head.categoryIdx, isUtf8,
    if isUtf8 then format else format.take (2 * (format.length / 2))⟩

variable {d : Decoder} {head : RecordHeader} {isUtf8 : Bool} {format : List UInt8}

/-- **A format template is read back.** -/
theorem template_formatBody (hcat : head.categoryIdx < 2 ^ 64) :
    d.template (formatBody head isUtf8 format) =
      some { d with formats := d.formats ++ [templateOf head isUtf8 format] } := by
  cases isUtf8 with
  | true =>
    have hbody : formatBody head true format = TemplateSubType.formatTemplateUtf8.toByte ::
        head.level :: (encode head.categoryIdx ++ templateText true format) := rfl
    rw [hbody, Decoder.template, if_neg (by decide), decodeFormat, decode_encode hcat, Option.bind_some]
    simp only [decide_true, if_true]
    rw [List.drop_left' (length_encode _), Option.map_some, Option.map_some]
    rfl
  | false =>
    have heven : (format.take (2 * (format.length / 2))).length % 2 = 0 := by
      rw [List.length_take]
      omega
    have hbody : formatBody head false format = TemplateSubType.formatTemplateUtf16.toByte ::
        head.level :: (encode head.categoryIdx ++ templateText false format) := rfl
    rw [hbody, Decoder.template, if_neg (by decide), decodeFormat, decode_encode hcat, Option.bind_some]
    have hfalse : decide (TemplateSubType.formatTemplateUtf16.toByte =
        TemplateSubType.formatTemplateUtf8.toByte) = false := rfl
    simp only [hfalse, Bool.false_eq_true, if_false]
    rw [List.drop_left' (length_encode _), templateText, if_neg (by decide), unmix_mix heven,
      Option.map_some, Option.map_some]
    rfl

/-- **A thread template is read back.** -/
theorem template_threadBody {idx : ℕ} (hidx : idx < 2 ^ 64) (threadId : BitVec 64)
    (name : List UInt8) : d.template (threadBody idx threadId name) =
      some { d with threads := Function.update d.threads idx (some threadId) } := by
  have hbody : threadBody idx threadId name = TemplateSubType.threadInfoTemplate.toByte ::
      (encode idx ++ (encode threadId.toNat ++ name)) := by
    rw [threadBody, List.append_assoc, List.append_assoc]
    rfl
  rw [hbody, Decoder.template, if_pos rfl, decode_encode hidx, Option.bind_some]
  simp only
  rw [List.drop_left' (length_encode _), decode_encode threadId.isLt, Option.map_some,
    BitVec.ofNat_toNat, BitVec.setWidth_eq]

/-- **The numbers of an entry are read back.** -/
theorem entryNumbers_entryHead {epoch : BitVec 64} {formatIdx threadIdx : ℕ} (hf : formatIdx < 2 ^ 64)
    (ht : threadIdx < 2 ^ 64) (rest : List UInt8) :
    entryNumbers d (entryHead (epoch - d.epoch) formatIdx threadIdx ++ rest) =
      some (epoch, formatIdx, threadIdx, rest) := by
  have hz : (zigzag (epoch - d.epoch)).toNat < 2 ^ 64 := BitVec.isLt _
  rw [entryHead, List.append_assoc, List.append_assoc, entryNumbers, decode_encode hz, Option.bind_some]
  simp only
  rw [List.drop_left' (length_encode _), decode_encode hf, Option.bind_some]
  simp only
  rw [List.drop_left' (length_encode _), decode_encode ht, Option.map_some,
    List.drop_left' (length_encode _), BitVec.ofNat_toNat, BitVec.setWidth_eq, unzigzag_zigzag,
    BitVec.add_comm, BitVec.sub_add_cancel]

/-! ## The caches and the decoder -/

/-- An index of a format template whose key has been seen with what the template says. -/
def KnownFormat (seen : BitVec 64 → Template → Prop) (d : Decoder) (key : BitVec 64) (idx : ℕ) : Prop :=
  ∃ t, d.formats[idx]? = some t ∧ seen key t

/-- An index of a thread template. -/
def KnownThread (d : Decoder) (count : ℕ) (threadId : BitVec 64) (idx : ℕ) : Prop :=
  idx < count ∧ d.threads idx = some threadId

/-- The encoder describes the file that has been read so far. -/
structure Synced (seen : BitVec 64 → Template → Prop) (e : Encoder) (d : Decoder) : Prop where
  formatL2_wf : e.formatL2.WellFormed
  threadL2_wf : e.threadL2.WellFormed
  formats_length : d.formats.length = e.currentFormatTemplateMaxIndex
  format_lt : e.currentFormatTemplateMaxIndex < 2 ^ 32
  thread_lt : e.currentThreadInfoMaxIndex < 2 ^ 32
  formatL1 : ∀ i key idx, e.formatL1 i = some (key, idx) → KnownFormat seen d key idx
  formatL2 : e.formatL2.Holds (KnownFormat seen d)
  threadL1 : ∀ i id idx, e.threadL1 i = some (id, idx) → KnownThread d e.currentThreadInfoMaxIndex id idx
  threadL2 : e.threadL2.Holds (KnownThread d e.currentThreadInfoMaxIndex)
  lastThread : d.threads e.lastThreadInfoIdx = some e.lastThreadId
  lastThread_lt : e.lastThreadInfoIdx = cacheEmpty ∨ e.lastThreadInfoIdx < e.currentThreadInfoMaxIndex
  epoch : d.epoch = e.lastLogEntryEpoch

/-- What a cache of the first level finds was stored in it. -/
theorem l1Find_eq_some {slots : Slots (BitVec 64) ℕ} {size idx : ℕ} {key : BitVec 64}
    (h : l1Find slots size key = some idx) : slots (l1Index size key) = some (key, idx) := by
  unfold l1Find at h
  rw [Option.bind_eq_some_iff] at h
  obtain ⟨⟨k, v⟩, hslot, h⟩ := h
  simp only at h
  split at h
  · rename_i hk
    rw [hslot, hk, Option.some.inj h]
  · cases h

/-- What a cache of the first level holds after a store was there before or has been stored. -/
theorem l1Store_eq_some {slots : Slots (BitVec 64) ℕ} {size value i idx : ℕ} {key k : BitVec 64}
    (h : l1Store slots size key value i = some (k, idx)) :
    slots i = some (k, idx) ∨ (k = key ∧ idx = value) := by
  unfold l1Store at h
  rcases eq_or_ne i (l1Index size key) with rfl | hne
  · rw [Function.update_self, slotOf] at h
    split at h
    · cases h
    · obtain ⟨rfl, rfl⟩ := Prod.mk.inj (Option.some.inj h)
      exact .inr ⟨rfl, rfl⟩
  · rw [Function.update_of_ne hne] at h
    exact .inl h

namespace Synced

variable {seen : BitVec 64 → Template → Prop} {e : Encoder}

/-- **A new file**: nothing has been read, and nothing is known. -/
theorem reset (hf : e.formatL2.WellFormed) (ht : e.threadL2.WellFormed) :
    Synced seen e.reset Decoder.start where
  formatL2_wf := hf.clear.1
  threadL2_wf := ht.clear.1
  formats_length := rfl
  format_lt := Nat.two_pow_pos 32
  thread_lt := Nat.two_pow_pos 32
  formatL1 := fun _ _ _ hslot => by cases hslot
  formatL2 := hf.clear.2 _
  threadL1 := fun _ _ _ hslot => by cases hslot
  threadL2 := ht.clear.2 _
  lastThread := by
    change (if cacheEmpty = cacheEmpty then some (BitVec.allOnes 64) else none) = _
    exact if_pos rfl
  lastThread_lt := .inl rfl
  epoch := rfl

/-- The index of the last thread has 32 bits. -/
theorem lastThreadInfoIdx_lt (h : Synced seen e d) : e.lastThreadInfoIdx < 2 ^ 32 := by
  have := h.thread_lt
  rcases h.lastThread_lt with hlast | hlast
  · rw [hlast]
    decide
  · omega

/-- The file that is open after an allocation. -/
theorem alloc (h : Synced seen e d) (opens : Bool) :
    Synced seen (if opens then e.reset else e) (if opens then Decoder.start else d) := by
  cases opens
  · exact h
  · exact reset h.formatL2_wf h.threadL2_wf

/-- An index is stored in the first level. -/
theorem storeFormatL1 (h : Synced seen e d) {key : BitVec 64} {idx : ℕ}
    (hknown : KnownFormat seen d key idx) :
    Synced seen { e with formatL1 := l1Store e.formatL1 formatL1Size key idx } d :=
  { h with
    formatL1 := fun i k v hslot => by
      rcases l1Store_eq_some hslot with hold | ⟨rfl, rfl⟩
      · exact h.formatL1 i k v hold
      · exact hknown }

theorem storeThreadL1 (h : Synced seen e d) {id : BitVec 64} {idx : ℕ}
    (hknown : KnownThread d e.currentThreadInfoMaxIndex id idx) :
    Synced seen { e with threadL1 := l1Store e.threadL1 threadL1Size id idx } d :=
  { h with
    threadL1 := fun i k v hslot => by
      rcases l1Store_eq_some hslot with hold | ⟨rfl, rfl⟩
      · exact h.threadL1 i k v hold
      · exact hknown }

/-- **A format template is added** to the file and to the caches. -/
theorem addFormat (h : Synced seen e d) {key : BitVec 64} {t : Template} (hseen : seen key t)
    (hlt : e.currentFormatTemplateMaxIndex + 1 < 2 ^ 32) (granted : Bool) (token : InsertToken) :
    ∃ l2, e.formatL2.insertNew granted key e.currentFormatTemplateMaxIndex token = some l2 ∧
      Synced seen { e with
        formatL2 := l2
        currentFormatTemplateMaxIndex := u32 (e.currentFormatTemplateMaxIndex + 1)
        formatL1 := l1Store e.formatL1 formatL1Size key e.currentFormatTemplateMaxIndex }
        { d with formats := d.formats ++ [t] } := by
  have hkeep : ∀ k v, KnownFormat seen d k v →
      KnownFormat seen { d with formats := d.formats ++ [t] } k v := by
    rintro k v ⟨t', ht', hs'⟩
    refine ⟨t', ?_, hs'⟩
    rw [List.getElem?_append_left (List.getElem?_eq_some_iff.1 ht').1]
    exact ht'
  have hnew : KnownFormat seen { d with formats := d.formats ++ [t] } key
      e.currentFormatTemplateMaxIndex := by
    refine ⟨t, ?_, hseen⟩
    rw [← h.formats_length, List.getElem?_append_right le_rfl, Nat.sub_self]
    rfl
  obtain ⟨l2, hl2, hwf, hholds⟩ := h.formatL2_wf.insertNew key
    (show e.currentFormatTemplateMaxIndex ≠ invalidValue by unfold invalidValue; omega) granted token
  refine ⟨l2, hl2, { h with
    formatL2_wf := hwf
    formats_length := ?_
    format_lt := ?_
    formatL1 := fun i k v hslot => ?_
    formatL2 := ?_ }⟩
  · rw [List.length_append, h.formats_length, List.length_singleton]
    exact (u32_of_lt hlt).symm
  · exact Nat.mod_lt _ (Nat.two_pow_pos 32)
  · rcases l1Store_eq_some hslot with hold | ⟨rfl, rfl⟩
    · exact hkeep k v (h.formatL1 i k v hold)
    · exact hnew
  · exact hholds _ (fun i hi k v hslot => hkeep k v (h.formatL2 i hi k v hslot)) hnew

/-- **A thread template is added** to the file and to the caches. -/
theorem addThread (h : Synced seen e d) (id : BitVec 64)
    (hlt : e.currentThreadInfoMaxIndex + 1 < 2 ^ 32) (granted : Bool) (token : InsertToken) :
    ∃ l2, e.threadL2.insertNew granted id e.currentThreadInfoMaxIndex token = some l2 ∧
      Synced seen { e with
        threadL2 := l2
        currentThreadInfoMaxIndex := u32 (e.currentThreadInfoMaxIndex + 1)
        threadL1 := l1Store e.threadL1 threadL1Size id e.currentThreadInfoMaxIndex }
        { d with threads := Function.update d.threads e.currentThreadInfoMaxIndex (some id) } := by
  have hu32 : u32 (e.currentThreadInfoMaxIndex + 1) = e.currentThreadInfoMaxIndex + 1 := u32_of_lt hlt
  have hempty : e.currentThreadInfoMaxIndex ≠ cacheEmpty := by
    unfold cacheEmpty invalidValue
    omega
  have hkeep : ∀ k v, KnownThread d e.currentThreadInfoMaxIndex k v →
      KnownThread { d with threads := Function.update d.threads e.currentThreadInfoMaxIndex (some id) }
        (u32 (e.currentThreadInfoMaxIndex + 1)) k v := by
    rintro k v ⟨hv, ht⟩
    refine ⟨by omega, ?_⟩
    exact (Function.update_of_ne (by omega) _ _).trans ht
  have hnew : KnownThread
      { d with threads := Function.update d.threads e.currentThreadInfoMaxIndex (some id) }
      (u32 (e.currentThreadInfoMaxIndex + 1)) id e.currentThreadInfoMaxIndex :=
    ⟨by omega, Function.update_self _ _ _⟩
  obtain ⟨l2, hl2, hwf, hholds⟩ := h.threadL2_wf.insertNew id hempty granted token
  refine ⟨l2, hl2, { h with
    threadL2_wf := hwf
    thread_lt := Nat.mod_lt _ (Nat.two_pow_pos 32)
    threadL1 := fun i k v hslot => ?_
    threadL2 := hholds _ (fun i hi k v hslot => hkeep k v (h.threadL2 i hi k v hslot)) hnew
    lastThread := ?_
    lastThread_lt := ?_ }⟩
  · rcases l1Store_eq_some hslot with hold | ⟨rfl, rfl⟩
    · exact hkeep k v (h.threadL1 i k v hold)
    · exact hnew
  · have hne : e.lastThreadInfoIdx ≠ e.currentThreadInfoMaxIndex := by
      rcases h.lastThread_lt with hlast | hlast
      · rw [hlast]
        exact hempty.symm
      · omega
    exact (Function.update_of_ne hne _ _).trans h.lastThread
  · exact h.lastThread_lt.imp_right fun hlast => by
      change e.lastThreadInfoIdx < u32 (e.currentThreadInfoMaxIndex + 1)
      omega

end Synced

/-! ## The phases of a record -/

variable {σ : Type*}

/-- An item goes to the sink, after its space has been allocated. -/
def Sink.emit (k : Sink σ) : Option (ℕ × Placed) → σ → σ
  | none, s => s
  | some (size, p), s => k.put p.bytes (k.alloc size s).1

/-- Whether the allocation opens a new file. -/
def Sink.opens (k : Sink σ) : Option (ℕ × Placed) → σ → Bool
  | none, _ => false
  | some (size, _), s => (k.alloc size s).2

/-- The item fits into its space, and the decoder reads it in the file that is open. -/
structure Reads (opens : Bool) (d : Decoder) (out : Option (ℕ × Placed)) (d' : Decoder) : Prop where
  fits : ∀ size p, out = some (size, p) → p.bytes.length ≤ size
  items : (if opens then Decoder.start else d).items (out.map (·.2.item)).toList = some (d', [])

theorem reads_none (d : Decoder) : Reads false d none d :=
  ⟨fun _ _ h => (by cases h), rfl⟩

theorem reads_template {opens : Bool} {size : ℕ} {p : Placed} {d' : Decoder} (hfits : p.bytes.length ≤ size)
    (htype : p.item.type = .logTemplate)
    (hread : (if opens then Decoder.start else d).template p.item.body = some d') :
    Reads opens d (some (size, p)) d' := by
  refine ⟨fun size' p' h => ?_, ?_⟩
  · obtain ⟨rfl, rfl⟩ := Prod.mk.inj (Option.some.inj h)
    exact hfits
  · obtain ⟨⟨type, body⟩, minSize, _, _, _⟩ := p
    change type = .logTemplate at htype
    subst htype
    change (Decoder.template _ body).bind _ = _
    rw [hread]
    rfl

variable {seen : BitVec 64 → Template → Prop} {e : Encoder}

/-- **The format phase**: the index is that of a template of the record, in the file that is open. -/
theorem formatTemplateIdx_spec (k : Sink σ) (h : Synced seen e d) {key : BitVec 64}
    (hseen : seen key (templateOf head isUtf8 format))
    (hsep : ∀ t, seen key t → t = templateOf head isUtf8 format)
    (hlen : format.length + 40 < 2 ^ 32) (hcat : head.categoryIdx < 2 ^ 32)
    (h3 : isUtf8 = false → format.length * 3 < 2 ^ 32)
    (hcount : e.currentFormatTemplateMaxIndex + 1 < 2 ^ 32) (granted : Bool) (s : σ) :
    ∃ idx out e' d', formatTemplateIdx k granted head isUtf8 format key (s, e) =
        some (idx, (k.emit out s, e')) ∧ Synced seen e' d' ∧ Reads (k.opens out s) d out d' ∧
      d'.formats[idx]? = some (templateOf head isUtf8 format) ∧
      e'.currentFormatTemplateMaxIndex ≤ e.currentFormatTemplateMaxIndex + 1 ∧
      e'.currentThreadInfoMaxIndex ≤ e.currentThreadInfoMaxIndex := by
  unfold formatTemplateIdx
  cases hl1 : l1Find e.formatL1 formatL1Size key with
  | some idx =>
    obtain ⟨t, ht, hkt⟩ := h.formatL1 _ key idx (l1Find_eq_some hl1)
    rw [hsep t hkt] at ht
    exact ⟨idx, none, e, d, rfl, h, reads_none d, ht, Nat.le_succ _, le_rfl⟩
  | none =>
    obtain ⟨r, hr, hhit⟩ := h.formatL2_wf.find key
    simp only
    rw [hr, Option.bind_some]
    cases r with
    | hit idx =>
      have hknown := hhit idx rfl _ h.formatL2
      obtain ⟨t, ht, hkt⟩ := hknown
      have hstore := h.storeFormatL1 ⟨t, ht, hkt⟩
      rw [hsep t hkt] at ht
      exact ⟨idx, none, _, d, rfl, hstore, reads_none d, ht, Nat.le_succ _, le_rfl⟩
    | miss token =>
      obtain ⟨size, p, hp, hfits, hwrite⟩ := writeFormatTemplate_eq k hlen hcat h3 (s, e)
      simp only
      rw [hwrite, Option.bind_some]
      generalize hopens : (k.alloc size s).2 = opens
      have halloc : k.allocWriteCache size (s, e) =
          ((k.alloc size s).1, if opens then e.reset else e) := by
        rw [Sink.allocWriteCache, hopens]
      rw [halloc]
      have hsync := h.alloc opens
      have hle : (if opens then e.reset else e).currentFormatTemplateMaxIndex ≤
          e.currentFormatTemplateMaxIndex ∧
          (if opens then e.reset else e).currentThreadInfoMaxIndex ≤ e.currentThreadInfoMaxIndex := by
        cases opens
        · exact ⟨le_rfl, le_rfl⟩
        · exact ⟨Nat.zero_le _, Nat.zero_le _⟩
      generalize (if opens then e.reset else e) = e₀ at hsync hle ⊢
      obtain ⟨l2, hl2, hadd⟩ := hsync.addFormat hseen (by omega) granted token
      simp only
      rw [hl2, Option.map_some]
      refine ⟨_, some (size, p), _, _, rfl, hadd, reads_template hfits (by rw [hp]) ?_, ?_, ?_, hle.2⟩
      · change (if (k.alloc size s).2 then Decoder.start else d).template p.item.body = _
        rw [hopens, hp, template_formatBody (by omega)]
      · rw [← hsync.formats_length, List.getElem?_append_right le_rfl, Nat.sub_self]
        rfl
      · change u32 (e₀.currentFormatTemplateMaxIndex + 1) ≤ _
        rw [u32_of_lt (by omega)]
        omega

/-- The caches of the encoder after an allocation, and its counters. -/
theorem allocWriteCache_eq (k : Sink σ) (size : ℕ) (s : σ) (e : Encoder) :
    ∃ e₀, k.allocWriteCache size (s, e) = ((k.alloc size s).1, e₀) ∧
      e₀ = (if (k.alloc size s).2 then e.reset else e) ∧
      e₀.currentFormatTemplateMaxIndex ≤ e.currentFormatTemplateMaxIndex ∧
      e₀.currentThreadInfoMaxIndex ≤ e.currentThreadInfoMaxIndex := by
  refine ⟨_, rfl, rfl, ?_⟩
  cases (k.alloc size s).2
  · exact ⟨le_rfl, le_rfl⟩
  · exact ⟨Nat.zero_le _, Nat.zero_le _⟩

/-- The thread phase without the last thread. -/
theorem cachedThreadInfoIdx_spec (k : Sink σ) (h : Synced seen e d) (id : BitVec 64) {name : List UInt8}
    (hname : name.length ≤ 112) (hcount : e.currentThreadInfoMaxIndex + 1 < 2 ^ 32) (granted : Bool)
    (s : σ) :
    ∃ idx out e' d', cachedThreadInfoIdx k granted id name (s, e) = some (idx, (k.emit out s, e')) ∧
      Synced seen e' d' ∧ Reads (k.opens out s) d out d' ∧ idx < e'.currentThreadInfoMaxIndex ∧
      d'.threads idx = some id ∧ (k.opens out s = false → d'.formats = d.formats) ∧
      e'.currentFormatTemplateMaxIndex ≤ e.currentFormatTemplateMaxIndex ∧
      e'.currentThreadInfoMaxIndex ≤ e.currentThreadInfoMaxIndex + 1 := by
  unfold cachedThreadInfoIdx
  cases hl1 : l1Find e.threadL1 threadL1Size id with
  | some idx =>
    obtain ⟨hlt, ht⟩ := h.threadL1 _ id idx (l1Find_eq_some hl1)
    exact ⟨idx, none, e, d, rfl, h, reads_none d, hlt, ht, fun _ => rfl, le_rfl, Nat.le_succ _⟩
  | none =>
    obtain ⟨r, hr, hhit⟩ := h.threadL2_wf.find id
    simp only
    rw [hr, Option.bind_some]
    cases r with
    | hit idx =>
      have hknown := hhit idx rfl _ h.threadL2
      exact ⟨idx, none, _, d, rfl, h.storeThreadL1 hknown, reads_none d, hknown.1, hknown.2,
        fun _ => rfl, le_rfl, Nat.le_succ _⟩
    | miss token =>
      obtain ⟨e₀, halloc, he₀, hformat, hthread⟩ := allocWriteCache_eq k (15 + name.length + 2) s e
      have hsync := h.alloc (k.alloc (15 + name.length + 2) s).2
      rw [← he₀] at hsync
      obtain ⟨p, hp, hfits, hwrite⟩ := writeThreadTemplate_eq k id hname halloc hsync.thread_lt
      obtain ⟨l2, hl2, hadd⟩ := hsync.addThread id (by omega) granted token
      simp only at hwrite ⊢
      rw [hwrite]
      simp only
      rw [hl2, Option.map_some]
      have hu32 : u32 (e₀.currentThreadInfoMaxIndex + 1) = e₀.currentThreadInfoMaxIndex + 1 :=
        u32_of_lt (by omega)
      refine ⟨_, some (15 + name.length + 2, p), _, _, rfl, hadd, reads_template hfits (by rw [hp]) ?_, ?_,
        Function.update_self _ _ _, fun hopens => ?_, hformat, ?_⟩
      · change (if (k.alloc (15 + name.length + 2) s).2 then Decoder.start else d).template p.item.body = _
        have hlt : e₀.currentThreadInfoMaxIndex < 2 ^ 64 := hsync.thread_lt.trans (by norm_num)
        rw [hp]
        exact template_threadBody hlt id name
      · change e₀.currentThreadInfoMaxIndex < u32 (e₀.currentThreadInfoMaxIndex + 1)
        omega
      · change (k.alloc (15 + name.length + 2) s).2 = false at hopens
        rw [hopens]
        rfl
      · change u32 (e₀.currentThreadInfoMaxIndex + 1) ≤ _
        omega

/-- **The thread phase**: the index is that of the thread of the record, in the file that is open. -/
theorem threadInfoIdx_spec (k : Sink σ) (h : Synced seen e d) (id : BitVec 64) {name : List UInt8}
    (hname : name.length ≤ 112) (hcount : e.currentThreadInfoMaxIndex + 1 < 2 ^ 32) (granted : Bool)
    (s : σ) :
    ∃ idx out e' d', threadInfoIdx k granted id name (s, e) = some (idx, (k.emit out s, e')) ∧
      Synced seen e' d' ∧ Reads (k.opens out s) d out d' ∧ idx < 2 ^ 32 ∧ d'.threads idx = some id ∧
      (k.opens out s = false → d'.formats = d.formats) ∧
      e'.currentFormatTemplateMaxIndex ≤ e.currentFormatTemplateMaxIndex ∧
      e'.currentThreadInfoMaxIndex ≤ e.currentThreadInfoMaxIndex + 1 := by
  unfold threadInfoIdx
  split
  · rename_i hid
    refine ⟨_, none, e, d, rfl, h, reads_none d, h.lastThreadInfoIdx_lt, ?_, fun _ => rfl, le_rfl,
      Nat.le_succ _⟩
    rw [hid]
    exact h.lastThread
  · obtain ⟨idx, out, e', d', heq, hs, hreads, hlt, ht, hformats, hcf, hct⟩ :=
      cachedThreadInfoIdx_spec k h id hname hcount granted s
    rw [heq, Option.map_some]
    exact ⟨idx, out, _, d', rfl, { hs with lastThread := ht, lastThread_lt := .inr hlt }, hreads,
      hlt.trans hs.thread_lt, ht, hformats, hcf, hct⟩

/-- **An entry finds what it refers to.** -/
theorem resolve_entryHead {epoch id : BitVec 64} {formatIdx threadIdx : ℕ} {t : Template}
    (ht : d.formats[formatIdx]? = some t) (hf : formatIdx < 2 ^ 32) (hid : d.threads threadIdx = some id)
    (hlt : threadIdx < 2 ^ 32) (rest : List UInt8) :
    d.resolve (entryHead (epoch - d.epoch) formatIdx threadIdx ++ rest) = some (epoch, t, id, rest) := by
  rw [Decoder.resolve, entryNumbers_entryHead (by omega) (by omega), Option.bind_some]
  simp only
  rw [ht, Option.bind_some, hid, Option.map_some]

/-! ## A record -/

variable {data : List UInt8} {name : List UInt8} {args : List (ArgumentTag × List UInt8)}

/-- Whether the format of a record is UTF-8. -/
def isUtf8Format (head : RecordHeader) : Bool := head.logFormatStrType = ArgumentTag.stringUtf8Type.toByte

/-- The key of the template of a record. -/
def templateKey (hash : List UInt8 → BitVec 64) (head : RecordHeader) (format : List UInt8) : BitVec 64 :=
  getFormatTemplateHash head.level head.categoryIdx (fmtHash hash head format)

/-- The decoder behind an entry. -/
def Decoder.at (d : Decoder) (head : RecordHeader) : Decoder :=
  { d with epoch := BitVec.ofNat 64 head.timestampEpoch }

/-- The entry of a record refers to the template and to the thread of the record. -/
structure Refers (d : Decoder) (head : RecordHeader) (isUtf8 : Bool) (format : List UInt8)
    (args : List (ArgumentTag × List UInt8)) (p : Placed) : Prop where
  type : p.item.type = .logEntry
  resolve : ∃ rest, d.resolve p.item.body = some (BitVec.ofNat 64 head.timestampEpoch,
    templateOf head isUtf8 format, BitVec.ofNat 64 head.logThreadId, rest) ∧
      ((∀ a ∈ args, TextOk a) → rest = args.flatMap argBytes)

theorem Readable.categoryIdx_lt (h : Readable data head format name args) : head.categoryIdx < 2 ^ 32 := by
  have hhead := h.head_eq
  unfold getLogHead at hhead
  simp only [Option.bind_eq_bind, Option.bind_eq_some_iff] at hhead
  obtain ⟨_, _, _, _, cat, hcat, _, _, _, _, _, _, _, _, _, _, heq⟩ := hhead
  obtain rfl := Option.some.inj heq
  exact readLe_lt hcat

/-- **A record goes to the file that is open**: its templates are read there, and its entry refers to
them, provided that no file is opened after the format phase. -/
theorem logImpl_spec (hash : List UInt8 → BitVec 64) (k : Sink σ) (hr : Readable data head format name args)
    (h : Synced seen e d) (hseen : seen (templateKey hash head format)
      (templateOf head (isUtf8Format head) format))
    (hsep : ∀ t, seen (templateKey hash head format) t → t = templateOf head (isUtf8Format head) format)
    (h3 : isUtf8Format head = false → format.length * 3 < 2 ^ 32) (hname : name.length ≤ 112)
    (hcf : e.currentFormatTemplateMaxIndex + 1 < 2 ^ 32)
    (hct : e.currentThreadInfoMaxIndex + 1 < 2 ^ 32) (granted : Bool × Bool) (s : σ) :
    ∃ out₁ out₂ p e' d₁ d₂,
      logImpl hash k granted data (s, e) =
        some (k.emit (some (entrySize head, p)) (k.emit out₂ (k.emit out₁ s)), e') ∧
      Reads (k.opens out₁ s) d out₁ d₁ ∧ Reads (k.opens out₂ (k.emit out₁ s)) d₁ out₂ d₂ ∧
      (k.opens out₂ (k.emit out₁ s) = false →
        k.opens (some (entrySize head, p)) (k.emit out₂ (k.emit out₁ s)) = false →
          Synced seen e' (d₂.at head) ∧ Refers d₂ head (isUtf8Format head) format args p) ∧
      e'.currentFormatTemplateMaxIndex ≤ e.currentFormatTemplateMaxIndex + 1 ∧
      e'.currentThreadInfoMaxIndex ≤ e.currentThreadInfoMaxIndex + 1 := by
  obtain ⟨hflen, hargs, hext, hoff, hraw⟩ := hr.bounds
  have hlt := hr.length_lt
  obtain ⟨fidx, out₁, e₁, d₁, hformat, hs₁, hreads₁, hget, hcf₁, hct₁⟩ :=
    formatTemplateIdx_spec k h hseen hsep (by omega) hr.categoryIdx_lt h3 hcf granted.1 s
  obtain ⟨tidx, out₂, e₂, d₂, hthread, hs₂, hreads₂, htlt, hid, hkeep, hcf₂, hct₂⟩ :=
    threadInfoIdx_spec k hs₁ (BitVec.ofNat 64 head.logThreadId) hname (by omega) granted.2 (k.emit out₁ s)
  have hflt : fidx < 2 ^ 32 := by
    have := (List.getElem?_eq_some_iff.1 hget).1
    rw [hs₁.formats_length] at this
    exact this.trans hs₁.format_lt
  obtain ⟨e₃, halloc, he₃, hcf₃, hct₃⟩ := allocWriteCache_eq k (entrySize head)
    (k.emit out₂ (k.emit out₁ s)) e₂
  obtain ⟨tail, p, hp, -, -, htail, hwrite⟩ := hr.writeEntry_eq k hflt htlt halloc
  refine ⟨out₁, out₂, p, { e₃ with lastLogEntryEpoch := BitVec.ofNat 64 head.timestampEpoch }, d₁, d₂, ?_,
    hreads₁, hreads₂, fun hopens₂ hopens₃ => ?_, by change e₃.currentFormatTemplateMaxIndex ≤ _; omega,
    by change e₃.currentThreadInfoMaxIndex ≤ _; omega⟩
  · have h40 : recordHeaderSize = 40 := rfl
    rw [logImpl, hr.head_eq, Option.bind_some, if_neg (by omega), hr.format_eq, Option.bind_some,
      hr.name_eq, Option.bind_some]
    simp only
    rw [← templateKey, ← isUtf8Format, hformat, Option.bind_some]
    simp only
    rw [hthread, Option.bind_some]
    exact hwrite
  · change (k.alloc (entrySize head) _).2 = false at hopens₃
    rw [hopens₃] at he₃
    change e₃ = e₂ at he₃
    subst he₃
    rw [← hkeep hopens₂] at hget
    refine ⟨{ hs₂ with epoch := rfl }, by rw [hp], tail, ?_, htail⟩
    rw [hp]
    simp only
    rw [← hs₂.epoch]
    exact resolve_entryHead hget hflt hid htlt tail

end QLog.Appender
