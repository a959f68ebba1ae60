import QLog.Appender.Compressed.LogImpl

/-!
# The room of an item

`log_impl` allocates the room of an item from an estimate, fills the item, and writes the header back
when the length of the body is known. An `Extent` is what was allocated, the place of the header, and
where the writing stops.

For a record that `validate` accepts, the extents are computed for any counters, any previous epoch and
any contents of the handle (`items_inside_allocation`). A format template stays inside unless the
estimate of a UTF-16 text has lost its high bits; a thread template has the header that its write-back
asserts for names of up to 112 bytes; an entry stays inside if it has an argument, or if its three
numbers take at most the 15 bytes that are estimated for them. The difference of the epochs has 64 bits,
and can take 9 of the 5 bytes that it is given.
-/

namespace QLog.Appender

open Record Vlq Bytes

/-- The room of an item in its handle. -/
structure Extent where
  allocated : ℕ
  minSize : ℕ
  cursor : ℕ

namespace Extent

/-- The length of the body, as it is written back. -/
def bodyLen (e : Extent) : ℕ := e.cursor - (1 + e.minSize)

/-- No byte is written behind the room, and the header has one of the two lengths of the write-back. -/
def Fits (e : Extent) : Prop := e.cursor ≤ e.allocated ∧ Expected e.minSize e.bodyLen

/-- No byte is written behind the room, and the header has the only length that the write-back of a thread
template asserts. -/
def FitsOne (e : Extent) : Prop :=
  e.cursor ≤ e.allocated ∧ e.minSize = 1 ∧ encodeLength e.bodyLen = 1

end Extent

/-- A turn of the loop that writes a format template, in a handle with the contents `m`. -/
def formatTemplateExtent (head : RecordHeader) (isUtf8 : Bool) (format : List UInt8)
    (fmtSizeCalculated : ℕ) (m : Mem) : Extent :=
  let fmtMaxSize :=
    if fmtSizeCalculated ≠ 0 then fmtSizeCalculated
    else if isUtf8 then format.length else maxUtf8StrLen format.length
  let maxSize := u32 (1 + 1 + 5 + fmtMaxSize)
  let minSize := getVlqMinBytesLengthOfItemHeader maxSize
  ⟨u32 (maxSize + (1 + minSize)), minSize, (fillFormatTemplate head isUtf8 format (m, 1 + minSize)).2⟩

/-- The template of a thread, when its index is `idx`. -/
def threadTemplateExtent (idx : ℕ) (threadId : BitVec 64) (name : List UInt8) (m : Mem) : Extent :=
  let maxSize := 1 + 5 + 9 + name.length
  let minSize := encodeLength maxSize
  let filled := putBytes (m, 1 + minSize) [TemplateSubType.threadInfoTemplate.toByte]
  let filled := putBytes filled (encode idx)
  let filled := putBytes filled (encode threadId.toNat)
  ⟨maxSize + (1 + minSize), minSize, (putBytes filled name).2⟩

/-- The entry of a record, behind an entry of the epoch `lastLogEntryEpoch`. -/
def entryExtent (data : List UInt8) (head : RecordHeader) (formatIdx threadIdx : ℕ)
    (lastLogEntryEpoch : BitVec 64) (m : Mem) : Option Extent :=
  let rawLen := logArgsDataSize head
  let minSize := getVlqMinBytesLengthOfItemHeader (maxLogDataSize rawLen)
  let epoch := BitVec.ofNat 64 head.timestampEpoch
  let filled := putBytes (m, 1 + minSize) (encode (zigzag (epoch - lastLogEntryEpoch)).toNat)
  let filled := putBytes filled (encode formatIdx)
  let filled := putBytes filled (encode threadIdx)
  (writeArgs data head.logArgsOffset rawLen (rawLen + 1) filled 0).map fun filled =>
    ⟨maxLogDataSize rawLen + (1 + minSize), minSize, filled.2⟩

variable {σ : Type*} (k : Sink σ) {head : RecordHeader} {isUtf8 : Bool} {data format name : List UInt8}

/-! ## What the encoder does -/

/-- A turn of the loop that writes a format template has the extent: with a header that is expected the
item is put, otherwise there is another turn. -/
theorem writeFormatTemplate_turn (fuel fmtSizeCalculated : ℕ) (m : Mem) (s : σ × Encoder) :
    ∃ s', s' = k.allocWriteCache (formatTemplateExtent head isUtf8 format fmtSizeCalculated m).allocated s ∧
      let e := formatTemplateExtent head isUtf8 format fmtSizeCalculated (k.contents s'.1)
      (Expected e.minSize e.bodyLen → ∃ m', writeFormatTemplate k head isUtf8 format (fuel + 1)
        fmtSizeCalculated s = some (k.put (finishItem .logTemplate e.minSize (m', e.cursor)) s'.1, s'.2)) ∧
      (¬ Expected e.minSize e.bodyLen → writeFormatTemplate k head isUtf8 format (fuel + 1)
        fmtSizeCalculated s =
          writeFormatTemplate k head isUtf8 format fuel (templateText isUtf8 format).length s') := by
  refine ⟨_, rfl, fun h => ?_, fun h => ?_⟩
  · refine ⟨_, if_neg fun hne => ?_⟩
    exact h.elim hne.1 fun h => hne.2 (h.trans (Nat.add_comm _ _))
  · exact if_pos ⟨fun heq => h (.inl heq), fun heq => h (.inr (heq.trans (Nat.add_comm _ _)))⟩

/-- A thread template has the extent. -/
theorem writeThreadTemplate_extent (threadId : BitVec 64) (idx : ℕ) (m : Mem) (s : σ × Encoder) :
    ∃ s', s' = k.allocWriteCache (threadTemplateExtent idx threadId name m).allocated s ∧
      let e := threadTemplateExtent s'.2.currentThreadInfoMaxIndex threadId name (k.contents s'.1)
      ∃ m' : Mem, writeThreadTemplate k threadId name s = (k.put (m'.slice 0 e.cursor) s'.1, s'.2) :=
  ⟨_, rfl, _, rfl⟩

/-- An entry has the extent. -/
theorem writeEntry_extent (formatIdx threadIdx : ℕ) (s : σ × Encoder) :
    ∃ s', s' = k.allocWriteCache (entrySize head) s ∧ ∃ filled : Option (Mem × ℕ),
      entryExtent data head formatIdx threadIdx s'.2.lastLogEntryEpoch (k.contents s'.1) =
        filled.map (fun filled => ⟨entrySize head, entryMinSize head, filled.2⟩) ∧
      writeEntry k data head formatIdx threadIdx s = filled.map fun filled =>
        (k.put (finishItem .logEntry (entryMinSize head) filled) s'.1,
          { s'.2 with lastLogEntryEpoch := BitVec.ofNat 64 head.timestampEpoch }) :=
  ⟨_, rfl, _, rfl, rfl⟩

/-! ## The format template -/

/-- The estimate of the text of a template. -/
def textEstimate (isUtf8 : Bool) (format : List UInt8) : ℕ :=
  if isUtf8 then format.length else maxUtf8StrLen format.length

/-- The text of a template fits its estimate, with what the category leaves of its five bytes. -/
def FormatTextFits (head : RecordHeader) (isUtf8 : Bool) (format : List UInt8) : Prop :=
  isUtf8 = true ∨ format.length * 3 < 2 ^ 32 ∨
    encodeLength head.categoryIdx + (templateText isUtf8 format).length ≤ 5 + maxUtf8StrLen format.length

/-- The text of a template is not shorter than half of the format, and at most a byte longer. -/
theorem length_templateText_bounds (isUtf8 : Bool) (format : List UInt8) :
    format.length / 2 ≤ (templateText isUtf8 format).length ∧
      (templateText isUtf8 format).length ≤ format.length + 1 := by
  cases isUtf8 with
  | true =>
    simp only [templateText, if_true]
    omega
  | false =>
    have hlen : (format.take (2 * (format.length / 2))).length = 2 * (format.length / 2) := by
      rw [List.length_take]
      omega
    obtain ⟨hlow, hhigh⟩ := length_mix
      (show (format.take (2 * (format.length / 2))).length % 2 = 0 by rw [hlen]; omega)
    rw [hlen] at hlow hhigh
    simp only [templateText, Bool.false_eq_true, if_false]
    split at hhigh <;> omega

/-- The text fits the estimate exactly in these cases. -/
theorem formatTextFits_iff (hcat : head.categoryIdx < 2 ^ 32) : FormatTextFits head isUtf8 format ↔
    encodeLength head.categoryIdx + (templateText isUtf8 format).length ≤ 5 + textEstimate isUtf8 format := by
  have hfive := encodeLength_le_five hcat
  constructor
  · rintro (rfl | h3 | h)
    · simp only [templateText, textEstimate, if_true]
      omega
    · have hle := (length_templateText (fun _ => h3 : isUtf8 = false → format.length * 3 < 2 ^ 32)).1
      rw [← textEstimate] at hle
      omega
    · cases isUtf8 with
      | true =>
        simp only [templateText, textEstimate, if_true]
        omega
      | false => exact h
  · intro h
    cases isUtf8 with
    | true => exact .inl rfl
    | false => exact .inr (.inr h)

/-- **A format template fits its room** exactly if its text fits the estimate. -/
theorem formatTemplateExtent_fits (hlen : format.length + 41 < 2 ^ 32) (hcat : head.categoryIdx < 2 ^ 32)
    (m : Mem) : (formatTemplateExtent head isUtf8 format 0 m).Fits ↔ FormatTextFits head isUtf8 format := by
  obtain ⟨hlow, hhigh⟩ := length_templateText_bounds isUtf8 format
  have hbody := length_formatBody head isUtf8 format
  have hcat1 := (encodeLength_spec head.categoryIdx).1
  have hcat5 := encodeLength_le_five hcat
  have hest : textEstimate isUtf8 format ≤ format.length + 2 ^ 31 := by
    unfold textEstimate maxUtf8StrLen
    split <;> omega
  have hest40 : textEstimate isUtf8 format + 41 < 2 ^ 32 := by
    unfold textEstimate maxUtf8StrLen
    split <;> omega
  have hmax : u32 (1 + 1 + 5 + textEstimate isUtf8 format) = 7 + textEstimate isUtf8 format :=
    u32_of_lt (by omega)
  set minSize := getVlqMinBytesLengthOfItemHeader (7 + textEstimate isUtf8 format) with hmin
  have hone : 1 ≤ minSize := one_le_getVlqMin _
  have hfour : minSize ≤ 4 := getVlqMin_le_four (by omega)
  have hextent : formatTemplateExtent head isUtf8 format 0 m = ⟨7 + textEstimate isUtf8 format + (1 + minSize),
      minSize, 1 + minSize + (formatBody head isUtf8 format).length⟩ := by
    rw [formatTemplateExtent]
    simp only [ne_eq, not_true_eq_false, if_false]
    rw [← textEstimate, hmax, ← hmin, fillFormatTemplate_eq (by omega), u32_of_lt (by omega)]
  rw [hextent, formatTextFits_iff hcat, Extent.Fits, Extent.bodyLen]
  simp only
  rw [Nat.add_sub_cancel_left]
  constructor
  · rintro ⟨hle, -⟩
    omega
  · intro h
    refine ⟨by omega, expected_getVlqMin (encodeLength_mono (by omega)) ?_⟩
    -- half of the format is in the text, and the estimate is at most a half longer than the format
    have hratio : textEstimate isUtf8 format ≤ format.length * 3 / 2 + 1 := by
      unfold textEstimate maxUtf8StrLen
      split <;> omega
    omega

/-! ## The thread template -/

/-- The extent of a thread template, with its body. -/
theorem threadTemplateExtent_eq {idx : ℕ} (hidx : idx < 2 ^ 32) (threadId : BitVec 64)
    (hname : name.length < 256) (m : Mem) {minSize : ℕ}
    (hmin : encodeLength (1 + 5 + 9 + name.length) = minSize) :
    threadTemplateExtent idx threadId name m = ⟨1 + 5 + 9 + name.length + (1 + minSize), minSize,
      1 + minSize + (threadBody idx threadId name).length⟩ := by
  have hbody := length_threadBody idx threadId name
  have h1 := encodeLength_le_five hidx
  have h2 := (encodeLength_spec threadId.toNat).2.1
  have hmin9 := (encodeLength_spec (1 + 5 + 9 + name.length)).2.1
  rw [hmin] at hmin9
  have hfill : putBytes (putBytes (putBytes (putBytes (m, 1 + minSize)
      [TemplateSubType.threadInfoTemplate.toByte]) (encode idx)) (encode threadId.toNat)) name =
        (m.write (1 + minSize) (threadBody idx threadId name),
          1 + minSize + (threadBody idx threadId name).length) := by
    rw [threadBody] at hbody ⊢
    exact putBytes_four (by omega)
  rw [threadTemplateExtent, hmin, hfill]

/-- A thread template is written inside its room. -/
theorem threadTemplateExtent_le {idx : ℕ} (hidx : idx < 2 ^ 32) (threadId : BitVec 64)
    (hname : name.length < 256) (m : Mem) :
    (threadTemplateExtent idx threadId name m).cursor ≤
      (threadTemplateExtent idx threadId name m).allocated := by
  have hbody := length_threadBody idx threadId name
  have h1 := encodeLength_le_five hidx
  have h2 := (encodeLength_spec threadId.toNat).2.1
  rw [threadTemplateExtent_eq hidx threadId hname m rfl]
  simp only
  omega

/-- **A thread template fits its room** exactly for names of up to 112 bytes. -/
theorem threadTemplateExtent_fitsOne {idx : ℕ} (hidx : idx < 2 ^ 32) (threadId : BitVec 64)
    (hname : name.length < 256) (m : Mem) :
    (threadTemplateExtent idx threadId name m).FitsOne ↔ name.length ≤ 112 := by
  have hle := threadTemplateExtent_le hidx threadId hname m
  have hbody := length_threadBody idx threadId name
  have h1 := encodeLength_le_five hidx
  have h2 := (encodeLength_spec threadId.toNat).2.1
  obtain ⟨minSize, hmin⟩ : ∃ minSize, encodeLength (1 + 5 + 9 + name.length) = minSize := ⟨_, rfl⟩
  have hone : ∀ n, encodeLength n = 1 ↔ n < 128 := fun n => by
    have hpos := (encodeLength_spec n).1
    have hle : encodeLength n ≤ 1 ↔ n < minValueOfLength 2 := encodeLength_le_iff le_rfl (by omega)
    rw [show minValueOfLength 2 = 128 from rfl] at hle
    omega
  rw [Extent.FitsOne, and_iff_right hle, threadTemplateExtent_eq hidx threadId hname m hmin, Extent.bodyLen]
  simp only
  rw [Nat.add_sub_cancel_left, hone, ← hmin, hone]
  omega

/-! ## The entry -/

/-- The three numbers of an entry fit what is estimated for them. -/
def EntryHeadFits (head : RecordHeader) (formatIdx threadIdx : ℕ) (lastLogEntryEpoch : BitVec 64) : Prop :=
  encodeLength (zigzag (BitVec.ofNat 64 head.timestampEpoch - lastLogEntryEpoch)).toNat +
    encodeLength formatIdx + encodeLength threadIdx ≤ 15

variable {args : List (ArgumentTag × List UInt8)}

/-- **An entry fits its room** exactly if it has an argument, or its three numbers fit. -/
theorem entryExtent_fits (h : Readable data head format name args) {formatIdx threadIdx : ℕ}
    (hf : formatIdx < 2 ^ 32) (ht : threadIdx < 2 ^ 32) (last : BitVec 64) (m : Mem) :
    ∃ e, entryExtent data head formatIdx threadIdx last m = some e ∧
      (e.Fits ↔ logArgsDataSize head ≠ 0 ∨ EntryHeadFits head formatIdx threadIdx last) := by
  obtain ⟨-, hargs, hext, hoff, hraw⟩ := h.bounds
  have hlt := h.length_lt
  set n := entryMinSize head with hn
  set hd := entryHead (BitVec.ofNat 64 head.timestampEpoch - last) formatIdx threadIdx with hhd
  obtain ⟨hd3, hd19⟩ : 3 ≤ hd.length ∧ hd.length ≤ 19 := length_entryHead _ hf ht
  have hlen : EntryHeadFits head formatIdx threadIdx last ↔ hd.length ≤ 15 := by
    rw [hhd, entryHead, EntryHeadFits]
    simp only [List.length_append, length_encode]
  have hfour : n ≤ 4 := getVlqMin_le_four (by rw [maxLogDataSize]; omega)
  have hat : ArgsAt data (head.logArgsOffset + logArgsDataSize head) head.logArgsOffset args :=
    hraw ▸ h.argsAt
  have hfill : putBytes (putBytes (putBytes (m, 1 + n)
      (encode (zigzag (BitVec.ofNat 64 head.timestampEpoch - last)).toNat)) (encode formatIdx))
        (encode threadIdx) = (m.write (1 + n) hd, 1 + n + hd.length) := by
    rw [hhd, entryHead]
    exact putBytes_three (by rw [← entryHead, ← hhd]; omega)
  obtain ⟨m', c', hrun, hle, hc', hge, -⟩ := writeArgs_le hat rfl
    (show args.length < logArgsDataSize head + 1 by omega)
    (show 1 + n + hd.length + (logArgsDataSize head - 0) < 2 ^ 32 by omega) (by omega)
    (m.write (1 + n) hd)
  obtain ⟨out, rfl⟩ := Nat.exists_eq_add_of_le hle
  refine ⟨⟨entrySize head, n, 1 + n + hd.length + out⟩, ?_, ?_⟩
  · rw [entryExtent, ← entryMinSize, ← entrySize, ← hn, hfill, hrun]
    rfl
  · have hexp : Expected n (hd.length + out) := Readable.expected_entry hd3 hd19 (by omega) (by omega)
    have hbody : 1 + n + hd.length + out - (1 + n) = hd.length + out := by omega
    rw [hlen, Extent.Fits, Extent.bodyLen]
    simp only
    rw [hbody, and_iff_left hexp, entrySize, ← hn, maxLogDataSize]
    -- an argument takes at least four bytes in the record, and is estimated twice
    have hfourArg := h.argsAt.eq_or_four_le
    omega

/-! ## Records that are accepted -/

theorem categoryIdx_lt (h : getLogHead data = some head) : head.categoryIdx < 2 ^ 32 := by
  simp only [getLogHead, bind, Option.bind_eq_some_iff] at h
  obtain ⟨_, -, _, -, categoryIdx, hcat, _, -, _, -, _, -, _, -, _, -, h⟩ := h
  obtain rfl := Option.some.inj h
  exact readLe_lt hcat

theorem length_threadName_lt (h : getThreadName data head = some name) : name.length < 256 := by
  rw [getThreadName, Option.bind_eq_some_iff] at h
  obtain ⟨nameLen, -, h⟩ := h
  rw [length_of_readBytes h]
  exact nameLen.toNat_lt

/-- The encoding of the format text. -/
def formatIsUtf8 (head : RecordHeader) : Bool := head.logFormatStrType = ArgumentTag.stringUtf8Type.toByte

/-- The items of a record stay inside their rooms, and their headers are handled, whatever is in the
handles: with `formatIdx` and `threadIdx` in the entry, `threadMax` in the thread template, and behind an
entry of the epoch `last`. -/
structure ItemsInside (data : List UInt8) (head : RecordHeader) (format name : List UInt8)
    (formatIdx threadIdx threadMax : BitVec 32) (last : BitVec 64) : Prop where
  formatTemplate : ∀ m, (formatTemplateExtent head (formatIsUtf8 head) format 0 m).Fits
  threadTemplate : ∀ m,
    (threadTemplateExtent threadMax.toNat (BitVec.ofNat 64 head.logThreadId) name m).FitsOne
  entry : ∀ m, ∃ e, entryExtent data head formatIdx.toNat threadIdx.toNat last m = some e ∧ e.Fits

/-- **When the items of a record stay inside their rooms**: exactly if the text of the format fits its
estimate, the thread name has at most 112 bytes, and the record has an argument or the three numbers of the
entry take at most 15 bytes. Each condition is that of one item. -/
theorem items_inside_allocation (hv : validate data = some true) (hlt : data.length < 2 ^ 32) :
    ∃ head format name, getLogHead data = some head ∧
      readBytes data recordHeaderSize head.logFormatDataLen = some format ∧
      getThreadName data head = some name ∧
      ∀ (formatIdx threadIdx threadMax : BitVec 32) (last : BitVec 64),
        (ItemsInside data head format name formatIdx threadIdx threadMax last ↔
          FormatTextFits head (formatIsUtf8 head) format ∧ name.length ≤ 112 ∧
            (logArgsDataSize head ≠ 0 ∨ EntryHeadFits head formatIdx.toNat threadIdx.toNat last)) ∧
        ∀ m, ((formatTemplateExtent head (formatIsUtf8 head) format 0 m).Fits ↔
            FormatTextFits head (formatIsUtf8 head) format) ∧
          ((threadTemplateExtent threadMax.toNat (BitVec.ofNat 64 head.logThreadId) name m).FitsOne ↔
            name.length ≤ 112) ∧
          ((∃ e, entryExtent data head formatIdx.toNat threadIdx.toNat last m = some e ∧ e.Fits) ↔
            logArgsDataSize head ≠ 0 ∨ EntryHeadFits head formatIdx.toNat threadIdx.toNat last) := by
  obtain ⟨head, format, name, args, h⟩ := Readable.of_validate hv hlt
  refine ⟨head, format, name, h.head_eq, h.format_eq, h.name_eq, fun formatIdx threadIdx threadMax last => ?_⟩
  obtain ⟨hflen, -, hext, hoff, hraw⟩ := h.bounds
  have hformat : ∀ m, (formatTemplateExtent head (formatIsUtf8 head) format 0 m).Fits ↔
      FormatTextFits head (formatIsUtf8 head) format :=
    formatTemplateExtent_fits (by omega) (categoryIdx_lt h.head_eq)
  have hthread := threadTemplateExtent_fitsOne threadMax.isLt (BitVec.ofNat 64 head.logThreadId)
    (length_threadName_lt h.name_eq)
  have hentry : ∀ m, (∃ e, entryExtent data head formatIdx.toNat threadIdx.toNat last m = some e ∧ e.Fits) ↔
      logArgsDataSize head ≠ 0 ∨ EntryHeadFits head formatIdx.toNat threadIdx.toNat last := fun m => by
    obtain ⟨e, he, hfits⟩ := entryExtent_fits h formatIdx.isLt threadIdx.isLt last m
    rw [← hfits]
    constructor
    · rintro ⟨e', he', hf⟩
      exact Option.some.inj (he.symm.trans he') ▸ hf
    · exact fun hf => ⟨e, he, hf⟩
  refine ⟨⟨fun hin => ?_, fun ⟨h1, h2, h3⟩ => ?_⟩, fun m => ⟨hformat m, hthread m, hentry m⟩⟩
  · exact ⟨(hformat fun _ => 0).1 (hin.formatTemplate _), (hthread fun _ => 0).1 (hin.threadTemplate _),
      (hentry fun _ => 0).1 (hin.entry _)⟩
  · exact ⟨fun m => (hformat m).2 h1, fun m => (hthread m).2 h2, fun m => (hentry m).2 h3⟩

/-- A record with a format text, an integer and a text as its arguments, and the name of its thread. -/
def fullRecord : List UInt8 :=
  toLe 8 1700000000000 ++ toLe 4 76 ++ toLe 4 1 ++ toLe 8 7 ++ toLe 8 9 ++
    [ArgumentTag.stringUtf8Type.toByte, 2, 0, 0] ++ toLe 4 9 ++
    [0x78, 0x3d, 0x7b, 0x7d, 0x20, 0x79, 0x3d, 0x7b, 0x7d, 0, 0, 0] ++
    [ArgumentTag.int32Type.toByte, 0, 0, 0] ++ toLe 4 42 ++
    [ArgumentTag.stringUtf8Type.toByte, 0, 0, 0] ++ toLe 4 5 ++ [0x68, 0x65, 0x6c, 0x6c, 0x6f, 0, 0, 0] ++
    [4, 0x6d, 0x61, 0x69, 0x6e]

theorem items_inside_allocation_fullRecord : ∃ head format name, getLogHead fullRecord = some head ∧
    readBytes fullRecord recordHeaderSize head.logFormatDataLen = some format ∧
    getThreadName fullRecord head = some name ∧ name.length = 4 ∧
    ItemsInside fullRecord head format name 5 3 3 1699999999000 := by
  have hv : validate fullRecord = some true := by decide +kernel
  obtain ⟨head, format, name, hhead, hformat, hname, hitems⟩ := items_inside_allocation hv (by decide)
  have hread : (getLogHead fullRecord).map (fun head => (formatIsUtf8 head, logArgsDataSize head,
      (getThreadName fullRecord head).map List.length)) = some (true, 24, some 4) := by decide +kernel
  rw [hhead, Option.map_some, hname, Option.map_some, Option.some.injEq, Prod.mk.injEq, Prod.mk.injEq,
    Option.some.injEq] at hread
  obtain ⟨hutf8, hsize, hlen⟩ := hread
  refine ⟨head, format, name, hhead, hformat, hname, hlen, ?_⟩
  refine (hitems 5 3 3 1699999999000).1.2 ⟨.inl hutf8, ?_, .inl ?_⟩
  · omega
  · omega

/-- A record of the epoch 2 ^ 60 without arguments, with an empty format text and thread name. -/
def emptyRecord : List UInt8 :=
  toLe 8 (2 ^ 60) ++ toLe 4 40 ++ toLe 4 0 ++ toLe 8 1 ++ toLe 8 1 ++
    [ArgumentTag.stringUtf8Type.toByte, 0, 0, 0] ++ toLe 4 0 ++ [0]

/-- **The entry of a record can be written behind its room**: with the templates 2113664 and 16512, the
first entry of a file takes 18 bytes of 17. -/
theorem entry_behind_allocation : ¬ ∀ data head format name, validate data = some true →
    data.length < 2 ^ 32 → getLogHead data = some head →
    readBytes data recordHeaderSize head.logFormatDataLen = some format →
    getThreadName data head = some name → ∀ (formatIdx threadIdx threadMax : BitVec 32) (last : BitVec 64),
      ItemsInside data head format name formatIdx threadIdx threadMax last := by
  intro hall
  have hv : validate emptyRecord = some true := by decide +kernel
  obtain ⟨head, format, name, args, h⟩ := Readable.of_validate hv (by decide)
  have hin := hall _ head format name hv h.length_lt h.head_eq h.format_eq h.name_eq
    2113664 16512 0 0
  obtain ⟨e, he, hfits⟩ := hin.entry fun _ => 0
  obtain ⟨e', he', hiff⟩ := entryExtent_fits h (by decide : (2113664 : BitVec 32).toNat < 2 ^ 32)
    (by decide : (16512 : BitVec 32).toNat < 2 ^ 32) 0 fun _ => 0
  have hhead : ∀ head, getLogHead emptyRecord = some head → logArgsDataSize head = 0 ∧
      ¬ EntryHeadFits head 2113664 16512 0 := fun head hhead => by
    have hnum : (getLogHead emptyRecord).map (fun head => (logArgsDataSize head,
        encodeLength (zigzag (BitVec.ofNat 64 head.timestampEpoch - 0)).toNat)) = some (0, 9) := by
      decide +kernel
    rw [hhead, Option.map_some, Option.some.injEq, Prod.mk.injEq] at hnum
    refine ⟨hnum.1, ?_⟩
    rw [EntryHeadFits, hnum.2]
    decide
  obtain ⟨hzero, hno⟩ := hhead head h.head_eq
  exact (hiff.1 (Option.some.inj (he.symm.trans he') ▸ hfits)).elim (fun h => h hzero) hno

end QLog.Appender
