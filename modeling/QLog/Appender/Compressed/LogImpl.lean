import QLog.Appender.Compressed.Arguments
import QLog.Appender.Compressed.HashCache
import QLog.Appender.Compressed.Item

/-!
# The compressed appender

A model of `appender_file_compressed::log_impl`. A record is written as an entry that refers to a
template of its level, category and format, and to a template of its thread. The indices of the
templates are kept in caches of two levels; a template that is in none of them is written in front of
the entry.

Where the items go is left open: a `Sink` allocates space, which may open a new file in the middle of a
record, and takes the items. A new file resets the encoder.
-/

namespace QLog.Appender

open Record Vlq Bytes Probing

/-- `template_sub_type`. -/
inductive TemplateSubType
  | formatTemplateUtf8
  | threadInfoTemplate
  | formatTemplateUtf16
  deriving DecidableEq

/-- The value of the enumerator. -/
def TemplateSubType.toByte : TemplateSubType → UInt8
  | .formatTemplateUtf8 => 0
  | .threadInfoTemplate => 1
  | .formatTemplateUtf16 => 2

/-- `FORMAT_L1_SIZE`. -/
def formatL1Size : ℕ := 256

/-- `THREAD_L1_SIZE`. -/
def threadL1Size : ℕ := 64

/-- `FORMAT_L2_MAX_CONFIG_ENTRIES`. -/
def formatL2MaxConfigEntries : ℕ := 16 * 1024 * 1024

/-- `THREAD_L2_MAX_CONFIG_ENTRIES`. -/
def threadL2MaxConfigEntries : ℕ := 1024 * 1024

/-- `CACHE_EMPTY`. -/
def cacheEmpty : ℕ := invalidValue

/-- The caches and the counters of the appender. -/
structure Encoder where
  formatL1 : Slots (BitVec 64) ℕ
  threadL1 : Slots (BitVec 64) ℕ
  formatL2 : BoundedHashCache
  threadL2 : BoundedHashCache
  lastThreadId : BitVec 64
  lastThreadInfoIdx : ℕ
  currentFormatTemplateMaxIndex : ℕ
  currentThreadInfoMaxIndex : ℕ
  lastLogEntryEpoch : BitVec 64

/-- `reset`. -/
def Encoder.reset (e : Encoder) : Encoder where
  formatL1 := fun _ => none
  threadL1 := fun _ => none
  formatL2 := e.formatL2.clear
  threadL2 := e.threadL2.clear
  lastThreadId := BitVec.allOnes 64
  lastThreadInfoIdx := cacheEmpty
  currentFormatTemplateMaxIndex := 0
  currentThreadInfoMaxIndex := 0
  lastLogEntryEpoch := 0

/-- Where the items go. `alloc` allocates a handle of a size and says whether a new file has been opened,
`contents` is what the handle holds before it is filled, and `put` takes what it was filled with. -/
structure Sink (σ : Type*) where
  alloc : ℕ → σ → σ × Bool
  contents : σ → Mem
  put : List UInt8 → σ → σ

variable {σ : Type*}

/-- `alloc_write_cache`, as the encoder sees it. -/
def Sink.allocWriteCache (k : Sink σ) (size : ℕ) (s : σ × Encoder) : σ × Encoder :=
  ((k.alloc size s.1).1, if (k.alloc size s.1).2 then s.2.reset else s.2)

/-- Bytes are put into the handle. -/
def putBytes (s : Mem × ℕ) (bs : List UInt8) : Mem × ℕ := (s.1.write s.2 bs, u32 (s.2 + bs.length))

/-- The handle is filled, and the header of the item is written back. -/
def finishItem (type : ItemType) (minSize : ℕ) (s : Mem × ℕ) : List UInt8 :=
  (writeBackHead s.1 type minSize (s.2 - (1 + minSize))).slice 0 s.2

/-! ## Templates -/

/-- `get_format_template_hash`. -/
def getFormatTemplateHash (level : UInt8) (categoryIdx : ℕ) (fmtStrHash : BitVec 64) : BitVec 64 :=
  fmtStrHash ^^^ ((BitVec.ofNat 64 categoryIdx <<< 32) ||| BitVec.ofNat 64 level.toNat)

/-- The hash of the format text: the one in the record, unless it is missing. -/
def fmtHash (hash : List UInt8 → BitVec 64) (head : RecordHeader) (format : List UInt8) : BitVec 64 :=
  if BitVec.ofNat 64 head.formatHash = 0 then hash format else BitVec.ofNat 64 head.formatHash

/-- The slot of a key in a cache of the first level. -/
def l1Index (size : ℕ) (key : BitVec 64) : ℕ := (mixCacheKey key >>> 32).toNat &&& (size - 1)

/-- The value of a key in a cache of the first level. -/
def l1Find (slots : Slots (BitVec 64) ℕ) (size : ℕ) (key : BitVec 64) : Option ℕ :=
  (slots (l1Index size key)).bind fun b => if b.1 = key then some b.2 else none

/-- A key and a value are stored in a cache of the first level. -/
def l1Store (slots : Slots (BitVec 64) ℕ) (size : ℕ) (key : BitVec 64) (value : ℕ) :
    Slots (BitVec 64) ℕ :=
  Function.update slots (l1Index size key) (slotOf key value)

/-- The format text in a template. -/
def templateText (isUtf8 : Bool) (format : List UInt8) : List UInt8 :=
  if isUtf8 then format else utf16ToUtfMixed (format.take (2 * (format.length / 2)))

/-- The body of a format template in its handle. -/
def fillFormatTemplate (head : RecordHeader) (isUtf8 : Bool) (format : List UInt8) (s : Mem × ℕ) :
    Mem × ℕ :=
  let subType := if isUtf8 then TemplateSubType.formatTemplateUtf8 else .formatTemplateUtf16
  let s := putBytes s [subType.toByte]
  let s := putBytes s [head.level]
  let s := putBytes s (encode head.categoryIdx)
  putBytes s (templateText isUtf8 format)

/-- The loop that writes a format template, for at most so many turns. The first turn estimates the size
of the text; when the header does not fit the place chosen for it, the next one knows the size. -/
def writeFormatTemplate (k : Sink σ) (head : RecordHeader) (isUtf8 : Bool) (format : List UInt8) :
    ℕ → ℕ → σ × Encoder → Option (σ × Encoder)
  | 0, _, _ => none
  | fuel + 1, fmtSizeCalculated, s =>
    let fmtMaxSize :=
      if fmtSizeCalculated ≠ 0 then fmtSizeCalculated
      else if isUtf8 then format.length else maxUtf8StrLen format.length
    let maxSize := u32 (1 + 1 + 5 + fmtMaxSize)
    let minSize := getVlqMinBytesLengthOfItemHeader maxSize
    let s := k.allocWriteCache (u32 (maxSize + (1 + minSize))) s
    let filled := fillFormatTemplate head isUtf8 format (k.contents s.1, 1 + minSize)
    let realSize := encodeLength (filled.2 - (1 + minSize))
    if realSize ≠ minSize ∧ realSize ≠ 1 + minSize then
      writeFormatTemplate k head isUtf8 format fuel (templateText isUtf8 format).length s
    else some (k.put (finishItem .logTemplate minSize filled) s.1, s.2)

/-- The index of the format template, which is written when it is not known. -/
def formatTemplateIdx (k : Sink σ) (granted : Bool) (head : RecordHeader) (isUtf8 : Bool)
    (format : List UInt8) (key : BitVec 64) (s : σ × Encoder) : Option (ℕ × (σ × Encoder)) :=
  match l1Find s.2.formatL1 formatL1Size key with
  | some idx => some (idx, s)
  | none =>
    (s.2.formatL2.find key).bind fun
      | .hit idx =>
        some (idx, (s.1, { s.2 with formatL1 := l1Store s.2.formatL1 formatL1Size key idx }))
      | .miss token =>
        (writeFormatTemplate k head isUtf8 format 2 0 s).bind fun s =>
          let idx := s.2.currentFormatTemplateMaxIndex
          (s.2.formatL2.insertNew granted key idx token).map fun l2 =>
            (idx, (s.1, { s.2 with
              formatL2 := l2
              currentFormatTemplateMaxIndex := u32 (idx + 1)
              formatL1 := l1Store s.2.formatL1 formatL1Size key idx }))

/-- The template of a thread. -/
def writeThreadTemplate (k : Sink σ) (threadId : BitVec 64) (name : List UInt8) (s : σ × Encoder) :
    σ × Encoder :=
  let maxSize := 1 + 5 + 9 + name.length
  let minSize := encodeLength maxSize
  let s := k.allocWriteCache (maxSize + (1 + minSize)) s
  let filled := putBytes (k.contents s.1, 1 + minSize) [TemplateSubType.threadInfoTemplate.toByte]
  let filled := putBytes filled (encode s.2.currentThreadInfoMaxIndex)
  let filled := putBytes filled (encode threadId.toNat)
  let filled := putBytes filled name
  let m := filled.1.poke 0 ItemType.logTemplate.toByte
  let m := m.write 1 (encode (filled.2 - (1 + minSize)))
  (k.put (m.slice 0 filled.2) s.1, s.2)

/-- The index of the thread template, when the last record was of another thread. -/
def cachedThreadInfoIdx (k : Sink σ) (granted : Bool) (threadId : BitVec 64) (name : List UInt8)
    (s : σ × Encoder) : Option (ℕ × (σ × Encoder)) :=
  match l1Find s.2.threadL1 threadL1Size threadId with
  | some idx => some (idx, s)
  | none =>
    (s.2.threadL2.find threadId).bind fun
      | .hit idx =>
        some (idx, (s.1, { s.2 with threadL1 := l1Store s.2.threadL1 threadL1Size threadId idx }))
      | .miss token =>
        let s := writeThreadTemplate k threadId name s
        let idx := s.2.currentThreadInfoMaxIndex
        (s.2.threadL2.insertNew granted threadId idx token).map fun l2 =>
          (idx, (s.1, { s.2 with
            threadL2 := l2
            currentThreadInfoMaxIndex := u32 (idx + 1)
            threadL1 := l1Store s.2.threadL1 threadL1Size threadId idx }))

/-- The index of the thread template. -/
def threadInfoIdx (k : Sink σ) (granted : Bool) (threadId : BitVec 64) (name : List UInt8)
    (s : σ × Encoder) : Option (ℕ × (σ × Encoder)) :=
  if threadId = s.2.lastThreadId then some (s.2.lastThreadInfoIdx, s)
  else
    (cachedThreadInfoIdx k granted threadId name s).map fun (idx, s) =>
      (idx, (s.1, { s.2 with lastThreadId := threadId, lastThreadInfoIdx := idx }))

/-! ## Entries -/

/-- `get_log_args_data_size`. -/
def logArgsDataSize (head : RecordHeader) : ℕ :=
  u32 (head.extInfoOffset + 2 ^ 64 - head.logArgsOffset)

/-- `max_log_data_size`. -/
def maxLogDataSize (rawLen : ℕ) : ℕ := 5 + 5 + 5 + rawLen * 2

/-- The entry of a record. -/
def writeEntry (k : Sink σ) (data : List UInt8) (head : RecordHeader) (formatIdx threadIdx : ℕ)
    (s : σ × Encoder) : Option (σ × Encoder) :=
  let rawLen := logArgsDataSize head
  let minSize := getVlqMinBytesLengthOfItemHeader (maxLogDataSize rawLen)
  let s := k.allocWriteCache (maxLogDataSize rawLen + (1 + minSize)) s
  let epoch := BitVec.ofNat 64 head.timestampEpoch
  let filled := (k.contents s.1, 1 + minSize)
  let filled := putBytes filled (encode (zigzag (epoch - s.2.lastLogEntryEpoch)).toNat)
  let filled := putBytes filled (encode formatIdx)
  let filled := putBytes filled (encode threadIdx)
  (writeArgs data head.logArgsOffset rawLen (rawLen + 1) filled 0).map fun filled =>
    (k.put (finishItem .logEntry minSize filled) s.1, { s.2 with lastLogEntryEpoch := epoch })

/-- The thread name behind the extension header. -/
def getThreadName (data : List UInt8) (head : RecordHeader) : Option (List UInt8) :=
  data[head.extInfoOffset]?.bind fun nameLen =>
    readBytes data (head.extInfoOffset + recordExtHeaderSize) nameLen.toNat

/-- `appender_file_compressed::log_impl`, without the checks of the base class at its start. `granted`
says whether the memory for the cache of formats, and of threads, is granted. A read outside the record
has no result. -/
def logImpl (hash : List UInt8 → BitVec 64) (k : Sink σ) (granted : Bool × Bool) (data : List UInt8)
    (s : σ × Encoder) : Option (σ × Encoder) :=
  (getLogHead data).bind fun head =>
    if head.logArgsOffset < recordHeaderSize + head.logFormatDataLen then some s
    else
      (readBytes data recordHeaderSize head.logFormatDataLen).bind fun format =>
        (getThreadName data head).bind fun name =>
          let isUtf8 : Bool := head.logFormatStrType = ArgumentTag.stringUtf8Type.toByte
          let key := getFormatTemplateHash head.level head.categoryIdx (fmtHash hash head format)
          (formatTemplateIdx k granted.1 head isUtf8 format key s).bind fun (formatIdx, s) =>
            (threadInfoIdx k granted.2 (BitVec.ofNat 64 head.logThreadId) name s).bind
              fun (threadIdx, s) => writeEntry k data head formatIdx threadIdx s

/-! ## Filling a handle -/

variable {m : Mem} {c : ℕ} {bs cs : List UInt8}

theorem putBytes_eq (h : c + bs.length < 2 ^ 32) : putBytes (m, c) bs = (m.write c bs, c + bs.length) := by
  rw [putBytes, u32_of_lt h]

/-- Several pieces are put into a handle one after the other. -/
theorem putBytes_append (h : c + (bs ++ cs).length < 2 ^ 32) :
    putBytes (m.write c bs, c + bs.length) cs = (m.write c (bs ++ cs), c + (bs ++ cs).length) := by
  rw [List.length_append] at h
  rw [putBytes_eq (by omega), Mem.write_append, List.length_append, Nat.add_assoc]

theorem putBytes_three {ds : List UInt8} (h : c + (bs ++ cs ++ ds).length < 2 ^ 32) :
    putBytes (putBytes (putBytes (m, c) bs) cs) ds =
      (m.write c (bs ++ cs ++ ds), c + (bs ++ cs ++ ds).length) := by
  have hlen : (bs ++ cs ++ ds).length = bs.length + cs.length + ds.length := by
    rw [List.length_append, List.length_append]
  have hlen' : (bs ++ cs).length = bs.length + cs.length := List.length_append
  have h₁ : putBytes (m, c) bs = (m.write c bs, c + bs.length) := putBytes_eq (by omega)
  have h₂ : putBytes (m.write c bs, c + bs.length) cs =
      (m.write c (bs ++ cs), c + (bs ++ cs).length) := putBytes_append (by omega)
  rw [h₁, h₂, putBytes_append h]

theorem putBytes_four {ds es : List UInt8} (h : c + (bs ++ cs ++ ds ++ es).length < 2 ^ 32) :
    putBytes (putBytes (putBytes (putBytes (m, c) bs) cs) ds) es =
      (m.write c (bs ++ cs ++ ds ++ es), c + (bs ++ cs ++ ds ++ es).length) := by
  have hlen : (bs ++ cs ++ ds ++ es).length = (bs ++ cs ++ ds).length + es.length := List.length_append
  have h₃ : putBytes (putBytes (putBytes (m, c) bs) cs) ds =
      (m.write c (bs ++ cs ++ ds), c + (bs ++ cs ++ ds).length) := putBytes_three (by omega)
  rw [h₃, putBytes_append h]

/-- The header and the body of an item. -/
theorem slice_head_body (type : ItemType) {minSize n : ℕ} (h : Expected minSize n) (m : Mem) :
    (m.write 0 (headBytes type minSize n)).slice 0 (1 + minSize + n) =
      Item.bytes minSize ⟨type, m.slice (1 + minSize) n⟩ := by
  have hlen : (headBytes type minSize n).length = 1 + minSize := length_headBytes h
  have hhead := Mem.slice_write m 0 (headBytes type minSize n)
  rw [hlen] at hhead
  rw [Mem.slice_add, hhead, Nat.zero_add, Mem.slice_write_of_disjoint m (.inr (by omega)), Item.bytes,
    Mem.length_slice]

/-- The item in a handle that has been filled. -/
theorem finishItem_eq (type : ItemType) {minSize n : ℕ} (h : Expected minSize n) (m : Mem) :
    finishItem type minSize (m, 1 + minSize + n) =
      Item.bytes minSize ⟨type, m.slice (1 + minSize) n⟩ := by
  rw [finishItem, Nat.add_sub_cancel_left, writeBackHead_eq _ h, slice_head_body type h]

theorem one_le_getVlqMin (n : ℕ) : 1 ≤ getVlqMinBytesLengthOfItemHeader n := by
  have := (encodeLength_spec n).1
  unfold getVlqMinBytesLengthOfItemHeader
  split <;> omega

theorem getVlqMin_le_four {n : ℕ} (h : n < 2 ^ 34) : getVlqMinBytesLengthOfItemHeader n ≤ 4 := by
  have h5 : encodeLength n ≤ 5 := by
    rw [encodeLength_le_iff (by omega) (by omega)]
    norm_num [minValueOfLength]
    omega
  unfold getVlqMinBytesLengthOfItemHeader
  split <;> omega

/-- A body that needs no longer header than the greatest one, and is not less than 128 times shorter,
fits the place that is chosen. -/
theorem expected_getVlqMin {max body : ℕ} (h : encodeLength body ≤ encodeLength max)
    (hlt : max < 128 * (body + 1)) : Expected (getVlqMinBytesLengthOfItemHeader max) body := by
  have h1 := (encodeLength_spec body).1
  have h2 := encodeLength_le_succ hlt
  unfold Expected getVlqMinBytesLengthOfItemHeader
  split <;> omega

/-! ## The format template -/

/-- The body of a format template. -/
def formatBody (head : RecordHeader) (isUtf8 : Bool) (format : List UInt8) : List UInt8 :=
  [(if isUtf8 then TemplateSubType.formatTemplateUtf8 else .formatTemplateUtf16).toByte] ++ [head.level] ++
    encode head.categoryIdx ++ templateText isUtf8 format

theorem fillFormatTemplate_eq {head : RecordHeader} {isUtf8 : Bool} {format : List UInt8}
    (h : c + (formatBody head isUtf8 format).length < 2 ^ 32) :
    fillFormatTemplate head isUtf8 format (m, c) = (m.write c (formatBody head isUtf8 format),
      c + (formatBody head isUtf8 format).length) := by
  rw [formatBody] at h ⊢
  exact putBytes_four h

theorem length_formatBody (head : RecordHeader) (isUtf8 : Bool) (format : List UInt8) :
    (formatBody head isUtf8 format).length =
      2 + encodeLength head.categoryIdx + (templateText isUtf8 format).length := by
  simp only [formatBody, List.length_append, length_encode, List.length_singleton]

/-- The text of a template takes at most what is estimated for it. -/
theorem length_templateText {isUtf8 : Bool} {format : List UInt8}
    (h3 : isUtf8 = false → format.length * 3 < 2 ^ 32) :
    (templateText isUtf8 format).length ≤
        (if isUtf8 then format.length else maxUtf8StrLen format.length) ∧
      (if isUtf8 then format.length else maxUtf8StrLen format.length) ≤
        4 * (templateText isUtf8 format).length + 2 := by
  cases isUtf8 with
  | true => exact ⟨le_rfl, by simp only [templateText, if_true]; omega⟩
  | false =>
    have h3 := h3 rfl
    have hlen : (format.take (2 * (format.length / 2))).length = 2 * (format.length / 2) := by
      rw [List.length_take]
      omega
    obtain ⟨hlow, hhigh⟩ := length_mix
      (show (format.take (2 * (format.length / 2))).length % 2 = 0 by rw [hlen]; omega)
    rw [hlen] at hlow hhigh
    simp only [templateText, Bool.false_eq_true, if_false]
    rw [maxUtf8StrLen, Nat.mod_eq_of_lt h3]
    split at hhigh
    · rename_i hnil
      rw [hnil, List.length_nil] at hlen
      omega
    · omega

/-- **A format template is written in one turn.** -/
theorem writeFormatTemplate_eq (k : Sink σ) {head : RecordHeader} {isUtf8 : Bool} {format : List UInt8}
    (hlen : format.length + 40 < 2 ^ 32) (hcat : head.categoryIdx < 2 ^ 32)
    (h3 : isUtf8 = false → format.length * 3 < 2 ^ 32) (s : σ × Encoder) :
    ∃ size, ∃ p : Placed, p.item = ⟨.logTemplate, formatBody head isUtf8 format⟩ ∧
      p.bytes.length ≤ size ∧ writeFormatTemplate k head isUtf8 format 2 0 s =
        some (k.put p.bytes (k.allocWriteCache size s).1, (k.allocWriteCache size s).2) := by
  obtain ⟨hle, hge⟩ := length_templateText h3
  have hbody := length_formatBody head isUtf8 format
  have hcat1 := (encodeLength_spec head.categoryIdx).1
  have hcat5 := encodeLength_le_five hcat
  set est := if isUtf8 then format.length else maxUtf8StrLen format.length with hest
  have hest32 : est + 40 < 2 ^ 32 := by
    rw [hest]
    split
    · exact hlen
    · rename_i hu
      have := h3 (by simpa using hu)
      rw [maxUtf8StrLen]
      omega
  have hmax : u32 (1 + 1 + 5 + est) = 7 + est := u32_of_lt (by omega)
  set minSize := getVlqMinBytesLengthOfItemHeader (7 + est) with hmin
  have hone : 1 ≤ minSize := one_le_getVlqMin _
  have hfour : minSize ≤ 4 := getVlqMin_le_four (by omega)
  have hexp : Expected minSize (formatBody head isUtf8 format).length :=
    expected_getVlqMin (encodeLength_mono (by omega)) (by omega)
  refine ⟨u32 (7 + est + (1 + minSize)), ⟨_, minSize, hexp, ?_, hone⟩, rfl, ?_, ?_⟩
  · change (formatBody head isUtf8 format).length < 2 ^ 32
    omega
  · rw [Placed.bytes, length_bytes hexp, u32_of_lt (by omega)]
    omega
  · rw [writeFormatTemplate]
    simp only [ne_eq, not_true_eq_false, if_false]
    rw [← hest, hmax, ← hmin, fillFormatTemplate_eq (by omega), Nat.add_sub_cancel_left,
      if_neg (by unfold Expected at hexp; omega), finishItem_eq _ hexp, Mem.slice_write]
    rfl

/-! ## The thread template -/

/-- The body of a thread template. -/
def threadBody (idx : ℕ) (threadId : BitVec 64) (name : List UInt8) : List UInt8 :=
  [TemplateSubType.threadInfoTemplate.toByte] ++ encode idx ++ encode threadId.toNat ++ name

theorem length_threadBody (idx : ℕ) (threadId : BitVec 64) (name : List UInt8) :
    (threadBody idx threadId name).length =
      1 + encodeLength idx + encodeLength threadId.toNat + name.length := by
  simp only [threadBody, List.length_append, length_encode, List.length_singleton]

/-- **A thread template is written**, when the name is not too long for its header. -/
theorem writeThreadTemplate_eq (k : Sink σ) (threadId : BitVec 64) {name : List UInt8}
    (hname : name.length ≤ 112) {s s' : σ × Encoder}
    (hs' : k.allocWriteCache (15 + name.length + 2) s = s')
    (hidx : s'.2.currentThreadInfoMaxIndex < 2 ^ 32) :
    ∃ p : Placed, p.item = ⟨.logTemplate, threadBody s'.2.currentThreadInfoMaxIndex threadId name⟩ ∧
      p.bytes.length ≤ 15 + name.length + 2 ∧
      writeThreadTemplate k threadId name s = (k.put p.bytes s'.1, s'.2) := by
  set idx := s'.2.currentThreadInfoMaxIndex with hidx'
  have hbody := length_threadBody idx threadId name
  have h1 := encodeLength_le_five hidx
  have h2 := (encodeLength_spec threadId.toNat).2.1
  have hle : (threadBody idx threadId name).length ≤ 15 + name.length := by omega
  have hone : ∀ n, n < 128 → encodeLength n = 1 := fun n hn => by
    rw [encodeLength_eq, if_pos hn]
  have hmin : encodeLength (1 + 5 + 9 + name.length) = 1 := hone _ (by omega)
  have hexp : Expected 1 (threadBody idx threadId name).length := .inl (hone _ (by omega))
  refine ⟨⟨_, 1, hexp, ?_, le_rfl⟩, rfl, ?_, ?_⟩
  · change (threadBody idx threadId name).length < 2 ^ 32
    omega
  · rw [Placed.bytes, length_bytes hexp]
    omega
  · rw [writeThreadTemplate, hmin, show 1 + 5 + 9 + name.length + (1 + 1) = 15 + name.length + 2 by omega, hs', ← hidx']
    have hfill : putBytes (putBytes (putBytes (putBytes (k.contents s'.1, 1 + 1)
        [TemplateSubType.threadInfoTemplate.toByte]) (encode idx)) (encode threadId.toNat)) name =
          ((k.contents s'.1).write 2 (threadBody idx threadId name),
            2 + (threadBody idx threadId name).length) := by
      rw [threadBody] at hle ⊢
      exact putBytes_four (by omega)
    rw [hfill]
    simp only
    rw [Nat.add_sub_cancel_left]
    have hhead : headBytes .logTemplate 1 (threadBody idx threadId name).length =
        ItemType.logTemplate.toByte :: encode (threadBody idx threadId name).length :=
      if_pos (hone _ (by omega))
    have hwrite := Mem.write_append ((k.contents s'.1).write 2 (threadBody idx threadId name)) 0
      [ItemType.logTemplate.toByte] (encode (threadBody idx threadId name).length)
    rw [List.length_singleton, Nat.zero_add, List.singleton_append, ← hhead, ← Mem.poke_eq_write] at hwrite
    rw [hwrite, slice_head_body .logTemplate hexp, Mem.slice_write]
    rfl

/-! ## The entry -/

/-- A record whose parts are all there. -/
structure Readable (data : List UInt8) (head : RecordHeader) (format name : List UInt8)
    (args : List (ArgumentTag × List UInt8)) : Prop where
  head_eq : getLogHead data = some head
  format_eq : readBytes data recordHeaderSize head.logFormatDataLen = some format
  name_eq : getThreadName data head = some name
  argsAt : ArgsAt data head.extInfoOffset head.logArgsOffset args
  length_lt : data.length < 2 ^ 32

/-- The place of the header of an entry. -/
def entryMinSize (head : RecordHeader) : ℕ :=
  getVlqMinBytesLengthOfItemHeader (maxLogDataSize (logArgsDataSize head))

/-- What is allocated for an entry. -/
def entrySize (head : RecordHeader) : ℕ := maxLogDataSize (logArgsDataSize head) + (1 + entryMinSize head)

/-- The numbers in front of the arguments. -/
def entryHead (epochOffset : BitVec 64) (formatIdx threadIdx : ℕ) : List UInt8 :=
  encode (zigzag epochOffset).toNat ++ encode formatIdx ++ encode threadIdx

theorem length_entryHead (epochOffset : BitVec 64) {formatIdx threadIdx : ℕ} (hf : formatIdx < 2 ^ 32)
    (ht : threadIdx < 2 ^ 32) : 3 ≤ (entryHead epochOffset formatIdx threadIdx).length ∧
      (entryHead epochOffset formatIdx threadIdx).length ≤ 19 := by
  have h1 := encodeLength_spec (zigzag epochOffset).toNat
  have h2 := (encodeLength_spec formatIdx).1
  have h3 := (encodeLength_spec threadIdx).1
  have h4 := encodeLength_le_five hf
  have h5 := encodeLength_le_five ht
  simp only [entryHead, List.length_append, length_encode]
  omega

namespace Readable

variable {data : List UInt8} {head : RecordHeader} {format name : List UInt8}
  {args : List (ArgumentTag × List UInt8)}

/-- The places of the parts. -/
theorem bounds (h : Readable data head format name args) :
    format.length = head.logFormatDataLen ∧ head.logArgsOffset + 4 * args.length ≤ head.extInfoOffset ∧
      head.extInfoOffset + 1 + name.length ≤ data.length ∧ 40 + format.length ≤ head.logArgsOffset ∧
      head.logArgsOffset + logArgsDataSize head = head.extInfoOffset := by
  have hargs := h.argsAt.le
  have hlt := h.length_lt
  have hflen := length_of_readBytes h.format_eq
  have hname := h.name_eq
  unfold getThreadName at hname
  rw [Option.bind_eq_some_iff] at hname
  obtain ⟨b, hb, hname⟩ := hname
  have hnlen := length_of_readBytes hname
  have hbound : head.extInfoOffset + 1 + name.length ≤ data.length := by
    unfold readBytes at hname
    split at hname
    · rename_i hle
      have hext : recordExtHeaderSize = 1 := rfl
      omega
    · cases hname
  have hoff : 40 + format.length ≤ head.logArgsOffset := by
    have hle := le_align4 head.logFormatDataLen
    have h40 : recordHeaderSize = 40 := rfl
    rw [RecordHeader.logArgsOffset]
    omega
  have hsize : logArgsDataSize head = head.extInfoOffset - head.logArgsOffset := by
    rw [logArgsDataSize, u32]
    omega
  exact ⟨hflen, by omega, hbound, hoff, by omega⟩

/-- **A record that `validate` accepts is readable.** -/
theorem of_validate (h : validate data = some true) (hlt : data.length < 2 ^ 32) :
    ∃ head format name args, Readable data head format name args := by
  rw [validate] at h
  split at h
  · cases h
  · rw [Option.bind_eq_some_iff] at h
    obtain ⟨head, hhead, h⟩ := h
    have hargs : validateArgs data head.logArgsOffset head.extInfoOffset = some true := by
      split at h
      · exact h
      · exact h
      · exact h
      · cases h
    rw [validateArgs] at hargs
    split at hargs
    · cases hargs
    · rw [Option.bind_eq_some_iff] at hargs
      obtain ⟨nameLen, hnameLen, hargs⟩ := hargs
      split at hargs
      · cases hargs
      · have hext : recordExtHeaderSize = 1 := rfl
        have hoff : head.logArgsOffset = recordHeaderSize + align4 head.logFormatDataLen := rfl
        have hpad := le_align4 head.logFormatDataLen
        obtain ⟨args, hat⟩ := exists_argsAt (by omega) hargs
        have hname : getThreadName data head =
            some (sub data (head.extInfoOffset + recordExtHeaderSize) nameLen.toNat) := by
          rw [getThreadName, hnameLen]
          exact if_pos (by omega)
        exact ⟨head, _, _, args, hhead, if_pos (by omega), hname, hat, hlt⟩

/-- The header of an entry fits the place chosen for it. -/
theorem expected_entry {n out : ℕ} (hn : 3 ≤ n) (hn' : n ≤ 19) (hout : out ≤ logArgsDataSize head)
    (hout' : logArgsDataSize head ≤ 8 * out) : Expected (entryMinSize head) (n + out) := by
  rw [entryMinSize, maxLogDataSize]
  refine expected_getVlqMin ?_ (by omega)
  rcases Nat.lt_or_ge (logArgsDataSize head) 4 with hlt | hge
  · have hone : encodeLength (n + out) = 1 := by
      rw [encodeLength_eq, if_pos (by omega)]
    rw [hone]
    exact (encodeLength_spec _).1
  · exact encodeLength_mono (by omega)

/-- **The entry of a record**, in the file that is open when its space has been allocated. -/
theorem writeEntry_eq (h : Readable data head format name args) (k : Sink σ) {formatIdx threadIdx : ℕ}
    (hf : formatIdx < 2 ^ 32) (ht : threadIdx < 2 ^ 32) {s s' : σ × Encoder}
    (hs' : k.allocWriteCache (entrySize head) s = s') :
    ∃ tail, ∃ p : Placed, p.item = ⟨.logEntry, entryHead (BitVec.ofNat 64 head.timestampEpoch -
        s'.2.lastLogEntryEpoch) formatIdx threadIdx ++ tail⟩ ∧
      p.minSize = entryMinSize head ∧ tail.length ≤ logArgsDataSize head ∧
      ((∀ a ∈ args, TextOk a) → tail = args.flatMap argBytes) ∧
      writeEntry k data head formatIdx threadIdx s = some (k.put p.bytes s'.1,
        { s'.2 with lastLogEntryEpoch := BitVec.ofNat 64 head.timestampEpoch }) := by
  obtain ⟨-, hargs, hext, hoff, hraw⟩ := h.bounds
  have hlt := h.length_lt
  set n := entryMinSize head with hn
  set hd := entryHead (BitVec.ofNat 64 head.timestampEpoch - s'.2.lastLogEntryEpoch) formatIdx threadIdx
    with hhd
  obtain ⟨hd3, hd19⟩ : 3 ≤ hd.length ∧ hd.length ≤ 19 := length_entryHead _ hf ht
  have hfour : n ≤ 4 := getVlqMin_le_four (by rw [maxLogDataSize]; omega)
  have hat : ArgsAt data (head.logArgsOffset + logArgsDataSize head) head.logArgsOffset args :=
    hraw ▸ h.argsAt
  have hfill : putBytes (putBytes (putBytes (k.contents s'.1, 1 + n)
      (encode (zigzag (BitVec.ofNat 64 head.timestampEpoch - s'.2.lastLogEntryEpoch)).toNat))
        (encode formatIdx)) (encode threadIdx) =
          ((k.contents s'.1).write (1 + n) hd, 1 + n + hd.length) := by
    rw [hhd, entryHead]
    exact putBytes_three (by rw [← entryHead, ← hhd]; omega)
  have hwrite : writeEntry k data head formatIdx threadIdx s =
      (writeArgs data head.logArgsOffset (logArgsDataSize head) (logArgsDataSize head + 1)
        ((k.contents s'.1).write (1 + n) hd, 1 + n + hd.length) 0).map fun filled =>
          (k.put (finishItem .logEntry n filled) s'.1,
            { s'.2 with lastLogEntryEpoch := BitVec.ofNat 64 head.timestampEpoch }) := by
    rw [writeEntry]
    simp only
    rw [← entryMinSize, ← entrySize, hs', ← hn, hfill]
  obtain ⟨m', c', hrun, hle, hc', hge, hframe⟩ := writeArgs_le hat rfl
    (show args.length < logArgsDataSize head + 1 by omega)
    (show 1 + n + hd.length + (logArgsDataSize head - 0) < 2 ^ 32 by omega) (by omega)
    ((k.contents s'.1).write (1 + n) hd)
  obtain ⟨out, rfl⟩ := Nat.exists_eq_add_of_le hle
  have hbody : m'.slice (1 + n) (hd.length + out) = hd ++ m'.slice (1 + n + hd.length) out := by
    rw [Mem.slice_add, Mem.slice_congr fun x _ hx => hframe x hx, Mem.slice_write]
  have hexp : Expected n (hd.length + out) := expected_entry hd3 hd19 (by omega) (by omega)
  have hlen : (hd ++ m'.slice (1 + n + hd.length) out).length = hd.length + out := by
    rw [List.length_append, Mem.length_slice]
  refine ⟨m'.slice (1 + n + hd.length) out, ⟨_, n, hlen.symm ▸ hexp, ?_, one_le_getVlqMin _⟩, rfl, rfl, ?_,
    fun hok => ?_, ?_⟩
  · change (hd ++ m'.slice (1 + n + hd.length) out).length < 2 ^ 32
    omega
  · rw [Mem.length_slice]
    omega
  · -- the same run, with the bytes of the arguments
    have hflat := length_argsBytes_le hat hok
    have hrun' : writeArgs data head.logArgsOffset (logArgsDataSize head) (logArgsDataSize head + 1)
        ((k.contents s'.1).write (1 + n) hd, 1 + n + hd.length) 0 =
          some (((k.contents s'.1).write (1 + n) hd).write (1 + n + hd.length) (args.flatMap argBytes),
            1 + n + hd.length + (args.flatMap argBytes).length) :=
      writeArgs_eq hat rfl hok (by omega) (by omega) (by omega)
    obtain ⟨hm, hout⟩ := Prod.mk.inj (Option.some.inj (hrun.symm.trans hrun'))
    rw [hm, Nat.add_left_cancel hout, Mem.slice_write]
  · rw [hwrite, hrun, Option.map_some, Nat.add_assoc, finishItem_eq _ hexp, hbody]
    rfl

end Readable

end QLog.Appender
