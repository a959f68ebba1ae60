import QLog.Foundations.While
import QLog.Appender.Compressed.LogImpl
import QLog.Layout.Content

/-!
# Laying out a record

`doLayout` writes the time, the thread, the level and the category of a record, and then its format text
with the arguments in the replacement fields. There is one function for UTF-8 format texts and one for
UTF-16. Reads of the record are partial, and the loops over the format text are given a number of turns, so
that a result means that the function ends and reads inside the record.

The name of a thread is copied into an array of 256 bytes, and the text made of it into the vector. A
`Copy` is where such a copy goes; nothing in the model stops one that is too long.
-/

namespace QLog

open Appender (getThreadName logArgsDataSize)
open Layout (FormatInfo ascii)
open Record Bytes

/-- A copy of the bytes from `start` to `stop` of a destination of `capacity` bytes. -/
structure Copy where
  capacity : ℕ
  start : ℕ
  stop : ℕ

/-- The copy stays inside its destination. -/
def Copy.Inside (c : Copy) : Prop := c.stop ≤ c.capacity

/-- `TimeZone`: `timeText` is what `snprintf` makes of an epoch, none if it fails. -/
structure TimeZone where
  timeText : ℕ → Option (List UInt8)
  timeCache : List UInt8
  lastTimeEpochCache : ℕ
  timeCache_le : timeCache.length ≤ 128

/-- `refresh_time_string_cache`. -/
def TimeZone.refreshTimeStringCache (zone : TimeZone) (epochMs : ℕ) : TimeZone :=
  if epochMs = zone.lastTimeEpochCache then zone
  else
    { zone with
      timeCache := ((zone.timeText epochMs).getD []).take 128
      lastTimeEpochCache := epochMs
      timeCache_le := List.length_take_le _ _ }

/-- `enum_layout_result`, of which `to_be_continue` is never returned. -/
inductive LayoutResult
  | finished
  | parseError
  deriving DecidableEq

namespace Layout

/-! ## Arguments -/

/-- The alignment of a string in a record, with 32-bit arithmetic. -/
def stringRoom (strLen : ℕ) : ℕ := add32 strLen 3 / 4 * 4

/-- The switch over the argument at `args + cursor`: the text, and the cursor behind the argument. -/
def insertArgument (single double : FloatOps) (data : List UInt8) (args cursor : ℕ) (l : Layout) :
    Option (Layout × ℕ) :=
  let p := args + cursor
  data[p]?.bind fun typeInfo =>
    match ArgumentTag.ofByte? typeInfo with
    | some .nullType => some (l.insertStrUtf8 (text "null"), add32 cursor 4)
    | some .pointerType =>
      (readLe data (p + 4) 8).map fun v => (l.insertPointer (BitVec.ofNat 64 v), add32 cursor 12)
    | some .boolType => (readLe data (p + 2) 1).map fun v => (l.insertBool (v ≠ 0), add32 cursor 4)
    | some .charType =>
      (readLe data (p + 2) 1).map fun v => (l.insertChar (UInt8.ofNat v), add32 cursor 4)
    | some .char16Type => (readLe data (p + 2) 2).map fun v => (l.insertChar16 v, add32 cursor 4)
    | some .char32Type => (readLe data (p + 4) 4).map fun v => (l.insertChar32 v, add32 cursor 8)
    | some .int8Type => (readLe data (p + 2) 1).map fun v =>
      ((l.insertIntegralSigned ((BitVec.ofNat 8 v).signExtend 64) ten).2, add32 cursor 4)
    | some .uint8Type => (readLe data (p + 2) 1).map fun v =>
      ((l.insertIntegralUnsigned (BitVec.ofNat 64 v) ten).2, add32 cursor 4)
    | some .int16Type => (readLe data (p + 2) 2).map fun v =>
      ((l.insertIntegralSigned ((BitVec.ofNat 16 v).signExtend 64) ten).2, add32 cursor 4)
    | some .uint16Type => (readLe data (p + 2) 2).map fun v =>
      ((l.insertIntegralUnsigned (BitVec.ofNat 64 v) ten).2, add32 cursor 4)
    | some .int32Type => (readLe data (p + 4) 4).map fun v =>
      ((l.insertIntegralSigned ((BitVec.ofNat 32 v).signExtend 64) ten).2, add32 cursor 8)
    | some .uint32Type => (readLe data (p + 4) 4).map fun v =>
      ((l.insertIntegralUnsigned (BitVec.ofNat 64 v) ten).2, add32 cursor 8)
    | some .int64Type => (readLe data (p + 4) 8).map fun v =>
      ((l.insertIntegralSigned (BitVec.ofNat 64 v) ten).2, add32 cursor 12)
    | some .uint64Type => (readLe data (p + 4) 8).map fun v =>
      ((l.insertIntegralUnsigned (BitVec.ofNat 64 v) ten).2, add32 cursor 12)
    | some .floatType => (readBytes data (p + 4) 4).map fun v =>
      (l.insertDecimalFloat single (single.ofBytes v), add32 cursor 8)
    | some .doubleType => (readBytes data (p + 4) 8).map fun v =>
      (l.insertDecimalDouble double (double.ofBytes v), add32 cursor 12)
    | some .stringUtf8Type =>
      (readLe data (p + 4) 4).bind fun strLen =>
        (readBytes data (p + 8) strLen).map fun str =>
          (l.insertStrUtf8 str, add32 cursor (add32 8 (stringRoom strLen)))
    | some .stringUtf16Type =>
      (readLe data (p + 4) 4).bind fun strLen =>
        (readBytes data (p + 8) (2 * (strLen / 2))).map fun str =>
          (l.insertStrUtf16 (unitsOf str) strLen, add32 cursor (add32 8 (stringRoom strLen)))
    | _ => some (l, cursor)

/-! ## The format text -/

/-- The local variables of the loops over a format text. -/
structure FormatScan where
  i : ℕ
  argsDataCursor : ℕ
  layout : Layout

/-- What a replacement field is scanned for: its length, and whether it is closed. -/
abbrev FieldScan := ℕ × Bool

/-- A replacement field whose text, `specLen` units and the closing brace, begins at `i`. `style` shows the
units of the format text. -/
def replaceField (single double : FloatOps) (data : List UInt8) (head : RecordHeader) (style : ℕ → Option ℕ)
    (specLen : ℕ) (s : FormatScan) : Option FormatScan :=
  (c20Format (fun k => style (s.i + k)) (specLen + 1)).bind fun info =>
    let l := { s.layout with formatInfo := info }
    let i := if info.offset ≠ 0 then add32 s.i (info.offset + 1) else add32 s.i (specLen + 1)
    (insertArgument single double data head.logArgsOffset s.argsDataCursor l).map fun (l', argsDataCursor) =>
      ⟨i, argsDataCursor, l'.fillAndAlignment l.cursor⟩

/-- What follows an opening brace, at `s.i`. `scanField` scans the field, and `reserve` is the expansion for
the rest of the format text. -/
def openBrace (single double : FloatOps) (data : List UInt8) (head : RecordHeader) (argsDataLen : ℕ)
    (style : ℕ → Option ℕ) (scanField : Option FieldScan) (reserve : ℕ → ℕ) (s : FormatScan) :
    Option FormatScan :=
  let s := if s.layout.formatInfo.used then
    { s with layout := { s.layout with formatInfo := .reset } } else s
  if s.argsDataCursor < argsDataLen then
    scanField.bind fun (specLen, closed) =>
      if closed then
        (replaceField single double data head style specLen s).map fun s =>
          { s with layout := s.layout.expandBy (reserve s.i) }
      else some { s with layout := s.layout.insertChar (ascii '\x7b') }
  else some { s with layout := s.layout.insertChar (ascii '\x7b') }

/-- What follows the brace at `s.i` of `len` units. -/
def brace (single double : FloatOps) (data : List UInt8) (head : RecordHeader) (argsDataLen len : ℕ)
    (style : ℕ → Option ℕ) (scanField : ℕ → Option FieldScan) (reserve : ℕ → ℕ) (s : FormatScan) :
    Option FormatScan :=
  (style s.i).bind fun c =>
    let s := { s with i := add32 s.i 1 }
    let isClosing := decide (c = '\x7d'.toNat)
    (if s.i < len then (style s.i).map fun nextC => isClosing && decide (nextC = '\x7d'.toNat)
      else some false).bind fun escaped =>
      if escaped then some { s with i := add32 s.i 1, layout := s.layout.insertChar (ascii '\x7d') }
      else if isClosing then some { s with layout := s.layout.insertChar (ascii '\x7d') }
      else openBrace single double data head argsDataLen style (scanField s.i) reserve s

/-! ### UTF-8 -/

/-- `find_brace_and_copy_sw`, on `n` characters from `p` on, which are copied to `dst`: how many are copied,
and whether a brace follows. -/
def findBraceAndCopySw (data : List UInt8) : ℕ → ℕ → ℕ → Layout → Option (ℕ × Bool × Layout)
  | 0, _, _, l => some (0, false, l)
  | n + 1, p, dst, l =>
    data[p]?.bind fun c =>
      if c = ascii '\x7b' ∨ c = ascii '\x7d' then some (0, true, l)
      else (findBraceAndCopySw data n (p + 1) (dst + 1) (l.write dst c)).map fun r => (r.1 + 1, r.2)

/-- The loop that scans a replacement field, for so many units more; none of the first 20 units may be
left. -/
def scanFieldUtf8 (style : ℕ → Option ℕ) (len bound : ℕ) : ℕ → ℕ → ℕ → Option FieldScan
  | 0, _, specLen => some (specLen, false)
  | more + 1, k, specLen =>
    if k < len ∧ k < bound then
      (style k).bind fun c =>
        if c = '\x7d'.toNat then some (specLen, true)
        else if c = '\x7b'.toNat then some (specLen, false)
        else scanFieldUtf8 style len bound more (k + 1) (specLen + 1)
    else some (specLen, false)

/-- The units of a UTF-8 format text. -/
def styleUtf8 (data : List UInt8) (k : ℕ) : Option ℕ := data[recordHeaderSize + k]?.map UInt8.toNat

/-- A turn of the loop of `python_style_format_content_utf8`. -/
def formatTurnUtf8 (single double : FloatOps) (data : List UInt8) (head : RecordHeader) (argsDataLen : ℕ)
    (s : FormatScan) : Option FormatScan :=
  let len := head.logFormatDataLen
  (findBraceAndCopySw data (len - s.i) (recordHeaderSize + s.i) s.layout.cursor s.layout).bind
    fun (copied, foundBrace, l) =>
      let s := { s with i := add32 s.i copied, layout := { l with cursor := add32 l.cursor copied } }
      if foundBrace then
        brace single double data head argsDataLen len (styleUtf8 data)
          (fun i => scanFieldUtf8 (styleUtf8 data) len (add32 i 20) 20 i 0) (fun i => sub32 len i) s
      else some s

/-- The loop of `python_style_format_content_utf8`, for at most so many turns, with the expansion before it. -/
def formatLoopUtf8 (single double : FloatOps) (data : List UInt8) (head : RecordHeader) (fuel : ℕ) (l : Layout) :
    Option FormatScan :=
  whileLoop (fun s : FormatScan => s.i < head.logFormatDataLen)
    (formatTurnUtf8 single double data head (logArgsDataSize head)) fuel ⟨0, 0, l.expandBy head.logFormatDataLen⟩

/-- `python_style_format_content_utf8`. -/
def pythonStyleFormatContentUtf8 (single double : FloatOps) (data : List UInt8) (head : RecordHeader)
    (fuel : ℕ) (l : Layout) : Option Layout :=
  if logArgsDataSize head = 0 then
    (readBytes data recordHeaderSize head.logFormatDataLen).map fun format => l.insertStrUtf8 format
  else (formatLoopUtf8 single double data head fuel l).map FormatScan.layout

/-! ### UTF-16 -/

/-- The units of a UTF-16 format text. -/
def styleUtf16 (data : List UInt8) (k : ℕ) : Option ℕ := readLe data (recordHeaderSize + 2 * k) 2

/-- `find_brace_and_convert_u16_sw`, on `n` units from the unit `k` on, which are converted to `dst`: how many
are converted, and whether a brace or a unit that is not ASCII follows. -/
def findBraceAndConvertU16Sw (style : ℕ → Option ℕ) : ℕ → ℕ → ℕ → Layout → Option (ℕ × Bool × Bool × Layout)
  | 0, _, _, l => some (0, false, false, l)
  | n + 1, k, dst, l =>
    (style k).bind fun c =>
      if 0x80 ≤ c then some (0, false, true, l)
      else if c = '\x7b'.toNat ∨ c = '\x7d'.toNat then some (0, true, false, l)
      else
        (findBraceAndConvertU16Sw style n (k + 1) (dst + 1) (l.write dst (UInt8.ofNat c))).map fun r =>
          (r.1 + 1, r.2)

/-- Several characters, for which there is room after the expansion. -/
def pushAll (cs : List ℕ) (l : Layout) : Layout :=
  cs.foldl (fun l c => l.push (UInt8.ofNat c)) (l.expandBy cs.length)

/-- What follows units that are ASCII: a unit at `s.i` that is not, with its partner if it has one. -/
def convertUnit (style : ℕ → Option ℕ) (len : ℕ) (s : FormatScan) : Option FormatScan :=
  if s.i < len then
    (style s.i).bind fun c =>
      let s := { s with i := add32 s.i 1 }
      if c < 0x80 then some { s with layout := s.layout.push (UInt8.ofNat c) }
      else if c < 0x800 then
        some { s with layout := s.layout.pushAll [0xC0 ||| c >>> 6, 0x80 ||| c &&& 0x3F] }
      else if 0xD800 ≤ c ∧ c ≤ 0xDBFF then
        if s.i < len then
          (style s.i).map fun c2 =>
            if 0xDC00 ≤ c2 ∧ c2 ≤ 0xDFFF then
              let codepoint := 0x10000 + (c - 0xD800) * 0x400 + (c2 - 0xDC00)
              { s with
                i := add32 s.i 1
                layout := s.layout.pushAll [0xF0 ||| codepoint >>> 18, 0x80 ||| codepoint >>> 12 &&& 0x3F,
                  0x80 ||| codepoint >>> 6 &&& 0x3F, 0x80 ||| codepoint &&& 0x3F] }
            else s
        else some s
      else if 0xDC00 ≤ c ∧ c ≤ 0xDFFF then some s
      else
        some { s with layout := s.layout.pushAll [0xE0 ||| c >>> 12, 0x80 ||| c >>> 6 &&& 0x3F,
          0x80 ||| c &&& 0x3F] }
  else some s

/-- The loop that scans a replacement field, for so many turns more; two opening braces count as text. -/
def scanFieldUtf16 (style : ℕ → Option ℕ) (len bound : ℕ) : ℕ → ℕ → ℕ → Option FieldScan
  | 0, _, specLen => some (specLen, false)
  | more + 1, k, specLen =>
    if k < len ∧ k < bound then
      (style k).bind fun c =>
        if c = '\x7d'.toNat then some (specLen, true)
        else if c = '\x7b'.toNat then
          (if k + 1 < len then (style (k + 1)).map fun next => decide (next = '\x7b'.toNat)
            else some false).bind fun isEscaped =>
            if isEscaped then scanFieldUtf16 style len bound more (k + 2) (specLen + 2)
            else some (specLen, false)
        else scanFieldUtf16 style len bound more (k + 1) (specLen + 1)
    else some (specLen, false)

/-- A turn of the loop of `python_style_format_content_utf16`, on `len` units. -/
def formatTurnUtf16 (single double : FloatOps) (data : List UInt8) (head : RecordHeader) (argsDataLen len : ℕ)
    (s : FormatScan) : Option FormatScan :=
  (findBraceAndConvertU16Sw (styleUtf16 data) (len - s.i) s.i s.layout.cursor s.layout).bind
    fun (processed, foundBrace, nonAscii, l) =>
      let s := { s with i := add32 s.i processed, layout := { l with cursor := add32 l.cursor processed } }
      if nonAscii then convertUnit (styleUtf16 data) len s
      else if foundBrace then
        brace single double data head argsDataLen len (styleUtf16 data)
          (fun i => scanFieldUtf16 (styleUtf16 data) len (add32 i 20) 20 i 0)
          (fun i => sub32 len i * 3 % 2 ^ 32 / 2) s
      else some s

/-- The loop of `python_style_format_content_utf16`, for at most so many turns, with the expansion before
it. -/
def formatLoopUtf16 (single double : FloatOps) (data : List UInt8) (head : RecordHeader) (fuel : ℕ) (l : Layout) :
    Option FormatScan :=
  let wcharLen := head.logFormatDataLen / 2
  whileLoop (fun s : FormatScan => s.i < wcharLen)
    (formatTurnUtf16 single double data head (logArgsDataSize head) wcharLen) fuel
    ⟨0, 0, l.expandBy (head.logFormatDataLen * 3 / 2 % 2 ^ 32)⟩

/-- `python_style_format_content_utf16`. -/
def pythonStyleFormatContentUtf16 (single double : FloatOps) (data : List UInt8) (head : RecordHeader)
    (fuel : ℕ) (l : Layout) : Option Layout :=
  (formatLoopUtf16 single double data head fuel l).map FormatScan.layout

/-! ## The record -/

/-- `python_style_format_content`. -/
def pythonStyleFormatContent (single double : FloatOps) (data : List UInt8) (head : RecordHeader) (fuel : ℕ)
    (l : Layout) : Option Layout :=
  (if head.logFormatStrType = ArgumentTag.stringUtf8Type.toByte then
      pythonStyleFormatContentUtf8 single double data head fuel l
    else pythonStyleFormatContentUtf16 single double data head fuel l).map fun l =>
      let l := l.expandBy 1
      l.write l.cursor 0

/-- `insert_time`. -/
def insertTime (zone : TimeZone) (head : RecordHeader) (l : Layout) : TimeZone × Layout :=
  let l := l.expandBy (128 + 3)
  let zone := zone.refreshTimeStringCache head.timestampEpoch
  let l := l.append zone.timeCache
  let mSec := head.timestampEpoch % 1000
  (zone, l.append [UInt8.ofNat (48 + mSec / 100), UInt8.ofNat (48 + mSec / 10 % 10), UInt8.ofNat (48 + mSec % 10)])

/-- The text in front of the name of a thread. -/
def threadHead (threadId : BitVec 64) : List UInt8 :=
  text "[tid-" ++ (Nat.toDigits 10 threadId.toNat).map ascii ++ text " "

theorem length_threadHead_le (threadId : BitVec 64) : (threadHead threadId).length ≤ 26 := by
  have hdigits : (Nat.toDigits 10 threadId.toNat).length ≤ 20 := by
    rw [Nat.length_toDigits_le_iff (by norm_num) (by norm_num)]
    exact threadId.isLt.trans (by norm_num)
  have htext : (text "[tid-").length = 5 ∧ (text " ").length = 1 := ⟨rfl, rfl⟩
  rw [threadHead, List.length_append, List.length_append, List.length_map]
  omega

/-- The text of a thread: what the array holds up to its first terminator. -/
def threadText (threadId : BitVec 64) (name : List UInt8) (h : name.length ≤ 255) : ThreadText :=
  ⟨(threadHead threadId ++ name ++ text "]\t").takeWhile (· ≠ 0), by
    have hhead := length_threadHead_le threadId
    have htext : (text "]\t").length = 2 := rfl
    refine (List.takeWhile_prefix _).length_le.trans ?_
    rw [List.length_append, List.length_append]
    omega⟩

/-- The size of the array of `insert_thread_info`. -/
def tmpSize : ℕ := 256

/-- The copy of a name into the array. -/
def nameCopy (threadId : BitVec 64) (name : List UInt8) : Copy :=
  ⟨tmpSize, (threadHead threadId).length, (threadHead threadId).length + name.length⟩

/-- The bracket, the tab and the terminator behind it. -/
def closingCopy (threadId : BitVec 64) (name : List UInt8) : Copy :=
  ⟨tmpSize, (nameCopy threadId name).stop, (nameCopy threadId name).stop + 3⟩

/-- What `insert_thread_info` copies: into the array, when the text is made, and into the vector. -/
structure ThreadCopies where
  tmp : Option (Copy × Copy)
  content : Option Copy

/-- The part of `insert_thread_info` that looks the text up, or makes it. -/
def findThreadText (data : List UInt8) (head : RecordHeader) (l : Layout) :
    Option (ThreadText × Layout × Option (Copy × Copy)) :=
  let threadId := BitVec.ofNat 64 head.logThreadId
  match l.threadNamesCache threadId with
  | some value => some (value, l, none)
  | none =>
    (getThreadName data head).bind fun name =>
      if h : name.length ≤ 255 then
        let value := threadText threadId name h
        some (value, { l with threadNamesCache := Function.update l.threadNamesCache threadId (some value) },
          some (nameCopy threadId name, closingCopy threadId name))
      else none

/-- `insert_thread_info`. -/
def insertThreadInfo (data : List UInt8) (head : RecordHeader) (l : Layout) : Option (Layout × ThreadCopies) :=
  (findThreadText data head l).map fun (value, l, tmp) =>
    if value.val = [] then (l, ⟨tmp, none⟩)
    else
      let l := l.expandBy value.val.length
      (l.append value.val, ⟨tmp, some ⟨l.size, l.cursor, l.cursor + value.val.length⟩⟩)

/-- `kLevelText`. -/
def levelText : List (List UInt8) := ["[V]", "[D]", "[I]", "[W]", "[E]", "[F]"].map text

/-- What follows the thread in `layout_prefix`. -/
def insertLevelAndCategory (categoriesNameArray : List (List UInt8)) (head : RecordHeader) (l : Layout) :
    LayoutResult × Layout :=
  match levelText[head.level.toNat]? with
  | none => (.parseError, l)
  | some levelStr =>
    let l := (l.insertStrUtf8 levelStr).insertChar (ascii '\t')
    match categoriesNameArray[head.categoryIdx]? with
    | none => (.parseError, l)
    | some [] => (.finished, l)
    | some categoriesStr =>
      (.finished, ((l.insertChar (ascii '[')).insertStrUtf8 categoriesStr).insertStrUtf8 (text "]\t"))

/-- What `do_layout` leaves: the layout, the time zone, its result, and the copies of the name of the
thread. -/
structure Outcome where
  layout : Layout
  zone : TimeZone
  result : LayoutResult
  copies : ThreadCopies

/-- `do_layout`, with so many turns for the loop over the format text. -/
def doLayout (single double : FloatOps) (categoriesNameArray : List (List UInt8)) (data : List UInt8)
    (fuel : ℕ) (zone : TimeZone) (l : Layout) : Option Outcome :=
  (getLogHead data).bind fun head =>
    let l := expandFormatContentBuffSize 1024 { l with cursor := 0 }
    let (zone, l) := insertTime zone head l
    (insertThreadInfo data head l).bind fun (l, copies) =>
      match insertLevelAndCategory categoriesNameArray head l with
      | (.parseError, l) => some ⟨l, zone, .parseError, copies⟩
      | (.finished, l) =>
        (pythonStyleFormatContent single double data head fuel l).map fun l => ⟨l, zone, .finished, copies⟩

end Layout

end QLog
