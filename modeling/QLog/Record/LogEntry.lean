import QLog.Record.Argument

/-!
# Records and their validation

A record is a header of 40 bytes, the format text, the slots of the arguments, and the extension
header with the thread name. `validate` is the check of `LogEntryHandle`, and `walkArgs` visits the
arguments with its steps. Reads are partial: one outside the record has no result.
-/

namespace QLog.Record

open Bytes

/-- `sizeof(RecordHeader)`. -/
def recordHeaderSize : ℕ := 40

/-- `sizeof(RecordExtHeader)`. -/
def recordExtHeaderSize : ℕ := 1

/-- `RecordHeader`. -/
structure RecordHeader where
  timestampEpoch : ℕ
  extInfoOffset : ℕ
  categoryIdx : ℕ
  logThreadId : ℕ
  formatHash : ℕ
  logFormatStrType : UInt8
  level : UInt8
  logFormatDataLen : ℕ

/-- The header at the start of the record. -/
def getLogHead (data : List UInt8) : Option RecordHeader := do
  let timestampEpoch ← readLe data 0 8
  let extInfoOffset ← readLe data 8 4
  let categoryIdx ← readLe data 12 4
  let logThreadId ← readLe data 16 8
  let formatHash ← readLe data 24 8
  let logFormatStrType ← data[32]?
  let level ← data[33]?
  let logFormatDataLen ← readLe data 36 4
  return ⟨timestampEpoch, extInfoOffset, categoryIdx, logThreadId, formatHash, logFormatStrType, level,
    logFormatDataLen⟩

/-- `get_log_args_offset`. -/
def RecordHeader.logArgsOffset (head : RecordHeader) : ℕ :=
  recordHeaderSize + align4 head.logFormatDataLen

/-- The switch of `validate`: the step over the argument at `p`, none for a wrong tag or length. -/
def validateStep (data : List UInt8) (p remaining : ℕ) : Option (Option ℕ) :=
  data[p]?.bind fun b =>
    match ArgumentTag.ofByte? b with
    | some .nullType | some .boolType | some .charType | some .char16Type | some .int8Type
    | some .uint8Type | some .int16Type | some .uint16Type => some (some 4)
    | some .char32Type | some .int32Type | some .uint32Type | some .floatType => some (some 8)
    | some .pointerType | some .int64Type | some .uint64Type | some .doubleType => some (some 12)
    | some .stringUtf8Type | some .stringUtf16Type =>
      if remaining < 8 then some none
      else (readLe data (p + 4) 4).map fun n => some (8 + align4 n)
    | _ => some none

/-- The loop of `validate`, for so many turns. -/
def validateLoop (data : List UInt8) (ext : ℕ) : ℕ → ℕ → Option Bool
  | 0, _ => none
  | fuel + 1, cursor =>
    if cursor < ext then
      if ext - cursor < 4 then some false
      else
        (validateStep data cursor (ext - cursor)).bind fun
          | none => some false
          | some step =>
            if ext - cursor < step then some false else validateLoop data ext fuel (cursor + step)
    else some (cursor = ext)

/-- The rest of `validate`, when the arguments begin at `argsBegin`. -/
def validateArgs (data : List UInt8) (argsBegin ext : ℕ) : Option Bool :=
  if data.length < argsBegin ∨ ext < argsBegin ∨ data.length < ext + 1 then some false
  else
    data[ext]?.bind fun nameLen =>
      if data.length < ext + recordExtHeaderSize + nameLen.toNat then some false
      else validateLoop data ext data.length argsBegin

/-- `LogEntryHandle::validate`. -/
def validate (data : List UInt8) : Option Bool :=
  if data.length < recordHeaderSize + recordExtHeaderSize then some false
  else
    (getLogHead data).bind fun head =>
      match ArgumentTag.ofByte? head.logFormatStrType with
      | some .stringUtf8Type | some .stringUtf16Type | some .stringUtf32Type =>
        validateArgs data head.logArgsOffset head.extInfoOffset
      | _ => some false

/-! ## Visiting the arguments -/

/-- The length of the value of an argument that is not a string. -/
def ArgumentTag.valueSize : ArgumentTag → ℕ
  | .boolType | .charType | .int8Type | .uint8Type => 1
  | .char16Type | .int16Type | .uint16Type => 2
  | .char32Type | .int32Type | .uint32Type | .floatType => 4
  | .pointerType | .int64Type | .uint64Type | .doubleType => 8
  | _ => 0

/-- The `n` bytes at `pos`, which are all there. -/
def readBytes (data : List UInt8) (pos n : ℕ) : Option (List UInt8) :=
  if pos + n ≤ data.length then some (sub data pos n) else none

/-- The value of the argument at `p`. -/
def readValue (data : List UInt8) (p : ℕ) (tag : ArgumentTag) : Option (List UInt8) :=
  if tag.offset = 8 then (readLe data (p + 4) 4).bind fun n => readBytes data (p + 8) n
  else readBytes data (p + tag.offset) tag.valueSize

/-- The arguments with their tags, visited with the steps of `validate`. -/
def walkLoop (data : List UInt8) (ext : ℕ) : ℕ → ℕ → Option (List (ArgumentTag × List UInt8))
  | 0, _ => none
  | fuel + 1, cursor =>
    if cursor < ext then do
      let tag ← data[cursor]?.bind ArgumentTag.ofByte?
      let value ← readValue data cursor tag
      let step ← (validateStep data cursor (ext - cursor)).join
      let rest ← walkLoop data ext fuel (cursor + step)
      return (tag, value) :: rest
    else some []

/-- The arguments of a record. -/
def walkArgs (data : List UInt8) : Option (List (ArgumentTag × List UInt8)) :=
  (getLogHead data).bind fun head => walkLoop data head.extInfoOffset data.length head.logArgsOffset

/-! ## Steps -/

/-- The step over an argument that is not a string. -/
def ArgumentTag.fixedStep? : ArgumentTag → Option ℕ
  | .nullType | .boolType | .charType | .char16Type | .int8Type | .uint8Type | .int16Type
  | .uint16Type => some 4
  | .char32Type | .int32Type | .uint32Type | .floatType => some 8
  | .pointerType | .int64Type | .uint64Type | .doubleType => some 12
  | _ => none

/-- The tags of strings in a record. -/
def ArgumentTag.IsString (t : ArgumentTag) : Prop := t = .stringUtf8Type ∨ t = .stringUtf16Type

/-- An argument at `p` with its step. -/
inductive ArgAt (data : List UInt8) (p : ℕ) : ArgumentTag → ℕ → Prop
  | fixed {tag : ArgumentTag} {step : ℕ} (htag : data[p]? = some tag.toByte)
      (hstep : tag.fixedStep? = some step) : ArgAt data p tag step
  | string {tag : ArgumentTag} {n : ℕ} (htag : data[p]? = some tag.toByte) (hs : tag.IsString)
      (hn : readLe data (p + 4) 4 = some n) : ArgAt data p tag (8 + align4 n)

theorem ArgumentTag.toByte_ofByte? {b : UInt8} {t : ArgumentTag} (h : ofByte? b = some t) :
    t.toByte = b := by
  have hb : b = UInt8.ofNat b.toNat := UInt8.ofNat_toNat.symm
  unfold ofByte? at h
  rw [hb]
  generalize b.toNat = n at h
  rcases Nat.lt_or_ge n 21 with hlt | hge
  · interval_cases n <;> cases h <;> rfl
  · rw [List.getElem?_eq_none hge] at h
    cases h

/-- **What a step of `validate` accepts.** -/
theorem validateStep_eq_some {data : List UInt8} {p remaining step : ℕ}
    (h : validateStep data p remaining = some (some step)) : ∃ tag, ArgAt data p tag step := by
  rw [validateStep, Option.bind_eq_some_iff] at h
  obtain ⟨b, hb, h⟩ := h
  cases htag : ArgumentTag.ofByte? b with
  | none =>
    rw [htag] at h
    cases h
  | some tag =>
    rw [htag] at h
    rw [← ArgumentTag.toByte_ofByte? htag] at hb
    refine ⟨tag, ?_⟩
    cases tag
    case stringUtf8Type | stringUtf16Type =>
      simp only at h
      split at h
      · cases h
      · rw [Option.map_eq_some_iff] at h
        obtain ⟨n, hn, h⟩ := h
        obtain rfl := Option.some.inj h
        first
          | exact .string hb (.inl rfl) hn
          | exact .string hb (.inr rfl) hn
    all_goals first
      | (obtain rfl := Option.some.inj (Option.some.inj h); exact .fixed hb rfl)
      | cases h

theorem ArgAt.validateStep {data : List UInt8} {p remaining step : ℕ} {tag : ArgumentTag}
    (h : ArgAt data p tag step) (hrem : step ≤ remaining) :
    validateStep data p remaining = some (some step) := by
  cases h with
  | fixed htag hstep =>
    rw [Record.validateStep, htag, Option.bind_some, ArgumentTag.ofByte?_toByte]
    cases tag <;> cases hstep <;> rfl
  | string htag hs hn =>
    rw [Record.validateStep, htag, Option.bind_some, ArgumentTag.ofByte?_toByte]
    rcases hs with rfl | rfl
    all_goals
      simp only
      rw [if_neg (by omega), hn]
      rfl

theorem ArgAt.four_le {data : List UInt8} {p step : ℕ} {tag : ArgumentTag} (h : ArgAt data p tag step) :
    4 ≤ step := by
  cases h with
  | fixed htag hstep => cases tag <;> cases hstep <;> decide
  | string htag hs hn => omega

end QLog.Record
