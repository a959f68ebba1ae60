import QLog.Record.LogEntry

/-!
# Writing a record

`doLog` is the public entry point: it measures the format text and the arguments, `logWriteBegin`
allocates the chunk and writes the header, the format text and the slots of the arguments follow, and
`logWriteFinish` adds the extension header with the thread name. The chunk is the memory from address
0 on, with any contents before.

An `Entry` is what a record stands for, and `Holds` says that the bytes of a record are those of an
entry. `doLog` writes a record that holds the entry of its arguments (`doLog_holds`), and a record that
holds an entry is valid and shows its arguments (`Holds.validate`, `Holds.walkArgs`).
-/

namespace QLog.Record

open Bytes

/-- `log_api_thread_info_tls_type`. -/
structure ThreadInfo where
  threadId : BitVec 64
  name : List UInt8
  name_le : name.length ≤ 16

/-- The thread-local information, filled on the first call. -/
def ThreadInfo.current (threadId : BitVec 64) (name : List UInt8) : ThreadInfo :=
  ⟨threadId, name.take 16, List.length_take_le 16 name⟩

/-- `log_write_begin` after the allocation: the chunk and its length. -/
def logWriteBegin (hash : List UInt8 → BitVec 64) (thread : ThreadInfo) (epochMs : BitVec 64)
    (logLevel : UInt8) (categoryIndex : BitVec 32) (formatStringType : ArgumentTag)
    (formatStrBytesLen : ℕ) (formatStrData : Option (List UInt8)) (argsDataBytesLen : ℕ) (m : Mem) :
    Mem × ℕ :=
  let lengthWithoutExtInfo :=
    (recordHeaderSize + align4 formatStrBytesLen + argsDataBytesLen) % 2 ^ 32
  let extInfoLength := (recordExtHeaderSize + thread.name.length) % 2 ^ 32
  let totalLength := (lengthWithoutExtInfo + extInfoLength) % 2 ^ 32
  let m := m.store 0 8 epochMs.toNat
  let m := m.store 8 4 lengthWithoutExtInfo
  let m := m.poke 33 logLevel
  let m := m.store 12 4 categoryIndex.toNat
  let m := m.poke 32 formatStringType.toByte
  let m := m.store 16 8 thread.threadId.toNat
  let m := m.store 36 4 formatStrBytesLen
  let m := m.store 24 8 0
  match formatStrData with
  | none => (m, totalLength)
  | some format =>
    let format := format.take formatStrBytesLen
    ((m.store 24 8 (hash format).toNat).write recordHeaderSize format, totalLength)

/-- `log_write_finish`. -/
def logWriteFinish (thread : ThreadInfo) (m : Mem) : Mem :=
  let extInfo := m.load 8 4
  (m.poke extInfo (UInt8.ofNat thread.name.length)).write (extInfo + recordExtHeaderSize) thread.name

/-- The pointer to the format text, when it can be copied as it is. -/
def StringArg.formatDataPtr : StringArg → Option (List UInt8)
  | .text .four _ => none
  | .text _ t => some (codeBytes (getStringSource t).data)
  | .custom _ _ _ => none

/-- The format text and the stack trace, when they were not copied with the header. -/
def fillFormat (format : StringArg) (formatDataPtr : Option (List UInt8)) (formatSize : ℕ)
    (stackBytes : List UInt8) (m : Mem) : Option Mem :=
  match formatDataPtr with
  | some _ => some m
  | none =>
    (typeCopy false (.string format) m (recordHeaderSize - 4) (formatSize + 4)).map fun m : Mem =>
      (m.write (recordHeaderSize + formatSize) stackBytes).store (recordHeaderSize - 4) 4
        ((formatSize + stackBytes.length) % 2 ^ 32)

/-- `do_log`, with the text of the stack trace when one is printed. A failed assertion has no result. -/
def doLog (hash : List UInt8 → BitVec 64) (thread : ThreadInfo) (epochMs : BitVec 64) (level : UInt8)
    (categoryIndex : BitVec 32) (format : StringArg) (stack : Option (List UInt8)) (args : List Arg)
    (m : Mem) : Option (List UInt8) :=
  let stackBytes := stack.getD []
  format.storageDataSize.bind fun formatSize =>
    (makeSizeSeq args).bind fun argsSizeSeq =>
      let totalFormatDataSize := formatSize + stackBytes.length
      let formatDataPtr := if stack.isSome then none else format.formatDataPtr
      let (m, totalLength) := logWriteBegin hash thread epochMs level categoryIndex format.tag
        (totalFormatDataSize % 2 ^ 32) formatDataPtr (getTotal argsSizeSeq % 2 ^ 32) m
      (fillFormat format formatDataPtr formatSize stackBytes m).bind fun m =>
        (fillArguments m (recordHeaderSize + align4 totalFormatDataSize) argsSizeSeq args).map fun m =>
          (logWriteFinish thread m).slice 0 totalLength

/-! ## Entries -/

/-- What a record stands for. -/
structure Entry where
  timestampEpoch : BitVec 64
  level : UInt8
  categoryIdx : BitVec 32
  formatType : ArgumentTag
  format : List UInt8
  formatHash : BitVec 64
  logThreadId : BitVec 64
  args : List (ArgumentTag × List UInt8)
  threadName : List UInt8

/-- The arguments of a record, one after the other from `p` to the extension header. -/
inductive ArgsAt (data : List UInt8) (ext : ℕ) : ℕ → List (ArgumentTag × List UInt8) → Prop
  | nil : ArgsAt data ext ext []
  | cons {p step : ℕ} {tag : ArgumentTag} {value : List UInt8}
      {rest : List (ArgumentTag × List UInt8)} (hat : ArgAt data p tag step) (hle : p + step ≤ ext)
      (hvalue : readValue data p tag = some value) (hrest : ArgsAt data ext (p + step) rest) :
      ArgsAt data ext p ((tag, value) :: rest)

/-- The bytes of a record are those of an entry. -/
structure Holds (data : List UInt8) (e : Entry) : Prop where
  head : getLogHead data = some ⟨e.timestampEpoch.toNat, data.length - 1 - e.threadName.length,
    e.categoryIdx.toNat, e.logThreadId.toNat, e.formatHash.toNat, e.formatType.toByte, e.level,
    e.format.length⟩
  formatType : e.formatType.IsString
  format : readBytes data recordHeaderSize e.format.length = some e.format
  args : ArgsAt data (data.length - 1 - e.threadName.length)
    (recordHeaderSize + align4 e.format.length) e.args
  nameLen : data[data.length - 1 - e.threadName.length]? = some (UInt8.ofNat e.threadName.length)
  threadName : readBytes data (data.length - e.threadName.length) e.threadName.length = some e.threadName
  name_le : e.threadName.length ≤ 16
  length_lt : data.length < 2 ^ 32

theorem ArgsAt.le {data : List UInt8} {ext p : ℕ} {args : List (ArgumentTag × List UInt8)}
    (h : ArgsAt data ext p args) : p + 4 * args.length ≤ ext := by
  induction h with
  | nil => exact le_rfl
  | cons hat hle hvalue hrest ih =>
    have := hat.four_le
    rw [List.length_cons]
    omega

/-- There is no argument, or there is room for one. -/
theorem ArgsAt.eq_or_four_le {data : List UInt8} {ext p : ℕ} {args : List (ArgumentTag × List UInt8)}
    (h : ArgsAt data ext p args) : p = ext ∨ p + 4 ≤ ext := by
  cases h with
  | nil => exact .inl rfl
  | cons hat hle _ _ => exact .inr ((Nat.add_le_add_left hat.four_le p).trans hle)

/-- **The loop of `validate`** accepts arguments. -/
theorem ArgsAt.validateLoop {data : List UInt8} {ext p fuel : ℕ} {args : List (ArgumentTag × List UInt8)}
    (h : ArgsAt data ext p args) (hfuel : args.length < fuel) :
    validateLoop data ext fuel p = some true := by
  induction h generalizing fuel with
  | nil =>
    obtain ⟨fuel, rfl⟩ := Nat.exists_eq_succ_of_ne_zero (show fuel ≠ 0 by omega)
    rw [Record.validateLoop, if_neg (Nat.lt_irrefl _), decide_eq_true rfl]
  | cons hat hle hvalue hrest ih =>
    obtain ⟨fuel, rfl⟩ := Nat.exists_eq_succ_of_ne_zero (show fuel ≠ 0 by omega)
    have hfour := hat.four_le
    rw [List.length_cons] at hfuel
    rw [Record.validateLoop, if_pos (by omega), if_neg (by omega), hat.validateStep (by omega),
      Option.bind_some]
    simp only
    rw [if_neg (by omega)]
    exact ih (by omega)

theorem ArgAt.tag {data : List UInt8} {p step : ℕ} {tag : ArgumentTag} (h : ArgAt data p tag step) :
    data[p]? = some tag.toByte := by
  cases h with
  | fixed htag _ => exact htag
  | string htag _ _ => exact htag

theorem ArgsAt.walkLoop {data : List UInt8} {ext p fuel : ℕ} {args : List (ArgumentTag × List UInt8)}
    (h : ArgsAt data ext p args) (hfuel : args.length < fuel) :
    walkLoop data ext fuel p = some args := by
  induction h generalizing fuel with
  | nil =>
    obtain ⟨fuel, rfl⟩ := Nat.exists_eq_succ_of_ne_zero (show fuel ≠ 0 by omega)
    rw [Record.walkLoop, if_neg (Nat.lt_irrefl _)]
  | cons hat hle hvalue hrest ih =>
    obtain ⟨fuel, rfl⟩ := Nat.exists_eq_succ_of_ne_zero (show fuel ≠ 0 by omega)
    have hfour := hat.four_le
    rw [List.length_cons] at hfuel
    rw [Record.walkLoop, if_pos (by omega), hat.tag, Option.bind_some, ArgumentTag.ofByte?_toByte]
    change (readValue data _ _).bind _ = _
    rw [hvalue, Option.bind_some, hat.validateStep (by omega)]
    change (Record.walkLoop data ext fuel _).bind _ = _
    rw [ih (by omega)]
    rfl

/-- An argument inside the record has a value. -/
theorem ArgAt.exists_value {data : List UInt8} {p step : ℕ} {tag : ArgumentTag} (h : ArgAt data p tag step)
    (hle : p + step ≤ data.length) : ∃ value, readValue data p tag = some value := by
  cases h with
  | fixed htag hstep =>
    have hsize : tag.offset ≠ 8 ∧ tag.offset + tag.valueSize ≤ step := by
      cases tag <;> cases hstep <;> decide
    refine ⟨sub data (p + tag.offset) tag.valueSize, ?_⟩
    rw [readValue, if_neg hsize.1]
    exact if_pos (by omega)
  | @string n htag hs hn =>
    have hoff : tag.offset = 8 := by rcases hs with rfl | rfl <;> rfl
    have hpad := le_align4 n
    refine ⟨sub data (p + 8) n, ?_⟩
    rw [readValue, if_pos hoff, hn, Option.bind_some]
    exact if_pos (by omega)

/-- **What the loop of `validate` accepts** are arguments. -/
theorem exists_argsAt {data : List UInt8} {ext fuel p : ℕ} (hext : ext ≤ data.length)
    (h : validateLoop data ext fuel p = some true) : ∃ args, ArgsAt data ext p args := by
  induction fuel generalizing p with
  | zero => cases h
  | succ fuel ih =>
    rw [validateLoop] at h
    split at h
    · split at h
      · cases h
      · rw [Option.bind_eq_some_iff] at h
        obtain ⟨step, hstep, h⟩ := h
        cases step with
        | none => cases h
        | some step =>
          simp only at h
          split at h
          · cases h
          · obtain ⟨tag, hat⟩ := validateStep_eq_some hstep
            obtain ⟨args, hargs⟩ := ih h
            obtain ⟨value, hvalue⟩ := hat.exists_value (by omega)
            exact ⟨_, .cons hat (by omega) hvalue hargs⟩
    · obtain rfl : p = ext := of_decide_eq_true (Option.some.inj h)
      exact ⟨[], .nil⟩

namespace Holds

variable {data : List UInt8} {e : Entry}

/-- The sizes of the parts. -/
theorem bounds (h : Holds data e) :
    recordHeaderSize + align4 e.format.length + 4 * e.args.length + 1 + e.threadName.length ≤
      data.length := by
  have hargs := h.args.le
  have hlt := (List.getElem?_eq_some_iff.1 h.nameLen).1
  have hhead : recordHeaderSize = 40 := rfl
  omega

/-- **A record that holds an entry is valid.** -/
theorem validate (h : Holds data e) : validate data = some true := by
  have hb := h.bounds
  have hname := h.name_le
  have hext : recordExtHeaderSize = 1 := rfl
  have hheader : recordHeaderSize = 40 := rfl
  have hofNat : (UInt8.ofNat e.threadName.length).toNat = e.threadName.length := by
    rw [UInt8.toNat_ofNat']
    omega
  have hloop := h.args.validateLoop (show e.args.length < data.length by omega)
  rw [Record.validate, if_neg (by omega), h.head, Option.bind_some]
  have hargs : validateArgs data (recordHeaderSize + align4 e.format.length)
      (data.length - 1 - e.threadName.length) = some true := by
    rw [validateArgs, if_neg (by omega), h.nameLen, Option.bind_some, hofNat, if_neg (by omega), hloop]
  simp only [ArgumentTag.ofByte?_toByte]
  rcases h.formatType with hf | hf
  all_goals
    rw [hf]
    exact hargs

/-- **The visit of a record that holds an entry** shows its arguments. -/
theorem walkArgs (h : Holds data e) : walkArgs data = some e.args := by
  have hb := h.bounds
  rw [Record.walkArgs, h.head, Option.bind_some]
  exact h.args.walkLoop (by omega)

end Holds

end QLog.Record
