import QLog.Record.Writer

/-!
# Assembled records

The record that `doLog` writes holds the entry of its arguments: the header fields, the format text, the
slots and the thread name are written to disjoint parts of the chunk.
-/

namespace QLog.Record

open Bytes

/-! ## The header -/

/-- The fields of a header in memory. -/
structure HeaderAt (m : Mem) (h : RecordHeader) : Prop where
  timestampEpoch : m.load 0 8 = h.timestampEpoch
  extInfoOffset : m.load 8 4 = h.extInfoOffset
  categoryIdx : m.load 12 4 = h.categoryIdx
  logThreadId : m.load 16 8 = h.logThreadId
  formatHash : m.load 24 8 = h.formatHash
  logFormatStrType : m 32 = h.logFormatStrType
  level : m 33 = h.level
  logFormatDataLen : m.load 36 4 = h.logFormatDataLen

section Header

variable {m m' : Mem} {h : RecordHeader}

theorem HeaderAt.congr (hm : HeaderAt m h) (heq : ∀ x < 40, m' x = m x) : HeaderAt m' h := by
  have hload : ∀ a k, a + k ≤ 40 → m'.load a k = m.load a k := fun a k hk =>
    Mem.load_congr fun x hx hx' => heq x (by omega)
  exact ⟨(hload 0 8 (by omega)).trans hm.timestampEpoch, (hload 8 4 (by omega)).trans hm.extInfoOffset,
    (hload 12 4 (by omega)).trans hm.categoryIdx, (hload 16 8 (by omega)).trans hm.logThreadId,
    (hload 24 8 (by omega)).trans hm.formatHash, (heq 32 (by omega)).trans hm.logFormatStrType,
    (heq 33 (by omega)).trans hm.level, (hload 36 4 (by omega)).trans hm.logFormatDataLen⟩

/-- A new length of the format text, and anything behind the header. -/
theorem HeaderAt.setLength (hm : HeaderAt m h) (heq : ∀ x < 36, m' x = m x) {n : ℕ}
    (hlen : m'.load 36 4 = n) : HeaderAt m' { h with logFormatDataLen := n } := by
  have hload : ∀ a k, a + k ≤ 36 → m'.load a k = m.load a k := fun a k hk =>
    Mem.load_congr fun x hx hx' => heq x (by omega)
  exact ⟨(hload 0 8 (by omega)).trans hm.timestampEpoch, (hload 8 4 (by omega)).trans hm.extInfoOffset,
    (hload 12 4 (by omega)).trans hm.categoryIdx, (hload 16 8 (by omega)).trans hm.logThreadId,
    (hload 24 8 (by omega)).trans hm.formatHash, (heq 32 (by omega)).trans hm.logFormatStrType,
    (heq 33 (by omega)).trans hm.level, hlen⟩

theorem HeaderAt.setHash (hm : HeaderAt m h) {v : ℕ} (hv : v < 256 ^ 8) :
    HeaderAt (m.store 24 8 v) { h with formatHash := v } := by
  have hload : ∀ a k, a + k ≤ 24 ∨ 32 ≤ a → (m.store 24 8 v).load a k = m.load a k := fun a k hk =>
    Mem.load_store_of_disjoint m (by omega)
  have happ : ∀ x, 32 ≤ x → m.store 24 8 v x = m x := fun x hx =>
    Mem.store_apply_of_not_mem m v (by omega)
  exact ⟨(hload 0 8 (by omega)).trans hm.timestampEpoch, (hload 8 4 (by omega)).trans hm.extInfoOffset,
    (hload 12 4 (by omega)).trans hm.categoryIdx, (hload 16 8 (by omega)).trans hm.logThreadId,
    Mem.load_store m 24 hv, (happ 32 (by omega)).trans hm.logFormatStrType,
    (happ 33 (by omega)).trans hm.level, (hload 36 4 (by omega)).trans hm.logFormatDataLen⟩

/-- The header written field by field. -/
theorem headerAt_stores (m : Mem) {epoch ext cat tid n : ℕ} (tag level : UInt8)
    (hepoch : epoch < 256 ^ 8) (hext : ext < 256 ^ 4) (hcat : cat < 256 ^ 4) (htid : tid < 256 ^ 8)
    (hn : n < 256 ^ 4) :
    HeaderAt ((((((((m.store 0 8 epoch).store 8 4 ext).poke 33 level).store 12 4 cat).poke 32 tag).store
      16 8 tid).store 36 4 n).store 24 8 0) ⟨epoch, ext, cat, tid, 0, tag, level, n⟩ := by
  have hpoke : ∀ (m : Mem) (b : UInt8) (x a k : ℕ), x < a ∨ a + k ≤ x →
      (m.poke x b).load a k = m.load a k := fun m b x a k hx =>
    Mem.load_congr fun y hy hy' => Mem.poke_apply_of_ne m b (by omega)
  refine ⟨?_, ?_, ?_, ?_, Mem.load_store _ _ (by norm_num), ?_, ?_, ?_⟩
  · rw [Mem.load_store_of_disjoint _ (by omega), Mem.load_store_of_disjoint _ (by omega),
      Mem.load_store_of_disjoint _ (by omega), hpoke _ _ _ _ _ (by omega),
      Mem.load_store_of_disjoint _ (by omega), hpoke _ _ _ _ _ (by omega),
      Mem.load_store_of_disjoint _ (by omega), Mem.load_store _ _ hepoch]
  · rw [Mem.load_store_of_disjoint _ (by omega), Mem.load_store_of_disjoint _ (by omega),
      Mem.load_store_of_disjoint _ (by omega), hpoke _ _ _ _ _ (by omega),
      Mem.load_store_of_disjoint _ (by omega), hpoke _ _ _ _ _ (by omega), Mem.load_store _ _ hext]
  · rw [Mem.load_store_of_disjoint _ (by omega), Mem.load_store_of_disjoint _ (by omega),
      Mem.load_store_of_disjoint _ (by omega), hpoke _ _ _ _ _ (by omega), Mem.load_store _ _ hcat]
  · rw [Mem.load_store_of_disjoint _ (by omega), Mem.load_store_of_disjoint _ (by omega),
      Mem.load_store _ _ htid]
  · rw [Mem.store_apply_of_not_mem _ _ (by omega), Mem.store_apply_of_not_mem _ _ (by omega),
      Mem.store_apply_of_not_mem _ _ (by omega), Mem.poke_self]
  · rw [Mem.store_apply_of_not_mem _ _ (by omega), Mem.store_apply_of_not_mem _ _ (by omega),
      Mem.store_apply_of_not_mem _ _ (by omega), Mem.poke_apply_of_ne _ _ (by omega),
      Mem.store_apply_of_not_mem _ _ (by omega), Mem.poke_self]
  · rw [Mem.load_store_of_disjoint _ (by omega), Mem.load_store _ _ hn]

theorem HeaderAt.getLogHead (hm : HeaderAt m h) {n : ℕ} (hn : 40 ≤ n) :
    getLogHead (m.slice 0 n) = some h := by
  have hread : ∀ i k, i + k ≤ 40 → readLe (m.slice 0 n) i k = some (m.load i k) := fun i k hk => by
    rw [readLe_slice m (by omega), Nat.zero_add]
  have hbyte : ∀ i, i < 40 → (m.slice 0 n)[i]? = some (m i) := fun i hi => by
    rw [getElem?_slice m (by omega), Nat.zero_add]
  rw [Record.getLogHead, hread 0 8 (by omega), hread 8 4 (by omega), hread 12 4 (by omega),
    hread 16 8 (by omega), hread 24 8 (by omega), hbyte 32 (by omega), hbyte 33 (by omega),
    hread 36 4 (by omega), hm.timestampEpoch, hm.extInfoOffset, hm.categoryIdx, hm.logThreadId,
    hm.formatHash, hm.logFormatStrType, hm.level, hm.logFormatDataLen]
  rfl

end Header

/-! ## Slots as arguments -/

theorem Pod.step (t : Pod) : t.tag.fixedStep? = some (align4 (t.tag.offset + t.size)) ∧
    t.tag.valueSize = t.size ∧ t.tag.offset ≠ 8 := by
  cases t <;> decide

/-- **A slot is an argument of the record.** -/
theorem Slot.argAt {m : Mem} {p n : ℕ} {v : Arg} (h : Slot m p v) (hn : p + align4 v.size ≤ n) :
    ArgAt (m.slice 0 n) p v.tag (align4 v.size) ∧ readValue (m.slice 0 n) p v.tag = some v.value := by
  have hle := le_align4 v.size
  have hoff := v.two_le_offset
  have hsize : v.size = v.tag.offset + v.value.length := rfl
  have htag : (m.slice 0 n)[p]? = some v.tag.toByte := by
    rw [getElem?_slice m (by omega), Nat.zero_add, h.tag]
  have hbytes : readBytes (m.slice 0 n) (p + v.tag.offset) v.value.length = some v.value := by
    rw [readBytes, if_pos (by rw [Mem.length_slice]; omega), sub_slice m (by omega), Nat.zero_add,
      h.value]
  rcases v with _ | address | ⟨t, bits⟩ | s
  · exact ⟨.fixed htag rfl, hbytes⟩
  · have h12 : (Arg.pointer address).size = 12 := by
      rw [hsize, Arg.value, length_toLe]
      rfl
    exact ⟨by rw [h12]; exact .fixed htag rfl, hbytes⟩
  · obtain ⟨hstep, hval, hne⟩ := t.step
    have hlen : (Arg.pod t bits).value.length = t.size := length_toLe _ _
    rw [hlen] at hbytes hsize
    refine ⟨.fixed htag (by rw [hsize]; exact hstep), ?_⟩
    change readValue _ p t.tag = _
    rw [readValue, if_neg hne, hval]
    exact hbytes
  · have h8 : (Arg.string s).tag.offset = 8 := s.offset_tag
    have hlen : readLe (m.slice 0 n) (p + 4) 4 = some (Arg.string s).value.length := by
      rw [readLe_slice m (by omega), Nat.zero_add, h.length h8]
    have hstr : (Arg.string s).tag.IsString := by
      rcases s with ⟨_ | _ | _, t⟩ | ⟨_ | _ | _, hw, cs⟩
      · exact .inl rfl
      · exact .inr rfl
      · exact .inr rfl
      · exact .inl rfl
      · exact .inr rfl
      · exact .inr rfl
    refine ⟨?_, ?_⟩
    · rw [hsize, h8, align4_add _ (by omega)]
      exact .string htag hstr hlen
    · rw [readValue, if_pos h8, hlen, Option.bind_some, ← h8]
      exact hbytes

/-- **The slots are the arguments of the record.** -/
theorem Slots.argsAt {m : Mem} {p n ext : ℕ} {vs : List Arg} (h : Slots m p vs)
    (hext : p + getTotal (vs.map Arg.size) = ext) (hn : ext ≤ n) :
    ArgsAt (m.slice 0 n) ext p (vs.map fun v => (v.tag, v.value)) := by
  induction vs generalizing p with
  | nil =>
    rw [List.map_nil, getTotal, Nat.add_zero] at hext
    rw [hext]
    exact .nil
  | cons v vs ih =>
    rw [List.map_cons, getTotal] at hext
    obtain ⟨hat, hvalue⟩ := h.1.argAt (show p + align4 v.size ≤ n by omega)
    exact .cons hat (by omega) hvalue (ih h.2 (by omega))

/-! ## The writer -/

section Writer

variable (hash : List UInt8 → BitVec 64) (thread : ThreadInfo) (epochMs : BitVec 64) (level : UInt8)
  (categoryIndex : BitVec 32)

/-- The format text of a record, with the stack trace. -/
def formatBytes (format : StringArg) (stack : Option (List UInt8)) : List UInt8 :=
  format.value ++ stack.getD []

/-- The length of a record. -/
def recordSize (format : StringArg) (stack : Option (List UInt8)) (args : List Arg) : ℕ :=
  recordHeaderSize + align4 (formatBytes format stack).length + getTotal (args.map Arg.size) +
    (recordExtHeaderSize + thread.name.length)

/-- The entry of a call. -/
def entryOf (format : StringArg) (stack : Option (List UInt8)) (args : List Arg) : Entry where
  timestampEpoch := epochMs
  level := level
  categoryIdx := categoryIndex
  formatType := format.tag
  format := formatBytes format stack
  formatHash := if stack.isSome ∨ format.formatDataPtr = none then 0 else hash format.value
  logThreadId := thread.threadId
  args := args.map fun v => (v.tag, v.value)
  threadName := thread.name

variable {hash thread epochMs level categoryIndex}

/-- The header that `logWriteBegin` writes. -/
theorem logWriteBegin_spec {tag : ArgumentTag} {n args : ℕ} {data : Option (List UInt8)} {m m' : Mem}
    {total : ℕ}
    (h : logWriteBegin hash thread epochMs level categoryIndex tag n data args m = (m', total))
    (hsize : recordHeaderSize + align4 n + args + (recordExtHeaderSize + thread.name.length) < 2 ^ 32)
    (hdata : ∀ format, data = some format → n ≤ format.length) :
    total = recordHeaderSize + align4 n + args + (recordExtHeaderSize + thread.name.length) ∧
      HeaderAt m' ⟨epochMs.toNat, recordHeaderSize + align4 n + args, categoryIndex.toNat,
        thread.threadId.toNat, ((data.map fun f => hash (f.take n)).getD 0).toNat, tag.toByte, level, n⟩ ∧
      ∀ format, data = some format → m'.slice recordHeaderSize n = format.take n := by
  have hn : n < 2 ^ 32 := by
    have := le_align4 n
    omega
  have hepoch : epochMs.toNat < 256 ^ 8 := epochMs.isLt
  have hcat : categoryIndex.toNat < 256 ^ 4 := categoryIndex.isLt
  have htid : thread.threadId.toNat < 256 ^ 8 := thread.threadId.isLt
  have hext : recordHeaderSize + align4 n + args < 2 ^ 32 := by omega
  have hheader := headerAt_stores m tag.toByte level hepoch hext hcat htid hn
  unfold logWriteBegin at h
  simp only at h
  rw [Nat.mod_eq_of_lt hext,
    Nat.mod_eq_of_lt (show recordExtHeaderSize + thread.name.length < 2 ^ 32 by omega),
    Nat.mod_eq_of_lt hsize] at h
  cases data with
  | none =>
    obtain ⟨rfl, rfl⟩ := Prod.mk.inj h
    exact ⟨rfl, hheader, fun _ hf => (by cases hf)⟩
  | some format =>
    obtain ⟨rfl, rfl⟩ := Prod.mk.inj h
    have hlen : (format.take n).length = n := List.length_take_of_le (hdata format rfl)
    refine ⟨rfl, ?_, fun f hf => ?_⟩
    · refine (hheader.setHash (hash (format.take n)).isLt).congr fun x hx => ?_
      exact Mem.write_apply_of_lt _ _ hx
    · obtain rfl := Option.some.inj hf
      have hslice : ∀ m : Mem, (m.write recordHeaderSize (format.take n)).slice recordHeaderSize n =
          format.take n := fun m => by
        have := Mem.slice_write m recordHeaderSize (format.take n)
        rwa [hlen] at this
      exact hslice _

/-- A record whose parts are in place. -/
theorem holds_of_parts {format : StringArg} {stack : Option (List UInt8)} {args : List Arg} {m : Mem}
    {h : ℕ} (hh : h = (entryOf hash thread epochMs level categoryIndex format stack args).formatHash.toNat)
    (hsize : recordSize thread format stack args < 2 ^ 32)
    (hhead : HeaderAt m ⟨epochMs.toNat,
      recordHeaderSize + align4 (formatBytes format stack).length + getTotal (args.map Arg.size),
      categoryIndex.toNat, thread.threadId.toNat, h, format.tag.toByte, level,
      (formatBytes format stack).length⟩)
    (hformat : m.slice recordHeaderSize (formatBytes format stack).length = formatBytes format stack)
    (hslots : Slots m (recordHeaderSize + align4 (formatBytes format stack).length) args) :
    Holds ((logWriteFinish thread m).slice 0 (recordSize thread format stack args))
      (entryOf hash thread epochMs level categoryIndex format stack args) := by
  have hsz : recordSize thread format stack args = recordHeaderSize +
    align4 (formatBytes format stack).length + getTotal (args.map Arg.size) +
      (1 + thread.name.length) := rfl
  have hle := le_align4 (formatBytes format stack).length
  have hname := thread.name_le
  have h40 : recordHeaderSize = 40 := rfl
  rw [logWriteFinish, hhead.extInfoOffset]
  simp only
  generalize hext : recordHeaderSize + align4 (formatBytes format stack).length +
    getTotal (args.map Arg.size) = ext at *
  have hlen : ∀ m : Mem, (m.slice 0 (recordSize thread format stack args)).length - 1 -
      thread.name.length = ext := fun m => by
    rw [Mem.length_slice]
    omega
  -- nothing before the extension header changes
  have hframe : ∀ x < ext, (m.poke ext (UInt8.ofNat thread.name.length)).write
      (ext + recordExtHeaderSize) thread.name x = m x := fun x hx => by
    rw [Mem.write_apply_of_lt _ _ (by omega), Mem.poke_apply_of_ne _ _ (by omega)]
  have hext40 : recordHeaderSize ≤ ext := by omega
  refine ⟨?_, ?_, ?_, ?_, ?_, ?_, hname, ?_⟩
  · rw [show (entryOf hash thread epochMs level categoryIndex format stack args).threadName =
      thread.name from rfl, hlen, ← hh]
    exact (hhead.congr fun x hx => hframe x (by omega)).getLogHead (by omega)
  · rcases format with ⟨_ | _ | _, t⟩ | ⟨_ | _ | _, hw, cs⟩
    · exact .inl rfl
    · exact .inr rfl
    · exact .inr rfl
    · exact .inl rfl
    · exact .inr rfl
    · exact .inr rfl
  · change readBytes _ _ (formatBytes format stack).length = some (formatBytes format stack)
    rw [readBytes, if_pos (by rw [Mem.length_slice]; omega), sub_slice _ (by omega), Nat.zero_add,
      Mem.slice_congr fun x _ hx => hframe x (by omega), hformat]
  · rw [show (entryOf hash thread epochMs level categoryIndex format stack args).threadName =
      thread.name from rfl, hlen]
    exact (hslots.congr fun x _ hx => hframe x (by omega)).argsAt hext (by omega)
  · rw [show (entryOf hash thread epochMs level categoryIndex format stack args).threadName =
      thread.name from rfl, hlen, getElem?_slice _ (by omega), Nat.zero_add,
      Mem.write_apply_of_lt _ _ (by change ext < ext + 1; omega), Mem.poke_self]
  · rw [show (entryOf hash thread epochMs level categoryIndex format stack args).threadName =
      thread.name from rfl, readBytes, if_pos (by rw [Mem.length_slice]; omega), Mem.length_slice,
      sub_slice _ (by omega), Nat.zero_add,
      show recordSize thread format stack args - thread.name.length = ext + recordExtHeaderSize by
        change _ = ext + 1
        omega]
    rw [Mem.slice_write]
  · rw [Mem.length_slice]
    exact hsize

theorem StringArg.take_formatDataPtr {format : StringArg} {data : List UInt8}
    (h : format.formatDataPtr = some data) :
    format.value.length ≤ data.length ∧ data.take format.value.length = format.value := by
  rcases format with ⟨w, t⟩ | ⟨w, hw, cs⟩
  · by_cases hw : w = .four
    · subst hw
      cases h
    · obtain rfl : codeBytes (getStringSource t).data = data := by
        cases w with
        | four => exact absurd rfl hw
        | one | two => exact Option.some.inj h
      obtain ⟨rest, limit, heq, -⟩ := getStringSource_eq t
      rw [heq, codeBytes_append, StringArg.value_of_ne hw]
      exact ⟨by rw [List.length_append]; omega, List.take_left' rfl⟩
  · cases h

theorem value_lt_of_recordSize {format : StringArg} {stack : Option (List UInt8)} {args : List Arg}
    (hsize : recordSize thread format stack args < 2 ^ 32) {v : Arg} (hv : v ∈ args) :
    v.value.length < 2 ^ 32 := by
  have := getTotal_ge hv
  have hv' : v.size = v.tag.offset + v.value.length := rfl
  rw [recordSize] at hsize
  omega

/-- A string without its tag. -/
theorem typeCopy_false (s : StringArg) (hs : s.value.length < 2 ^ 32) (m : Mem) (dst : ℕ) :
    typeCopy false (.string s) m dst (s.value.length + 4) =
      some ((m.store dst 4 s.value.length).write (dst + 4) s.value) := by
  rw [typeCopy]
  simp only [if_false, Bool.false_eq_true, Nat.add_zero, Nat.sub_zero]
  rw [if_neg (by omega), Nat.add_comm, s.typeCopy_eq hs]

/-- **The record of a call holds its entry.** -/
theorem doLog_holds {format : StringArg} {stack : Option (List UInt8)} {args : List Arg}
    (hsize : recordSize thread format stack args < 2 ^ 32) (m : Mem) :
    ∃ data, doLog hash thread epochMs level categoryIndex format stack args m = some data ∧
      data.length = recordSize thread format stack args ∧
      Holds data (entryOf hash thread epochMs level categoryIndex format stack args) := by
  have hsz : recordSize thread format stack args = recordHeaderSize +
    align4 (formatBytes format stack).length + getTotal (args.map Arg.size) +
      (recordExtHeaderSize + thread.name.length) := rfl
  have hle := le_align4 (formatBytes format stack).length
  have hflen : (formatBytes format stack).length = format.value.length + (stack.getD []).length :=
    List.length_append
  have hargs : ∀ v ∈ args, v.value.length < 2 ^ 32 := fun v hv => value_lt_of_recordSize hsize hv
  rw [doLog, storageDataSize_eq, Option.bind_some, makeSizeSeq_eq hargs, Option.bind_some]
  simp only
  rw [← hflen, Nat.mod_eq_of_lt (show (formatBytes format stack).length < 2 ^ 32 by omega),
    Nat.mod_eq_of_lt (show getTotal (args.map Arg.size) < 2 ^ 32 by omega)]
  generalize hptr : (if stack.isSome then none else format.formatDataPtr) = ptr
  obtain ⟨m₁, total, hbegin⟩ : ∃ m₁ total, logWriteBegin hash thread epochMs level categoryIndex
      format.tag (formatBytes format stack).length ptr (getTotal (args.map Arg.size)) m = (m₁, total) :=
    ⟨_, _, rfl⟩
  have hdata : ∀ f, ptr = some f → stack.getD [] = [] ∧ format.formatDataPtr = some f := by
    rintro f rfl
    cases stack with
    | none => exact ⟨rfl, hptr⟩
    | some st => cases hptr
  have hfull : ∀ f, ptr = some f → (formatBytes format stack).length ≤ f.length ∧
      f.take (formatBytes format stack).length = formatBytes format stack := by
    intro f hf
    obtain ⟨hstack, hf⟩ := hdata f hf
    have hbytes : formatBytes format stack = format.value := by
      rw [formatBytes, hstack, List.append_nil]
    rw [hbytes]
    exact StringArg.take_formatDataPtr hf
  obtain ⟨rfl, hhead, hformat⟩ := logWriteBegin_spec hbegin hsize fun f hf => (hfull f hf).1
  rw [hbegin]
  simp only
  -- the memory with the header and the format text
  obtain ⟨m₂, hfilled, hhead₂, hformat₂⟩ : ∃ m₂,
      fillFormat format ptr format.value.length (stack.getD []) m₁ = some m₂ ∧
      HeaderAt m₂ ⟨epochMs.toNat, recordHeaderSize + align4 (formatBytes format stack).length +
        getTotal (args.map Arg.size), categoryIndex.toNat, thread.threadId.toNat,
        (entryOf hash thread epochMs level categoryIndex format stack args).formatHash.toNat,
        format.tag.toByte, level, (formatBytes format stack).length⟩ ∧
      m₂.slice recordHeaderSize (formatBytes format stack).length = formatBytes format stack := by
    cases ptr with
    | some f =>
      obtain ⟨hstack, hf⟩ := hdata f rfl
      obtain ⟨hge, htake⟩ := hfull f rfl
      have hhash : (entryOf hash thread epochMs level categoryIndex format stack args).formatHash =
          hash (formatBytes format stack) := by
        cases stack with
        | none =>
          rw [entryOf, hf, if_neg (by simp), formatBytes, hstack, List.append_nil]
        | some st => cases hptr
      refine ⟨m₁, rfl, ?_, (hformat f rfl).trans htake⟩
      rw [hhash]
      rw [Option.map_some, htake] at hhead
      exact hhead
    | none =>
      have hcopied := congrArg (Option.map fun m : Mem =>
        (m.write (recordHeaderSize + format.value.length) (stack.getD [])).store (recordHeaderSize - 4) 4
          ((format.value.length + (stack.getD []).length) % 2 ^ 32))
        (typeCopy_false format (by omega) m₁ (recordHeaderSize - 4))
      simp only [Option.map_some] at hcopied
      have hflt : (formatBytes format stack).length < 2 ^ 32 := by omega
      rw [← hflen, Nat.mod_eq_of_lt hflt] at hcopied
      have hhash : (entryOf hash thread epochMs level categoryIndex format stack args).formatHash = 0 := by
        rw [entryOf, if_pos]
        cases stack with
        | none => exact .inr hptr
        | some st => exact .inl rfl
      refine ⟨_, by rw [fillFormat, ← hflen, Nat.mod_eq_of_lt hflt]; exact hcopied, ?_, ?_⟩
      · rw [hhash]
        refine hhead.setLength (fun x hx => ?_) (Mem.load_store _ _ (by change _ < 2 ^ 32; omega))
        have h36 : recordHeaderSize - 4 = 36 := rfl
        have h40 : recordHeaderSize = 40 := rfl
        rw [Mem.store_apply_of_lt _ _ (by omega), Mem.write_apply_of_lt _ _ (by omega),
          Mem.write_apply_of_lt _ _ (by omega), Mem.store_apply_of_lt _ _ (by omega)]
      · have h36 : recordHeaderSize - 4 + 4 = recordHeaderSize := rfl
        rw [Mem.slice_congr fun x hx _ => Mem.store_apply_of_le _ _ (by omega), h36, Mem.write_append]
        exact Mem.slice_write _ _ _
  rw [hfilled, Option.bind_some]
  obtain ⟨m₃, hfill, hslots, hframe⟩ := fillArguments_spec hargs m₂
    (recordHeaderSize + align4 (formatBytes format stack).length)
  rw [hfill, Option.map_some]
  have h40 : recordHeaderSize = 40 := rfl
  refine ⟨_, rfl, Mem.length_slice _ _ _, ?_⟩
  refine holds_of_parts rfl hsize (hhead₂.congr fun x hx => hframe x (by omega)) ?_ hslots
  rw [Mem.slice_congr fun x _ hx => hframe x (by omega)]
  exact hformat₂

/-! ## The round trip -/

/-- What a visit shows of an argument: its tag and its value. A UTF-32 string appears in UTF-16, up to
its first terminator. -/
def Shows (v : Arg) (shown : ArgumentTag × List UInt8) : Prop :=
  shown.1 = v.tag ∧
    match v with
    | .null => shown.2 = []
    | .pointer address => shown.2.length = 8 ∧ ofLe shown.2 = address.toNat
    | .pod t bits => shown.2.length = t.size ∧ ofLe shown.2 = bits.toNat
    | .string (.text .four t) =>
      (∀ c ∈ t.codePoints, Utf16.IsScalar c) → ∃ units : List ℕ, (∀ u ∈ units, u < 2 ^ 16) ∧
        shown.2 = units.flatMap (toLe 2) ∧ Utf16.decode units = t.codePoints
    | .string (.text _ t) => shown.2 = codeBytes t.elems
    | .string (.custom _ _ cs) => shown.2 = codeBytes cs

theorem shows_value (v : Arg) : Shows v (v.tag, v.value) := by
  refine ⟨rfl, ?_⟩
  rcases v with _ | address | ⟨t, bits⟩ | ⟨w, t⟩ | ⟨w, hw, cs⟩
  · rfl
  · exact ⟨length_toLe _ _, ofLe_toLe address.isLt⟩
  · refine ⟨length_toLe _ _, ofLe_toLe ?_⟩
    have := bits.isLt
    rwa [Nat.pow_mul] at this
  · cases w with
    | four => exact fun hc => ⟨_, Utf16.encode_lt hc, rfl, Utf16.decode_encode hc⟩
    | one | two => rfl
  · rfl

/-- **Writing and visiting a record**: for every record whose length has 32 bits, the slots that are
filled have the measured sizes, the record is valid, and a visit with the steps of `validate` shows
the arguments in order. -/
theorem record_round_trip (hash : List UInt8 → BitVec 64) (thread : ThreadInfo) (epochMs : BitVec 64)
    (level : UInt8) (categoryIndex : BitVec 32) (format : StringArg) (stack : Option (List UInt8))
    (args : List Arg) (hsize : recordSize thread format stack args < 2 ^ 32) (m : Mem) :
    ∃ sizes data shown, makeSizeSeq args = some sizes ∧
      (∀ m dst, ∃ m', fillArguments m dst sizes args = some m' ∧
        ∀ x, x < dst ∨ dst + getTotal sizes ≤ x → m' x = m x) ∧
      doLog hash thread epochMs level categoryIndex format stack args m = some data ∧
      data.length = recordSize thread format stack args ∧
      validate data = some true ∧ walkArgs data = some shown ∧ List.Forall₂ Shows args shown ∧
      sizes = shown.map fun q => q.1.offset + q.2.length := by
  have hargs : ∀ v ∈ args, v.value.length < 2 ^ 32 := fun v hv => value_lt_of_recordSize hsize hv
  obtain ⟨data, hdata, hlen, hholds⟩ := doLog_holds hsize m
  refine ⟨args.map Arg.size, data, args.map fun v : Arg => (v.tag, v.value), makeSizeSeq_eq hargs,
    fun m dst => ?_, hdata, hlen, hholds.validate, hholds.walkArgs, ?_, ?_⟩
  · obtain ⟨m', hfill, -, hframe⟩ := fillArguments_spec hargs m dst
    exact ⟨m', hfill, hframe⟩
  · rw [List.forall₂_map_right_iff]
    exact List.forall₂_same.2 fun v _ => shows_value v
  · rw [List.map_map]
    rfl

/-- A number, a null pointer and a string outside the basic plane. -/
theorem record_round_trip_threeArgs : ∃ sizes data shown,
    makeSizeSeq [.pod .int32 7, .null, .string (.text .four (.object [0x1F600]))] = some sizes ∧
      (∀ m dst, ∃ m', fillArguments m dst sizes
          [.pod .int32 7, .null, .string (.text .four (.object [0x1F600]))] = some m' ∧
        ∀ x, x < dst ∨ dst + getTotal sizes ≤ x → m' x = m x) ∧
      doLog (fun _ => 0) (.current 42 [0x77]) 1 2 0 (.text .one (.object [0x7B, 0x7D])) none
        [.pod .int32 7, .null, .string (.text .four (.object [0x1F600]))] (fun _ => 0) = some data ∧
      data.length = recordSize (.current 42 [0x77]) (.text .one (.object [0x7B, 0x7D])) none
        [.pod .int32 7, .null, .string (.text .four (.object [0x1F600]))] ∧
      validate data = some true ∧ walkArgs data = some shown ∧
      List.Forall₂ Shows [.pod .int32 7, .null, .string (.text .four (.object [0x1F600]))] shown ∧
      sizes = shown.map fun q => q.1.offset + q.2.length :=
  record_round_trip (fun _ => 0) (.current 42 [0x77]) 1 2 0 (.text .one (.object [0x7B, 0x7D])) none
    [.pod .int32 7, .null, .string (.text .four (.object [0x1F600]))] (by decide) fun _ => 0

/-- A UTF-32 string object with a zero in the middle loses the rest. -/
theorem record_round_trip_innerZero : ∃ data value,
    doLog (fun _ => 0) (.current 42 [0x77]) 1 2 0 (.text .one (.object [0x7B, 0x7D])) none
      [.string (.text .four (.object [0x61, 0, 0x62]))] (fun _ => 0) = some data ∧
    validate data = some true ∧ walkArgs data = some [(.stringUtf16Type, value)] ∧
    ∀ units, value = units.flatMap (toLe 2) → Utf16.decode units ≠ [0x61, 0, 0x62] := by
  have hsize : recordSize (.current 42 [0x77]) (.text .one (.object [0x7B, 0x7D])) none
    [.string (.text .four (.object [0x61, 0, 0x62]))] < 2 ^ 32 := by decide
  obtain ⟨data, hdata, -, hholds⟩ : ∃ data, doLog (fun _ => 0) (.current 42 [0x77]) 1 2 0
      (.text .one (.object [0x7B, 0x7D])) none [.string (.text .four (.object [0x61, 0, 0x62]))]
      (fun _ => 0) = some data ∧ _ ∧ Holds data _ := doLog_holds hsize fun _ => 0
  refine ⟨data, [0x61, 0], hdata, hholds.validate, hholds.walkArgs, fun units hunits hdec => ?_⟩
  have h1 := congrArg List.length hunits
  have h2 := Utf16.length_decode_le units
  rw [length_flatMap_toLe] at h1
  rw [hdec] at h2
  simp only [List.length_cons, List.length_nil] at h1 h2
  omega

end Writer

end QLog.Record
