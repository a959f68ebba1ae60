import QLog.Appender.Compressed.Allocation
import QLog.Layout.Turns

/-!
# The consumers of an accepted record

A record that `validate` accepts is laid out, and written by the compressed appender. Both walk over its
arguments once more. They end, and read inside the record only (`doLayout_readable`, `entryExtent_fits`); in
the template of a thread there is always room for the name. The layout copies the name into an array of 256
bytes behind the number of the thread, where there is room for 250 characters of the two
(`consumers_safe_iff`), unless the text of the thread is in the cache.
-/

namespace QLog.Layout

open Record Bytes Appender

variable (single double : FloatOps) {l : Layout}

/-! ## Room in front of the format text -/

/-- The room at the start of a record. -/
theorem size_expand_start (l : Layout) :
    1024 ≤ (expandFormatContentBuffSize 1024 { l with cursor := 0 }).size := by
  obtain ⟨m, hm⟩ : ∃ m : Layout, m = { l with cursor := 0 } := ⟨_, rfl⟩
  have hcursor : m.cursor = 0 := hm ▸ rfl
  have hslack := m.slack_le
  have hstart : expandFormatContentBuffSize 1024 m = m.expandBy 1024 := by
    rw [expandBy, hcursor, show add32 0 1024 = 1024 by decide]
  rw [← hm, hstart, expandBy_eq (by omega), hcursor]
  split_ifs with hroom
  · omega
  · obtain ⟨k, -, hround, hle, -⟩ := @exists_roundPowOfTwo (0 + 1024 + m.slack) (by omega) (by omega)
    rw [hround]
    change 1024 ≤ 2 ^ k
    omega

/-- Where there is room already, an expansion changes nothing. -/
theorem expandBy_eq_self {n : ℕ} (h : l.cursor + n + 200 ≤ 1024) (hsize : 1024 ≤ l.size) :
    l.expandBy n = l := by
  have hslack := l.slack_le
  rw [expandBy_eq (by omega), if_pos (by omega)]

/-- A layout behind the time of a record. -/
theorem insertTime_spec (zone : TimeZone) (head : RecordHeader) (hcursor : l.cursor = 0)
    (hsize : 1024 ≤ l.size) :
    (insertTime zone head l).2.cursor ≤ 131 ∧ 1024 ≤ (insertTime zone head l).2.size ∧
      (insertTime zone head l).2.threadNamesCache = l.threadNamesCache := by
  have hcache := (zone.refreshTimeStringCache head.timestampEpoch).timeCache_le
  have hexpand : l.expandBy (128 + 3) = l := expandBy_eq_self (by omega) hsize
  unfold insertTime
  simp only [hexpand]
  refine ⟨?_, hsize, rfl⟩
  simp only [append, hcursor, add32, List.length_cons, List.length_nil]
  omega

/-! ## The name of the thread -/

/-- The name of the thread is copied inside its destinations: the array, and the vector. -/
structure NameInside (c : ThreadCopies) : Prop where
  tmp : ∀ t ∈ c.tmp, t.1.Inside
  content : ∀ t ∈ c.content, t.Inside

/-- The text of the thread is in the cache, or its number and its name have 250 characters at most. -/
def NameFits (l : Layout) (head : RecordHeader) (name : List UInt8) : Prop :=
  (l.threadNamesCache (BitVec.ofNat 64 head.logThreadId)).isSome = true ∨
    (Nat.toDigits 10 (BitVec.ofNat 64 head.logThreadId).toNat).length + name.length ≤ 250

theorem nameCopy_inside_iff (threadId : BitVec 64) (name : List UInt8) :
    (nameCopy threadId name).Inside ↔ (Nat.toDigits 10 threadId.toNat).length + name.length ≤ 250 := by
  have htext : (text "[tid-").length = 5 ∧ (text " ").length = 1 := ⟨rfl, rfl⟩
  unfold Copy.Inside nameCopy threadHead tmpSize
  simp only [List.length_append, List.length_map]
  omega

variable {data format name : List UInt8} {head : RecordHeader} {args : List Argument}

/-- **The text of the thread is looked up or made**: the name is copied into the array only if it is made. -/
theorem findThreadText_spec (hname : getThreadName data head = some name) (l : Layout) :
    ∃ (value : ThreadText) (cache : BitVec 64 → Option ThreadText) (tmp : Option (Copy × Copy)),
      findThreadText data head l = some (value, { l with threadNamesCache := cache }, tmp) ∧
        ((∀ t ∈ tmp, t.1.Inside) ↔ NameFits l head name) := by
  have hlen : name.length ≤ 255 := Nat.le_of_lt_succ (length_threadName_lt hname)
  unfold NameFits
  cases hcache : l.threadNamesCache (BitVec.ofNat 64 head.logThreadId) with
  | some value =>
    have hfind : findThreadText data head l = some (value, l, none) := by
      simp only [findThreadText, hcache]
    exact ⟨value, l.threadNamesCache, none, hfind, iff_of_true nofun (.inl rfl)⟩
  | none =>
    have hfind := findThreadText.eq_1 data head l
    simp only [hcache, hname, Option.bind_some, dif_pos hlen] at hfind
    refine ⟨_, _, _, hfind, ?_⟩
    rw [Option.isSome_none, or_iff_right Bool.false_ne_true, ← nameCopy_inside_iff]
    exact ⟨fun h => h _ rfl, fun h t ht => Option.some.inj ht ▸ h⟩

/-- **The thread of a record is inserted**, with room for its text in the vector. -/
theorem insertThreadInfo_spec (hname : getThreadName data head = some name) (hcursor : l.cursor ≤ 131)
    (hsize : 1024 ≤ l.size) :
    ∃ m copies, insertThreadInfo data head l = some (m, copies) ∧
      (NameInside copies ↔ NameFits l head name) := by
  obtain ⟨value, cache, tmp, hfind, hinside⟩ := findThreadText_spec hname l
  have hvalue := value.property
  unfold insertThreadInfo
  rw [hfind, Option.map_some]
  simp only
  split_ifs with hnil
  · refine ⟨_, _, rfl, ?_⟩
    rw [← hinside]
    exact ⟨fun h => h.tmp, fun h => ⟨h, nofun⟩⟩
  · refine ⟨_, _, rfl, ?_⟩
    have hexpand : expandBy value.val.length { l with threadNamesCache := cache } =
        { l with threadNamesCache := cache } := expandBy_eq_self (by simp only; omega) hsize
    rw [← hinside, hexpand]
    refine ⟨fun h => h.tmp, fun h => ⟨h, fun t ht => ?_⟩⟩
    obtain rfl := Option.some.inj ht
    simp only [Copy.Inside]
    omega

/-! ## The layout -/

/-- **The format text of an accepted record is laid out**, with its arguments. -/
theorem exists_pythonStyleFormatContent (h : Readable data head format name args) {fuel : ℕ}
    (hfuel : format.length < fuel) (l : Layout) :
    ∃ m, pythonStyleFormatContent single double data head fuel l = some m := by
  unfold pythonStyleFormatContent
  split_ifs
  · rw [pythonStyleFormatContentUtf8_eq single double h hfuel]
    exact ⟨_, rfl⟩
  · rw [pythonStyleFormatContentUtf16_readable single double h hfuel]
    exact ⟨_, rfl⟩

/-- **An accepted record is laid out**: the function ends and reads inside the record, and it copies the name
of the thread inside exactly if that fits. -/
theorem doLayout_readable (h : Readable data head format name args) (categoriesNameArray : List (List UInt8))
    {fuel : ℕ} (hfuel : format.length < fuel) (zone : TimeZone) (l : Layout) :
    ∃ o, doLayout single double categoriesNameArray data fuel zone l = some o ∧
      (NameInside o.copies ↔ NameFits l head name) := by
  obtain ⟨m, hm⟩ : ∃ m, expandFormatContentBuffSize 1024 { l with cursor := 0 } = m := ⟨_, rfl⟩
  have hsize : 1024 ≤ m.size := hm ▸ size_expand_start l
  have hcursor : m.cursor = 0 := by
    rw [← hm, expandFormatContentBuffSize]
    simp only
    split_ifs <;> rfl
  have hcache : m.threadNamesCache = l.threadNamesCache := by
    rw [← hm, expandFormatContentBuffSize]
    simp only
    split_ifs <;> rfl
  obtain ⟨hcursor', hsize', hcache'⟩ := insertTime_spec zone head hcursor hsize
  obtain ⟨m', copies, hthread, hiff⟩ := insertThreadInfo_spec h.name_eq hcursor' hsize'
  have hfits : NameFits (insertTime zone head m).2 head name ↔ NameFits l head name := by
    unfold NameFits
    rw [hcache', hcache]
  unfold doLayout
  rw [h.head_eq, Option.bind_some]
  simp only [hm, hthread, Option.bind_some]
  rcases hlevel : insertLevelAndCategory categoriesNameArray head m' with ⟨result, l'⟩
  cases result with
  | parseError => exact ⟨_, rfl, hiff.trans hfits⟩
  | finished =>
    obtain ⟨k, hk⟩ := exists_pythonStyleFormatContent single double h hfuel l'
    simp only [hk, Option.map_some]
    exact ⟨_, rfl, hiff.trans hfits⟩

/-! ## Both consumers -/

/-- The copy of a name into the template of its thread. -/
def templateNameCopy (idx : ℕ) (threadId : BitVec 64) (name : List UInt8) (m : Mem) : Copy :=
  let e := threadTemplateExtent idx threadId name m
  ⟨e.allocated, e.cursor - name.length, e.cursor⟩

/-- The layout of a record ends, reads inside the record, and copies the name of the thread inside its
destinations. -/
def LayoutSafe (categoriesNameArray : List (List UInt8)) (data : List UInt8) (fuel : ℕ) (zone : TimeZone)
    (l : Layout) : Prop :=
  ∃ o, doLayout single double categoriesNameArray data fuel zone l = some o ∧ NameInside o.copies

/-- So do the loop over the arguments in the compressed appender, and the template of the thread, whatever the
indices, the epoch of the last entry and the contents of the handle are. -/
def AppenderSafe (data : List UInt8) (head : RecordHeader) (name : List UInt8) : Prop :=
  ∀ (formatIdx threadIdx threadMax : BitVec 32) (last : BitVec 64) (m : Mem),
    (∃ e, entryExtent data head formatIdx.toNat threadIdx.toNat last m = some e) ∧
      (templateNameCopy threadMax.toNat (BitVec.ofNat 64 head.logThreadId) name m).Inside

/-- **The consumers of an accepted record.** They end and read inside the record, and the compressed appender
copies the name of the thread inside; the layout does so exactly if the text of the thread is in its cache or
the number and the name of the thread have 250 characters at most. -/
theorem consumers_safe_iff {data : List UInt8} (hv : validate data = some true) (hlt : data.length < 2 ^ 32) :
    ∃ head name, getLogHead data = some head ∧ getThreadName data head = some name ∧
      ∀ (single double : FloatOps) (categoriesNameArray : List (List UInt8)) (fuel : ℕ) (zone : TimeZone)
        (l : Layout), head.logFormatDataLen < fuel →
          (∃ o, doLayout single double categoriesNameArray data fuel zone l = some o) ∧
          (LayoutSafe single double categoriesNameArray data fuel zone l ∧ AppenderSafe data head name ↔
            NameFits l head name) := by
  obtain ⟨head, format, name, args, h⟩ := Readable.of_validate hv hlt
  refine ⟨head, name, h.head_eq, h.name_eq, fun single double categoriesNameArray fuel zone l hfuel => ?_⟩
  obtain ⟨o, ho, hiff⟩ :=
    doLayout_readable single double h categoriesNameArray (h.bounds.1.symm ▸ hfuel) zone l
  have happender : AppenderSafe data head name := fun formatIdx threadIdx threadMax last m => by
    obtain ⟨e, he, -⟩ := entryExtent_fits h formatIdx.isLt threadIdx.isLt last m
    exact ⟨⟨e, he⟩, threadTemplateExtent_le threadMax.isLt _ (length_threadName_lt h.name_eq) m⟩
  refine ⟨⟨o, ho⟩, ?_⟩
  rw [and_iff_left happender, ← hiff]
  refine ⟨fun ⟨o', ho', hin⟩ => ?_, fun hin => ⟨o, ho, hin⟩⟩
  exact Option.some.inj (ho.symm.trans ho') ▸ hin

theorem consumers_safe_iff_fullRecord :
    ∃ head name, getLogHead fullRecord = some head ∧ getThreadName fullRecord head = some name ∧
      ∀ single double zone, LayoutSafe single double [[], text "net"] fullRecord 10 zone initial ∧
        AppenderSafe fullRecord head name := by
  have hv : validate fullRecord = some true := by decide +kernel
  obtain ⟨head, name, hhead, hname, hsafe⟩ := consumers_safe_iff hv (by decide)
  have hread : (getLogHead fullRecord).map (fun head => (head.logFormatDataLen, head.logThreadId,
      (getThreadName fullRecord head).map List.length)) = some (9, 7, some 4) := by decide +kernel
  rw [hhead, Option.map_some, hname, Option.map_some, Option.some.injEq, Prod.mk.injEq, Prod.mk.injEq,
    Option.some.injEq] at hread
  obtain ⟨hformat, hid, hlen⟩ := hread
  refine ⟨head, name, hhead, hname, fun single double zone => ?_⟩
  refine (hsafe single double [[], text "net"] 10 zone initial ?_).2.2 (.inr ?_)
  · omega
  · rw [hid, hlen]
    decide +kernel

/-- A record of the thread 0, whose name has 255 characters. -/
def longNameRecord : List UInt8 :=
  toLe 8 1 ++ toLe 4 40 ++ toLe 4 0 ++ toLe 8 0 ++ toLe 8 1 ++
    [ArgumentTag.stringUtf8Type.toByte, 0, 0, 0] ++ toLe 4 0 ++ [255] ++ List.replicate 255 97

/-- **A name of 255 characters is written behind the array**, by a layout that meets its thread for the first
time. -/
theorem name_behind_array : validate longNameRecord = some true ∧ longNameRecord.length < 2 ^ 32 ∧
    ∀ single double zone, ∃ o, doLayout single double [] longNameRecord 1 zone initial = some o ∧
      ¬NameInside o.copies := by
  have hv : validate longNameRecord = some true := by decide +kernel
  have hlt : longNameRecord.length < 2 ^ 32 := by decide +kernel
  refine ⟨hv, hlt, fun single double zone => ?_⟩
  obtain ⟨head, format, name, args, h⟩ := Readable.of_validate hv hlt
  have hhead : (getLogHead longNameRecord).map (fun head =>
      (head.logThreadId, head.logFormatDataLen, (getThreadName longNameRecord head).map List.length)) =
        some (0, 0, some 255) := by decide +kernel
  rw [h.head_eq, Option.map_some, h.name_eq, Option.map_some, Option.some.injEq, Prod.mk.injEq,
    Prod.mk.injEq, Option.some.injEq] at hhead
  obtain ⟨hid, hformat, hlen⟩ := hhead
  have hfuel : format.length < 1 := by
    rw [h.bounds.1, hformat]
    exact Nat.one_pos
  obtain ⟨o, ho, hiff⟩ := doLayout_readable single double h [] hfuel zone initial
  refine ⟨o, ho, fun hin => ?_⟩
  rcases hiff.1 hin with hcached | hfits
  · exact Bool.false_ne_true hcached
  · rw [hid, hlen] at hfits
    exact absurd hfits (by decide +kernel)

end QLog.Layout
