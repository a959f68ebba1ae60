import QLog.Layout.Consumers
import QLog.Layout.Fitting

/-!
# Records inside the vector

The plan of a record (`recordPlan`): the time, the thread, the level and the category, and the format text
with its arguments. `do_layout` writes inside its vector exactly if the plan of the record stays inside
(`layout_inside_iff`), from every layout that is reached with all writes inside.
-/

namespace QLog.Layout

open Record Bytes Appender Reserving

variable {l : Layout} {p size : ℕ} {info : FormatInfo}

/-! ## The head of a record -/

/-- The plan of the time, whose text has `n` bytes without the milliseconds. -/
def FormatInfo.timePlan (info : FormatInfo) (n : ℕ) : Plan := .ask (131 + info.slack) ++ .put n ++ .put 3

/-- The time is inserted. -/
theorem At.insertTime (h : At l p size info) (zone : TimeZone) (head : RecordHeader) :
    Reaches (insertTime zone head l).2 p size
      (info.timePlan (zone.refreshTimeStringCache head.timestampEpoch).timeCache.length) info :=
  ((h.expandBy 131).edits ((Edits.refl _).append _) fun hat => hat.append _).edits ((Edits.refl _).append _)
    fun hat => hat.append _

/-- The text of the thread of a record: the one in the cache, or the one that is made. -/
def threadTextOf (l : Layout) (head : RecordHeader) (name : List UInt8) : List UInt8 :=
  match l.threadNamesCache (BitVec.ofNat 64 head.logThreadId) with
  | some value => value.val
  | none => (threadHead (BitVec.ofNat 64 head.logThreadId) ++ name ++ text "]\t").takeWhile (· ≠ 0)

variable {data format name : List UInt8} {head : RecordHeader} {args : List Argument}

/-- The text of the thread is inserted as a string. -/
theorem insertThreadInfo_eq (hname : getThreadName data head = some name) (l : Layout) :
    ∃ (cache : BitVec 64 → Option ThreadText) (copies : ThreadCopies), insertThreadInfo data head l =
      some (insertStrUtf8 (threadTextOf l head name) { l with threadNamesCache := cache }, copies) := by
  have hlen : name.length ≤ 255 := Nat.le_of_lt_succ (length_threadName_lt hname)
  obtain ⟨cache, tmp, value, hfind, hvalue⟩ : ∃ (cache : BitVec 64 → Option ThreadText)
      (tmp : Option (Copy × Copy)) (value : ThreadText), findThreadText data head l =
        some (value, { l with threadNamesCache := cache }, tmp) ∧ value.val = threadTextOf l head name := by
    unfold threadTextOf
    cases hcache : l.threadNamesCache (BitVec.ofNat 64 head.logThreadId) with
    | some value => exact ⟨l.threadNamesCache, none, value, by simp only [findThreadText, hcache], rfl⟩
    | none =>
      have hfind := findThreadText.eq_1 data head l
      simp only [hcache, hname, Option.bind_some, dif_pos hlen] at hfind
      exact ⟨_, _, _, hfind, rfl⟩
  rw [insertThreadInfo, hfind, Option.map_some]
  simp only [insertStrUtf8, List.length_eq_zero_iff, ← hvalue]
  split_ifs
  · exact ⟨cache, _, rfl⟩
  · exact ⟨cache, _, rfl⟩

/-- The plan of a category. -/
def FormatInfo.categoryPlan (info : FormatInfo) (category : Option (List UInt8)) : Plan :=
  match category with
  | none | some [] => .empty
  | some (c :: cs) => info.textPlan 1 1 ++ info.stringPlan (c :: cs).length ++ info.stringPlan 2

/-- The plan of the level and the category. -/
def FormatInfo.levelPlan (info : FormatInfo) (categoriesNameArray : List (List UInt8)) (head : RecordHeader) :
    Plan :=
  match levelText[head.level.toNat]? with
  | none => .empty
  | some level =>
    info.stringPlan level.length ++ info.textPlan 1 1 ++
      info.categoryPlan categoriesNameArray[head.categoryIdx]?

/-- A category is inserted between brackets. -/
theorem At.insertCategory (h : At l p size info) (opening : UInt8) {closing : List UInt8}
    (hclosing : closing.length = 2) {category : List UInt8} (hne : category ≠ []) :
    Reaches (((l.insertChar opening).insertStrUtf8 category).insertStrUtf8 closing) p size
      (info.categoryPlan (some category)) info := by
  have hplan : info.categoryPlan (some category) =
      info.textPlan 1 1 ++ info.stringPlan category.length ++ info.stringPlan closing.length := by
    obtain ⟨c, cs, rfl⟩ := List.exists_cons_of_ne_nil hne
    rw [FormatInfo.categoryPlan, hclosing]
  have hopening := h.insertChar opening
  have hname := hopening.edits (edits_insertStrUtf8 category _) fun hat => At.insertStrUtf8 hat category
  rw [hplan]
  exact hname.edits (edits_insertStrUtf8 closing _) fun hat => At.insertStrUtf8 hat closing

/-- The level and the category are inserted. -/
theorem At.insertLevelAndCategory (h : At l p size info) (categoriesNameArray : List (List UInt8))
    (head : RecordHeader) :
    Reaches (insertLevelAndCategory categoriesNameArray head l).2 p size
      (info.levelPlan categoriesNameArray head) info := by
  have hclosing : (Layout.text "]\t").length = 2 := rfl
  unfold Layout.insertLevelAndCategory FormatInfo.levelPlan
  cases levelText[head.level.toNat]? with
  | none => exact h.refl
  | some level =>
    have htab := (h.insertStrUtf8 level).edits (edits_insertChar (ascii '\t') _) fun hat => hat.insertChar _
    rcases categoriesNameArray[head.categoryIdx]? with - | - | ⟨c, cs⟩
    · exact htab.edits (.refl _) fun hat => hat.refl
    · exact htab.edits (.refl _) fun hat => hat.refl
    · have hcategory : ∀ m : Layout, Edits m
          (((m.insertChar (ascii '[')).insertStrUtf8 (c :: cs)).insertStrUtf8 (Layout.text "]\t")) := fun m =>
        ((edits_insertChar (ascii '[') m).trans (edits_insertStrUtf8 (c :: cs) _)).trans
          (edits_insertStrUtf8 (Layout.text "]\t") _)
      exact htab.edits (hcategory _) fun hat => hat.insertCategory _ hclosing (List.cons_ne_nil c cs)

/-- The plan of a format text with its arguments, and of the terminator behind it. -/
def FormatInfo.contentPlan (info : FormatInfo) (head : RecordHeader) (format : List UInt8)
    (args : List Argument) : Plan :=
  if head.logFormatStrType = ArgumentTag.stringUtf8Type.toByte then
    if args = [] then info.stringPlan format.length ++ .ask (1 + info.slack) ++ .touch 1
    else
      let ts := formatTurns utf8 (format.map UInt8.toNat) args
      .ask (format.length + info.slack) ++ turnsPlan utf8 info ts ++
        .ask (1 + (turnsBehind info ts).slack) ++ .touch 1
  else
    let ts := formatTurns utf16 (unitsOf format) args
    .ask (format.length * 3 / 2 % 2 ^ 32 + info.slack) ++ turnsPlan utf16 info ts ++
      .ask (1 + (turnsBehind info ts).slack) ++ .touch 1

/-- The terminator is written behind the text. -/
def terminated (l : Layout) : Layout := (l.expandBy 1).write (l.expandBy 1).cursor 0

theorem edits_terminated (l : Layout) : Edits l l.terminated := ((Edits.refl l).expandBy 1).write _ _

/-- **The terminator is written.** -/
theorem Reaches.terminated {P : Plan} (h : Reaches l p size P info) :
    ∃ info', Reaches l.terminated p size (P ++ .ask (1 + info.slack) ++ .touch 1) info' := by
  refine ⟨info, (h.edits ((Edits.refl _).expandBy 1) fun hat => hat.expandBy 1).edits
    ((Edits.refl _).write _ _) fun hat => ?_⟩
  obtain ⟨m, hm⟩ : ∃ m, l.expandBy 1 = m := ⟨_, rfl⟩
  rw [Layout.terminated, hm]
  rw [hm] at hat
  have hwrite := Touches.write m m.cursor 0
  rw [hat.cursor_eq, hat.size_eq] at hwrite
  rw [hat.cursor_eq]
  exact ⟨fun hinside => ⟨(hwrite.inside_iff.1 hinside).2, trivial⟩, fun hP => hwrite.at_same hat hP.1⟩

variable (single double : FloatOps)

/-- What `python_style_format_content` writes. -/
def writeContent (head : RecordHeader) (format : List UInt8) (args : List Argument) (l : Layout) : Layout :=
  terminated
    (if head.logFormatStrType = ArgumentTag.stringUtf8Type.toByte then
      writeContentUtf8 single double format args l
    else writeContentUtf16 single double format args l)

theorem pythonStyleFormatContent_eq (hread : Readable data head format name args) {fuel : ℕ}
    (hfuel : format.length < fuel) (l : Layout) :
    pythonStyleFormatContent single double data head fuel l =
      some (writeContent single double head format args l) := by
  unfold pythonStyleFormatContent writeContent
  split_ifs
  · rw [pythonStyleFormatContentUtf8_eq single double hread hfuel]
    rfl
  · rw [pythonStyleFormatContentUtf16_readable single double hread hfuel]
    rfl

theorem edits_writeContent (head : RecordHeader) (format : List UInt8) (args : List Argument) (l : Layout) :
    Edits l (writeContent single double head format args l) := by
  refine Edits.trans (.ite (.ite (edits_insertStrUtf8 _ _) ?_) ?_) (edits_terminated _)
  · exact ((Edits.refl l).expandBy _).trans (edits_applyTurns single double _ _ _)
  · exact ((Edits.refl l).expandBy _).trans (edits_applyTurns single double _ _ _)

/-- **A format text is written** with its arguments. -/
theorem At.writeContent (h : At l p size info) (hp : 4 ≤ p) (head : RecordHeader) (format : List UInt8)
    (hargs : ∀ a ∈ args, a.NotFloat) :
    ∃ info', Reaches (writeContent single double head format args l) p size
      (info.contentPlan head format args) info' := by
  have hturns : ∀ (D : Dialect) (n : ℕ) (us : List ℕ), Reaches
      (Layout.applyTurns single double D (l.expandBy n) (formatTurns D us args)) p size
      (.ask (n + info.slack) ++ turnsPlan D info (formatTurns D us args))
      (turnsBehind info (formatTurns D us args)) := fun D n us =>
    (h.expandBy n).edits (edits_applyTurns single double D _ _) fun hat =>
      hat.applyTurns single double hp (regular_turns D hargs)
  unfold Layout.writeContent FormatInfo.contentPlan
  split_ifs with hutf8 hnil
  · rw [writeContentUtf8, if_pos hnil]
    exact (h.insertStrUtf8 format).terminated
  · rw [writeContentUtf8, if_neg hnil]
    exact (hturns utf8 _ _).terminated
  · exact (hturns utf16 _ _).terminated

/-! ## Records -/

/-- `tidy_memory`, for a vector of this capacity. -/
def tidyMemory (capacity : ℕ) (l : Layout) : Layout :=
  if 1024 < capacity then { l with size := 0, cursor := 0 } else { l with cursor := 0 }

/-- The layouts that are reached from a new one as long as all writes are inside. -/
inductive Reached : Layout → Prop
  | initial : Reached initial
  | lay {l : Layout} {categoriesNameArray : List (List UInt8)} {data : List UInt8} {fuel : ℕ}
      {zone : TimeZone} {o : Outcome} (hl : Reached l) (hvalid : validate data = some true)
      (hlt : data.length < 2 ^ 32) (hfuel : data.length ≤ fuel)
      (ho : doLayout single double categoriesNameArray data fuel zone l = some o)
      (hinside : o.layout.writesInside = true) : Reached o.layout
  | tidy {l : Layout} (hl : Reached l) (capacity : ℕ) : Reached (l.tidyMemory capacity)

/-- The layout in front of the thread of a record. -/
def startRecord (zone : TimeZone) (head : RecordHeader) (l : Layout) : Layout :=
  (insertTime zone head (expandFormatContentBuffSize 1024 { l with cursor := 0 })).2

/-- The layout behind the thread of a record, whose text is in the cache then. -/
def endRecord (categoriesNameArray : List (List UInt8)) (head : RecordHeader) (format : List UInt8)
    (args : List Argument) (l : Layout) : Layout :=
  let m := (insertLevelAndCategory categoriesNameArray head l).2
  if (insertLevelAndCategory categoriesNameArray head l).1 = .finished then
    writeContent single double head format args m
  else m

/-- **A record is laid out** in three parts. -/
theorem doLayout_eq (hread : Readable data head format name args) (categoriesNameArray : List (List UInt8))
    {fuel : ℕ} (hfuel : format.length < fuel) (zone : TimeZone) (l : Layout) :
    ∃ (o : Outcome) (cache : BitVec 64 → Option ThreadText),
      doLayout single double categoriesNameArray data fuel zone l = some o ∧
        o.layout = endRecord single double categoriesNameArray head format args (insertStrUtf8
          (threadTextOf l head name) { startRecord zone head l with threadNamesCache := cache }) := by
  obtain ⟨m, hm⟩ : ∃ m, startRecord zone head l = m := ⟨_, rfl⟩
  have hcache : m.threadNamesCache = l.threadNamesCache := by
    have hedits : Edits { l with cursor := 0 } m :=
      hm ▸ ((Edits.refl _).expand (by norm_num)).trans (edits_insertTime zone head _)
    exact hedits.threadNamesCache
  have htext : threadTextOf m head name = threadTextOf l head name := by
    unfold threadTextOf
    rw [hcache]
  obtain ⟨cache, copies, hthread⟩ := insertThreadInfo_eq hread.name_eq m
  rw [htext] at hthread
  rw [hm]
  unfold startRecord at hm
  unfold doLayout endRecord
  rw [hread.head_eq, Option.bind_some]
  simp only [hm, hthread, Option.bind_some]
  obtain ⟨m', hm'⟩ :
      ∃ m', insertStrUtf8 (threadTextOf l head name) { m with threadNamesCache := cache } = m' := ⟨_, rfl⟩
  rw [hm']
  rcases hlevel : insertLevelAndCategory categoriesNameArray head m' with ⟨result, l'⟩
  cases result with
  | parseError =>
    refine ⟨_, cache, rfl, ?_⟩
    rw [hm', hlevel]
    rfl
  | finished =>
    simp only [pythonStyleFormatContent_eq single double hread hfuel, Option.map_some]
    refine ⟨_, cache, rfl, ?_⟩
    rw [hm', hlevel]
    rfl

theorem edits_endRecord (categoriesNameArray : List (List UInt8)) (head : RecordHeader) (format : List UInt8)
    (args : List Argument) (l : Layout) :
    Edits l (endRecord single double categoriesNameArray head format args l) :=
  .ite ((edits_insertLevelAndCategory _ _ _).trans (edits_writeContent single double _ _ _ _))
    (edits_insertLevelAndCategory _ _ _)

/-- The vector keeps a size of a power of two, whatever is laid out. -/
theorem sizeOk_doLayout (hread : Readable data head format name args)
    {categoriesNameArray : List (List UInt8)} {fuel : ℕ} (hfuel : format.length < fuel) {zone : TimeZone}
    {o : Outcome} (ho : doLayout single double categoriesNameArray data fuel zone l = some o)
    (hl : SizeOk l.size) : SizeOk o.layout.size := by
  obtain ⟨o', cache, ho', hlayout⟩ := doLayout_eq single double hread categoriesNameArray hfuel zone l
  obtain rfl := Option.some.inj (ho'.symm.trans ho)
  have hstart : Edits { l with cursor := 0 } (startRecord zone head l) :=
    ((Edits.refl _).expand (by norm_num)).trans (edits_insertTime zone head _)
  rw [hlayout]
  exact ((edits_insertStrUtf8 _ _).trans (edits_endRecord single double _ _ _ _ _)).sizeOk (hstart.sizeOk hl)

/-- In the layouts that are reached all writes were inside, and the size is that of a vector. -/
theorem Reached.spec (h : Reached single double l) : l.writesInside = true ∧ SizeOk l.size := by
  induction h with
  | initial => exact ⟨rfl, .inl rfl⟩
  | @lay l _ data _ _ _ hl hvalid hlt hfuel ho hinside ih =>
    obtain ⟨head, format, name, args, hread⟩ := Readable.of_validate hvalid hlt
    have hbounds := hread.bounds
    exact ⟨hinside, sizeOk_doLayout single double hread (by omega) ho ih.2⟩
  | tidy hl capacity ih =>
    unfold tidyMemory
    split_ifs
    · exact ⟨ih.1, .inl rfl⟩
    · exact ih

end QLog.Layout
