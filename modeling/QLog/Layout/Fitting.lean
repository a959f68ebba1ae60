import QLog.Layout.InlineConversion
import QLog.Layout.NumberRoom

/-!
# Room for a format text

The plans of a value (`FormatInfo.valuePlan`), of a field with its padding (`FormatInfo.fieldPlan`) and of
the turns over a format text (`turnsPlan`). They are about the format text and the arguments only. Turns
without floating-point numbers are written as planned (`At.applyTurns`).
-/

namespace QLog.Layout

open Record Bytes Appender Reserving

variable {l m : Layout} {p size : ℕ} {info : FormatInfo} {arg : Argument}

/-! ## Values -/

/-- The bytes that are reserved for a UTF-16 text. -/
def utf16Room (len : ℕ) : ℕ := add32 (len * 3 % 2 ^ 32 / 2) 1

/-- The plan of a UTF-16 text of `len` bytes. -/
def FormatInfo.utf16Plan (info : FormatInfo) (us : List ℕ) (len : ℕ) : Plan :=
  info.textPlan (utf16Room len) (utf16ToUtf8Sw us).length

/-- The value without a sign that an argument holds. -/
def Argument.unsigned (arg : Argument) : BitVec 64 := BitVec.ofNat 64 (ofLe arg.2)

/-- The value with a sign that an argument holds. -/
def Argument.signed (arg : Argument) : BitVec 64 :=
  match arg.1 with
  | .int8Type => (BitVec.ofNat 8 (ofLe arg.2)).signExtend 64
  | .int16Type => (BitVec.ofNat 16 (ofLe arg.2)).signExtend 64
  | .int32Type => (BitVec.ofNat 32 (ofLe arg.2)).signExtend 64
  | _ => BitVec.ofNat 64 (ofLe arg.2)

/-- The units of a character of 32 bits. -/
def char32Units (value : ℕ) : List ℕ :=
  if value ≤ 0xFFFF then [value]
  else [((value - 0x10000) >>> 10 + 0xD800) % 2 ^ 16, ((value - 0x10000) &&& 0x3FF) + 0xDC00]

/-- The plan of a pointer, with a prefix of its own. -/
def FormatInfo.pointerPlan (info : FormatInfo) (ptr : BitVec 64) : Plan :=
  if ptr ≠ 0 then info.textPlan 2 2 ++ info.integralPlan (info.unsignedMark ptr) sixteen ptr.toNat
  else info.textPlan 4 4

/-- The plan of a value that is not a floating-point number. -/
def FormatInfo.valuePlan (info : FormatInfo) (arg : Argument) : Plan :=
  match arg.1 with
  | .nullType => info.stringPlan 4
  | .pointerType => info.pointerPlan arg.unsigned
  | .boolType => info.stringPlan (if ofLe arg.2 ≠ 0 then 4 else 5)
  | .charType => info.textPlan 1 1
  | .char16Type => info.utf16Plan [ofLe arg.2] 2
  | .char32Type => info.utf16Plan (char32Units (ofLe arg.2)) (if ofLe arg.2 ≤ 0xFFFF then 2 else 4)
  | .int8Type | .int16Type | .int32Type | .int64Type =>
    info.integralPlan (info.signedMark arg.signed) ten arg.signed.toInt
  | .uint8Type | .uint16Type | .uint32Type | .uint64Type =>
    info.integralPlan (info.unsignedMark arg.unsigned) ten arg.unsigned.toNat
  | .stringUtf8Type => info.stringPlan arg.2.length
  | .stringUtf16Type => info.utf16Plan (unitsOf (arg.2.take (2 * (arg.2.length / 2)))) arg.2.length
  | _ => .empty

/-- The argument is not a floating-point number. -/
def Argument.NotFloat (arg : Argument) : Prop := arg.1 ≠ .floatType ∧ arg.1 ≠ .doubleType

namespace At

theorem insertStrUtf16 (h : At l p size info) (us : List ℕ) (len : ℕ) :
    Reaches (l.insertStrUtf16 us len) p size (info.utf16Plan us len) info := h.text _ _

theorem insertChar32 (h : At l p size info) (value : ℕ) : Reaches (l.insertChar32 value) p size
    (info.utf16Plan (char32Units value) (if value ≤ 0xFFFF then 2 else 4)) info := by
  unfold Layout.insertChar32 char32Units
  split_ifs
  · exact h.insertStrUtf16 _ _
  · exact h.insertStrUtf16 _ _

theorem insertBool (h : At l p size info) (value : Bool) :
    Reaches (l.insertBool value) p size (info.stringPlan (if value then 4 else 5)) info := by
  unfold Layout.insertBool
  cases value
  · exact h.insertStrUtf8 (Layout.text "FALSE")
  · exact h.insertStrUtf8 (Layout.text "TRUE")

theorem insertIntegralUnsigned (h : At l p size info) (hp : 4 ≤ p) (value : BitVec 64) (base : Base) :
    Reaches (l.insertIntegralUnsigned value base).2 p size
      (info.integralPlan (info.unsignedMark value) base value.toNat) info := by
  have hvalue : ((value.toNat : ℕ) : ℤ).natAbs < 2 ^ 64 := value.isLt
  obtain rfl : l.formatInfo = info := h.info_eq
  exact h.insertIntegral hp (l.formatInfo.unsignedMark value) hvalue base

theorem insertIntegralSigned (h : At l p size info) (hp : 4 ≤ p) (value : BitVec 64) (base : Base) :
    Reaches (l.insertIntegralSigned value base).2 p size
      (info.integralPlan (info.signedMark value) base value.toInt) info := by
  obtain rfl : l.formatInfo = info := h.info_eq
  exact h.insertIntegral hp (l.formatInfo.signedMark value) (natAbs_toInt_lt value) base

theorem insertPointer (h : At l p size info) (hp : 4 ≤ p) (ptr : BitVec 64) :
    Reaches (l.insertPointer ptr) p size (info.pointerPlan ptr) info := by
  unfold Layout.insertPointer FormatInfo.pointerPlan
  split_ifs with hne
  · refine (h.text 2 (Layout.text "0x")).edits (edits_insertIntegral _ _ _ _) fun hprefix => ?_
    exact hprefix.insertIntegralUnsigned (hp.trans (Nat.le_add_right _ _)) ptr sixteen
  · exact h.text 4 (Layout.text "null")

/-- **A value is inserted.** -/
theorem insertValue (single double : FloatOps) (h : At l p size info) (hp : 4 ≤ p) (harg : arg.NotFloat) :
    Reaches (insertValue single double arg l) p size (info.valuePlan arg) info := by
  obtain ⟨tag, bytes⟩ := arg
  cases tag with
  | nullType => exact h.insertStrUtf8 (Layout.text "null")
  | pointerType => exact h.insertPointer hp _
  | boolType =>
    have hbool := h.insertBool (decide (ofLe bytes ≠ 0))
    simp only [decide_eq_true_eq] at hbool
    exact hbool
  | charType => exact h.insertChar _
  | char16Type => exact h.insertStrUtf16 [ofLe bytes] 2
  | char32Type => exact h.insertChar32 (ofLe bytes)
  | stringUtf8Type => exact h.insertStrUtf8 bytes
  | stringUtf16Type => exact h.insertStrUtf16 _ _
  | int8Type | int16Type | int32Type | int64Type => exact h.insertIntegralSigned hp _ _
  | uint8Type | uint16Type | uint32Type | uint64Type => exact h.insertIntegralUnsigned hp _ _
  | floatType => exact absurd rfl harg.1
  | doubleType => exact absurd rfl harg.2
  | _ => exact h.refl

end At

/-! ## Turns -/

/-- The plan of a field: its value, its padding, and the room for the rest of the format text. -/
def FormatInfo.fieldPlan (info : FormatInfo) (reserve : ℕ) (arg : Argument) : Plan :=
  info.valuePlan arg ++ info.paddingPlan (info.valuePlan arg).length ++
    .ask (reserve + (info.behind (info.valuePlan arg).length).slack)

/-- The specification that an opening brace leaves when it stands for itself. -/
def FormatInfo.opened (info : FormatInfo) : FormatInfo := if info.used then .reset else info

namespace Action

/-- The plan of an action. -/
def plan (info : FormatInfo) (reserve : ℕ) : Action → Plan
  | nothing => .empty
  | closingBrace => info.textPlan 1 1
  | openingBrace => info.opened.textPlan 1 1
  | convert bytes => info.stringPlan bytes.length
  | field info' arg => info'.fieldPlan reserve arg

/-- The specification behind an action. -/
def behind (info : FormatInfo) : Action → FormatInfo
  | nothing | closingBrace | convert _ => info
  | openingBrace => info.opened
  | field info' arg => info'.behind (info'.valuePlan arg).length

/-- The actions over a format text without floating-point numbers. -/
def Regular : Action → Prop
  | nothing | closingBrace | openingBrace => True
  | convert bytes => bytes.length ≤ 4
  | field info arg => info.Produced ∧ arg.NotFloat

end Action

/-- The plan of turns, one after the other. -/
def turnsPlan (D : Dialect) : FormatInfo → List Turn → Plan
  | _, [] => .empty
  | info, t :: ts =>
    .put t.copied.length ++ t.action.plan info (D.reserve t.left) ++ turnsPlan D (t.action.behind info) ts

/-- The specification behind turns. -/
def turnsBehind (info : FormatInfo) (ts : List Turn) : FormatInfo :=
  ts.foldl (fun info t => t.action.behind info) info

namespace At

theorem copyRun (h : At l p size info) (us : List ℕ) :
    Reaches (l.copyRun us) p size (.put us.length) info := by
  rw [copyRun_eq, ← List.length_map UInt8.ofNat]
  exact h.append _

theorem resetUsed (h : At l p size info) : At l.resetUsed p size info.opened := by
  unfold Layout.resetUsed FormatInfo.opened
  rw [h.info_eq]
  split_ifs
  · exact h.setInfo _
  · exact h

/-- **A field is written.** -/
theorem field (single double : FloatOps) (h : At l p size info) (hp : 4 ≤ p) (reserve : ℕ)
    {info' : FormatInfo} (hinfo : info'.Produced) (harg : arg.NotFloat) :
    Reaches (applyAction single double reserve (.field info' arg) l) p size (info'.fieldPlan reserve arg)
      (info'.behind (info'.valuePlan arg).length) := by
  obtain rfl : l.cursor = p := h.cursor_eq
  have hvalue := (h.setInfo info').insertValue single double hp harg
  exact (hvalue.edits (edits_fillAndAlignment _ _) fun hat => hat.fillAndAlignment hinfo.align).edits
    ((Edits.refl _).expandBy reserve) fun hat => hat.expandBy reserve

/-- **A turn is written.** -/
theorem applyAction (single double : FloatOps) (h : At l p size info) (hp : 4 ≤ p) (reserve : ℕ) {a : Action}
    (ha : a.Regular) :
    Reaches (applyAction single double reserve a l) p size (a.plan info reserve) (a.behind info) := by
  cases a with
  | nothing => exact h.refl
  | closingBrace => exact h.insertChar _
  | openingBrace => exact h.resetUsed.insertChar _
  | convert bytes =>
    have hle := h.cursor_le
    have hbytes : bytes.length ≤ 4 := ha
    simp only [Layout.applyAction, Action.plan, FormatInfo.stringPlan, List.length_eq_zero_iff]
    split_ifs
    · exact h.refl
    · rw [Layout.pushAll, foldl_push (by rw [cursor_expandBy, h.cursor_eq]; omega),
        ← List.length_map UInt8.ofNat]
      exact h.text _ _
  | field info' arg => exact h.field single double hp reserve ha.1 ha.2

/-- **Turns are written**, one after the other. -/
theorem applyTurns (single double : FloatOps) {D : Dialect} {ts : List Turn} (h : At l p size info)
    (hp : 4 ≤ p) (hts : ∀ t ∈ ts, t.action.Regular) :
    Reaches (applyTurns single double D l ts) p size (turnsPlan D info ts) (turnsBehind info ts) := by
  induction ts generalizing l p size info with
  | nil => exact h.refl
  | cons t ts ih =>
    obtain ⟨ht, hts⟩ := List.forall_mem_cons.1 hts
    have hrest : ∀ l', Edits l' (Layout.applyTurns single double D l' ts) := fun l' =>
      edits_applyTurns single double D ts l'
    refine ((h.copyRun t.copied).edits (edits_applyAction single double (D.reserve t.left) t.action _)
      fun hcopied => hcopied.applyAction single double ?_ _ ht).edits (hrest _) fun hturn => ih hturn ?_ hts
    · exact hp.trans (Nat.le_add_right _ _)
    · exact hp.trans (Nat.le_add_right _ _)

end At

/-! ## The turns over a format text -/

theorem length_convertUnits_le (us : List ℕ) : (convertUnits us).1.length ≤ 4 := by
  unfold convertUnits
  split
  · exact Nat.zero_le _
  · split_ifs
    · exact Nat.le_add_left 1 3
    · exact Nat.le_add_left 2 2
    · split
      · exact Nat.zero_le _
      · split_ifs
        · exact le_rfl
        · exact Nat.zero_le _
    · exact Nat.zero_le _
    · exact Nat.le_add_left 3 1

theorem regular_takeField (D : Dialect) {us : List ℕ} {args : List Argument}
    (hargs : ∀ a ∈ args, a.NotFloat) :
    (takeField D us args).1.Regular ∧ ∀ a ∈ (takeField D us args).2.2, a.NotFloat := by
  cases args with
  | nil => exact ⟨trivial, hargs⟩
  | cons arg rest =>
    obtain ⟨harg, hrest⟩ := List.forall_mem_cons.1 hargs
    unfold takeField
    cases D.fieldLen 20 us with
    | none => exact ⟨trivial, hargs⟩
    | some n =>
      simp only
      cases hinfo : c20Format (fun k => us[k]?) (n + 1) with
      | none => exact ⟨trivial, hargs⟩
      | some info => exact ⟨⟨produced_c20Format hinfo, harg⟩, hrest⟩

/-- An action is regular if no argument is a floating-point number, and leaves some of the arguments. -/
theorem regular_takeAction (D : Dialect) {us : List ℕ} {args : List Argument}
    (hargs : ∀ a ∈ args, a.NotFloat) :
    (takeAction D us args).1.Regular ∧ ∀ a ∈ (takeAction D us args).2.2, a.NotFloat := by
  cases us with
  | nil => exact ⟨trivial, hargs⟩
  | cons c rest =>
    unfold takeAction
    simp only
    by_cases hclose : c = rbrace
    · rw [if_pos hclose]
      exact ⟨trivial, hargs⟩
    · rw [if_neg hclose]
      split_ifs
      · exact regular_takeField D hargs
      · exact ⟨length_convertUnits_le _, hargs⟩

theorem regular_turns (D : Dialect) {fuel : ℕ} {us : List ℕ} {args : List Argument}
    (hargs : ∀ a ∈ args, a.NotFloat) : ∀ t ∈ (turns D fuel us args).1, t.action.Regular := by
  induction fuel generalizing us args with
  | zero => exact fun t ht => absurd ht List.not_mem_nil
  | succ fuel ih =>
    rw [turns]
    split_ifs
    · exact fun t ht => absurd ht List.not_mem_nil
    · obtain ⟨haction, hrest⟩ := @regular_takeAction D (us.dropWhile D.plain) args hargs
      exact List.forall_mem_cons.2 ⟨haction, ih hrest⟩

end QLog.Layout
