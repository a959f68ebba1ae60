import QLog.Layout.Padding
import QLog.Layout.Turns

/-!
# Edits

Everything that a layout does to its text is a sequence of edits: characters are written, bytes appended,
the vector expanded, the cursor and the format specification set (`Edits`). The cache of the threads is left
alone, the size of the vector stays a power of two (`SizeOk`), and a write outside the vector is not
forgotten. So do the turns over a format text (`edits_applyTurns`).
-/

namespace QLog.Layout

open Record Bytes Appender

/-- A single edit. -/
inductive Edit (l : Layout) : Layout → Prop
  | write (i : ℕ) (c : UInt8) : Edit l (l.write i c)
  | append (bs : List UInt8) : Edit l (l.append bs)
  | expand {n : ℕ} (hn : n < 2 ^ 32) : Edit l (l.expandFormatContentBuffSize n)
  | setCursor (c : ℕ) : Edit l { l with cursor := c }
  | setInfo (info : FormatInfo) : Edit l { l with formatInfo := info }

/-- Edits, one after the other. -/
def Edits : Layout → Layout → Prop := Relation.ReflTransGen Edit

/-- The sizes that a vector takes: none, or a power of two. -/
def SizeOk (n : ℕ) : Prop := n = 0 ∨ ∃ k < 32, n = 2 ^ k

theorem SizeOk.le {n : ℕ} (h : SizeOk n) : n ≤ 2 ^ 31 := by
  rcases h with rfl | ⟨k, hk, rfl⟩
  · exact Nat.zero_le _
  · exact Nat.pow_le_pow_right (by norm_num) (by omega)

theorem sizeOk_roundPowOfTwo {n : ℕ} (hn : n < 2 ^ 32) : SizeOk (roundPowOfTwo n) := by
  rcases Nat.eq_zero_or_pos n with rfl | hpos
  · exact .inl roundPowOfTwo_zero
  · rcases Nat.lt_or_ge (2 ^ 31) n with hlarge | hsmall
    · exact .inl (roundPowOfTwo_of_large hlarge hn)
    · obtain ⟨k, hk, hround, -⟩ := exists_roundPowOfTwo hpos hsmall
      exact .inr ⟨k, hk, hround⟩

/-- The size that `expand_format_content_buff_size` asks for. -/
def wantedSize (l : Layout) (newSize : ℕ) : ℕ :=
  if l.formatInfo.offset ≠ 0 then
    add32 newSize (add32 (add32 l.formatInfo.width l.formatInfo.precision) 2)
  else newSize

theorem expandFormatContentBuffSize_eq (l : Layout) (n : ℕ) : l.expandFormatContentBuffSize n =
    if l.wantedSize n ≤ l.size then l else l.resize (roundPowOfTwo (l.wantedSize n)) := rfl

variable {l l' : Layout}

theorem wantedSize_lt (l : Layout) {n : ℕ} (hn : n < 2 ^ 32) : l.wantedSize n < 2 ^ 32 := by
  unfold wantedSize
  split_ifs
  · exact Nat.mod_lt _ (by norm_num)
  · exact hn

namespace Edits

theorem refl (l : Layout) : Edits l l := Relation.ReflTransGen.refl

theorem trans {l'' : Layout} (h : Edits l l') (h' : Edits l' l'') : Edits l l'' :=
  Relation.ReflTransGen.trans h h'

theorem write (h : Edits l l') (i : ℕ) (c : UInt8) : Edits l (l'.write i c) := h.tail (.write i c)

theorem append (h : Edits l l') (bs : List UInt8) : Edits l (l'.append bs) := h.tail (.append bs)

theorem expand (h : Edits l l') {n : ℕ} (hn : n < 2 ^ 32) : Edits l (l'.expandFormatContentBuffSize n) :=
  h.tail (.expand hn)

theorem setCursor (h : Edits l l') (c : ℕ) : Edits l { l' with cursor := c } := h.tail (.setCursor c)

theorem setInfo (h : Edits l l') (info : FormatInfo) : Edits l { l' with formatInfo := info } :=
  h.tail (.setInfo info)

theorem setBoth (h : Edits l l') (c : ℕ) (info : FormatInfo) :
    Edits l { l' with cursor := c, formatInfo := info } := (h.setCursor c).setInfo info

theorem expandBy (h : Edits l l') (n : ℕ) : Edits l (l'.expandBy n) :=
  h.expand (Nat.mod_lt _ (by norm_num))

theorem push (h : Edits l l') (c : UInt8) : Edits l (l'.push c) := (h.write _ c).setCursor _

/-- A branch of edits. -/
theorem ite {c : Prop} [Decidable c] {m m' : Layout} (h : Edits l m) (h' : Edits l m') :
    Edits l (if c then m else m') := by
  split_ifs
  · exact h
  · exact h'

/-- A loop of edits. -/
theorem foldl {α : Type*} (f : Layout → α → Layout) (hf : ∀ l a, Edits l (f l a)) (h : Edits l l')
    (as : List α) : Edits l (as.foldl f l') := by
  induction as generalizing l' with
  | nil => exact h
  | cons a as ih => exact ih (h.trans (hf l' a))

/-! ## What edits leave alone -/

/-- **The cache of the threads is left alone.** -/
theorem threadNamesCache (h : Edits l l') : l'.threadNamesCache = l.threadNamesCache := by
  induction h with
  | refl => rfl
  | tail _ hedit ih =>
    rw [← ih]
    cases hedit with
    | expand n =>
      rw [expandFormatContentBuffSize_eq]
      split_ifs <;> rfl
    | _ => rfl

/-- **A write outside the vector is not forgotten.** -/
theorem writesInside (h : Edits l l') (hl : l'.writesInside = true) : l.writesInside = true := by
  induction h with
  | refl => exact hl
  | tail _ hedit ih =>
    refine ih ?_
    cases hedit with
    | write i c => exact (Bool.and_eq_true_iff.1 hl).1
    | append bs => exact (Bool.and_eq_true_iff.1 hl).1
    | expand n =>
      rw [expandFormatContentBuffSize_eq] at hl
      split_ifs at hl
      · exact hl
      · exact hl
    | setCursor c => exact hl
    | setInfo info => exact hl

/-- **The vector keeps a size of a power of two.** -/
theorem sizeOk (h : Edits l l') (hl : SizeOk l.size) : SizeOk l'.size := by
  induction h with
  | refl => exact hl
  | @tail m _ _ hedit ih =>
    cases hedit with
    | expand hn =>
      rw [expandFormatContentBuffSize_eq]
      split_ifs
      · exact ih
      · exact sizeOk_roundPowOfTwo (m.wantedSize_lt hn)
    | _ => exact ih

end Edits

/-! ## Values -/

theorem edits_reverse (b e : ℕ) (l : Layout) : Edits l (l.reverse b e) := by
  induction hn : e - b using Nat.strong_induction_on generalizing b e l with
  | _ n ih =>
    rw [reverse]
    split_ifs
    · exact (((Edits.refl l).write _ _).write _ _).trans (ih _ (by omega) _ _ _ rfl)
    · exact .refl l

theorem edits_insertStrUtf8 (str : List UInt8) (l : Layout) : Edits l (l.insertStrUtf8 str) :=
  (Edits.refl l).ite (((Edits.refl l).expandBy _).append _)

theorem edits_insertStrUtf16 (str : List ℕ) (len : ℕ) (l : Layout) : Edits l (l.insertStrUtf16 str len) :=
  ((Edits.refl l).expandBy _).append _

theorem edits_insertChar (c : UInt8) (l : Layout) : Edits l (l.insertChar c) :=
  ((Edits.refl l).expandBy _).push c

theorem edits_insertChar32 (value : ℕ) (l : Layout) : Edits l (l.insertChar32 value) :=
  (edits_insertStrUtf16 _ _ l).ite (edits_insertStrUtf16 _ _ l)

theorem edits_fillAt (a n : ℕ) (l : Layout) : Edits l (l.fillAt a n) :=
  (Edits.refl l).foldl _ (fun m _ => (Edits.refl m).write _ _) _

theorem edits_alignRight (p dis : ℕ) (s : Layout × ℕ × ℕ) (i : ℕ) : Edits s.1 (alignRight p dis s i).1 := by
  unfold alignRight
  simp only
  split_ifs <;> exact (Edits.refl _).write _ _

theorem edits_foldl_alignRight (p dis : ℕ) (s : Layout × ℕ × ℕ) (is : List ℕ) :
    Edits s.1 (is.foldl (alignRight p dis) s).1 := by
  induction is generalizing s with
  | nil => exact .refl _
  | cons i is ih => exact (edits_alignRight p dis s i).trans (ih _)

theorem edits_alignedRight (p dis : ℕ) (l : Layout) : Edits l (alignedRight p dis l) :=
  (edits_foldl_alignRight p dis (l, 0, 0) _).trans (edits_fillAt _ _ _)

theorem edits_alignedMiddle (p dis : ℕ) (l : Layout) : Edits l (alignedMiddle p dis l) := by
  unfold alignedMiddle
  exact (((Edits.refl l).foldl _ (fun m _ => (Edits.refl m).write _ _) _).trans (edits_fillAt _ _ _)).trans
    (edits_fillAt _ _ _)

theorem edits_fillAndAlignment (p : ℕ) (l : Layout) : Edits l (l.fillAndAlignment p) := by
  have hpad : ∀ a n, Edits l a → Edits l { a with cursor := add32 a.cursor n, formatInfo := .cleared } :=
    fun a n ha => ha.setBoth _ _
  rw [fillAndAlignment_eq rfl]
  exact .ite (hpad _ _ (.ite (edits_alignedRight _ _ l) (.ite (edits_fillAt _ _ l)
    (.ite (edits_alignedMiddle _ _ l) (.refl l))))) (.refl l)

theorem edits_writePairs (value p : ℕ) (l : Layout) : Edits l (l.writePairs value p) := by
  induction value using Nat.strong_induction_on generalizing p l with
  | _ value ih =>
    rw [writePairs]
    simp only
    split_ifs
    · exact (((Edits.refl l).write _ _).write _ _).trans (ih _ (by omega) _ _)
    · exact ((Edits.refl l).write _ _).write _ _
    · exact (Edits.refl l).write _ _

theorem edits_writeDigits (base : Base) (value : ℤ) (e : ℕ) (l : Layout) :
    Edits l (l.writeDigits base value e).2 := by
  induction value, e, l using writeDigits.induct base with
  | case1 value e l next hzero =>
    rw [writeDigits, if_pos hzero]
    exact (Edits.refl l).push _
  | case2 value e l digit m next e' hne ih =>
    rw [writeDigits, if_neg hne]
    exact ((Edits.refl l).push _).trans ih

theorem edits_writeExponent (e : ℕ) (l : Layout) : Edits l (l.writeExponent e) := by
  induction e, l using writeExponent.induct with
  | case1 e l hzero =>
    rw [writeExponent, if_pos hzero]
    exact (Edits.refl l).push _
  | case2 e l m hne ih =>
    rw [writeExponent, if_neg hne]
    exact ((Edits.refl l).push _).trans ih

/-- The cursor of `fill_e_style` behind its jump. -/
def jumped (bitcount beginCursor : ℕ) (l : Layout) : Layout :=
  let jump := toI32 l.cursor - (toI32 (sub32 (add32 beginCursor l.formatInfo.width) bitcount) - 2)
  if 0 < jump then
    let l := { l with cursor := sub32 l.cursor jump.toNat }
    if l.cursor = beginCursor then { l with cursor := add32 l.cursor 1 } else l
  else l

/-- The exponent with its sign, the digits last one first. -/
def pushExponent (eCount : ℕ) (l : Layout) : Layout :=
  let l := (l.push (ascii (if l.formatInfo.upper then 'E' else 'e'))).push (ascii '+')
  let l := l.writeExponent eCount
  if eCount ≤ 9 then l.push (ascii '0') else l

theorem fillEStyle_eq (e b : ℕ) (l : Layout) : l.fillEStyle e b =
    let m := jumped (bitCount e) b (l.expandBy (bitCount e + 3))
    (m.pushExponent e).reverse (add32 (add32 m.cursor 1) 1) (sub32 (m.pushExponent e).cursor 1) := rfl

theorem edits_jumped (bitcount b : ℕ) (l : Layout) : Edits l (jumped bitcount b l) :=
  .ite (.ite (((Edits.refl l).setCursor _).setCursor _) ((Edits.refl l).setCursor _)) (.refl l)

theorem edits_pushExponent (e : ℕ) (l : Layout) : Edits l (l.pushExponent e) := by
  have hsign := ((Edits.refl l).push (ascii (if l.formatInfo.upper then 'E' else 'e'))).push (ascii '+')
  have hdigits := hsign.trans (edits_writeExponent e _)
  exact .ite (hdigits.push _) hdigits

theorem edits_fillEStyle (e b : ℕ) (l : Layout) : Edits l (l.fillEStyle e b) := by
  rw [fillEStyle_eq]
  exact ((((Edits.refl l).expandBy _).trans (edits_jumped _ _ _)).trans (edits_pushExponent _ _)).trans
    (edits_reverse _ _ _)

theorem edits_pushPrefix (l : Layout) : Edits l l.pushPrefix :=
  .ite (.ite (((Edits.refl l).push _).push _) (.ite (((Edits.refl l).push _).push _) (.refl l))) (.refl l)

/-- The sign and the base prefix. -/
def pushMark (mark : Option UInt8) (l : Layout) : Layout :=
  (match mark with
    | some c => l.push c
    | none => l).pushPrefix

/-- What follows the digits, last one first, of an integer in scientific notation: the point behind the first
digit, and the exponent. -/
def scientific (eCount beginCursor : ℕ) (l : Layout) : Layout :=
  let l := l.write l.cursor (l.content (sub32 l.cursor 1))
  let l := l.write (sub32 l.cursor 1) (ascii '.')
  let l := { l with cursor := add32 l.cursor 1 }
  (l.reverse beginCursor (sub32 l.cursor 1)).fillEStyle eCount beginCursor

/-- The branches of `insertIntegral`. -/
theorem snd_insertIntegral (mark : Option UInt8) (value : ℤ) (base : Base) (l : Layout) :
    (l.insertIntegral mark value base).2 =
      let b := baseOfType l.formatInfo.type base
      let m := (l.expandBy (if 16 ≤ b.val then 16 else if 10 ≤ b.val then 20 else 64)).pushMark mark
      let r := m.writeDigits b value 0
      if b.val = 10 ∧ m.formatInfo.type ≠ ascii 'e' then m.writeDecimalDigits value.natAbs
      else if r.2.formatInfo.type = ascii 'e' then r.2.scientific r.1 m.cursor
      else r.2.reverse m.cursor (sub32 r.2.cursor 1) := by
  unfold insertIntegral
  simp only
  rw [apply_ite Prod.snd, apply_ite Prod.snd]
  rfl

theorem edits_pushMark (mark : Option UInt8) (l : Layout) : Edits l (l.pushMark mark) := by
  unfold pushMark
  cases mark
  · exact edits_pushPrefix l
  · exact ((Edits.refl l).push _).trans (edits_pushPrefix _)

theorem edits_scientific (e b : ℕ) (l : Layout) : Edits l (l.scientific e b) :=
  ((((Edits.refl l).write _ _).write _ _).setCursor _).trans
    ((edits_reverse _ _ _).trans (edits_fillEStyle e b _))

theorem edits_insertIntegral (mark : Option UInt8) (value : ℤ) (base : Base) (l : Layout) :
    Edits l (l.insertIntegral mark value base).2 := by
  have hmark := ((Edits.refl l).expandBy (if 16 ≤ (baseOfType l.formatInfo.type base).val then 16
    else if 10 ≤ (baseOfType l.formatInfo.type base).val then 20 else 64)).trans (edits_pushMark mark _)
  rw [snd_insertIntegral]
  refine .ite (hmark.trans ((edits_writePairs _ _ _).setCursor _)) ?_
  exact .ite ((hmark.trans (edits_writeDigits _ _ _ _)).trans (edits_scientific _ _ _))
    ((hmark.trans (edits_writeDigits _ _ _ _)).trans (edits_reverse _ _ _))

theorem edits_insertPointer (ptr : BitVec 64) (l : Layout) : Edits l (l.insertPointer ptr) :=
  .ite ((((Edits.refl l).expandBy _).append _).trans (edits_insertIntegral _ _ _ _))
    (((Edits.refl l).expandBy _).append _)

theorem edits_writeFraction (ops : FloatOps) (n : ℕ) (value : ops.carrier) (l : Layout) :
    Edits l (writeFraction ops n value l) := by
  induction n generalizing value l with
  | zero => exact .refl l
  | succ n ih => exact ((Edits.refl l).push _).trans (ih _ _)

theorem edits_movePoint (moves p : ℕ) (l : Layout) : Edits l (movePoint moves p l).2 := by
  induction moves generalizing p l with
  | zero => exact .refl l
  | succ moves ih => exact (((Edits.refl l).write _ _).write _ _).trans (ih _ _)

section Decimal

variable (ops : FloatOps) (value : ops.carrier)

/-- The integral part of a decimal. -/
def integralPart (l : Layout) : ℕ × Layout :=
  if ops.nonneg value then l.insertIntegralUnsigned (ops.toU64 value) ten
  else l.insertIntegralSigned (ops.toI64 value) ten

/-- The type `e` is written as `Z` until the point is moved. -/
def toZ (l : Layout) : Layout :=
  if l.formatInfo.type = ascii 'e' then { l with formatInfo := { l.formatInfo with type := ascii 'Z' } }
  else l

/-- The precision of a decimal whose integral part has this length. -/
def decimalPrecision (defaultPrecision : ℕ) (narrow : ℕ → ℕ → ℤ) (info : FormatInfo) (intWidth : ℕ) : ℤ :=
  let precision : ℤ := if info.precision ≠ 2 ^ 32 - 1 then info.precision else defaultPrecision
  if 0 < info.width ∧ info.width < add32 (add32 precision.toNat 1) intWidth then narrow info.width intWidth
  else precision

/-- The point and the digits of the fraction. -/
def writePoint (hasPoint : Bool) (precision : ℤ) (l : Layout) : Layout :=
  writeFraction ops precision.toNat value (if hasPoint then l.push (ascii '.') else l)

/-- The cursor that a precision sets in scientific notation. -/
def cutPrecision (pointIndex beginCursor : ℕ) (l : Layout) : Layout :=
  if 0 < l.formatInfo.precision ∧ l.formatInfo.precision < sub32 l.cursor beginCursor then
    { l with cursor := add32 (add32 pointIndex l.formatInfo.precision) 1 }
  else l

/-- What follows the digits of a decimal in scientific notation. -/
def exponentPart (intWidth pointIndex beginCursor : ℕ) (l : Layout) : Layout :=
  let l := { l with formatInfo := { l.formatInfo with type := ascii 'e' } }
  let moves := sub32 intWidth 1
  let r := if pointIndex ≠ 0 then movePoint moves pointIndex l else (pointIndex, l)
  (r.2.cutPrecision r.1 beginCursor).fillEStyle moves beginCursor

/-- What is taken off a decimal is its integral part. -/
def fraction : ops.carrier :=
  ops.fabs (if ops.nonneg value then ops.subU64 value (ops.toU64 value)
    else ops.subI64 value (ops.toI64 value))

/-- The parts of a decimal. -/
theorem insertDecimalOf_eq (defaultPrecision : ℕ) (narrow : ℕ → ℕ → ℤ) (l : Layout) :
    insertDecimalOf ops defaultPrecision narrow value l =
      let r := integralPart ops value l.toZ
      let precision := decimalPrecision defaultPrecision narrow l.toZ.formatInfo r.1
      let hasPoint := decide (0 < precision ∨ l.toZ.formatInfo.type = ascii 'Z' ∧ 1 < r.1)
      let m := r.2.expandBy (add32 (precision % 2 ^ 32).toNat 5)
      let w := writePoint ops (fraction ops value) hasPoint precision m
      if w.formatInfo.type = ascii 'Z' then w.exponentPart r.1 (if hasPoint then m.cursor else 0) l.toZ.cursor
      else w := by
  unfold insertDecimalOf
  simp only
  rfl

theorem edits_integralPart (l : Layout) : Edits l (integralPart ops value l).2 := by
  unfold integralPart
  split_ifs <;> exact edits_insertIntegral _ _ _ _

theorem edits_exponentPart (intWidth pointIndex b : ℕ) (l : Layout) :
    Edits l (l.exponentPart intWidth pointIndex b) := by
  unfold exponentPart
  have hmove : ∀ m, Edits m
      (if pointIndex ≠ 0 then movePoint (sub32 intWidth 1) pointIndex m else (pointIndex, m)).2 := fun m => by
      split_ifs
      · exact edits_movePoint _ _ m
      · exact .refl m
  have hcut : ∀ p m, Edits m (cutPrecision p b m) := fun p m => .ite ((Edits.refl m).setCursor _) (.refl m)
  exact (((Edits.refl l).setInfo _).trans (hmove _)).trans ((hcut _ _).trans (edits_fillEStyle _ _ _))

theorem edits_insertDecimalOf (defaultPrecision : ℕ) (narrow : ℕ → ℕ → ℤ) (l : Layout) :
    Edits l (insertDecimalOf ops defaultPrecision narrow value l) := by
  have hz : Edits l l.toZ := .ite ((Edits.refl l).setInfo _) (.refl l)
  have hpart : ∀ hasPoint precision n, Edits l (writePoint ops (fraction ops value) hasPoint precision
      ((integralPart ops value l.toZ).2.expandBy n)) := fun hasPoint precision n => by
    have hexpand := (hz.trans (edits_integralPart ops value l.toZ)).expandBy n
    exact Edits.trans (.ite (hexpand.push _) hexpand) (edits_writeFraction ops _ _ _)
  rw [insertDecimalOf_eq]
  exact .ite ((hpart _ _ _).trans (edits_exponentPart _ _ _ _)) (hpart _ _ _)

theorem edits_insertDecimalFloat (l : Layout) : Edits l (l.insertDecimalFloat ops value) :=
  edits_insertDecimalOf ops value 7 _ l

theorem edits_insertDecimalDouble (l : Layout) : Edits l (l.insertDecimalDouble ops value) :=
  edits_insertDecimalOf ops value 15 _ l

end Decimal

/-! ## Turns -/

variable (single double : FloatOps)

theorem edits_insertValue (arg : Argument) (l : Layout) : Edits l (insertValue single double arg l) := by
  have hsigned : ∀ v, Edits l (l.insertIntegralSigned v ten).2 := fun v => edits_insertIntegral _ _ _ _
  have hunsigned : ∀ v, Edits l (l.insertIntegralUnsigned v ten).2 := fun v => edits_insertIntegral _ _ _ _
  unfold insertValue
  dsimp only
  split
  · exact edits_insertStrUtf8 _ l
  · exact edits_insertPointer _ l
  · exact edits_insertStrUtf8 _ l
  · exact edits_insertChar _ l
  · exact edits_insertStrUtf16 _ _ l
  · exact edits_insertChar32 _ l
  · exact hsigned _
  · exact hsigned _
  · exact hsigned _
  · exact hsigned _
  · exact hunsigned _
  · exact hunsigned _
  · exact hunsigned _
  · exact hunsigned _
  · exact edits_insertDecimalFloat single _ l
  · exact edits_insertDecimalDouble double _ l
  · exact edits_insertStrUtf8 _ l
  · exact edits_insertStrUtf16 _ _ l
  · exact .refl l

theorem edits_pushAll (cs : List ℕ) (l : Layout) : Edits l (l.pushAll cs) :=
  ((Edits.refl l).expandBy _).foldl _ (fun m _ => (Edits.refl m).push _) _

theorem edits_writeRun (dst : ℕ) (us : List ℕ) (l : Layout) : Edits l (l.writeRun dst us) := by
  induction us generalizing dst l with
  | nil => exact .refl l
  | cons u us ih => exact ((Edits.refl l).write _ _).trans (ih _ _)

theorem edits_copyRun (us : List ℕ) (l : Layout) : Edits l (l.copyRun us) :=
  (edits_writeRun _ us l).setCursor _

theorem edits_resetUsed (l : Layout) : Edits l l.resetUsed := .ite ((Edits.refl l).setInfo _) (.refl l)

theorem edits_applyAction (reserve : ℕ) (a : Action) (l : Layout) :
    Edits l (applyAction single double reserve a l) := by
  cases a with
  | nothing => exact .refl l
  | closingBrace => exact edits_insertChar _ l
  | openingBrace => exact (edits_resetUsed l).trans (edits_insertChar _ _)
  | convert bytes => exact .ite (.refl l) (edits_pushAll bytes l)
  | field info arg =>
    exact ((((Edits.refl l).setInfo info).trans (edits_insertValue single double arg _)).trans
      (edits_fillAndAlignment _ _)).expandBy reserve

/-- **Turns are edits.** -/
theorem edits_applyTurns (D : Dialect) (ts : List Turn) (l : Layout) :
    Edits l (applyTurns single double D l ts) :=
  (Edits.refl l).foldl _ (fun m _ => (edits_copyRun _ m).trans (edits_applyAction single double _ _ _)) ts

/-! ## Records -/

theorem edits_insertTime (zone : TimeZone) (head : RecordHeader) (l : Layout) :
    Edits l (insertTime zone head l).2 :=
  (((Edits.refl l).expandBy _).append _).append _

theorem edits_insertLevelAndCategory (categories : List (List UInt8)) (head : RecordHeader) (l : Layout) :
    Edits l (insertLevelAndCategory categories head l).2 := by
  unfold insertLevelAndCategory
  split
  · exact .refl l
  · have hlevel : ∀ level, Edits l ((l.insertStrUtf8 level).insertChar (ascii '\t')) := fun level =>
      (edits_insertStrUtf8 _ l).trans (edits_insertChar _ _)
    have hcategory : ∀ level name : List UInt8,
        Edits l (((((l.insertStrUtf8 level).insertChar (ascii '\t')).insertChar (ascii '[')).insertStrUtf8
          name).insertStrUtf8 (text "]\t")) := fun level name =>
      (((hlevel level).trans (edits_insertChar _ _)).trans (edits_insertStrUtf8 _ _)).trans
        (edits_insertStrUtf8 _ _)
    dsimp only
    split
    · exact hlevel _
    · exact hlevel _
    · exact hcategory _ _

end QLog.Layout
