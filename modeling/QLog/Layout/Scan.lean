import QLog.Layout.DoLayout

/-!
# Scanning a format text

What the loops over a format text do, apart from reading: `nextTurn` takes the units that are left and the
arguments that are left, and says what one turn writes and what it leaves. The units before a brace are
copied; an opening brace starts a replacement field if an argument is left and the field is closed, and
otherwise stands for itself. The two functions of the layout differ in how far a field goes
(`fieldLenUtf8`, `fieldLenUtf16`), in what they copy, and in the room that they reserve.

On a record that `validate` accepts, the loops run these turns (`formatLoopUtf8_eq`, `formatLoopUtf16_eq`):
they end, and read the format text and the arguments only.
-/

namespace QLog.Layout

open Record Bytes Appender

/-! ## Turns -/

/-- The braces as units. -/
abbrev lbrace : ℕ := '\x7b'.toNat

/-- The closing brace. -/
abbrev rbrace : ℕ := '\x7d'.toNat

/-- An argument: its tag, and the bytes of its value. -/
abbrev Argument := ArgumentTag × List UInt8

/-- What a turn does behind the units that it copies. -/
inductive Action
  | nothing
  | closingBrace
  | openingBrace
  | convert (bytes : List ℕ)
  | field (info : FormatInfo) (arg : Argument)

/-- A turn: the units that are copied, and what follows; `left` is the number of units behind it. -/
structure Turn where
  copied : List ℕ
  action : Action
  left : ℕ

/-- How a format text is read: which units are copied, how long the field behind an opening brace is, and
the room that is reserved for so many units. -/
structure Dialect where
  plain : ℕ → Bool
  fieldLen : ℕ → List ℕ → Option ℕ
  reserve : ℕ → ℕ

/-- The length of a UTF-8 field, which is closed among so many units. -/
def fieldLenUtf8 : ℕ → List ℕ → Option ℕ
  | 0, _ | _, [] => none
  | window + 1, c :: us =>
    if c = rbrace then some 0
    else if c = lbrace then none
    else (fieldLenUtf8 window us).map (· + 1)

/-- The length of a UTF-16 field, in which two opening braces count as text. -/
def fieldLenUtf16 : ℕ → List ℕ → Option ℕ
  | 0, _ | _, [] => none
  | window + 1, c :: us =>
    if c = rbrace then some 0
    else if c = lbrace then
      match us with
      | c' :: us' => if c' = lbrace then (fieldLenUtf16 (window - 1) us').map (· + 2) else none
      | [] => none
    else (fieldLenUtf16 window us).map (· + 1)

/-- `python_style_format_content_utf8`. -/
def utf8 : Dialect where
  plain c := decide (c ≠ lbrace ∧ c ≠ rbrace)
  fieldLen := fieldLenUtf8
  reserve left := left

/-- `python_style_format_content_utf16`. -/
def utf16 : Dialect where
  plain c := decide (c < 0x80 ∧ c ≠ lbrace ∧ c ≠ rbrace)
  fieldLen := fieldLenUtf16
  reserve left := left * 3 % 2 ^ 32 / 2

/-- The bytes of a unit that is not ASCII, and how many units it takes with its partner. -/
def convertUnits : List ℕ → List ℕ × ℕ
  | [] => ([], 0)
  | c :: us =>
    if c < 0x80 then ([c], 1)
    else if c < 0x800 then ([0xC0 ||| c >>> 6, 0x80 ||| c &&& 0x3F], 1)
    else if 0xD800 ≤ c ∧ c ≤ 0xDBFF then
      match us with
      | [] => ([], 1)
      | c2 :: _ =>
        if 0xDC00 ≤ c2 ∧ c2 ≤ 0xDFFF then
          let codepoint := 0x10000 + (c - 0xD800) * 0x400 + (c2 - 0xDC00)
          ([0xF0 ||| codepoint >>> 18, 0x80 ||| codepoint >>> 12 &&& 0x3F,
            0x80 ||| codepoint >>> 6 &&& 0x3F, 0x80 ||| codepoint &&& 0x3F], 2)
        else ([], 1)
    else if 0xDC00 ≤ c ∧ c ≤ 0xDFFF then ([], 1)
    else ([0xE0 ||| c >>> 12, 0x80 ||| c >>> 6 &&& 0x3F, 0x80 ||| c &&& 0x3F], 1)

/-- What is taken behind an opening brace: the action, and the number of units. -/
def takeField (D : Dialect) (us : List ℕ) (args : List Argument) : Action × ℕ × List Argument :=
  match args with
  | [] => (.openingBrace, 0, [])
  | arg :: rest =>
    match D.fieldLen 20 us with
    | none => (.openingBrace, 0, args)
    | some n =>
      match c20Format (fun k => us[k]?) (n + 1) with
      | none => (.nothing, 0, args)
      | some info => (.field info arg, if info.offset ≠ 0 then info.offset + 1 else n + 1, rest)

/-- What is taken behind the units that are copied. -/
def takeAction (D : Dialect) (us : List ℕ) (args : List Argument) : Action × ℕ × List Argument :=
  match us with
  | [] => (.nothing, 0, args)
  | c :: rest =>
    if c = rbrace then (.closingBrace, if rest.head? = some rbrace then 2 else 1, args)
    else if c = lbrace then
      let r := takeField D rest args
      (r.1, 1 + r.2.1, r.2.2)
    else
      let r := convertUnits us
      (.convert r.1, r.2, args)

/-- A turn, the units behind it, and the arguments that are left. -/
def nextTurn (D : Dialect) (us : List ℕ) (args : List Argument) : Turn × List ℕ × List Argument :=
  let copied := us.takeWhile D.plain
  let r := takeAction D (us.dropWhile D.plain) args
  let rest := (us.dropWhile D.plain).drop r.2.1
  (⟨copied, r.1, rest.length⟩, rest, r.2.2)

/-- The turns over a format text, at most so many, and the arguments that are left. -/
def turns (D : Dialect) : ℕ → List ℕ → List Argument → List Turn × List Argument
  | 0, _, args => ([], args)
  | fuel + 1, us, args =>
    if us = [] then ([], args)
    else
      let r := nextTurn D us args
      let rs := turns D fuel r.2.1 r.2.2
      (r.1 :: rs.1, rs.2)

/-! ## What is written -/

variable (single double : FloatOps)

/-- An argument is inserted. -/
def insertValue (arg : Argument) (l : Layout) : Layout :=
  let v := ofLe arg.2
  match arg.1 with
  | .nullType => l.insertStrUtf8 (text "null")
  | .pointerType => l.insertPointer (BitVec.ofNat 64 v)
  | .boolType => l.insertBool (v ≠ 0)
  | .charType => l.insertChar (UInt8.ofNat v)
  | .char16Type => l.insertChar16 v
  | .char32Type => l.insertChar32 v
  | .int8Type => (l.insertIntegralSigned ((BitVec.ofNat 8 v).signExtend 64) ten).2
  | .int16Type => (l.insertIntegralSigned ((BitVec.ofNat 16 v).signExtend 64) ten).2
  | .int32Type => (l.insertIntegralSigned ((BitVec.ofNat 32 v).signExtend 64) ten).2
  | .int64Type => (l.insertIntegralSigned (BitVec.ofNat 64 v) ten).2
  | .uint8Type | .uint16Type | .uint32Type | .uint64Type =>
    (l.insertIntegralUnsigned (BitVec.ofNat 64 v) ten).2
  | .floatType => l.insertDecimalFloat single (single.ofBytes arg.2)
  | .doubleType => l.insertDecimalDouble double (double.ofBytes arg.2)
  | .stringUtf8Type => l.insertStrUtf8 arg.2
  | .stringUtf16Type => l.insertStrUtf16 (unitsOf (arg.2.take (2 * (arg.2.length / 2)))) arg.2.length
  | _ => l

/-- Units are copied to the indices from `dst` on. -/
def writeRun (dst : ℕ) : List ℕ → Layout → Layout
  | [], l => l
  | c :: cs, l => writeRun (dst + 1) cs (l.write dst (UInt8.ofNat c))

/-- Units are copied to the cursor. -/
def copyRun (us : List ℕ) (l : Layout) : Layout :=
  { l.writeRun l.cursor us with cursor := add32 l.cursor us.length }

/-- The format specification is reset if it has been used. -/
def resetUsed (l : Layout) : Layout :=
  if l.formatInfo.used then { l with formatInfo := .reset } else l

/-- What a turn writes behind the units that it copies. -/
def applyAction (reserve : ℕ) (a : Action) (l : Layout) : Layout :=
  match a with
  | .nothing => l
  | .closingBrace => l.insertChar (ascii '\x7d')
  | .openingBrace => l.resetUsed.insertChar (ascii '\x7b')
  | .convert bytes => if bytes = [] then l else l.pushAll bytes
  | .field info arg =>
    ((insertValue single double arg { l with formatInfo := info }).fillAndAlignment l.cursor).expandBy reserve

/-- What a turn writes. -/
def applyTurn (D : Dialect) (l : Layout) (t : Turn) : Layout :=
  applyAction single double (D.reserve t.left) t.action (l.copyRun t.copied)

/-! ## Reading -/

section Reading

variable {style : ℕ → Option ℕ} {units : List ℕ}

/-- A character of a text of bytes is a unit. -/
theorem ofNat_eq_ascii {u : ℕ} (hu : u < 256) (c : Char) (hc : c.toNat < 256) :
    UInt8.ofNat u = ascii c ↔ u = c.toNat := by
  rw [ascii, ← UInt8.toNat_inj, UInt8.toNat_ofNat', UInt8.toNat_ofNat', Nat.mod_eq_of_lt hu, Nat.mod_eq_of_lt hc]

theorem findBraceAndCopySw_eq {data : List UInt8} {us : List ℕ} (h256 : ∀ u ∈ us, u < 256) {p : ℕ}
    (h : ∀ k (hk : k < us.length), data[p + k]? = some (UInt8.ofNat us[k])) (dst : ℕ) (l : Layout) :
    findBraceAndCopySw data us.length p dst l = some ((us.takeWhile utf8.plain).length,
      decide (us.dropWhile utf8.plain ≠ []), l.writeRun dst (us.takeWhile utf8.plain)) := by
  induction us generalizing p dst l with
  | nil => rfl
  | cons u us ih =>
    have hu : u < 256 := h256 u List.mem_cons_self
    have hread : data[p]? = some (UInt8.ofNat u) := h 0 (Nat.succ_pos _)
    rw [List.length_cons, findBraceAndCopySw, hread, Option.bind_some]
    by_cases hb : u = lbrace ∨ u = rbrace
    · have hplain : ¬utf8.plain u = true := by
        simp only [utf8, decide_eq_true_eq]
        tauto
      rw [if_pos (hb.imp (ofNat_eq_ascii hu _ (by decide)).2 (ofNat_eq_ascii hu _ (by decide)).2),
        List.takeWhile_cons_of_neg hplain, List.dropWhile_cons_of_neg hplain]
      rfl
    · have hplain : utf8.plain u = true := by
        simp only [utf8, decide_eq_true_eq]
        tauto
      rw [if_neg (fun hc => hb (hc.imp (ofNat_eq_ascii hu _ (by decide)).1 (ofNat_eq_ascii hu _ (by decide)).1)),
        ih (fun v hv => h256 v (List.mem_cons_of_mem _ hv)) fun k hk => ?_, Option.map_some,
        List.takeWhile_cons_of_pos hplain, List.dropWhile_cons_of_pos hplain]
      · rfl
      · rw [show p + 1 + k = p + (k + 1) by omega]
        exact h (k + 1) (Nat.succ_lt_succ hk)

theorem fieldLenUtf16_zero (us : List ℕ) : fieldLenUtf16 0 us = none := by cases us <;> rfl

theorem findBraceAndConvertU16Sw_eq {us : List ℕ} {k : ℕ} (h : ∀ j < us.length, style (k + j) = us[j]?) (dst : ℕ)
    (l : Layout) : findBraceAndConvertU16Sw style us.length k dst l = some ((us.takeWhile utf16.plain).length,
      (us.dropWhile utf16.plain).head?.any (· < 0x80), (us.dropWhile utf16.plain).head?.any (0x80 ≤ ·),
      l.writeRun dst (us.takeWhile utf16.plain)) := by
  induction us generalizing k dst l with
  | nil => rfl
  | cons u us ih =>
    have hread : style k = some u := h 0 (Nat.succ_pos _)
    have hplain : utf16.plain u = true ↔ u < 0x80 ∧ ¬(u = lbrace ∨ u = rbrace) := by
      simp only [utf16, decide_eq_true_eq]
      tauto
    rw [List.length_cons, findBraceAndConvertU16Sw, hread, Option.bind_some]
    by_cases hnon : 0x80 ≤ u
    · have hnot : ¬utf16.plain u = true := fun hp => absurd (hplain.1 hp).1 (Nat.not_lt.2 hnon)
      rw [if_pos hnon, List.takeWhile_cons_of_neg hnot, List.dropWhile_cons_of_neg hnot]
      simp [writeRun, hnon]
    · by_cases hb : u = lbrace ∨ u = rbrace
      · have hnot : ¬utf16.plain u = true := fun hp => (hplain.1 hp).2 hb
        rw [if_neg hnon, if_pos hb, List.takeWhile_cons_of_neg hnot, List.dropWhile_cons_of_neg hnot]
        simp only [List.length_nil, List.head?_cons, Option.any_some, writeRun, decide_eq_true (Nat.not_le.1 hnon),
          decide_eq_false hnon]
      · have hpos : utf16.plain u = true := hplain.2 ⟨Nat.not_le.1 hnon, hb⟩
        rw [if_neg hnon, if_neg hb, ih fun j hj => ?_, Option.map_some, List.takeWhile_cons_of_pos hpos,
          List.dropWhile_cons_of_pos hpos]
        · rfl
        · rw [show k + 1 + j = k + (j + 1) by omega]
          exact h (j + 1) (Nat.succ_lt_succ hj)

theorem scanFieldUtf8_eq {us : List ℕ} {k more len bound : ℕ} (hlen : len = k + us.length)
    (hbound : bound = k + more) (h : ∀ j < us.length, style (k + j) = us[j]?) (n : ℕ) :
    ∃ r, scanFieldUtf8 style len bound more k n = some r ∧
      (∀ m, fieldLenUtf8 more us = some m → r = (n + m, true)) ∧ (fieldLenUtf8 more us = none → r.2 = false) := by
  induction more generalizing us k n with
  | zero => exact ⟨_, rfl, nofun, fun _ => rfl⟩
  | succ more ih =>
    cases us with
    | nil => exact ⟨(n, false), if_neg fun hc => by simp at hlen; omega, nofun, fun _ => rfl⟩
    | cons u us =>
      have hread : style k = some u := h 0 (Nat.succ_pos _)
      rw [List.length_cons] at hlen
      rw [scanFieldUtf8, if_pos (by omega), hread, Option.bind_some, fieldLenUtf8]
      by_cases hr : u = rbrace
      · rw [if_pos hr, if_pos hr]
        exact ⟨_, rfl, fun m hm => by cases hm; rfl, nofun⟩
      · by_cases hl : u = lbrace
        · rw [if_neg hr, if_neg hr, if_pos hl, if_pos hl]
          exact ⟨_, rfl, nofun, fun _ => rfl⟩
        · rw [if_neg hr, if_neg hr, if_neg hl, if_neg hl]
          have hrest : ∀ j < us.length, style (k + 1 + j) = us[j]? := fun j hj => by
            rw [show k + 1 + j = k + (j + 1) by omega]
            exact h (j + 1) (Nat.succ_lt_succ hj)
          obtain ⟨r, hr, hsome, hnone⟩ := ih (by omega) (by omega) hrest (n + 1)
          refine ⟨r, hr, fun m hm => ?_, fun hm => hnone (Option.map_eq_none_iff.1 hm)⟩
          obtain ⟨m', hm', rfl⟩ := Option.map_eq_some_iff.1 hm
          rw [hsome m' hm', Nat.add_assoc, Nat.add_comm 1]

theorem scanFieldUtf16_eq {us : List ℕ} {k more len bound window : ℕ} (hlen : len = k + us.length)
    (hwindow : bound - k = window) (hmore : window ≤ more) (h : ∀ j < us.length, style (k + j) = us[j]?) (n : ℕ) :
    ∃ r, scanFieldUtf16 style len bound more k n = some r ∧
      (∀ m, fieldLenUtf16 window us = some m → r = (n + m, true)) ∧
      (fieldLenUtf16 window us = none → r.2 = false) := by
  induction more generalizing us k n window with
  | zero =>
    obtain rfl : window = 0 := by omega
    rw [fieldLenUtf16_zero]
    exact ⟨_, rfl, nofun, fun _ => rfl⟩
  | succ more ih =>
    cases window with
    | zero =>
      rw [fieldLenUtf16_zero]
      exact ⟨(n, false), if_neg (by omega), nofun, fun _ => rfl⟩
    | succ window =>
      cases us with
      | nil => exact ⟨(n, false), if_neg fun hc => by simp at hlen; omega, nofun, fun _ => rfl⟩
      | cons u us =>
        have hread : style k = some u := h 0 (Nat.succ_pos _)
        rw [List.length_cons] at hlen
        rw [scanFieldUtf16, if_pos (by omega), hread, Option.bind_some, fieldLenUtf16.eq_def]
        simp only
        by_cases hr : u = rbrace
        · rw [if_pos hr, if_pos hr]
          exact ⟨_, rfl, fun m hm => by cases hm; rfl, nofun⟩
        · rw [if_neg hr, if_neg hr]
          by_cases hl : u = lbrace
          · rw [if_pos hl, if_pos hl]
            cases us with
            | nil =>
              rw [if_neg (by simp at hlen; omega)]
              exact ⟨_, rfl, nofun, fun _ => rfl⟩
            | cons u' us =>
              have hread' : style (k + 1) = some u' := h 1 (by simp)
              rw [List.length_cons] at hlen
              rw [if_pos (by omega), hread', Option.map_some, Option.bind_some]
              by_cases hl' : u' = lbrace
              · rw [if_pos (decide_eq_true hl')]
                simp only [if_pos hl']
                have hrest : ∀ j < us.length, style (k + 2 + j) = us[j]? := fun j hj => by
                  rw [show k + 2 + j = k + (j + 2) by omega]
                  exact h (j + 2) (by simp; omega)
                obtain ⟨r, hr, hsome, hnone⟩ := ih (by omega)
                  (show bound - (k + 2) = window - 1 by omega) (by omega) hrest (n + 2)
                refine ⟨r, hr, fun m hm => ?_, fun hm => hnone (Option.map_eq_none_iff.1 hm)⟩
                obtain ⟨m', hm', rfl⟩ := Option.map_eq_some_iff.1 hm
                rw [hsome m' hm', Nat.add_assoc, Nat.add_comm 2]
              · rw [if_neg fun hd => hl' (of_decide_eq_true hd)]
                simp only [if_neg hl']
                exact ⟨_, rfl, nofun, fun _ => rfl⟩
          · rw [if_neg hl, if_neg hl]
            have hrest : ∀ j < us.length, style (k + 1 + j) = us[j]? := fun j hj => by
              rw [show k + 1 + j = k + (j + 1) by omega]
              exact h (j + 1) (Nat.succ_lt_succ hj)
            obtain ⟨r, hr, hsome, hnone⟩ := ih (by omega) (show bound - (k + 1) = window by omega) (by omega)
              hrest (n + 1)
            refine ⟨r, hr, fun m hm => ?_, fun hm => hnone (Option.map_eq_none_iff.1 hm)⟩
            obtain ⟨m', hm', rfl⟩ := Option.map_eq_some_iff.1 hm
            rw [hsome m' hm', Nat.add_assoc, Nat.add_comm 1]

end Reading

end QLog.Layout
