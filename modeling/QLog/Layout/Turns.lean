import QLog.Layout.InlineConversion

/-!
# The loops over a format text

The loops of `python_style_format_content_utf8` and `python_style_format_content_utf16` run the turns that
`nextTurn` describes (`pythonStyleFormatContentUtf8_eq`, `pythonStyleFormatContentUtf16_readable`): on a
record that `validate` accepts they end, they read the format text and the arguments only, and what they
write depends on nothing else. A replacement field takes the next argument (`insertArgument_eq`), and the
units behind a brace are those that `takeAction` takes (`brace_eq`).
-/

namespace QLog.Layout

open Record Bytes Appender

variable (single double : FloatOps)

/-! ## Arguments -/

section Argument

variable {data : List UInt8} {args cursor step : ℕ} {tag : ArgumentTag} {value : List UInt8}

theorem readLe_of_readBytes {p n : ℕ} (h : readBytes data p n = some value) :
    readLe data p n = some (ofLe value) := by
  unfold readBytes at h
  unfold readLe
  split_ifs at h ⊢
  rw [← Option.some.inj h]

theorem readBytes_take {p n k : ℕ} (h : readBytes data p n = some value) (hk : k ≤ n) :
    readBytes data p k = some (value.take k) := by
  unfold readBytes at h ⊢
  split_ifs at h with hle
  rw [if_pos (by omega), ← Option.some.inj h, take_sub, Nat.min_eq_left hk]

/-- **An argument of the record is inserted**, and the cursor is moved behind it. -/
theorem insertArgument_eq (hat : ArgAt data (args + cursor) tag step) (hle : args + cursor + step < 2 ^ 32)
    (hvalue : readValue data (args + cursor) tag = some value) (l : Layout) :
    insertArgument single double data args cursor l =
      some (insertValue single double (tag, value) l, cursor + step) := by
  have hadd : ∀ k ≤ step, add32 cursor k = cursor + k := fun k hk => Nat.mod_eq_of_lt (by omega)
  unfold insertArgument
  cases hat with
  | fixed htag hstep =>
    simp only [htag, Option.bind_some, ArgumentTag.ofByte?_toByte]
    cases tag <;> cases hstep
    case fixed.nullType.refl =>
      simp only [hadd 4 le_rfl]
      rfl
    case fixed.floatType.refl | fixed.doubleType.refl =>
      change readBytes data _ _ = _ at hvalue
      simp only [hadd _ le_rfl]
      refine (congrArg _ hvalue).trans ?_
      rfl
    all_goals
      have hread := readLe_of_readBytes (show readBytes data _ _ = some value from hvalue)
      simp only [hadd _ le_rfl]
      refine (congrArg _ hread).trans ?_
      rfl
  | @string n htag hs hn =>
    have hroom : stringRoom n = align4 n := by
      have hpad := le_align4 n
      unfold stringRoom align4 at *
      rw [add32, Nat.mod_eq_of_lt (by omega)]
    have hstep : add32 8 (stringRoom n) = 8 + align4 n := by
      rw [hroom]
      exact Nat.mod_eq_of_lt (by omega)
    have hoff : tag.offset = 8 := by rcases hs with rfl | rfl <;> rfl
    rw [readValue, if_pos hoff, hn, Option.bind_some] at hvalue
    have hlen := length_of_readBytes hvalue
    simp only [htag, Option.bind_some, ArgumentTag.ofByte?_toByte]
    rcases hs with rfl | rfl
    · simp only [hn, Option.bind_some, hvalue, Option.map_some, hstep, hadd _ le_rfl]
      rfl
    · have hunits := readBytes_take hvalue (show 2 * (n / 2) ≤ n by omega)
      simp only [hn, Option.bind_some, hunits, Option.map_some, hstep, hadd _ le_rfl]
      rw [← hlen]
      rfl

end Argument

/-! ## Replacement fields -/

/-- A field that is closed ends in front of the end of the units. -/
theorem fieldLenUtf8_lt {window n : ℕ} {us : List ℕ} (h : fieldLenUtf8 window us = some n) :
    n < us.length := by
  induction window generalizing us n with
  | zero => cases us <;> cases h
  | succ window ih =>
    cases us with
    | nil => cases h
    | cons u us =>
      rw [fieldLenUtf8] at h
      split_ifs at h
      · cases h
        exact Nat.succ_pos _
      · obtain ⟨m, hm, rfl⟩ := Option.map_eq_some_iff.1 h
        exact Nat.succ_lt_succ (ih hm)

theorem fieldLenUtf16_lt {window n : ℕ} {us : List ℕ} (h : fieldLenUtf16 window us = some n) :
    n < us.length := by
  induction hlen : us.length using Nat.strong_induction_on generalizing window us n with
  | _ len ih =>
    cases window with
    | zero =>
      rw [fieldLenUtf16_zero] at h
      cases h
    | succ window =>
      cases us with
      | nil => cases h
      | cons u us =>
        rw [List.length_cons] at hlen
        rw [fieldLenUtf16.eq_def] at h
        simp only at h
        split_ifs at h with hr hl
        · cases h
          omega
        · cases us with
          | nil => cases h
          | cons u' us =>
            rw [List.length_cons] at hlen
            simp only at h
            split_ifs at h
            obtain ⟨m, hm, rfl⟩ := Option.map_eq_some_iff.1 h
            have := ih us.length (by omega) hm rfl
            omega
        · obtain ⟨m, hm, rfl⟩ := Option.map_eq_some_iff.1 h
          have := ih us.length (by omega) hm rfl
          omega

/-- How one of the two functions reads a format text of `len` units that `style` shows: the loop that scans a
field, and the expansion behind it. -/
structure Dialect.Reads (D : Dialect) (style : ℕ → Option ℕ) (len : ℕ) (scanField : ℕ → Option FieldScan)
    (reserve : ℕ → ℕ) : Prop where
  scan : ∀ {us : List ℕ} {i : ℕ}, i + us.length = len → (∀ j < us.length, style (i + j) = us[j]?) →
    ∃ r, scanField i = some r ∧ (∀ n, D.fieldLen 20 us = some n → r = (n, true)) ∧
      (D.fieldLen 20 us = none → r.2 = false)
  reserve_eq : ∀ {n i : ℕ}, i + n = len → reserve i = D.reserve n
  fieldLen_lt : ∀ {us : List ℕ} {n : ℕ}, D.fieldLen 20 us = some n → n < us.length

variable {data : List UInt8} {head : RecordHeader} {style : ℕ → Option ℕ} {D : Dialect} {us : List ℕ}
  {args : List Argument} {s : FormatScan}

/-- The loop over a format text is in front of these units and these arguments. -/
structure ScanAt (data : List UInt8) (head : RecordHeader) (style : ℕ → Option ℕ) (len : ℕ) (us : List ℕ)
    (args : List Argument) (s : FormatScan) : Prop where
  units : ∀ j < us.length, style (s.i + j) = us[j]?
  length : s.i + us.length = len
  argsAt : ArgsAt data head.extInfoOffset (head.logArgsOffset + s.argsDataCursor) args

/-- Units are passed, and nothing else. -/
theorem ScanAt.drop {len : ℕ} (h : ScanAt data head style len us args s) {n : ℕ} (hn : n ≤ us.length)
    (l : Layout) : ScanAt data head style len (us.drop n) args ⟨s.i + n, s.argsDataCursor, l⟩ where
  units j hj := by
    rw [List.length_drop] at hj
    rw [List.getElem?_drop, ← h.units (n + j) (by omega), Nat.add_assoc]
  length := by
    have := h.length
    rw [List.length_drop]
    simp only
    omega
  argsAt := h.argsAt

theorem eq_of_argsAt_nil {ext p : ℕ} (h : ArgsAt data ext p []) : p = ext := by
  cases h
  rfl

theorem exists_of_argsAt_cons {ext p : ℕ} {arg : Argument} (h : ArgsAt data ext p (arg :: args)) : ∃ step,
    ArgAt data p arg.1 step ∧ p + step ≤ ext ∧ readValue data p arg.1 = some arg.2 ∧
      ArgsAt data ext (p + step) args := by
  cases h with
  | cons hat hle hvalue hrest => exact ⟨_, hat, hle, hvalue, hrest⟩

/-- Whether an argument is left. -/
theorem ScanAt.lt_iff {len argsDataLen : ℕ} (h : ScanAt data head style len us args s)
    (hargs : head.logArgsOffset + argsDataLen = head.extInfoOffset) :
    s.argsDataCursor < argsDataLen ↔ args ≠ [] := by
  cases args with
  | nil =>
    have := eq_of_argsAt_nil h.argsAt
    simp only [ne_eq, not_true_eq_false, iff_false]
    omega
  | cons arg args =>
    obtain ⟨step, hat, hle, -⟩ := exists_of_argsAt_cons h.argsAt
    have := hat.four_le
    simp only [ne_eq, reduceCtorEq, not_false_eq_true, iff_true]
    omega

/-- **A field takes the argument in front of the cursor.** -/
theorem replaceField_eq {len n : ℕ} {arg : Argument} (h : ScanAt data head style len us (arg :: args) s)
    (hn : n < us.length) (hlen : len < 2 ^ 32) (hext : head.extInfoOffset < 2 ^ 32) : ∃ info t k,
    c20Format (fun k => us[k]?) (n + 1) = some info ∧
      (if info.offset ≠ 0 then info.offset + 1 else n + 1) = k ∧
      k ≤ us.length ∧ replaceField single double data head style n s = some t ∧
      ScanAt data head style len (us.drop k) args t ∧
      t.layout = (insertValue single double arg { s.layout with formatInfo := info }).fillAndAlignment
        s.layout.cursor := by
  have hstyle : ∀ i < n + 1, (fun k => style (s.i + k)) i = us[i]? := fun i hi => h.units i (by omega)
  have hlength := h.length
  obtain ⟨info, hinfo, hoffset⟩ := exists_c20Format
    (fun i (hi : i < n + 1) => ⟨_, List.getElem?_eq_getElem (show i < us.length by omega)⟩) (Nat.succ_pos n)
  obtain ⟨k, hk, hkle⟩ : ∃ k, (if info.offset ≠ 0 then info.offset + 1 else n + 1) = k ∧ k ≤ us.length :=
    ⟨_, rfl, by split_ifs <;> omega⟩
  have hi : (if info.offset ≠ 0 then add32 s.i (info.offset + 1) else add32 s.i (n + 1)) = s.i + k := by
    rw [← apply_ite (add32 s.i), hk]
    exact Nat.mod_eq_of_lt (by omega)
  obtain ⟨step, hat, hle, hvalue, hrest⟩ := exists_of_argsAt_cons h.argsAt
  have hinsert := insertArgument_eq single double hat (by omega) hvalue { s.layout with formatInfo := info }
  obtain ⟨l, hl⟩ : ∃ l, (insertValue single double arg { s.layout with formatInfo := info }).fillAndAlignment
      s.layout.cursor = l := ⟨_, rfl⟩
  have hdrop := h.drop hkle l
  refine ⟨info, ⟨s.i + k, s.argsDataCursor + step, l⟩, k, hinfo, hk, hkle, ?_,
    ⟨hdrop.units, hdrop.length, ?_⟩, hl.symm⟩
  · unfold replaceField
    rw [c20Format_congr hstyle (Nat.succ_pos n), hinfo, Option.bind_some]
    simp only [hi, hinsert, Option.map_some, hl]
  · rwa [Nat.add_assoc] at hrest

theorem takeField_cons {arg : Argument} {n k : ℕ} {info : FormatInfo} (hlen : D.fieldLen 20 us = some n)
    (hinfo : c20Format (fun k => us[k]?) (n + 1) = some info)
    (hk : (if info.offset ≠ 0 then info.offset + 1 else n + 1) = k) :
    takeField D us (arg :: args) = (.field info arg, k, args) := by
  unfold takeField
  simp only [hlen, hinfo, hk]

/-- **What follows an opening brace** is what `takeField` takes. -/
theorem openBrace_eq {len argsDataLen : ℕ} {scanField : ℕ → Option FieldScan} {reserve : ℕ → ℕ}
    (hD : D.Reads style len scanField reserve) (h : ScanAt data head style len us args s)
    (hlen : len < 2 ^ 32) (hargs : head.logArgsOffset + argsDataLen = head.extInfoOffset)
    (hext : head.extInfoOffset < 2 ^ 32) : ∃ t,
    openBrace single double data head argsDataLen style (scanField s.i) reserve s = some t ∧
      (takeField D us args).2.1 ≤ us.length ∧
      ScanAt data head style len (us.drop (takeField D us args).2.1) (takeField D us args).2.2 t ∧
      t.layout = applyAction single double (D.reserve (us.drop (takeField D us args).2.1).length)
        (takeField D us args).1 s.layout := by
  obtain ⟨r, hr, hsome, hnone⟩ := hD.scan h.length h.units
  have hreset : (if s.layout.formatInfo.used then
      { s with layout := { s.layout with formatInfo := .reset } } else s) =
        { s with layout := s.layout.resetUsed } := by
    unfold resetUsed
    split_ifs <;> rfl
  have hlt := h.lt_iff hargs
  unfold openBrace
  simp only [hreset, hr, Option.bind_some]
  -- a brace that opens no field
  have hopen : ∀ l, ScanAt data head style len us args ⟨s.i, s.argsDataCursor, l⟩ := fun l =>
    ⟨h.units, h.length, h.argsAt⟩
  cases args with
  | nil =>
    rw [if_neg fun hc => hlt.1 hc rfl]
    exact ⟨_, rfl, Nat.zero_le _, hopen _, rfl⟩
  | cons arg args =>
    rw [if_pos (hlt.2 (List.cons_ne_nil _ _))]
    cases hfield : D.fieldLen 20 us with
    | none =>
      have htake : takeField D us (arg :: args) = (.openingBrace, 0, arg :: args) := by
        unfold takeField
        simp only [hfield]
      rw [if_neg (by rw [hnone hfield]; exact Bool.false_ne_true), htake]
      exact ⟨_, rfl, Nat.zero_le _, hopen _, rfl⟩
    | some n =>
      have hscan : ScanAt data head style len us (arg :: args) { s with layout := s.layout.resetUsed } :=
        ⟨h.units, h.length, h.argsAt⟩
      obtain ⟨info, t, k, hinfo, hk, hkle, ht, hnext, hlayout⟩ :=
        replaceField_eq single double hscan (hD.fieldLen_lt hfield) hlen hext
      rw [takeField_cons hfield hinfo hk, hsome n hfield]
      simp only [if_true, ht, Option.map_some]
      refine ⟨_, rfl, hkle, ⟨hnext.units, hnext.length, hnext.argsAt⟩, ?_⟩
      simp only [applyAction]
      have hspec : { s.layout.resetUsed with formatInfo := info } = { s.layout with formatInfo := info } := by
        unfold resetUsed
        split_ifs <;> rfl
      have hcursor : s.layout.resetUsed.cursor = s.layout.cursor := by
        unfold resetUsed
        split_ifs <;> rfl
      simp only at hlayout
      rw [hlayout, hspec, hcursor, hD.reserve_eq hnext.length]

/-- What an action takes and what it leaves: the loop is behind it, in front of the units and the arguments
that are left. -/
structure Takes (D : Dialect) (data : List UInt8) (head : RecordHeader) (style : ℕ → Option ℕ) (len : ℕ)
    (us : List ℕ) (args : List Argument) (s t : FormatScan) : Prop where
  le : (takeAction D us args).2.1 ≤ us.length
  scanAt : ScanAt data head style len (us.drop (takeAction D us args).2.1) (takeAction D us args).2.2 t
  layout : t.layout = applyAction single double (D.reserve (us.drop (takeAction D us args).2.1).length)
    (takeAction D us args).1 s.layout

/-- **What a brace stands for** is what `takeAction` takes. -/
theorem brace_eq {len argsDataLen c : ℕ} {scanField : ℕ → Option FieldScan} {reserve : ℕ → ℕ}
    (hD : D.Reads style len scanField reserve) (h : ScanAt data head style len (c :: us) args s)
    (hc : c = lbrace ∨ c = rbrace) (hlen : len < 2 ^ 32)
    (hargs : head.logArgsOffset + argsDataLen = head.extInfoOffset) (hext : head.extInfoOffset < 2 ^ 32) :
    ∃ t, brace single double data head argsDataLen len style scanField reserve s = some t ∧
      Takes single double D data head style len (c :: us) args s t := by
  have hlength := h.length
  rw [List.length_cons] at hlength
  have hread : style s.i = some c := h.units 0 (Nat.succ_pos _)
  have hnext : add32 s.i 1 = s.i + 1 := Nat.mod_eq_of_lt (by omega)
  have hone := h.drop (show 1 ≤ (c :: us).length from Nat.succ_pos _)
  rw [List.drop_succ_cons, List.drop_zero] at hone
  unfold brace
  simp only [hread, Option.bind_some, hnext]
  rcases hc with rfl | rfl
  · -- an opening brace
    have hnot : decide (lbrace = '\x7d'.toNat) = false := rfl
    have hbind : ∀ (f : Bool → Option FormatScan), (if s.i + 1 < len then (style (s.i + 1)).map fun nextC =>
        decide (lbrace = '\x7d'.toNat) && decide (nextC = '\x7d'.toNat) else some false).bind f =
          f false := fun f => by
      split_ifs with hlt
      · rw [h.units 1 (by rw [List.length_cons]; omega), List.getElem?_cons_succ,
          List.getElem?_eq_getElem (by omega), Option.map_some, hnot, Bool.false_and, Option.bind_some]
      · rfl
    rw [hbind, if_neg Bool.false_ne_true, hnot, if_neg Bool.false_ne_true]
    obtain ⟨t, ht, hle, hscan, hlayout⟩ := openBrace_eq single double hD (hone s.layout) hlen hargs hext
    have htake : takeAction D (lbrace :: us) args =
        ((takeField D us args).1, 1 + (takeField D us args).2.1, (takeField D us args).2.2) := rfl
    have hdrop : (lbrace :: us).drop (1 + (takeField D us args).2.1) = us.drop (takeField D us args).2.1 := by
      rw [Nat.add_comm, List.drop_succ_cons]
    refine ⟨t, ht, ?_, ?_, ?_⟩
    · rw [htake, List.length_cons]
      simp only
      omega
    · rw [htake, hdrop]
      exact hscan
    · rw [htake, hdrop]
      exact hlayout
  · -- a closing brace, or two
    have hyes : decide (rbrace = '\x7d'.toNat) = true := rfl
    have htake : takeAction D (rbrace :: us) args =
        (.closingBrace, if us.head? = some rbrace then 2 else 1, args) := rfl
    have hbind : ∀ (f : Bool → Option FormatScan), (if s.i + 1 < len then (style (s.i + 1)).map fun nextC =>
        decide (rbrace = '\x7d'.toNat) && decide (nextC = '\x7d'.toNat) else some false).bind f =
          f (decide (us.head? = some rbrace)) := fun f => by
      cases us with
      | nil =>
        rw [if_neg (by rw [List.length_nil] at hlength; omega)]
        rfl
      | cons c' us =>
        rw [if_pos (by rw [List.length_cons] at hlength; omega), h.units 1 (by simp), List.getElem?_cons_succ,
          List.getElem?_cons_zero, Option.map_some, hyes, Bool.true_and, Option.bind_some, List.head?_cons]
        exact congrArg f (decide_eq_decide.2 Option.some_inj.symm)
    rw [hbind]
    by_cases htwo : us.head? = some rbrace
    · have hlen' : 2 ≤ (rbrace :: us).length := by
        cases us with
        | nil => cases htwo
        | cons c' us => simp
      have hnext' : add32 (s.i + 1) 1 = s.i + 2 := Nat.mod_eq_of_lt (by rw [List.length_cons] at hlen'; omega)
      rw [if_pos (decide_eq_true htwo), hnext']
      refine ⟨_, rfl, ?_, ?_, ?_⟩
      · rw [htake, if_pos htwo]
        exact hlen'
      · rw [htake, if_pos htwo]
        exact h.drop hlen' _
      · rw [htake]
        rfl
    · rw [if_neg (by simpa using htwo), hyes, if_pos rfl]
      refine ⟨_, rfl, ?_, ?_, ?_⟩
      · rw [htake, if_neg htwo]
        exact Nat.succ_pos _
      · rw [htake, if_neg htwo]
        exact h.drop (Nat.succ_pos _) _
      · rw [htake]
        rfl

/-! ## Turns -/

/-- A turn of a loop is the turn that `nextTurn` describes. -/
structure TurnsTo (D : Dialect) (data : List UInt8) (head : RecordHeader) (style : ℕ → Option ℕ) (len : ℕ)
    (us : List ℕ) (args : List Argument) (s t : FormatScan) : Prop where
  scanAt : ScanAt data head style len (nextTurn D us args).2.1 (nextTurn D us args).2.2 t
  layout : t.layout = applyTurn single double D s.layout (nextTurn D us args).1

/-- The units in front of a brace are copied, and the action follows. -/
theorem turnsTo_of_takes {len : ℕ} {t : FormatScan} (h : Takes single double D data head style len
    (us.dropWhile D.plain) args ⟨s.i + (us.takeWhile D.plain).length, s.argsDataCursor,
      s.layout.copyRun (us.takeWhile D.plain)⟩ t) : TurnsTo single double D data head style len us args s t :=
  ⟨h.scanAt, h.layout⟩

/-- The loop is behind the units that are copied. -/
theorem ScanAt.dropWhile {len : ℕ} (h : ScanAt data head style len us args s) (plain : ℕ → Bool)
    (l : Layout) : ScanAt data head style len (us.dropWhile plain) args
      ⟨s.i + (us.takeWhile plain).length, s.argsDataCursor, l⟩ := by
  have hsplit : us.drop (us.takeWhile plain).length = us.dropWhile plain := by
    obtain ⟨xs, hxs⟩ : ∃ xs, us.takeWhile plain = xs := ⟨_, rfl⟩
    have happend := @List.takeWhile_append_dropWhile _ plain us
    rw [hxs] at happend ⊢
    conv_lhs => rw [← happend]
    exact List.drop_left
  exact hsplit ▸ h.drop (List.takeWhile_prefix plain).length_le l

/-- The units are copied to the cursor. -/
theorem copyRun_writeRun {copied : ℕ} (h : us.length = copied) (l : Layout) :
    { l.writeRun l.cursor us with cursor := add32 (l.writeRun l.cursor us).cursor copied } =
      l.copyRun us := by
  subst h
  unfold copyRun
  rw [writeRun_eq]

theorem reads_utf8 {len : ℕ} (h : len + 20 < 2 ^ 32) : utf8.Reads style len
    (fun i => scanFieldUtf8 style len (add32 i 20) 20 i 0) (fun i => sub32 len i) where
  scan {us i} hlen hus := by
    have hbound : add32 i 20 = i + 20 := Nat.mod_eq_of_lt (by omega)
    obtain ⟨r, hr, hsome, hnone⟩ := scanFieldUtf8_eq hlen.symm hbound hus 0
    exact ⟨r, hr, fun n hn => by rw [hsome n hn, Nat.zero_add], hnone⟩
  reserve_eq {n i} hlen := by
    change sub32 len i = n
    unfold sub32
    omega
  fieldLen_lt := fieldLenUtf8_lt

theorem reads_utf16 {len : ℕ} (h : len + 20 < 2 ^ 32) : utf16.Reads style len
    (fun i => scanFieldUtf16 style len (add32 i 20) 20 i 0) (fun i => sub32 len i * 3 % 2 ^ 32 / 2) where
  scan {us i} hlen hus := by
    have hbound : add32 i 20 - i = 20 := by
      rw [add32, Nat.mod_eq_of_lt (show i + 20 < 2 ^ 32 by omega), Nat.add_sub_cancel_left]
    obtain ⟨r, hr, hsome, hnone⟩ := scanFieldUtf16_eq hlen.symm hbound le_rfl hus 0
    exact ⟨r, hr, fun n hn => by rw [hsome n hn, Nat.zero_add], hnone⟩
  reserve_eq {n i} hlen := by
    have hleft : sub32 len i = n := by
      unfold sub32
      omega
    rw [hleft]
    rfl
  fieldLen_lt := fieldLenUtf16_lt

/-- **A turn of the loop of `python_style_format_content_utf8`.** -/
theorem formatTurnUtf8_eq {argsDataLen : ℕ}
    (h : ScanAt data head (styleUtf8 data) head.logFormatDataLen us args s)
    (hlen : head.logFormatDataLen + 20 < 2 ^ 32)
    (hargs : head.logArgsOffset + argsDataLen = head.extInfoOffset) (hext : head.extInfoOffset < 2 ^ 32) :
    ∃ t,
    formatTurnUtf8 single double data head argsDataLen s = some t ∧
      TurnsTo single double utf8 data head (styleUtf8 data) head.logFormatDataLen us args s t := by
  have hbyte : ∀ j (hj : j < us.length), ∃ b : UInt8,
      data[recordHeaderSize + s.i + j]? = some b ∧ b.toNat = us[j] :=
    fun j hj => by
      have hu := h.units j hj
      rw [List.getElem?_eq_getElem hj, styleUtf8, Option.map_eq_some_iff, ← Nat.add_assoc] at hu
      exact hu
  have h256 : ∀ u ∈ us, u < 256 := fun u hu => by
    obtain ⟨j, hj, rfl⟩ := List.getElem_of_mem hu
    obtain ⟨b, -, hb⟩ := hbyte j hj
    exact hb ▸ b.toNat_lt
  have hcopy := findBraceAndCopySw_eq h256 (fun j hj => by
    obtain ⟨b, hb, hub⟩ := hbyte j hj
    rw [hb, ← hub, UInt8.ofNat_toNat]) s.layout.cursor s.layout
  have hlength := h.length
  have hcopied := (List.takeWhile_prefix (l := us) utf8.plain).length_le
  have hadd : add32 s.i (us.takeWhile utf8.plain).length = s.i + (us.takeWhile utf8.plain).length :=
    Nat.mod_eq_of_lt (by omega)
  have hscan := h.dropWhile utf8.plain (s.layout.copyRun (us.takeWhile utf8.plain))
  unfold formatTurnUtf8
  simp only [show head.logFormatDataLen - s.i = us.length by omega, hcopy, Option.bind_some, hadd,
    copyRun_writeRun rfl]
  cases hrest : us.dropWhile utf8.plain with
  | nil =>
    rw [hrest] at hscan
    rw [if_neg (by simp)]
    exact ⟨_, rfl, turnsTo_of_takes single double (hrest ▸ ⟨le_rfl, hscan, rfl⟩)⟩
  | cons c rest =>
    have hc : c = lbrace ∨ c = rbrace := by
      have hnot := List.head?_dropWhile_not utf8.plain us
      rw [hrest] at hnot
      simp only [utf8, List.head?_cons, decide_eq_false_iff_not] at hnot
      tauto
    rw [hrest] at hscan
    rw [if_pos (by simp)]
    obtain ⟨t, ht, htakes⟩ := brace_eq single double (reads_utf8 hlen) hscan hc (by omega) hargs hext
    exact ⟨t, ht, turnsTo_of_takes single double (hrest ▸ htakes)⟩

/-- A unit that is not ASCII is converted. -/
theorem convertUnit_eq {len c : ℕ} (h : ScanAt data head style len (c :: us) args s) (hc : 0x80 ≤ c)
    (hlen : len < 2 ^ 32) :
    ∃ t, convertUnit style len s = some t ∧
      Takes single double D data head style len (c :: us) args s t := by
  have hlength := h.length
  rw [List.length_cons] at hlength
  have hread : style s.i = some c := h.units 0 (Nat.succ_pos _)
  have hnext : add32 s.i 1 = s.i + 1 := Nat.mod_eq_of_lt (by omega)
  have hl : c ≠ lbrace := fun he => absurd hc (he ▸ by decide)
  have hr : c ≠ rbrace := fun he => absurd hc (he ▸ by decide)
  have htake : takeAction D (c :: us) args =
      (.convert (convertUnits (c :: us)).1, (convertUnits (c :: us)).2, args) := by
    unfold takeAction
    simp only [if_neg hl, if_neg hr]
  have hpass : ∀ cs n, convertUnits (c :: us) = (cs, n) → n ≤ (c :: us).length →
      Takes single double D data head style len (c :: us) args s
        ⟨s.i + n, s.argsDataCursor, if cs = [] then s.layout else s.layout.pushAll cs⟩ := by
    intro cs n hcs hn
    refine ⟨?_, ?_, ?_⟩ <;> rw [htake, hcs]
    · exact hn
    · exact h.drop hn _
    · rfl
  have hpush : ∀ b bs n, convertUnits (c :: us) = (b :: bs, n) → n ≤ (c :: us).length →
      Takes single double D data head style len (c :: us) args s
        ⟨s.i + n, s.argsDataCursor, s.layout.pushAll (b :: bs)⟩ := fun b bs => hpass (b :: bs)
  unfold convertUnit
  rw [if_pos (by omega), hread, Option.bind_some]
  simp only [hnext]
  rw [if_neg (by omega)]
  by_cases h2 : c < 0x800
  · rw [if_pos h2]
    refine ⟨_, rfl, hpush _ _ 1 ?_ (Nat.succ_pos _)⟩
    rw [convertUnits.eq_def]
    simp only
    rw [if_neg (by omega), if_pos h2]
  · rw [if_neg h2]
    by_cases hhigh : 0xD800 ≤ c ∧ c ≤ 0xDBFF
    · rw [if_pos hhigh]
      cases us with
      | nil =>
        rw [if_neg (by rw [List.length_nil] at hlength; omega)]
        refine ⟨_, rfl, hpass [] 1 ?_ (Nat.succ_pos _)⟩
        rw [convertUnits.eq_def]
        simp only
        rw [if_neg (by omega), if_neg h2, if_pos hhigh]
      | cons c2 us =>
        rw [List.length_cons] at hlength
        have hread2 : style (s.i + 1) = some c2 := h.units 1 (by simp)
        rw [if_pos (by omega), hread2, Option.map_some]
        by_cases hlow : 0xDC00 ≤ c2 ∧ c2 ≤ 0xDFFF
        · have hnext2 : add32 (s.i + 1) 1 = s.i + 2 := Nat.mod_eq_of_lt (by omega)
          rw [if_pos hlow, hnext2]
          refine ⟨_, rfl, hpush _ _ 2 ?_ (by simp)⟩
          rw [convertUnits.eq_def]
          simp only
          rw [if_neg (by omega), if_neg h2, if_pos hhigh, if_pos hlow]
        · rw [if_neg hlow]
          refine ⟨_, rfl, hpass [] 1 ?_ (Nat.succ_pos _)⟩
          rw [convertUnits.eq_def]
          simp only
          rw [if_neg (by omega), if_neg h2, if_pos hhigh, if_neg hlow]
    · rw [if_neg hhigh]
      by_cases hlow : 0xDC00 ≤ c ∧ c ≤ 0xDFFF
      · rw [if_pos hlow]
        refine ⟨_, rfl, hpass [] 1 ?_ (Nat.succ_pos _)⟩
        rw [convertUnits.eq_def]
        simp only
        rw [if_neg (by omega), if_neg h2, if_neg hhigh, if_pos hlow]
      · rw [if_neg hlow]
        refine ⟨_, rfl, hpush _ _ 1 ?_ (Nat.succ_pos _)⟩
        rw [convertUnits.eq_def]
        simp only
        rw [if_neg (by omega), if_neg h2, if_neg hhigh, if_neg hlow]

/-- **A turn of the loop of `python_style_format_content_utf16`.** -/
theorem formatTurnUtf16_eq {argsDataLen len : ℕ} (h : ScanAt data head (styleUtf16 data) len us args s)
    (hlen : len + 20 < 2 ^ 32) (hargs : head.logArgsOffset + argsDataLen = head.extInfoOffset)
    (hext : head.extInfoOffset < 2 ^ 32) : ∃ t,
    formatTurnUtf16 single double data head argsDataLen len s = some t ∧
      TurnsTo single double utf16 data head (styleUtf16 data) len us args s t := by
  have hcopy := findBraceAndConvertU16Sw_eq h.units s.layout.cursor s.layout
  have hlength := h.length
  have hcopied := (List.takeWhile_prefix (l := us) utf16.plain).length_le
  have hadd : add32 s.i (us.takeWhile utf16.plain).length = s.i + (us.takeWhile utf16.plain).length :=
    Nat.mod_eq_of_lt (by omega)
  have hscan := h.dropWhile utf16.plain (s.layout.copyRun (us.takeWhile utf16.plain))
  unfold formatTurnUtf16
  simp only [show len - s.i = us.length by omega, hcopy, Option.bind_some, hadd, copyRun_writeRun rfl]
  cases hrest : us.dropWhile utf16.plain with
  | nil =>
    rw [hrest] at hscan
    exact ⟨_, rfl, turnsTo_of_takes single double (hrest ▸ ⟨le_rfl, hscan, rfl⟩)⟩
  | cons c rest =>
    have hnot := List.head?_dropWhile_not utf16.plain us
    rw [hrest] at hscan hnot
    simp only [utf16, List.head?_cons, decide_eq_false_iff_not] at hnot
    by_cases hc : 0x80 ≤ c
    · simp only [List.head?_cons, Option.any_some, decide_eq_true hc, if_true]
      obtain ⟨t, ht, htakes⟩ := convertUnit_eq (D := utf16) single double hscan hc (by omega)
      exact ⟨t, ht, turnsTo_of_takes single double (hrest ▸ htakes)⟩
    · simp only [List.head?_cons, Option.any_some, decide_eq_false hc, decide_eq_true (Nat.not_le.1 hc),
        Bool.false_eq_true, if_false, if_true]
      obtain ⟨t, ht, htakes⟩ :=
        brace_eq single double (reads_utf16 hlen) hscan (by omega) (by omega) hargs hext
      exact ⟨t, ht, turnsTo_of_takes single double (hrest ▸ htakes)⟩

/-! ## Loops -/

theorem one_le_convertUnits (c : ℕ) (us : List ℕ) : 1 ≤ (convertUnits (c :: us)).2 := by
  rw [convertUnits.eq_def]
  simp only
  split_ifs with hascii htwo hhigh hlow
  · exact le_rfl
  · exact le_rfl
  · cases us
    · exact le_rfl
    · simp only
      split_ifs <;> simp
  · exact le_rfl
  · exact le_rfl

/-- An action takes a unit at least. -/
theorem one_le_takeAction (D : Dialect) (c : ℕ) (us : List ℕ) (args : List Argument) :
    1 ≤ (takeAction D (c :: us) args).2.1 := by
  unfold takeAction
  simp only
  split_ifs
  · exact one_le_two
  · exact le_rfl
  · exact Nat.le_add_right 1 _
  · exact one_le_convertUnits c us

/-- A turn passes a unit at least. -/
theorem length_nextTurn_lt (D : Dialect) {us : List ℕ} (hus : us ≠ []) (args : List Argument) :
    (nextTurn D us args).2.1.length < us.length := by
  have hpos := List.length_pos_iff.2 hus
  have hle := (List.dropWhile_suffix D.plain (l := us)).length_le
  change ((us.dropWhile D.plain).drop (takeAction D (us.dropWhile D.plain) args).2.1).length < us.length
  rw [List.length_drop]
  cases hrest : us.dropWhile D.plain with
  | nil =>
    rw [List.length_nil]
    omega
  | cons c rest =>
    have hone := one_le_takeAction D c rest args
    rw [hrest, List.length_cons] at hle
    rw [List.length_cons]
    omega

/-- There are no more turns than units. -/
theorem turns_eq (D : Dialect) {fuel : ℕ} {us : List ℕ} (h : us.length ≤ fuel) (args : List Argument) :
    turns D fuel us args = turns D us.length us args := by
  induction fuel using Nat.strong_induction_on generalizing us args with
  | _ fuel ih =>
    by_cases hus : us = []
    · subst hus
      cases fuel <;> rfl
    · have hpos := List.length_pos_iff.2 hus
      have hlt := length_nextTurn_lt D hus args
      obtain ⟨f, rfl⟩ := Nat.exists_eq_succ_of_ne_zero (show fuel ≠ 0 by omega)
      obtain ⟨n, hn⟩ := Nat.exists_eq_succ_of_ne_zero (show us.length ≠ 0 by omega)
      rw [hn, turns, turns, if_neg hus, if_neg hus]
      simp only
      rcases Nat.lt_or_ge n f with hnf | hnf
      · rw [ih f (by omega) (by omega), ih n (by omega) (by omega)]
      · rw [show n = f by omega]

/-- What turns write. -/
def applyTurns (D : Dialect) (l : Layout) (ts : List Turn) : Layout := ts.foldl (applyTurn single double D) l

/-- **A loop of such turns ends**, and writes what the turns write. -/
theorem whileLoop_eq_turns {len : ℕ} {body : FormatScan → Option FormatScan}
    (hbody : ∀ us args s, ScanAt data head style len us args s → ∃ t, body s = some t ∧
      TurnsTo single double D data head style len us args s t) {fuel : ℕ}
    (h : ScanAt data head style len us args s) (hfuel : us.length < fuel) : ∃ t,
    whileLoop (fun s : FormatScan => s.i < len) body fuel s = some t ∧
      t.layout = applyTurns single double D s.layout (turns D us.length us args).1 := by
  rw [← turns_eq D hfuel.le]
  induction fuel generalizing us args s with
  | zero => omega
  | succ fuel ih =>
    have hlength := h.length
    by_cases hus : us = []
    · subst hus
      rw [List.length_nil] at hlength
      exact ⟨s, whileLoop_of_not (by omega) fuel, rfl⟩
    · have hpos := List.length_pos_iff.2 hus
      have hlt := length_nextTurn_lt D hus args
      obtain ⟨t, ht, hturn⟩ := hbody us args s h
      obtain ⟨u, hu, hlayout⟩ := ih hturn.scanAt (by omega)
      refine ⟨u, (whileLoop_of_body (by omega) ht fuel).trans hu, ?_⟩
      rw [hlayout, hturn.layout, turns, if_neg hus]
      rfl

/-- The turns over a format text. -/
def formatTurns (D : Dialect) (us : List ℕ) (args : List Argument) : List Turn :=
  (turns D us.length us args).1

/-- What `python_style_format_content_utf8` writes. -/
def writeContentUtf8 (format : List UInt8) (args : List Argument) (l : Layout) : Layout :=
  if args = [] then l.insertStrUtf8 format
  else
    applyTurns single double utf8 (l.expandBy format.length)
      (formatTurns utf8 (format.map UInt8.toNat) args)

/-- What `python_style_format_content_utf16` writes. -/
def writeContentUtf16 (format : List UInt8) (args : List Argument) (l : Layout) : Layout :=
  applyTurns single double utf16 (l.expandBy (format.length * 3 / 2 % 2 ^ 32))
    (formatTurns utf16 (unitsOf format) args)

section Record

variable {format name : List UInt8}

theorem styleUtf8_eq (h : readBytes data recordHeaderSize format.length = some format) {k : ℕ}
    (hk : k < format.length) : styleUtf8 data k = (format.map UInt8.toNat)[k]? := by
  unfold readBytes at h
  split_ifs at h
  rw [styleUtf8, List.getElem?_map, ← Option.some.inj h, getElem?_sub hk]

/-- The loop over the format text of a readable record. -/
theorem scanAt_readable (h : Readable data head format name args)
    (hus : ∀ j < us.length, style j = us[j]?) (l : Layout) :
    ScanAt data head style us.length us args ⟨0, 0, l⟩ where
  units j hj := by rw [Nat.zero_add, hus j hj]
  length := Nat.zero_add _
  argsAt := h.argsAt

theorem argsDataSize_eq_zero_iff (h : Readable data head format name args) :
    logArgsDataSize head = 0 ↔ args = [] := by
  have hnone : ∀ j < ([] : List ℕ).length, (none : Option ℕ) = [][j]? := nofun
  have hlt := (scanAt_readable h hnone initial).lt_iff h.bounds.2.2.2.2
  simp only [Nat.pos_iff_ne_zero, ne_eq] at hlt
  exact not_iff_not.1 hlt

/-- **The format text of a readable record**, in UTF-8. -/
theorem pythonStyleFormatContentUtf8_eq (h : Readable data head format name args) {fuel : ℕ}
    (hfuel : format.length < fuel) (l : Layout) :
    pythonStyleFormatContentUtf8 single double data head fuel l =
      some (writeContentUtf8 single double format args l) := by
  obtain ⟨hformat, hargs, hext, hoff, hraw⟩ := h.bounds
  have hdata := h.length_lt
  have hread : readBytes data recordHeaderSize format.length = some format := hformat ▸ h.format_eq
  have hsize := argsDataSize_eq_zero_iff h
  unfold pythonStyleFormatContentUtf8 writeContentUtf8 formatLoopUtf8
  rw [← hformat]
  by_cases hnil : args = []
  · rw [if_pos (hsize.2 hnil), if_pos hnil, hread, Option.map_some]
  · rw [if_neg (mt hsize.1 hnil), if_neg hnil]
    have hunits : ∀ j < (format.map UInt8.toNat).length, styleUtf8 data j = (format.map UInt8.toNat)[j]? :=
      fun j hj => styleUtf8_eq hread (by rwa [List.length_map] at hj)
    have hscan := scanAt_readable h hunits (l.expandBy format.length)
    rw [List.length_map, hformat] at hscan
    obtain ⟨t, ht, hlayout⟩ := whileLoop_eq_turns single double
      (fun us args s hs => formatTurnUtf8_eq single double hs (by omega) hraw (by omega)) hscan
      (by rwa [List.length_map])
    rw [hformat, ht, Option.map_some, hlayout]
    rfl

/-- **The format text of a readable record**, in UTF-16. -/
theorem pythonStyleFormatContentUtf16_readable (h : Readable data head format name args) {fuel : ℕ}
    (hfuel : format.length < fuel) (l : Layout) :
    pythonStyleFormatContentUtf16 single double data head fuel l =
      some (writeContentUtf16 single double format args l) := by
  obtain ⟨hformat, hargs, hext, hoff, hraw⟩ := h.bounds
  have hdata := h.length_lt
  have hread : readBytes data recordHeaderSize format.length = some format := hformat ▸ h.format_eq
  have hlen := length_unitsOf format
  unfold pythonStyleFormatContentUtf16 writeContentUtf16 formatLoopUtf16
  simp only
  rw [← hformat]
  have hunits : ∀ j < (unitsOf format).length, styleUtf16 data j = (unitsOf format)[j]? :=
    fun j hj => styleUtf16_eq hread (hlen ▸ hj)
  have hscan := scanAt_readable h hunits (l.expandBy (format.length * 3 / 2 % 2 ^ 32))
  rw [hlen] at hscan
  obtain ⟨t, ht, hlayout⟩ := whileLoop_eq_turns single double
    (fun us args s hs => formatTurnUtf16_eq single double hs (by omega) hraw (by omega)) hscan
    (show (unitsOf format).length < fuel by omega)
  rw [ht, Option.map_some, hlayout]
  rfl

end Record

end QLog.Layout
