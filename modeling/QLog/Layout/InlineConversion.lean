import QLog.Layout.Appending
import QLog.Layout.Scan
import QLog.Utility.UtfConversion

/-!
# The inline conversion of UTF-16 format texts

`python_style_format_content_utf16` converts a format text while it looks for braces. Without braces it appends
what `utf16_to_utf8_sw` writes (`pythonStyleFormatContentUtf16_eq`): every turn appends the bytes of the units
that it passes, and the room for them has been reserved before the loop.
-/

namespace QLog.Layout

open Record Bytes Appender Utf

variable {l : Layout}

/-! ## Copying -/

/-- Characters for which there is room are appended. -/
theorem Reserved.pushAll {cs : List ℕ} (h : l.Reserved cs.length) (hle : l.cursor + cs.length + l.slack ≤ 2 ^ 31) :
    l.pushAll cs = l.append (cs.map UInt8.ofNat) := by
  unfold Layout.pushAll
  rw [h.expandBy hle, foldl_push (by omega)]

theorem writeRun_eq (dst : ℕ) (us : List ℕ) (l : Layout) : l.writeRun dst us =
    { l with
      content := l.content.write dst (us.map UInt8.ofNat)
      writesInside := l.writesInside && decide (us = [] ∨ dst + us.length ≤ l.size) } := by
  induction us generalizing dst l with
  | nil => simp [writeRun]
  | cons u us ih =>
    have hinside : (decide (dst < l.size) && decide (us = [] ∨ dst + 1 + us.length ≤ l.size)) =
        decide (dst + (us.length + 1) ≤ l.size) := by
      rw [← Bool.decide_and]
      refine decide_eq_decide.2 ?_
      cases us with
      | nil =>
        simp only [List.length_nil, true_or, and_true]
        omega
      | cons v us =>
        simp only [List.length_cons, reduceCtorEq, false_or]
        omega
    have hwrite := Mem.write_append l.content dst [UInt8.ofNat u] (us.map UInt8.ofNat)
    rw [List.length_singleton] at hwrite
    rw [writeRun, ih, write]
    simp only [Bool.and_assoc, hinside, Mem.poke_eq_write, hwrite, List.length_cons, reduceCtorEq, false_or]
    rfl

/-- Units are copied to the cursor. -/
theorem copyRun_eq (us : List ℕ) (l : Layout) : l.copyRun us = l.append (us.map UInt8.ofNat) := by
  unfold copyRun append
  rw [writeRun_eq]
  simp only [List.length_map, List.map_eq_nil_iff]

/-! ## Reading the units -/

section Units

variable {style : ℕ → Option ℕ} {us : List ℕ}

/-- Two bytes and more. -/
theorem exists_two {bs : List UInt8} (h : 2 ≤ bs.length) : ∃ lo hi rest, bs = lo :: hi :: rest := by
  rcases bs with _ | ⟨lo, _ | ⟨hi, rest⟩⟩
  · simp at h
  · simp at h
  · exact ⟨lo, hi, rest, rfl⟩

theorem getElem?_unitsOf (bs : List UInt8) (k : ℕ) (h : 2 * k + 2 ≤ bs.length) :
    (unitsOf bs)[k]? = some (ofLe (sub bs (2 * k) 2)) := by
  induction k generalizing bs with
  | zero =>
    obtain ⟨lo, hi, rest, rfl⟩ := exists_two (show 2 ≤ bs.length by omega)
    simp [unitsOf, sub, ofLe]
  | succ k ih =>
    obtain ⟨lo, hi, rest, rfl⟩ := exists_two (show 2 ≤ bs.length by omega)
    simp only [List.length_cons] at h
    rw [unitsOf, List.getElem?_cons_succ, ih rest (by omega), show 2 * (k + 1) = 2 * k + 1 + 1 by omega]
    rfl

theorem length_unitsOf (bs : List UInt8) : (unitsOf bs).length = bs.length / 2 := by
  induction bs using unitsOf.induct with
  | case1 lo hi rest ih =>
    rw [unitsOf, List.length_cons, ih, List.length_cons, List.length_cons]
    omega
  | case2 bs h =>
    have hlt : bs.length < 2 := by
      by_contra hle
      obtain ⟨lo, hi, rest, rfl⟩ := exists_two (Nat.not_lt.1 hle)
      exact h lo hi rest rfl
    rw [unitsOf.eq_2 bs h, List.length_nil, Nat.div_eq_of_lt hlt]

/-- The units of a format text in a record. -/
theorem styleUtf16_eq {data format : List UInt8} (h : readBytes data recordHeaderSize format.length = some format)
    {k : ℕ} (hk : k < format.length / 2) : styleUtf16 data k = (unitsOf format)[k]? := by
  unfold readBytes at h
  split_ifs at h with hle
  have hformat := Option.some.inj h
  rw [getElem?_unitsOf format k (by omega), styleUtf16, readLe, if_pos (by omega)]
  congr 2
  have hdrop := drop_sub data recordHeaderSize format.length (2 * k)
  rw [hformat] at hdrop
  change (data.drop (recordHeaderSize + 2 * k)).take 2 = (format.drop (2 * k)).take 2
  rw [hdrop, sub, List.take_take, Nat.min_eq_left (by omega)]

end Units

/-! ## Turns -/

/-- Bytes are appended that the conversion of the units from `s.i` on begins with, and the units that they stand
for are passed. -/
structure Passes (us : List ℕ) (s t : FormatScan) : Prop where
  lt : s.i < t.i
  le : t.i ≤ s.i + us.length
  args : t.argsDataCursor = s.argsDataCursor
  bytes : ∃ bs, t.layout = s.layout.append bs ∧ bs.length ≤ 3 * (t.i - s.i) ∧
    utf16ToUtf8Sw us = bs ++ utf16ToUtf8Sw (us.drop (t.i - s.i))

section Turn

variable {style : ℕ → Option ℕ} {us : List ℕ} {s : FormatScan}

/-- A unit that is not ASCII, with its partner, is converted. -/
theorem exists_convertUnit {c len : ℕ} (hc : 0x80 ≤ c) (hstyle : ∀ j < (c :: us).length, style (s.i + j) = (c :: us)[j]?)
    (hlen : len = s.i + (c :: us).length) (hlt : len < 2 ^ 32) (hroom : s.layout.Reserved (3 * (c :: us).length))
    (hle : s.layout.cursor + 3 * (c :: us).length + s.layout.slack ≤ 2 ^ 31) :
    ∃ t, convertUnit style len s = some t ∧ Passes (c :: us) s t := by
  rw [List.length_cons] at *
  have hread : style s.i = some c := hstyle 0 (Nat.succ_pos _)
  have hnext : add32 s.i 1 = s.i + 1 := Nat.mod_eq_of_lt (by omega)
  have hpass : ∀ (cs : List ℕ), cs.length ≤ 3 → utf16ToUtf8Sw (c :: us) = cs.map UInt8.ofNat ++ utf16ToUtf8Sw us →
      Passes (c :: us) s ⟨s.i + 1, s.argsDataCursor, s.layout.append (cs.map UInt8.ofNat)⟩ := fun cs hcs heq =>
    ⟨Nat.lt_succ_self _, Nat.add_le_add_left (Nat.succ_pos _) _, rfl, _, rfl, by
      rw [List.length_map, Nat.add_sub_cancel_left]
      exact hcs, by
      rw [heq, Nat.add_sub_cancel_left]
      rfl⟩
  have hnone : s.layout.append ([].map UInt8.ofNat) = s.layout := append_nil (by omega)
  have hpush : ∀ cs : List ℕ, cs.length ≤ 3 → s.layout.pushAll cs = s.layout.append (cs.map UInt8.ofNat) :=
    fun cs hcs => (hroom.mono (by omega)).pushAll (by omega)
  unfold convertUnit
  rw [if_pos (by omega), hread, Option.bind_some]
  simp only [hnext]
  rw [if_neg (by omega)]
  by_cases h2 : c < 0x800
  · rw [if_pos h2, hpush _ (by simp)]
    refine ⟨_, rfl, hpass _ (by simp) ?_⟩
    rw [utf16ToUtf8Sw.eq_def]
    simp only
    rw [if_neg (by omega), if_pos h2]
    rfl
  · rw [if_neg h2]
    by_cases hhigh : 0xD800 ≤ c ∧ c ≤ 0xDBFF
    · rw [if_pos hhigh]
      cases us with
      | nil =>
        rw [if_neg (by rw [List.length_nil] at hlen; omega)]
        refine ⟨_, rfl, hnone ▸ hpass [] (by simp) ?_⟩
        rw [List.map_nil, List.nil_append]
        exact utf16ToUtf8Sw_lone (.inr ⟨hhigh, nofun⟩)
      | cons c2 us =>
        have hread2 : style (s.i + 1) = some c2 := hstyle 1 (by simp)
        rw [List.length_cons] at *
        rw [if_pos (by omega), hread2, Option.map_some]
        by_cases hlow : 0xDC00 ≤ c2 ∧ c2 ≤ 0xDFFF
        · have hnext2 : add32 (s.i + 1) 1 = s.i + 2 := Nat.mod_eq_of_lt (by omega)
          rw [if_pos hlow, hnext2, (hroom.mono (show 4 ≤ _ by omega)).pushAll (by simp; omega)]
          refine ⟨_, rfl, by simp, by simp, rfl, _, rfl, ?_, ?_⟩
          · simp
          · rw [Nat.add_sub_cancel_left, utf16ToUtf8Sw_pair hhigh hlow, encode_four (codepoint_range hhigh hlow)]
            rfl
        · rw [if_neg hlow]
          refine ⟨_, rfl, hnone ▸ hpass [] (by simp) ?_⟩
          rw [List.map_nil, List.nil_append]
          exact utf16ToUtf8Sw_lone (.inr ⟨hhigh, fun _ h => by cases h; exact hlow⟩)
    · rw [if_neg hhigh]
      by_cases hlow : 0xDC00 ≤ c ∧ c ≤ 0xDFFF
      · rw [if_pos hlow]
        refine ⟨_, rfl, hnone ▸ hpass [] (by simp) ?_⟩
        rw [List.map_nil, List.nil_append]
        exact utf16ToUtf8Sw_lone (.inl hlow)
      · rw [if_neg hlow, hpush _ (by simp)]
        refine ⟨_, rfl, hpass _ (by simp) ?_⟩
        rw [utf16ToUtf8Sw.eq_def]
        simp only
        rw [if_neg (by omega), if_neg h2, if_neg (by omega)]
        rfl

/-- A turn over units without braces. -/
theorem exists_formatTurnUtf16 (single double : FloatOps) {data : List UInt8} {head : RecordHeader}
    {argsDataLen len : ℕ} (hbrace : ∀ u ∈ us, u ≠ lbrace ∧ u ≠ rbrace) (hne : us ≠ [])
    (hstyle : ∀ j < us.length, styleUtf16 data (s.i + j) = us[j]?) (hlen : len = s.i + us.length) (hlt : len < 2 ^ 32)
    (hroom : s.layout.Reserved (3 * us.length)) (hle : s.layout.cursor + 3 * us.length + s.layout.slack ≤ 2 ^ 31) :
    ∃ t, formatTurnUtf16 single double data head argsDataLen len s = some t ∧ Passes us s t := by
  obtain ⟨xs, hxs⟩ : ∃ xs, us.takeWhile utf16.plain = xs := ⟨_, rfl⟩
  obtain ⟨rest, hrest⟩ : ∃ rest, us.dropWhile utf16.plain = rest := ⟨_, rfl⟩
  have hus : us = xs ++ rest := by rw [← hxs, ← hrest, List.takeWhile_append_dropWhile]
  have hascii : ∀ x ∈ xs, x < 0x80 := fun x hx => by
    have hplain := List.mem_takeWhile_imp (hxs ▸ hx)
    simp only [utf16, decide_eq_true_eq] at hplain
    exact hplain.1
  have hsplit := utf16ToUtf8Sw_ascii hascii rest
  rw [← hus] at hsplit
  have hlength : us.length = xs.length + rest.length := by rw [hus, List.length_append]
  have hadd : add32 s.i xs.length = s.i + xs.length := Nat.mod_eq_of_lt (by omega)
  have hscan := findBraceAndConvertU16Sw_eq hstyle s.layout.cursor s.layout
  have hrun : s.layout.append (xs.map UInt8.ofNat) =
      { s.layout.writeRun s.layout.cursor xs with cursor := add32 s.layout.cursor xs.length } :=
    (copyRun_eq xs s.layout).symm
  have hcursor : ((s.layout.writeRun s.layout.cursor xs)).cursor = s.layout.cursor := by rw [writeRun_eq]
  rw [hxs, hrest] at hscan
  unfold formatTurnUtf16
  rw [show len - s.i = us.length by omega, hscan, Option.bind_some]
  simp only [hcursor, hadd, ← hrun]
  cases rest with
  | nil =>
    rw [List.append_nil] at hus
    rw [List.length_nil, Nat.add_zero] at hlength
    have hpos : 0 < us.length := List.length_pos_iff.2 hne
    refine ⟨_, rfl, by simp only; omega, by simp only; omega, rfl, _, rfl, ?_, ?_⟩
    · rw [List.length_map]
      simp only
      omega
    · rw [hsplit]
      simp only [Nat.add_sub_cancel_left, ← hlength, List.drop_length]
  | cons c rest =>
    have hmem : c ∈ us := by
      rw [hus]
      simp
    have hplain := List.head?_dropWhile_not utf16.plain us
    rw [hrest] at hplain
    have hc : 0x80 ≤ c := by
      simp only [utf16, List.head?_cons, decide_eq_false_iff_not] at hplain
      have := hbrace c hmem
      omega
    have hlen' : (xs.map UInt8.ofNat).length = xs.length := List.length_map _
    have hcursor' : (s.layout.append (xs.map UInt8.ofNat)).cursor = s.layout.cursor + xs.length := by
      refine (Nat.mod_eq_of_lt ?_).trans (by rw [hlen'])
      omega
    have hroom' : (s.layout.append (xs.map UInt8.ofNat)).Reserved (3 * (c :: rest).length) :=
      ⟨by have := hroom.room; rw [hcursor']; change _ + s.layout.slack ≤ s.layout.size; omega, hroom.size_le⟩
    obtain ⟨t, ht, hpass⟩ := @exists_convertUnit (styleUtf16 data) rest
      ⟨s.i + xs.length, s.argsDataCursor, s.layout.append (xs.map UInt8.ofNat)⟩ c len hc
      (fun j hj => by
        rw [Nat.add_assoc, hstyle _ (by omega), hus, List.getElem?_append_right (by omega), Nat.add_sub_cancel_left])
      (show len = s.i + xs.length + (c :: rest).length by omega) hlt hroom'
      (by rw [hcursor']; change _ + s.layout.slack ≤ _; omega)
    simp only [List.head?_cons, Option.any_some, decide_eq_true hc, if_true]
    obtain ⟨bs, hbs, hle', heq⟩ := hpass.bytes
    have hpassed := hpass.lt
    have hend := hpass.le
    simp only at hbs hle' heq hpassed hend
    refine ⟨t, ht, by omega, by omega, hpass.args, xs.map UInt8.ofNat ++ bs, ?_, ?_, ?_⟩
    · rw [hbs, append_append (by omega)]
    · rw [List.length_append, hlen']
      omega
    · have hdrop : us.drop (t.i - s.i) = (c :: rest).drop (t.i - (s.i + xs.length)) := by
        rw [hus, List.drop_append, List.drop_eq_nil_of_le (show xs.length ≤ t.i - s.i by omega), List.nil_append,
          Nat.sub_sub]
      rw [hsplit, heq, hdrop, List.append_assoc]

end Turn

/-! ## The loop -/

/-- The state of the loop behind the first `s.i` units. -/
structure Converted (us : List ℕ) (l : Layout) (s : FormatScan) : Prop where
  le : s.i ≤ us.length
  args : s.argsDataCursor = 0
  bytes : ∃ bs, s.layout = l.append bs ∧ bs.length ≤ 3 * s.i ∧ utf16ToUtf8Sw us = bs ++ utf16ToUtf8Sw (us.drop s.i)

/-- **Without braces the format text is expanded for, and appended as `utf16_to_utf8_sw` converts it.** -/
theorem pythonStyleFormatContentUtf16_eq (single double : FloatOps) {data format : List UInt8} {head : RecordHeader}
    (hformat : readBytes data recordHeaderSize head.logFormatDataLen = some format)
    (hbrace : ∀ u ∈ unitsOf format, u ≠ lbrace ∧ u ≠ rbrace) (hsize : l.size ≤ 2 ^ 31)
    (hroom : l.cursor + head.logFormatDataLen * 3 / 2 + l.slack ≤ 2 ^ 31) :
    pythonStyleFormatContentUtf16 single double data head ((unitsOf format).length + 1) l =
      some ((l.expandBy (head.logFormatDataLen * 3 / 2)).append (utf16ToUtf8Sw (unitsOf format))) := by
  have hlen : format.length = head.logFormatDataLen := length_of_readBytes hformat
  rw [← hlen] at hformat hroom ⊢
  obtain ⟨us, hus⟩ : ∃ us, unitsOf format = us := ⟨_, rfl⟩
  have hstyle : ∀ j < us.length, styleUtf16 data j = us[j]? := fun j hj => by
    rw [← hus, length_unitsOf] at hj
    rw [← hus, styleUtf16_eq hformat hj]
  have hunits : us.length = format.length / 2 := by rw [← hus, length_unitsOf]
  rw [hus] at hbrace ⊢
  obtain ⟨L, hL⟩ : ∃ L, l.expandBy (format.length * 3 / 2) = L := ⟨_, rfl⟩
  have hreserved : L.Reserved (3 * us.length) := hL ▸ (reserved_expandBy hroom hsize).mono (by omega)
  have hcursor : L.cursor = l.cursor := by
    rw [← hL, expandBy_eq hroom]
    split_ifs <;> rfl
  have hLslack : L.slack = l.slack := by
    rw [← hL, expandBy_eq hroom]
    split_ifs <;> rfl
  have hbody : ∀ s, Converted us L s → s.i < us.length → ∃ t,
      formatTurnUtf16 single double data head (logArgsDataSize head) us.length s = some t ∧ Converted us L t ∧
        us.length - t.i < us.length - s.i := fun s hs hlt => by
    obtain ⟨bs, hbs, hle, heq⟩ := hs.bytes
    have hsum : L.cursor + bs.length < 2 ^ 32 := by omega
    have hcur : s.layout.cursor = L.cursor + bs.length := hbs ▸ Nat.mod_eq_of_lt hsum
    have hdrop : (us.drop s.i).length = us.length - s.i := List.length_drop
    have hslack : s.layout.slack = L.slack := by rw [hbs]; rfl
    have hlayout : s.layout.size = L.size := by rw [hbs]; rfl
    have hres : s.layout.Reserved (3 * (us.drop s.i).length) :=
      ⟨by have := hreserved.room; omega, by rw [hlayout]; exact hreserved.size_le⟩
    obtain ⟨t, ht, hpass⟩ := @exists_formatTurnUtf16 (us.drop s.i) s single double data head
      (logArgsDataSize head) us.length (fun u hu => hbrace u (List.mem_of_mem_drop hu))
      (List.ne_nil_of_length_pos (by omega))
      (fun j hj => by rw [hstyle _ (by omega), List.getElem?_drop]) (by omega) (by omega) hres (by omega)
    obtain ⟨bs', hbs', hle', heq'⟩ := hpass.bytes
    have hpassed := hpass.lt
    have hend := hpass.le
    refine ⟨t, ht, ⟨by omega, hpass.args.trans hs.args, bs ++ bs', ?_, ?_, ?_⟩, by omega⟩
    · rw [hbs', hbs, append_append hsum]
    · rw [List.length_append]
      omega
    · rw [heq, heq', List.append_assoc, List.drop_drop, show s.i + (t.i - s.i) = t.i by omega]
  have hinit : Converted us L ⟨0, 0, L⟩ :=
    ⟨Nat.zero_le _, rfl, [], (append_nil (show L.cursor < 2 ^ 32 by omega)).symm, Nat.zero_le _, rfl⟩
  obtain ⟨t, ht, hI, hend⟩ := exists_whileLoop (fun s : FormatScan => us.length - s.i) hbody hinit
  obtain ⟨bs, hbs, -, heq⟩ := hI.bytes
  rw [List.drop_eq_nil_of_le (by omega), utf16ToUtf8Sw, List.append_nil] at heq
  unfold pythonStyleFormatContentUtf16 formatLoopUtf16
  simp only
  rw [← hlen, ← hunits, Nat.mod_eq_of_lt (show format.length * 3 / 2 < 2 ^ 32 by omega), hL]
  rw [Nat.sub_zero] at ht
  rw [ht, Option.map_some, hbs, heq]

/-! ## The conversions -/

/-- **UTF-16 is converted to UTF-8, of three bytes at most for a unit; a text without lone surrogates is read
back; and a format text without braces is converted alike.** -/
theorem utf16_conversion (us : List UInt16) :
    (∃ cs : List Char, utf16ToUtf8Sw (us.map UInt16.toNat) = cs.flatMap String.utf8EncodeChar) ∧
    (utf16ToUtf8Sw (us.map UInt16.toNat)).length ≤ 3 * us.length ∧
    (WellFormed (us.map UInt16.toNat) →
      utf8ToUtf16Sw (utf16ToUtf8Sw (us.map UInt16.toNat)) = some (us.map UInt16.toNat)) ∧
    ∀ (single double : FloatOps) (l : Layout) (data format : List UInt8) (head : RecordHeader),
      readBytes data recordHeaderSize head.logFormatDataLen = some format → unitsOf format = us.map UInt16.toNat →
      (∀ u ∈ us, u.toNat ≠ lbrace ∧ u.toNat ≠ rbrace) → l.size ≤ 2 ^ 31 →
      l.cursor + head.logFormatDataLen * 3 / 2 + l.slack ≤ 2 ^ 31 →
      ∃ l', pythonStyleFormatContentUtf16 single double data head (us.length + 1) l = some l' ∧
        Appended l (utf16ToUtf8Sw (us.map UInt16.toNat)) l' := by
  have h16 : ∀ u ∈ us.map UInt16.toNat, u < 2 ^ 16 := fun u hu => by
    obtain ⟨v, -, rfl⟩ := List.mem_map.1 hu
    exact v.toNat_lt
  obtain ⟨hvalid, hlength⟩ := utf16ToUtf8Sw_valid _ h16
  rw [List.length_map] at hlength
  refine ⟨hvalid, hlength, utf8ToUtf16Sw_utf16ToUtf8Sw, ?_⟩
  intro single double l data format head hformat hunits hbrace hsize hroom
  have hlen : us.length = head.logFormatDataLen / 2 := by
    rw [← length_of_readBytes hformat, ← length_unitsOf, hunits, List.length_map]
  have hbrace' : ∀ u ∈ unitsOf format, u ≠ lbrace ∧ u ≠ rbrace := fun u hu => by
    obtain ⟨v, hv, rfl⟩ := List.mem_map.1 (hunits ▸ hu)
    exact hbrace v hv
  have heq := pythonStyleFormatContentUtf16_eq single double hformat hbrace' hsize hroom
  rw [hunits, List.length_map] at heq
  exact ⟨_, heq, appended_expandBy (by omega) hroom hsize⟩

/-- A letter, an accented one and a pair, in a record without arguments and with an empty layout. -/
theorem utf16_conversion_four : ∃ single double : FloatOps, ∃ l', pythonStyleFormatContentUtf16 single double
    (List.replicate 40 0 ++ [0x41, 0, 0xE9, 0, 0x3D, 0xD8, 0, 0xDE]) ⟨0, 48, 0, 0, 0, 12, 0, 8⟩ 5 initial = some l' ∧
      Appended initial (utf16ToUtf8Sw ([0x41, 0xE9, 0xD83D, 0xDE00].map UInt16.toNat)) l' ∧
      utf8ToUtf16Sw (utf16ToUtf8Sw ([0x41, 0xE9, 0xD83D, 0xDE00].map UInt16.toNat)) =
        some ([0x41, 0xE9, 0xD83D, 0xDE00].map UInt16.toNat) := by
  let ops : FloatOps := ⟨Unit, fun _ => (), fun _ => true, fun _ => 0, fun _ => 0, fun _ _ => (), fun _ _ => (),
    fun _ => (), fun _ => (), fun _ => 0, fun _ _ => ()⟩
  have hwell : WellFormed ([0x41, 0xE9, 0xD83D, 0xDE00].map UInt16.toNat) :=
    .single (.inl (by decide)) (.single (.inl (by decide)) (.pair (by unfold High; decide) (by unfold Low; decide) .nil))
  obtain ⟨-, -, hback, hinline⟩ := utf16_conversion [0x41, 0xE9, 0xD83D, 0xDE00]
  obtain ⟨l', hl', happended⟩ := hinline ops ops initial
    (List.replicate 40 0 ++ [0x41, 0, 0xE9, 0, 0x3D, 0xD8, 0, 0xDE]) [0x41, 0, 0xE9, 0, 0x3D, 0xD8, 0, 0xDE]
    ⟨0, 48, 0, 0, 0, 12, 0, 8⟩ (by decide) (by decide) (by simp [lbrace, rbrace]) (by decide +kernel)
    (by decide +kernel)
  exact ⟨ops, ops, l', hl', happended, hback hwell⟩

end QLog.Layout
