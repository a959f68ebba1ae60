import QLog.Foundations.Ring

/-!
# Format specifications

`FormatInfo` is what the layout keeps of the text between the braces of a replacement field, and
`c20Format` reads that text. A width or a precision has at most two digits, which the structure keeps as
proofs; a precision that was not given is `UINT32_MAX`.
-/

namespace QLog.Layout

/-- A character as a byte. -/
def ascii (c : Char) : UInt8 := UInt8.ofNat c.toNat

/-- `FormatInfo`. -/
structure FormatInfo where
  used : Bool
  upper : Bool
  fill : UInt8
  align : UInt8
  sign : UInt8
  prefixChar : UInt8
  offset : ℕ
  width : ℕ
  precision : ℕ
  type : UInt8
  width_lt : width < 100
  precision_ok : precision < 100 ∨ precision = 2 ^ 32 - 1

namespace FormatInfo

theorem zero_lt_hundred : 0 < 100 := by norm_num

theorem maxPrecision_ok : 2 ^ 32 - 1 < 100 ∨ 2 ^ 32 - 1 = 2 ^ 32 - 1 := .inr rfl

/-- The values with which a `FormatInfo` is created. -/
def initial : FormatInfo where
  used := false
  upper := true
  fill := ascii ' '
  align := ascii '>'
  sign := ascii '-'
  prefixChar := ascii ' '
  offset := 0
  width := 0
  precision := 2 ^ 32 - 1
  type := ascii ' '
  width_lt := zero_lt_hundred
  precision_ok := maxPrecision_ok

/-- `reset`. -/
def reset : FormatInfo := { initial with align := ascii '<' }

/-- The values that the padding leaves behind. -/
def cleared : FormatInfo where
  used := false
  upper := false
  fill := 0
  align := 0
  sign := 0
  prefixChar := 0
  offset := 0
  width := 0
  precision := 0
  type := 0
  width_lt := zero_lt_hundred
  precision_ok := .inl zero_lt_hundred

end FormatInfo

/-! ## Reading a specification -/

/-- `digits`: the first of its characters, and the second unless it is the terminator. -/
structure Digits where
  first : Fin 10
  second : Option (Fin 10)

/-- `std::atoi`. -/
def Digits.atoi (d : Digits) : ℕ :=
  match d.second with
  | none => d.first
  | some e => 10 * d.first + e

theorem Digits.atoi_lt (d : Digits) : d.atoi < 100 := by
  unfold atoi
  split <;> omega

/-- `digits` when no digit has been read. -/
def Digits.zero : Digits := ⟨0, none⟩

/-- A digit replaces a leading zero, or becomes the second one; a third one is dropped. -/
def Digits.push (d : Digits) (c : Fin 10) : Digits :=
  if d.first = 0 then { d with first := c }
  else if d.second = none then { d with second := some c }
  else d

/-- The local variables of `c20_format`. -/
structure SpecScan where
  info : FormatInfo
  readingPrecision : Bool
  alignSeen : Bool
  fillSeen : Bool
  digits : Digits

namespace SpecScan

/-- A fill character, which only an alignment to the right keeps. -/
def setFill (s : SpecScan) (c : UInt8) : SpecScan :=
  { s with info := { s.info with
      fill := if s.info.align = ascii '^' ∨ s.info.align = ascii '<' then ascii ' ' else c } }

/-- A presentation type. The first one counts, and an uppercase one is kept in lowercase. -/
def setType (s : SpecScan) (c : UInt8) : SpecScan :=
  let info :=
    if s.info.type = ascii ' ' then
      if c = ascii 'E' then { s.info with type := ascii 'e', upper := true }
      else if c = ascii 'X' then { s.info with type := ascii 'x', upper := true }
      else if c = ascii 'B' then { s.info with type := ascii 'b', upper := true }
      else { s.info with type := c, upper := false }
    else s.info
  let info :=
    if (c = ascii 'x' ∨ c = ascii 'X') ∧ info.align ≠ ascii '>' then { info with fill := ascii ' ' } else info
  { s with info := info }

/-- The switch over a character that is not a brace. -/
def step (s : SpecScan) (c : UInt8) : SpecScan :=
  if c = ascii '#' then { s with info := { s.info with prefixChar := c } }
  else if c = ascii '>' ∨ c = ascii '<' ∨ c = ascii '^' then
    if s.alignSeen then s.setFill c
    else { s with info := { s.info with align := c }, alignSeen := true }
  else if c = ascii '+' ∨ c = ascii '-' then { s with info := { s.info with sign := c } }
  else if c ∈ ['b', 'B', 'e', 'E', 'f', 'F', 'x', 'X', 'o', 'd'].map ascii then s.setType c
  else if c = ascii '.' then
    { s with
      info := { s.info with width := s.digits.atoi, width_lt := s.digits.atoi_lt }
      readingPrecision := true
      digits := .zero }
  else if s.fillSeen = false ∧ (c < ascii '1' ∨ ascii '9' < c) then s.setFill c
  else if ascii '0' ≤ c ∧ c ≤ ascii '9' then
    { s with fillSeen := true, digits := s.digits.push (Fin.ofNat 10 (c.toNat - 48)) }
  else s

/-- The scan stops without a closing brace that counts. -/
def giveUp (s : SpecScan) : SpecScan :=
  { s with info := { s.info with offset := 0, width := 0, width_lt := FormatInfo.zero_lt_hundred } }

/-- The loop behind the character at `index`, for at most so many turns. `style` shows the units of the
text, of which the last byte is looked at; one that cannot be read has no result. -/
def loop (style : ℕ → Option ℕ) (len : ℕ) : ℕ → ℕ → SpecScan → Option SpecScan
  | 0, _, _ => none
  | fuel + 1, index, s =>
    let index := index + 1
    if len ≤ index ∨ 10 < index then some s.giveUp
    else
      (style index).bind fun unit =>
        let c := UInt8.ofNat unit
        if c = ascii '\x7b' then some s.giveUp
        else if c = ascii '\x7d' then some { s with info := { s.info with offset := index } }
        else loop style len fuel index (s.step c)

/-- What follows the loop. -/
def finish (s : SpecScan) : FormatInfo :=
  let info :=
    if s.readingPrecision then
      { s.info with precision := s.digits.atoi, precision_ok := .inl s.digits.atoi_lt }
    else { s.info with width := s.digits.atoi, width_lt := s.digits.atoi_lt }
  if info.type = ascii ' ' then { info with type := ascii 'd' } else info

end SpecScan

/-- `c20_format`, on `len` units. -/
def c20Format (style : ℕ → Option ℕ) (len : ℕ) : Option FormatInfo :=
  let info := { FormatInfo.initial with used := true }
  (style 0).bind fun unit =>
    if unit ≠ ':'.toNat then some info
    else (SpecScan.loop style len 11 0 ⟨info, false, false, false, .zero⟩).map SpecScan.finish

/-! ## What is read -/

variable {style : ℕ → Option ℕ} {len : ℕ}

/-- The loop ends, reads units of the text only, and finds a closing brace in front of its end. -/
theorem SpecScan.exists_loop (hstyle : ∀ i < len, ∃ u, style i = some u) (hpos : 0 < len) {fuel index : ℕ}
    (hfuel : 11 ≤ fuel + index) (hindex : index ≤ 10) (s : SpecScan) :
    ∃ t, loop style len fuel index s = some t ∧ t.info.offset < len := by
  induction fuel generalizing index s with
  | zero => omega
  | succ fuel ih =>
    rw [loop]
    simp only
    by_cases hend : len ≤ index + 1 ∨ 10 < index + 1
    · exact ⟨s.giveUp, if_pos hend, hpos⟩
    · obtain ⟨u, hu⟩ := hstyle (index + 1) (by omega)
      rw [if_neg hend, hu, Option.bind_some]
      by_cases hopen : UInt8.ofNat u = ascii '\x7b'
      · exact ⟨s.giveUp, if_pos hopen, hpos⟩
      · rw [if_neg hopen]
        by_cases hclose : UInt8.ofNat u = ascii '\x7d'
        · exact ⟨_, if_pos hclose, show index + 1 < len by omega⟩
        · rw [if_neg hclose]
          exact ih (by omega) (by omega) _

@[simp] theorem SpecScan.offset_finish (s : SpecScan) : s.finish.offset = s.info.offset := by
  unfold finish
  simp only
  split <;> split <;> rfl

/-- **A specification is read inside its text.** -/
theorem exists_c20Format (hstyle : ∀ i < len, ∃ u, style i = some u) (hpos : 0 < len) :
    ∃ info, c20Format style len = some info ∧ info.offset < len := by
  obtain ⟨u, hu⟩ := hstyle 0 hpos
  rw [c20Format]
  simp only
  rw [hu, Option.bind_some]
  by_cases hcolon : u ≠ ':'.toNat
  · exact ⟨_, if_pos hcolon, hpos⟩
  · obtain ⟨t, ht, hoff⟩ := SpecScan.exists_loop hstyle hpos (show 11 ≤ 11 + 0 from le_rfl) (Nat.zero_le _)
      ⟨{ FormatInfo.initial with used := true }, false, false, false, .zero⟩
    rw [if_neg hcolon, ht, Option.map_some]
    exact ⟨t.finish, rfl, (SpecScan.offset_finish t).symm ▸ hoff⟩

/-- The loop looks at the units of the text only. -/
theorem SpecScan.loop_congr {style' : ℕ → Option ℕ} (h : ∀ i < len, style i = style' i) (fuel index : ℕ)
    (s : SpecScan) : loop style len fuel index s = loop style' len fuel index s := by
  induction fuel generalizing index s with
  | zero => rfl
  | succ fuel ih =>
    rw [loop, loop]
    by_cases hend : len ≤ index + 1 ∨ 10 < index + 1
    · exact (if_pos hend).trans (if_pos hend).symm
    · simp only
      rw [if_neg hend, if_neg hend, h (index + 1) (by omega)]
      cases style' (index + 1) with
      | none => rfl
      | some u =>
        rw [Option.bind_some, Option.bind_some, ih]

theorem c20Format_congr {style' : ℕ → Option ℕ} (h : ∀ i < len, style i = style' i) (hpos : 0 < len) :
    c20Format style len = c20Format style' len := by
  unfold c20Format
  simp only
  rw [h 0 hpos, SpecScan.loop_congr h]

end QLog.Layout
