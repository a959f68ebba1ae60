import QLog.Appender.Rolling
import QLog.Utility.Strtol

/-!
# Texts of time zones

`TimeZone::parse_by_string` and `TimeZone::get_tm_by_epoch`. A text is the name of local time, a name of
UTC, or a number of hours with minutes behind a colon; the numbers are read by `strtol`, with its own blanks
and signs. The minutes take the sign of the hours, which is that of the text unless the hours are zero, and
they are assigned before the rest of the text is looked at.

`OffsetText` says which offset a text stands for. `parseByString_spec` compares it with what is parsed.
-/

namespace QLog.Zone

open Utility (trim strtol Reads signed)

/-- What the C library knows about local time: the name of its zone, and its difference to UTC in
milliseconds if this can be computed and is an `int32_t`. -/
structure LocalTime where
  name : List Char
  diffMs : Option ℤ

/-- The fields of `TimeZone`, without its cache. -/
structure TimeZone where
  useLocalTime : Bool
  gmtOffsetHours : ℤ
  gmtOffsetMinutes : ℤ
  timeZoneDiffToGmtMs : ℤ
  timeZoneStr : List Char
  deriving DecidableEq

/-- `reset`. -/
def TimeZone.reset : TimeZone := ⟨true, 0, 0, 0, []⟩

/-- `LOCAL`, `LOCALTIME` and `LOCAL_TIME`. -/
def localNames : List (List Char) :=
  [['L', 'O', 'C', 'A', 'L'], ['L', 'O', 'C', 'A', 'L', 'T', 'I', 'M', 'E'],
    ['L', 'O', 'C', 'A', 'L', '_', 'T', 'I', 'M', 'E']]

/-- The letters `UTC`. -/
def utcText : List Char := ['U', 'T', 'C']

/-- `GMT`, `Z` and `UTC`. -/
def utcNames : List (List Char) := [['G', 'M', 'T'], ['Z'], utcText]

/-- The end of the loop: `*end` is a zero, or the text is not valid. -/
def finishText (z : TimeZone) (hour minute : ℤ) (rest : List Char) : TimeZone :=
  if rest ≠ [] ∧ rest.head? ≠ some '\x00' then z
  else
    { z with
      useLocalTime := false
      gmtOffsetHours := hour
      gmtOffsetMinutes := if hour < 0 then -minute else minute }

/-- The minutes behind a colon. They are assigned here already. -/
def parseMinutes (z : TimeZone) (hour : ℤ) (start : List Char) : TimeZone :=
  let r := strtol start
  if r.converted = false ∨ r.erange = true ∨ r.value < 0 ∨ 60 ≤ r.value then z
  else finishText { z with gmtOffsetMinutes := r.value } hour r.value r.rest

/-- The hours, and what is behind them. -/
def parseHours (z : TimeZone) (start : List Char) : TimeZone :=
  let r := strtol start
  if r.converted = false ∨ r.erange = true ∨ r.value < -12 ∨ 14 < r.value then z
  else
    match r.rest with
    | ':' :: start => parseMinutes z r.value start
    | rest => finishText z r.value 0 rest

/-- The body of the loop `do … while (false)`, on the text in capitals. -/
def parseText (upperTimeZone : List Char) : TimeZone :=
  if upperTimeZone = [] then .reset
  else if upperTimeZone ∈ localNames then .reset
  else if upperTimeZone ∈ utcNames then { TimeZone.reset with useLocalTime := false }
  else parseHours .reset (if utcText <+: upperTimeZone then upperTimeZone.drop 3 else upperTimeZone)

/-- `%+d` of a small number. -/
def printSigned (n : ℤ) : List Char := (if n < 0 then '-' else '+') :: Nat.toDigits 10 n.natAbs

/-- `%02d` of a number below 100. -/
def printTwo (n : ℕ) : List Char := if n < 10 then '0' :: Nat.toDigits 10 n else Nat.toDigits 10 n

/-- The name of an offset. -/
def offsetName (hours minutes : ℤ) : List Char :=
  if hours = 0 ∧ minutes = 0 then utcText ++ ['0']
  else if minutes = 0 then utcText ++ printSigned hours
  else utcText ++ printSigned hours ++ ':' :: printTwo minutes.natAbs

/-- The last part of `parse_by_string`: the name and the difference. -/
def TimeZone.finish (z : TimeZone) (loc : LocalTime) : TimeZone :=
  if z.useLocalTime then
    { z with timeZoneStr := loc.name, timeZoneDiffToGmtMs := loc.diffMs.getD z.timeZoneDiffToGmtMs }
  else
    { z with
      timeZoneStr := offsetName z.gmtOffsetHours z.gmtOffsetMinutes
      timeZoneDiffToGmtMs := (z.gmtOffsetHours * 3600 + z.gmtOffsetMinutes * 60) * 1000 }

/-- The text in capitals, without blanks around it. -/
def upperText (timeZoneStr : List Char) : List Char := (trim timeZoneStr).map Char.toUpper

/-- `parse_by_string`. -/
def parseByString (loc : LocalTime) (timeZoneStr : List Char) : TimeZone :=
  (parseText (upperText timeZoneStr)).finish loc

/-- `std::in_range<std::time_t>`, with 64 bits. -/
def inRangeTimeT (x : ℤ) : Bool := -2 ^ 63 ≤ x ∧ x < 2 ^ 63

/-- `get_tm_by_epoch`, with the two functions of the C library. -/
def TimeZone.getTmByEpoch {τ : Type*} (localtime gmtime : ℤ → Option τ) (z : TimeZone) (epochMs : UInt64) :
    Option τ :=
  let epochSecond : ℤ := (epochMs / 1000).toNat
  if inRangeTimeT epochSecond = false then none
  else if z.useLocalTime then localtime epochSecond
  else
    let deltaSec := z.gmtOffsetHours * 3600 + z.gmtOffsetMinutes * 60
    let adjustedSec := epochSecond + deltaSec
    if inRangeTimeT adjustedSec = false then none else gmtime adjustedSec

/-! ## What a text stands for -/

/-- The string is over for C. -/
def Ends (rest : List Char) : Prop := rest = [] ∨ rest.head? = some '\x00'

/-- `text` is `UTC` or nothing, and then `start`. -/
def AfterUtc (text start : List Char) : Prop := text = utcText ++ start ∨ text = start

/-- The hours and the minutes of a text, with the sign in front of the hours. -/
inductive Offset (start : List Char) (neg : Bool) (h m : ℕ) : Prop
  | hours (rest : List Char) (hours : Reads start neg h rest) (ends : Ends rest) (zero : m = 0)
  | minutes (start' rest : List Char) (neg' : Bool) (hours : Reads start neg h (':' :: start'))
      (minutes : Reads start' neg' m rest) (sign : neg' = true → m = 0) (ends : Ends rest)

/-- A text in capitals that stands for an offset: hours from -12 to 14, and minutes below 60. -/
structure OffsetText (text : List Char) (neg : Bool) (h m : ℕ) : Prop where
  exists_start : ∃ start, AfterUtc text start ∧ Offset start neg h m
  hours_mem : -12 ≤ signed neg h ∧ signed neg h ≤ 14
  minutes_lt : m < 60

/-- A text that does not end behind its valid hours and minutes. -/
structure RunsOn (start : List Char) (m : ℕ) : Prop where
  exists_parts : ∃ neg h start' neg' rest, Reads start neg h (':' :: start') ∧
    (-12 ≤ signed neg h ∧ signed neg h ≤ 14) ∧ Reads start' neg' m rest ∧ (neg' = true → m = 0) ∧ ¬Ends rest
  minutes_lt : m < 60

/-! ## Parsing of an offset -/

/-- The fields that are left when the text ends. -/
def fixedZone (hour minute : ℤ) : TimeZone := ⟨false, hour, if hour < 0 then -minute else minute, 0, []⟩

theorem finishText_of_ends {z : TimeZone} (hdiff : z.timeZoneDiffToGmtMs = 0) (hname : z.timeZoneStr = [])
    (hour minute : ℤ) {rest : List Char} (h : Ends rest) :
    finishText z hour minute rest = fixedZone hour minute := by
  have hno : ¬(rest ≠ [] ∧ rest.head? ≠ some '\x00') := fun hn => h.elim hn.1 hn.2
  rw [finishText, if_neg hno, hdiff, hname]
  rfl

theorem finishText_of_not_ends (z : TimeZone) (hour minute : ℤ) {rest : List Char} (h : ¬Ends rest) :
    finishText z hour minute rest = z := if_pos (not_or.1 h)

/-- A sign in front of minutes is allowed if it changes nothing. -/
theorem signed_mem_iff {neg : Bool} {m : ℕ} : (0 ≤ signed neg m ∧ signed neg m ≤ 59) ↔
    (neg = true → m = 0) ∧ m < 60 := by
  cases neg with
  | true =>
    change (0 ≤ -(m : ℤ) ∧ -(m : ℤ) ≤ 59) ↔ _
    constructor
    · intro h
      exact ⟨fun _ => by omega, by omega⟩
    · rintro ⟨h, -⟩
      rw [h rfl]
      decide
  | false =>
    change (0 ≤ (m : ℤ) ∧ (m : ℤ) ≤ 59) ↔ _
    constructor
    · intro h
      exact ⟨fun hn => Bool.noConfusion hn, by omega⟩
    · intro h
      omega

theorem signed_of_mem {neg : Bool} {m : ℕ} (h : neg = true → m = 0) : signed neg m = m := by
  cases neg with
  | true =>
    rw [h rfl]
    rfl
  | false => rfl

/-- **Which offsets are parsed.** Otherwise only minutes may be left behind. -/
theorem parseHours_cases (start : List Char) :
    (∃ neg h m, Offset start neg h m ∧ (-12 ≤ signed neg h ∧ signed neg h ≤ 14) ∧ m < 60 ∧
      parseHours .reset start = fixedZone (signed neg h) m) ∨
    ((∀ neg h m, Offset start neg h m → -12 ≤ signed neg h ∧ signed neg h ≤ 14 → ¬m < 60) ∧
      ∃ m : ℕ, parseHours .reset start = { TimeZone.reset with gmtOffsetMinutes := m } ∧
        (m = 0 ∨ RunsOn start m)) := by
  rcases @Utility.strtol_cases (-12) 14 (by decide) (by decide) start with
    ⟨hbad, hno⟩ | ⟨neg, h, rest, hreads, hmem, hvalue⟩
  · refine .inr ⟨fun neg h m hoff hmem => ?_, 0, if_pos hbad, .inl rfl⟩
    cases hoff with
    | hours rest hours => exact absurd hmem (hno neg h rest hours)
    | minutes start' rest neg' hours => exact absurd hmem (hno neg h _ hours)
  have hok : ¬((strtol start).converted = false ∨ (strtol start).erange = true ∨
      (strtol start).value < -12 ∨ 14 < (strtol start).value) := by
    rw [hvalue]
    rintro (hn | hn | hn | hn)
    · cases hn
    · cases hn
    · exact absurd hn (not_lt.2 hmem.1)
    · exact absurd hn (not_lt.2 hmem.2)
  by_cases hcolon : ∃ start', rest = ':' :: start'
  · obtain ⟨start', rfl⟩ := hcolon
    have hparse : parseHours .reset start = parseMinutes .reset (signed neg h) start' := by
      rw [parseHours, if_neg hok, hvalue]
      rfl
    rw [hparse]
    rcases @Utility.strtol_cases 0 59 (by decide) (by decide) start' with
      ⟨hbad, hno⟩ | ⟨neg', m, rest, hminutes, hmem', hvalue'⟩
    · refine .inr ⟨fun neg₁ h₁ m hoff _ hm => ?_, 0, if_pos hbad, .inl rfl⟩
      cases hoff with
      | hours rest hours ends zero =>
        obtain ⟨-, -, rfl⟩ := hreads.unique hours
        rcases ends with hn | hn <;> cases hn
      | minutes start₁ rest neg' hours minutes sign ends =>
        obtain ⟨-, -, hsame⟩ := hreads.unique hours
        obtain rfl := (List.cons.inj hsame).2
        exact hno neg' m rest minutes (signed_mem_iff.2 ⟨sign, hm⟩)
    have hsign := signed_mem_iff.1 hmem'
    have hfinish : parseMinutes .reset (signed neg h) start' =
        finishText { TimeZone.reset with gmtOffsetMinutes := m } (signed neg h) m rest := by
      rw [parseMinutes, hvalue', signed_of_mem hsign.1, if_neg]
      rintro (hn | hn | hn | hn)
      · cases hn
      · cases hn
      · exact absurd hn (not_lt.2 (Int.natCast_nonneg m))
      · have hm := hsign.2
        change 60 ≤ (m : ℤ) at hn
        omega
    rw [hfinish]
    by_cases hends : Ends rest
    · rw [finishText_of_ends rfl rfl _ _ hends]
      exact .inl ⟨neg, h, m, .minutes start' rest neg' hreads hminutes hsign.1 hends, hmem, hsign.2, rfl⟩
    · rw [finishText_of_not_ends _ _ _ hends]
      refine .inr ⟨fun neg₁ h₁ m₁ hoff _ hm => ?_, m, rfl, .inr ⟨⟨neg, h, start', neg', rest, hreads, hmem,
        hminutes, hsign.1, hends⟩, hsign.2⟩⟩
      cases hoff with
      | hours rest₁ hours ends zero =>
        obtain ⟨-, -, rfl⟩ := hreads.unique hours
        rcases ends with hn | hn <;> cases hn
      | minutes start₁ rest₁ neg₂ hours minutes sign ends =>
        obtain ⟨-, -, hsame⟩ := hreads.unique hours
        obtain rfl := (List.cons.inj hsame).2
        obtain ⟨-, -, rfl⟩ := hminutes.unique minutes
        exact hends ends
  · have hfinish : parseHours .reset start = finishText .reset (signed neg h) 0 rest := by
      rw [parseHours, if_neg hok, hvalue]
      split
      · rename_i start' hrest
        exact absurd ⟨start', hrest⟩ hcolon
      · rfl
    rw [hfinish]
    by_cases hends : Ends rest
    · rw [finishText_of_ends rfl rfl _ _ hends]
      exact .inl ⟨neg, h, 0, .hours rest hreads hends rfl, hmem, by decide, rfl⟩
    · rw [finishText_of_not_ends _ _ _ hends]
      refine .inr ⟨fun neg₁ h₁ m₁ hoff _ hm => ?_, 0, rfl, .inl rfl⟩
      cases hoff with
      | hours rest₁ hours ends zero =>
        obtain ⟨-, -, rfl⟩ := hreads.unique hours
        exact hends ends
      | minutes start₁ rest₁ neg₂ hours minutes sign ends =>
        obtain ⟨-, -, rfl⟩ := hreads.unique hours
        exact hcolon ⟨start₁, rfl⟩

/-! ## Parsing of a text -/

theorem Offset.reads {start : List Char} {neg : Bool} {h m : ℕ} (hoff : Offset start neg h m) :
    ∃ rest, Reads start neg h rest := by
  cases hoff with
  | hours rest hours => exact ⟨rest, hours⟩
  | minutes start' rest neg' hours => exact ⟨_, hours⟩

theorem Offset.unique {start : List Char} {neg neg' : Bool} {h h' m m' : ℕ} (hoff : Offset start neg h m)
    (hoff' : Offset start neg' h' m') : neg = neg' ∧ h = h' ∧ m = m' := by
  cases hoff with
  | hours rest hours ends zero =>
    cases hoff' with
    | hours rest' hours' ends' zero' =>
      obtain ⟨hneg, hh, -⟩ := hours.unique hours'
      exact ⟨hneg, hh, zero.trans zero'.symm⟩
    | minutes start' rest' neg₁ hours' minutes' sign' ends' =>
      obtain ⟨-, -, rfl⟩ := hours.unique hours'
      rcases ends with hn | hn <;> cases hn
  | minutes start₁ rest neg₁ hours minutes sign ends =>
    cases hoff' with
    | hours rest' hours' ends' zero' =>
      obtain ⟨-, -, rfl⟩ := hours.unique hours'
      rcases ends' with hn | hn <;> cases hn
    | minutes start' rest' neg₁ hours' minutes' sign' ends' =>
      obtain ⟨hneg, hh, hsame⟩ := hours.unique hours'
      obtain rfl := (List.cons.inj hsame).2
      exact ⟨hneg, hh, (minutes.unique minutes').2.1⟩

/-- No number begins with a letter. -/
theorem not_reads {start : List Char} (h : (strtol start).converted = false) {neg : Bool} {n : ℕ}
    {rest : List Char} : ¬Reads start neg n rest := by
  intro hr
  rw [hr.converted] at h
  cases h

/-- The numbers of a text begin where `parse_start` says. -/
theorem start_eq_of_reads {text start : List Char} (hafter : AfterUtc text start) {neg : Bool} {n : ℕ}
    {rest : List Char} (h : Reads start neg n rest) :
    start = if utcText <+: text then text.drop 3 else text := by
  rcases hafter with rfl | rfl
  · rw [if_pos (List.prefix_append _ _)]
    rfl
  · rw [if_neg]
    rintro ⟨cs, rfl⟩
    exact not_reads rfl h

/-- Names stand for no offset. -/
theorem not_offsetText_of_name {text : List Char} (h : text = [] ∨ text ∈ localNames ∨ text ∈ utcNames)
    {neg : Bool} {n m : ℕ} : ¬OffsetText text neg n m := by
  rintro ⟨⟨start, hafter, hoff⟩, -, -⟩
  obtain ⟨rest, hr⟩ := hoff.reads
  have hstart := start_eq_of_reads hafter hr
  refine not_reads ?_ hr
  rw [hstart]
  simp only [localNames, utcNames, List.mem_cons, List.not_mem_nil, or_false] at h
  rcases h with rfl | (rfl | rfl | rfl) | rfl | rfl | rfl <;> decide

/-- A text that runs on behind its minutes, with or without `UTC` in front. -/
def TextRunsOn (text : List Char) (m : ℕ) : Prop := ∃ start, AfterUtc text start ∧ RunsOn start m

/-- **What a text is parsed to**: the zone of its name, its offset, or local time, with minutes left behind
only if the text runs on behind them. -/
theorem parseText_cases (text : List Char) :
    (text ∈ utcNames ∧ parseText text = fixedZone 0 0) ∨
    (∃ neg h m, OffsetText text neg h m ∧ parseText text = fixedZone (signed neg h) m) ∨
    ((text ∉ utcNames ∧ ∀ neg h m, ¬OffsetText text neg h m) ∧
      ∃ m : ℕ, parseText text = { TimeZone.reset with gmtOffsetMinutes := m } ∧
        (m = 0 ∨ TextRunsOn text m)) := by
  by_cases hutc : text ∈ utcNames
  · refine .inl ⟨hutc, ?_⟩
    simp only [utcNames, List.mem_cons, List.not_mem_nil, or_false] at hutc
    rcases hutc with rfl | rfl | rfl <;> decide
  refine .inr ?_
  by_cases hname : text = [] ∨ text ∈ localNames
  · refine .inr ⟨⟨hutc, fun neg h m => not_offsetText_of_name (hname.imp_right .inl)⟩, 0, ?_, .inl rfl⟩
    rw [parseText]
    by_cases hnil : text = []
    · exact if_pos hnil
    · rw [if_neg hnil]
      exact if_pos (hname.resolve_left hnil)
  rw [not_or] at hname
  have hparse : parseText text =
      parseHours .reset (if utcText <+: text then text.drop 3 else text) := by
    rw [parseText, if_neg hname.1, if_neg hname.2, if_neg hutc]
  have hafter : AfterUtc text (if utcText <+: text then text.drop 3 else text) := by
    split
    · rename_i hstart
      obtain ⟨cs, rfl⟩ := hstart
      exact .inl rfl
    · exact .inr rfl
  rw [hparse]
  rcases parseHours_cases (if utcText <+: text then text.drop 3 else text) with
    ⟨neg, h, m, hoff, hmem, hm, heq⟩ | ⟨hno, m, heq, hrun⟩
  · exact .inl ⟨neg, h, m, ⟨⟨_, hafter, hoff⟩, hmem, hm⟩, heq⟩
  · refine .inr ⟨⟨hutc, ?_⟩, m, heq, hrun.imp_right fun hr => ⟨_, hafter, hr⟩⟩
    rintro neg h m' ⟨⟨start, hafter', hoff⟩, hmem, hm⟩
    obtain ⟨rest, hr⟩ := hoff.reads
    obtain rfl := start_eq_of_reads hafter' hr
    exact hno neg h m' hoff hmem hm

theorem OffsetText.unique {text : List Char} {neg neg' : Bool} {h h' m m' : ℕ}
    (hoff : OffsetText text neg h m) (hoff' : OffsetText text neg' h' m') : neg = neg' ∧ h = h' ∧ m = m' := by
  obtain ⟨start, hafter, hoff⟩ := hoff.exists_start
  obtain ⟨start', hafter', hoff'⟩ := hoff'.exists_start
  obtain ⟨rest, hr⟩ := hoff.reads
  obtain ⟨rest', hr'⟩ := hoff'.reads
  obtain rfl := (start_eq_of_reads hafter hr).trans (start_eq_of_reads hafter' hr').symm
  exact hoff.unique hoff'

/-- The difference of a fixed zone. -/
theorem finish_fixedZone (hour : ℤ) (minute : ℕ) (loc : LocalTime) :
    ((fixedZone hour minute).finish loc).useLocalTime = false ∧
      ((fixedZone hour minute).finish loc).gmtOffsetHours = hour ∧
      ((fixedZone hour minute).finish loc).gmtOffsetMinutes = (if hour < 0 then -(minute : ℤ) else minute) ∧
      ((fixedZone hour minute).finish loc).timeZoneDiffToGmtMs =
        (hour * 3600 + (if hour < 0 then -(minute : ℤ) else minute) * 60) * 1000 :=
  ⟨rfl, rfl, rfl, rfl⟩

/-- Hours and minutes have one sign unless the hours are a negative zero. -/
theorem diff_eq_signed {neg : Bool} {h m : ℕ} (hzero : neg = true → h = 0 → m = 0) :
    (signed neg h * 3600 + (if signed neg h < 0 then -(m : ℤ) else m) * 60) * 1000 =
      signed neg (h * 60 + m) * 60000 := by
  cases neg with
  | false =>
    change ((h : ℤ) * 3600 + (if (h : ℤ) < 0 then -(m : ℤ) else m) * 60) * 1000 = ((h : ℤ) * 60 + m) * 60000
    rw [if_neg (by omega)]
    ring
  | true =>
    change (-(h : ℤ) * 3600 + (if -(h : ℤ) < 0 then -(m : ℤ) else m) * 60) * 1000 =
      -((h : ℤ) * 60 + m) * 60000
    by_cases h0 : h = 0
    · rw [h0, hzero rfl h0]
      rfl
    · rw [if_pos (by omega)]
      ring

/-- A fixed zone shifts the time by its difference. -/
theorem getTmByEpoch_of_fixed {τ : Type} (localtime gmtime : ℤ → Option τ) {z : TimeZone}
    (hfixed : z.useLocalTime = false) {d : ℤ} (hdelta : z.gmtOffsetHours * 3600 + z.gmtOffsetMinutes * 60 = d)
    (hd : -2 ^ 32 ≤ d ∧ d ≤ 2 ^ 32) (epochMs : UInt64) :
    z.getTmByEpoch localtime gmtime epochMs = gmtime ((epochMs / 1000).toNat + d) := by
  have hlt := (epochMs / 1000).toNat_lt
  have hle : (epochMs / 1000).toNat ≤ epochMs.toNat / 1000 := by
    rw [UInt64.toNat_div]
    exact le_refl _
  have hmax := epochMs.toNat_lt
  have h1 : inRangeTimeT ((epochMs / 1000).toNat : ℤ) = true := decide_eq_true (by omega)
  have h2 : inRangeTimeT ((epochMs / 1000).toNat + d) = true := decide_eq_true (by omega)
  simp only [TimeZone.getTmByEpoch, hdelta, h1, h2, hfixed]
  rfl

/-- A zone that is fixed has hours from -12 to 14 and minutes below 60, with one sign. -/
theorem exists_fixedZone {loc : LocalTime} {s : List Char} (h : (parseByString loc s).useLocalTime = false) :
    ∃ hour, ∃ minute : ℕ, (-12 ≤ hour ∧ hour ≤ 14) ∧ minute < 60 ∧
      parseByString loc s = (fixedZone hour minute).finish loc := by
  unfold parseByString at h ⊢
  rcases parseText_cases (upperText s) with ⟨-, heq⟩ | ⟨neg, n, m, hoff, heq⟩ | ⟨-, m, heq, -⟩
  · exact ⟨0, 0, by decide, by decide, by rw [heq]; rfl⟩
  · exact ⟨signed neg n, m, hoff.hours_mem, hoff.minutes_lt, by rw [heq]⟩
  · rw [heq] at h
    cases h

/-- A zone that is fixed is an offset for rolling files. -/
theorem exists_zoneOffset {loc : LocalTime} {s : List Char} (h : (parseByString loc s).useLocalTime = false) :
    ∃ o : Appender.ZoneOffset, o.diffToGmtMs = (parseByString loc s).timeZoneDiffToGmtMs := by
  obtain ⟨hour, minute, hmem, hm, heq⟩ := exists_fixedZone h
  have hminutes : if hour < 0 then -59 ≤ (if hour < 0 then -(minute : ℤ) else minute) ∧
      (if hour < 0 then -(minute : ℤ) else minute) ≤ 0
      else 0 ≤ (if hour < 0 then -(minute : ℤ) else minute) ∧
      (if hour < 0 then -(minute : ℤ) else minute) ≤ 59 := by
    split <;> omega
  exact ⟨⟨hour, _, hmem, hminutes⟩, by rw [heq]; rfl⟩

/-- **Parsing of time zones.** A text is a fixed offset exactly if it is a name of UTC or stands for an
offset. Then the difference is that of the text, the sign applying to hours and minutes, if the text is not
a negative zero with minutes; and it is what `get_tm_by_epoch` adds. Every other text leaves local time
with no hours, and with no minutes if it does not run on behind them. -/
theorem parse_by_string_spec (loc : LocalTime) (s : List Char) :
    ((parseByString loc s).useLocalTime = false ↔
      upperText s ∈ utcNames ∨ ∃ neg h m, OffsetText (upperText s) neg h m) ∧
    (upperText s ∈ utcNames → (parseByString loc s).timeZoneDiffToGmtMs = 0) ∧
    (∀ neg h m, OffsetText (upperText s) neg h m → (neg = true → h = 0 → m = 0) →
      (parseByString loc s).timeZoneDiffToGmtMs = signed neg (h * 60 + m) * 60000) ∧
    ((parseByString loc s).useLocalTime = false →
      ∃ d : ℤ, (parseByString loc s).timeZoneDiffToGmtMs = d * 1000 ∧
        ∀ (τ : Type) (localtime gmtime : ℤ → Option τ) (epochMs : UInt64),
          (parseByString loc s).getTmByEpoch localtime gmtime epochMs =
            gmtime ((epochMs / 1000).toNat + d)) ∧
    ((parseByString loc s).useLocalTime = true → (parseByString loc s).gmtOffsetHours = 0 ∧
      ((∀ m, TextRunsOn (upperText s) m → m = 0) → (parseByString loc s).gmtOffsetMinutes = 0)) := by
  have hcases := parseText_cases (upperText s)
  refine ⟨⟨fun h => ?_, fun h => ?_⟩, fun h => ?_, fun neg h m hoff hzero => ?_, fun h => ?_, fun h => ?_⟩
  · unfold parseByString at h
    rcases hcases with ⟨hutc, -⟩ | ⟨neg, n, m, hoff, -⟩ | ⟨-, m, heq, -⟩
    · exact .inl hutc
    · exact .inr ⟨neg, n, m, hoff⟩
    · rw [heq] at h
      cases h
  · unfold parseByString
    rcases hcases with ⟨-, heq⟩ | ⟨neg, n, m, -, heq⟩ | ⟨⟨hutc, hno⟩, -⟩
    · rw [heq]
      rfl
    · rw [heq]
      rfl
    · rcases h with h | ⟨neg, n, m, hoff⟩
      · exact absurd h hutc
      · exact absurd hoff (hno neg n m)
  · unfold parseByString
    rcases hcases with ⟨-, heq⟩ | ⟨neg, n, m, hoff, -⟩ | ⟨⟨hutc, -⟩, -⟩
    · rw [heq]
      rfl
    · exact absurd hoff (not_offsetText_of_name (.inr (.inr h)))
    · exact absurd h hutc
  · unfold parseByString
    rcases hcases with ⟨hutc, -⟩ | ⟨neg', n, m', hoff', heq⟩ | ⟨⟨-, hno⟩, -⟩
    · exact absurd hoff (not_offsetText_of_name (.inr (.inr hutc)))
    · obtain ⟨rfl, rfl, rfl⟩ := hoff.unique hoff'
      rw [heq, (finish_fixedZone _ _ loc).2.2.2, diff_eq_signed hzero]
    · exact absurd hoff (hno neg h m)
  · obtain ⟨hour, minute, hmem, hm, heq⟩ := exists_fixedZone h
    refine ⟨hour * 3600 + (if hour < 0 then -(minute : ℤ) else minute) * 60, by rw [heq]; rfl, ?_⟩
    intro τ localtime gmtime epochMs
    refine getTmByEpoch_of_fixed localtime gmtime h (by rw [heq]; rfl) ?_ epochMs
    split <;> omega
  · unfold parseByString at h ⊢
    rcases hcases with ⟨-, heq⟩ | ⟨neg, n, m, -, heq⟩ | ⟨-, m, heq, hrun⟩
    · rw [heq] at h
      cases h
    · rw [heq] at h
      cases h
    · rw [heq]
      refine ⟨rfl, fun hno => ?_⟩
      have hm : m = 0 := hrun.elim id (hno m)
      rw [hm]
      rfl

/-- Five hours and a half west of UTC. -/
theorem parse_by_string_spec_halfHour :
    OffsetText (upperText [' ', 'u', 't', 'c', '-', '5', ':', '3', '0']) true 5 30 ∧
    ∀ loc, (parseByString loc [' ', 'u', 't', 'c', '-', '5', ':', '3', '0']).useLocalTime = false ∧
      (parseByString loc [' ', 'u', 't', 'c', '-', '5', ':', '3', '0']).timeZoneDiffToGmtMs = -19800000 := by
  have hhours : Reads ['-', '5', ':', '3', '0'] true 5 [':', '3', '0'] :=
    ⟨[], ['-'], ['5'], rfl, by simp, rfl, by simp, by simp, by simp, rfl⟩
  have hminutes : Reads ['3', '0'] false 30 [] :=
    ⟨[], [], ['3', '0'], rfl, by simp, .inl rfl, by simp, by simp, by simp, rfl⟩
  have htext : upperText [' ', 'u', 't', 'c', '-', '5', ':', '3', '0'] =
    ['U', 'T', 'C', '-', '5', ':', '3', '0'] := by decide
  have hoff : OffsetText (upperText [' ', 'u', 't', 'c', '-', '5', ':', '3', '0']) true 5 30 := by
    rw [htext]
    exact ⟨⟨_, .inl rfl, .minutes _ [] false hhours hminutes (by decide) (.inl rfl)⟩, by decide, by decide⟩
  refine ⟨hoff, fun loc => ?_⟩
  obtain ⟨hfixed, -, hdiff, -⟩ := parse_by_string_spec loc [' ', 'u', 't', 'c', '-', '5', ':', '3', '0']
  exact ⟨hfixed.2 (.inr ⟨true, 5, 30, hoff⟩), hdiff true 5 30 hoff (by decide)⟩

/-- `GMT` and `UTC 5` are accepted, `-0:30` lies half an hour ahead, and `5:30x` leaves local time with 30
minutes. -/
theorem parse_by_string_fails :
    (parseByString ⟨[], none⟩ ['G', 'M', 'T']).useLocalTime = false ∧
    (¬∃ neg h m, OffsetText (upperText ['G', 'M', 'T']) neg h m) ∧
    (parseByString ⟨[], none⟩ ['U', 'T', 'C', ' ', '5']).gmtOffsetHours = 5 ∧
    (parseByString ⟨[], none⟩ ['-', '0', ':', '3', '0']).timeZoneDiffToGmtMs = 1800000 ∧
    (parseByString ⟨[], none⟩ ['5', ':', '3', '0', 'x']).useLocalTime = true ∧
    (parseByString ⟨[], none⟩ ['5', ':', '3', '0', 'x']).gmtOffsetMinutes = 30 := by
  refine ⟨by decide, ?_, by decide, by decide, by decide, by decide⟩
  rintro ⟨neg, h, m, hoff⟩
  exact not_offsetText_of_name (.inr (.inr (by decide))) hoff

end QLog.Zone
