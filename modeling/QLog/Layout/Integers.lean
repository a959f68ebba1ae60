import QLog.Foundations.Digits
import QLog.Layout.Appending
import QLog.Layout.PaddedText

/-!
# The text of an integer

`insert_integral_unsigned` and `insert_integral_signed` append a sign, a base prefix and the digits of the magnitude
(`insertIntegral_eq`). The decimal digits are counted and then written backwards in pairs
(`writeDecimalDigits_eq`); those of other bases are appended last one first and reversed in place
(`writeDigits_eq`, `append_reverse`).
-/

namespace QLog.Layout

variable {l : Layout}

/-- The digits of a number as characters. -/
def digitsText (upper : Bool) (b n : ℕ) : List UInt8 := (numeral b n).map (digitChar upper)

@[simp] theorem length_digitsText (upper : Bool) (b n : ℕ) : (digitsText upper b n).length = (numeral b n).length :=
  List.length_map _

theorem digitChar_of_lt {d : ℕ} (h : d < 10) (upper : Bool) : digitChar upper d = UInt8.ofNat (48 + d) := if_pos h

/-! ## Decimal digits -/

/-- The loop stops at the number of digits. -/
theorem countDigits_spec {value more count : ℕ} (hvalue : value < 2 ^ 64) (hmore : count + more = 20) (hpos : 0 < count)
    (hle : count = 1 ∨ 10 ^ (count - 1) ≤ value) :
    countDigits value more (10 ^ count % 2 ^ 64) count = (numeral 10 value).length := by
  induction more generalizing count with
  | zero =>
    obtain rfl : count = 20 := hmore
    exact (length_numeral_eq (by norm_num) hpos (hvalue.trans (by norm_num)) hle).symm
  | succ more ih =>
    -- the limit is exact as long as it is looked at
    have hlimit : 10 ^ count % 2 ^ 64 = 10 ^ count := by
      refine Nat.mod_eq_of_lt (lt_of_le_of_lt (Nat.pow_le_pow_right (by norm_num) (show count ≤ 19 by omega)) ?_)
      norm_num
    have hnext : 10 ^ count % 2 ^ 64 * 10 % 2 ^ 64 = 10 ^ (count + 1) % 2 ^ 64 := by rw [hlimit, pow_succ 10 count]
    rw [countDigits, hnext, hlimit]
    split_ifs with hstop
    · exact ih (by omega) (Nat.succ_pos _) (.inr hstop)
    · exact (length_numeral_eq (by norm_num) hpos (Nat.not_le.1 hstop) hle).symm

theorem countDigits_eq {value : ℕ} (h : value < 2 ^ 64) : countDigits value 19 10 1 = (numeral 10 value).length :=
  countDigits_spec h rfl Nat.one_pos (.inl rfl)

/-- The last two digits and what is in front of them. -/
theorem numeral_ten_of_le {value : ℕ} (h : 100 ≤ value) :
    numeral 10 value = numeral 10 (value / 100) ++ [value % 100 / 10, value % 100 % 10] := by
  have hlow : value / 10 % 10 = value % 100 / 10 := by omega
  have hlast : value % 10 = value % 100 % 10 := by omega
  rw [numeral_of_le (by norm_num) (by omega), numeral_of_le (by norm_num) (show 10 ≤ value / 10 by omega),
    Nat.div_div_eq_div_mul, hlow, hlast, List.append_assoc]
  rfl

/-- Two characters are written in front of `p`. -/
theorem write_two {p : ℕ} (hp : 2 ≤ p) (a b : UInt8) (l : Layout) : (l.write (p - 2) a).write (p - 1) b = { l with
    content := l.content.write (p - 2) [a, b]
    writesInside := l.writesInside && decide (p ≤ l.size) } := by
  have hcontent := Mem.write_append l.content (p - 2) [a] [b]
  rw [List.length_singleton, show p - 2 + 1 = p - 1 by omega] at hcontent
  have hinside : (decide (p - 2 < l.size) && decide (p - 1 < l.size)) = decide (p ≤ l.size) := by
    rw [← Bool.decide_and]
    exact decide_eq_decide.2 (by omega)
  unfold write
  simp only [Mem.poke_eq_write, hcontent, Bool.and_assoc, hinside]
  rfl

/-- The pairs of digits are written in front of `p`. -/
theorem writePairs_eq (upper : Bool) (value p : ℕ) (l : Layout) (hp : (numeral 10 value).length ≤ p) :
    l.writePairs value p = { l with
      content := l.content.write (p - (numeral 10 value).length) (digitsText upper 10 value)
      writesInside := l.writesInside && decide (p ≤ l.size) } := by
  induction value using Nat.strong_induction_on generalizing p l with
  | _ value ih =>
    rw [writePairs]
    simp only
    by_cases h100 : 100 ≤ value
    · have hnum := numeral_ten_of_le h100
      have htext : digitsText upper 10 value = digitsText upper 10 (value / 100) ++
          [UInt8.ofNat (48 + value % 100 / 10), UInt8.ofNat (48 + value % 100 % 10)] := by
        rw [digitsText, hnum, List.map_append, List.map_cons, List.map_cons, List.map_nil,
          digitChar_of_lt (by omega), digitChar_of_lt (by omega)]
        rfl
      have hlen : (numeral 10 value).length = (numeral 10 (value / 100)).length + 2 := by
        rw [hnum, List.length_append]
        rfl
      have hstart : p - 2 = p - (numeral 10 value).length + (digitsText upper 10 (value / 100)).length := by
        rw [length_digitsText]
        omega
      rw [if_pos h100, write_two (by omega), ih (value / 100) (by omega) (p - 2) _ (by omega), htext,
        show p - 2 - (numeral 10 (value / 100)).length = p - (numeral 10 value).length by omega]
      have hinside : (decide (p ≤ l.size) && decide (p - 2 ≤ l.size)) = decide (p ≤ l.size) := by
        rw [← Bool.decide_and]
        exact decide_eq_decide.2 (by omega)
      simp only [Bool.and_assoc, hinside]
      rw [hstart, Mem.write_append_left]
    · by_cases h10 : 10 ≤ value
      · have hnum : numeral 10 value = [value / 10, value % 10] := by
          rw [numeral_of_le (by norm_num) h10, numeral_of_lt (show value / 10 < 10 by omega)]
          rfl
        rw [hnum] at hp
        rw [if_neg h100, if_pos h10, write_two hp, digitsText, hnum, List.map_cons, List.map_cons, List.map_nil,
          digitChar_of_lt (by omega), digitChar_of_lt (by omega)]
        rfl
      · have hnum := @numeral_of_lt 10 value (by omega)
        rw [hnum, List.length_singleton] at hp
        rw [if_neg h100, if_neg h10, digitsText, hnum, List.map_cons, List.map_nil, digitChar_of_lt (by omega),
          List.length_singleton, write, Mem.poke_eq_write]
        congr 2
        exact decide_eq_decide.2 (by omega)

/-- **The decimal digits are appended**, exactly as many as were counted. -/
theorem writeDecimalDigits_eq (upper : Bool) {value : ℕ} (h : value < 2 ^ 64) (l : Layout) :
    l.writeDecimalDigits value = l.append (digitsText upper 10 value) := by
  have hpos := length_numeral_pos 10 value
  unfold writeDecimalDigits append
  simp only [countDigits_eq h, length_digitsText]
  rw [writePairs_eq upper value _ l (Nat.le_add_left _ _), Nat.add_sub_cancel]
  have hne : digitsText upper 10 value ≠ [] := List.ne_nil_of_length_pos (by rwa [length_digitsText])
  simp only [hne, false_or]

/-! ## Digits of any base -/

/-- The digits are appended, the last one first. -/
theorem writeDigits_eq (base : Base) (value : ℤ) (eCount : ℕ) (l : Layout)
    (h : l.cursor + (numeral base value.natAbs).length < 2 ^ 32) : ∃ e, l.writeDigits base value eCount =
      (e, l.append (digitsText l.formatInfo.upper base value.natAbs).reverse) := by
  induction hn : value.natAbs using Nat.strong_induction_on generalizing value eCount l with
  | _ n ih =>
    have hdigit : (value.tmod base).natAbs = n % base := hn ▸ Int.natAbs_tmod value base
    have hquotient : (value.tdiv base).natAbs = n / base := hn ▸ Int.natAbs_tdiv value base
    have hzero : value.tdiv base = 0 ↔ n < base := by
      rw [← Int.natAbs_eq_zero, hquotient, Nat.div_eq_zero_iff]
      have := base.property
      omega
    have hbase : 1 < base.val := base.property
    rw [writeDigits, hdigit]
    simp only [hzero, push_eq_append]
    obtain ⟨e', he'⟩ : ∃ e', (if value.tdiv base > base then eCount + 1 else eCount) = e' := ⟨_, rfl⟩
    rw [he']
    by_cases hlt : n < base
    · rw [if_pos hlt]
      refine ⟨_, Prod.ext rfl ?_⟩
      rw [digitsText, numeral_of_lt hlt, Nat.mod_eq_of_lt hlt]
      rfl
    · rw [if_neg hlt]
      have hnum := numeral_of_le hbase (Nat.not_lt.1 hlt)
      rw [hn, hnum, List.length_append, List.length_singleton] at h
      have hcursor : (l.append [digitChar l.formatInfo.upper (n % base)]).cursor = l.cursor + 1 :=
        Nat.mod_eq_of_lt (show l.cursor + 1 < 2 ^ 32 by omega)
      have hsmall : n / base < n := Nat.div_lt_self (by omega) hbase
      obtain ⟨e, he⟩ := ih (n / base) hsmall (value.tdiv base) _ (l.append [digitChar l.formatInfo.upper (n % base)])
        (by rw [hcursor, hquotient]; omega) hquotient
      refine ⟨e, he.trans (Prod.ext rfl ?_)⟩
      simp only
      rw [append_append (show l.cursor + 1 < 2 ^ 32 by omega), digitsText, digitsText, hnum, List.map_append,
        List.reverse_append]
      rfl

/-- What `reverse` does. -/
theorem reverse_eq (b e : ℕ) (l : Layout) : l.reverse b e = { l with
    content := fun x => if b ≤ x ∧ x ≤ e then l.content (b + e - x) else l.content x
    writesInside := l.writesInside && decide (e ≤ b ∨ e < l.size) } := by
  induction hn : e - b using Nat.strong_induction_on generalizing b e l with
  | _ n ih =>
    rw [reverse]
    split_ifs with hlt
    · rw [ih (e - 1 - (b + 1)) (by omega) (b + 1) (e - 1) _ rfl]
      have hinside : (l.writesInside && decide (b < l.size) && decide (e < l.size) &&
          decide (e - 1 ≤ b + 1 ∨ e - 1 < l.size)) = (l.writesInside && decide (e ≤ b ∨ e < l.size)) := by
        rw [Bool.and_assoc, Bool.and_assoc, ← Bool.decide_and, ← Bool.decide_and]
        congr 1
        exact decide_eq_decide.2 (by omega)
      unfold write
      simp only [hinside]
      congr 1
      funext x
      unfold Mem.poke
      split_ifs
      all_goals first
        | rfl
        | omega
        | (congr 1; omega)
    · have hcontent : (fun x => if b ≤ x ∧ x ≤ e then l.content (b + e - x) else l.content x) = l.content := by
        funext x
        split_ifs with hx
        · congr 1
          omega
        · rfl
      rw [hcontent, decide_eq_true (.inl (by omega)), Bool.and_true]

/-- An appended text is reversed in place. -/
theorem append_reverse {xs : List UInt8} (hne : xs ≠ []) (h : l.cursor + xs.length < 2 ^ 32) :
    (l.append xs).reverse l.cursor (sub32 (l.append xs).cursor 1) = l.append xs.reverse := by
  have hpos := List.length_pos_iff.2 hne
  have hcursor : (l.append xs).cursor = l.cursor + xs.length := Nat.mod_eq_of_lt h
  have hend : sub32 (l.append xs).cursor 1 = l.cursor + xs.length - 1 := by
    rw [hcursor]
    unfold sub32
    omega
  have hcontent : (fun x => if l.cursor ≤ x ∧ x ≤ l.cursor + xs.length - 1 then
      l.content.write l.cursor xs (l.cursor + (l.cursor + xs.length - 1) - x) else l.content.write l.cursor xs x) =
        l.content.write l.cursor xs.reverse := by
    funext x
    split_ifs with hx
    · have hidx : l.cursor + (l.cursor + xs.length - 1) - x - l.cursor < xs.length := by omega
      have hidx' : x - l.cursor < xs.reverse.length := by
        rw [List.length_reverse]
        omega
      rw [Mem.write, if_pos (by omega), List.getD_eq_getElem _ _ hidx, Mem.write, if_pos hx.1,
        List.getD_eq_getElem _ _ hidx', List.getElem_reverse]
      simp only [show l.cursor + (l.cursor + xs.length - 1) - x - l.cursor = xs.length - 1 - (x - l.cursor) by omega]
    · rw [Mem.write_apply_of_not_mem _ (by omega), Mem.write_apply_of_not_mem _ (by rw [List.length_reverse]; omega)]
  have hinside : (decide (xs = [] ∨ l.cursor + xs.length ≤ l.size) &&
      decide (l.cursor + xs.length - 1 ≤ l.cursor ∨ l.cursor + xs.length - 1 < l.size)) =
        decide (xs = [] ∨ l.cursor + xs.length ≤ l.size) := by
    rw [← Bool.decide_and]
    refine decide_eq_decide.2 ?_
    simp only [hne, false_or]
    omega
  rw [hend, reverse_eq]
  unfold append
  simp only [hcontent, hinside, Bool.and_assoc, List.length_reverse, List.reverse_eq_nil_iff]

/-! ## The text -/

/-- The text of an integer. -/
def integralText (info : FormatInfo) (mark : Option UInt8) (b n : ℕ) : List UInt8 :=
  mark.toList ++ info.basePrefix ++ digitsText info.upper b n

/-- The room that is reserved for the digits. -/
def digitsRoom (b : ℕ) : ℕ := if 16 ≤ b then 16 else if 10 ≤ b then 20 else 64

theorem length_basePrefix_le (info : FormatInfo) : info.basePrefix.length ≤ 2 := by
  unfold FormatInfo.basePrefix
  split_ifs <;> simp

/-- **The text of an integer is appended**, and its length is returned. -/
theorem insertIntegral_eq (mark : Option UInt8) {value : ℤ} (hvalue : value.natAbs < 2 ^ 64) (base : Base)
    (he : l.formatInfo.type ≠ ascii 'e') (h : l.cursor + 67 < 2 ^ 32) :
    l.insertIntegral mark value base =
      ((integralText l.formatInfo mark (baseOfType l.formatInfo.type base) value.natAbs).length,
        (l.expandBy (digitsRoom (baseOfType l.formatInfo.type base))).append
          (integralText l.formatInfo mark (baseOfType l.formatInfo.type base) value.natAbs)) := by
  obtain ⟨b, hb⟩ : ∃ b, baseOfType l.formatInfo.type base = b := ⟨_, rfl⟩
  obtain ⟨L, hL⟩ : ∃ L, l.expandBy (digitsRoom b) = L := ⟨_, rfl⟩
  have hcursor : L.cursor = l.cursor := hL ▸ cursor_expandBy l _
  have hinfo : L.formatInfo = l.formatInfo := hL ▸ formatInfo_expandBy l _
  have hdigits : (numeral b.val value.natAbs).length ≤ 64 :=
    length_numeral_le b.property (by norm_num) (hvalue.trans_le (Nat.pow_le_pow_left b.property 64))
  have hmark : mark.toList.length ≤ 1 := by cases mark <;> simp
  have hprefix := length_basePrefix_le l.formatInfo
  have hnone : L.pushPrefix = L.append ((none : Option UInt8).toList ++ l.formatInfo.basePrefix) := by
    rw [pushPrefix_eq, hinfo, foldl_push_eq (by rw [hcursor]; omega)]
    rfl
  have hsome : ∀ c, (L.push c).pushPrefix = L.append ((some c).toList ++ l.formatInfo.basePrefix) := fun c => by
    have hpushed : (L.append [c]).cursor = l.cursor + 1 := hcursor ▸ Nat.mod_eq_of_lt (show L.cursor + 1 < 2 ^ 32 by omega)
    rw [push_eq_append, pushPrefix_eq, formatInfo_append, hinfo, foldl_push_eq (by rw [hpushed]; omega),
      append_append (show L.cursor + 1 < 2 ^ 32 by omega)]
    rfl
  unfold insertIntegral integralText
  simp only [hb]
  rw [show (if 16 ≤ b.val then 16 else if 10 ≤ b.val then 20 else 64) = digitsRoom b from rfl, hL]
  obtain ⟨ys, hys, hyslen⟩ : ∃ ys, mark.toList ++ l.formatInfo.basePrefix = ys ∧ ys.length ≤ 3 :=
    ⟨_, rfl, by rw [List.length_append]; omega⟩
  have hM : (L.append ys).cursor = l.cursor + ys.length := hcursor ▸ Nat.mod_eq_of_lt (show L.cursor + ys.length < 2 ^ 32 by omega)
  have hMinfo : (L.append ys).formatInfo = l.formatInfo := hinfo
  have hne : (digitsText l.formatInfo.upper b value.natAbs).reverse ≠ [] := by
    rw [ne_eq, List.reverse_eq_nil_iff, digitsText, List.map_eq_nil_iff]
    exact numeral_ne_nil _ _
  have htext : (L.append ys).append (digitsText l.formatInfo.upper b value.natAbs) =
      L.append (ys ++ digitsText l.formatInfo.upper b value.natAbs) :=
    append_append (show L.cursor + ys.length < 2 ^ 32 by omega)
  have hwritten : sub32 (L.append (ys ++ digitsText l.formatInfo.upper b value.natAbs)).cursor l.cursor =
      (ys ++ digitsText l.formatInfo.upper b value.natAbs).length := by
    have hend : (L.append (ys ++ digitsText l.formatInfo.upper b value.natAbs)).cursor =
        l.cursor + (ys ++ digitsText l.formatInfo.upper b value.natAbs).length :=
      hcursor ▸ Nat.mod_eq_of_lt (by rw [List.length_append, length_digitsText]; omega)
    rw [hend, sub32_of_le (Nat.le_add_right _ _) (by rw [List.length_append, length_digitsText]; omega),
      Nat.add_sub_cancel_left]
  rw [hys]
  cases mark
  all_goals
    simp only [hnone, hsome, hys, hMinfo]
    by_cases hten : b.val = 10
    · rw [if_pos ⟨hten, he⟩, writeDecimalDigits_eq l.formatInfo.upper hvalue, ← hten, htext, hwritten]
    · obtain ⟨e, hdigitsEq⟩ := writeDigits_eq b value 0 (L.append ys) (by rw [hM]; omega)
      have hreverse := append_reverse hne (l := L.append ys) (by
        rw [hM, List.length_reverse, length_digitsText]
        omega)
      rw [List.reverse_reverse, htext] at hreverse
      rw [if_neg fun h => hten h.1, hdigitsEq, hMinfo]
      simp only [formatInfo_append, hinfo, if_neg he, hreverse, hwritten]

/-! ## Specifications -/

/-- The presentation types without an exponent or a fraction; none is no type. -/
def integerTypes : List (Option Char) := [none, some 'd', some 'b', some 'B', some 'o', some 'x', some 'X']

/-- A specification without a width: its colon, a sign, the alternate form, a type and the closing brace. -/
def integerSpec (plus alt : Bool) (type : Option Char) : List ℕ :=
  (":".toList ++ (if plus then ['+'] else []) ++ (if alt then ['#'] else []) ++ type.toList ++ ['\x7d']).map Char.toNat

/-- What is read of a specification. -/
def Means (info : FormatInfo) (plus alt : Bool) (type : Option Char) : Prop :=
  (info.sign = ascii '+' ↔ plus = true) ∧ (info.prefixChar = ascii '#' ↔ alt = true) ∧
    info.type = ascii (type.getD 'd').toLower ∧ (type.isSome → info.upper = (type.getD 'd').isUpper) ∧ info.width = 0

instance (info : FormatInfo) (plus alt : Bool) (type : Option Char) : Decidable (Means info plus alt type) :=
  inferInstanceAs (Decidable (_ ∧ _))

/-- The specifications are read. -/
theorem c20Format_integerSpec : ∀ plus alt, ∀ type ∈ integerTypes,
    (c20Format (fun k => (integerSpec plus alt type)[k]?) (integerSpec plus alt type).length).any
      fun info => decide (Means info plus alt type) := by
  decide

/-- Digits, the first one in front, that are those of a number. -/
structure IsNumeral (b n : ℕ) (ds : List ℕ) : Prop where
  ne_nil : ds ≠ []
  lt : ∀ d ∈ ds, d < b
  value : Nat.ofDigits b ds.reverse = n
  canonical : ds.head? = some 0 → ds = [0]

theorem isNumeral_numeral {b : ℕ} (hb : 1 < b) (n : ℕ) : IsNumeral b n (numeral b n) :=
  ⟨numeral_ne_nil b n, fun _ => lt_of_mem_numeral hb, ofDigits_numeral b n, fun h => by
    rw [head_numeral h, numeral_of_lt (by omega)]⟩

/-- A text is written at the cursor, which is moved behind it, and its length is returned. -/
structure Writes (l : Layout) (bs : List UInt8) (r : ℕ × Layout) : Prop where
  length : r.1 = bs.length
  slice : r.2.content.slice l.cursor bs.length = bs
  cursor : r.2.cursor = l.cursor + bs.length
  before : ∀ x < l.cursor, x < l.size → r.2.content x = l.content x

/-- The base of each presentation type, and the characters for its digits. -/
def radix (type : UInt8) : ℕ :=
  if type = ascii 'b' then 2 else if type = ascii 'o' then 8 else if type = ascii 'x' then 16 else 10

def digitTable (upper : Bool) : List Char :=
  if upper then "0123456789ABCDEF".toList else "0123456789abcdef".toList

/-- Digits in the characters of the table. -/
def spelled (upper : Bool) (ds : List ℕ) : List UInt8 := ds.map fun d => ascii ((digitTable upper).getD d '?')

theorem baseOfType_eq_radix :
    ∀ type ∈ [' ', 'd', 'b', 'o', 'x'].map ascii, (baseOfType type ten).val = radix type := by
  decide +kernel

theorem digitChar_eq_table : ∀ upper, ∀ d < 16, digitChar upper d = ascii ((digitTable upper).getD d '?') := by
  decide +kernel

/-- The digits that are selected are those of the table. -/
theorem map_digitChar {ds : List ℕ} (h : ∀ d ∈ ds, d < 16) (upper : Bool) :
    ds.map (digitChar upper) = spelled upper ds :=
  List.map_congr_left fun d hd => digitChar_eq_table upper d (h d hd)

theorem map_digitChar_numeral {b : ℕ} (hb : 1 < b) (hle : b ≤ 16) (n : ℕ) (upper : Bool) :
    (numeral b n).map (digitChar upper) = spelled upper (numeral b n) :=
  map_digitChar (fun _ hd => (lt_of_mem_numeral hb hd).trans_le hle) upper

/-- What is appended behind the room that was reserved is written. -/
theorem writes_append {bs : List UInt8} (h : l.cursor + bs.length < 2 ^ 32) (n : ℕ) :
    Writes l bs (bs.length, (l.expandBy n).append bs) where
  length := rfl
  slice := by
    change ((l.expandBy n).content.write (l.expandBy n).cursor bs).slice l.cursor bs.length = bs
    rw [cursor_expandBy, Mem.slice_write]
  cursor := by
    change add32 (l.expandBy n).cursor bs.length = _
    rw [cursor_expandBy]
    exact Nat.mod_eq_of_lt h
  before x hx hsize := by
    change (l.expandBy n).content.write (l.expandBy n).cursor bs x = _
    rw [cursor_expandBy, Mem.write_apply_of_lt _ _ hx, content_expandBy n hsize]

theorem length_integralText_le (info : FormatInfo) (mark : Option UInt8) (b : Base) {n : ℕ} (hn : n < 2 ^ 64) :
    (integralText info mark b n).length ≤ 67 := by
  have hdigits : (numeral b.val n).length ≤ 64 :=
    length_numeral_le b.property (by norm_num) (hn.trans_le (Nat.pow_le_pow_left b.property 64))
  have hmark : mark.toList.length ≤ 1 := by cases mark <;> simp
  have hprefix := length_basePrefix_le info
  rw [integralText, List.length_append, List.length_append, length_digitsText]
  omega

/-- **The text of an integer is its sign, the base prefix and its digits**, for the specifications without a width. -/
theorem integral_exact (l : Layout) (hcursor : l.cursor + 67 < 2 ^ 32)
    (htype : l.formatInfo.type ∈ [' ', 'd', 'b', 'o', 'x'].map ascii) (value : BitVec 64) :
    (∃ ds, IsNumeral (radix l.formatInfo.type) value.toNat ds ∧
      Writes l ((if 0 < value.toNat ∧ l.formatInfo.sign = ascii '+' then [ascii '+'] else []) ++
        l.formatInfo.basePrefix ++ spelled l.formatInfo.upper ds) (l.insertIntegralUnsigned value ten)) ∧
    (∃ ds, IsNumeral (radix l.formatInfo.type) value.toInt.natAbs ds ∧
      Writes l ((if value.toInt < 0 then [ascii '-'] else if l.formatInfo.sign = ascii '+' then [ascii '+'] else []) ++
        l.formatInfo.basePrefix ++ spelled l.formatInfo.upper ds) (l.insertIntegralSigned value ten)) ∧
    (∃ ds, IsNumeral 10 value.toNat ds ∧ countDigits value.toNat 19 10 1 = ds.length ∧
      l.writeDecimalDigits value.toNat = l.append (spelled false ds)) ∧
    ∀ plus alt, ∀ type ∈ integerTypes, ∃ info, c20Format (fun k => (integerSpec plus alt type)[k]?)
      (integerSpec plus alt type).length = some info ∧ Means info plus alt type := by
  have he : l.formatInfo.type ≠ ascii 'e' := fun h => absurd (h ▸ htype) (by decide)
  have hbase : (baseOfType l.formatInfo.type ten).val = radix l.formatInfo.type := baseOfType_eq_radix _ htype
  have hradix : 1 < radix l.formatInfo.type ∧ radix l.formatInfo.type ≤ 16 := by
    unfold radix
    split_ifs <;> decide
  have hwrites : ∀ (mark : Option UInt8) {v : ℤ}, v.natAbs < 2 ^ 64 →
      ∃ ds, IsNumeral (radix l.formatInfo.type) v.natAbs ds ∧
        Writes l (mark.toList ++ l.formatInfo.basePrefix ++ spelled l.formatInfo.upper ds)
          (l.insertIntegral mark v ten) := fun mark v hv => by
    refine ⟨_, isNumeral_numeral hradix.1 _, ?_⟩
    have hlen := length_integralText_le l.formatInfo mark (baseOfType l.formatInfo.type ten) hv
    have hw := @writes_append l
      (integralText l.formatInfo mark (baseOfType l.formatInfo.type ten) v.natAbs) (by omega)
      (digitsRoom (baseOfType l.formatInfo.type ten))
    rw [← insertIntegral_eq mark hv ten he hcursor, integralText, digitsText, hbase,
      map_digitChar_numeral hradix.1 hradix.2] at hw
    exact hw
  have hlt := value.isLt
  have hdecimal := writeDecimalDigits_eq false hlt l
  rw [digitsText, map_digitChar_numeral (by norm_num) (by norm_num)] at hdecimal
  refine ⟨?_, ?_, ⟨_, isNumeral_numeral (by norm_num) _, countDigits_eq hlt, hdecimal⟩,
    fun plus alt type htype => ?_⟩
  · obtain ⟨ds, hds, hw⟩ := hwrites (if 0 < value.toNat ∧ l.formatInfo.sign = ascii '+' then some (ascii '+') else none)
      (v := value.toNat) hlt
    have hmark : (if 0 < value.toNat ∧ l.formatInfo.sign = ascii '+' then some (ascii '+') else none).toList =
        if 0 < value.toNat ∧ l.formatInfo.sign = ascii '+' then [ascii '+'] else [] := by
      split_ifs <;> rfl
    rw [hmark] at hw
    exact ⟨ds, hds, hw⟩
  · have habs : value.toInt.natAbs < 2 ^ 64 := by
      have h₁ := BitVec.toInt_lt (x := value)
      have h₂ := BitVec.le_toInt (x := value)
      omega
    obtain ⟨ds, hds, hw⟩ := hwrites (if value.toInt < 0 then some (ascii '-')
      else if l.formatInfo.sign = ascii '+' then some (ascii '+') else none) habs
    have hmark : (if value.toInt < 0 then some (ascii '-')
        else if l.formatInfo.sign = ascii '+' then some (ascii '+') else none).toList =
          if value.toInt < 0 then [ascii '-'] else if l.formatInfo.sign = ascii '+' then [ascii '+'] else [] := by
      split_ifs <;> rfl
    rw [hmark] at hw
    exact ⟨ds, hds, hw⟩
  · obtain ⟨info, hinfo, hmeans⟩ := (Option.any_eq_true _ _).1 (c20Format_integerSpec plus alt type htype)
    exact ⟨info, hinfo, of_decide_eq_true hmeans⟩

/-- The least number of 64 bits, with no specification. -/
theorem integral_exact_least : ∃ ds, IsNumeral 10 (2 ^ 63) ds ∧
    Writes initial (ascii '-' :: spelled true ds) (initial.insertIntegralSigned (BitVec.intMin 64) ten) := by
  obtain ⟨-, h, -⟩ := integral_exact initial (by decide +kernel) (by decide) (BitVec.intMin 64)
  exact h

end QLog.Layout
