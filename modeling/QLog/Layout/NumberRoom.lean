import QLog.Layout.Room

/-!
# Room for a number

The digits of an integer have room, but its sign and its base prefix are not counted, nor is the point of
one in scientific notation (`FormatInfo.integralPlan`). The exponent is written where it fills the width,
over the last digits, and reserves its own room (`FormatInfo.exponentPlan`).
-/

namespace QLog.Layout

open Reserving

variable {l m : Layout} {n p size : ℕ} {info : FormatInfo}

/-! ## Exponents -/

theorem bitCount_le_two {e : ℕ} (h : e < 100) : bitCount e ≤ 2 := by
  have hzero : e / 10 / 10 = 0 := by omega
  rw [bitCount]
  split_ifs
  · exact one_le_two
  · rw [bitCount, if_pos hzero]

theorem one_le_bitCount (e : ℕ) : 1 ≤ bitCount e := by
  rw [bitCount]
  split_ifs <;> omega

/-- The digits of an exponent are appended, the last one first. -/
theorem exists_writeExponent (e : ℕ) : ∃ ds : List UInt8, ds.length = bitCount e ∧
    ∀ l : Layout, l.cursor + ds.length < 2 ^ 32 → l.writeExponent e = l.append ds := by
  induction e using bitCount.induct with
  | case1 e hzero =>
    refine ⟨[UInt8.ofNat (48 + e % 10)], ?_, fun l _ => ?_⟩
    · rw [bitCount, if_pos hzero]
      rfl
    · rw [writeExponent, if_pos hzero, push_eq_append]
  | case2 e hne ih =>
    obtain ⟨ds, hlen, heq⟩ := ih
    refine ⟨UInt8.ofNat (48 + e % 10) :: ds, ?_, fun l hl => ?_⟩
    · rw [bitCount, if_neg hne, List.length_cons, hlen]
    · rw [List.length_cons] at hl
      have hone : l.cursor + [UInt8.ofNat (48 + e % 10)].length < 2 ^ 32 := by
        rw [List.length_singleton]
        omega
      have hcursor : (l.append [UInt8.ofNat (48 + e % 10)]).cursor = l.cursor + 1 := Nat.mod_eq_of_lt hone
      rw [writeExponent, if_neg hne, push_eq_append, heq _ (by rw [hcursor]; omega), append_append hone]
      rfl

/-- The bytes of an exponent with its sign: two digits at least. -/
def exponentLength (e : ℕ) : ℕ := bitCount e + 2 + if e ≤ 9 then 1 else 0

/-- The exponent with its sign is appended. -/
theorem exists_pushExponent (e : ℕ) (upper : Bool) : ∃ bs : List UInt8, bs.length = exponentLength e ∧
    ∀ l : Layout, l.formatInfo.upper = upper → l.cursor + bitCount e + 3 < 2 ^ 32 →
      l.pushExponent e = l.append bs := by
  obtain ⟨ds, hlen, heq⟩ := exists_writeExponent e
  obtain ⟨hd, hhd⟩ : ∃ hd, [ascii (if upper then 'E' else 'e'), ascii '+'] = hd := ⟨_, rfl⟩
  have hhdlen : hd.length = 2 := hhd ▸ rfl
  have hpush : ∀ l : Layout, l.formatInfo.upper = upper → l.cursor + bitCount e + 3 < 2 ^ 32 →
      ((l.push (ascii (if l.formatInfo.upper then 'E' else 'e'))).push (ascii '+')).writeExponent e =
        l.append (hd ++ ds) := fun l hupper hl => by
    have hsign : (l.push (ascii (if upper then 'E' else 'e'))).push (ascii '+') = l.append hd := by
      rw [push_eq_append, push_eq_append, append_append (by rw [List.length_singleton]; omega), ← hhd]
      rfl
    have hcursor : (l.append hd).cursor = l.cursor + 2 := hhdlen ▸ Nat.mod_eq_of_lt (by omega)
    rw [hupper, hsign, heq _ (by rw [hcursor]; omega), append_append (by omega)]
  unfold exponentLength
  by_cases hnine : e ≤ 9
  · refine ⟨hd ++ ds ++ [ascii '0'], ?_, fun l hupper hl => ?_⟩
    · rw [List.length_append, List.length_append, List.length_singleton, if_pos hnine]
      omega
    · unfold pushExponent
      simp only [hpush l hupper hl]
      rw [if_pos hnine, push_eq_append, append_append (by rw [List.length_append]; omega)]
  · refine ⟨hd ++ ds, ?_, fun l hupper hl => ?_⟩
    · rw [List.length_append, if_neg hnine]
      omega
    · unfold pushExponent
      simp only [hpush l hupper hl]
      rw [if_neg hnine]

theorem toI32_of_lt (h : n < 2 ^ 31) : toI32 n = n := by
  unfold toI32
  rw [BitVec.toInt_eq_toNat_of_lt (by rw [BitVec.toNat_ofNat]; omega), BitVec.toNat_ofNat,
    Nat.mod_eq_of_lt (by omega)]

theorem toI32_neg (h : 2 ^ 31 ≤ n) (hlt : n < 2 ^ 32) : toI32 n = n - 2 ^ 32 := by
  unfold toI32
  rw [BitVec.toInt_eq_toNat_cond, BitVec.toNat_ofNat, Nat.mod_eq_of_lt hlt, if_neg (by omega)]
  norm_num

/-- Where the exponent begins: where it fills the width, but behind the first digit. -/
theorem jumped_eq {bits b : ℕ} (hb : 4 ≤ b) (hbits : bits ≤ 2) (hbLe : b ≤ 2 ^ 31)
    (hcursor : l.cursor ≤ 2 ^ 31) :
    jumped bits b l = { l with
      cursor :=
        if toI32 (b + l.formatInfo.width - bits) - 2 < toI32 l.cursor then
          if l.formatInfo.width = bits + 2 then b + 1 else b + l.formatInfo.width - bits - 2
        else l.cursor } := by
  have hwidth := l.formatInfo.width_lt
  have hsum : add32 b l.formatInfo.width = b + l.formatInfo.width := Nat.mod_eq_of_lt (by omega)
  have hsub : sub32 (b + l.formatInfo.width) bits = b + l.formatInfo.width - bits :=
    sub32_of_le (by omega) (by omega)
  have hone : add32 b 1 = b + 1 := Nat.mod_eq_of_lt (by omega)
  obtain ⟨v, hv⟩ : ∃ v, b + l.formatInfo.width - bits = v := ⟨_, rfl⟩
  have hcursorInt : toI32 l.cursor = l.cursor ∨ toI32 l.cursor = l.cursor - 2 ^ 32 := by
    rcases Nat.lt_or_ge l.cursor (2 ^ 31) with hlt | hge
    · exact .inl (toI32_of_lt hlt)
    · exact .inr (toI32_neg hge (by omega))
  have hplaceInt : toI32 v = v ∨ toI32 v = v - 2 ^ 32 := by
    rcases Nat.lt_or_ge v (2 ^ 31) with hlt | hge
    · exact .inl (toI32_of_lt hlt)
    · exact .inr (toI32_neg hge (by omega))
  have hback : toI32 v - 2 < toI32 l.cursor →
      sub32 l.cursor (toI32 l.cursor - (toI32 v - 2)).toNat = v - 2 := by
    intro hlt
    unfold sub32
    omega
  unfold jumped
  simp only [hsum, hsub, hv, sub_pos]
  split_ifs with hlt heq hwide hwide
  · rw [heq, hone]
  · rw [hback hlt] at heq
    omega
  · rw [hback hlt] at heq
    omega
  · rw [hback hlt]
  · rfl

/-- The end of the text with its exponent, which is written behind `d` bytes. -/
def FormatInfo.exponentEnd (info : FormatInfo) (d e : ℕ) : ℕ :=
  if info.width < d + bitCount e + 2 then
    if info.width = bitCount e + 2 then exponentLength e + 1
    else info.width + exponentLength e - (bitCount e + 2)
  else d + exponentLength e

/-- The plan of the exponent behind `d` bytes: the place where it fills the width is computed with a sign. -/
def FormatInfo.exponentPlan (info : FormatInfo) (d e : ℕ) : Plan :=
  ⟨[.ask (d + (bitCount e + 3 + info.slack)), .reach (info.width + 1 - bitCount e),
    .touch (info.exponentEnd d e)], info.exponentEnd d e⟩

theorem exponentLength_mem (e : ℕ) :
    bitCount e + 2 ≤ exponentLength e ∧ exponentLength e ≤ bitCount e + 3 := by
  unfold exponentLength
  split_ifs <;> omega

/-- The index at which the exponent begins. -/
def FormatInfo.exponentIndex (info : FormatInfo) (p d e : ℕ) : ℕ :=
  if toI32 (p + info.width - bitCount e) - 2 < toI32 (p + d) then
    if info.width = bitCount e + 2 then p + 1 else p + info.width - bitCount e - 2
  else p + d

/-- The exponent lies inside a vector exactly if the place where it fills the width is a number with a sign
that is not negative, and its end is inside. -/
theorem exponentIndex_spec {d e S : ℕ} (hp : 4 ≤ p) (he : e < 100) (hle : p + d ≤ 2 ^ 31) (hS : S ≤ 2 ^ 31)
    (hlarge : 2 ^ 31 < p + d + (bitCount e + 3) → S = 0) :
    (info.exponentIndex p d e + exponentLength e ≤ S ↔
      p + (info.width + 1 - bitCount e) ≤ 2 ^ 31 ∧ p + info.exponentEnd d e ≤ S) ∧
    (info.exponentIndex p d e + exponentLength e ≤ S →
      info.exponentIndex p d e + exponentLength e = p + info.exponentEnd d e) := by
  have hpos := one_le_bitCount e
  have hbits := bitCount_le_two he
  have hwidth := info.width_lt
  obtain ⟨hlow, hhigh⟩ := exponentLength_mem e
  unfold FormatInfo.exponentIndex FormatInfo.exponentEnd
  rcases Nat.lt_or_ge (2 ^ 31) (p + d + (bitCount e + 3)) with hbig | hsmall
  · have hzero := hlarge hbig
    constructor <;> split_ifs <;> omega
  · rw [toI32_of_lt (show p + d < 2 ^ 31 by omega)]
    rcases Nat.lt_or_ge (p + info.width - bitCount e) (2 ^ 31) with hlt | hge
    · rw [toI32_of_lt hlt]
      constructor <;> split_ifs <;> omega
    · rw [toI32_neg hge (by omega)]
      constructor <;> split_ifs <;> omega

/-- **The exponent is written** behind `d` bytes, which begin at `p`. -/
theorem At.fillEStyle {d e : ℕ} (h : At l (p + d) size info) (hp : 4 ≤ p) (he : e < 100) :
    Reaches (l.fillEStyle e p) p size (info.exponentPlan d e) info := by
  have hbits := bitCount_le_two he
  have hslack := info.slack_le
  have hwidth := info.width_lt
  have hle := h.cursor_le
  obtain ⟨hlow, hhigh⟩ := exponentLength_mem e
  obtain ⟨S, hS⟩ : ∃ S, grown size (p + d + (bitCount e + 3 + info.slack)) = S := ⟨_, rfl⟩
  have hlarge : 2 ^ 31 < p + d + (bitCount e + 3 + info.slack) → S = 0 := fun hlt =>
    hS ▸ grown_of_large hlt (by omega) h.size_le
  obtain ⟨L, hL⟩ : ∃ L, l.expandBy (bitCount e + 3) = L := ⟨_, rfl⟩
  have hat : At L (p + d) S info := by
    have hexpand := (h.expandBy (bitCount e + 3)).at_end (Plan.inside_ask _ _ _ _ _)
    rwa [Plan.length_ask, Plan.sizeAfter_ask, Nat.add_zero, hS, hL] at hexpand
  obtain ⟨c, hc⟩ : ∃ c, info.exponentIndex p d e = c := ⟨_, rfl⟩
  have hclt : c + bitCount e + 3 < 2 ^ 32 := by
    rw [← hc]
    unfold FormatInfo.exponentIndex
    split_ifs <;> omega
  obtain ⟨M, hM⟩ : ∃ M, { L with cursor := c } = M := ⟨_, rfl⟩
  have hMcursor : M.cursor = c := hM ▸ rfl
  have hjumped : jumped (bitCount e) p L = M := by
    have hindex : (if toI32 (p + L.formatInfo.width - bitCount e) - 2 < toI32 L.cursor then
        if L.formatInfo.width = bitCount e + 2 then p + 1 else p + L.formatInfo.width - bitCount e - 2
        else L.cursor) = c := by
      rw [hat.info_eq, hat.cursor_eq]
      exact hc
    rw [jumped_eq hp hbits (by omega) (by rw [hat.cursor_eq]; omega), hindex, hM]
  obtain ⟨bs, hlen, hpush⟩ := exists_pushExponent e L.formatInfo.upper
  have hpushed : M.pushExponent e = M.append bs := hpush M (hM ▸ rfl) (by rw [hMcursor]; omega)
  have hend : (M.append bs).cursor = c + exponentLength e := by
    change add32 M.cursor bs.length = _
    rw [hMcursor, hlen]
    exact Nat.mod_eq_of_lt (by omega)
  have heq : l.fillEStyle e p =
      (M.append bs).reverse (add32 (add32 c 1) 1) (c + exponentLength e - 1) := by
    rw [fillEStyle_eq, hL, hjumped]
    simp only [hpushed, hMcursor, hend]
    rw [sub32_of_le (by omega) (by omega)]
  have hreverse := Touches.reverse (M.append bs) (add32 (add32 c 1) 1) (c + exponentLength e - 1)
  have hMsize : M.size = S := hM ▸ hat.size_eq
  have hinside : (l.fillEStyle e p).writesInside = true ↔ c + exponentLength e ≤ S := by
    have hne : bs ≠ [] := List.ne_nil_of_length_pos (by omega)
    have hMinside : M.writesInside = true := hM ▸ hat.inside
    rw [heq, hreverse.inside_iff]
    simp only [Layout.append, hMinside, hMcursor, hMsize, hlen, hne, false_or, Bool.true_and,
      decide_eq_true_eq]
    omega
  obtain ⟨hiff, hplace⟩ := @exponentIndex_spec p info d e S hp he hle hat.size_le fun hlt =>
    hlarge (by omega)
  rw [hc] at hiff hplace
  have hplan : (info.exponentPlan d e).Inside grown (2 ^ 31) p size ↔
      p + (info.width + 1 - bitCount e) ≤ 2 ^ 31 ∧ p + info.exponentEnd d e ≤ S := by
    rw [← hS, Nat.add_assoc p d]
    exact ⟨fun h => ⟨h.2.1, h.2.2.1⟩, fun h => ⟨trivial, h.1, h.2, trivial⟩⟩
  have hsizeAfter : (info.exponentPlan d e).sizeAfter grown p size = S := by
    rw [← hS, Nat.add_assoc p d]
    rfl
  refine ⟨fun hm => hplan.2 (hiff.1 (hinside.1 hm)), fun hP => ?_⟩
  have hfits := hiff.2 (hplan.1 hP)
  have hroom := (hplan.1 hP).2
  rw [hsizeAfter]
  refine ⟨hinside.2 hfits, ?_, ?_, ?_, hroom.trans hat.size_le, hat.size_le⟩
  · rw [heq, hreverse.cursor, hend, hplace hfits]
    rfl
  · rw [heq, hreverse.size]
    exact hMsize
  · rw [heq, hreverse.info]
    exact (congrArg formatInfo hM).symm.trans hat.info_eq

/-! ## Integers -/

/-- The quotient by a base is smaller. -/
theorem natAbs_tdiv_lt (base : Base) {value : ℤ} (h : value.tdiv base ≠ 0) :
    (value.tdiv base).natAbs < value.natAbs := by
  have habs : (value.tdiv base).natAbs = value.natAbs / base := Int.natAbs_tdiv value base
  have hne : value.natAbs / base.val ≠ 0 := fun hzero => h (Int.natAbs_eq_zero.1 (habs.trans hzero))
  rw [habs]
  exact Nat.div_lt_self (Nat.pos_of_ne_zero fun hzero => hne (by rw [hzero, Nat.zero_div])) base.property

/-- The exponent of an integer: how many of its quotients are larger than the base. -/
def exponentOf (base : Base) (value : ℤ) : ℕ :=
  (if value.tdiv base > base then 1 else 0) +
    if value.tdiv base = 0 then 0 else exponentOf base (value.tdiv base)
termination_by value.natAbs
decreasing_by exact natAbs_tdiv_lt base (by assumption)

/-- The exponent that is counted does not depend on the layout. -/
theorem fst_writeDigits (base : Base) (value : ℤ) (eCount : ℕ) (l : Layout) :
    (l.writeDigits base value eCount).1 = eCount + exponentOf base value := by
  induction hn : value.natAbs using Nat.strong_induction_on generalizing value eCount l with
  | _ n ih =>
    have hcount : (if value.tdiv base > base then eCount + 1 else eCount) =
        eCount + if value.tdiv base > base then 1 else 0 := by
      split_ifs <;> rfl
    rw [writeDigits, exponentOf, ← Nat.add_assoc, ← hcount]
    by_cases hzero : value.tdiv base = 0
    · rw [if_pos hzero, if_pos hzero]
      rfl
    · rw [if_neg hzero, if_neg hzero]
      exact ih _ (hn ▸ natAbs_tdiv_lt base hzero) _ _ _ rfl

theorem exponentOf_le (base : Base) (value : ℤ) :
    exponentOf base value ≤ (numeral base value.natAbs).length := by
  induction hn : value.natAbs using Nat.strong_induction_on generalizing value with
  | _ n ih =>
    have hquotient : (value.tdiv base).natAbs = n / base := hn ▸ Int.natAbs_tdiv value base
    rw [exponentOf]
    by_cases hzero : value.tdiv base = 0
    · have hpos := length_numeral_pos base n
      rw [if_pos hzero]
      split_ifs <;> omega
    · have hlt := natAbs_tdiv_lt base hzero
      have hge : base.val ≤ n := by
        by_contra hlt'
        exact hzero (Int.natAbs_eq_zero.1 (hquotient.trans (Nat.div_eq_of_lt (Nat.not_le.1 hlt'))))
      have hrest := ih (n / base) (by omega) _ hquotient
      rw [if_neg hzero, numeral_of_le base.property hge, List.length_append, List.length_singleton]
      split_ifs <;> omega

/-- The sign and the base prefix are appended. -/
theorem pushMark_eq (mark : Option UInt8) (h : l.cursor + 3 < 2 ^ 32) :
    l.pushMark mark = l.append (mark.toList ++ l.formatInfo.basePrefix) := by
  have hprefix := length_basePrefix_le l.formatInfo
  unfold pushMark
  cases mark with
  | none =>
    simp only
    rw [pushPrefix_eq, foldl_push_eq (by omega)]
    rfl
  | some c =>
    have hone : l.cursor + [c].length < 2 ^ 32 := by
      rw [List.length_singleton]
      omega
    have hcursor : (l.append [c]).cursor = l.cursor + 1 := Nat.mod_eq_of_lt hone
    simp only
    rw [push_eq_append, pushPrefix_eq, formatInfo_append, foldl_push_eq (by rw [hcursor]; omega),
      append_append hone]
    rfl

/-- The plan of an integer of `d` digits in scientific notation, with a point behind the first one. -/
def FormatInfo.scientificPlan (info : FormatInfo) (d e : ℕ) : Plan :=
  { info.exponentPlan (d + 1) e with steps := .touch (d + 1) :: (info.exponentPlan (d + 1) e).steps }

/-- **The point and the exponent of an integer** are written behind its digits. -/
theorem At.scientific {e : ℕ} (h : At l p size info) (hp : 4 ≤ p) (he : e < 100) {ds : List UInt8}
    (hpos : 0 < ds.length) (hds : ds.length ≤ 64) :
    Reaches ((l.append ds).scientific e p) p size (info.scientificPlan ds.length e) info := by
  have hle := h.cursor_le
  have hsize := h.size_le
  obtain ⟨a, ha⟩ : ∃ a, l.append ds = a := ⟨_, rfl⟩
  have hacursor : a.cursor = p + ds.length := by
    rw [← ha, ← h.cursor_eq]
    exact Nat.mod_eq_of_lt (by rw [h.cursor_eq]; omega)
  have hasize : a.size = size := ha ▸ h.size_eq
  have hainside : a.writesInside = true ↔ p + ds.length ≤ size := by
    have hne := List.ne_nil_of_length_pos hpos
    rw [← ha]
    simp only [Layout.append, h.inside, h.cursor_eq, h.size_eq, hne, false_or, Bool.true_and,
      decide_eq_true_eq]
  have hlast : sub32 a.cursor 1 = a.cursor - 1 := sub32_of_le (by omega) (by omega)
  have hnext : add32 a.cursor 1 = a.cursor + 1 := Nat.mod_eq_of_lt (by omega)
  have hback : sub32 (a.cursor + 1) 1 = a.cursor := sub32_of_le (by omega) (by omega)
  have hpoint := (Touches.write a a.cursor (a.content (a.cursor - 1))).trans
    (Touches.write _ (a.cursor - 1) (ascii '.'))
  obtain ⟨m, hm⟩ : ∃ m, { (a.write a.cursor (a.content (a.cursor - 1))).write (a.cursor - 1) (ascii '.') with
      cursor := a.cursor + 1 } = m := ⟨_, rfl⟩
  have hreverse := Touches.reverse m p a.cursor
  have hmsize : m.size = size := hm ▸ hasize
  have hrinside : (m.reverse p a.cursor).writesInside = true ↔ p + ds.length + 1 ≤ size := by
    have hminside : m.writesInside = true ↔
        a.writesInside = true ∧ a.cursor < a.size ∧ a.cursor - 1 < a.size := by
      rw [← hm]
      exact hpoint.inside_iff
    rw [hreverse.inside_iff, hminside, hainside, hmsize, hacursor, hasize]
    omega
  have heq : a.scientific e p = (m.reverse p a.cursor).fillEStyle e p := by
    unfold Layout.scientific
    simp only [Layout.write, hlast, hnext, hback]
    rw [← hm]
    rfl
  have hat : p + ds.length + 1 ≤ size →
      At (m.reverse p a.cursor) (p + (ds.length + 1)) size info := fun hroom => by
    refine ⟨hrinside.2 hroom, ?_, hreverse.size.trans hmsize, ?_, by omega, hsize⟩
    · rw [hreverse.cursor, ← hm, ← Nat.add_assoc, ← hacursor]
    · rw [hreverse.info, ← hm]
      exact ha ▸ h.info_eq
  rw [ha, heq]
  constructor
  · intro hinside
    have hroom := hrinside.1 ((edits_fillEStyle e p _).writesInside hinside)
    exact ⟨hroom, ((hat hroom).fillEStyle hp he).inside hinside⟩
  · rintro ⟨hroom, hP⟩
    exact ((hat hroom).fillEStyle hp he).at_end hP

/-- The plan of an integer. -/
def FormatInfo.integralPlan (info : FormatInfo) (mark : Option UInt8) (base : Layout.Base) (value : ℤ) :
    Plan :=
  let b := baseOfType info.type base
  .ask (digitsRoom b + info.slack) ++
    if info.type = ascii 'e' then
      .put (mark.toList ++ info.basePrefix).length ++
        info.scientificPlan (numeral b value.natAbs).length (exponentOf b value)
    else .put (integralText info mark b value.natAbs).length

/-- **An integer is inserted.** -/
theorem At.insertIntegral (h : At l p size info) (hp : 4 ≤ p) (mark : Option UInt8) {value : ℤ}
    (hvalue : value.natAbs < 2 ^ 64) (base : Base) :
    Reaches (l.insertIntegral mark value base).2 p size (info.integralPlan mark base value) info := by
  have hle := h.cursor_le
  unfold FormatInfo.integralPlan
  by_cases he : info.type = ascii 'e'
  swap
  · simp only [if_neg he]
    rw [insertIntegral_eq mark hvalue base (by rwa [h.info_eq]) (by rw [h.cursor_eq]; omega), h.info_eq]
    exact h.text _ _
  simp only [if_pos he]
  obtain ⟨b, hb⟩ : ∃ b, baseOfType info.type base = b := ⟨_, rfl⟩
  obtain ⟨L, hL⟩ : ∃ L, l.expandBy (digitsRoom b) = L := ⟨_, rfl⟩
  obtain ⟨ys, hys⟩ : ∃ ys, mark.toList ++ info.basePrefix = ys := ⟨_, rfl⟩
  obtain ⟨ds, hds⟩ : ∃ ds, (digitsText info.upper b value.natAbs).reverse = ds := ⟨_, rfl⟩
  have hyslen : ys.length ≤ 3 := by
    have hmark : mark.toList.length ≤ 1 := by cases mark <;> simp
    have hprefix := length_basePrefix_le info
    rw [← hys, List.length_append]
    omega
  have hnum : (numeral b value.natAbs).length = ds.length := by
    rw [← hds, List.length_reverse, length_digitsText]
  have hpos := length_numeral_pos b value.natAbs
  have hdigits : (numeral b.val value.natAbs).length ≤ 64 :=
    length_numeral_le b.property (by norm_num) (hvalue.trans_le (Nat.pow_le_pow_left b.property 64))
  have hexponent := exponentOf_le b value
  have hcursor : L.cursor = p := by rw [← hL, cursor_expandBy, h.cursor_eq]
  have hinfo : L.formatInfo = info := by rw [← hL, formatInfo_expandBy, h.info_eq]
  have hmcursor : (L.append ys).cursor = p + ys.length := by
    rw [← hcursor]
    exact Nat.mod_eq_of_lt (by omega)
  have hpush : L.pushMark mark = L.append ys := by
    rw [pushMark_eq mark (by omega), hinfo, hys]
  have hwritten : (L.append ys).writeDigits b value 0 = (exponentOf b value, (L.append ys).append ds) := by
    obtain ⟨e, heq⟩ := writeDigits_eq b value 0 (L.append ys) (by omega)
    have hfst := fst_writeDigits b value 0 (L.append ys)
    rw [heq, Nat.zero_add] at hfst
    rw [heq, show e = exponentOf b value from hfst, formatInfo_append, hinfo, hds]
  have heq : (l.insertIntegral mark value base).2 =
      ((L.append ys).append ds).scientific (exponentOf b value) (p + ys.length) := by
    rw [snd_insertIntegral, h.info_eq]
    simp only [hb]
    rw [show (if 16 ≤ b.val then 16 else if 10 ≤ b.val then 20 else 64) = digitsRoom b from rfl, hL, hpush,
      hwritten]
    simp only [formatInfo_append, hinfo, he, hmcursor]
    rw [if_neg fun hc => hc.2 rfl, if_pos trivial]
  have hscientific : ∀ m : Layout,
      Edits m ((m.append ds).scientific (exponentOf b value) (p + ys.length)) := fun m =>
    ((Edits.refl m).append ds).trans (edits_scientific _ _ _)
  rw [heq, hb, hnum, hys]
  have hexpand : Reaches L p size _ info := hL ▸ h.expandBy (digitsRoom b)
  refine hexpand.edits (((Edits.refl L).append ys).trans (hscientific _)) fun hL' => ?_
  refine (hL'.append ys).edits (hscientific _) fun hys' => ?_
  rw [Plan.length_ask, Nat.add_zero, Plan.length_put] at hys' ⊢
  exact hys'.scientific (by omega) (by omega) (by omega) (by omega)

/-- The sign of a value without one. -/
def FormatInfo.unsignedMark (info : FormatInfo) (value : BitVec 64) : Option UInt8 :=
  if 0 < value.toNat ∧ info.sign = ascii '+' then some (ascii '+') else none

/-- The sign of a value. -/
def FormatInfo.signedMark (info : FormatInfo) (value : BitVec 64) : Option UInt8 :=
  if value.toInt < 0 then some (ascii '-') else if info.sign = ascii '+' then some (ascii '+') else none

theorem natAbs_toInt_lt (value : BitVec 64) : value.toInt.natAbs < 2 ^ 64 := by
  have hlow : -2 ^ 63 ≤ value.toInt := BitVec.le_toInt value
  have hhigh : value.toInt < 2 ^ 63 := BitVec.toInt_lt
  omega

end QLog.Layout
