import QLog.Layout.Padding

/-!
# Padded texts

`padded` is what the padding is meant to make of a text, which begins with the mark of an integer, its sign and
its base prefix, or has no mark. An alignment to the left or to the middle and a blank as fill character always
give it. With another fill character an alignment to the right gives it exactly if the loop meets none of the
characters it looks for behind the mark, and a base prefix stands alone, before zeros, with room for two of
them (`fillAndAlignment_eq_padded_iff`).
-/

namespace QLog.Layout

/-- The base prefix that `pushPrefix` writes. -/
def FormatInfo.basePrefix (info : FormatInfo) : List UInt8 :=
  if info.prefixChar = ascii '#' then
    if info.type = ascii 'b' then [ascii '0', ascii (if info.upper then 'B' else 'b')]
    else if info.type = ascii 'x' then [ascii '0', ascii (if info.upper then 'X' else 'x')]
    else []
  else []

theorem pushPrefix_eq (l : Layout) : l.pushPrefix = l.formatInfo.basePrefix.foldl push l := by
  unfold pushPrefix FormatInfo.basePrefix
  split_ifs <;> rfl

/-- A text padded to the width. An alignment to the right puts the mark in front of the fill characters, unless
these are blanks. -/
def padded (info : FormatInfo) (mark rest : List UInt8) : List UInt8 :=
  let d := info.width - (mark ++ rest).length
  if info.align = ascii '<' then mark ++ rest ++ List.replicate d info.fill
  else if info.align = ascii '^' then
    List.replicate (d - d / 2) info.fill ++ (mark ++ rest ++ List.replicate (d / 2) info.fill)
  else if info.fill = ascii ' ' then List.replicate d info.fill ++ (mark ++ rest)
  else mark ++ (List.replicate d info.fill ++ rest)

/-- The loop keeps the text: it does not run, or there are blanks, or it meets no sign and no letter of a base
prefix behind the mark, and a base prefix is alone, with zeros behind it, two at least. -/
def FormatInfo.KeepsText (info : FormatInfo) (sign : Option UInt8) (pre rest : List UInt8) : Prop :=
  info.align ≠ ascii '>' ∨ info.fill = ascii ' ' ∨
    ((∀ c ∈ rest, ¬info.Swallows c) ∧
      (pre = [] ∨ sign = none ∧ info.fill = ascii '0' ∧ (sign.toList ++ pre ++ rest).length + 2 ≤ info.width))

variable {l : Layout} {info : FormatInfo} {p n : ℕ} {sign : Option UInt8} {pre rest s : List UInt8}

theorem not_swallows_of_blank (h : info.fill = ascii ' ') (c : UInt8) : ¬info.Swallows c := by
  rintro (⟨-, hfill⟩ | ⟨⟨hfill, -⟩, -⟩)
  · exact hfill h
  · rw [h] at hfill
    exact absurd hfill (by decide)

/-- No fill character is one that the loop looks for. -/
theorem FormatInfo.Produced.fill_ne (h : info.Produced) {c : UInt8} (hc : info.Swallows c) : info.fill ≠ c := by
  rintro rfl
  refine h.fill ?_
  simp only [List.map_cons, List.map_nil, List.mem_cons, List.not_mem_nil, or_false]
  rcases hc with ⟨hsign, -⟩ | ⟨-, hbase⟩ <;> tauto

/-- The second character of a base prefix is a letter, and the first one a zero. -/
theorem exists_basePrefix (h : info.basePrefix ≠ []) : ∃ x, info.basePrefix = [ascii '0', x] ∧
    x ∈ ['b', 'B', 'x', 'X'].map ascii ∧ info.prefixChar = ascii '#' ∧
      (info.type = ascii 'b' ∨ info.type = ascii 'x') := by
  unfold FormatInfo.basePrefix at h ⊢
  split_ifs at h ⊢ with hhash hb hupper hx hupper'
  · exact ⟨_, rfl, by decide, hhash, .inl hb⟩
  · exact ⟨_, rfl, by decide, hhash, .inl hb⟩
  · exact ⟨_, rfl, by decide, hhash, .inr hx⟩
  · exact ⟨_, rfl, by decide, hhash, .inr hx⟩
  · exact absurd rfl h
  · exact absurd rfl h

/-- The loop on a sign, with nothing to look for behind it. -/
theorem moved_sign {c : UInt8} (hc : info.Sign c) (h : ∀ c ∈ s, ¬info.Swallows c) :
    moved info p (c :: s) = (info.fill :: s, 1, 0) := by
  rw [moved_cons, moved_eq h, if_pos hc]

/-- The loop on a base prefix. -/
theorem moved_base {x : UInt8} (hp : p < 2 ^ 32) (hx : info.Base x) (hsign : ¬info.Sign x)
    (h : ∀ c ∈ s, ¬info.Swallows c) :
    moved info p (ascii '0' :: x :: s) = (info.fill :: info.fill :: s, 2, p) := by
  have hzero : ¬info.Sign (ascii '0') := fun hs => absurd hs.1 (by decide)
  have hzero' : ¬info.Base (ascii '0') := fun hb => absurd hb.2 (by decide)
  have hindex : sub32 (p + 1) 1 = p := by
    unfold sub32
    omega
  rw [moved_cons, moved_cons, moved_eq h, if_neg hsign, if_pos hx, if_neg hzero, if_neg hzero', hindex, if_pos ⟨rfl, rfl⟩]

/-- What the loop makes of a text that it keeps, and how the text begins. -/
theorem exists_moved (hkeep : info.KeepsText sign pre rest) (halign : info.align = ascii '>')
    (hfill : info.fill ≠ ascii ' ') (hsign : ∀ c ∈ sign, c = ascii '+' ∨ c = ascii '-')
    (hpre : pre = [] ∨ pre = info.basePrefix) (hp : p < 2 ^ 32)
    (hn : (sign.toList ++ pre ++ rest).length < info.width) : ∃ ignoreIndex,
      moved info p (sign.toList ++ pre ++ rest) =
        (List.replicate (sign.toList ++ pre).length info.fill ++ rest, (sign.toList ++ pre).length, ignoreIndex) ∧
      (sign.toList ++ pre).length + (sign.toList ++ pre ++ rest).length ≤ info.width := by
  obtain ⟨hrest, hpre'⟩ := (hkeep.resolve_left (not_not.2 halign)).resolve_left hfill
  rcases hpre' with rfl | ⟨rfl, hzero, hroom⟩
  · cases sign with
    | none => exact ⟨0, moved_eq hrest, by simpa using hn.le⟩
    | some c =>
      refine ⟨0, moved_sign ⟨hsign c rfl, hfill⟩ hrest, ?_⟩
      simp only [Option.toList_some, List.append_nil, List.length_append, List.length_singleton] at hn ⊢
      omega
  · by_cases hnil : pre = []
    · subst hnil
      exact ⟨0, moved_eq hrest, by simpa using hn.le⟩
    · obtain rfl := hpre.resolve_left hnil
      obtain ⟨x, hx, hmem, hhash, htype⟩ := exists_basePrefix hnil
      have hbase : info.Base x := ⟨⟨hzero, hhash, htype⟩, by
        simpa only [List.map_cons, List.map_nil, List.mem_cons, List.not_mem_nil, or_false] using hmem⟩
      have hnot : ¬info.Sign x := by
        rintro ⟨rfl | rfl, -⟩
        · exact absurd hmem (by decide)
        · exact absurd hmem (by decide)
      rw [hx] at hroom ⊢
      refine ⟨p, moved_base hp hbase hnot hrest, ?_⟩
      simp only [Option.toList_none, List.nil_append, List.length_append, List.length_cons, List.length_nil] at hroom ⊢
      omega

/-- The mark of a text in memory. -/
theorem slice_mark {m : Mem} {mark : List UInt8} (h : m.slice p (mark ++ rest).length = mark ++ rest) :
    m.slice p mark.length = mark := by
  rw [List.length_append, Mem.slice_add] at h
  exact List.append_inj_left h (Mem.length_slice m p mark.length)

section

variable (hcursor : l.cursor = p + (sign.toList ++ pre ++ rest).length)
  (htext : l.content.slice p (sign.toList ++ pre ++ rest).length = sign.toList ++ pre ++ rest)
  (hn : (sign.toList ++ pre ++ rest).length < l.formatInfo.width) (hp : p + l.formatInfo.width < 2 ^ 32)
  (hsign : ∀ c ∈ sign, c = ascii '+' ∨ c = ascii '-') (hpre : pre = [] ∨ pre = l.formatInfo.basePrefix)
  (hinfo : l.formatInfo.Produced)

include hcursor htext hn hp hsign hpre hinfo

/-- A text that the loop keeps comes out right. -/
theorem slice_fillAndAlignment (hkeep : l.formatInfo.KeepsText sign pre rest) :
    (l.fillAndAlignment p).content.slice p l.formatInfo.width =
      padded l.formatInfo (sign.toList ++ pre) rest := by
  unfold padded
  dsimp only
  rcases hinfo.align with halign | halign | halign
  · rw [if_neg (by rw [halign]; decide), if_neg (by rw [halign]; decide)]
    by_cases hfill : l.formatInfo.fill = ascii ' '
    · have hmoved := @moved_eq l.formatInfo p (sign.toList ++ pre ++ rest)
        fun c _ => not_swallows_of_blank hfill c
      rw [← htext] at hmoved
      rw [if_pos hfill, (fillAndAlignment_right hcursor hn hp halign hmoved).2, htext]
      simp [Mem.slice]
    · obtain ⟨ignoreIndex, hmoved, hroom⟩ := exists_moved (p := p) hkeep halign hfill hsign hpre (by omega) hn
      rw [← htext] at hmoved
      rw [if_neg hfill, (fillAndAlignment_right hcursor hn hp halign hmoved).2, Nat.min_eq_left (by omega),
        slice_mark htext, ← List.append_assoc (List.replicate _ _) (List.replicate _ _) rest,
        List.replicate_append_replicate, Nat.sub_add_cancel (by omega)]
  · rw [if_pos halign, (fillAndAlignment_left hcursor hn hp halign).2, htext]
  · rw [if_neg (by rw [halign]; decide), if_pos halign, (fillAndAlignment_middle hcursor hn hp halign).2, htext]

/-- A text that comes out right is one that the loop keeps: a character of the mark or behind it that is lost is
replaced by a fill character, which the parser does not take for a sign or a letter of a base prefix. -/
theorem keepsText_of_slice (halign : l.formatInfo.align = ascii '>') (hfill : l.formatInfo.fill ≠ ascii ' ')
    (h : (l.fillAndAlignment p).content.slice p l.formatInfo.width =
      padded l.formatInfo (sign.toList ++ pre) rest) : l.formatInfo.KeepsText sign pre rest := by
  obtain ⟨out, ignore, ignoreIndex, hmoved⟩ : ∃ out ignore ignoreIndex,
      moved l.formatInfo p (sign.toList ++ pre ++ rest) = (out, ignore, ignoreIndex) := ⟨_, _, _, rfl⟩
  obtain ⟨d, hd⟩ : ∃ d, l.formatInfo.width - (sign.toList ++ pre ++ rest).length = d := ⟨_, rfl⟩
  have hresult := (fillAndAlignment_right hcursor hn hp halign (htext ▸ hmoved)).2
  unfold padded at h
  rw [if_neg (by rw [halign]; decide), if_neg (by rw [halign]; decide), if_neg hfill, hresult, hd,
    ← List.append_assoc] at h
  have hfront : (l.content.slice p (min ignore d) ++ List.replicate (d - ignore) l.formatInfo.fill).length = d := by
    rw [List.length_append, Mem.length_slice, List.length_replicate]
    omega
  refine .inr (.inr ⟨fun c hc hs => ?_, ?_⟩)
  · -- A character that is lost behind the mark.
    obtain ⟨j, hj⟩ := List.getElem?_of_mem hc
    have htextj : (sign.toList ++ pre ++ rest)[(sign.toList ++ pre).length + j]? = some c := by
      rw [List.getElem?_append_right (Nat.le_add_right _ _), Nat.add_sub_cancel_left, hj]
    have hout := @getElem?_moved_of_swallows l.formatInfo p _ _ _ htextj hs
    rw [hmoved] at hout
    have hat := congrArg (·[d + ((sign.toList ++ pre).length + j)]?) h
    dsimp only at hat hout
    rw [List.getElem?_append_right (by omega), hfront, Nat.add_sub_cancel_left, hout,
      List.getElem?_append_right (by omega),
      List.getElem?_append_right (by rw [List.length_replicate]; omega), List.length_replicate,
      show d + ((sign.toList ++ pre).length + j) - (sign.toList ++ pre).length - d = j by omega, hj] at hat
    exact hinfo.fill_ne hs (Option.some.inj hat)
  · by_cases hnil : pre = []
    · exact .inl hnil
    · -- The letter of the base prefix.
      obtain rfl := hpre.resolve_left hnil
      obtain ⟨x, hx, hmem, -⟩ := exists_basePrefix hnil
      have hfillx : l.formatInfo.fill ≠ x := fun hfx => by
        have hmem' := hfx ▸ hmem
        refine hinfo.fill ?_
        simp only [List.map_cons, List.map_nil, List.mem_cons, List.not_mem_nil, or_false] at hmem' ⊢
        tauto
      rw [hx] at h hmoved hd hn ⊢
      have hat := congrArg (·[sign.toList.length + 1]?) h
      have hletter : (sign.toList ++ [ascii '0', x] ++ (List.replicate d l.formatInfo.fill ++ rest))[
          sign.toList.length + 1]? = some x := by simp
      have hignore := @ignore_moved l.formatInfo p (sign.toList ++ [ascii '0', x] ++ rest)
      rw [hmoved] at hignore
      dsimp only at hat hignore
      rw [hletter] at hat
      rcases Nat.lt_or_ge (sign.toList.length + 1) d with hq | hq
      · rw [List.getElem?_append_left (by omega)] at hat
        rcases Nat.lt_or_ge (sign.toList.length + 1) ignore with hi | hi
        · have htwo : ignore = 2 := by omega
          have hnone : sign.toList.length = 0 := by omega
          refine .inr ⟨?_, hignore.2 htwo, by omega⟩
          cases sign with
          | none => rfl
          | some c => simp at hnone
        · rw [List.getElem?_append_right (by rw [Mem.length_slice]; omega),
            List.getElem?_replicate_of_lt (by rw [Mem.length_slice]; omega)] at hat
          exact absurd (Option.some.inj hat) hfillx
      · rw [List.getElem?_append_right (by omega), hfront] at hat
        obtain ⟨c, hc, hcx⟩ : ∃ c, (sign.toList ++ [ascii '0', x] ++ rest)[sign.toList.length + 1 - d]? = some c ∧
            c ≠ x := by
          have hzero : ascii '0' ≠ x := by
            rintro rfl
            exact absurd hmem (by decide)
          cases sign with
          | none =>
            rw [Option.toList_none, List.length_nil] at hq ⊢
            rw [show 0 + 1 - d = 0 by omega]
            exact ⟨_, rfl, hzero⟩
          | some c =>
            rw [Option.toList_some, List.length_singleton] at hq ⊢
            rcases (show 1 + 1 - d = 0 ∨ 1 + 1 - d = 1 by omega) with ht | ht
            · rw [ht]
              refine ⟨c, rfl, ?_⟩
              rintro rfl
              rcases hsign c rfl with rfl | rfl <;> exact absurd hmem (by decide)
            · rw [ht]
              exact ⟨_, rfl, hzero⟩
        have hout := @getElem?_moved l.formatInfo p _ _ _ hc
        rw [hmoved] at hout
        dsimp only at hout
        rw [hat] at hout
        rcases hout with hout | hout
        · exact absurd (Option.some.inj hout).symm hcx
        · exact absurd (Option.some.inj hout).symm hfillx

end

/-- **Padding preserves the text** exactly if the loop keeps it: a text that is shorter than the width is padded
as it should be, and the cursor is behind the padded text. -/
theorem fillAndAlignment_eq_padded_iff {style : ℕ → Option ℕ} {len : ℕ} {spec : FormatInfo}
    (hspec : c20Format style len = some spec) (hfill : l.formatInfo.fill = spec.fill)
    (halign : l.formatInfo.align = spec.align) (hcursor : l.cursor = p + (sign.toList ++ pre ++ rest).length)
    (htext : l.content.slice p (sign.toList ++ pre ++ rest).length = sign.toList ++ pre ++ rest)
    (hn : (sign.toList ++ pre ++ rest).length < l.formatInfo.width) (hp : p + l.formatInfo.width < 2 ^ 32)
    (hsign : ∀ c ∈ sign, c = ascii '+' ∨ c = ascii '-') (hpre : pre = [] ∨ pre = l.formatInfo.basePrefix) :
    ((l.fillAndAlignment p).cursor = p + l.formatInfo.width ∧
      (l.fillAndAlignment p).content.slice p l.formatInfo.width =
        padded l.formatInfo (sign.toList ++ pre) rest) ↔ l.formatInfo.KeepsText sign pre rest := by
  have hproduced := produced_c20Format hspec
  have hinfo : l.formatInfo.Produced := ⟨halign ▸ hproduced.align, hfill ▸ hproduced.fill⟩
  constructor
  · rintro ⟨-, h⟩
    by_cases hright : l.formatInfo.align = ascii '>'
    · by_cases hblank : l.formatInfo.fill = ascii ' '
      · exact .inr (.inl hblank)
      · exact keepsText_of_slice hcursor htext hn hp hsign hpre hinfo hright hblank h
    · exact .inl hright
  · refine fun hkeep => ⟨?_, slice_fillAndAlignment hcursor htext hn hp hsign hpre hinfo hkeep⟩
    rcases hinfo.align with h | h | h
    · exact (fillAndAlignment_right hcursor hn hp h rfl).1
    · exact (fillAndAlignment_left hcursor hn hp h).1
    · exact (fillAndAlignment_middle hcursor hn hp h).1

/-- A hexadecimal number with zeros behind its prefix. -/
theorem padded_zeros : ∃ l : Layout,
    c20Format (fun i => (text ":#08x\x7d")[i]?.map UInt8.toNat) 6 = some l.formatInfo ∧
      l.content.slice 0 4 = text "0x2a" ∧ l.cursor = 4 ∧ (l.fillAndAlignment 0).cursor = 8 ∧
      (l.fillAndAlignment 0).content.slice 0 8 = text "0x00002a" := by
  let info : FormatInfo := ⟨true, false, ascii '0', ascii '>', ascii '-', ascii '#', 5, 8, 2 ^ 32 - 1, ascii 'x',
    by norm_num, .inr rfl⟩
  have hspec : c20Format (fun i => (text ":#08x\x7d")[i]?.map UInt8.toNat) 6 = some info := rfl
  let l : Layout := ⟨fun i => (text "0x2a").getD i 0, 64, 4, fun _ => none, info, true⟩
  have htext : l.content.slice 0 (Option.toList none ++ text "0x" ++ text "2a").length =
      Option.toList none ++ text "0x" ++ text "2a" := by decide
  have hsign : ∀ c ∈ (none : Option UInt8), c = ascii '+' ∨ c = ascii '-' := fun c hc => by cases hc
  have hkeep : info.KeepsText none (text "0x") (text "2a") :=
    .inr (.inr ⟨by decide +kernel, .inr ⟨rfl, rfl, by decide⟩⟩)
  have h := (fillAndAlignment_eq_padded_iff hspec rfl rfl rfl htext (by decide) (by decide) hsign (.inr rfl)).2 hkeep
  exact ⟨l, hspec, rfl, rfl, h⟩

/-- A text with a hyphen: the character in front of it is doubled and the hyphen is lost. -/
theorem not_padded_hyphen : ∃ l : Layout,
    c20Format (fun i => (text ":0>6\x7d")[i]?.map UInt8.toNat) 5 = some l.formatInfo ∧
      l.content.slice 0 3 = text "a-b" ∧ l.cursor = 3 ∧
      (l.fillAndAlignment 0).content.slice 0 6 = text "a00a0b" ∧
      padded l.formatInfo [] (text "a-b") = text "000a-b" :=
  ⟨⟨fun i => (text "a-b").getD i 0, 64, 3, fun _ => none,
    ⟨true, true, ascii '0', ascii '>', ascii '-', ascii ' ', 4, 6, 2 ^ 32 - 1, ascii 'd', by norm_num, .inr rfl⟩,
    true⟩, rfl, rfl, rfl, by decide, by decide⟩

end QLog.Layout
