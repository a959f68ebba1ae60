import QLog.Layout.Content

/-!
# Padding

`fill_and_alignment` pads the text behind a position to the width of the format specification. `padded` is
what it is meant to make of a text: with an alignment to the right and a fill character that is not a blank,
the mark of an integer, its sign and its base prefix, stays in front. The loop for that alignment looks for
the mark by its characters, wherever they are (`moved`), so that the text comes out right under a condition on
it (`fillAndAlignment_eq_padded_iff`).
-/

namespace QLog.Layout

/-! ## What the parser produces -/

/-- The alignments and the fill characters of format specifications. -/
structure FormatInfo.Produced (info : FormatInfo) : Prop where
  align : info.align = ascii '>' ∨ info.align = ascii '<' ∨ info.align = ascii '^'
  fill : info.fill ∉ ['+', '-', 'b', 'B', 'x', 'X'].map ascii

namespace SpecScan

theorem produced_setFill {s : SpecScan} (h : s.info.Produced) {c : UInt8}
    (hc : c ∉ ['+', '-', 'b', 'B', 'x', 'X'].map ascii) : (s.setFill c).info.Produced := by
  refine ⟨h.align, ?_⟩
  change (if _ then _ else _) ∉ _
  split_ifs
  · decide
  · exact hc

theorem produced_setType {s : SpecScan} (h : s.info.Produced) (c : UInt8) : (s.setType c).info.Produced := by
  have halign : (s.setType c).info.align = s.info.align := by
    unfold setType
    dsimp only
    split_ifs <;> rfl
  have hfill : (s.setType c).info.fill = s.info.fill ∨ (s.setType c).info.fill = ascii ' ' := by
    unfold setType
    dsimp only
    split_ifs <;> first | exact .inl rfl | exact .inr rfl
  refine ⟨halign ▸ h.align, ?_⟩
  rcases hfill with hfill | hfill
  · rw [hfill]
    exact h.fill
  · rw [hfill]
    decide

/-- The switch of the parser keeps the alignment and the fill character in their ranges. -/
theorem produced_step {s : SpecScan} (h : s.info.Produced) (c : UInt8) : (s.step c).info.Produced := by
  unfold step
  split_ifs with hhash halign hseen hsign htype hpoint hfill hdigit
  · exact ⟨h.align, h.fill⟩
  · refine produced_setFill h ?_
    rcases halign with rfl | rfl | rfl <;> decide
  · refine ⟨?_, h.fill⟩
    rcases halign with rfl | rfl | rfl
    · exact .inl rfl
    · exact .inr (.inl rfl)
    · exact .inr (.inr rfl)
  · exact ⟨h.align, h.fill⟩
  · exact produced_setType h c
  · exact ⟨h.align, h.fill⟩
  · refine produced_setFill h fun hc => ?_
    simp only [List.map_cons, List.map_nil, List.mem_cons, List.not_mem_nil, or_false] at hc htype
    tauto
  · exact ⟨h.align, h.fill⟩
  · exact h

theorem produced_loop {style : ℕ → Option ℕ} {len fuel index : ℕ} {s t : SpecScan}
    (h : s.info.Produced) (ht : loop style len fuel index s = some t) : t.info.Produced := by
  induction fuel generalizing index s with
  | zero => cases ht
  | succ fuel ih =>
    rw [loop] at ht
    dsimp only at ht
    by_cases hend : len ≤ index + 1 ∨ 10 < index + 1
    · rw [if_pos hend] at ht
      obtain rfl := Option.some.inj ht
      exact ⟨h.align, h.fill⟩
    · rw [if_neg hend] at ht
      obtain ⟨u, -, ht⟩ := Option.bind_eq_some_iff.1 ht
      split_ifs at ht with hopen hclose
      · obtain rfl := Option.some.inj ht
        exact ⟨h.align, h.fill⟩
      · obtain rfl := Option.some.inj ht
        exact ⟨h.align, h.fill⟩
      · exact ih (produced_step h _) ht

end SpecScan

/-- What a format specification gives is in the ranges. -/
theorem produced_c20Format {style : ℕ → Option ℕ} {len : ℕ} {info : FormatInfo}
    (h : c20Format style len = some info) : info.Produced := by
  have hinit : { FormatInfo.initial with used := true }.Produced := ⟨.inl rfl, by decide⟩
  rw [c20Format] at h
  obtain ⟨u, -, h⟩ := Option.bind_eq_some_iff.1 h
  split_ifs at h
  · exact Option.some.inj h ▸ hinit
  · obtain ⟨t, ht, rfl⟩ := Option.map_eq_some_iff.1 h
    have hproduced := SpecScan.produced_loop (s := ⟨_, false, false, false, .zero⟩) hinit ht
    unfold SpecScan.finish
    dsimp only
    split_ifs <;> exact ⟨hproduced.align, hproduced.fill⟩

/-! ## The loop of the alignment to the right -/

/-- The character is taken for one of a base prefix. -/
def FormatInfo.Base (info : FormatInfo) (c : UInt8) : Prop :=
  (info.fill = ascii '0' ∧ info.prefixChar = ascii '#' ∧ (info.type = ascii 'b' ∨ info.type = ascii 'x')) ∧
    (c = ascii 'b' ∨ c = ascii 'B' ∨ c = ascii 'x' ∨ c = ascii 'X')

/-- The character is taken for a sign. -/
def FormatInfo.Sign (info : FormatInfo) (c : UInt8) : Prop :=
  (c = ascii '+' ∨ c = ascii '-') ∧ info.fill ≠ ascii ' '

/-- The character is taken for one of the mark of an integer, and a fill character written in its place. -/
def FormatInfo.Swallows (info : FormatInfo) (c : UInt8) : Prop := info.Sign c ∨ info.Base c

instance (info : FormatInfo) : DecidablePred info.Base := fun _ => inferInstanceAs (Decidable (_ ∧ _))

instance (info : FormatInfo) : DecidablePred info.Sign := fun _ => inferInstanceAs (Decidable (_ ∧ _))

instance (info : FormatInfo) : DecidablePred info.Swallows := fun _ => inferInstanceAs (Decidable (_ ∨ _))

/-- What the loop makes of the characters from a position on, and its local variables `ignore` and
`ignore_index` behind it. -/
def moved (info : FormatInfo) : ℕ → List UInt8 → List UInt8 × ℕ × ℕ
  | _, [] => ([], 0, 0)
  | p, c :: s =>
    let (out, ignore, ignoreIndex) := moved info (p + 1) s
    if info.Sign c then (info.fill :: out, 1, ignoreIndex)
    else if info.Base c then (info.fill :: out, 2, sub32 p 1)
    else if ignore = 2 ∧ ignoreIndex = p then (info.fill :: out, ignore, ignoreIndex)
    else (c :: out, ignore, ignoreIndex)

variable {info : FormatInfo} {p : ℕ} {s : List UInt8}

theorem moved_cons (c : UInt8) : moved info p (c :: s) =
    if info.Sign c then (info.fill :: (moved info (p + 1) s).1, 1, (moved info (p + 1) s).2.2)
    else if info.Base c then (info.fill :: (moved info (p + 1) s).1, 2, sub32 p 1)
    else if (moved info (p + 1) s).2.1 = 2 ∧ (moved info (p + 1) s).2.2 = p then
      (info.fill :: (moved info (p + 1) s).1, (moved info (p + 1) s).2)
    else (c :: (moved info (p + 1) s).1, (moved info (p + 1) s).2) := rfl

@[simp] theorem length_moved : (moved info p s).1.length = s.length := by
  induction s generalizing p with
  | nil => rfl
  | cons c s ih =>
    rw [moved_cons]
    split_ifs <;> simp [ih]

/-- A character stays, or a fill character is in its place. -/
theorem getElem?_moved {i : ℕ} {c : UInt8} (hc : s[i]? = some c) :
    (moved info p s).1[i]? = some c ∨ (moved info p s).1[i]? = some info.fill := by
  induction s generalizing p i with
  | nil => simp at hc
  | cons b s ih =>
    rw [moved_cons]
    cases i with
    | zero =>
      obtain rfl : b = c := by simpa using hc
      split_ifs <;> simp
    | succ i =>
      have hrest := ih (p := p + 1) (i := i) (by simpa using hc)
      split_ifs <;> simpa using hrest

theorem getElem?_moved_of_swallows {i : ℕ} {c : UInt8} (hc : s[i]? = some c) (hs : info.Swallows c) :
    (moved info p s).1[i]? = some info.fill := by
  induction s generalizing p i with
  | nil => simp at hc
  | cons b s ih =>
    rw [moved_cons]
    cases i with
    | zero =>
      obtain rfl : b = c := by simpa using hc
      split_ifs with hsign hbase
      · rfl
      · rfl
      · rfl
      · exact absurd hs (not_or.2 ⟨hsign, hbase⟩)
    | succ i =>
      have hrest := ih (p := p + 1) (i := i) (by simpa using hc)
      split_ifs <;> simpa using hrest

/-- Two characters are left to the mark at most, and only a base prefix has two. -/
theorem ignore_moved : (moved info p s).2.1 ≤ 2 ∧ ((moved info p s).2.1 = 2 → info.fill = ascii '0') := by
  induction s generalizing p with
  | nil => exact ⟨Nat.zero_le 2, fun h => by cases h⟩
  | cons c s ih =>
    rw [moved_cons]
    split_ifs with hsign hbase
    · exact ⟨one_le_two, fun h => by cases h⟩
    · exact ⟨le_rfl, fun _ => hbase.1.1⟩
    · exact ih
    · exact ih

/-- A text without such characters is moved as it is. -/
theorem moved_eq (h : ∀ c ∈ s, ¬info.Swallows c) : moved info p s = (s, 0, 0) := by
  induction s generalizing p with
  | nil => rfl
  | cons c s ih =>
    obtain ⟨hsign, hbase⟩ := not_or.1 (h c List.mem_cons_self)
    rw [moved_cons, ih fun b hb => h b (List.mem_cons_of_mem c hb), if_neg hsign, if_neg hbase]
    rfl

/-! ## The loops on the text -/

/-- The bytes from a position on, the first one in front. -/
theorem slice_succ (m : Mem) (a n : ℕ) : m.slice a (n + 1) = m a :: m.slice (a + 1) n := by
  rw [Nat.add_comm n 1, Mem.slice_add]
  rfl

theorem sub32_of_le {a b : ℕ} (h : b ≤ a) (ha : a < 2 ^ 32) : sub32 a b = a - b := by
  unfold sub32
  omega

/-- Only characters and the note of writes outside have changed. -/
def withContent (l : Layout) (m : Mem) (inside : Bool) : Layout := { l with content := m, writesInside := inside }

@[simp] theorem formatInfo_withContent (l : Layout) (m : Mem) (inside : Bool) :
    (l.withContent m inside).formatInfo = l.formatInfo := rfl

/-- A character written in front of characters already written. -/
theorem write_withContent (l : Layout) (m : Mem) (inside : Bool) (a : ℕ) (out : List UInt8) (c : UInt8) :
    (l.withContent (m.write (a + 1) out) inside).write a c =
      l.withContent (m.write a (c :: out)) (inside && decide (a < l.size)) := by
  have hwrite := Mem.write_append_left m a [c] out
  rw [List.length_singleton, List.singleton_append] at hwrite
  rw [write, withContent, withContent, Mem.poke_eq_write, hwrite]

variable {l : Layout} {n k w : ℕ}

/-- A turn of the loop, at the character that it looks at. -/
theorem alignRight_eq {dis i opt move : ℕ} (s : ℕ × ℕ) (hinfo : l.formatInfo = info)
    (hopt : sub32 (add32 p info.width) i = opt) (hmove : sub32 (add32 p dis) i = move) :
    alignRight p dis (l, s) i =
      if info.Sign (l.content move) then (l.write opt info.fill, 1, s.2)
      else if info.Base (l.content move) then (l.write opt info.fill, 2, sub32 move 1)
      else if s.1 = 2 ∧ s.2 = move then (l.write opt info.fill, s)
      else (l.write opt (l.content move), s) := by
  subst hinfo hopt hmove
  rfl

/-- The loop of the alignment to the right, after so many turns. -/
theorem foldl_alignRight (hp : p + l.formatInfo.width < 2 ^ 32) (hn : n < l.formatInfo.width) (hk : k ≤ n) :
    ∃ inside, (List.range' 1 k).foldl (alignRight p n) (l, 0, 0) =
      (l.withContent (l.content.write (p + l.formatInfo.width - k)
        (moved l.formatInfo (p + n - k) (l.content.slice (p + n - k) k)).1) inside,
        (moved l.formatInfo (p + n - k) (l.content.slice (p + n - k) k)).2) := by
  induction k with
  | zero =>
    refine ⟨l.writesInside, ?_⟩
    simp [withContent, Mem.slice, moved]
  | succ k ih =>
    obtain ⟨inside, ih⟩ := ih (by omega)
    have hmove : p + n - (k + 1) + 1 = p + n - k := by omega
    have hopt : p + l.formatInfo.width - k = p + l.formatInfo.width - (k + 1) + 1 := by omega
    have hsame : ∀ out inside, (l.withContent (l.content.write (p + l.formatInfo.width - k) out) inside).content
        (p + n - (k + 1)) = l.content (p + n - (k + 1)) := fun out inside =>
      Mem.write_apply_of_lt l.content out (by omega)
    have hopt' : sub32 (add32 p l.formatInfo.width) (1 + 1 * k) = p + l.formatInfo.width - (k + 1) := by
      unfold sub32 add32
      omega
    have hmove' : sub32 (add32 p n) (1 + 1 * k) = p + n - (k + 1) := by
      unfold sub32 add32
      omega
    refine ⟨inside && decide (p + l.formatInfo.width - (k + 1) < l.size), ?_⟩
    rw [List.range'_concat, List.foldl_append, ih, List.foldl_cons, List.foldl_nil,
      alignRight_eq _ (formatInfo_withContent l _ _) hopt' hmove', hsame, slice_succ, hmove, moved_cons, hmove, hopt]
    simp only [write_withContent]
    split_ifs <;> rfl

/-- Fill characters side by side. -/
theorem fillAt_eq {a : ℕ} (l : Layout) (ha : a + n ≤ 2 ^ 32) : ∃ inside,
    l.fillAt a n = l.withContent (l.content.write a (List.replicate n l.formatInfo.fill)) inside := by
  induction n with
  | zero => exact ⟨l.writesInside, by simp [fillAt, withContent]⟩
  | succ n ih =>
    obtain ⟨inside, ih⟩ := ih (by omega)
    have hfold : l.fillAt a (n + 1) = (l.fillAt a n).write (add32 a n) (l.fillAt a n).formatInfo.fill := by
      rw [fillAt, List.range_succ, List.foldl_append]
      rfl
    have hwrite := l.content.write_append a (List.replicate n l.formatInfo.fill) [l.formatInfo.fill]
    rw [List.length_replicate] at hwrite
    have ha' : add32 a n = a + n := Nat.mod_eq_of_lt (by omega)
    refine ⟨inside && decide (a + n < l.size), ?_⟩
    rw [hfold, ih, ha', List.replicate_succ', ← hwrite, ← Mem.poke_eq_write]
    rfl

/-- The loop of the alignment to the middle, after so many turns. -/
theorem foldl_alignMiddle (tail : ℕ) (hp : p + l.formatInfo.width < 2 ^ 32)
    (hn : n + tail < l.formatInfo.width) (hk : k ≤ n) : ∃ inside,
      (List.range' 1 k).foldl (fun l' i =>
        l'.write (sub32 (sub32 (add32 p l.formatInfo.width) i) tail) (l'.content (sub32 (add32 p n) i))) l =
        l.withContent (l.content.write (p + l.formatInfo.width - tail - k) (l.content.slice (p + n - k) k))
          inside := by
  induction k with
  | zero => exact ⟨l.writesInside, by simp [withContent, Mem.slice]⟩
  | succ k ih =>
    obtain ⟨inside, ih⟩ := ih (by omega)
    have hopt : p + l.formatInfo.width - tail - k = p + l.formatInfo.width - tail - (k + 1) + 1 := by omega
    have hopt' : sub32 (sub32 (add32 p l.formatInfo.width) (1 + 1 * k)) tail =
        p + l.formatInfo.width - tail - (k + 1) := by
      unfold sub32 add32
      omega
    have hmove : p + n - (k + 1) + 1 = p + n - k := by omega
    have hmove' : sub32 (add32 p n) (1 + 1 * k) = p + n - (k + 1) := by
      unfold sub32 add32
      omega
    have hsame : ∀ out inside, (l.withContent (l.content.write (p + l.formatInfo.width - tail - k) out)
        inside).content (p + n - (k + 1)) = l.content (p + n - (k + 1)) := fun out inside =>
      Mem.write_apply_of_lt l.content out (by omega)
    refine ⟨inside && decide (p + l.formatInfo.width - tail - (k + 1) < l.size), ?_⟩
    rw [List.range'_concat, List.foldl_append, ih, List.foldl_cons, List.foldl_nil, hopt', hmove', hsame,
      slice_succ, hmove, hopt, write_withContent]

/-! ## What the padding makes of a text -/

/-- The alignment to the right. -/
def alignedRight (p dis : ℕ) (l : Layout) : Layout :=
  let r := (List.range' 1 dis).foldl (alignRight p dis) (l, 0, 0)
  r.1.fillAt (add32 p r.2.1) (l.formatInfo.width - dis - r.2.1)

/-- The alignment to the middle. -/
def alignedMiddle (p dis : ℕ) (l : Layout) : Layout :=
  let fillCount := l.formatInfo.width - dis
  let tail := fillCount / 2
  let front := fillCount - tail
  let moved := (List.range' 1 dis).foldl (fun l' i =>
    l'.write (sub32 (sub32 (add32 p l.formatInfo.width) i) tail) (l'.content (sub32 (add32 p dis) i))) l
  (moved.fillAt p front).fillAt (add32 front (add32 p dis)) tail

/-- The branches of `fill_and_alignment`. -/
theorem fillAndAlignment_eq {p : ℕ} {l : Layout} {dis : ℕ} (h : sub32 l.cursor p = dis) : l.fillAndAlignment p =
    if dis < l.formatInfo.width then
      let a :=
        if l.formatInfo.align = ascii '>' then alignedRight p dis l
        else if l.formatInfo.align = ascii '<' then l.fillAt l.cursor (l.formatInfo.width - dis)
        else if l.formatInfo.align = ascii '^' then alignedMiddle p dis l
        else l
      { a with cursor := add32 a.cursor (l.formatInfo.width - dis), formatInfo := .cleared }
    else l := by
  unfold fillAndAlignment
  rw [h]
  rfl

section

variable (hcursor : l.cursor = p + n) (hn : n < l.formatInfo.width) (hp : p + l.formatInfo.width < 2 ^ 32)

include hcursor hn hp

theorem sub32_cursor : sub32 l.cursor p = n := by
  rw [hcursor]
  unfold sub32
  omega

/-- The cursor is behind as many characters as the width says. -/
theorem add32_cursor : add32 l.cursor (l.formatInfo.width - n) = p + l.formatInfo.width := by
  rw [hcursor]
  unfold add32
  omega

theorem fillAndAlignment_left (halign : l.formatInfo.align = ascii '<') :
    (l.fillAndAlignment p).cursor = p + l.formatInfo.width ∧
      (l.fillAndAlignment p).content.slice p l.formatInfo.width =
        l.content.slice p n ++ List.replicate (l.formatInfo.width - n) l.formatInfo.fill := by
  have hright : l.formatInfo.align ≠ ascii '>' := by
    rw [halign]
    decide
  obtain ⟨inside, hfill⟩ := fillAt_eq (n := l.formatInfo.width - n) (a := p + n) l (by omega)
  rw [fillAndAlignment_eq (sub32_cursor hcursor hn hp), if_pos hn, if_neg hright, if_pos halign, hcursor, hfill]
  refine ⟨add32_cursor hcursor hn hp, ?_⟩
  have hsplit : l.formatInfo.width = n + (l.formatInfo.width - n) := by omega
  have hwrite := Mem.slice_write l.content (p + n) (List.replicate (l.formatInfo.width - n) l.formatInfo.fill)
  rw [List.length_replicate] at hwrite
  change (l.content.write (p + n) _).slice p l.formatInfo.width = _
  rw [hsplit, Mem.slice_add, Nat.add_sub_cancel_left, hwrite, Mem.slice_write_of_disjoint _ (.inl le_rfl)]

theorem fillAndAlignment_middle (halign : l.formatInfo.align = ascii '^') :
    (l.fillAndAlignment p).cursor = p + l.formatInfo.width ∧
      (l.fillAndAlignment p).content.slice p l.formatInfo.width =
        List.replicate (l.formatInfo.width - n - (l.formatInfo.width - n) / 2) l.formatInfo.fill ++
          (l.content.slice p n ++ List.replicate ((l.formatInfo.width - n) / 2) l.formatInfo.fill) := by
  have hright : l.formatInfo.align ≠ ascii '>' := by
    rw [halign]
    decide
  have hleft : l.formatInfo.align ≠ ascii '<' := by
    rw [halign]
    decide
  obtain ⟨tail, htail⟩ : ∃ t, (l.formatInfo.width - n) / 2 = t := ⟨_, rfl⟩
  obtain ⟨front, hfront⟩ : ∃ t, l.formatInfo.width - n - tail = t := ⟨_, rfl⟩
  obtain ⟨inside, hloop⟩ := foldl_alignMiddle (l := l) (p := p) (n := n) (k := n) tail hp (by omega) le_rfl
  have hopt : p + l.formatInfo.width - tail - n = p + front := by omega
  rw [hopt, Nat.add_sub_cancel] at hloop
  obtain ⟨inside₁, hfill₁⟩ := fillAt_eq (n := front) (a := p)
    (l.withContent (l.content.write (p + front) (l.content.slice p n)) inside) (by omega)
  obtain ⟨inside₂, hfill₂⟩ := fillAt_eq (n := tail) (a := front + (p + n))
    ((l.withContent (l.content.write (p + front) (l.content.slice p n)) inside).fillAt p front) (by omega)
  have hplace : add32 front (add32 p n) = front + (p + n) := by
    unfold add32
    omega
  have heq : alignedMiddle p n l = l.withContent
      (((l.content.write (p + front) (l.content.slice p n)).write p
        (List.replicate front l.formatInfo.fill)).write (front + (p + n))
          (List.replicate tail l.formatInfo.fill)) inside₂ := by
    unfold alignedMiddle
    dsimp only
    rw [htail, hfront, hloop, hplace, hfill₂, hfill₁]
    rfl
  rw [fillAndAlignment_eq (sub32_cursor hcursor hn hp), if_pos hn, if_neg hright, if_neg hleft, if_pos halign, heq,
    htail, hfront]
  refine ⟨add32_cursor hcursor hn hp, ?_⟩
  change Mem.slice (Mem.write _ _ _) p l.formatInfo.width = _
  have hfirst := Mem.write_append_left l.content p (List.replicate front l.formatInfo.fill) (l.content.slice p n)
  have hsecond := Mem.write_append l.content p (List.replicate front l.formatInfo.fill ++ l.content.slice p n)
    (List.replicate tail l.formatInfo.fill)
  have hall := Mem.slice_write l.content p
    (List.replicate front l.formatInfo.fill ++ l.content.slice p n ++ List.replicate tail l.formatInfo.fill)
  rw [List.length_replicate] at hfirst
  rw [List.length_append, List.length_replicate, Mem.length_slice,
    show p + (front + n) = front + (p + n) by omega] at hsecond
  rw [List.length_append, List.length_append, List.length_replicate, Mem.length_slice, List.length_replicate,
    show front + n + tail = l.formatInfo.width by omega] at hall
  rw [hfirst, hsecond, hall, List.append_assoc]

/-- To the right: characters at the front are left as they were, as many as `ignore` says. -/
theorem fillAndAlignment_right (halign : l.formatInfo.align = ascii '>') {out : List UInt8} {ignore ignoreIndex : ℕ}
    (hmoved : moved l.formatInfo p (l.content.slice p n) = (out, ignore, ignoreIndex)) :
    (l.fillAndAlignment p).cursor = p + l.formatInfo.width ∧
      (l.fillAndAlignment p).content.slice p l.formatInfo.width =
        l.content.slice p (min ignore (l.formatInfo.width - n)) ++
          (List.replicate (l.formatInfo.width - n - ignore) l.formatInfo.fill ++ out) := by
  obtain ⟨inside, hloop⟩ := foldl_alignRight (l := l) (p := p) (n := n) (k := n) hp hn le_rfl
  rw [Nat.add_sub_cancel, hmoved] at hloop
  have hout : out.length = n := by
    have hlen := @length_moved l.formatInfo p (l.content.slice p n)
    rwa [hmoved, Mem.length_slice] at hlen
  have htwo := (@ignore_moved l.formatInfo p (l.content.slice p n)).1
  rw [hmoved] at htwo
  dsimp only at hloop htwo
  have hignore : ignore ≤ l.formatInfo.width := by
    rcases Nat.eq_zero_or_pos n with rfl | hpos
    · obtain ⟨-, rfl, -⟩ : out = [] ∧ ignore = 0 ∧ ignoreIndex = 0 := by
        simpa [Mem.slice, moved, eq_comm] using hmoved
      exact Nat.zero_le _
    · omega
  obtain ⟨d, hd⟩ : ∃ d, l.formatInfo.width - n = d := ⟨_, rfl⟩
  have hplace : add32 p ignore = p + ignore := Nat.mod_eq_of_lt (by omega)
  obtain ⟨inside₁, hfill⟩ := fillAt_eq (n := d - ignore) (a := p + ignore)
    (l.withContent (l.content.write (p + l.formatInfo.width - n) out) inside) (by omega)
  -- The fill characters are next to what the loop has moved, if there are any.
  have hwrite : (l.content.write (p + l.formatInfo.width - n) out).write (p + ignore)
      (List.replicate (d - ignore) l.formatInfo.fill) =
        l.content.write (p + min ignore d) (List.replicate (d - ignore) l.formatInfo.fill ++ out) := by
    rcases Nat.le_total ignore d with hle | hle
    · have happ := Mem.write_append_left l.content (p + ignore)
        (List.replicate (d - ignore) l.formatInfo.fill) out
      rw [List.length_replicate, show p + ignore + (d - ignore) = p + l.formatInfo.width - n by omega] at happ
      rw [Nat.min_eq_left hle, happ]
    · rw [Nat.sub_eq_zero_of_le hle, List.replicate_zero, Mem.write_nil, List.nil_append, Nat.min_eq_right hle]
      congr 1
      omega
  have heq : alignedRight p n l = l.withContent (l.content.write (p + min ignore d)
      (List.replicate (d - ignore) l.formatInfo.fill ++ out)) inside₁ := by
    unfold alignedRight
    dsimp only
    rw [hloop, hplace, hd, hfill, ← hwrite]
    rfl
  rw [fillAndAlignment_eq (sub32_cursor hcursor hn hp), if_pos hn, if_pos halign, heq, hd]
  refine ⟨hd ▸ add32_cursor hcursor hn hp, ?_⟩
  have hall := Mem.slice_write l.content (p + min ignore d)
    (List.replicate (d - ignore) l.formatInfo.fill ++ out)
  rw [List.length_append, List.length_replicate, hout] at hall
  change Mem.slice (Mem.write _ _ _) p l.formatInfo.width = _
  rw [show l.formatInfo.width = min ignore d + (d - ignore + n) by omega, Mem.slice_add, hall,
    Mem.slice_write_of_disjoint _ (.inl le_rfl)]

end

end QLog.Layout
