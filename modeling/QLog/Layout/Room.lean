import QLog.Foundations.Reserving
import QLog.Layout.Edits
import QLog.Layout.Integers

/-!
# Room for a text

Every function that writes a value reserves room first: the bytes that it counts on, and with a format
specification its width and precision (`FormatInfo.slack`). A vector that is too small is given the next
power of two (`grown`). What a function does is a plan in a buffer that grows by this rule (`Reaches`): its
writes are inside the vector exactly if the plan stays inside. So it is with texts that are appended
(`At.text`) and with the padding of a field (`At.fillAndAlignment`).
-/

namespace QLog.Layout

open Record Bytes Reserving

variable {l m : Layout} {n p size : ℕ} {info info' : FormatInfo} {P Q : Plan}

/-! ## Plans -/

/-- What `expand_format_content_buff_size` adds for a specification. -/
def FormatInfo.slack (info : FormatInfo) : ℕ :=
  if info.offset ≠ 0 then add32 (add32 info.width info.precision) 2 else 0

theorem FormatInfo.slack_le (info : FormatInfo) : info.slack ≤ 200 :=
  Layout.slack_le { Layout.initial with formatInfo := info }

/-- The size of the vector when `n` bytes are asked for. -/
def grown (size n : ℕ) : ℕ := if n % 2 ^ 32 ≤ size then size else roundPowOfTwo (n % 2 ^ 32)

theorem grown_le (hsize : size ≤ 2 ^ 31) : grown size n ≤ 2 ^ 31 := by
  unfold grown
  split_ifs
  · exact hsize
  · exact (sizeOk_roundPowOfTwo (Nat.mod_lt _ (by norm_num))).le

/-- A vector for more than 2 GiB is emptied. -/
theorem grown_of_large (hn : 2 ^ 31 < n) (hlt : n < 2 ^ 32) (hsize : size ≤ 2 ^ 31) : grown size n = 0 := by
  rw [grown, Nat.mod_eq_of_lt hlt, if_neg (by omega), roundPowOfTwo_of_large hn hlt]

theorem size_expandBy (l : Layout) (n : ℕ) :
    (l.expandBy n).size = grown l.size (l.cursor + (n + l.formatInfo.slack)) := by
  have hwanted : l.wantedSize (add32 l.cursor n) = (l.cursor + (n + l.formatInfo.slack)) % 2 ^ 32 := by
    unfold wantedSize FormatInfo.slack add32
    split_ifs
    · rw [Nat.mod_add_mod, Nat.add_assoc]
    · rfl
  rw [expandBy, expandFormatContentBuffSize_eq, hwanted, grown]
  split_ifs <;> rfl

@[simp] theorem writesInside_expandBy (l : Layout) (n : ℕ) :
    (l.expandBy n).writesInside = l.writesInside := by
  rw [expandBy, expandFormatContentBuffSize_eq]
  split_ifs <;> rfl

/-- A layout whose writes have all been inside, with its cursor, its size and its specification. -/
structure At (l : Layout) (p size : ℕ) (info : FormatInfo) : Prop where
  inside : l.writesInside = true
  cursor_eq : l.cursor = p
  size_eq : l.size = size
  info_eq : l.formatInfo = info
  cursor_le : p ≤ 2 ^ 31
  size_le : size ≤ 2 ^ 31

/-- **A layout is reached by a plan** from a cursor and a size: if its writes have all been inside, the plan
stays inside; and if it does, they have been, and cursor and size are those behind the plan. -/
structure Reaches (m : Layout) (p size : ℕ) (P : Plan) (info : FormatInfo) : Prop where
  inside : m.writesInside = true → P.Inside grown (2 ^ 31) p size
  at_end : P.Inside grown (2 ^ 31) p size → At m (p + P.length) (P.sizeAfter grown p size) info

namespace Reaches

/-- **A plan behind another one.** -/
theorem trans (h : Reaches l p size P info) (hmono : m.writesInside = true → l.writesInside = true)
    (h' : At l (p + P.length) (P.sizeAfter grown p size) info →
      Reaches m (p + P.length) (P.sizeAfter grown p size) Q info') :
    Reaches m p size (P ++ Q) info' := by
  constructor
  · intro hm
    have hP := h.inside (hmono hm)
    exact (Plan.inside_append P Q).2 ⟨hP, (h' (h.at_end hP)).inside hm⟩
  · intro hPQ
    obtain ⟨hP, hQ⟩ := (Plan.inside_append P Q).1 hPQ
    have hend := (h' (h.at_end hP)).at_end hQ
    rwa [Plan.length_append, ← Nat.add_assoc, Plan.sizeAfter_append]

/-- A plan behind another one, where what follows is edits. -/
theorem edits (h : Reaches l p size P info) (hedits : Edits l m)
    (h' : At l (p + P.length) (P.sizeAfter grown p size) info →
      Reaches m (p + P.length) (P.sizeAfter grown p size) Q info') :
    Reaches m p size (P ++ Q) info' := h.trans hedits.writesInside h'

end Reaches

namespace At

/-- Nothing is done. -/
theorem refl (h : At l p size info) : Reaches l p size .empty info := ⟨fun _ => trivial, fun _ => h⟩

theorem setInfo (h : At l p size info) (info' : FormatInfo) :
    At { l with formatInfo := info' } p size info' :=
  ⟨h.inside, h.cursor_eq, h.size_eq, rfl, h.cursor_le, h.size_le⟩

/-- **An expansion** asks for room, with the slack of the specification. -/
theorem expandBy (h : At l p size info) (n : ℕ) :
    Reaches (l.expandBy n) p size (.ask (n + info.slack)) info := by
  refine ⟨fun _ => Plan.inside_ask _ _ _ _ _, fun _ => ⟨?_, ?_, ?_, ?_, h.cursor_le, grown_le h.size_le⟩⟩
  · rw [writesInside_expandBy, h.inside]
  · rw [cursor_expandBy, h.cursor_eq]
    rfl
  · rw [size_expandBy, h.cursor_eq, h.size_eq, h.info_eq, Plan.sizeAfter_ask]
  · rw [formatInfo_expandBy, h.info_eq]

/-- **A text is appended.** -/
theorem append (h : At l p size info) (bs : List UInt8) :
    Reaches (l.append bs) p size (.put bs.length) info := by
  have hinside : (l.append bs).writesInside = true ↔ bs.length = 0 ∨ p + bs.length ≤ size := by
    simp only [Layout.append, h.inside, h.cursor_eq, h.size_eq, Bool.true_and, decide_eq_true_eq,
      List.length_eq_zero_iff]
  have hcursor := h.cursor_le
  have hsize := h.size_le
  refine ⟨fun hm => (Plan.inside_put _ _ _ _).2 (hinside.1 hm), fun hP => ?_⟩
  have hroom := (Plan.inside_put _ _ _ _).1 hP
  rw [Plan.length_put, Plan.sizeAfter_put]
  refine ⟨hinside.2 hroom, ?_, h.size_eq, h.info_eq, by omega, hsize⟩
  change add32 l.cursor bs.length = _
  rw [h.cursor_eq]
  exact Nat.mod_eq_of_lt (by omega)

end At

/-- The plan of a text of `k` bytes, where room for `n` bytes is asked for. -/
def FormatInfo.textPlan (info : FormatInfo) (n k : ℕ) : Plan := .ask (n + info.slack) ++ .put k

namespace At

/-- **A text is appended behind an expansion.** -/
theorem text (h : At l p size info) (n : ℕ) (bs : List UInt8) :
    Reaches ((l.expandBy n).append bs) p size (info.textPlan n bs.length) info :=
  (h.expandBy n).edits ((Edits.refl _).append bs) fun hexpand => hexpand.append bs

theorem insertChar (h : At l p size info) (c : UInt8) :
    Reaches (l.insertChar c) p size (info.textPlan 1 1) info := by
  unfold Layout.insertChar
  rw [push_eq_append]
  exact h.text 1 [c]

end At

/-- The plan of a string: nothing is asked for an empty one. -/
def FormatInfo.stringPlan (info : FormatInfo) (n : ℕ) : Plan := if n = 0 then .empty else info.textPlan n n

theorem At.insertStrUtf8 (h : At l p size info) (str : List UInt8) :
    Reaches (l.insertStrUtf8 str) p size (info.stringPlan str.length) info := by
  unfold Layout.insertStrUtf8 FormatInfo.stringPlan
  split_ifs
  · exact h.refl
  · exact h.text _ str

/-! ## Characters in the text -/

/-- Characters have been written, and nothing else has changed: inside the vector exactly under a
condition. -/
structure Touches (l m : Layout) (c : Prop) : Prop where
  size : m.size = l.size
  cursor : m.cursor = l.cursor
  info : m.formatInfo = l.formatInfo
  inside_iff : m.writesInside = true ↔ l.writesInside = true ∧ c

namespace Touches

variable {c d : Prop}

theorem refl (l : Layout) : Touches l l True := ⟨rfl, rfl, rfl, (and_iff_left trivial).symm⟩

theorem congr (h : Touches l m c) (hcd : c ↔ d) : Touches l m d :=
  { h with inside_iff := by rw [h.inside_iff, hcd] }

theorem trans {l' : Layout} (h : Touches l m c) (h' : Touches m l' d) : Touches l l' (c ∧ d) :=
  ⟨h'.size.trans h.size, h'.cursor.trans h.cursor, h'.info.trans h.info, by
    rw [h'.inside_iff, h.inside_iff, and_assoc]⟩

theorem write (l : Layout) (i : ℕ) (x : UInt8) : Touches l (l.write i x) (i < l.size) :=
  ⟨rfl, rfl, rfl, by simp only [Layout.write, Bool.and_eq_true, decide_eq_true_eq]⟩

/-- A loop that writes. -/
theorem foldl {σ α : Type*} (layout : σ → Layout) {f : σ → α → σ} {c : α → Prop} {as : List α} (s : σ)
    (hf : ∀ s', (layout s').size = (layout s).size → (layout s').formatInfo = (layout s).formatInfo →
      ∀ a ∈ as, Touches (layout s') (layout (f s' a)) (c a)) :
    Touches (layout s) (layout (as.foldl f s)) (∀ a ∈ as, c a) := by
  induction as generalizing s with
  | nil => exact (refl _).congr (iff_of_true trivial fun a ha => absurd ha List.not_mem_nil)
  | cons a as ih =>
    have hfirst := hf s rfl rfl a List.mem_cons_self
    have hrest := ih (f s a) fun s' hsize hinfo b hb =>
      hf s' (hsize.trans hfirst.size) (hinfo.trans hfirst.info) b (List.mem_cons_of_mem _ hb)
    exact (hfirst.trans hrest).congr List.forall_mem_cons.symm

theorem reverse (l : Layout) (b e : ℕ) : Touches l (l.reverse b e) (e ≤ b ∨ e < l.size) := by
  rw [reverse_eq]
  exact ⟨rfl, rfl, rfl, by simp only [Bool.and_eq_true, decide_eq_true_eq]⟩

/-- The layout at the same place. -/
theorem at_same (h : Touches l m c) (hl : At l p size info) (hc : c) : At m p size info :=
  ⟨h.inside_iff.2 ⟨hl.inside, hc⟩, h.cursor.trans hl.cursor_eq, h.size.trans hl.size_eq,
    h.info.trans hl.info_eq, hl.cursor_le, hl.size_le⟩

end Touches

/-! ## Padding -/

section Padding

variable {d : ℕ}

theorem touches_fillAt (l : Layout) {a : ℕ} (ha : n ≠ 0 → a + n < 2 ^ 32) :
    Touches l (l.fillAt a n) (n = 0 ∨ a + n ≤ l.size) := by
  have hfill : Touches l (l.fillAt a n) (∀ i ∈ List.range n, add32 a i < l.size) :=
    Touches.foldl id l fun m hsize _ i _ => hsize ▸ Touches.write m (add32 a i) m.formatInfo.fill
  refine hfill.congr ⟨fun h => ?_, fun h i hi => ?_⟩
  · rcases Nat.eq_zero_or_pos n with hn | hpos
    · exact .inl hn
    · have hlast := h (n - 1) (List.mem_range.2 (by omega))
      have hbound := ha hpos.ne'
      rw [add32, Nat.mod_eq_of_lt (by omega)] at hlast
      omega
  · have hlt := List.mem_range.1 hi
    have hbound := ha (by omega)
    rw [add32, Nat.mod_eq_of_lt (by omega)]
    omega

/-- The characters that are moved to the right, up to the end of the width. -/
theorem touches_foldl_alignRight (hroom : p + l.formatInfo.width < 2 ^ 32) (hd : d < l.formatInfo.width) :
    Touches l ((List.range' 1 d).foldl (alignRight p d) (l, 0, 0)).1
      (d = 0 ∨ p + l.formatInfo.width ≤ l.size) := by
  have hmoved : Touches l ((List.range' 1 d).foldl (alignRight p d) (l, 0, 0)).1
      (∀ i ∈ List.range' 1 d, p + l.formatInfo.width - i < l.size) := by
    refine Touches.foldl Prod.fst (l, 0, 0) fun s hsize hinfo i hi => ?_
    rw [List.mem_range'_1] at hi
    have hindex : sub32 (add32 p s.1.formatInfo.width) i = p + l.formatInfo.width - i := by
      rw [hinfo, add32, Nat.mod_eq_of_lt hroom, sub32_of_le (by omega) hroom]
    have hwrite : ∀ x, Touches s.1 (s.1.write (p + l.formatInfo.width - i) x)
        (p + l.formatInfo.width - i < l.size) := fun x => hsize ▸ Touches.write s.1 _ x
    unfold alignRight
    simp only [hindex]
    split_ifs <;> exact hwrite _
  refine hmoved.congr ⟨fun h => ?_, fun h i hi => ?_⟩
  · rcases Nat.eq_zero_or_pos d with hd0 | hpos
    · exact .inl hd0
    · have hfirst := h 1 (List.mem_range'_1.2 (by omega))
      omega
  · rw [List.mem_range'_1] at hi
    omega

theorem touches_alignedMiddle (hroom : p + l.formatInfo.width < 2 ^ 32) (hd : d < l.formatInfo.width) :
    Touches l (l.alignedMiddle p d) (p + l.formatInfo.width ≤ l.size) := by
  obtain ⟨f, hf⟩ : ∃ f, l.formatInfo.width - d = f := ⟨_, rfl⟩
  obtain ⟨m, hm⟩ : ∃ m, (List.range' 1 d).foldl (fun l' i =>
      l'.write (sub32 (sub32 (add32 p l.formatInfo.width) i) (f / 2))
        (l'.content (sub32 (add32 p d) i))) l = m :=
    ⟨_, rfl⟩
  have hmoved : Touches l m (∀ i ∈ List.range' 1 d, p + l.formatInfo.width - i - f / 2 < l.size) := by
    rw [← hm]
    refine Touches.foldl id l fun s hsize _ i hi => ?_
    rw [List.mem_range'_1] at hi
    have hindex : sub32 (sub32 (add32 p l.formatInfo.width) i) (f / 2) =
        p + l.formatInfo.width - i - f / 2 := by
      rw [add32, Nat.mod_eq_of_lt hroom, sub32_of_le (by omega) hroom, sub32_of_le (by omega) (by omega)]
    rw [hindex]
    exact hsize ▸ Touches.write s _ _
  have hend : add32 (f - f / 2) (add32 p d) = p + d + (f - f / 2) := by
    unfold add32
    omega
  have hfront := touches_fillAt m (a := p) (n := f - f / 2) (by omega)
  have htail := touches_fillAt (m.fillAt p (f - f / 2)) (a := p + d + (f - f / 2)) (n := f / 2) (by omega)
  rw [hfront.size] at htail
  rw [hmoved.size] at hfront htail
  have hall := (hmoved.trans hfront).trans htail
  unfold alignedMiddle
  simp only [hf, hm, hend]
  refine hall.congr ⟨fun h => ?_, fun h => ⟨⟨fun i hi => ?_, by omega⟩, by omega⟩⟩
  · obtain ⟨⟨hindices, hleft⟩, hright⟩ := h
    rcases Nat.eq_zero_or_pos d with hd0 | hpos
    · omega
    · have hfirst := hindices 1 (List.mem_range'_1.2 (by omega))
      omega
  · rw [List.mem_range'_1] at hi
    omega

theorem touches_alignedRight (hroom : p + l.formatInfo.width < 2 ^ 32) (hd : d < l.formatInfo.width) :
    Touches l (l.alignedRight p d) (p + l.formatInfo.width ≤ l.size) := by
  obtain ⟨s, hs⟩ : ∃ s, (List.range' 1 d).foldl (alignRight p d) (l, 0, 0) = s := ⟨_, rfl⟩
  have hmoved := touches_foldl_alignRight hroom hd
  rw [hs] at hmoved
  have hignore : d = 0 → s.2.1 = 0 := by
    rintro rfl
    rw [← hs]
    rfl
  have hplace : l.formatInfo.width - d - s.2.1 ≠ 0 → add32 p s.2.1 = p + s.2.1 := fun hne =>
    Nat.mod_eq_of_lt (by omega)
  have hfill := touches_fillAt s.1 (a := add32 p s.2.1) (n := l.formatInfo.width - d - s.2.1) fun hne => by
    rw [hplace hne]
    omega
  rw [hmoved.size] at hfill
  unfold alignedRight
  simp only [hs]
  refine (hmoved.trans hfill).congr ⟨fun h => ?_, fun h => ⟨.inr h, ?_⟩⟩
  · obtain ⟨hleft | hleft, hright⟩ := h
    · rw [hplace (by omega)] at hright
      omega
    · exact hleft
  · rcases Nat.eq_zero_or_pos (l.formatInfo.width - d - s.2.1) with hzero | hpos
    · exact .inl hzero
    · rw [hplace hpos.ne']
      omega

end Padding

/-- The plan of the padding behind a value of `d` bytes. -/
def FormatInfo.paddingPlan (info : FormatInfo) (d : ℕ) : Plan :=
  if d < info.width then .put (info.width - d) else .empty

/-- The specification behind the padding of a value of `d` bytes. -/
def FormatInfo.behind (info : FormatInfo) (d : ℕ) : FormatInfo := if d < info.width then .cleared else info

/-- **A field is padded** to its width. -/
theorem At.fillAndAlignment {d : ℕ} (h : At l (p + d) size info)
    (halign : info.align = ascii '>' ∨ info.align = ascii '<' ∨ info.align = ascii '^') :
    Reaches (l.fillAndAlignment p) (p + d) size (info.paddingPlan d) (info.behind d) := by
  have hcursor := h.cursor_le
  have hsize := h.size_le
  have hwidth := info.width_lt
  have hdis : sub32 l.cursor p = d := by
    rw [h.cursor_eq, sub32_of_le (Nat.le_add_right _ _) (by omega), Nat.add_sub_cancel_left]
  rw [fillAndAlignment_eq hdis, h.info_eq]
  unfold FormatInfo.paddingPlan FormatInfo.behind
  by_cases hlt : d < info.width
  swap
  · simp only [if_neg hlt]
    exact h.refl
  obtain ⟨a, ha⟩ : ∃ a, (if info.align = ascii '>' then alignedRight p d l
      else if info.align = ascii '<' then l.fillAt l.cursor (info.width - d)
      else if info.align = ascii '^' then alignedMiddle p d l
      else l) = a := ⟨_, rfl⟩
  have hlt' : d < l.formatInfo.width := by rwa [h.info_eq]
  have hroom : p + l.formatInfo.width < 2 ^ 32 := by
    rw [h.info_eq]
    omega
  have htouches : Touches l a (p + info.width ≤ size) := by
    rw [← ha, ← h.info_eq, ← h.size_eq]
    rcases halign with halign | halign | halign
    · rw [h.info_eq, if_pos halign, ← h.info_eq]
      exact touches_alignedRight hroom hlt'
    · rw [h.info_eq, if_neg (by rw [halign]; decide), if_pos halign, ← h.info_eq, h.cursor_eq]
      exact (touches_fillAt l fun _ => by omega).congr (by omega)
    · rw [h.info_eq, if_neg (by rw [halign]; decide), if_neg (by rw [halign]; decide), if_pos halign,
        ← h.info_eq]
      exact touches_alignedMiddle hroom hlt'
  simp only [if_pos hlt, ha]
  constructor
  · intro hm
    have hroom := (htouches.inside_iff.1 hm).2
    exact (Plan.inside_put _ _ _ _).2 (.inr (by omega))
  · intro hP
    have hroom : p + info.width ≤ size := by
      have := (Plan.inside_put _ _ _ _).1 hP
      omega
    rw [Plan.length_put, Plan.sizeAfter_put]
    refine ⟨htouches.inside_iff.2 ⟨h.inside, hroom⟩, ?_, htouches.size.trans h.size_eq, rfl, by omega, hsize⟩
    change add32 a.cursor _ = _
    rw [htouches.cursor, h.cursor_eq]
    exact Nat.mod_eq_of_lt (by omega)

end QLog.Layout
