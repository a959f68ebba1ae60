import QLog.Layout.Content

/-!
# Appending to a layout

The functions that write at the cursor append a text (`append_append`, `push_eq_append`), and an expansion reserves
the room for it (`reserved_expandBy`). A text that is appended where room was reserved lies in the vector behind the
cursor (`appended_expandBy`).
-/

namespace QLog.Layout

variable {l : Layout}

/-! ## Room -/

/-- What `expand_format_content_buff_size` adds for a replacement field. -/
def slack (l : Layout) : ℕ :=
  if l.formatInfo.offset ≠ 0 then add32 (add32 l.formatInfo.width l.formatInfo.precision) 2 else 0

/-- A replacement field is given 200 bytes more at most. -/
theorem slack_le (l : Layout) : l.slack ≤ 200 := by
  have hwidth := l.formatInfo.width_lt
  have hprecision := l.formatInfo.precision_ok
  unfold slack add32
  split_ifs
  · omega
  · exact Nat.zero_le _

/-- The vector has room for so many bytes behind the cursor. -/
structure Reserved (l : Layout) (n : ℕ) : Prop where
  room : l.cursor + n + l.slack ≤ l.size
  size_le : l.size ≤ 2 ^ 31

theorem Reserved.mono {n k : ℕ} (h : l.Reserved n) (hk : k ≤ n) : l.Reserved k :=
  ⟨by have := h.room; omega, h.size_le⟩

/-- The size that an expansion asks for. -/
theorem expand_eq {n : ℕ} (h : n + l.slack ≤ 2 ^ 31) : l.expandFormatContentBuffSize n =
    if n + l.slack ≤ l.size then l else l.resize (roundPowOfTwo (n + l.slack)) := by
  have hsum : (if l.formatInfo.offset ≠ 0 then
      add32 n (add32 (add32 l.formatInfo.width l.formatInfo.precision) 2) else n) = n + l.slack := by
    unfold slack at h ⊢
    split_ifs at h ⊢
    · exact Nat.mod_eq_of_lt (by omega)
    · rfl
  unfold expandFormatContentBuffSize
  simp only [hsum]

theorem expandBy_eq {n : ℕ} (h : l.cursor + n + l.slack ≤ 2 ^ 31) : l.expandBy n =
    if l.cursor + n + l.slack ≤ l.size then l else l.resize (roundPowOfTwo (l.cursor + n + l.slack)) := by
  rw [expandBy, add32, Nat.mod_eq_of_lt (by omega), expand_eq h]

@[simp] theorem cursor_expandBy (l : Layout) (n : ℕ) : (l.expandBy n).cursor = l.cursor := by
  unfold expandBy expandFormatContentBuffSize
  simp only
  split_ifs <;> rfl

@[simp] theorem formatInfo_expandBy (l : Layout) (n : ℕ) : (l.expandBy n).formatInfo = l.formatInfo := by
  unfold expandBy expandFormatContentBuffSize
  simp only
  split_ifs <;> rfl

theorem content_expandBy {x : ℕ} (n : ℕ) (h : x < l.size) : (l.expandBy n).content x = l.content x := by
  unfold expandBy expandFormatContentBuffSize
  simp only
  split_ifs
  all_goals first
    | rfl
    | exact if_neg (by omega)

@[simp] theorem formatInfo_append (l : Layout) (bs : List UInt8) : (l.append bs).formatInfo = l.formatInfo := rfl

/-- What is reserved need not be expanded. -/
theorem Reserved.expandBy {n : ℕ} (h : l.Reserved n) (hle : l.cursor + n + l.slack ≤ 2 ^ 31) : l.expandBy n = l := by
  rw [expandBy_eq hle, if_pos h.room]

/-- An expansion reserves what it asks for. -/
theorem reserved_expandBy {n : ℕ} (h : l.cursor + n + l.slack ≤ 2 ^ 31) (hsize : l.size ≤ 2 ^ 31) :
    (l.expandBy n).Reserved n := by
  rw [expandBy_eq h]
  split_ifs with hroom
  · exact ⟨hroom, hsize⟩
  · obtain ⟨k, hk, hround, hle, -⟩ :=
      @exists_roundPowOfTwo (l.cursor + n + l.slack) (by omega) (by omega)
    rw [hround]
    exact ⟨hle, Nat.pow_le_pow_right (by norm_num) (by omega)⟩

/-! ## Appending -/

theorem append_nil (h : l.cursor < 2 ^ 32) : l.append [] = l := by
  unfold append
  rw [Mem.write_nil, List.length_nil, add32, Nat.add_zero, Nat.mod_eq_of_lt h]
  simp

/-- Two texts are appended one after the other. -/
theorem append_append {xs ys : List UInt8} (h : l.cursor + xs.length < 2 ^ 32) :
    (l.append xs).append ys = l.append (xs ++ ys) := by
  have hcursor : add32 l.cursor xs.length = l.cursor + xs.length := Nat.mod_eq_of_lt h
  have hinside : (decide (xs = [] ∨ l.cursor + xs.length ≤ l.size) &&
      decide (ys = [] ∨ l.cursor + xs.length + ys.length ≤ l.size)) =
        decide (xs ++ ys = [] ∨ l.cursor + (xs.length + ys.length) ≤ l.size) := by
    rw [← Bool.decide_and]
    refine decide_eq_decide.2 ?_
    cases ys with
    | nil => simp
    | cons y ys =>
      simp only [List.length_cons, List.append_eq_nil_iff, reduceCtorEq, and_false, false_or]
      constructor
      · rintro ⟨-, h⟩
        omega
      · exact fun h => ⟨.inr (by omega), by omega⟩
  unfold append
  simp only [hcursor, Mem.write_append, List.length_append, Bool.and_assoc, hinside]
  rw [add32, add32, Nat.add_assoc]

/-- A character is appended. -/
theorem push_eq_append (l : Layout) (c : UInt8) : l.push c = l.append [c] := by
  unfold push write append
  simp only [Mem.poke_eq_write, List.length_singleton, false_or, List.cons_ne_nil, Nat.lt_iff_add_one_le]

theorem foldl_push_eq {bs : List UInt8} (h : l.cursor + bs.length < 2 ^ 32) : bs.foldl push l = l.append bs := by
  induction bs generalizing l with
  | nil => exact (append_nil (by simpa using h)).symm
  | cons c bs ih =>
    rw [List.length_cons] at h
    have hcursor : (l.append [c]).cursor = l.cursor + 1 := Nat.mod_eq_of_lt (show l.cursor + 1 < 2 ^ 32 by omega)
    rw [List.foldl_cons, push_eq_append, ih (by rw [hcursor]; omega), append_append (show l.cursor + 1 < 2 ^ 32 by omega)]
    rfl

theorem foldl_push {cs : List ℕ} (h : l.cursor + cs.length < 2 ^ 32) :
    cs.foldl (fun l c => l.push (UInt8.ofNat c)) l = l.append (cs.map UInt8.ofNat) := by
  rw [← foldl_push_eq (by rwa [List.length_map]), List.foldl_map]

/-! ## What is appended -/

/-- What is left of a text: the text itself, in the vector and behind the cursor. -/
structure Appended (l : Layout) (bs : List UInt8) (l' : Layout) : Prop where
  slice : l'.content.slice l.cursor bs.length = bs
  before : ∀ x < l.cursor, x < l.size → l'.content x = l.content x
  cursor : l'.cursor = l.cursor + bs.length
  writesInside : l'.writesInside = l.writesInside

/-- A text with room for it is appended. -/
theorem appended_expandBy {n : ℕ} {bs : List UInt8} (hbs : bs.length ≤ n) (hroom : l.cursor + n + l.slack ≤ 2 ^ 31)
    (hsize : l.size ≤ 2 ^ 31) : Appended l bs ((l.expandBy n).append bs) := by
  have hreserved := reserved_expandBy hroom hsize
  have heq := @expandBy_eq l n hroom
  obtain ⟨L, hL⟩ : ∃ L, l.expandBy n = L := ⟨_, rfl⟩
  rw [hL] at hreserved heq ⊢
  have hcursor : L.cursor = l.cursor := hL ▸ cursor_expandBy l n
  have hinside : L.writesInside = l.writesInside := by
    rw [heq]
    split_ifs <;> rfl
  have hbefore : ∀ x < l.size, L.content x = l.content x := fun x hx => hL ▸ content_expandBy n hx
  have hle := hreserved.room
  refine ⟨?_, fun x hx hx' => ?_, ?_, ?_⟩
  · change (L.content.write L.cursor bs).slice l.cursor bs.length = bs
    rw [hcursor, Mem.slice_write]
  · change L.content.write L.cursor bs x = l.content x
    rw [Mem.write_apply_of_lt _ _ (by omega), hbefore x hx']
  · change add32 L.cursor bs.length = _
    rw [hcursor]
    exact Nat.mod_eq_of_lt (by omega)
  · change (L.writesInside && decide (bs = [] ∨ L.cursor + bs.length ≤ L.size)) = _
    rw [decide_eq_true (.inr (by omega)), Bool.and_true, hinside]

end QLog.Layout
