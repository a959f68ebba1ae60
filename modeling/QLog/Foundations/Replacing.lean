import Mathlib

/-!
# Replacing and escaping

`replaceAll src dst xs` replaces the occurrences of `src` from left to right. For a pair it follows the
equation `replaceAll_pair_cons`. A text is escaped by writing a sign and a mark for some of its elements;
replacing the pair of sign and mark takes one element out of the escaped ones
(`replaceAll_escapeWith_of_marked`, `replaceAll_escapeWith_of_free`).
-/

namespace QLog

variable {α : Type*}

section Replacing

variable [DecidableEq α]

/-- The scan for `src`; `skip` elements of the last occurrence are still to be passed over. -/
def replaceFrom (src dst : List α) : ℕ → List α → List α
  | _, [] => []
  | skip + 1, _ :: xs => replaceFrom src dst skip xs
  | 0, x :: xs =>
    if src <+: x :: xs then dst ++ replaceFrom src dst (src.length - 1) xs
    else x :: replaceFrom src dst 0 xs

/-- Every occurrence of `src` is replaced by `dst`. -/
def replaceAll (src dst xs : List α) : List α := replaceFrom src dst 0 xs

variable {a b c x : α} {dst xs ys : List α}

@[simp] theorem replaceAll_nil (src : List α) : replaceAll src dst [] = [] := rfl

theorem replaceFrom_one (src : List α) : replaceFrom src dst 1 xs = replaceAll src dst xs.tail := by
  cases xs with
  | nil => rfl
  | cons x xs => rfl

/-- **A pair** is replaced where it stands. -/
theorem replaceAll_pair_cons : replaceAll [a, b] dst (x :: xs) =
    if x = a ∧ xs.head? = some b then dst ++ replaceAll [a, b] dst xs.tail
    else x :: replaceAll [a, b] dst xs := by
  have hpair : [a, b] <+: x :: xs ↔ x = a ∧ xs.head? = some b := by
    cases xs <;> simp [List.cons_prefix_cons, eq_comm]
  unfold replaceAll
  rw [replaceFrom, if_congr hpair rfl rfl]
  split
  · rw [List.length_cons, List.length_singleton, Nat.add_sub_cancel, replaceFrom_one]
    rfl
  · rfl

/-- A single element is taken out. -/
theorem replaceAll_singleton_nil : replaceAll [a] [] xs = xs.filter (· ≠ a) := by
  induction xs with
  | nil => rfl
  | cons x xs ih =>
    have hone : [a] <+: x :: xs ↔ x = a := by simp [List.cons_prefix_cons, eq_comm]
    have hcons : replaceAll [a] [] (x :: xs) =
        if x = a then replaceAll [a] [] xs else x :: replaceAll [a] [] xs := by
      unfold replaceAll
      rw [replaceFrom, if_congr hone rfl rfl]
      rfl
    rw [hcons, ih]
    split
    · rename_i hx
      rw [List.filter_cons_of_neg (by simpa using hx)]
    · rename_i hx
      rw [List.filter_cons_of_pos (by simpa using hx)]

/-- Induction along the places of a pair. -/
theorem pair_induction {motive : List α → Prop} (a b : α) (nil : motive [])
    (pair : ∀ xs, motive xs → motive (a :: b :: xs))
    (cons : ∀ x xs, ¬(x = a ∧ xs.head? = some b) → motive xs → motive (x :: xs)) (xs : List α) :
    motive xs := by
  induction hn : xs.length using Nat.strong_induction_on generalizing xs with
  | h n ih =>
    cases xs with
    | nil => exact nil
    | cons x xs =>
      by_cases hx : x = a ∧ xs.head? = some b
      · obtain ⟨rfl, hhead⟩ := hx
        obtain ⟨ys, rfl⟩ := List.head?_eq_some_iff.1 hhead
        exact pair ys (ih ys.length (by simp at hn; omega) ys rfl)
      · exact cons x xs hx (ih xs.length (by simp at hn; omega) xs rfl)

theorem replaceAll_pair : replaceAll [a, b] dst (a :: b :: xs) = dst ++ replaceAll [a, b] dst xs := by
  rw [replaceAll_pair_cons, if_pos ⟨rfl, rfl⟩, List.tail_cons]

theorem replaceAll_cons (h : ¬(x = a ∧ xs.head? = some b)) :
    replaceAll [a, b] dst (x :: xs) = x :: replaceAll [a, b] dst xs := by
  rw [replaceAll_pair_cons, if_neg h]

theorem mem_of_mem_replaceAll {y : α} (h : y ∈ replaceAll [a, b] dst xs) : y ∈ dst ∨ y ∈ xs := by
  induction xs using pair_induction a b with
  | nil => exact Or.inr h
  | pair xs ih =>
    rw [replaceAll_pair] at h
    rcases List.mem_append.1 h with h | h
    · exact Or.inl h
    · exact (ih h).imp_right fun hy => List.mem_cons_of_mem _ (List.mem_cons_of_mem _ hy)
  | cons x xs hx ih =>
    rw [replaceAll_cons hx] at h
    rcases List.mem_cons.1 h with rfl | h
    · exact Or.inr List.mem_cons_self
    · exact (ih h).imp_right (List.mem_cons_of_mem _)

/-- The first element of the result is the new one, or was the first one before. -/
theorem head?_replaceAll {y : α} (h : (replaceAll [a, b] [c] xs).head? = some y) :
    y = c ∨ xs.head? = some y := by
  cases xs with
  | nil => cases h
  | cons x xs =>
    rw [replaceAll_pair_cons] at h
    split at h
    · exact Or.inl (Option.some.inj h).symm
    · exact Or.inr h

theorem replaceAll_eq_nil_iff : replaceAll [a, b] [c] xs = [] ↔ xs = [] := by
  cases xs with
  | nil => simp
  | cons x xs =>
    rw [replaceAll_pair_cons]
    split <;> simp

/-- The last element of the result is the new one, or was the last one before. -/
theorem getLast?_replaceAll {y : α} (h : (replaceAll [a, b] [c] xs).getLast? = some y) :
    y = c ∨ xs.getLast? = some y := by
  -- an empty rest leaves the last element where it is
  have hcons : ∀ (z : α) (zs : List α), zs ≠ [] → (z :: zs).getLast? = zs.getLast? := by
    intro z zs hne
    rw [List.getLast?_cons, List.getLast?_eq_some_getLast hne]
    rfl
  induction xs using pair_induction a b with
  | nil => cases h
  | pair xs ih =>
    rw [replaceAll_pair, List.singleton_append] at h
    by_cases hxs : xs = []
    · rw [hxs] at h
      exact Or.inl (Option.some.inj h).symm
    · rw [hcons _ _ (replaceAll_eq_nil_iff.not.2 hxs)] at h
      rw [hcons _ _ (List.cons_ne_nil _ _), hcons _ _ hxs]
      exact ih h
  | cons x xs hx ih =>
    rw [replaceAll_cons hx] at h
    by_cases hxs : xs = []
    · rw [hxs] at h ⊢
      exact Or.inr h
    · rw [hcons _ _ (replaceAll_eq_nil_iff.not.2 hxs)] at h
      rw [hcons _ _ hxs]
      exact ih h

theorem length_replaceAll_le : (replaceAll [a, b] [c] xs).length ≤ xs.length := by
  induction xs using pair_induction a b with
  | nil => exact le_rfl
  | pair xs ih =>
    rw [replaceAll_pair]
    simp only [List.singleton_append, List.length_cons]
    omega
  | cons x xs hx ih =>
    rw [replaceAll_cons hx, List.length_cons, List.length_cons]
    exact Nat.succ_le_succ ih

/-- **Nothing changes** exactly if the pair does not occur. -/
theorem replaceAll_eq_self_iff : replaceAll [a, b] [c] xs = xs ↔ ¬[a, b] <:+: xs := by
  induction xs using pair_induction a b with
  | nil => simp
  | pair xs ih =>
    have hle : (replaceAll [a, b] [c] xs).length ≤ xs.length := length_replaceAll_le
    refine iff_of_false (fun heq => ?_) (not_not.2 ⟨[], xs, by simp⟩)
    have hlength := congrArg List.length heq
    rw [replaceAll_pair] at hlength
    simp only [List.singleton_append, List.length_cons] at hlength
    omega
  | cons x xs hx ih =>
    have hprefix : ¬[a, b] <+: x :: xs := by
      rintro ⟨ys, hys⟩
      obtain ⟨rfl, rfl⟩ := List.cons.inj hys
      exact hx ⟨rfl, rfl⟩
    rw [replaceAll_cons hx, List.cons_inj_right, ih, List.infix_cons_iff, or_iff_right hprefix]

end Replacing

/-! ## Escaping -/

section Escaping

/-- Every element that has a mark is written as the sign and its mark. -/
def escapeWith (sign : α) (mark : α → Option α) (xs : List α) : List α :=
  xs.flatMap fun x => (mark x).elim [x] fun m => [sign, m]

variable {sign m c x : α} {mark : α → Option α} {xs : List α}

@[simp] theorem escapeWith_nil : escapeWith sign mark [] = [] := rfl

theorem escapeWith_cons_of_some (h : mark x = some m) :
    escapeWith sign mark (x :: xs) = sign :: m :: escapeWith sign mark xs := by
  simp [escapeWith, h]

theorem escapeWith_cons_of_none (h : mark x = none) :
    escapeWith sign mark (x :: xs) = x :: escapeWith sign mark xs := by
  simp [escapeWith, h]

/-- Nothing is escaped without marks. -/
@[simp] theorem escapeWith_none : escapeWith sign (fun _ => none) xs = xs := by simp [escapeWith]

/-- An escaped text begins with what is not the sign only if the text does. -/
theorem head?_escapeWith (hm : m ≠ sign) :
    (escapeWith sign mark xs).head? = some m ↔ xs.head? = some m ∧ mark m = none := by
  cases xs with
  | nil => simp
  | cons x xs =>
    cases hx : mark x with
    | none =>
      rw [escapeWith_cons_of_none hx]
      simp only [List.head?_cons, Option.some.injEq]
      exact ⟨fun h => ⟨h, h ▸ hx⟩, fun h => h.1⟩
    | some k =>
      rw [escapeWith_cons_of_some hx]
      simp only [List.head?_cons, Option.some.injEq]
      refine iff_of_false (Ne.symm hm) fun h => ?_
      rw [h.1, h.2] at hx
      cases hx

variable [DecidableEq α] (hsign : mark sign = none) (hc : mark c = some m) (hm : m ≠ sign)
  (hmark : ∀ x, mark x = some m → x = c) (hne : ∀ x, mark x ≠ some sign)

include hc hm hmark hne

/-- A turn of the replacement on an escaped text. -/
theorem replaceAll_escapeWith_cons (h : ¬(x = sign ∧ xs.head? = some m ∧ mark m = none)) :
    replaceAll [sign, m] [c] (escapeWith sign mark (x :: xs)) =
      (Function.update mark c none x).elim [x] (fun k => [sign, k]) ++
        replaceAll [sign, m] [c] (escapeWith sign mark xs) := by
  cases hx : mark x with
  | none =>
    have hupdate : Function.update mark c none x = none := by
      rw [Function.update_apply]
      split
      · rfl
      · exact hx
    rw [escapeWith_cons_of_none hx, hupdate, replaceAll_cons fun heq =>
      h ⟨heq.1, (head?_escapeWith hm).1 heq.2⟩]
    rfl
  | some k =>
    rw [escapeWith_cons_of_some hx]
    by_cases hk : k = m
    · obtain rfl := hk
      obtain rfl := hmark x hx
      rw [replaceAll_pair, Function.update_self]
      rfl
    · have hxc : x ≠ c := fun heq => hk (Option.some.inj ((heq ▸ hx).symm.trans hc))
      have hks : k ≠ sign := fun heq => hne x (heq ▸ hx)
      rw [Function.update_of_ne hxc, hx, replaceAll_cons (by simp [hk]),
        replaceAll_cons fun heq => hks heq.1]
      rfl

/-- **A mark that is escaped itself.** The replacement takes its element out of the escaped ones. -/
theorem replaceAll_escapeWith_of_marked (hself : mark m ≠ none) :
    replaceAll [sign, m] [c] (escapeWith sign mark xs) =
      escapeWith sign (Function.update mark c none) xs := by
  induction xs with
  | nil => rfl
  | cons x xs ih =>
    rw [replaceAll_escapeWith_cons hc hm hmark hne fun h => hself h.2.2, ih]
    rfl

include hsign in
/-- **A mark that is not escaped itself.** Pairs of sign and mark in the text are replaced as well. -/
theorem replaceAll_escapeWith_of_free (hself : mark m = none) :
    replaceAll [sign, m] [c] (escapeWith sign mark xs) =
      escapeWith sign (Function.update mark c none) (replaceAll [sign, m] [c] xs) := by
  induction xs using pair_induction sign m with
  | nil => rfl
  | pair xs ih =>
    rw [escapeWith_cons_of_none hsign, escapeWith_cons_of_none hself, replaceAll_pair, replaceAll_pair, ih,
      List.singleton_append, List.singleton_append,
      escapeWith_cons_of_none (Function.update_self c none mark)]
  | cons x xs hx ih =>
    rw [replaceAll_escapeWith_cons hc hm hmark hne fun h => hx ⟨h.1, h.2.1⟩, ih, replaceAll_cons hx]
    rfl

end Escaping

end QLog
