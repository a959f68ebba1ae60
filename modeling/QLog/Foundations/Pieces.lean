import Mathlib

/-!
# The pieces of a list

`pieces p xs` are the runs of `xs` between elements that satisfy `p`, without the empty ones. What the
pieces are follows from the equations `pieces_append_cons`, at a separator, and `pieces_of_forall`, for a
list without any.
-/

namespace QLog

variable {α β : Type*} {p : α → Bool}

/-- The runs between separators that are not empty. -/
def pieces (p : α → Bool) (xs : List α) : List (List α) := (xs.splitOnP p).filter fun piece => !piece.isEmpty

@[simp] theorem pieces_nil : pieces p [] = [] := by simp [pieces]

/-- **Pieces split at a separator.** -/
theorem pieces_append_cons {sep : α} (hsep : p sep = true) (xs ys : List α) :
    pieces p (xs ++ sep :: ys) = pieces p xs ++ pieces p ys := by
  rw [pieces, List.splitOnP_append_cons xs ys hsep, List.filter_append]
  rfl

/-- A separator in front belongs to no piece. -/
theorem pieces_cons {sep : α} (hsep : p sep = true) (xs : List α) : pieces p (sep :: xs) = pieces p xs :=
  pieces_append_cons hsep [] xs

/-- A list without separators is one piece. -/
theorem pieces_of_forall {xs : List α} (hne : xs ≠ []) (h : ∀ x ∈ xs, p x = false) :
    pieces p xs = [xs] := by
  rw [pieces, List.splitOnP_eq_singleton h]
  exact List.filter_cons_of_pos (by simpa using hne)

/-- A list without separators has at most the piece it is itself. -/
theorem pieces_run {run : List α} (h : ∀ x ∈ run, p x = false) :
    pieces p run = if run = [] then [] else [run] := by
  split
  · rename_i hnil
    rw [hnil, pieces_nil]
  · rename_i hne
    exact pieces_of_forall hne h

/-- Induction along the separators of a list. -/
@[elab_as_elim]
theorem runs_induction {motive : List α → Prop} (p : α → Bool)
    (run : ∀ run, (∀ x ∈ run, p x = false) → motive run)
    (sep : ∀ run sep rest, (∀ x ∈ run, p x = false) → p sep = true → motive rest →
      motive (run ++ sep :: rest)) (xs : List α) : motive xs := by
  -- `acc` is the run in front of what is left
  suffices h : ∀ acc, (∀ x ∈ acc, p x = false) → motive (acc ++ xs) from h [] fun x hx => by cases hx
  induction xs with
  | nil =>
    intro acc hacc
    rw [List.append_nil]
    exact run acc hacc
  | cons x xs ih =>
    intro acc hacc
    by_cases hx : p x = true
    · exact sep acc x xs hacc hx (ih [] fun y hy => by cases hy)
    · rw [List.append_cons]
      refine ih (acc ++ [x]) fun y hy => ?_
      rcases List.mem_append.1 hy with hy | hy
      · exact hacc y hy
      · rw [List.mem_singleton.1 hy]
        exact Bool.not_eq_true _ ▸ hx

/-- **No piece is empty, and none contains a separator.** -/
theorem mem_pieces {xs piece : List α} (h : piece ∈ pieces p xs) :
    piece ≠ [] ∧ ∀ x ∈ piece, p x = false := by
  have hone : ∀ run : List α, (∀ x ∈ run, p x = false) → piece ∈ pieces p run →
      piece ≠ [] ∧ ∀ x ∈ piece, p x = false := by
    intro run hrun hmem
    rw [pieces_run hrun] at hmem
    split at hmem
    · cases hmem
    · rename_i hne
      obtain rfl := List.mem_singleton.1 hmem
      exact ⟨hne, hrun⟩
  induction xs using runs_induction p with
  | run run hrun => exact hone run hrun h
  | sep run sep rest hrun hsep ih =>
    rw [pieces_append_cons hsep, List.mem_append] at h
    exact h.elim (hone run hrun) ih

/-- Pieces of an image are images of pieces. -/
theorem pieces_map (f : β → α) (xs : List β) :
    pieces p (xs.map f) = (pieces (p ∘ f) xs).map (List.map f) := by
  have hone : ∀ run : List β, (∀ x ∈ run, (p ∘ f) x = false) →
      pieces p (run.map f) = (pieces (p ∘ f) run).map (List.map f) := by
    intro run hrun
    rw [pieces_run hrun, pieces_run (p := p) (List.forall_mem_map.2 hrun)]
    cases run <;> rfl
  induction xs using runs_induction (p ∘ f) with
  | run run hrun => exact hone run hrun
  | sep run sep rest hrun hsep ih =>
    rw [pieces_append_cons (p := p ∘ f) hsep, List.map_append, List.map_append, List.map_cons,
      pieces_append_cons (p := p) hsep, hone run hrun, ih]

/-- **Pieces are read back from their concatenation with a separator between them.** -/
theorem pieces_intercalate {sep : α} (hsep : p sep = true) {parts : List (List α)}
    (h : ∀ part ∈ parts, part ≠ [] ∧ ∀ x ∈ part, p x = false) :
    pieces p ([sep].intercalate parts) = parts := by
  induction parts with
  | nil => simp
  | cons part parts ih =>
    obtain ⟨⟨hne, hpart⟩, hparts⟩ := List.forall_mem_cons.1 h
    cases parts with
    | nil => rw [List.intercalate_singleton, pieces_of_forall hne hpart]
    | cons part' parts =>
      rw [List.intercalate_cons_cons, List.append_assoc, List.singleton_append, pieces_append_cons hsep,
        pieces_of_forall hne hpart, ih hparts, List.singleton_append]

end QLog
