import Mathlib

/-!
# Groups that stay together

The members of a list belong to groups, and `w` is the list of their labels. `Contiguous w` says that no
member of another group stands between two of one group. Then the list is one block of every group, with
others around it (`Contiguous.exists_block`). It stays so when members go, when a member is put beside one
of its own group, and when a new group begins at the end.
-/

namespace QLog

variable {α β : Type*}

/-- Nothing stands between two equal labels. -/
def Contiguous (w : List β) : Prop := ∀ x y, [x, y, x].Sublist w → x = y

namespace Contiguous

variable {w w' p q : List β} {c : β}

theorem nil : Contiguous ([] : List β) := fun _ _ h => absurd h.length_le (by simp)

theorem sublist (h : Contiguous w) (hw : w'.Sublist w) : Contiguous w' := fun x y hxy => h x y (hxy.trans hw)

/-- A list without equal neighbours does not need the second one of two. -/
theorem sublist_of_double {u : List β} (hu : ∀ pre post, u ≠ pre ++ c :: c :: post)
    (h : u.Sublist (p ++ c :: c :: q)) : u.Sublist (p ++ c :: q) := by
  obtain ⟨pre, post, rfl, hpre, hpost⟩ := List.sublist_append_iff.1 h
  refine hpre.append ?_
  rcases List.sublist_cons_iff.1 hpost with hone | ⟨rest, rfl, hrest⟩
  · exact hone
  · rcases List.sublist_cons_iff.1 hrest with hnone | ⟨rest, rfl, -⟩
    · exact hnone.cons_cons c
    · exact absurd rfl (hu pre rest)

/-- A member beside one of its own group. -/
theorem double (h : Contiguous (p ++ c :: q)) : Contiguous (p ++ c :: c :: q) := by
  intro x y hxy
  by_contra hne
  refine hne (h x y (sublist_of_double (fun pre post heq => hne ?_) hxy))
  rcases pre with _ | ⟨z, _ | ⟨z', rest⟩⟩
  · obtain ⟨hx, hy, -⟩ : x = c ∧ y = c ∧ [x] = post := by simpa using heq
    exact hx.trans hy.symm
  · obtain ⟨-, hy, hx, -⟩ : x = z ∧ y = c ∧ x = c ∧ post = [] := by simpa using heq
    exact hx.trans hy.symm
  · have hlen := congrArg List.length heq
    simp at hlen
    omega

/-- A new group at the end. -/
theorem concat (h : Contiguous w) (hc : c ∉ w) : Contiguous (w ++ [c]) := by
  intro x y hxy
  obtain ⟨u, v, heq, hu, hv⟩ := List.sublist_append_iff.1 hxy
  rcases List.sublist_cons_iff.1 hv with hnil | ⟨rest, rfl, hrest⟩
  · rw [List.sublist_nil.1 hnil, List.append_nil] at heq
    exact h x y (heq ▸ hu)
  · obtain rfl := List.sublist_nil.1 hrest
    have hinit : [x, y] = u := by simpa using congrArg List.dropLast heq
    have hlast : x = c := by simpa using congrArg List.getLast? heq
    exact absurd (hu.subset (hinit ▸ List.mem_cons_self)) (hlast ▸ hc)

variable [DecidableEq β] {g : α → β} {l : List α}

/-- Behind the first member of a group come the others, and then none. -/
theorem exists_rest {a : α} {b : β} (h : Contiguous ((a :: l).map g)) (ha : g a = b) :
    ∃ mid post, l = mid ++ post ∧ (∀ x ∈ mid, g x = b) ∧ ∀ x ∈ post, g x ≠ b := by
  refine ⟨l.takeWhile (g · = b), l.dropWhile (g · = b), List.takeWhile_append_dropWhile.symm,
    fun x hx => by simpa using List.mem_takeWhile_imp hx, fun x hx hxb => ?_⟩
  cases hdrop : l.dropWhile (g · = b) with
  | nil =>
    rw [hdrop] at hx
    cases hx
  | cons y rest =>
    have hy := List.head?_dropWhile_not (g · = b) l
    rw [hdrop, List.head?_cons] at hy
    replace hy : g y ≠ b := by simpa using hy
    rw [hdrop] at hx
    rcases List.mem_cons.1 hx with rfl | hx
    · exact hy hxb
    · have hsub : [y, x].Sublist l := by
        refine List.Sublist.trans ?_ (List.dropWhile_sublist (g · = b))
        rw [hdrop]
        exact (List.singleton_sublist.2 hx).cons_cons y
      have hthree : [g a, g y, g x].Sublist ((a :: l).map g) := (hsub.cons_cons a).map g
      rw [hxb, ha] at hthree
      exact hy (h b (g y) hthree).symm

/-- The members of a group are one block of the list. -/
theorem exists_block (h : Contiguous (l.map g)) (b : β) :
    ∃ pre mid post, l = pre ++ mid ++ post ∧ (∀ a ∈ mid, g a = b) ∧ (∀ a ∈ pre ++ post, g a ≠ b) ∧
      l.find? (g · = b) = mid.head? := by
  cases hfind : l.find? (g · = b) with
  | none =>
    refine ⟨l, [], [], by simp, by simp, fun a ha => ?_, rfl⟩
    rw [List.append_nil] at ha
    simpa using List.find?_eq_none.1 hfind a ha
  | some a =>
    obtain ⟨ha, pre, rest, rfl, hpre⟩ := List.find?_eq_some_iff_append.1 hfind
    have hrest : Contiguous ((a :: rest).map g) := by
      refine h.sublist ?_
      rw [List.map_append]
      exact List.sublist_append_right _ _
    obtain ⟨mid, post, rfl, hmid, hpost⟩ := hrest.exists_rest (by simpa using ha)
    refine ⟨pre, a :: mid, post, by simp, ?_, ?_, rfl⟩
    · rintro x (_ | ⟨_, hx⟩)
      · simpa using ha
      · exact hmid x hx
    · intro x hx
      rcases List.mem_append.1 hx with hx | hx
      · simpa using hpre x hx
      · exact hpost x hx

end Contiguous

end QLog
