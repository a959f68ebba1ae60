import Mathlib

/-!
# Singly linked lists walked by one thread

A linked list is the list of the names of its nodes. A walk names the node it stands on and the node
before it; `nextOf` goes on, `pushAfter` links a node in behind another and `removeAfter` unlinks one
whose predecessor is known. The lemmas evaluate them on a list that is split at the node.
-/

namespace QLog

theorem not_mem_of_nodup_append {α : Type*} {pre post : List α} {b : α}
    (h : (pre ++ b :: post).Nodup) : b ∉ pre := by
  rw [List.nodup_append] at h
  exact fun hb => h.2.2 b hb b List.mem_cons_self rfl

variable {α : Type*} [DecidableEq α]

/-- What follows a node. -/
def afterOf (l : List α) (b : α) : List α := (l.dropWhile (· ≠ b)).tail

/-- The node that follows a node. -/
def nextOf (l : List α) (b : α) : Option α := (afterOf l b).head?

/-- Link `b` in behind `prev`, in front if there is none. -/
def pushAfter (l : List α) (prev : Option α) (b : α) : List α :=
  match prev with
  | none => b :: l
  | some p => l.takeWhile (· ≠ p) ++ p :: b :: afterOf l p

/-- Unlink `b`: the list goes on behind `prev` with what follows `b`. -/
def removeAfter (l : List α) (prev : Option α) (b : α) : List α :=
  match prev with
  | none => afterOf l b
  | some p => l.takeWhile (· ≠ p) ++ p :: afterOf l b

variable {pre post l : List α} {b p c : α}

theorem afterOf_append (h : b ∉ pre) : afterOf (pre ++ b :: post) b = post := by
  have hdrop : (pre ++ b :: post).dropWhile (· ≠ b) = b :: post := by
    rw [List.dropWhile_append_of_pos]
    · simp
    · intro x hx
      simpa using fun hxb : x = b => h (hxb ▸ hx)
  rw [afterOf, hdrop, List.tail_cons]

theorem takeWhile_ne_append (h : b ∉ pre) : (pre ++ b :: post).takeWhile (· ≠ b) = pre := by
  rw [List.takeWhile_append_of_pos]
  · simp
  · intro x hx
    simpa using fun hxb : x = b => h (hxb ▸ hx)

theorem nextOf_append (h : b ∉ pre) : nextOf (pre ++ b :: post) b = post.head? := by
  rw [nextOf, afterOf_append h]

theorem mem_of_mem_afterOf (h : c ∈ afterOf l b) : c ∈ l :=
  (List.dropWhile_sublist _).subset (List.mem_of_mem_tail h)

theorem mem_of_nextOf (h : nextOf l b = some c) : c ∈ l :=
  mem_of_mem_afterOf (List.mem_of_head? h)

/-- Only a node of the list has something behind it. -/
theorem mem_of_afterOf (h : c ∈ afterOf l b) : b ∈ l := by
  by_contra hb
  have hnil : l.dropWhile (· ≠ b) = [] := by
    rw [List.dropWhile_eq_nil_iff]
    intro x hx
    simpa using fun hxb : x = b => hb (hxb ▸ hx)
  rw [afterOf, hnil] at h
  cases h

theorem not_mem_afterOf_self (hl : l.Nodup) : b ∉ afterOf l b := by
  by_cases hb : b ∈ l
  · obtain ⟨pre, post, rfl, hpre⟩ := List.eq_append_cons_of_mem hb
    rw [afterOf_append hpre]
    exact (List.nodup_cons.mp (List.nodup_append.mp hl).2.1).1
  · exact fun h => hb (mem_of_mem_afterOf h)

/-- The nodes behind the next node are behind the node. -/
theorem afterOf_subset_of_nextOf (hl : l.Nodup) (h : nextOf l b = some c) :
    ∀ x ∈ afterOf l c, x ∈ afterOf l b := by
  by_cases hb : b ∈ l
  · obtain ⟨pre, post, rfl, hpre⟩ := List.eq_append_cons_of_mem hb
    rw [nextOf_append hpre] at h
    obtain ⟨post, rfl⟩ : ∃ post', post = c :: post' := by
      cases post with
      | nil => cases h
      | cons d post =>
        obtain rfl : d = c := by simpa using h
        exact ⟨post, rfl⟩
    intro x hx
    rw [afterOf_append hpre]
    have hsplit : pre ++ b :: c :: post = (pre ++ [b]) ++ c :: post := by simp
    rw [hsplit] at hl hx
    rw [afterOf_append (not_mem_of_nodup_append hl)] at hx
    exact List.mem_cons_of_mem _ hx
  · exact absurd (mem_of_afterOf (List.mem_of_head? h)) hb

/-- A new first node changes nothing behind the others. -/
theorem afterOf_cons_of_ne (h : c ≠ b) : afterOf (c :: l) b = afterOf l b := by
  rw [afterOf, List.dropWhile_cons_of_pos (by simpa using h), afterOf]

/-- Another node unlinked: what follows stays, less that node. -/
theorem afterOf_erase (h : c ≠ b) : afterOf (l.erase c) b ⊆ afterOf l b := by
  induction l with
  | nil => exact fun _ hx => hx
  | cons a l ih =>
    rcases eq_or_ne a c with rfl | hac
    · rw [List.erase_cons_head, afterOf_cons_of_ne h]
      exact fun _ hx => hx
    · rw [List.erase_cons_tail (by simpa using hac)]
      rcases eq_or_ne a b with rfl | hab
      · intro x hx
        have hx' : x ∈ l.erase c := by simpa [afterOf] using hx
        simpa [afterOf] using List.mem_of_mem_erase hx'
      · rw [afterOf_cons_of_ne hab, afterOf_cons_of_ne hab]
        exact ih

/-- On the way to a node one comes from the front to the node or to one before it. -/
theorem exists_head_of_mem (h : c ∈ l) : ∃ d, l.head? = some d ∧ (d = c ∨ c ∈ afterOf l d) := by
  cases l with
  | nil => cases h
  | cons d l =>
    refine ⟨d, rfl, (List.mem_cons.mp h).imp Eq.symm fun h => ?_⟩
    simpa [afterOf] using h

/-- The same from a node that lies before it. -/
theorem exists_next_of_mem (hl : l.Nodup) (h : c ∈ afterOf l b) :
    ∃ d, nextOf l b = some d ∧ (d = c ∨ c ∈ afterOf l d) := by
  have hb := mem_of_afterOf h
  obtain ⟨pre, post, rfl, hpre⟩ := List.eq_append_cons_of_mem hb
  rw [afterOf_append hpre] at h
  rw [nextOf_append hpre]
  obtain ⟨d, hd, hcase⟩ := exists_head_of_mem h
  refine ⟨d, hd, hcase.imp_right fun hc => ?_⟩
  obtain ⟨post, rfl⟩ := List.head?_eq_some_iff.mp hd
  have hsplit : pre ++ b :: d :: post = (pre ++ [b]) ++ d :: post := by simp
  rw [hsplit] at hl ⊢
  rw [afterOf_append (not_mem_of_nodup_append hl)]
  simpa [afterOf] using hc

/-- What comes after another element is not the head. -/
theorem head_ne_of_nextOf (hl : l.Nodup) (h : nextOf l b = some c) : l.head? ≠ some c := by
  intro hhead
  obtain ⟨l', rfl⟩ := List.head?_eq_some_iff.mp hhead
  rcases eq_or_ne c b with rfl | hne
  · exact not_mem_afterOf_self hl (List.mem_of_head? h)
  · rw [nextOf, afterOf_cons_of_ne hne] at h
    exact (List.nodup_cons.mp hl).1 (mem_of_nextOf h)

/-- The next node unlinked: the list goes on behind it. -/
theorem nextOf_erase (hl : l.Nodup) (h : nextOf l b = some c) : nextOf (l.erase c) b = nextOf l c := by
  have hb := mem_of_afterOf (List.mem_of_head? h)
  obtain ⟨pre, post, rfl, hpre⟩ := List.eq_append_cons_of_mem hb
  rw [nextOf_append hpre] at h
  obtain ⟨post, rfl⟩ := List.head?_eq_some_iff.mp h
  have hsplit : pre ++ b :: c :: post = (pre ++ [b]) ++ c :: post := by simp
  have hc : c ∉ pre ++ [b] := not_mem_of_nodup_append (hsplit ▸ hl)
  rw [hsplit, nextOf_append hc, List.erase_append_right _ hc, List.erase_cons_head, List.append_assoc,
    List.singleton_append, nextOf_append hpre]

theorem mem_pushAfter_self (l : List α) (prev : Option α) (b : α) : b ∈ pushAfter l prev b := by
  cases prev <;> simp [pushAfter]

theorem mem_pushAfter_of_mem {prev : Option α} (h : c ∈ l) : c ∈ pushAfter l prev b := by
  cases prev with
  | none => exact List.mem_cons_of_mem b h
  | some p =>
    rw [← List.takeWhile_append_dropWhile (p := fun x => decide (x ≠ p)) (l := l), List.mem_append] at h
    rw [pushAfter, List.mem_append, List.mem_cons, List.mem_cons]
    rcases h with h | h
    · exact .inl h
    · rw [afterOf]
      cases hdrop : l.dropWhile (· ≠ p) with
      | nil =>
        rw [hdrop] at h
        cases h
      | cons x rest =>
        have hx : x = p := by
          have := List.head?_dropWhile_not (fun y => decide (y ≠ p)) l
          rw [hdrop] at this
          simpa using this
        rw [hdrop, List.mem_cons, hx] at h
        exact .inr (h.imp id .inr)

theorem pushAfter_append_some (h : p ∉ pre) :
    pushAfter (pre ++ [p]) (some p) b = pre ++ [p, b] := by
  simp only [pushAfter, takeWhile_ne_append h, afterOf_append h]

theorem removeAfter_append_some (hp : p ∉ pre) (hb : b ∉ pre ++ [p]) :
    removeAfter (pre ++ p :: b :: post) (some p) b = pre ++ p :: post := by
  have hsplit : pre ++ p :: b :: post = (pre ++ [p]) ++ b :: post := by simp
  simp only [removeAfter, takeWhile_ne_append hp]
  rw [hsplit, afterOf_append hb]

theorem removeAfter_cons_none : removeAfter (b :: post) none b = post := by
  have h : afterOf ([] ++ b :: post) b = post := afterOf_append List.not_mem_nil
  simpa [removeAfter] using h

/-! ## Followers -/

/-- What follows a node, or the place in front of the list. -/
def Follows (l : List α) : Option α → Option α → Prop
  | none, next => l.head? = next
  | some p, next => ∃ pre post, l = pre ++ p :: post ∧ post.head? = next

namespace Follows

variable {prev next : Option α}

omit [DecidableEq α] in
theorem mem {p : α} (h : Follows l (some p) next) : p ∈ l := by
  obtain ⟨pre, post, rfl, -⟩ := h
  exact List.mem_append_right pre List.mem_cons_self

omit [DecidableEq α] in
theorem mem_next (h : Follows l prev (some b)) : b ∈ l := by
  cases prev with
  | none => exact List.mem_of_head? h
  | some p =>
    obtain ⟨pre, post, rfl, hpost⟩ := h
    exact List.mem_append_right pre (List.mem_cons_of_mem p (List.mem_of_head? hpost))

omit [DecidableEq α] in
/-- A node at the end changes no follower. -/
theorem append (h : Follows l prev (some c)) (b : α) : Follows (l ++ [b]) prev (some c) := by
  cases prev with
  | none =>
    have hl : l.head? = some c := h
    change (l ++ [b]).head? = some c
    rw [List.head?_append, hl, Option.some_or]
  | some p =>
    obtain ⟨pre, post, rfl, hpost⟩ := h
    refine ⟨pre, post ++ [b], by rw [List.append_assoc, List.cons_append], ?_⟩
    rw [List.head?_append, hpost, Option.some_or]

omit [DecidableEq α] in
/-- Behind the last node there is the new one. -/
theorem append_self (h : Follows l prev none) (b : α) : Follows (l ++ [b]) prev (some b) := by
  cases prev with
  | none =>
    obtain rfl : l = [] := List.head?_eq_none_iff.1 h
    rfl
  | some p =>
    obtain ⟨pre, post, rfl, hpost⟩ := h
    obtain rfl := List.head?_eq_none_iff.1 hpost
    exact ⟨pre, [b], by rw [List.append_assoc, List.singleton_append], rfl⟩

theorem pushAfter_eq (h : Follows l prev none) (hl : l.Nodup) (b : α) : pushAfter l prev b = l ++ [b] := by
  cases prev with
  | none =>
    obtain rfl : l = [] := List.head?_eq_none_iff.1 h
    rfl
  | some p =>
    obtain ⟨pre, post, rfl, hpost⟩ := h
    obtain rfl := List.head?_eq_none_iff.1 hpost
    rw [pushAfter_append_some (not_mem_of_nodup_append hl), List.append_assoc, List.singleton_append]

/-- Around a node that follows another one. -/
theorem split (h : Follows l prev (some b)) (hl : l.Nodup) :
    (prev = none ∧ ∃ post, l = b :: post ∧ removeAfter l prev b = post) ∨
      ∃ p pre post, prev = some p ∧ l = pre ++ p :: b :: post ∧ removeAfter l prev b = pre ++ p :: post := by
  cases prev with
  | none =>
    cases l with
    | nil => cases h
    | cons a l =>
      obtain rfl : a = b := Option.some.inj h
      exact .inl ⟨rfl, l, rfl, removeAfter_cons_none⟩
  | some p =>
    obtain ⟨pre, post, rfl, hpost⟩ := h
    cases post with
    | nil => cases hpost
    | cons a post =>
      obtain rfl : a = b := Option.some.inj hpost
      have hsplit : pre ++ p :: a :: post = (pre ++ [p]) ++ a :: post := by
        rw [List.append_assoc, List.singleton_append]
      exact .inr ⟨p, pre, post, rfl, rfl, removeAfter_append_some (not_mem_of_nodup_append hl)
        (not_mem_of_nodup_append (hsplit ▸ hl))⟩

theorem perm_removeAfter (h : Follows l prev (some b)) (hl : l.Nodup) :
    l.Perm (b :: removeAfter l prev b) := by
  rcases h.split hl with ⟨rfl, post, rfl, hpost⟩ | ⟨p, pre, post, rfl, rfl, hpost⟩
  · rw [hpost]
  · rw [hpost]
    have hsplit : pre ++ p :: b :: post = (pre ++ [p]) ++ b :: post := by
      rw [List.append_assoc, List.singleton_append]
    have hsplit' : pre ++ p :: post = (pre ++ [p]) ++ post := by
      rw [List.append_assoc, List.singleton_append]
    rw [hsplit, hsplit']
    exact List.perm_middle

/-- Without the node, what followed it follows the node in front of it. -/
theorem removeAfter (h : Follows l prev (some b)) (hb : Follows l (some b) next) (hl : l.Nodup) :
    Follows (removeAfter l prev b) prev next := by
  obtain ⟨pre', post', heq, hnext⟩ := hb
  rcases h.split hl with ⟨rfl, post, rfl, hpost⟩ | ⟨p, pre, post, rfl, rfl, hpost⟩
  · have hnil : pre' = [] := by
      cases pre' with
      | nil => rfl
      | cons a pre' =>
        obtain ⟨rfl, rfl⟩ : b = a ∧ post = pre' ++ b :: post' := by simpa using heq
        exact absurd (List.mem_append_right pre' List.mem_cons_self) (List.nodup_cons.1 hl).1
    subst hnil
    obtain rfl : post = post' := by simpa using heq
    rw [hpost]
    exact hnext
  · have hsplit : pre ++ p :: b :: post = (pre ++ [p]) ++ b :: post := by
      rw [List.append_assoc, List.singleton_append]
    have hb := not_mem_of_nodup_append (hsplit ▸ hl)
    have hb' := not_mem_of_nodup_append (heq ▸ hl)
    have hafter : post = post' := by
      have h₁ : afterOf ((pre ++ [p]) ++ b :: post) b = post := afterOf_append hb
      have h₂ : afterOf (pre' ++ b :: post') b = post' := afterOf_append hb'
      rw [← hsplit, heq] at h₁
      exact h₁.symm.trans h₂
    rw [hpost, hafter]
    exact ⟨pre, post', rfl, hnext⟩

end Follows

end QLog
