import QLog.Foundations.Linked

/-!
# Chains of linked nodes

A node names the node that follows it in a memory `next`; a pointer is a node or nothing. `IsChain next p
l` says that the nodes of `l` are what one meets from the pointer `p` on, up to the end. A pointer has at
most one chain, a chain has no node twice, and it only depends on the links of its own nodes
(`IsChain.unique`, `IsChain.nodup`, `IsChain.congr`). The updates of an intrusive list are one store each,
or two: in front, behind a node, and around a node.
-/

namespace QLog

variable {α : Type*}

/-- What one meets from the pointer on is the list. -/
def IsChain (next : α → Option α) : Option α → List α → Prop
  | p, [] => p = none
  | p, a :: l => p = some a ∧ IsChain next (next a) l

namespace IsChain

variable {next next' : α → Option α} {p : Option α} {l l' pre post : List α} {a b : α}

@[simp] theorem nil_iff : IsChain next p [] ↔ p = none := Iff.rfl

@[simp] theorem cons_iff : IsChain next p (a :: l) ↔ p = some a ∧ IsChain next (next a) l := Iff.rfl

/-- The pointer is empty exactly when the chain is. -/
theorem eq_nil_iff (h : IsChain next p l) : p = none ↔ l = [] := by
  cases l with
  | nil => exact ⟨fun _ => rfl, fun _ => h⟩
  | cons a l =>
    obtain ⟨rfl, -⟩ := h
    exact ⟨fun h => (by cases h), fun h => (by cases h)⟩

theorem head?_eq (h : IsChain next p l) : l.head? = p := by
  cases l with
  | nil => exact h.symm
  | cons a l => exact h.1.symm

/-- A pointer that is not empty is the first node. -/
theorem exists_cons (h : IsChain next (some a) l) : ∃ rest, l = a :: rest ∧ IsChain next (next a) rest := by
  cases l with
  | nil => cases h
  | cons b rest =>
    obtain ⟨hb, hrest⟩ := h
    obtain rfl := Option.some.inj hb
    exact ⟨rest, rfl, hrest⟩

theorem unique (h : IsChain next p l) (h' : IsChain next p l') : l = l' := by
  induction l generalizing p l' with
  | nil => exact ((h'.eq_nil_iff).1 h).symm
  | cons a l ih =>
    obtain ⟨rfl, hrest⟩ := h
    obtain ⟨rest, rfl, hrest'⟩ := h'.exists_cons
    rw [ih hrest hrest']

/-- The chain from a node of the chain on. -/
theorem of_append (h : IsChain next p (pre ++ b :: post)) : IsChain next (next b) post := by
  induction pre generalizing p with
  | nil => exact h.2
  | cons a pre ih => exact ih h.2

/-- No node twice: from there on the chain would be its own rest. -/
theorem nodup (h : IsChain next p l) : l.Nodup := by
  induction l generalizing p with
  | nil => exact List.nodup_nil
  | cons a l ih =>
    refine List.nodup_cons.2 ⟨fun ha => ?_, ih h.2⟩
    obtain ⟨pre, post, rfl⟩ := List.append_of_mem ha
    have heq := h.2.unique h.2.of_append
    have hlen := congrArg List.length heq
    rw [List.length_append, List.length_cons] at hlen
    omega

/-- Only the links of its own nodes matter. -/
theorem congr (h : IsChain next p l) (heq : ∀ a ∈ l, next' a = next a) : IsChain next' p l := by
  induction l generalizing p with
  | nil => exact h
  | cons a l ih =>
    refine ⟨h.1, ?_⟩
    rw [heq a List.mem_cons_self]
    exact ih h.2 fun b hb => heq b (List.mem_cons_of_mem a hb)

/-- The pointer is the first node, and a link is the follower. -/
theorem follows_none (h : IsChain next p l) {q : Option α} (hq : Follows l none q) : p = q :=
  h.head?_eq.symm.trans hq

theorem follows_some (h : IsChain next p l) {q : Option α} (hq : Follows l (some a) q) : next a = q := by
  obtain ⟨pre, post, rfl, hpost⟩ := hq
  exact h.of_append.head?_eq.symm.trans hpost

/-- The node behind a node of the chain is in the chain. -/
theorem mem_of_next (h : IsChain next p l) (ha : a ∈ l) (hab : next a = some b) : b ∈ l := by
  obtain ⟨pre, post, rfl⟩ := List.append_of_mem ha
  have hpost := h.of_append
  rw [hab] at hpost
  obtain ⟨rest, rfl, -⟩ := hpost.exists_cons
  exact List.mem_append_right pre (List.mem_cons_of_mem a List.mem_cons_self)

/-- No link leads back to the first node. -/
theorem next_ne_head (h : IsChain next (some b) l) (ha : a ∈ l) : next a ≠ some b := fun hab => by
  obtain ⟨pre, post, rfl⟩ := List.append_of_mem ha
  have hpost := h.of_append
  rw [hab] at hpost
  obtain ⟨rest, rfl, -⟩ := hpost.exists_cons
  have hsplit : pre ++ a :: b :: rest = (pre ++ [a]) ++ b :: rest := by
    rw [List.append_assoc, List.singleton_append]
  have hnot := not_mem_of_nodup_append (hsplit ▸ h.nodup)
  have hhead := h.head?_eq
  cases pre with
  | nil =>
    obtain rfl := Option.some.inj hhead
    exact hnot List.mem_cons_self
  | cons x pre =>
    obtain rfl := Option.some.inj hhead
    exact hnot List.mem_cons_self

/-- Two links do not lead to one node. -/
theorem eq_of_next (h : IsChain next p l) {c : α} (ha : a ∈ l) (hb : b ∈ l) (hac : next a = some c)
    (hbc : next b = some c) : a = b := by
  induction l generalizing p with
  | nil => cases ha
  | cons x l ih =>
    rcases List.mem_cons.1 ha with rfl | ha'
    · rcases List.mem_cons.1 hb with rfl | hb'
      · rfl
      · exact absurd hbc ((hac ▸ h.2).next_ne_head hb')
    · rcases List.mem_cons.1 hb with rfl | hb'
      · exact absurd hac ((hbc ▸ h.2).next_ne_head ha')
      · exact ih h.2 ha' hb'

variable [DecidableEq α]

/-- A store to a link outside the chain. -/
theorem update_of_not_mem (h : IsChain next p l) (v : Option α) (ha : a ∉ l) :
    IsChain (Function.update next a v) p l :=
  h.congr fun b hb => Function.update_of_ne (fun hba : b = a => ha (hba ▸ hb)) v next

/-- A node in front: its link is the old pointer. -/
theorem push (h : IsChain next p l) (ha : a ∉ l) : IsChain (Function.update next a p) (some a) (a :: l) := by
  refine ⟨rfl, ?_⟩
  rw [Function.update_self]
  exact h.update_of_not_mem p ha

/-- The link of one node changes, and with it what follows. -/
theorem relink (h : IsChain next p (pre ++ a :: post)) {q : Option α} {rest : List α}
    (hq : IsChain next q rest) (hpre : a ∉ pre) (hrest : a ∉ rest) :
    IsChain (Function.update next a q) p (pre ++ a :: rest) := by
  induction pre generalizing p with
  | nil =>
    refine ⟨h.1, ?_⟩
    rw [Function.update_self]
    exact hq.update_of_not_mem q hrest
  | cons b pre ih =>
    have hba : b ≠ a := fun hba => hpre (hba ▸ List.mem_cons_self)
    refine ⟨h.1, ?_⟩
    rw [Function.update_of_ne hba]
    exact ih h.2 fun ha => hpre (List.mem_cons_of_mem b ha)

/-- A node behind another one whose link it has taken over. -/
theorem insert (h : IsChain next p (pre ++ a :: post)) (hb : b ∉ pre ++ a :: post)
    (hlink : next b = next a) : IsChain (Function.update next a (some b)) p (pre ++ a :: b :: post) := by
  have hnodup := h.nodup
  rw [List.nodup_append] at hnodup
  have hpost := (List.nodup_cons.1 hnodup.2.1).1
  have hba : b ≠ a := fun hba => hb (hba ▸ List.mem_append_right pre List.mem_cons_self)
  refine h.relink ⟨rfl, hlink ▸ h.of_append⟩ (fun ha => hnodup.2.2 a ha a List.mem_cons_self rfl) ?_
  rintro (_ | ⟨_, ha⟩)
  · exact hba rfl
  · exact hpost ha

/-- The node behind another one is taken out. -/
theorem remove (h : IsChain next p (pre ++ a :: b :: post)) :
    IsChain (Function.update next a (next b)) p (pre ++ a :: post) := by
  have hnodup := h.nodup
  rw [List.nodup_append] at hnodup
  have hpost := (List.nodup_cons.1 hnodup.2.1).1
  have hsplit : pre ++ a :: b :: post = (pre ++ [a]) ++ b :: post := by
    rw [List.append_assoc, List.singleton_append]
  exact h.relink (hsplit ▸ h).of_append (fun ha => hnodup.2.2 a ha a List.mem_cons_self rfl)
    fun ha => hpost (List.mem_cons_of_mem b ha)

end IsChain

/-! ## Behind a node -/

/-- The node `b` comes behind the node `a`. -/
def Behind (l : List α) (a b : α) : Prop := ∃ pre post, l = pre ++ a :: post ∧ b ∈ post

namespace Behind

variable {next : α → Option α} {p : Option α} {l : List α} {a b : α}

theorem mem (h : Behind l a b) : a ∈ l := by
  obtain ⟨pre, post, rfl, -⟩ := h
  exact List.mem_append_right pre List.mem_cons_self

theorem cons (h : Behind l a b) (c : α) : Behind (c :: l) a b := by
  obtain ⟨pre, post, rfl, hb⟩ := h
  exact ⟨c :: pre, post, rfl, hb⟩

/-- A node is the first one, or behind it. -/
theorem of_head (h : IsChain next p l) (hb : b ∈ l) : ∃ a, p = some a ∧ (a = b ∨ Behind l a b) := by
  cases l with
  | nil => cases hb
  | cons a l =>
    refine ⟨a, h.1, ?_⟩
    rcases List.mem_cons.1 hb with rfl | hb
    · exact .inl rfl
    · exact .inr ⟨[], l, rfl, hb⟩

/-- A node behind another one is the next one, or behind that. -/
theorem of_next (h : Behind l a b) (hl : IsChain next p l) :
    ∃ c, next a = some c ∧ (c = b ∨ Behind l c b) := by
  obtain ⟨pre, post, rfl, hb⟩ := h
  obtain ⟨c, hc, hcb⟩ := of_head hl.of_append hb
  refine ⟨c, hc, hcb.imp_right ?_⟩
  rintro ⟨pre', post', rfl, hb'⟩
  exact ⟨pre ++ a :: pre', post', by rw [List.append_assoc, List.cons_append], hb'⟩

end Behind

/-! ## Walks -/

/-- The nodes met from a pointer on, in at most `fuel` steps. -/
def walk (next : α → Option α) : ℕ → Option α → Option (List α)
  | _, none => some []
  | 0, some _ => none
  | fuel + 1, some a => (walk next fuel (next a)).map (a :: ·)

theorem IsChain.walk_eq {next : α → Option α} {p : Option α} {l : List α} (h : IsChain next p l) {fuel : ℕ}
    (hfuel : l.length ≤ fuel) : walk next fuel p = some l := by
  induction l generalizing p fuel with
  | nil =>
    obtain rfl : p = none := h
    cases fuel <;> rfl
  | cons a l ih =>
    obtain ⟨rfl, hrest⟩ := h
    obtain ⟨fuel, rfl⟩ : ∃ n, fuel = n + 1 := ⟨fuel - 1, by rw [List.length_cons] at hfuel; omega⟩
    rw [walk, ih hrest (by rw [List.length_cons] at hfuel; omega), Option.map_some]

theorem isChain_of_walk {next : α → Option α} {fuel : ℕ} {p : Option α} {l : List α}
    (h : walk next fuel p = some l) : IsChain next p l := by
  induction fuel generalizing p l with
  | zero =>
    cases p with
    | none =>
      obtain rfl := Option.some.inj h
      rfl
    | some a => cases h
  | succ fuel ih =>
    cases p with
    | none =>
      obtain rfl := Option.some.inj h
      rfl
    | some a =>
      obtain ⟨rest, hrest, rfl⟩ := Option.map_eq_some_iff.1 h
      exact ⟨rfl, ih hrest⟩

end QLog
