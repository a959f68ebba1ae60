import Mathlib

/-!
# Items that change hands

The items of a system lie in places, each place holds a list of items, and what happens is that one item
leaves a place for another. `IsPartition` says that every item lies in exactly one place, once; a
`Transfer` keeps it (`Transfer.isPartition`).
-/

namespace QLog

variable {π α : Type*}

/-- The items are in the places, each in one of them, once. -/
structure IsPartition (items : α → Prop) (L : π → List α) : Prop where
  nodup (p : π) : (L p).Nodup
  mem_iff (a : α) : (∃ p, a ∈ L p) ↔ items a
  unique {p q : π} {a : α} : a ∈ L p → a ∈ L q → p = q

/-- One item goes from a place to another one. -/
structure Transfer (L L' : π → List α) (a : α) (p q : π) : Prop where
  ne : p ≠ q
  leaves : (L p).Perm (a :: L' p)
  arrives : (L' q).Perm (a :: L q)
  other (r : π) : r ≠ p → r ≠ q → L' r = L r

variable {items : α → Prop} {L L' : π → List α} {a b : α} {p q r : π}

namespace IsPartition

/-- Every item has one place. -/
theorem existsUnique (h : IsPartition items L) (ha : items a) : ∃! p, a ∈ L p := by
  obtain ⟨p, hp⟩ := (h.mem_iff a).2 ha
  exact ⟨p, hp, fun q hq => h.unique hq hp⟩

theorem not_mem (h : IsPartition items L) (ha : a ∈ L p) (hpq : p ≠ q) : a ∉ L q :=
  fun hq => hpq (h.unique ha hq)

end IsPartition

namespace Transfer

/-- The item leaves one list, and the other one takes it. -/
theorem of_update [DecidableEq π] {l l' : List α} (hne : p ≠ q) (hleaves : (L p).Perm (a :: l))
    (harrives : l'.Perm (a :: L q)) : Transfer L (Function.update (Function.update L p l) q l') a p q where
  ne := hne
  leaves := by rwa [Function.update_of_ne hne, Function.update_self]
  arrives := by rwa [Function.update_self]
  other r hp hq := by rw [Function.update_of_ne hq, Function.update_of_ne hp]

theorem mem_from (h : Transfer L L' a p q) : a ∈ L p := h.leaves.mem_iff.2 List.mem_cons_self

/-- Where an item lies afterwards. -/
theorem mem_iff_from (h : Transfer L L' a p q) (hL : IsPartition items L) : b ∈ L' p ↔ b ∈ L p ∧ b ≠ a := by
  have hnodup := List.nodup_cons.1 (h.leaves.nodup_iff.1 (hL.nodup p))
  rw [h.leaves.mem_iff, List.mem_cons]
  constructor
  · exact fun hb => ⟨.inr hb, fun hba => hnodup.1 (hba ▸ hb)⟩
  · rintro ⟨rfl | hb, hne⟩
    · exact absurd rfl hne
    · exact hb

theorem mem_iff_to (h : Transfer L L' a p q) : b ∈ L' q ↔ b = a ∨ b ∈ L q := by
  rw [h.arrives.mem_iff, List.mem_cons]

/-- What lies in a place afterwards: the item in the place it went to, and what was there. -/
theorem mem_iff (h : Transfer L L' a p q) (hL : IsPartition items L) :
    b ∈ L' r ↔ b = a ∧ r = q ∨ b ≠ a ∧ b ∈ L r := by
  have ha := h.mem_from
  rcases eq_or_ne r p with rfl | hp
  · rw [h.mem_iff_from hL]
    have hrq := h.ne
    tauto
  · rcases eq_or_ne r q with rfl | hq
    · rw [h.mem_iff_to]
      by_cases hba : b = a <;> tauto
    · rw [h.other r hp hq]
      have hne : b ∈ L r → b ≠ a := fun hb hba => hp (hL.unique (hba ▸ hb) ha)
      tauto

/-- **A transfer keeps the partition.** -/
theorem isPartition (h : Transfer L L' a p q) (hL : IsPartition items L) : IsPartition items L' where
  nodup r := by
    rcases eq_or_ne r p with rfl | hp
    · exact (List.nodup_cons.1 (h.leaves.nodup_iff.1 (hL.nodup r))).2
    · rcases eq_or_ne r q with rfl | hq
      · exact h.arrives.nodup_iff.2
          (List.nodup_cons.2 ⟨hL.not_mem h.mem_from h.ne, hL.nodup r⟩)
      · rw [h.other r hp hq]
        exact hL.nodup r
  mem_iff b := by
    rw [← hL.mem_iff b]
    simp only [h.mem_iff hL]
    by_cases hba : b = a
    · subst hba
      exact ⟨fun _ => ⟨p, h.mem_from⟩, fun _ => ⟨q, .inl ⟨rfl, rfl⟩⟩⟩
    · exact ⟨fun ⟨r, hr⟩ => ⟨r, (hr.resolve_left fun hr => hba hr.1).2⟩,
        fun ⟨r, hr⟩ => ⟨r, .inr ⟨hba, hr⟩⟩⟩
  unique := by
    intro r r' b hb hb'
    rw [h.mem_iff hL] at hb hb'
    rcases hb with ⟨rfl, rfl⟩ | ⟨hne, hb⟩
    · exact ((hb'.resolve_right fun hb' => hb'.1 rfl).2).symm
    · exact hL.unique hb (hb'.resolve_left fun hb' => hne hb'.1).2

end Transfer

end QLog
