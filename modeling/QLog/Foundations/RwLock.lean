import Mathlib

/-!
# Readers-writer locks and who holds them

A lock knows its readers and its writer, and counts how often each thread has taken and released it. A
program says at each of its places which locks it holds; `Accounts` relates the locks to what the programs
say. The four operations keep it (`Accounts.readLock`, `Accounts.readUnlock`, `Accounts.writeLock`,
`Accounts.writeUnlock`), so that a lock is taken as often as it is released and held.

When the threads wait for each other in an order, somebody can go on (`exists_reflTransGen_of_rank`).
-/

namespace QLog

variable {ι κ : Type*}

/-- A lock. A thread stands among the readers as often as it holds the lock for reading. -/
structure RwLock (ι : Type*) where
  readers : List ι
  writer : Option ι
  taken : ι → ℕ
  released : ι → ℕ

namespace RwLock

/-- A lock that nobody has taken. -/
def fresh : RwLock ι := ⟨[], none, fun _ => 0, fun _ => 0⟩

variable [DecidableEq ι] (l : RwLock ι) (i : ι)

/-- `read_lock`, when no thread holds the lock for writing. -/
def readLock : Option (RwLock ι) :=
  if l.writer = none then
    some { l with readers := i :: l.readers, taken := Function.update l.taken i (l.taken i + 1) }
  else none

/-- `read_unlock`. -/
def readUnlock : RwLock ι :=
  { l with readers := l.readers.erase i, released := Function.update l.released i (l.released i + 1) }

/-- `write_lock`, when no thread holds the lock. -/
def writeLock : Option (RwLock ι) :=
  if l.writer = none ∧ l.readers = [] then
    some { l with writer := some i, taken := Function.update l.taken i (l.taken i + 1) }
  else none

/-- `write_unlock`. -/
def writeUnlock : RwLock ι :=
  { l with writer := none, released := Function.update l.released i (l.released i + 1) }

variable {l i} {l' : RwLock ι}

theorem readLock_eq_some (h : l.readLock i = some l') : l.writer = none ∧
    l' = { l with readers := i :: l.readers, taken := Function.update l.taken i (l.taken i + 1) } := by
  rw [readLock] at h
  split at h
  · rename_i hw
    exact ⟨hw, (Option.some.inj h).symm⟩
  · cases h

theorem writeLock_eq_some (h : l.writeLock i = some l') : l.writer = none ∧ l.readers = [] ∧
    l' = { l with writer := some i, taken := Function.update l.taken i (l.taken i + 1) } := by
  rw [writeLock] at h
  split at h
  · rename_i hw
    exact ⟨hw.1, hw.2, (Option.some.inj h).symm⟩
  · cases h

end RwLock

variable [DecidableEq ι] [DecidableEq κ]

/-- The locks agree with what the threads hold for reading and for writing. -/
structure Accounts (lock : κ → RwLock ι) (reads writes : ι → List κ) : Prop where
  readers : ∀ k i, (lock k).readers.count i = (reads i).count k
  writer : ∀ k i, (lock k).writer = some i ↔ k ∈ writes i
  nodup : ∀ i, (writes i).Nodup
  exclusive : ∀ k i, k ∈ writes i → (lock k).readers = []
  balanced : ∀ k i, (lock k).taken i = (lock k).released i + ((reads i).count k + (writes i).count k)

namespace Accounts

variable {lock : κ → RwLock ι} {reads writes : ι → List κ} {k : κ} {i j : ι} {l : RwLock ι} {r w : List κ}

theorem fresh : Accounts (fun _ : κ => (RwLock.fresh : RwLock ι)) (fun _ => []) fun _ => [] where
  readers _ _ := rfl
  writer _ _ := ⟨fun h => (by cases h), fun h => (by cases h)⟩
  nodup _ := List.nodup_nil
  exclusive _ _ h := by cases h
  balanced _ _ := rfl

/-- What one thread holds for writing, no thread holds for reading. -/
theorem not_mem_reads (h : Accounts lock reads writes) (hk : k ∈ writes i) (j : ι) : k ∉ reads j := by
  have hcount := h.readers k j
  rw [h.exclusive k i hk, List.count_nil] at hcount
  exact List.count_eq_zero.1 hcount.symm

/-- Only one thread holds a lock for writing. -/
theorem eq_of_mem_writes (h : Accounts lock reads writes) (hi : k ∈ writes i) (hj : k ∈ writes j) : i = j :=
  Option.some.inj (((h.writer k i).2 hi).symm.trans ((h.writer k j).2 hj))

theorem not_mem_writes (h : Accounts lock reads writes) (hw : (lock k).writer = none) (j : ι) :
    k ∉ writes j := fun hj => by
  rw [(h.writer k j).2 hj] at hw
  cases hw

/-- Another lock, or another thread. -/
theorem count_update_of_ne {f : ι → List κ} {v : List κ} {k₀ : κ} (hv : k₀ ≠ k → v.count k₀ = (f i).count k₀)
    (h : k₀ ≠ k ∨ j ≠ i) : (Function.update f i v j).count k₀ = (f j).count k₀ := by
  rcases eq_or_ne j i with rfl | hj
  · rw [Function.update_self]
    exact hv (h.resolve_right fun h => h rfl)
  · rw [Function.update_of_ne hj]

theorem readLock (h : Accounts lock reads writes) (hl : (lock k).readLock i = some l) :
    Accounts (Function.update lock k l) (Function.update reads i (k :: reads i)) writes := by
  obtain ⟨hw, rfl⟩ := RwLock.readLock_eq_some hl
  have hother : ∀ k₀ j, k₀ ≠ k ∨ j ≠ i →
      (Function.update reads i (k :: reads i) j).count k₀ = (reads j).count k₀ := fun k₀ j =>
    count_update_of_ne fun hne => List.count_cons_of_ne (Ne.symm hne)
  refine ⟨fun k₀ j => ?_, fun k₀ j => ?_, h.nodup, fun k₀ j hj => ?_, fun k₀ j => ?_⟩
  · rcases eq_or_ne k₀ k with rfl | hk
    · rw [Function.update_self]
      rcases eq_or_ne j i with rfl | hj
      · rw [Function.update_self, List.count_cons_self, List.count_cons_self, h.readers]
      · rw [hother k₀ j (.inr hj), List.count_cons_of_ne (Ne.symm hj), h.readers]
    · rw [Function.update_of_ne hk, hother k₀ j (.inl hk), h.readers]
  · rcases eq_or_ne k₀ k with rfl | hk
    · rw [Function.update_self]
      exact h.writer k₀ j
    · rw [Function.update_of_ne hk]
      exact h.writer k₀ j
  · rcases eq_or_ne k₀ k with rfl | hk
    · exact absurd hj (h.not_mem_writes hw j)
    · rw [Function.update_of_ne hk]
      exact h.exclusive k₀ j hj
  · have hbal := h.balanced k₀ j
    rcases eq_or_ne k₀ k with rfl | hk
    · rw [Function.update_self]
      rcases eq_or_ne j i with rfl | hj
      · rw [Function.update_self]
        simp only [Function.update_self, List.count_cons_self]
        omega
      · rw [hother k₀ j (.inr hj)]
        simpa only [Function.update_of_ne hj] using hbal
    · rw [Function.update_of_ne hk, hother k₀ j (.inl hk)]
      exact hbal

theorem readUnlock (h : Accounts lock reads writes) (hr : (reads i).Perm (k :: r)) :
    Accounts (Function.update lock k ((lock k).readUnlock i)) (Function.update reads i r) writes := by
  have hcount : ∀ k₀, (reads i).count k₀ = (k :: r).count k₀ := fun k₀ => hr.count_eq k₀
  have hother : ∀ k₀ j, k₀ ≠ k ∨ j ≠ i →
      (Function.update reads i r j).count k₀ = (reads j).count k₀ := fun k₀ j =>
    count_update_of_ne fun hne => by rw [hcount, List.count_cons_of_ne (Ne.symm hne)]
  refine ⟨fun k₀ j => ?_, fun k₀ j => ?_, h.nodup, fun k₀ j hj => ?_, fun k₀ j => ?_⟩
  · rcases eq_or_ne k₀ k with rfl | hk
    · have hreaders := h.readers k₀ j
      rw [Function.update_self, RwLock.readUnlock]
      rcases eq_or_ne j i with rfl | hj
      · rw [Function.update_self, List.count_erase_self, hreaders, hcount, List.count_cons_self,
          Nat.add_sub_cancel]
      · rw [hother k₀ j (.inr hj), ← hreaders]
        exact List.count_erase_of_ne hj
    · rw [Function.update_of_ne hk, hother k₀ j (.inl hk), h.readers]
  · rcases eq_or_ne k₀ k with rfl | hk
    · rw [Function.update_self]
      exact h.writer k₀ j
    · rw [Function.update_of_ne hk]
      exact h.writer k₀ j
  · have hexcl := h.exclusive k₀ j hj
    rcases eq_or_ne k₀ k with rfl | hk
    · rw [Function.update_self, RwLock.readUnlock, hexcl]
      rfl
    · rw [Function.update_of_ne hk]
      exact hexcl
  · have hbal := h.balanced k₀ j
    rcases eq_or_ne k₀ k with rfl | hk
    · rw [Function.update_self, RwLock.readUnlock]
      rcases eq_or_ne j i with rfl | hj
      · rw [Function.update_self]
        rw [hcount, List.count_cons_self] at hbal
        simp only [Function.update_self]
        omega
      · rw [hother k₀ j (.inr hj)]
        simpa only [Function.update_of_ne hj] using hbal
    · rw [Function.update_of_ne hk, hother k₀ j (.inl hk)]
      exact hbal

theorem writeLock (h : Accounts lock reads writes) (hl : (lock k).writeLock i = some l) :
    Accounts (Function.update lock k l) reads (Function.update writes i (k :: writes i)) := by
  obtain ⟨hw, hr, rfl⟩ := RwLock.writeLock_eq_some hl
  have hnot := h.not_mem_writes hw
  have hother : ∀ k₀ j, k₀ ≠ k ∨ j ≠ i →
      (Function.update writes i (k :: writes i) j).count k₀ = (writes j).count k₀ := fun k₀ j =>
    count_update_of_ne fun hne => List.count_cons_of_ne (Ne.symm hne)
  have hmem : ∀ k₀ j, k₀ ≠ k ∨ j ≠ i → (k₀ ∈ Function.update writes i (k :: writes i) j ↔ k₀ ∈ writes j) :=
    fun k₀ j hne => by
      rw [← List.count_pos_iff, hother k₀ j hne, List.count_pos_iff]
  refine ⟨fun k₀ j => ?_, fun k₀ j => ?_, fun j => ?_, fun k₀ j hj => ?_, fun k₀ j => ?_⟩
  · rcases eq_or_ne k₀ k with rfl | hk
    · rw [Function.update_self]
      exact h.readers k₀ j
    · rw [Function.update_of_ne hk]
      exact h.readers k₀ j
  · rcases eq_or_ne k₀ k with rfl | hk
    · rw [Function.update_self]
      rcases eq_or_ne j i with rfl | hj
      · rw [Function.update_self]
        exact ⟨fun _ => List.mem_cons_self, fun _ => rfl⟩
      · rw [hmem k₀ j (.inr hj)]
        exact ⟨fun heq => absurd (Option.some.inj heq).symm hj, fun hmem => absurd hmem (hnot j)⟩
    · rw [Function.update_of_ne hk, hmem k₀ j (.inl hk)]
      exact h.writer k₀ j
  · rcases eq_or_ne j i with rfl | hj
    · rw [Function.update_self]
      exact List.nodup_cons.2 ⟨hnot j, h.nodup j⟩
    · rw [Function.update_of_ne hj]
      exact h.nodup j
  · rcases eq_or_ne k₀ k with rfl | hk
    · rw [Function.update_self]
      exact hr
    · rw [hmem k₀ j (.inl hk)] at hj
      rw [Function.update_of_ne hk]
      exact h.exclusive k₀ j hj
  · have hbal := h.balanced k₀ j
    rcases eq_or_ne k₀ k with rfl | hk
    · rw [Function.update_self]
      rcases eq_or_ne j i with rfl | hj
      · rw [Function.update_self]
        simp only [Function.update_self, List.count_cons_self]
        omega
      · rw [hother k₀ j (.inr hj)]
        simpa only [Function.update_of_ne hj] using hbal
    · rw [Function.update_of_ne hk, hother k₀ j (.inl hk)]
      exact hbal

theorem writeUnlock (h : Accounts lock reads writes) (hw : (writes i).Perm (k :: w)) :
    Accounts (Function.update lock k ((lock k).writeUnlock i)) reads (Function.update writes i w) := by
  have hcount : ∀ k₀, (writes i).count k₀ = (k :: w).count k₀ := fun k₀ => hw.count_eq k₀
  have hk : k ∈ writes i := hw.mem_iff.2 List.mem_cons_self
  have hnodup := (hw.nodup_iff).1 (h.nodup i)
  have hother : ∀ k₀ j, k₀ ≠ k ∨ j ≠ i →
      (Function.update writes i w j).count k₀ = (writes j).count k₀ := fun k₀ j =>
    count_update_of_ne fun hne => by rw [hcount, List.count_cons_of_ne (Ne.symm hne)]
  have hmem : ∀ k₀ j, k₀ ≠ k ∨ j ≠ i → (k₀ ∈ Function.update writes i w j ↔ k₀ ∈ writes j) :=
    fun k₀ j hne => by
      rw [← List.count_pos_iff, hother k₀ j hne, List.count_pos_iff]
  have hnone : ∀ j, k ∉ Function.update writes i w j := fun j => by
    rcases eq_or_ne j i with rfl | hj
    · rw [Function.update_self]
      exact (List.nodup_cons.1 hnodup).1
    · rw [hmem k j (.inr hj)]
      exact fun hkj => hj (h.eq_of_mem_writes hkj hk)
  refine ⟨fun k₀ j => ?_, fun k₀ j => ?_, fun j => ?_, fun k₀ j hj => ?_, fun k₀ j => ?_⟩
  · rcases eq_or_ne k₀ k with rfl | hne
    · rw [Function.update_self]
      exact h.readers k₀ j
    · rw [Function.update_of_ne hne]
      exact h.readers k₀ j
  · rcases eq_or_ne k₀ k with rfl | hne
    · rw [Function.update_self]
      exact ⟨fun heq => (by cases heq), fun hmem => absurd hmem (hnone j)⟩
    · rw [Function.update_of_ne hne, hmem k₀ j (.inl hne)]
      exact h.writer k₀ j
  · rcases eq_or_ne j i with rfl | hj
    · rw [Function.update_self]
      exact (List.nodup_cons.1 hnodup).2
    · rw [Function.update_of_ne hj]
      exact h.nodup j
  · rcases eq_or_ne k₀ k with rfl | hne
    · exact absurd hj (hnone j)
    · rw [hmem k₀ j (.inl hne)] at hj
      rw [Function.update_of_ne hne]
      exact h.exclusive k₀ j hj
  · have hbal := h.balanced k₀ j
    rcases eq_or_ne k₀ k with rfl | hne
    · rw [Function.update_self, RwLock.writeUnlock]
      rcases eq_or_ne j i with rfl | hj
      · rw [Function.update_self]
        rw [hcount, List.count_cons_self] at hbal
        simp only [Function.update_self]
        omega
      · rw [hother k₀ j (.inr hj)]
        simpa only [Function.update_of_ne hj] using hbal
    · rw [Function.update_of_ne hne, hother k₀ j (.inl hne)]
      exact hbal

end Accounts

/-- **Locks in an order.** Who waits for another waits in the end for one that can go on, when everybody waits
for somebody of a lower rank. -/
theorem exists_reflTransGen_of_rank {ι : Type*} {waits : ι → ι → Prop} {live can : ι → Prop} (rank : ι → ℕ)
    (hwaits : ∀ i, live i → can i ∨ ∃ j, waits i j)
    (hrank : ∀ i j, live i → waits i j → live j ∧ rank j < rank i) {i : ι} (hi : live i) :
    ∃ j, Relation.ReflTransGen waits i j ∧ can j := by
  induction hn : rank i using Nat.strong_induction_on generalizing i with
  | h n ih =>
    rcases hwaits i hi with hcan | ⟨j, hj⟩
    · exact ⟨i, .refl, hcan⟩
    · obtain ⟨hlive, hlt⟩ := hrank i j hi hj
      obtain ⟨k, hk, hcan⟩ := ih (rank j) (hn ▸ hlt) hlive rfl
      exact ⟨k, .head hj hk, hcan⟩

end QLog
