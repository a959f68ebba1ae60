import QLog.Foundations.Probing

/-!
# Probe chains

In a table with linear probing, every slot between the home of a binding and its place is occupied, and a
key has one place (`Chained`). A search then finds a key when it is there, and what it finds otherwise is
the slot where the key can be put (`findSlotOrEmpty_holds`, `findSlotOrEmpty_missing`).

Erasing fills the emptied slot with a binding from behind it whose chain it would break. `Hole` is the
invariant of that loop: the chains hold but for the slot to fill, and those behind it that were visited do
not cross it.
-/

namespace QLog.Probing

variable {κ ν β : Type*} {slots : Slots κ ν} {home : κ → ℕ} {capacity n i j l : ℕ} {k : κ} {v : ν}

/-- How far `b` is behind `a`, in cyclic order. -/
def distance (capacity a b : ℕ) : ℕ := if a ≤ b then b - a else b + capacity - a

/-- The table has the binding. -/
def Holds (slots : Slots κ ν) (capacity : ℕ) (k : κ) (v : ν) : Prop := ∃ i < capacity, slots i = some (k, v)

/-- Every slot on the way from a home to a place is occupied. -/
def Occupied (slots : Slots κ ν) (capacity a b : ℕ) : Prop :=
  ∀ j < capacity, distance capacity a j < distance capacity a b → (slots j).isSome

/-- A key has one place, which can be reached from its home. -/
structure Chained (home : κ → ℕ) (capacity : ℕ) (slots : Slots κ ν) : Prop where
  unique : ∀ i < capacity, ∀ j < capacity, ∀ k v w, slots i = some (k, v) → slots j = some (k, w) → i = j
  reach : ∀ i < capacity, ∀ k v, slots i = some (k, v) → Occupied slots capacity (home k) i

/-! ## Distances -/

theorem distance_self (capacity a : ℕ) : distance capacity a a = 0 := by
  rw [distance, if_pos le_rfl, Nat.sub_self]

theorem distance_lt (hj : j < capacity) : distance capacity i j < capacity := by
  rw [distance]
  split
  · exact (Nat.sub_le j i).trans_lt hj
  · omega

theorem distance_eq_zero (hi : i < capacity) : distance capacity i j = 0 ↔ i = j := by
  unfold distance
  split <;> omega

theorem distance_inj (hi : i < capacity) (hj : j < capacity) (hl : l < capacity)
    (h : distance capacity i j = distance capacity i l) : j = l := by
  unfold distance at h
  split_ifs at h <;> omega

/-- The way over a place in between. -/
theorem distance_add (hi : i < capacity) (hj : j < capacity) (hl : l < capacity)
    (h : distance capacity i j ≤ distance capacity i l) :
    distance capacity i l = distance capacity i j + distance capacity j l := by
  unfold distance at h ⊢
  split_ifs at h ⊢ <;> omega

/-- The way goes on behind a place. -/
theorem distance_add_of_le {m : ℕ} (hi : i < capacity) (hj : j < capacity) (hl : l < capacity)
    (hm : m < capacity) (h : distance capacity i j ≤ distance capacity i l)
    (hml : distance capacity j m ≤ distance capacity j l) :
    distance capacity i m = distance capacity i j + distance capacity j m := by
  unfold distance at h hml ⊢
  split_ifs at h hml ⊢ <;> omega

/-- From one place to the next the distance grows. -/
theorem distance_next_right (hi : i < 2 ^ n) (hj : j < 2 ^ n) (h : distance (2 ^ n) i j + 1 < 2 ^ n) :
    distance (2 ^ n) i (next (2 ^ n) j) = distance (2 ^ n) i j + 1 := by
  rw [next_eq]
  rcases Nat.lt_or_ge (j + 1) (2 ^ n) with hlt | hge
  · rw [Nat.mod_eq_of_lt hlt]
    unfold distance at h ⊢
    split_ifs at h ⊢ <;> omega
  · rw [show j + 1 = 2 ^ n by omega, Nat.mod_self]
    unfold distance at h ⊢
    split_ifs at h ⊢ <;> omega

/-- From one place to the next the distance of what is ahead gets smaller. -/
theorem distance_next_left (hi : i < 2 ^ n) (hj : j < 2 ^ n) (hne : i ≠ j) :
    distance (2 ^ n) i j = distance (2 ^ n) (next (2 ^ n) i) j + 1 := by
  rw [next_eq]
  rcases Nat.lt_or_ge (i + 1) (2 ^ n) with hlt | hge
  · rw [Nat.mod_eq_of_lt hlt]
    unfold distance
    split_ifs <;> omega
  · rw [show i + 1 = 2 ^ n by omega, Nat.mod_self]
    unfold distance
    split_ifs <;> omega

/-- The distance of two slots, computed in 32 bits. -/
theorem distance_eq {a b : ℕ} (hn : n ≤ 32) (ha : a < 2 ^ n) (hb : b < 2 ^ n) :
    (b + 2 ^ 32 - a) % 2 ^ 32 &&& (2 ^ n - 1) = distance (2 ^ n) a b := by
  obtain ⟨m, hm⟩ := Nat.exists_eq_add_of_le hn
  have hpow : 2 ^ 32 = 2 ^ n * 2 ^ m := by rw [← pow_add, ← hm]
  have hle : 2 ^ n ≤ 2 ^ n * 2 ^ m := Nat.le_mul_of_pos_right _ (Nat.two_pow_pos m)
  rw [Nat.and_two_pow_sub_one_eq_mod, hpow, Nat.mod_mul_right_mod]
  unfold distance
  split
  · rw [show b + 2 ^ n * 2 ^ m - a = b - a + 2 ^ n * 2 ^ m by omega, Nat.add_mul_mod_self_left,
      Nat.mod_eq_of_lt (by omega)]
  · have hsplit : 2 ^ n * 2 ^ m = 2 ^ n + 2 ^ n * (2 ^ m - 1) := by
      rw [Nat.mul_sub, Nat.mul_one]
      omega
    rw [show b + 2 ^ n * 2 ^ m - a = b + 2 ^ n - a + 2 ^ n * (2 ^ m - 1) by omega,
      Nat.add_mul_mod_self_left, Nat.mod_eq_of_lt (by omega)]

/-! ## Searching -/

/-- A walk stops at the first slot where it may. -/
theorem walk_first {stop : ℕ → Option β} {fuel : ℕ} {r : β} (hi : i < 2 ^ n)
    (h : walk stop (2 ^ n) fuel i = some r) : ∃ l < 2 ^ n, stop l = some r ∧
      ∀ j < 2 ^ n, distance (2 ^ n) i j < distance (2 ^ n) i l → stop j = none := by
  induction fuel generalizing i with
  | zero => cases h
  | succ fuel ih =>
    rw [walk] at h
    cases hs : stop i with
    | some r' =>
      rw [hs] at h
      refine ⟨i, hi, hs.trans h, fun j hj hlt => ?_⟩
      rw [distance_self] at hlt
      omega
    | none =>
      rw [hs] at h
      obtain ⟨l, hl, hstop, hfirst⟩ := ih (next_lt i) h
      refine ⟨l, hl, hstop, fun j hj hlt => ?_⟩
      rcases eq_or_ne i j with rfl | hne
      · exact hs
      · have hil : i ≠ l := by
          rintro rfl
          rw [hs] at hstop
          cases hstop
        rw [distance_next_left hi hj hne, distance_next_left hi hl hil] at hlt
        exact hfirst j hj (by omega)

section Search

variable [DecidableEq κ]

/-- **A key that is in the table is found.** -/
theorem Chained.findSlotOrEmpty_holds (h : Chained home (2 ^ n) slots) (hhome : ∀ k, home k < 2 ^ n)
    (hi : i < 2 ^ n) (hslot : slots i = some (k, v)) :
    findSlotOrEmpty slots (2 ^ n) k (home k) = some (true, i) := by
  have hfound : (foundAt slots k i).isSome := by
    rw [foundAt, hslot]
    simp
  obtain ⟨r, -, hwalk, -⟩ := walk_of_stop (foundAt slots k) (hhome k) hi hfound
  obtain ⟨l, hl, hstop, hfirst⟩ := walk_first (hhome k) hwalk
  have hle : distance (2 ^ n) (home k) l ≤ distance (2 ^ n) (home k) i := by
    by_contra hgt
    rw [hfirst i hi (by omega)] at hfound
    cases hfound
  rw [foundAt] at hstop
  cases hs : slots l with
  | none =>
    rcases Nat.lt_or_ge (distance (2 ^ n) (home k) l) (distance (2 ^ n) (home k) i) with hlt | hge
    · have hocc := h.reach i hi k v hslot l hl hlt
      rw [hs] at hocc
      cases hocc
    · obtain rfl := distance_inj (hhome k) hl hi (by omega)
      rw [hslot] at hs
      cases hs
  | some b =>
    rw [hs] at hstop
    simp only at hstop
    split at hstop
    · rename_i hkey
      obtain rfl : l = i := h.unique l hl i hi k b.2 v (by rw [hs, ← hkey]) hslot
      rw [← hstop] at hwalk
      exact hwalk
    · cases hstop

/-- **A key that is not in the table**: the search ends at an empty slot, over occupied ones. -/
theorem findSlotOrEmpty_missing (hhome : ∀ k, home k < 2 ^ n) (hmiss : ∀ v, ¬Holds slots (2 ^ n) k v)
    (hroom : (occupied slots (2 ^ n)).card < 2 ^ n) :
    ∃ l < 2 ^ n, findSlotOrEmpty slots (2 ^ n) k (home k) = some (false, l) ∧ slots l = none ∧
      Occupied slots (2 ^ n) (home k) l := by
  obtain ⟨found, l', hfind, -⟩ := findSlotOrEmpty_spec k (hhome k) hroom
  obtain ⟨l, hl, hstop, hfirst⟩ := walk_first (hhome k) hfind
  rw [foundAt] at hstop
  cases hs : slots l with
  | none =>
    rw [hs] at hstop
    obtain ⟨rfl, rfl⟩ := Prod.mk.inj (Option.some.inj hstop)
    refine ⟨l, hl, hfind, hs, fun j hj hlt => ?_⟩
    have hnone := hfirst j hj hlt
    rw [foundAt] at hnone
    cases hj : slots j with
    | none =>
      rw [hj] at hnone
      cases hnone
    | some b => rfl
  | some b =>
    rw [hs] at hstop
    simp only at hstop
    split at hstop
    · rename_i hkey
      exact absurd ⟨l, hl, by rw [hs, ← hkey]⟩ (hmiss b.2)
    · cases hstop

end Search

/-! ## Placing -/

/-- A binding is put where the search for its key ended. -/
theorem Chained.update (h : Chained home capacity slots) (hl : slots l = none)
    (hocc : Occupied slots capacity (home k) l) (hmiss : ∀ v, ¬Holds slots capacity k v) (v : ν) :
    Chained home capacity (Function.update slots l (some (k, v))) where
  unique i hi j hj k' w w' hiw hjw := by
    rcases eq_or_ne i l with rfl | hil
    · rcases eq_or_ne j i with rfl | hji
      · rfl
      · rw [Function.update_self] at hiw
        rw [Function.update_of_ne hji] at hjw
        obtain ⟨rfl, rfl⟩ := Prod.mk.inj (Option.some.inj hiw)
        exact absurd ⟨j, hj, hjw⟩ (hmiss w')
    · rw [Function.update_of_ne hil] at hiw
      rcases eq_or_ne j l with rfl | hjl
      · rw [Function.update_self] at hjw
        obtain ⟨rfl, rfl⟩ := Prod.mk.inj (Option.some.inj hjw)
        exact absurd ⟨i, hi, hiw⟩ (hmiss w)
      · rw [Function.update_of_ne hjl] at hjw
        exact h.unique i hi j hj k' w w' hiw hjw
  reach i hi k' w hiw j hj hlt := by
    rcases eq_or_ne j l with rfl | hjl
    · rw [Function.update_self]
      rfl
    · rw [Function.update_of_ne hjl]
      rcases eq_or_ne i l with rfl | hil
      · rw [Function.update_self] at hiw
        obtain ⟨rfl, rfl⟩ := Prod.mk.inj (Option.some.inj hiw)
        exact hocc j hj hlt
      · rw [Function.update_of_ne hil] at hiw
        exact h.reach i hi k' w hiw j hj hlt

theorem holds_update {w : ν} {k' : κ} (hi : i < capacity) (hl : slots i = none) :
    Holds (Function.update slots i (some (k, v))) capacity k' w ↔
      (k' = k ∧ w = v) ∨ Holds slots capacity k' w := by
  constructor
  · rintro ⟨j, hj, hs⟩
    rcases eq_or_ne j i with rfl | hne
    · rw [Function.update_self] at hs
      obtain ⟨rfl, rfl⟩ := Prod.mk.inj (Option.some.inj hs)
      exact .inl ⟨rfl, rfl⟩
    · rw [Function.update_of_ne hne] at hs
      exact .inr ⟨j, hj, hs⟩
  · rintro (⟨rfl, rfl⟩ | ⟨j, hj, hs⟩)
    · exact ⟨i, hi, Function.update_self ..⟩
    · refine ⟨j, hj, ?_⟩
      rw [Function.update_of_ne, hs]
      rintro rfl
      rw [hl] at hs
      cases hs

/-- The value of a key is replaced. -/
theorem Chained.replace (h : Chained home capacity slots) (hs : slots i = some (k, v)) (w : ν) :
    Chained home capacity (Function.update slots i (some (k, w))) := by
  have hkey : ∀ j k' u, Function.update slots i (some (k, w)) j = some (k', u) →
      ∃ u', slots j = some (k', u') := by
    intro j k' u hj
    rcases eq_or_ne j i with rfl | hne
    · rw [Function.update_self] at hj
      obtain ⟨rfl, rfl⟩ := Prod.mk.inj (Option.some.inj hj)
      exact ⟨v, hs⟩
    · rw [Function.update_of_ne hne] at hj
      exact ⟨u, hj⟩
  refine ⟨fun a ha b hb k' u u' hau hbu => ?_, fun a ha k' u hau j hj hlt => ?_⟩
  · obtain ⟨_, hau⟩ := hkey a k' u hau
    obtain ⟨_, hbu⟩ := hkey b k' u' hbu
    exact h.unique a ha b hb k' _ _ hau hbu
  · obtain ⟨_, hau⟩ := hkey a k' u hau
    have hocc := h.reach a ha k' _ hau j hj hlt
    rcases eq_or_ne j i with rfl | hne
    · rw [Function.update_self]
      rfl
    · rw [Function.update_of_ne hne]
      exact hocc

theorem Chained.holds_replace (h : Chained home capacity slots) (hi : i < capacity)
    (hs : slots i = some (k, v)) (w : ν) (k' : κ) (u : ν) :
    Holds (Function.update slots i (some (k, w))) capacity k' u ↔
      (k' = k ∧ u = w) ∨ (k' ≠ k ∧ Holds slots capacity k' u) := by
  constructor
  · rintro ⟨j, hj, hju⟩
    rcases eq_or_ne j i with rfl | hne
    · rw [Function.update_self] at hju
      obtain ⟨rfl, rfl⟩ := Prod.mk.inj (Option.some.inj hju)
      exact .inl ⟨rfl, rfl⟩
    · rw [Function.update_of_ne hne] at hju
      refine .inr ⟨?_, j, hj, hju⟩
      rintro rfl
      exact hne (h.unique j hj i hi k' u v hju hs)
  · rintro (⟨rfl, rfl⟩ | ⟨hne, j, hj, hju⟩)
    · exact ⟨i, hi, Function.update_self ..⟩
    · refine ⟨j, hj, ?_⟩
      rw [Function.update_of_ne, hju]
      rintro rfl
      rw [hs] at hju
      exact hne (Prod.mk.inj (Option.some.inj hju)).1.symm

/-- A binding is placed at the first empty slot from its home on. -/
theorem Chained.place {slots' : Slots κ ν} {b : κ × ν} (h : Chained home (2 ^ n) slots)
    (hhome : ∀ k, home k < 2 ^ n) (hmiss : ∀ v, ¬Holds slots (2 ^ n) b.1 v)
    (hplace : place home (2 ^ n) slots b = some slots') :
    Chained home (2 ^ n) slots' ∧
      ∀ k v, Holds slots' (2 ^ n) k v ↔ (k = b.1 ∧ v = b.2) ∨ Holds slots (2 ^ n) k v := by
  obtain ⟨i, hfirst, rfl⟩ := Option.map_eq_some_iff.1 hplace
  obtain ⟨l, hl, hstop, hbefore⟩ := walk_first (hhome b.1) hfirst
  split at hstop
  · cases hstop
  · rename_i hnone
    obtain rfl := Option.some.inj hstop
    have hnone := Option.not_isSome_iff_eq_none.1 hnone
    refine ⟨h.update hnone (fun j hj hlt => ?_) hmiss b.2, fun k v => holds_update hl hnone⟩
    by_contra hj'
    have hstop := hbefore j hj hlt
    rw [if_neg hj'] at hstop
    cases hstop

/-- **Rehashing keeps the table's bindings**, and makes them reachable from their new homes. -/
theorem rehash_chained {slots' : Slots κ ν} {old : Slots κ ν} {m : ℕ} (hhome : ∀ k, home k < 2 ^ n)
    (hunique : ∀ i < m, ∀ j < m, ∀ k v w, old i = some (k, v) → old j = some (k, w) → i = j)
    (h : rehash home (2 ^ n) old m = some slots') :
    Chained home (2 ^ n) slots' ∧ ∀ k v, Holds slots' (2 ^ n) k v ↔ Holds old m k v := by
  induction m generalizing slots' with
  | zero =>
    obtain rfl := Option.some.inj h
    refine ⟨⟨fun i _ j _ k v w hi => (by cases hi), fun i _ k v hi => (by cases hi)⟩, fun k v => ?_⟩
    constructor
    · rintro ⟨i, -, hi⟩
      cases hi
    · rintro ⟨i, hi, -⟩
      omega
  | succ m ih =>
    obtain ⟨mid, hmid, hlast⟩ := Option.bind_eq_some_iff.1 h
    obtain ⟨hchained, hholds⟩ :=
      ih (fun i hi j hj => hunique i (by omega) j (by omega)) hmid
    have hsplit : ∀ k v, Holds old (m + 1) k v ↔ old m = some (k, v) ∨ Holds old m k v := by
      intro k v
      constructor
      · rintro ⟨i, hi, hs⟩
        rcases Nat.lt_succ_iff_lt_or_eq.1 hi with hlt | rfl
        · exact .inr ⟨i, hlt, hs⟩
        · exact .inl hs
      · rintro (hs | ⟨i, hi, hs⟩)
        · exact ⟨m, by omega, hs⟩
        · exact ⟨i, by omega, hs⟩
    cases hm : old m with
    | none =>
      rw [hm] at hlast
      obtain rfl := Option.some.inj hlast
      refine ⟨hchained, fun k v => ?_⟩
      rw [hsplit, hholds, hm]
      simp
    | some b =>
      rw [hm] at hlast
      have hmiss : ∀ v, ¬Holds mid (2 ^ n) b.1 v := by
        intro v hv
        obtain ⟨i, hi, hs⟩ := (hholds b.1 v).1 hv
        have heq := hunique i (by omega) m (by omega) b.1 v b.2 hs hm
        omega
      obtain ⟨hchained', hholds'⟩ := hchained.place hhome hmiss hlast
      refine ⟨hchained', fun k v => ?_⟩
      rw [hholds', hsplit, hholds, hm, Option.some.injEq, Prod.ext_iff, eq_comm, eq_comm (a := v)]

/-! ## Erasing -/

/-- The slot `e` is to be filled, and the slots behind it were visited up to `c`. -/
structure Hole (home : κ → ℕ) (capacity : ℕ) (slots : Slots κ ν) (e c : ℕ) : Prop where
  unique : ∀ i < capacity, i ≠ e → ∀ j < capacity, j ≠ e → ∀ k v w,
    slots i = some (k, v) → slots j = some (k, w) → i = j
  reach : ∀ i < capacity, i ≠ e → ∀ k v, slots i = some (k, v) → ∀ j < capacity, j ≠ e →
    distance capacity (home k) j < distance capacity (home k) i → (slots j).isSome
  visited : ∀ i < capacity, i ≠ e → distance capacity e i < distance capacity e c →
    ∀ k v, slots i = some (k, v) → distance capacity (home k) i ≤ distance capacity (home k) e

namespace Hole

variable {e c f : ℕ}

/-- The slot behind the visited ones is empty: the chains do without the slot to fill. -/
theorem chained (h : Hole home capacity slots e c) (hhome : ∀ k, home k < capacity) (he : e < capacity)
    (hc : c < capacity) (hce : c ≠ e) (hnone : slots c = none) :
    Chained home capacity (Function.update slots e none) ∧ ∀ k v,
      Holds (Function.update slots e none) capacity k v ↔ ∃ i < capacity, i ≠ e ∧ slots i = some (k, v) := by
  have hat : ∀ i k v, Function.update slots e none i = some (k, v) ↔ i ≠ e ∧ slots i = some (k, v) := by
    intro i k v
    rcases eq_or_ne i e with rfl | hne
    · rw [Function.update_self]
      simp
    · rw [Function.update_of_ne hne]
      simp [hne]
  refine ⟨⟨fun i hi j hj k v w hiv hjw => ?_, fun i hi k v hiv j hj hlt => ?_⟩, fun k v => ?_⟩
  · obtain ⟨hie, hi'⟩ := (hat i k v).1 hiv
    obtain ⟨hje, hj'⟩ := (hat j k w).1 hjw
    exact h.unique i hi hie j hj hje k v w hi' hj'
  · obtain ⟨hie, hi'⟩ := (hat i k v).1 hiv
    rcases eq_or_ne j e with heq | hje
    · -- the way crosses the slot, then it crosses the empty one behind it, too
      exfalso
      rw [heq] at hlt
      have hpast : distance capacity e c ≤ distance capacity e i := by
        by_contra hgt
        exact absurd (h.visited i hi hie (by omega) k v hi') (by omega)
      have hway := distance_add_of_le (hhome k) he hi hc hlt.le hpast
      have hall := distance_add (hhome k) he hi hlt.le
      have hci : c ≠ i := by
        intro hci
        rw [← hci, hnone] at hi'
        cases hi'
      have hne : distance capacity e c ≠ distance capacity e i := fun heq =>
        hci (distance_inj he hc hi heq)
      have hocc := h.reach i hi hie k v hi' c hc hce (by omega)
      rw [hnone] at hocc
      cases hocc
    · rw [Function.update_of_ne hje]
      exact h.reach i hi hie k v hi' j hj hje hlt
  · simp only [Holds, hat]

/-- The visited binding fills the slot; its own is to be filled next. -/
theorem move {b : κ × ν} (h : Hole home (2 ^ n) slots e c) (he : e < 2 ^ n) (hc : c < 2 ^ n)
    (hce : c ≠ e) (hs : slots c = some b)
    (hcross : distance (2 ^ n) (home b.1) e < distance (2 ^ n) (home b.1) c) :
    Hole home (2 ^ n) (Function.update slots e (some b)) c (next (2 ^ n) c) ∧ ∀ k v,
      (∃ i < 2 ^ n, i ≠ c ∧ Function.update slots e (some b) i = some (k, v)) ↔
        ∃ i < 2 ^ n, i ≠ e ∧ slots i = some (k, v) := by
  have hb : slots c = some (b.1, b.2) := hs
  -- the binding that a slot has now was in a slot other than the filled one
  have hfrom : ∀ i k v, Function.update slots e (some b) i = some (k, v) →
      (i = e ∧ slots c = some (k, v)) ∨ (i ≠ e ∧ slots i = some (k, v)) := by
    intro i k v hi
    rcases eq_or_ne i e with rfl | hne
    · rw [Function.update_self] at hi
      exact .inl ⟨rfl, hs.trans hi⟩
    · rw [Function.update_of_ne hne] at hi
      exact .inr ⟨hne, hi⟩
  refine ⟨⟨fun i hi hic j hj hjc k v w hiv hjw => ?_, fun i hi hic k v hiv j hj hjc hlt => ?_,
    fun i hi hic hlt => ?_⟩, fun k v => ?_⟩
  · rcases hfrom i k v hiv with ⟨hie, hi'⟩ | ⟨hie, hi'⟩
    · rcases hfrom j k w hjw with ⟨hje, -⟩ | ⟨hje, hj'⟩
      · rw [hie, hje]
      · exact absurd (h.unique c hc hce j hj hje k v w hi' hj').symm hjc
    · rcases hfrom j k w hjw with ⟨hje, hj'⟩ | ⟨hje, hj'⟩
      · exact absurd (h.unique i hi hie c hc hce k v w hi' hj') hic
      · exact h.unique i hi hie j hj hje k v w hi' hj'
  · rcases eq_or_ne j e with hje | hje
    · rw [hje, Function.update_self]
      rfl
    · rw [Function.update_of_ne hje]
      rcases hfrom i k v hiv with ⟨hie, hi'⟩ | ⟨hie, hi'⟩
      · have hkey : b.1 = k := (Prod.mk.inj (Option.some.inj (hb.symm.trans hi'))).1
        rw [← hkey, hie] at hlt
        exact h.reach c hc hce b.1 b.2 hb j hj hje (hlt.trans hcross)
      · exact h.reach i hi hie k v hi' j hj hje hlt
  · -- the next slot is at distance one: nothing was visited yet
    exfalso
    have hpos : distance (2 ^ n) c i ≠ 0 := fun hzero => hic ((distance_eq_zero hc).1 hzero).symm
    have hone : distance (2 ^ n) c (next (2 ^ n) c) ≤ 1 := by
      rcases Nat.lt_or_ge 1 (2 ^ n) with hbig | hsmall
      · have := distance_next_right hc hc (by rw [distance_self]; omega)
        rw [distance_self] at this
        omega
      · have := distance_lt (i := c) (next_lt (n := n) c)
        omega
    omega
  · constructor
    · rintro ⟨i, hi, hic, hiv⟩
      rcases hfrom i k v hiv with ⟨-, hi'⟩ | ⟨hie, hi'⟩
      · exact ⟨c, hc, hce, hi'⟩
      · exact ⟨i, hi, hie, hi'⟩
    · rintro ⟨i, hi, hie, hiv⟩
      rcases eq_or_ne i c with rfl | hic
      · exact ⟨e, he, fun hec => hie hec.symm, by rw [Function.update_self, ← hs, hiv]⟩
      · exact ⟨i, hi, hic, by rw [Function.update_of_ne hie, hiv]⟩

/-- The visited binding stays: its chain does without the slot to fill. -/
theorem stay {b : κ × ν} (h : Hole home (2 ^ n) slots e c) (he : e < 2 ^ n) (hc : c < 2 ^ n)
    (hs : slots c = some b) (hcross : distance (2 ^ n) (home b.1) c ≤ distance (2 ^ n) (home b.1) e)
    (hnext : distance (2 ^ n) e (next (2 ^ n) c) = distance (2 ^ n) e c + 1) :
    Hole home (2 ^ n) slots e (next (2 ^ n) c) := by
  refine ⟨h.unique, h.reach, fun i hi hie hlt k v hiv => ?_⟩
  rcases Nat.lt_or_ge (distance (2 ^ n) e i) (distance (2 ^ n) e c) with hbefore | hge
  · exact h.visited i hi hie hbefore k v hiv
  · obtain rfl : i = c := distance_inj he hi hc (by omega)
    obtain rfl := Option.some.inj (hs.symm.trans hiv)
    exact hcross

/-- The loop ends with chains for the bindings that the slot to fill does not have. -/
theorem eraseLoop (hn : n ≤ 32) (hhome : ∀ k, home k < 2 ^ n) {fuel : ℕ} {slots' : Slots κ ν}
    (h : Hole home (2 ^ n) slots e c) (he : e < 2 ^ n) (hc : c < 2 ^ n) (hf : f < 2 ^ n)
    (hnone : slots f = none) (hfe : f ≠ e) (hce : c ≠ e)
    (hle : distance (2 ^ n) e c ≤ distance (2 ^ n) e f)
    (hloop : eraseLoop home (2 ^ n) fuel slots e c = some slots') :
    Chained home (2 ^ n) slots' ∧
      ∀ k v, Holds slots' (2 ^ n) k v ↔ ∃ i < 2 ^ n, i ≠ e ∧ slots i = some (k, v) := by
  induction fuel generalizing slots e c with
  | zero => cases hloop
  | succ fuel ih =>
    rw [Probing.eraseLoop] at hloop
    cases hs : slots c with
    | none =>
      rw [hs] at hloop
      obtain rfl := Option.some.inj hloop
      exact h.chained hhome he hc hce hs
    | some b =>
      rw [hs] at hloop
      simp only [distance_eq hn (hhome b.1) he, distance_eq hn (hhome b.1) hc] at hloop
      have hfc : f ≠ c := by
        rintro rfl
        rw [hnone] at hs
        cases hs
      have hnext := next_lt (n := n) c
      have hdist := distance_lt (i := e) hf
      have hstep : distance (2 ^ n) e c < distance (2 ^ n) e f :=
        lt_of_le_of_ne hle fun heq => hfc (distance_inj he hf hc heq.symm)
      split at hloop
      · rename_i hcross
        obtain ⟨hhole, hholds⟩ := h.move he hc hce hs hcross
        have hself := distance_next_right hc hc (by rw [distance_self]; omega)
        rw [distance_self] at hself
        have hahead : distance (2 ^ n) c f ≠ 0 := fun hzero =>
          hfc ((distance_eq_zero hc).1 hzero).symm
        obtain ⟨hchained, hends⟩ := ih hhole hc hnext (by rw [Function.update_of_ne hfe]; exact hnone)
          hfc (fun heq => by rw [heq, distance_self] at hself; omega) (by omega) hloop
        exact ⟨hchained, fun k v => (hends k v).trans (hholds k v)⟩
      · rename_i hcross
        have hself := distance_next_right he hc (by omega)
        exact ih (h.stay he hc hs (by omega) hself) he hnext hnone hfe
          (fun heq => by rw [heq, distance_self] at hself; omega) (by omega) hloop

end Hole

/-- **Erasing keeps the other bindings**, all reachable. -/
theorem Chained.erase {slots' : Slots κ ν} (h : Chained home (2 ^ n) slots) (hn : n ≤ 32)
    (hhome : ∀ k, home k < 2 ^ n) (hi : i < 2 ^ n) (hs : slots i = some (k, v))
    (hroom : (occupied slots (2 ^ n)).card < 2 ^ n)
    (herase : erase home (2 ^ n) slots i = some slots') :
    Chained home (2 ^ n) slots' ∧
      ∀ k' w, Holds slots' (2 ^ n) k' w ↔ k' ≠ k ∧ Holds slots (2 ^ n) k' w := by
  obtain ⟨f, hf, hnone⟩ := exists_empty hroom
  have hfi : f ≠ i := by
    rintro rfl
    rw [hnone] at hs
    cases hs
  have hahead : distance (2 ^ n) i f ≠ 0 := fun hzero => hfi ((distance_eq_zero hi).1 hzero).symm
  have hdist := distance_lt (i := i) hf
  have hself := distance_next_right hi hi (by rw [distance_self]; omega)
  rw [distance_self] at hself
  have hhole : Hole home (2 ^ n) slots i (next (2 ^ n) i) := by
    refine ⟨fun a ha _ b hb _ => h.unique a ha b hb, fun a ha _ k v hav j hj _ => h.reach a ha k v hav j hj,
      fun a ha hai hlt => ?_⟩
    have hpos : distance (2 ^ n) i a ≠ 0 := fun hzero => hai ((distance_eq_zero hi).1 hzero).symm
    omega
  obtain ⟨hchained, hholds⟩ := hhole.eraseLoop hn hhome hi (next_lt i) hf hnone hfi
    (fun heq => by rw [heq, distance_self] at hself; omega) (by omega) herase
  refine ⟨hchained, fun k' w => ?_⟩
  rw [hholds]
  constructor
  · rintro ⟨j, hj, hji, hjw⟩
    refine ⟨?_, j, hj, hjw⟩
    rintro rfl
    exact hji (h.unique j hj i hi k' w v hjw hs)
  · rintro ⟨hne, j, hj, hjw⟩
    refine ⟨j, hj, ?_, hjw⟩
    rintro rfl
    exact hne (Prod.mk.inj (Option.some.inj (hs.symm.trans hjw))).1.symm

end QLog.Probing
