import Mathlib

/-!
# Linear probing

The slots of an open-addressing table whose capacity is a power of two. `walk` visits the slots in
cyclic order from some index on, until it may stop; it stops when there is a slot to stop at
(`walk_of_stop`). `place` puts a binding into the first empty slot, and `erase` empties a slot and
moves the bindings behind it, so that every binding can still be reached from its home.

The lemmas say how many slots are occupied and where the bindings of a slot come from.
-/

namespace QLog.Probing

variable {κ ν β : Type*}

/-- The bindings of a table. -/
abbrev Slots (κ ν : Type*) := ℕ → Option (κ × ν)

/-- The index behind `i`, in cyclic order. -/
def next (capacity i : ℕ) : ℕ := (i + 1) &&& (capacity - 1)

/-- Visit the slots from `i` on, for so many turns. -/
def walk (stop : ℕ → Option β) (capacity : ℕ) : ℕ → ℕ → Option β
  | 0, _ => none
  | fuel + 1, i =>
    match stop i with
    | some r => some r
    | none => walk stop capacity fuel (next capacity i)

/-- The first empty slot from `i` on. -/
def firstEmpty (slots : Slots κ ν) (capacity i : ℕ) : Option ℕ :=
  walk (fun j => if (slots j).isSome then none else some j) capacity capacity i

/-- The first occupied slot from `i` on. -/
def firstOccupied (slots : Slots κ ν) (capacity i : ℕ) : Option ℕ :=
  walk (fun j => if (slots j).isSome then some j else none) capacity capacity i

/-- A search for a key ends at its slot or at an empty one. -/
def foundAt [DecidableEq κ] (slots : Slots κ ν) (key : κ) (j : ℕ) : Option (Bool × ℕ) :=
  match slots j with
  | none => some (false, j)
  | some (k, _) => if k = key then some (true, j) else none

/-- The slot of a key, or the empty slot where the search for it ends. -/
def findSlotOrEmpty [DecidableEq κ] (slots : Slots κ ν) (capacity : ℕ) (key : κ) (i : ℕ) :
    Option (Bool × ℕ) :=
  walk (foundAt slots key) capacity capacity i

/-- A binding is put into the first empty slot from its home on. -/
def place (home : κ → ℕ) (capacity : ℕ) (slots : Slots κ ν) (b : κ × ν) : Option (Slots κ ν) :=
  (firstEmpty slots capacity (home b.1)).map fun i => Function.update slots i (some b)

/-- The bindings of the first `n` slots are put into another table. -/
def rehash (home : κ → ℕ) (capacity : ℕ) (old : Slots κ ν) : ℕ → Option (Slots κ ν)
  | 0 => some fun _ => none
  | n + 1 =>
    (rehash home capacity old n).bind fun slots =>
      match old n with
      | some b => place home capacity slots b
      | none => some slots

/-- The loop of `erase`, for so many turns: `empty` is the slot to fill, `current` the slot visited. -/
def eraseLoop (home : κ → ℕ) (capacity : ℕ) : ℕ → Slots κ ν → ℕ → ℕ → Option (Slots κ ν)
  | 0, _, _, _ => none
  | fuel + 1, slots, empty, current =>
    match slots current with
    | none => some (Function.update slots empty none)
    | some (k, v) =>
      if (empty + 2 ^ 32 - home k) % 2 ^ 32 &&& (capacity - 1) <
          (current + 2 ^ 32 - home k) % 2 ^ 32 &&& (capacity - 1) then
        eraseLoop home capacity fuel (Function.update slots empty (some (k, v))) current
          (next capacity current)
      else eraseLoop home capacity fuel slots empty (next capacity current)

/-- Empty a slot. -/
def erase (home : κ → ℕ) (capacity : ℕ) (slots : Slots κ ν) (i : ℕ) : Option (Slots κ ν) :=
  eraseLoop home capacity capacity slots i (next capacity i)

/-- The occupied slots. -/
def occupied (slots : Slots κ ν) (capacity : ℕ) : Finset ℕ :=
  (Finset.range capacity).filter fun i => (slots i).isSome

/-- Every binding in the table has the property. -/
def Bindings (P : κ → ν → Prop) (slots : Slots κ ν) (capacity : ℕ) : Prop :=
  ∀ i < capacity, ∀ k v, slots i = some (k, v) → P k v

/-! ## Walking -/

variable {capacity i j : ℕ}

theorem next_eq {n : ℕ} (i : ℕ) : next (2 ^ n) i = (i + 1) % 2 ^ n :=
  Nat.and_two_pow_sub_one_eq_mod _ _

theorem next_lt {n : ℕ} (i : ℕ) : next (2 ^ n) i < 2 ^ n := by
  rw [next_eq]
  exact Nat.mod_lt _ (Nat.two_pow_pos n)

/-- The slot at a cyclic distance is reached, unless the walk stops before. -/
theorem walk_of_distance {n : ℕ} {stop : ℕ → Option β} {fuel d : ℕ} (hi : i < 2 ^ n) (hd : d < fuel)
    (hstop : (stop ((i + d) % 2 ^ n)).isSome) :
    ∃ r l, walk stop (2 ^ n) fuel i = some r ∧ l < 2 ^ n ∧ stop l = some r := by
  induction fuel generalizing i d with
  | zero => omega
  | succ fuel ih =>
    rw [walk]
    cases hs : stop i with
    | some r => exact ⟨r, i, rfl, hi, hs⟩
    | none =>
      cases d with
      | zero =>
        rw [Nat.add_zero, Nat.mod_eq_of_lt hi, hs] at hstop
        cases hstop
      | succ d =>
        refine ih (next_lt i) (Nat.lt_of_succ_lt_succ hd) ?_
        rw [next_eq, Nat.mod_add_mod, show i + 1 + d = i + (d + 1) by omega]
        exact hstop

/-- **A walk stops**, if there is a slot to stop at. -/
theorem walk_of_stop {n : ℕ} (stop : ℕ → Option β) (hi : i < 2 ^ n) (hj : j < 2 ^ n)
    (hstop : (stop j).isSome) :
    ∃ r l, walk stop (2 ^ n) (2 ^ n) i = some r ∧ l < 2 ^ n ∧ stop l = some r := by
  have hd : (j + 2 ^ n - i) % 2 ^ n < 2 ^ n := Nat.mod_lt _ (by omega)
  refine walk_of_distance hi hd ?_
  rw [Nat.add_mod_mod, show i + (j + 2 ^ n - i) = j + 2 ^ n by omega, Nat.add_mod_right,
    Nat.mod_eq_of_lt hj]
  exact hstop

/-! ## Occupied slots -/

variable {slots : Slots κ ν}

theorem mem_occupied : i ∈ occupied slots capacity ↔ i < capacity ∧ (slots i).isSome := by
  rw [occupied, Finset.mem_filter, Finset.mem_range]

theorem exists_empty (h : (occupied slots capacity).card < capacity) : ∃ j < capacity, slots j = none := by
  by_contra hall
  push Not at hall
  have hfull : occupied slots capacity = Finset.range capacity := by
    refine Finset.filter_true_of_mem fun j hj => ?_
    exact Option.isSome_iff_ne_none.2 (hall j (Finset.mem_range.1 hj))
  rw [hfull, Finset.card_range] at h
  omega

theorem exists_occupied (h : 0 < (occupied slots capacity).card) :
    ∃ j < capacity, (slots j).isSome := by
  obtain ⟨j, hj⟩ := Finset.card_pos.1 h
  exact ⟨j, mem_occupied.1 hj⟩

theorem occupied_update_some (hi : i < capacity) (b : κ × ν) :
    occupied (Function.update slots i (some b)) capacity = insert i (occupied slots capacity) := by
  ext j
  rw [Finset.mem_insert, mem_occupied, mem_occupied]
  rcases eq_or_ne j i with rfl | hne
  · rw [Function.update_self]
    exact ⟨fun _ => .inl rfl, fun _ => ⟨hi, rfl⟩⟩
  · rw [Function.update_of_ne hne]
    exact ⟨fun h => .inr h, fun h => h.resolve_left hne⟩

theorem occupied_update_none :
    occupied (Function.update slots i none) capacity = (occupied slots capacity).erase i := by
  ext j
  rw [Finset.mem_erase, mem_occupied, mem_occupied]
  rcases eq_or_ne j i with rfl | hne
  · rw [Function.update_self]
    exact ⟨fun h => (by cases h.2), fun h => absurd rfl h.1⟩
  · rw [Function.update_of_ne hne]
    exact ⟨fun h => ⟨hne, h⟩, fun h => h.2⟩

theorem Bindings.update {P : κ → ν → Prop} (h : Bindings P slots capacity) {b : Option (κ × ν)}
    (hb : ∀ k v, b = some (k, v) → P k v) : Bindings P (Function.update slots i b) capacity := by
  intro j hj k v hjkv
  rcases eq_or_ne j i with rfl | hne
  · rw [Function.update_self] at hjkv
    exact hb k v hjkv
  · rw [Function.update_of_ne hne] at hjkv
    exact h j hj k v hjkv

/-! ## Searching and placing -/

variable {n : ℕ}

theorem firstEmpty_spec (hi : i < 2 ^ n) (h : (occupied slots (2 ^ n)).card < 2 ^ n) :
    ∃ l, firstEmpty slots (2 ^ n) i = some l ∧ l < 2 ^ n ∧ slots l = none := by
  obtain ⟨j, hj, hempty⟩ := exists_empty h
  obtain ⟨r, l, hr, hl, hstop⟩ := walk_of_stop
    (fun j => if (slots j).isSome then none else some j) hi hj (by rw [hempty]; rfl)
  split at hstop
  · cases hstop
  · rename_i hnone
    obtain rfl := Option.some.inj hstop
    exact ⟨l, hr, hl, Option.not_isSome_iff_eq_none.1 hnone⟩

theorem firstOccupied_spec (hi : i < 2 ^ n) (h : 0 < (occupied slots (2 ^ n)).card) :
    ∃ l, firstOccupied slots (2 ^ n) i = some l ∧ l < 2 ^ n ∧ (slots l).isSome := by
  obtain ⟨j, hj, hsome⟩ := exists_occupied h
  obtain ⟨r, l, hr, hl, hstop⟩ := walk_of_stop
    (fun j => if (slots j).isSome then some j else none) hi hj (by rw [if_pos hsome]; rfl)
  split at hstop
  · rename_i hocc
    obtain rfl := Option.some.inj hstop
    exact ⟨l, hr, hl, hocc⟩
  · cases hstop

/-- **A search ends** at the key or at an empty slot. -/
theorem findSlotOrEmpty_spec [DecidableEq κ] (key : κ) (hi : i < 2 ^ n)
    (h : (occupied slots (2 ^ n)).card < 2 ^ n) :
    ∃ found l, findSlotOrEmpty slots (2 ^ n) key i = some (found, l) ∧ l < 2 ^ n ∧
      (found = true → ∃ v, slots l = some (key, v)) ∧ (found = false → slots l = none) := by
  obtain ⟨j, hj, hempty⟩ := exists_empty h
  obtain ⟨⟨found, k⟩, l, hr, hl, hstop⟩ := walk_of_stop (foundAt slots key) hi hj
    (by rw [foundAt, hempty]; rfl)
  rw [foundAt] at hstop
  cases hslot : slots l with
  | none =>
    rw [hslot] at hstop
    obtain ⟨rfl, rfl⟩ := Prod.mk.inj (Option.some.inj hstop)
    exact ⟨false, l, hr, hl, fun h => (by cases h), fun _ => hslot⟩
  | some b =>
    rw [hslot] at hstop
    simp only at hstop
    split at hstop
    · rename_i hkey
      obtain ⟨rfl, rfl⟩ := Prod.mk.inj (Option.some.inj hstop)
      exact ⟨true, l, hr, hl, fun _ => ⟨b.2, by rw [hslot, ← hkey]⟩, fun h => (by cases h)⟩
    · cases hstop

theorem place_spec (slots : Slots κ ν) {home : κ → ℕ} (hhome : ∀ k, home k < 2 ^ n) (b : κ × ν)
    (h : (occupied slots (2 ^ n)).card < 2 ^ n) :
    ∃ slots', place home (2 ^ n) slots b = some slots' ∧
      (occupied slots' (2 ^ n)).card = (occupied slots (2 ^ n)).card + 1 ∧
      ∀ P : κ → ν → Prop, Bindings P slots (2 ^ n) → P b.1 b.2 → Bindings P slots' (2 ^ n) := by
  obtain ⟨l, hl, hlt, hnone⟩ := firstEmpty_spec (hhome b.1) h
  refine ⟨_, by rw [place, hl]; rfl, ?_, fun P hP hb => hP.update fun k v hkv => ?_⟩
  · rw [occupied_update_some hlt, Finset.card_insert_of_notMem]
    intro hmem
    rw [mem_occupied, hnone] at hmem
    cases hmem.2
  · obtain rfl := Option.some.inj hkv
    exact hb

/-- **Rehashing keeps the bindings.** -/
theorem rehash_spec {home : κ → ℕ} (hhome : ∀ k, home k < 2 ^ n) (old : Slots κ ν) {m : ℕ}
    (h : (occupied old m).card < 2 ^ n) :
    ∃ slots', rehash home (2 ^ n) old m = some slots' ∧
      (occupied slots' (2 ^ n)).card = (occupied old m).card ∧
      ∀ P : κ → ν → Prop, Bindings P old m → Bindings P slots' (2 ^ n) := by
  induction m with
  | zero =>
    refine ⟨_, rfl, ?_, fun P _ j _ k v hjkv => by cases hjkv⟩
    have hnone : occupied (fun _ => none : Slots κ ν) (2 ^ n) = ∅ :=
      Finset.filter_false_of_mem fun _ _ => by simp
    rw [hnone]
    rfl
  | succ m ih =>
    have hsplit : occupied old (m + 1) =
        if (old m).isSome then insert m (occupied old m) else occupied old m := by
      rw [occupied, Finset.range_add_one, Finset.filter_insert]
      rfl
    have hnot : m ∉ occupied old m := fun hm => Nat.lt_irrefl m (mem_occupied.1 hm).1
    cases hm : old m with
    | none =>
      rw [hm, if_neg (by simp)] at hsplit
      rw [hsplit] at h
      obtain ⟨slots', hs, hcard, hP⟩ := ih h
      refine ⟨slots', by rw [rehash, hs, Option.bind_some, hm], ?_, fun P hold => ?_⟩
      · rw [hsplit, hcard]
      · exact hP P fun j hj => hold j (by omega)
    | some b =>
      rw [hm, if_pos (by rfl)] at hsplit
      rw [hsplit, Finset.card_insert_of_notMem hnot] at h
      obtain ⟨slots', hs, hcard, hP⟩ := ih (by omega)
      obtain ⟨slots'', hs', hcard', hP'⟩ := place_spec slots' hhome b (by omega)
      refine ⟨slots'', by rw [rehash, hs, Option.bind_some, hm]; exact hs', ?_, fun P hold => ?_⟩
      · rw [hsplit, Finset.card_insert_of_notMem hnot, hcard', hcard]
      · exact hP' P (hP P fun j hj => hold j (by omega)) (hold m (by omega) b.1 b.2 hm)

/-! ## Erasing -/

/-- The loop keeps the occupied slots, until it empties the last one that it filled. -/
theorem eraseLoop_spec (home : κ → ℕ) (slots : Slots κ ν) {fuel d empty : ℕ} (hi : i < 2 ^ n) (hd : d < fuel)
    (hempty : slots ((i + d) % 2 ^ n) = none) (hlt : empty < 2 ^ n) (hocc : (slots empty).isSome) :
    ∃ slots', eraseLoop home (2 ^ n) fuel slots empty i = some slots' ∧
      (occupied slots' (2 ^ n)).card + 1 = (occupied slots (2 ^ n)).card ∧
      ∀ P : κ → ν → Prop, Bindings P slots (2 ^ n) → Bindings P slots' (2 ^ n) := by
  induction fuel generalizing slots i d empty with
  | zero => omega
  | succ fuel ih =>
    rw [eraseLoop]
    cases hs : slots i with
    | none =>
      refine ⟨_, rfl, ?_, fun P hP => hP.update fun k v hkv => by cases hkv⟩
      rw [occupied_update_none]
      exact Finset.card_erase_add_one (mem_occupied.2 ⟨hlt, hocc⟩)
    | some b =>
      obtain ⟨d, rfl⟩ : ∃ e, d = e + 1 := by
        refine Nat.exists_eq_succ_of_ne_zero fun hzero => ?_
        rw [hzero, Nat.add_zero, Nat.mod_eq_of_lt hi, hs] at hempty
        cases hempty
      have hnext : (next (2 ^ n) i + d) % 2 ^ n = (i + (d + 1)) % 2 ^ n := by
        rw [next_eq, Nat.mod_add_mod, show i + 1 + d = i + (d + 1) by omega]
      simp only
      split
      · -- the binding at `i` moves to the slot to fill, and `i` is to be filled next
        have hne : (next (2 ^ n) i + d) % 2 ^ n ≠ empty := by
          rintro heq
          rw [hnext] at heq
          rw [heq] at hempty
          rw [hempty] at hocc
          cases hocc
        have hocc' : (Function.update slots empty (some b) i).isSome := by
          rcases eq_or_ne i empty with rfl | hie
          · rw [Function.update_self]
            rfl
          · rw [Function.update_of_ne hie, hs]
            rfl
        obtain ⟨slots', h1, h2, h3⟩ := ih (Function.update slots empty (some b)) (next_lt i)
          (Nat.lt_of_succ_lt_succ hd) (by rw [Function.update_of_ne hne, hnext]; exact hempty) hi hocc'
        refine ⟨slots', h1, ?_, fun P hP => h3 P (hP.update fun k v hkv => ?_)⟩
        · rw [h2, occupied_update_some hlt, Finset.insert_eq_of_mem (mem_occupied.2 ⟨hlt, hocc⟩)]
        · obtain rfl := Option.some.inj hkv
          exact hP i hi k v hs
      · exact ih slots (next_lt i) (Nat.lt_of_succ_lt_succ hd) (by rw [hnext]; exact hempty) hlt hocc

/-- **Erasing ends** and empties one slot. -/
theorem erase_spec (home : κ → ℕ) (hi : i < 2 ^ n) (hocc : (slots i).isSome)
    (h : (occupied slots (2 ^ n)).card < 2 ^ n) :
    ∃ slots', erase home (2 ^ n) slots i = some slots' ∧
      (occupied slots' (2 ^ n)).card + 1 = (occupied slots (2 ^ n)).card ∧
      ∀ P : κ → ν → Prop, Bindings P slots (2 ^ n) → Bindings P slots' (2 ^ n) := by
  obtain ⟨j, hj, hempty⟩ := exists_empty h
  have hnext := next_lt (n := n) i
  have hd : (j + 2 ^ n - next (2 ^ n) i) % 2 ^ n < 2 ^ n := Nat.mod_lt _ (by omega)
  refine eraseLoop_spec home slots hnext hd ?_ hi hocc
  rw [Nat.add_mod_mod, show next (2 ^ n) i + (j + 2 ^ n - next (2 ^ n) i) = j + 2 ^ n by omega,
    Nat.add_mod_right, Nat.mod_eq_of_lt hj]
  exact hempty

end QLog.Probing
