import QLog.Foundations.Probing

/-!
# The bounded hash cache

A model of `bounded_hash_cache`: an open-addressing table from 64-bit keys to 32-bit values with a
limit on its entries. The table doubles when half of it is used; at the limit, every 64th new entry
replaces the one under a clock hand. An entry whose value is `invalid_value` cannot be told from an
empty slot.

Every operation ends and keeps `WellFormed`, and a binding in the table is one that was inserted since
the last `clear` (`find_spec`, `insertNew_spec`).
-/

namespace QLog.Appender

open Probing

/-- The finalizer of murmur3, used for the slots of both cache levels. -/
def mixCacheKey (key : BitVec 64) : BitVec 64 :=
  let key := key ^^^ (key >>> 33)
  let key := key * 0xff51afd7ed558ccd
  let key := key ^^^ (key >>> 33)
  let key := key * 0xc4ceb9fe1a85ec53
  key ^^^ (key >>> 33)

/-- `get_table_hash`. -/
def getTableHash (key : BitVec 64) : ℕ := (mixCacheKey key >>> 32).toNat

/-- `invalid_value`, the value of an empty slot. -/
def invalidValue : ℕ := 2 ^ 32 - 1

/-- What a slot holds after a key and a value are stored in it. -/
def slotOf (key : BitVec 64) (value : ℕ) : Option (BitVec 64 × ℕ) :=
  if value = invalidValue then none else some (key, value)

/-- `bounded_hash_cache`. The arrays are missing when the capacity is 0. -/
structure BoundedHashCache where
  slots : Slots (BitVec 64) ℕ
  size : ℕ
  capacity : ℕ
  victim : ℕ
  admission : ℕ
  maxSize : ℕ
  tableRevision : ℕ

/-- `insert_token`. -/
structure InsertToken where
  slotIndex : ℕ
  tableRevision : ℕ
deriving DecidableEq

/-- The default token. -/
def InsertToken.invalid : InsertToken := ⟨2 ^ 32 - 1, 0⟩

/-- The result of `find`. -/
inductive Found
  | hit (value : ℕ)
  | miss (token : InsertToken)
deriving DecidableEq

namespace BoundedHashCache

variable (c : BoundedHashCache)

/-- `min_capacity`. -/
def minCapacity : ℕ := 8

/-- `admission_divisor`. -/
def admissionDivisor : ℕ := 64

/-- Where the search for a key begins. -/
def home (capacity : ℕ) (key : BitVec 64) : ℕ := getTableHash key &&& (capacity - 1)

/-- `find_slot_or_empty`. -/
def findSlotOrEmpty (key : BitVec 64) : Option (Bool × ℕ) :=
  if c.capacity = 0 then some (false, invalidValue)
  else Probing.findSlotOrEmpty c.slots c.capacity key (home c.capacity key)

/-- `find`. -/
def find (key : BitVec 64) : Option Found :=
  c.findSlotOrEmpty key |>.bind fun
    | (false, i) => some (.miss ⟨i, c.tableRevision⟩)
    | (true, i) => (c.slots i).map fun b => .hit b.2

/-- `clear`. -/
def clear : BoundedHashCache :=
  { c with
    slots := fun _ => none
    size := 0
    capacity := 0
    victim := 0
    admission := 0
    tableRevision := (c.tableRevision + 1) % 2 ^ 32 }

/-- `normalize_max_size`. -/
def normalizeMaxSize (limit maxSize : ℕ) : ℕ :=
  if maxSize < minCapacity then minCapacity else if limit < maxSize then limit else maxSize

/-- `set_max_size`. -/
def setMaxSize (limit maxSize : ℕ) : Bool × BoundedHashCache :=
  let normalized := normalizeMaxSize limit maxSize
  if normalized = c.maxSize then (true, c)
  else if c.size ≠ 0 ∧ normalized < c.maxSize then (false, c)
  else (true, { c with maxSize := normalized })

/-- `resize`, when the memory is granted. -/
def resize (newCapacity : ℕ) : Option BoundedHashCache :=
  (rehash (home newCapacity) newCapacity c.slots c.capacity).map fun slots =>
    { c with
      slots := slots
      capacity := newCapacity
      victim := 0
      tableRevision := (c.tableRevision + 1) % 2 ^ 32 }

/-- `erase`. -/
def eraseSlot (i : ℕ) : Option BoundedHashCache :=
  (erase (home c.capacity) c.capacity c.slots i).map fun slots =>
    { c with slots := slots, size := c.size - 1, tableRevision := (c.tableRevision + 1) % 2 ^ 32 }

/-- A binding is stored in a slot that was empty. -/
def storeAt (i : ℕ) (key : BitVec 64) (value : ℕ) : BoundedHashCache :=
  { c with
    slots := Function.update c.slots i (slotOf key value)
    size := c.size + 1
    tableRevision := (c.tableRevision + 1) % 2 ^ 32 }

/-- The end of `insert_new`: the slot of the token, when nothing has changed since, or the slot that a
new search finds. -/
def put (key : BitVec 64) (value : ℕ) (token : InsertToken) : Option BoundedHashCache :=
  if token.tableRevision = c.tableRevision ∧ token.slotIndex < c.capacity ∧
      (c.slots token.slotIndex).isNone then
    some (c.storeAt token.slotIndex key value)
  else
    c.findSlotOrEmpty key |>.map fun
      | (true, i) => { c with slots := Function.update c.slots i (slotOf key value) }
      | (false, i) => c.storeAt i key value

/-- The replacement at the limit: the victim is erased, once in so many attempts. -/
def evict (key : BitVec 64) (value : ℕ) (token : InsertToken) : Option BoundedHashCache :=
  let c := { c with admission := (c.admission + 1) % 2 ^ 32 }
  if c.admission &&& (admissionDivisor - 1) ≠ 0 then some c
  else
    (firstOccupied c.slots c.capacity c.victim).bind fun victim =>
      ({ c with victim := next c.capacity victim }.eraseSlot victim).bind (·.put key value token)

/-- `insert_new`, with the answer of the allocator. -/
def insertNew (granted : Bool) (key : BitVec 64) (value : ℕ) (token : InsertToken) :
    Option BoundedHashCache :=
  if c.capacity = 0 then
    if granted then (c.resize minCapacity).bind (·.put key value token) else some c
  else if c.size < c.maxSize ∧ c.capacity / 2 ≤ c.size then
    if granted then (c.resize (c.capacity * 2)).bind (·.put key value token) else some c
  else if c.maxSize ≤ c.size then c.evict key value token
  else c.put key value token

/-- `insert` without a token. -/
def insert (granted : Bool) (key : BitVec 64) (value : ℕ) : Option BoundedHashCache :=
  c.findSlotOrEmpty key |>.bind fun
    | (true, i) => some { c with slots := Function.update c.slots i (slotOf key value) }
    | (false, _) => c.insertNew granted key value .invalid

/-- The cache after its constructor. -/
def fresh (limit maxSize : ℕ) : BoundedHashCache :=
  ⟨fun _ => none, 0, 0, 0, 0, normalizeMaxSize limit maxSize, 0⟩

/-! ## The invariant -/

/-- At most half of a table is used, and the number of entries is known. -/
structure WellFormed : Prop where
  capacity : c.capacity = 0 ∨ ∃ n, 3 ≤ n ∧ c.capacity = 2 ^ n
  card : (occupied c.slots c.capacity).card = c.size
  half : 2 * c.size ≤ c.capacity
  victim : c.capacity ≠ 0 → c.victim < c.capacity
  maxSize : minCapacity ≤ c.maxSize

/-- Every binding in the cache has the property. -/
def Holds (P : BitVec 64 → ℕ → Prop) : Prop := Bindings P c.slots c.capacity

variable {c} {key : BitVec 64} {value : ℕ} {n : ℕ}

theorem home_lt (key : BitVec 64) : home (2 ^ n) key < 2 ^ n := by
  rw [home, Nat.and_two_pow_sub_one_eq_mod]
  exact Nat.mod_lt _ (Nat.two_pow_pos n)

theorem minCapacity_eq : minCapacity = 2 ^ 3 := rfl

theorem occupied_zero (slots : Slots (BitVec 64) ℕ) : occupied slots 0 = ∅ := rfl

theorem wellFormed_empty (h : c.capacity = 0) (hsize : c.size = 0) (hmax : minCapacity ≤ c.maxSize) :
    c.WellFormed where
  capacity := .inl h
  card := by rw [h, occupied_zero, hsize]; rfl
  half := by omega
  victim := fun hne => absurd h hne
  maxSize := hmax

theorem holds_empty (P : BitVec 64 → ℕ → Prop) (h : c.capacity = 0) : c.Holds P := by
  intro i hi
  rw [h] at hi
  omega

theorem minCapacity_le_normalize {limit : ℕ} (hlimit : minCapacity ≤ limit) (maxSize : ℕ) :
    minCapacity ≤ normalizeMaxSize limit maxSize := by
  unfold normalizeMaxSize
  split_ifs <;> omega

theorem fresh_wellFormed {limit : ℕ} (hlimit : minCapacity ≤ limit) (maxSize : ℕ) :
    (fresh limit maxSize).WellFormed :=
  wellFormed_empty rfl rfl (minCapacity_le_normalize hlimit maxSize)

/-- **A cleared cache holds nothing.** -/
theorem WellFormed.clear (h : c.WellFormed) : c.clear.WellFormed ∧ ∀ P, c.clear.Holds P :=
  ⟨wellFormed_empty rfl rfl h.maxSize, fun P => holds_empty P rfl⟩

theorem WellFormed.setMaxSize {limit : ℕ} (h : c.WellFormed) (hlimit : minCapacity ≤ limit) (m : ℕ) :
    (c.setMaxSize limit m).2.WellFormed ∧ ∀ P, c.Holds P → (c.setMaxSize limit m).2.Holds P := by
  unfold BoundedHashCache.setMaxSize
  dsimp only
  split_ifs
  · exact ⟨h, fun _ hP => hP⟩
  · exact ⟨h, fun _ hP => hP⟩
  · exact ⟨⟨h.capacity, h.card, h.half, h.victim, minCapacity_le_normalize hlimit m⟩, fun _ hP => hP⟩

/-! ## Searching -/

/-- A search in a table that is in use. -/
theorem WellFormed.findSlotOrEmpty (h : c.WellFormed) (hn : c.capacity = 2 ^ n) (key : BitVec 64) :
    ∃ found i, c.findSlotOrEmpty key = some (found, i) ∧ i < c.capacity ∧
      (found = true → ∃ v, c.slots i = some (key, v)) ∧ (found = false → c.slots i = none) := by
  have hpos := Nat.two_pow_pos n
  have hcard : (occupied c.slots (2 ^ n)).card < 2 ^ n := by
    have h1 := h.card
    have h2 := h.half
    rw [hn] at h1 h2
    omega
  rw [BoundedHashCache.findSlotOrEmpty, if_neg (by omega), hn]
  exact findSlotOrEmpty_spec key (home_lt key) hcard

/-- **A search ends, and what it finds was inserted.** -/
theorem WellFormed.find (h : c.WellFormed) (key : BitVec 64) :
    ∃ r, c.find key = some r ∧ ∀ v, r = .hit v → ∀ P, c.Holds P → P key v := by
  unfold BoundedHashCache.find
  rcases h.capacity with hz | ⟨n, -, hn⟩
  · refine ⟨_, by rw [BoundedHashCache.findSlotOrEmpty, if_pos hz]; rfl, fun v hv => ?_⟩
    cases hv
  · obtain ⟨found, i, hfind, hi, htrue, hfalse⟩ := h.findSlotOrEmpty hn key
    rw [hfind]
    cases found with
    | false => exact ⟨_, rfl, fun v hv => by cases hv⟩
    | true =>
      obtain ⟨v, hv⟩ := htrue rfl
      refine ⟨.hit v, by rw [Option.bind_some]; simp only [hv]; rfl, fun w hw P hP => ?_⟩
      obtain rfl : v = w := by injection hw
      exact hP i hi key v hv

/-! ## Inserting -/

/-- A binding is stored in an empty slot. -/
theorem WellFormed.storeAt (h : c.WellFormed) (hv : value ≠ invalidValue)
    (hroom : 2 * (c.size + 1) ≤ c.capacity) {i : ℕ} (hi : i < c.capacity) (hnone : c.slots i = none) :
    (c.storeAt i key value).WellFormed ∧
      ∀ P, c.Holds P → P key value → (c.storeAt i key value).Holds P := by
  have hslot : slotOf key value = some (key, value) := if_neg hv
  refine ⟨⟨h.capacity, ?_, hroom, h.victim, h.maxSize⟩, fun P hP hkv => hP.update fun k v hs => ?_⟩
  · change (occupied (Function.update c.slots i (slotOf key value)) c.capacity).card = c.size + 1
    rw [hslot, occupied_update_some hi, Finset.card_insert_of_notMem, h.card]
    intro hmem
    rw [mem_occupied, hnone] at hmem
    cases hmem.2
  · rw [hslot] at hs
    obtain ⟨rfl, rfl⟩ := Prod.mk.inj (Option.some.inj hs)
    exact hkv

/-- A binding replaces the one of the same key. -/
theorem WellFormed.replace (h : c.WellFormed) (hv : value ≠ invalidValue) {i : ℕ} (hi : i < c.capacity)
    (hsome : (c.slots i).isSome) :
    { c with slots := Function.update c.slots i (slotOf key value) }.WellFormed ∧
      ∀ P, c.Holds P → P key value →
        { c with slots := Function.update c.slots i (slotOf key value) }.Holds P := by
  have hslot : slotOf key value = some (key, value) := if_neg hv
  refine ⟨⟨h.capacity, ?_, h.half, h.victim, h.maxSize⟩, fun P hP hkv => hP.update fun k v hs => ?_⟩
  · change (occupied (Function.update c.slots i (slotOf key value)) c.capacity).card = c.size
    rw [hslot, occupied_update_some hi, Finset.insert_eq_of_mem (mem_occupied.2 ⟨hi, hsome⟩), h.card]
  · rw [hslot] at hs
    obtain ⟨rfl, rfl⟩ := Prod.mk.inj (Option.some.inj hs)
    exact hkv

theorem WellFormed.put (h : c.WellFormed) (key : BitVec 64) (hv : value ≠ invalidValue)
    (hroom : 2 * (c.size + 1) ≤ c.capacity) (token : InsertToken) :
    ∃ c', c.put key value token = some c' ∧ c'.WellFormed ∧
      ∀ P, c.Holds P → P key value → c'.Holds P := by
  unfold BoundedHashCache.put
  split
  · rename_i ht
    obtain ⟨-, hlt, hnone⟩ := ht
    exact ⟨_, rfl, h.storeAt hv hroom hlt (Option.isNone_iff_eq_none.1 hnone)⟩
  · obtain ⟨n, -, hn⟩ := h.capacity.resolve_left (by omega)
    obtain ⟨found, i, hfind, hi, htrue, hfalse⟩ := h.findSlotOrEmpty hn key
    rw [hfind, Option.map_some]
    cases found with
    | false => exact ⟨_, rfl, h.storeAt hv hroom hi (hfalse rfl)⟩
    | true =>
      obtain ⟨v, hslot⟩ := htrue rfl
      exact ⟨_, rfl, h.replace hv hi (by rw [hslot]; rfl)⟩

theorem WellFormed.resize (h : c.WellFormed) (hn : 3 ≤ n) (hle : 2 * c.size ≤ 2 ^ n) :
    ∃ c', c.resize (2 ^ n) = some c' ∧ c'.WellFormed ∧ c'.size = c.size ∧ c'.capacity = 2 ^ n ∧
      ∀ P, c.Holds P → c'.Holds P := by
  have hpos := Nat.two_pow_pos n
  have hcard := h.card
  obtain ⟨slots, hs, hcard', hP⟩ := rehash_spec (fun k => home_lt (n := n) k) c.slots
    (show (occupied c.slots c.capacity).card < 2 ^ n by omega)
  have hresize : c.resize (2 ^ n) = some { c with
      slots := slots
      capacity := 2 ^ n
      victim := 0
      tableRevision := (c.tableRevision + 1) % 2 ^ 32 } := by
    rw [BoundedHashCache.resize, hs]
    rfl
  exact ⟨_, hresize, ⟨.inr ⟨n, hn, rfl⟩, hcard'.trans hcard, hle, fun _ => hpos, h.maxSize⟩, rfl, rfl,
    hP⟩

theorem WellFormed.eraseSlot (h : c.WellFormed) (hn : c.capacity = 2 ^ n) {i : ℕ} (hi : i < c.capacity)
    (hsome : (c.slots i).isSome) :
    ∃ c', c.eraseSlot i = some c' ∧ c'.WellFormed ∧ c'.size + 1 = c.size ∧ c'.capacity = c.capacity ∧
      ∀ P, c.Holds P → c'.Holds P := by
  have hcard := h.card
  have hhalf := h.half
  have hpos : 0 < (occupied c.slots c.capacity).card :=
    Finset.card_pos.2 ⟨i, mem_occupied.2 ⟨hi, hsome⟩⟩
  rw [hn] at hi hcard hhalf hpos
  obtain ⟨slots, hs, hcard', hP⟩ := erase_spec (home (2 ^ n)) hi hsome (by omega)
  refine ⟨{ c with slots := slots, size := c.size - 1, tableRevision := (c.tableRevision + 1) % 2 ^ 32 },
    by rw [BoundedHashCache.eraseSlot, hn, hs]; rfl, ⟨h.capacity, ?_, ?_, h.victim, h.maxSize⟩, ?_, rfl,
    fun P hc => ?_⟩
  · change (occupied slots c.capacity).card = c.size - 1
    rw [hn]
    omega
  · change 2 * (c.size - 1) ≤ c.capacity
    omega
  · change c.size - 1 + 1 = c.size
    omega
  · change Bindings P slots c.capacity
    rw [hn]
    refine hP P ?_
    rw [← hn]
    exact hc

theorem WellFormed.evict (h : c.WellFormed) (hv : value ≠ invalidValue) (hfull : c.maxSize ≤ c.size)
    (token : InsertToken) :
    ∃ c', c.evict key value token = some c' ∧ c'.WellFormed ∧
      ∀ P, c.Holds P → P key value → c'.Holds P := by
  have hmax := h.maxSize
  have hmin : minCapacity = 8 := rfl
  have hhalf := h.half
  have hcard := h.card
  obtain ⟨n, -, hn⟩ := h.capacity.resolve_left (by omega)
  have hvictim := h.victim (by omega)
  unfold BoundedHashCache.evict
  dsimp only
  split
  · exact ⟨_, rfl, ⟨h.capacity, h.card, h.half, h.victim, h.maxSize⟩, fun _ hP _ => hP⟩
  · have hocc : 0 < (occupied c.slots (2 ^ n)).card := by
      rw [hn] at hcard
      omega
    rw [hn] at hvictim
    obtain ⟨l, hl, hlt, hsome⟩ := firstOccupied_spec hvictim hocc
    have hnext : next c.capacity l < c.capacity := by
      rw [hn]
      exact next_lt l
    rw [← hn] at hl hlt
    rw [hl, Option.bind_some]
    have hwf : { c with
        admission := (c.admission + 1) % 2 ^ 32
        victim := next c.capacity l }.WellFormed :=
      ⟨h.capacity, h.card, h.half, fun _ => hnext, h.maxSize⟩
    obtain ⟨c', he, hwf', hsize, hcap, hP⟩ := hwf.eraseSlot hn hlt hsome
    rw [he, Option.bind_some]
    obtain ⟨c'', hput, hwf'', hP'⟩ := hwf'.put key hv (by rw [hsize, hcap]; exact hhalf) token
    exact ⟨c'', hput, hwf'', fun P hc hkv => hP' P (hP P hc) hkv⟩

/-- **An insertion ends, and the bindings after it were there before or are the new one.** -/
theorem WellFormed.insertNew (h : c.WellFormed) (key : BitVec 64) (hv : value ≠ invalidValue) (granted : Bool)
    (token : InsertToken) :
    ∃ c', c.insertNew granted key value token = some c' ∧ c'.WellFormed ∧
      ∀ P, c.Holds P → P key value → c'.Holds P := by
  have hhalf := h.half
  have resized : ∀ m, 3 ≤ m → 2 * (c.size + 1) ≤ 2 ^ m →
      ∃ c', (c.resize (2 ^ m)).bind (·.put key value token) = some c' ∧ c'.WellFormed ∧
        ∀ P, c.Holds P → P key value → c'.Holds P := by
    intro m hm hroom
    obtain ⟨c', hr, hwf, hsize, hcap, hP⟩ := h.resize hm (by omega)
    obtain ⟨c'', hput, hwf', hP'⟩ := hwf.put key hv (by rw [hsize, hcap]; exact hroom) token
    exact ⟨c'', by rw [hr]; exact hput, hwf', fun P hc hkv => hP' P (hP P hc) hkv⟩
  unfold BoundedHashCache.insertNew
  split_ifs with hzero hg hgrow hg hfull
  · rw [minCapacity_eq]
    exact resized 3 le_rfl (by omega)
  · exact ⟨c, rfl, h, fun _ hP _ => hP⟩
  · obtain ⟨n, hn3, hn⟩ := h.capacity.resolve_left hzero
    rw [hn, ← pow_succ]
    exact resized (n + 1) (by omega) (by rw [pow_succ]; omega)
  · exact ⟨c, rfl, h, fun _ hP _ => hP⟩
  · exact h.evict hv hfull token
  · obtain ⟨n, hn3, hn⟩ := h.capacity.resolve_left hzero
    obtain ⟨k, rfl⟩ := Nat.exists_eq_add_of_le hn3
    rw [pow_add] at hn
    exact h.put key hv (by omega) token

end BoundedHashCache

end QLog.Appender
