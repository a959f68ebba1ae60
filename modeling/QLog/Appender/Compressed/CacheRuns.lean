import QLog.Appender.Compressed.HashCache
import QLog.Foundations.ProbeChain

/-!
# Runs of the bounded hash cache

`Bounded` is the invariant of the cache: the size is the number of occupied slots and at most the limit, at
least half of the slots are empty, and the probe chains hold. What an operation does to the bindings is said
by `put_spec` and `insertNew_spec`.

A client keeps the tokens of its searches. The cache recognises a stale token by a revision counter of 32
bits; `changes` is the same count without a bound. An insertion with a token does not look the key up before
it gives up for want of memory or of admission: a key that was inserted in between then keeps its old value.
`Client.Meets` excludes these two, and `bounded_hash_cache_run` is the result for every run.
-/

namespace QLog.Appender

open Probing

namespace BoundedHashCache

variable {c c' : BoundedHashCache} {limit n : ℕ} {key : BitVec 64} {value : ℕ} {token : InsertToken}
  {granted : Bool}

/-- The cache has the binding. -/
def Has (c : BoundedHashCache) (key : BitVec 64) (value : ℕ) : Prop :=
  Probing.Holds c.slots c.capacity key value

/-- The invariant of the cache. -/
structure Bounded (limit : ℕ) (c : BoundedHashCache) : Prop where
  wellFormed : c.WellFormed
  chained : Chained (home c.capacity) c.capacity c.slots
  size_le : c.size ≤ c.maxSize
  maxSize_le : c.maxSize ≤ limit
  capacity_le : c.capacity ≤ 2 ^ 31
  revision_lt : c.tableRevision < 2 ^ 32

/-- The slot of the token is where the search for the key ends, if it is empty at all. -/
def Fits (c : BoundedHashCache) (key : BitVec 64) (token : InsertToken) : Prop :=
  token.slotIndex < c.capacity → c.slots token.slotIndex = none →
    Occupied c.slots c.capacity (home c.capacity key) token.slotIndex ∧ ∀ v, ¬c.Has key v

/-- The two tables have the same keys in the same slots. -/
def SameKeys (c c' : BoundedHashCache) : Prop :=
  c'.capacity = c.capacity ∧ ∀ i, (c'.slots i).map Prod.fst = (c.slots i).map Prod.fst

/-- The table is to grow before a new entry. -/
def Grows (c : BoundedHashCache) : Prop :=
  c.capacity = 0 ∨ c.size < c.maxSize ∧ c.capacity / 2 ≤ c.size

/-- An insertion gives up before it looks for the key. -/
def Drops (c : BoundedHashCache) (granted : Bool) : Prop :=
  c.Grows ∧ granted = false ∨
    ¬c.Grows ∧ c.maxSize ≤ c.size ∧ (c.admission + 1) % 2 ^ 32 &&& (admissionDivisor - 1) ≠ 0

namespace SameKeys

theorem refl (c : BoundedHashCache) : c.SameKeys c := ⟨rfl, fun _ => rfl⟩

theorem isSome (h : c.SameKeys c') (i : ℕ) : (c'.slots i).isSome = (c.slots i).isSome := by
  rw [← Option.isSome_map (f := Prod.fst), h.2 i, Option.isSome_map]

theorem has (h : c.SameKeys c') {value : ℕ} (hhas : c'.Has key value) : ∃ v, c.Has key v := by
  obtain ⟨i, hi, hs⟩ := hhas
  have hkey := h.2 i
  rw [hs, Option.map_some] at hkey
  obtain ⟨⟨k, v⟩, hv, rfl⟩ := Option.map_eq_some_iff.1 hkey.symm
  exact ⟨v, i, h.1 ▸ hi, hv⟩

theorem fits (h : c.SameKeys c') (hfits : c.Fits key token) : c'.Fits key token := by
  intro hlt hnone
  have hempty : c.slots token.slotIndex = none := by
    rw [← Option.not_isSome_iff_eq_none, ← h.isSome, Option.not_isSome_iff_eq_none]
    exact hnone
  obtain ⟨hocc, hmiss⟩ := hfits (h.1 ▸ hlt) hempty
  refine ⟨fun j hj hdist => ?_, fun v hv => ?_⟩
  · rw [h.isSome]
    rw [h.1] at hj hdist
    exact hocc j hj hdist
  · obtain ⟨w, hw⟩ := h.has hv
    exact hmiss w hw

end SameKeys

/-! ## Searching -/

theorem has_zero (h : c.capacity = 0) (key : BitVec 64) (value : ℕ) : ¬c.Has key value := by
  rintro ⟨i, hi, -⟩
  omega

theorem Bounded.room (h : c.Bounded limit) (hn : c.capacity = 2 ^ n) :
    (occupied c.slots (2 ^ n)).card < 2 ^ n := by
  have hcard := h.wellFormed.card
  have hhalf := h.wellFormed.half
  have hpos := Nat.two_pow_pos n
  rw [hn] at hcard hhalf
  omega

/-- A search for a key that the cache has. -/
theorem Bounded.findSlotOrEmpty_has (h : c.Bounded limit) {i : ℕ} (hi : i < c.capacity)
    (hs : c.slots i = some (key, value)) : c.findSlotOrEmpty key = some (true, i) := by
  obtain ⟨n, -, hn⟩ := h.wellFormed.capacity.resolve_left (by omega)
  have hchained := h.chained
  rw [hn] at hchained hi
  rw [BoundedHashCache.findSlotOrEmpty, if_neg (by rw [hn]; exact (Nat.two_pow_pos n).ne'), hn]
  exact hchained.findSlotOrEmpty_holds home_lt hi hs

/-- A search for a key that the cache does not have. -/
theorem Bounded.findSlotOrEmpty_missing (h : c.Bounded limit) (hzero : c.capacity ≠ 0)
    (hmiss : ∀ v, ¬c.Has key v) : ∃ i < c.capacity, c.findSlotOrEmpty key = some (false, i) ∧
      c.slots i = none ∧ Occupied c.slots c.capacity (home c.capacity key) i := by
  obtain ⟨n, -, hn⟩ := h.wellFormed.capacity.resolve_left hzero
  have hroom := h.room hn
  unfold Has at hmiss
  rw [BoundedHashCache.findSlotOrEmpty, if_neg hzero]
  rw [hn] at hmiss ⊢
  exact Probing.findSlotOrEmpty_missing home_lt hmiss hroom

/-- **A key that the cache has is found** with its value. -/
theorem Bounded.find_has (h : c.Bounded limit) (hhas : c.Has key value) :
    c.find key = some (.hit value) := by
  obtain ⟨i, hi, hs⟩ := hhas
  rw [BoundedHashCache.find, h.findSlotOrEmpty_has hi hs, Option.bind_some]
  simp only [hs]
  rfl

/-- **A key that the cache does not have is missed**; the token says where it can be put. -/
theorem Bounded.find_missing (h : c.Bounded limit) (hmiss : ∀ v, ¬c.Has key v) :
    ∃ i, c.find key = some (.miss ⟨i, c.tableRevision⟩) ∧ c.Fits key ⟨i, c.tableRevision⟩ := by
  rcases eq_or_ne c.capacity 0 with hzero | hzero
  · refine ⟨invalidValue, ?_, fun hlt => absurd hlt (by rw [hzero]; omega)⟩
    rw [BoundedHashCache.find, BoundedHashCache.findSlotOrEmpty, if_pos hzero]
    rfl
  · obtain ⟨i, hi, hfind, hnone, hocc⟩ := h.findSlotOrEmpty_missing hzero hmiss
    exact ⟨i, by rw [BoundedHashCache.find, hfind]; rfl, fun _ _ => ⟨hocc, hmiss⟩⟩

/-! ## Changing the table -/

/-- The bindings are those of the other table, with a new one in place of the key's. -/
def Stores (c c' : BoundedHashCache) (key : BitVec 64) (value : ℕ) : Prop :=
  ∀ k v, c'.Has k v ↔ (k = key ∧ v = value) ∨ (k ≠ key ∧ c.Has k v)

/-- A binding is stored where the search for its key ended. -/
theorem Bounded.storeAt (h : c.Bounded limit) (hv : value ≠ invalidValue)
    (hroom : 2 * (c.size + 1) ≤ c.capacity) (hmax : c.size + 1 ≤ c.maxSize) {i : ℕ}
    (hi : i < c.capacity) (hnone : c.slots i = none)
    (hocc : Occupied c.slots c.capacity (home c.capacity key) i) (hmiss : ∀ v, ¬c.Has key v) :
    (c.storeAt i key value).Bounded limit ∧ c.Stores (c.storeAt i key value) key value := by
  have hslot : slotOf key value = some (key, value) := if_neg hv
  have hchained : Chained (home c.capacity) c.capacity
      (Function.update c.slots i (slotOf key value)) := by
    rw [hslot]
    exact h.chained.update hnone hocc hmiss value
  refine ⟨⟨(h.wellFormed.storeAt hv hroom hi hnone).1, hchained, hmax, h.maxSize_le, h.capacity_le,
    Nat.mod_lt _ (by norm_num)⟩, fun k v => ?_⟩
  have hholds : (c.storeAt i key value).Has k v ↔
      Probing.Holds (Function.update c.slots i (some (key, value))) c.capacity k v := by
    rw [← hslot]
    rfl
  rw [hholds, holds_update hi hnone]
  refine or_congr_right ⟨fun hk => ⟨?_, hk⟩, fun hk => hk.2⟩
  rintro rfl
  exact hmiss v hk

/-- The value of a key is replaced. -/
theorem Bounded.replace (h : c.Bounded limit) (hv : value ≠ invalidValue) {i w : ℕ} (hi : i < c.capacity)
    (hs : c.slots i = some (key, w)) :
    { c with slots := Function.update c.slots i (slotOf key value) }.Bounded limit ∧
      c.Stores { c with slots := Function.update c.slots i (slotOf key value) } key value ∧
      c.SameKeys { c with slots := Function.update c.slots i (slotOf key value) } := by
  have hslot : slotOf key value = some (key, value) := if_neg hv
  have hchained : Chained (home c.capacity) c.capacity
      (Function.update c.slots i (slotOf key value)) := by
    rw [hslot]
    exact h.chained.replace hs value
  refine ⟨⟨(h.wellFormed.replace hv hi (by rw [hs]; rfl)).1, hchained, h.size_le, h.maxSize_le,
    h.capacity_le, h.revision_lt⟩, fun k v => ?_, rfl, fun j => ?_⟩
  · have hholds := h.chained.holds_replace hi hs value k v
    rw [← hslot] at hholds
    exact hholds
  · rcases eq_or_ne j i with rfl | hne
    · simp only [Function.update_self, hslot, hs]
      rfl
    · simp only [Function.update_of_ne hne]

/-- **The end of an insertion** stores the binding: at the slot of a token that fits, or at the one that a
new search finds. -/
theorem Bounded.put (h : c.Bounded limit) (key : BitVec 64) (token : InsertToken)
    (hv : value ≠ invalidValue) (hroom : 2 * (c.size + 1) ≤ c.capacity) (hmax : c.size + 1 ≤ c.maxSize)
    (hfits : token.tableRevision = c.tableRevision → c.Fits key token) :
    ∃ c', c.put key value token = some c' ∧ c'.Bounded limit ∧ c.Stores c' key value ∧
      (c'.tableRevision = c.tableRevision ∧ c.SameKeys c' ∨
        c'.tableRevision = (c.tableRevision + 1) % 2 ^ 32) := by
  unfold BoundedHashCache.put
  split
  · rename_i ht
    obtain ⟨hrev, hlt, hnone⟩ := ht
    have hnone := Option.isNone_iff_eq_none.1 hnone
    obtain ⟨hocc, hmiss⟩ := hfits hrev hlt hnone
    obtain ⟨hbounded, hstores⟩ := h.storeAt hv hroom hmax hlt hnone hocc hmiss
    exact ⟨_, rfl, hbounded, hstores, .inr rfl⟩
  · by_cases hhas : ∃ v, c.Has key v
    · obtain ⟨w, i, hi, hs⟩ := hhas
      obtain ⟨hbounded, hstores, hsame⟩ := h.replace hv hi hs
      rw [h.findSlotOrEmpty_has hi hs, Option.map_some]
      exact ⟨_, rfl, hbounded, hstores, .inl ⟨rfl, hsame⟩⟩
    · have hmiss : ∀ v, ¬c.Has key v := fun v hv => hhas ⟨v, hv⟩
      obtain ⟨i, hi, hfind, hnone, hocc⟩ := h.findSlotOrEmpty_missing (by omega) hmiss
      obtain ⟨hbounded, hstores⟩ := h.storeAt hv hroom hmax hi hnone hocc hmiss
      rw [hfind, Option.map_some]
      exact ⟨_, rfl, hbounded, hstores, .inr rfl⟩

/-- A table of another size has the same bindings. -/
theorem Bounded.resize (h : c.Bounded limit) (hn : 3 ≤ n) (hn' : n ≤ 31) (hle : 2 * c.size ≤ 2 ^ n) :
    ∃ c', c.resize (2 ^ n) = some c' ∧ c'.Bounded limit ∧ c'.size = c.size ∧ c'.capacity = 2 ^ n ∧
      c'.maxSize = c.maxSize ∧ c'.tableRevision = (c.tableRevision + 1) % 2 ^ 32 ∧
      ∀ k v, c'.Has k v ↔ c.Has k v := by
  obtain ⟨c', hresize, hwf, hsize, hcap, -⟩ := h.wellFormed.resize hn hle
  obtain ⟨slots, hrehash, rfl⟩ := Option.map_eq_some_iff.1 hresize
  obtain ⟨hchained, hholds⟩ := rehash_chained home_lt h.chained.unique hrehash
  refine ⟨_, hresize, ⟨hwf, hchained, h.size_le, h.maxSize_le, ?_, Nat.mod_lt _ (by norm_num)⟩, rfl, rfl,
    rfl, rfl, hholds⟩
  exact Nat.pow_le_pow_right (by norm_num) hn'

/-- An entry is erased, and no other one. -/
theorem Bounded.eraseSlot (h : c.Bounded limit) {i : ℕ} (hi : i < c.capacity)
    (hs : c.slots i = some (key, value)) :
    ∃ c', c.eraseSlot i = some c' ∧ c'.Bounded limit ∧ c'.size + 1 = c.size ∧ c'.capacity = c.capacity ∧
      c'.maxSize = c.maxSize ∧ c'.tableRevision = (c.tableRevision + 1) % 2 ^ 32 ∧
      ∀ k v, c'.Has k v ↔ k ≠ key ∧ c.Has k v := by
  obtain ⟨n, hn3, hn⟩ := h.wellFormed.capacity.resolve_left (by omega)
  obtain ⟨c', herase, hwf, hsize, hcap, -⟩ := h.wellFormed.eraseSlot hn hi (by rw [hs]; rfl)
  have hcapacity := h.capacity_le
  have hroom := h.room hn
  have hle := h.size_le
  obtain ⟨slots, hslots, rfl⟩ := Option.map_eq_some_iff.1 herase
  have hn31 : n ≤ 32 := by
    rw [hn] at hcapacity
    exact ((Nat.pow_le_pow_iff_right (by norm_num)).1 hcapacity).trans (by norm_num)
  have hchained := h.chained
  rw [hn] at hchained hslots hi
  obtain ⟨hchained', hholds⟩ := hchained.erase hn31 home_lt hi hs hroom hslots
  refine ⟨_, herase, ⟨hwf, ?_, ?_, h.maxSize_le, h.capacity_le, Nat.mod_lt _ (by norm_num)⟩, hsize, rfl, rfl,
    rfl, fun k v => ?_⟩
  · change Chained (home c.capacity) c.capacity slots
    rw [hn]
    exact hchained'
  · change c.size - 1 ≤ c.maxSize
    omega
  · change Probing.Holds slots c.capacity k v ↔ k ≠ key ∧ Probing.Holds c.slots c.capacity k v
    rw [hn]
    exact hholds k v

/-! ## Inserting -/

instance (c : BoundedHashCache) : Decidable c.Grows := inferInstanceAs (Decidable (_ ∨ _))

instance (c : BoundedHashCache) (granted : Bool) : Decidable (c.Drops granted) :=
  inferInstanceAs (Decidable (_ ∨ _))

/-- How often the revision changes before the token is looked at. -/
def revisionsBefore (c : BoundedHashCache) : ℕ := if c.Grows ∨ c.maxSize ≤ c.size then 1 else 0

/-- The token is not taken for one that it is not. -/
structure TokenOk (c : BoundedHashCache) (key : BitVec 64) (token : InsertToken) : Prop where
  same : c.revisionsBefore = 0 → token.tableRevision = c.tableRevision → c.Fits key token
  other : c.revisionsBefore = 1 → token.tableRevision = (c.tableRevision + 1) % 2 ^ 32 →
    2 ^ 31 ≤ token.slotIndex

theorem tokenOk_invalid (h : c.Bounded limit) (key : BitVec 64) : c.TokenOk key .invalid where
  same _ _ hlt _ := by
    have hcap := h.capacity_le
    change 2 ^ 32 - 1 < c.capacity at hlt
    omega
  other _ _ := by
    change 2 ^ 31 ≤ 2 ^ 32 - 1
    norm_num

/-- A binding was stored, and every other one was there before. -/
structure Inserted (c c' : BoundedHashCache) (key : BitVec 64) (value : ℕ) : Prop where
  stored : c'.Has key value
  only : ∀ k v, c'.Has k v → (k = key ∧ v = value) ∨ (k ≠ key ∧ c.Has k v)

theorem Stores.inserted {c₀ : BoundedHashCache} (h : c.Stores c' key value)
    (h₀ : ∀ k v, c.Has k v → c₀.Has k v) : c₀.Inserted c' key value where
  stored := (h key value).2 (.inl ⟨rfl, rfl⟩)
  only k v hk := ((h k v).1 hk).imp_right fun hk => ⟨hk.1, h₀ k v hk.2⟩

/-- What an insertion makes of the cache: it stores the binding, or it leaves the table as it is. -/
structure Outcome (limit : ℕ) (c c' : BoundedHashCache) (granted : Bool) (key : BitVec 64) (value : ℕ) :
    Prop where
  bounded : c'.Bounded limit
  sameKeys : c'.tableRevision = c.tableRevision → c.SameKeys c'
  dropped : c.Drops granted → ∀ k v, c'.Has k v ↔ c.Has k v
  inserted : ¬c.Drops granted → c.Inserted c' key value

/-- A token is not looked at in a table that was changed before. -/
theorem TokenOk.fits_of_changed {c₁ : BoundedHashCache} (htoken : c.TokenOk key token)
    (hone : c.Grows ∨ c.maxSize ≤ c.size) (hcap : c₁.capacity ≤ 2 ^ 31)
    (hrev : c₁.tableRevision = (c.tableRevision + 1) % 2 ^ 32)
    (heq : token.tableRevision = c₁.tableRevision) : c₁.Fits key token := by
  intro hlt
  have := htoken.other (if_pos hone) (heq.trans hrev)
  omega

/-- **A failed resize loses no entry**: the cache stays as it is. -/
theorem insertNew_refused (h : c.Grows) (key : BitVec 64) (value : ℕ) (token : InsertToken) :
    c.insertNew false key value token = some c := by
  unfold BoundedHashCache.insertNew
  rcases h with hzero | hgrow
  · rw [if_pos hzero, if_neg Bool.false_ne_true]
  · simp only [if_pos hgrow, if_neg Bool.false_ne_true, ite_self]

/-- The binding is stored in a greater table. -/
theorem Bounded.resize_put (h : c.Bounded limit) (hv : value ≠ invalidValue) (htoken : c.TokenOk key token)
    (hgrows : c.Grows) (hn : 3 ≤ n) (hn' : n ≤ 31) (hroom : 2 * (c.size + 1) ≤ 2 ^ n)
    (hmax : c.size + 1 ≤ c.maxSize) :
    ∃ c', (c.resize (2 ^ n)).bind (·.put key value token) = some c' ∧
      c.Outcome limit c' true key value := by
  have hrev := h.revision_lt
  have hnot : ¬c.Drops true := by
    rintro (⟨-, hfalse⟩ | ⟨hfalse, -⟩)
    · cases hfalse
    · exact hfalse hgrows
  obtain ⟨c₁, hr, hb, hs₁, hcap₁, hmax₁, hrev₁, hhas⟩ := h.resize hn hn' (by omega)
  obtain ⟨c', hput, hb', hstores, hrevs⟩ := hb.put key token hv (by rw [hs₁, hcap₁]; exact hroom)
    (by rw [hs₁, hmax₁]; exact hmax) (htoken.fits_of_changed (.inl hgrows) hb.capacity_le hrev₁)
  refine ⟨c', by rw [hr]; exact hput, hb', fun heq => ?_, fun hdrop => absurd hdrop hnot,
    fun _ => hstores.inserted fun k v => (hhas k v).1⟩
  rcases hrevs with ⟨hsame, -⟩ | hsame
  · omega
  · omega

/-- The table grows for the binding. -/
theorem Bounded.insertNew_granted (h : c.Bounded limit) (hlimit : limit ≤ 2 ^ 30)
    (hv : value ≠ invalidValue) (htoken : c.TokenOk key token) (hgrows : c.Grows) :
    ∃ c', c.insertNew true key value token = some c' ∧ c.Outcome limit c' true key value := by
  have hhalf := h.wellFormed.half
  have hmax := h.wellFormed.maxSize
  have hmin : minCapacity = 8 := rfl
  unfold BoundedHashCache.insertNew
  rcases eq_or_ne c.capacity 0 with hzero | hzero
  · rw [if_pos hzero, if_pos rfl]
    exact h.resize_put hv htoken hgrows le_rfl (by norm_num) (by omega) (by omega)
  · have hgrow := hgrows.resolve_left hzero
    obtain ⟨n, hn3, hn⟩ := h.wellFormed.capacity.resolve_left hzero
    have hn30 : n ≤ 30 := by
      have hcap : 2 ^ n < 2 ^ 31 := by
        have := h.maxSize_le
        omega
      have := (Nat.pow_lt_pow_iff_right (show 1 < 2 by norm_num)).1 hcap
      omega
    rw [if_neg hzero, if_pos hgrow, if_pos rfl, hn, ← pow_succ]
    exact h.resize_put hv htoken hgrows (by omega) (by omega) (by rw [pow_succ]; omega) (by omega)

/-- At the limit the binding takes the place of another entry, or it is not admitted. -/
theorem Bounded.evict (h : c.Bounded limit) (hv : value ≠ invalidValue) (htoken : c.TokenOk key token)
    (hgrows : ¬c.Grows) (hfull : c.maxSize ≤ c.size) (granted : Bool) :
    ∃ c', c.evict key value token = some c' ∧ c.Outcome limit c' granted key value := by
  obtain ⟨hzero, -⟩ := not_or.1 hgrows
  have hmax := h.wellFormed.maxSize
  have hmin : minCapacity = 8 := rfl
  have hrev := h.revision_lt
  obtain ⟨n, hn3, hn⟩ := h.wellFormed.capacity.resolve_left hzero
  have hsame : ∀ victim < c.capacity, { c with
      admission := (c.admission + 1) % 2 ^ 32
      victim := victim }.Bounded limit := fun victim hvictim =>
    ⟨⟨h.wellFormed.capacity, h.wellFormed.card, h.wellFormed.half, fun _ => hvictim, hmax⟩, h.chained,
      h.size_le, h.maxSize_le, h.capacity_le, hrev⟩
  have hvictim := h.wellFormed.victim hzero
  unfold BoundedHashCache.evict
  dsimp only
  split
  · rename_i hadm
    exact ⟨_, rfl, hsame _ hvictim, fun _ => ⟨rfl, fun _ => rfl⟩, fun _ _ _ => Iff.rfl,
      fun hnot => absurd (.inr ⟨hgrows, hfull, hadm⟩) hnot⟩
  · rename_i hadm
    have hnot : ¬c.Drops granted := by
      rintro (⟨hfalse, -⟩ | ⟨-, -, hfalse⟩)
      · exact hgrows hfalse
      · exact hadm hfalse
    have hocc : 0 < (occupied c.slots (2 ^ n)).card := by
      have hcard := h.wellFormed.card
      rw [hn] at hcard
      omega
    rw [hn] at hvictim
    obtain ⟨l, hl, hlt, hsome⟩ := firstOccupied_spec hvictim hocc
    obtain ⟨⟨k₀, v₀⟩, hs⟩ := Option.isSome_iff_exists.1 hsome
    have hnext : next c.capacity l < c.capacity := by
      rw [hn]
      exact next_lt l
    rw [← hn] at hl hlt
    rw [hl, Option.bind_some]
    obtain ⟨c₁, he, hb₁, hs₁, hcap₁, hmax₁, hrev₁, hhas⟩ := (hsame _ hnext).eraseSlot hlt hs
    change c₁.size + 1 = c.size at hs₁
    change c₁.tableRevision = (c.tableRevision + 1) % 2 ^ 32 at hrev₁
    obtain ⟨c', hput, hb', hstores, hrevs⟩ := hb₁.put key token hv
      (by rw [hs₁, hcap₁]; exact h.wellFormed.half) (by rw [hs₁, hmax₁]; exact h.size_le)
      (htoken.fits_of_changed (.inr hfull) hb₁.capacity_le hrev₁)
    rw [he, Option.bind_some]
    refine ⟨c', hput, hb', fun heq => ?_, fun hdrop => absurd hdrop hnot,
      fun _ => hstores.inserted fun k v hk => ((hhas k v).1 hk).2⟩
    rcases hrevs with ⟨hsame, -⟩ | hsame
    · omega
    · omega

/-- **An insertion** stores the binding, or it gives up. -/
theorem Bounded.insertNew (h : c.Bounded limit) (hlimit : limit ≤ 2 ^ 30) (hv : value ≠ invalidValue)
    (htoken : c.TokenOk key token) (granted : Bool) :
    ∃ c', c.insertNew granted key value token = some c' ∧ c.Outcome limit c' granted key value := by
  by_cases hgrows : c.Grows
  · cases granted with
    | false =>
      exact ⟨c, insertNew_refused hgrows key value token, h, fun _ => .refl c, fun _ _ _ => Iff.rfl,
        fun hnot => absurd (.inl ⟨hgrows, rfl⟩) hnot⟩
    | true => exact h.insertNew_granted hlimit hv htoken hgrows
  · obtain ⟨hzero, hgrow⟩ := not_or.1 hgrows
    unfold BoundedHashCache.insertNew
    rw [if_neg hzero, if_neg hgrow]
    split
    · rename_i hfull
      exact h.evict hv htoken hgrows hfull granted
    · rename_i hfull
      have hnot : ¬c.Drops granted := by
        rintro (⟨hfalse, -⟩ | ⟨-, hfalse, -⟩)
        · exact hgrows hfalse
        · exact hfull hfalse
      obtain ⟨n, hn3, hn⟩ := h.wellFormed.capacity.resolve_left hzero
      have hroom : 2 * (c.size + 1) ≤ c.capacity := by
        obtain ⟨k, rfl⟩ := Nat.exists_eq_add_of_le hn3
        rw [pow_add] at hn
        omega
      obtain ⟨c', hput, hb', hstores, hrevs⟩ := h.put key token hv hroom (by omega)
        (htoken.same (if_neg (not_or.2 ⟨hgrows, hfull⟩)))
      refine ⟨c', hput, hb', fun heq => ?_, fun hdrop => absurd hdrop hnot,
        fun _ => hstores.inserted fun _ _ hk => hk⟩
      have hrev := h.revision_lt
      rcases hrevs with ⟨-, hsame⟩ | hne
      · exact hsame
      · omega

/-- `insert` without a token looks the key up first. -/
theorem Bounded.insert (h : c.Bounded limit) (hlimit : limit ≤ 2 ^ 30) (key : BitVec 64)
    (hv : value ≠ invalidValue) (granted : Bool) : ∃ c', c.insert granted key value = some c' ∧ c'.Bounded limit ∧
      (c'.tableRevision = c.tableRevision → c.SameKeys c') ∧
      ∀ k v, c'.Has k v → (k = key ∧ v = value) ∨ (k ≠ key ∧ c.Has k v) := by
  unfold BoundedHashCache.insert
  by_cases hhas : ∃ v, c.Has key v
  · obtain ⟨w, i, hi, hs⟩ := hhas
    obtain ⟨hbounded, hstores, hsame⟩ := h.replace hv hi hs
    rw [h.findSlotOrEmpty_has hi hs, Option.bind_some]
    exact ⟨_, rfl, hbounded, fun _ => hsame, fun k v => (hstores k v).1⟩
  · have hmiss : ∀ v, ¬c.Has key v := fun v hv => hhas ⟨v, hv⟩
    obtain ⟨i, hfind⟩ : ∃ i, c.findSlotOrEmpty key = some (false, i) := by
      rcases eq_or_ne c.capacity 0 with hzero | hzero
      · exact ⟨_, if_pos hzero⟩
      · obtain ⟨i, -, hfind, -⟩ := h.findSlotOrEmpty_missing hzero hmiss
        exact ⟨i, hfind⟩
    obtain ⟨c', hc', hout⟩ := h.insertNew hlimit hv (tokenOk_invalid h key) granted
    rw [hfind, Option.bind_some]
    refine ⟨c', hc', hout.bounded, hout.sameKeys, fun k v hk => ?_⟩
    by_cases hdrop : c.Drops granted
    · have hold := (hout.dropped hdrop k v).1 hk
      refine .inr ⟨?_, hold⟩
      rintro rfl
      exact hmiss v hold
    · exact (hout.inserted hdrop).only k v hk

theorem Bounded.clear (h : c.Bounded limit) : c.clear.Bounded limit where
  wellFormed := h.wellFormed.clear.1
  chained := ⟨fun i hi => absurd hi (Nat.not_lt_zero i), fun i hi => absurd hi (Nat.not_lt_zero i)⟩
  size_le := Nat.zero_le _
  maxSize_le := h.maxSize_le
  capacity_le := Nat.zero_le _
  revision_lt := Nat.mod_lt _ (by norm_num)

theorem normalizeMaxSize_le (h8 : minCapacity ≤ limit) (m : ℕ) : normalizeMaxSize limit m ≤ limit := by
  unfold normalizeMaxSize
  split_ifs <;> omega

theorem Bounded.setMaxSize (h : c.Bounded limit) (h8 : minCapacity ≤ limit) (m : ℕ) :
    (c.setMaxSize limit m).2.Bounded limit ∧
      ∃ max, (c.setMaxSize limit m).2 = { c with maxSize := max } := by
  have hwf := (h.wellFormed.setMaxSize h8 m).1
  have hle := h.size_le
  unfold BoundedHashCache.setMaxSize at hwf ⊢
  dsimp only at hwf ⊢
  split_ifs at hwf ⊢ with hsame hshrink
  · exact ⟨h, c.maxSize, rfl⟩
  · exact ⟨h, c.maxSize, rfl⟩
  · refine ⟨⟨hwf, h.chained, ?_, normalizeMaxSize_le h8 m, h.capacity_le, h.revision_lt⟩, _, rfl⟩
    change c.size ≤ normalizeMaxSize limit m
    omega

theorem fresh_bounded (h8 : minCapacity ≤ limit) (maxSize : ℕ) : (fresh limit maxSize).Bounded limit where
  wellFormed := fresh_wellFormed h8 maxSize
  chained := ⟨fun i hi => absurd hi (Nat.not_lt_zero i), fun i hi => absurd hi (Nat.not_lt_zero i)⟩
  size_le := Nat.zero_le _
  maxSize_le := normalizeMaxSize_le h8 maxSize
  capacity_le := Nat.zero_le _
  revision_lt := by
    change 0 < 2 ^ 32
    norm_num

end BoundedHashCache

/-! ## Runs -/

/-- A token that `find` has given to its caller, with the count of changes at that time. -/
structure IssuedToken where
  key : BitVec 64
  token : InsertToken
  issued : ℕ

/-- The cache and its client: the changes of the table, the value last inserted for each key, and the
tokens. -/
structure CacheClient where
  cache : BoundedHashCache
  changes : ℕ
  last : BitVec 64 → Option ℕ
  tokens : List IssuedToken

/-- A call. `insertWith` takes the `i`-th token of the key, or a default one. -/
inductive CacheCall
  | find (key : BitVec 64)
  | insert (granted : Bool) (key : BitVec 64) (value : ℕ)
  | insertWith (granted : Bool) (key : BitVec 64) (value i : ℕ)
  | setMaxSize (maxSize : ℕ)
  | clear

namespace CacheClient

variable {s s' : CacheClient} {limit : ℕ}

/-- A new cache. -/
def start (limit maxSize : ℕ) : CacheClient := ⟨.fresh limit maxSize, 0, fun _ => none, []⟩

/-- The cache after a call; its revision tells how often the table has changed. -/
def after (s : CacheClient) (c : BoundedHashCache) : CacheClient :=
  { s with
    cache := c
    changes := s.changes + (c.tableRevision + 2 ^ 32 - s.cache.tableRevision) % 2 ^ 32 }

/-- The token that `insertWith` uses. -/
def tokenOf (s : CacheClient) (key : BitVec 64) (i : ℕ) : IssuedToken :=
  (s.tokens.filter (·.key = key))[i]?.getD ⟨key, .invalid, s.changes⟩

/-- One call. -/
def step (limit : ℕ) (s : CacheClient) : CacheCall → Option CacheClient
  | .find key => (s.cache.find key).map fun
    | .hit _ => s
    | .miss token => { s with tokens := s.tokens ++ [⟨key, token, s.changes⟩] }
  | .insert granted key value => (s.cache.insert granted key value).map fun c =>
    { s.after c with last := Function.update s.last key (some value) }
  | .insertWith granted key value i =>
    (s.cache.insertNew granted key value (s.tokenOf key i).token).map fun c =>
      { s.after c with last := Function.update s.last key (some value) }
  | .setMaxSize maxSize => some (s.after (s.cache.setMaxSize limit maxSize).2)
  | .clear => some (s.after s.cache.clear)

/-- The calls, one after the other. -/
def run (limit : ℕ) : CacheClient → List CacheCall → Option CacheClient
  | s, [] => some s
  | s, call :: calls => (s.step limit call).bind fun s => run limit s calls

/-- The cache is a bounded partial map. -/
structure Correct (s : CacheClient) : Prop where
  size_eq : (occupied s.cache.slots s.cache.capacity).card = s.cache.size
  size_le : s.cache.size ≤ s.cache.maxSize
  empty : s.cache.capacity = 0 ∨ ∃ i < s.cache.capacity, s.cache.slots i = none
  unique : ∀ i < s.cache.capacity, ∀ j < s.cache.capacity, ∀ k v w,
    s.cache.slots i = some (k, v) → s.cache.slots j = some (k, w) → i = j
  reach : ∀ i < s.cache.capacity, ∀ k v, s.cache.slots i = some (k, v) →
    Occupied s.cache.slots s.cache.capacity (BoundedHashCache.home s.cache.capacity k) i
  hit : ∀ k v, s.cache.Has k v → s.cache.find k = some (.hit v) ∧ s.last k = some v
  miss : ∀ k, (∀ v, ¬s.cache.Has k v) → ∃ token, s.cache.find k = some (.miss token)
  refused : ∀ k v token, s.cache.Grows →
    ∃ c, s.cache.insertNew false k v token = some c ∧ ∀ k' w, s.cache.Has k' w → c.Has k' w

/-- No call inserts `invalid_value`. -/
def ValueOk : CacheCall → Prop
  | .insert _ _ value | .insertWith _ _ value _ => value ≠ invalidValue
  | _ => True

/-- The condition of an insertion with a token: the revision of the token is that of the table only if it is
of the same count of changes, and the value of a key that the cache has is not to be changed when the
insertion gives up. -/
def Meets (s : CacheClient) : CacheCall → Prop
  | .insertWith granted key value i =>
    ((s.tokenOf key i).token.slotIndex ≠ invalidValue →
      (s.tokenOf key i).token.tableRevision = (s.changes + s.cache.revisionsBefore) % 2 ^ 32 →
        (s.tokenOf key i).issued = s.changes + s.cache.revisionsBefore) ∧
    (s.cache.Drops granted → ∀ w, s.cache.Has key w → w = value)
  | _ => True

/-- The invariant of a run. -/
structure Sound (limit : ℕ) (s : CacheClient) : Prop where
  bounded : s.cache.Bounded limit
  revision : s.cache.tableRevision = s.changes % 2 ^ 32
  last : ∀ k v, s.cache.Has k v → s.last k = some v
  tokens : ∀ t ∈ s.tokens, t.issued ≤ s.changes ∧ t.token.tableRevision = t.issued % 2 ^ 32 ∧
    (t.issued = s.changes → s.cache.Fits t.key t.token)

namespace Sound

variable {c : BoundedHashCache} {key : BitVec 64} {value : ℕ}

/-- With the invariant the cache is a bounded partial map. -/
theorem correct (h : s.Sound limit) : s.Correct where
  size_eq := h.bounded.wellFormed.card
  size_le := h.bounded.size_le
  empty := by
    rcases h.bounded.wellFormed.capacity with hzero | ⟨n, -, hn⟩
    · exact .inl hzero
    · have hroom := h.bounded.room hn
      rw [hn]
      exact .inr (exists_empty hroom)
  unique := h.bounded.chained.unique
  reach := h.bounded.chained.reach
  hit k v hk := ⟨h.bounded.find_has hk, h.last k v hk⟩
  miss k hk := by
    obtain ⟨i, hi, -⟩ := h.bounded.find_missing hk
    exact ⟨_, hi⟩
  refused k v token hgrows :=
    ⟨_, BoundedHashCache.insertNew_refused hgrows k v token, fun _ _ hk => hk⟩

/-- A call that changes the cache keeps the invariant, when its revision tells whether the table was
changed. -/
theorem after (h : s.Sound limit) (hb : c.Bounded limit)
    (hsame : c.tableRevision = s.cache.tableRevision → s.cache.SameKeys c)
    {last : BitVec 64 → Option ℕ} (hlast : ∀ k v, c.Has k v → last k = some v) :
    { s.after c with last := last }.Sound limit := by
  have hrev := h.revision
  have hlt := hb.revision_lt
  refine ⟨hb, ?_, hlast, fun t ht => ?_⟩
  · change c.tableRevision = (s.changes + (c.tableRevision + 2 ^ 32 - s.cache.tableRevision) % 2 ^ 32) % 2 ^ 32
    omega
  · obtain ⟨hle, hrevision, hfits⟩ := h.tokens t ht
    refine ⟨hle.trans (Nat.le_add_right _ _), hrevision, fun heq => ?_⟩
    change t.issued = s.changes + (c.tableRevision + 2 ^ 32 - s.cache.tableRevision) % 2 ^ 32 at heq
    exact (hsame (by omega)).fits (hfits (by omega))

/-- The token that an insertion uses is one that was found for the key, or a default one. -/
theorem tokenOf_cases (s : CacheClient) (key : BitVec 64) (i : ℕ) :
    (s.tokenOf key i ∈ s.tokens ∧ (s.tokenOf key i).key = key) ∨
      (s.tokenOf key i).token.slotIndex = invalidValue := by
  unfold tokenOf
  cases ht : (s.tokens.filter (·.key = key))[i]? with
  | none => exact .inr rfl
  | some t =>
    have hmem := List.mem_filter.1 (List.mem_of_getElem? ht)
    exact .inl ⟨hmem.1, by simpa using hmem.2⟩

theorem tokenOk (h : s.Sound limit) {granted : Bool} {i : ℕ}
    (hmeets : s.Meets (.insertWith granted key value i)) :
    s.cache.TokenOk key (s.tokenOf key i).token := by
  have hcap := h.bounded.capacity_le
  have hrev := h.revision
  obtain ⟨hmeets, -⟩ := hmeets
  by_cases hinvalid : (s.tokenOf key i).token.slotIndex = invalidValue
  · refine ⟨fun _ _ hlt => ?_, fun _ _ => ?_⟩
    · rw [hinvalid, invalidValue] at hlt
      omega
    · rw [hinvalid, invalidValue]
      omega
  · obtain ⟨hmem, hkey⟩ := (tokenOf_cases s key i).resolve_right hinvalid
    obtain ⟨hle, -, hfits⟩ := h.tokens _ hmem
    have hmeets := hmeets hinvalid
    refine ⟨fun hzero heq => ?_, fun hone heq => ?_⟩
    · rw [hzero, Nat.add_zero] at hmeets
      have hfits := hfits (hmeets (heq.trans hrev))
      rwa [hkey] at hfits
    · rw [hone] at hmeets
      have := hmeets (by omega)
      omega

/-- **One call** ends and keeps the invariant. -/
theorem step (h : s.Sound limit) (h8 : BoundedHashCache.minCapacity ≤ limit) (hlimit : limit ≤ 2 ^ 30)
    {call : CacheCall} (hvalue : ValueOk call) (hmeets : s.Meets call) :
    ∃ s', s.step limit call = some s' ∧ s'.Sound limit := by
  cases call with
  | find key =>
    by_cases hhas : ∃ v, s.cache.Has key v
    · obtain ⟨v, hv⟩ := hhas
      exact ⟨s, by rw [CacheClient.step, h.bounded.find_has hv]; rfl, h⟩
    · obtain ⟨i, hi, hfits⟩ := h.bounded.find_missing fun v hv => hhas ⟨v, hv⟩
      refine ⟨{ s with tokens := s.tokens ++ [⟨key, ⟨i, s.cache.tableRevision⟩, s.changes⟩] },
        by rw [CacheClient.step, hi]; rfl, h.bounded, h.revision, h.last, fun t ht => ?_⟩
      rcases List.mem_append.1 ht with hold | hnew
      · exact h.tokens t hold
      · obtain rfl := List.mem_singleton.1 hnew
        exact ⟨le_rfl, h.revision, fun _ => hfits⟩
  | insert granted key value =>
    obtain ⟨c, hc, hb, hsame, honly⟩ := h.bounded.insert hlimit key hvalue granted
    refine ⟨_, by rw [CacheClient.step, hc]; rfl, h.after hb hsame fun k v hk => ?_⟩
    rcases honly k v hk with ⟨rfl, rfl⟩ | ⟨hne, hold⟩
    · exact Function.update_self ..
    · rw [Function.update_of_ne hne]
      exact h.last k v hold
  | insertWith granted key value i =>
    obtain ⟨c, hc, hout⟩ := h.bounded.insertNew hlimit hvalue (h.tokenOk hmeets) granted
    refine ⟨_, by rw [CacheClient.step, hc]; rfl, h.after hout.bounded hout.sameKeys fun k v hk => ?_⟩
    by_cases hdrop : s.cache.Drops granted
    · have hold := (hout.dropped hdrop k v).1 hk
      rcases eq_or_ne k key with rfl | hne
      · rw [hmeets.2 hdrop v hold]
        exact Function.update_self ..
      · rw [Function.update_of_ne hne]
        exact h.last k v hold
    · rcases (hout.inserted hdrop).only k v hk with ⟨rfl, rfl⟩ | ⟨hne, hold⟩
      · exact Function.update_self ..
      · rw [Function.update_of_ne hne]
        exact h.last k v hold
  | setMaxSize maxSize =>
    obtain ⟨hb, max, hmax⟩ := h.bounded.setMaxSize h8 maxSize
    rw [hmax] at hb
    refine ⟨_, rfl, ?_⟩
    rw [hmax]
    exact h.after hb (fun _ => ⟨rfl, fun _ => rfl⟩) h.last
  | clear =>
    refine ⟨_, rfl, h.after h.bounded.clear (fun heq => ?_) fun k v hk => ?_⟩
    · have hrev := h.bounded.revision_lt
      change (s.cache.tableRevision + 1) % 2 ^ 32 = s.cache.tableRevision at heq
      omega
    · exact absurd hk (BoundedHashCache.has_zero rfl k v)

end Sound

theorem start_sound (h8 : BoundedHashCache.minCapacity ≤ limit) (maxSize : ℕ) :
    (start limit maxSize).Sound limit where
  bounded := BoundedHashCache.fresh_bounded h8 maxSize
  revision := rfl
  last k v hk := absurd hk (BoundedHashCache.has_zero rfl k v)
  tokens := by simp [start]

/-- Every call of the run meets the condition in the state that it is made in. -/
def MeetsAll (limit : ℕ) : CacheClient → List CacheCall → Prop
  | _, [] => True
  | s, call :: calls => s.Meets call ∧ ∀ s', s.step limit call = some s' → MeetsAll limit s' calls

/-- A run ends and keeps the invariant. -/
theorem Sound.run {calls : List CacheCall} (h : s.Sound limit)
    (h8 : BoundedHashCache.minCapacity ≤ limit) (hlimit : limit ≤ 2 ^ 30)
    (hvalue : ∀ call ∈ calls, ValueOk call) (hmeets : s.MeetsAll limit calls) :
    ∃ s', s.run limit calls = some s' ∧ s'.Sound limit := by
  induction calls generalizing s with
  | nil => exact ⟨s, rfl, h⟩
  | cons call calls ih =>
    obtain ⟨hfirst, hrest⟩ := hmeets
    obtain ⟨s₁, hstep, hs₁⟩ := h.step h8 hlimit (hvalue call List.mem_cons_self) hfirst
    obtain ⟨s', hrun, hs'⟩ :=
      ih hs₁ (fun call hcall => hvalue call (List.mem_cons_of_mem _ hcall)) (hrest s₁ hstep)
    exact ⟨s', by rw [CacheClient.run, hstep]; exact hrun, hs'⟩

/-- **The cache is a bounded partial map** in every state of a run whose insertions with tokens meet the
condition. -/
theorem bounded_hash_cache_run (h8 : BoundedHashCache.minCapacity ≤ limit) (hlimit : limit ≤ 2 ^ 30)
    (maxSize : ℕ) (calls : List CacheCall) (hvalue : ∀ call ∈ calls, ValueOk call)
    (hmeets : (start limit maxSize).MeetsAll limit calls) :
    ∃ s, (start limit maxSize).run limit calls = some s ∧ s.Correct := by
  obtain ⟨s, hrun, hs⟩ := (start_sound h8 maxSize).run h8 hlimit hvalue hmeets
  exact ⟨s, hrun, hs.correct⟩

/-- The token is taken for what it is, and the insertion does not give up. -/
def goesThrough (s : CacheClient) : CacheCall → Bool
  | .insertWith granted key _ i =>
    let t := s.tokenOf key i
    let changes := s.changes + s.cache.revisionsBefore
    (decide (t.token.slotIndex = invalidValue) || decide (t.token.tableRevision ≠ changes % 2 ^ 32) ||
      decide (t.issued = changes)) && decide ¬s.cache.Drops granted
  | _ => true

theorem meets_of_goesThrough {call : CacheCall} (h : s.goesThrough call = true) : s.Meets call := by
  cases call with
  | insertWith granted key value i =>
    simp only [goesThrough, Bool.and_eq_true, Bool.or_eq_true, decide_eq_true_eq] at h
    obtain ⟨htoken, hdrop⟩ := h
    refine ⟨fun hslot hrevision => ?_, fun hdrops => absurd hdrops hdrop⟩
    exact (htoken.resolve_left (not_or.2 ⟨hslot, not_not.2 hrevision⟩))
  | _ => trivial

/-- Every call of the run goes through. -/
def allGoThrough (limit : ℕ) : CacheClient → List CacheCall → Bool
  | _, [] => true
  | s, call :: calls => s.goesThrough call && (s.step limit call).all fun s' => s'.allGoThrough limit calls

theorem meetsAll_of_allGoThrough {calls : List CacheCall} (h : s.allGoThrough limit calls = true) :
    s.MeetsAll limit calls := by
  induction calls generalizing s with
  | nil => trivial
  | cons call calls ih =>
    rw [allGoThrough, Bool.and_eq_true] at h
    refine ⟨meets_of_goesThrough h.1, fun s' hstep => ih ?_⟩
    rw [hstep] at h
    exact h.2

/-- A new key with a token without a slot, one with its slot, and one whose token is stale; then the cache is
filled, one allocation fails, an entry makes room, and the cache is made smaller. -/
def tokenCalls : List CacheCall :=
  [.find 9, .insertWith true 9 1 0, .find 10, .insertWith true 10 2 0, .find 11, .insert true 11 3,
    .insertWith true 11 4 0] ++ (List.range 4).map (fun k => .insert (k ≠ 2) (.ofNat 64 k) k) ++
    [.find 12, .insertWith true 12 5 0, .insert true 13 6, .setMaxSize 4, .insert true 9 7, .clear, .find 9]

theorem bounded_hash_cache_run_tokens : ∃ s,
    (start 64 8).run 64 tokenCalls = some s ∧ s.Correct := by
  have hthrough : (start 64 8).allGoThrough 64 tokenCalls = true := by decide +kernel
  have hvalue : ∀ call ∈ tokenCalls, ValueOk call := by
    simp [tokenCalls, ValueOk, invalidValue, List.range, List.range.loop]
  exact bounded_hash_cache_run (by decide) (by norm_num) 8 _ hvalue (meetsAll_of_allGoThrough hthrough)

/-- Nine is in a full cache; its new value is not admitted, and the old one is found. -/
theorem bounded_hash_cache_stale : ∃ s,
    (start 64 8).run 64 ([.find 9, .insert true 9 1] ++
      (List.range 7).map (fun k => .insert true (.ofNat 64 k) 0) ++ [.insertWith true 9 2 0]) = some s ∧
      s.cache.find 9 = some (.hit 1) ∧ s.last 9 = some 2 ∧ ¬s.Correct := by
  have hcheck : ((start 64 8).run 64 ([.find 9, .insert true 9 1] ++
      (List.range 7).map (fun k => .insert true (.ofNat 64 k) 0) ++ [.insertWith true 9 2 0])).any
        (fun s => decide (s.last 9 = some 2) && decide (s.cache.find 9 = some (.hit 1))) = true := by
    decide +kernel
  generalize (start 64 8).run 64 _ = r at hcheck ⊢
  cases r with
  | none => cases hcheck
  | some s =>
    rw [Option.any_some, Bool.and_eq_true, decide_eq_true_eq, decide_eq_true_eq] at hcheck
    obtain ⟨hlast, hfind⟩ := hcheck
    refine ⟨s, rfl, hfind, hlast, fun hcorrect => ?_⟩
    by_cases hhas : ∃ v, s.cache.Has 9 v
    · obtain ⟨v, hv⟩ := hhas
      obtain ⟨hhit, hv'⟩ := hcorrect.hit 9 v hv
      rw [hfind] at hhit
      rw [hlast] at hv'
      simp only [Option.some.injEq, Found.hit.injEq] at hhit hv'
      omega
    · obtain ⟨token, hmiss⟩ := hcorrect.miss 9 fun v hv => hhas ⟨v, hv⟩
      rw [hfind] at hmiss
      cases hmiss

end CacheClient

end QLog.Appender
