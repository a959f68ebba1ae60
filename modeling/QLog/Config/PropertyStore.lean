import QLog.Config.PropertyText
import QLog.Utility.HashMap.Scripts

/-!
# Configurations

`Property` of `property.cpp` over the hash map: `set`, `get`, `load` and `serialize`. After any calls of `set`
and `load` a key has the value that was set last, and a store with clean items is restored from its text
(`store_restored`).
-/

namespace QLog.Property

open Utility HashMap

/-- `Property`. -/
structure Store where
  properties : HashMap (List Char) (List Char)
  keyList : List (List Char)

section Model

variable (hash : List Char → ℕ)

/-- The constructor; `expandRate` are the products with `expand_rate_`. -/
def Store.new (expandRate : ℕ → ℕ) : Option Store :=
  (HashMap.construct hash expandRate 0).map fun m => ⟨m, []⟩

/-- `Property::set`. -/
def Store.set (p : Store) (key defaultValue : List Char) : Option Store :=
  (p.properties.find hash key).bind fun it =>
    (p.properties.subscript hash key fun _ => defaultValue).map fun m =>
      ⟨m, if it.nodeIndex = none then p.keyList ++ [key] else p.keyList⟩

/-- `Property::get`. -/
def Store.get (p : Store) (key defaultValue : List Char) : Option (List Char) :=
  (p.properties.find hash key).bind fun it =>
    it.nodeIndex.elim (some defaultValue) fun index => (p.properties.entry index).map Prod.snd

/-- The loop of `load`. -/
def Store.setAll (p : Store) (vv : List Item) : Option Store :=
  vv.foldlM (fun p item => p.set hash item.1 item.2) p

/-- `Property::load`, and what it returns. -/
def Store.load (p : Store) (context : List Char) : Option (Bool × Store) :=
  (p.setAll hash (parse context)).map fun p => (p.properties.size != 0, p)

/-- `Property::serialize`. -/
def Store.serialize (p : Store) : Option (List Char) := p.properties.entries.map Property.serialize

/-- The calls that change a store. -/
inductive Call
  | set (key defaultValue : List Char)
  | load (context : List Char)

/-- A call. -/
def Store.call (p : Store) : Call → Option Store
  | .set key defaultValue => p.set hash key defaultValue
  | .load context => (p.load hash context).map Prod.snd

end Model

/-- The items that a call sets. -/
def Call.items : Call → List Item
  | .set key defaultValue => [(key, defaultValue)]
  | .load context => parse context

/-- The value that was set last. -/
def values (items : List Item) : List Char → Option (List Char) := addAll (fun _ => none) items

theorem values_concat (items : List Item) (item : Item) :
    values (items ++ [item]) = Function.update (values items) item.1 (some item.2) := List.foldl_concat ..

theorem values_eq_none_iff {items : List Item} {key : List Char} :
    values items key = none ↔ key ∉ items.map Prod.fst := by
  induction items using List.reverseRecOn with
  | nil => simp [values, addAll]
  | append_singleton items item ih =>
    rw [values_concat, Function.update_apply, List.map_append, List.mem_append]
    split
    · rename_i hkey
      simp [hkey]
    · rename_i hkey
      simp [ih, hkey]

theorem eraseDups_concat (keys : List (List Char)) (key : List Char) : (keys ++ [key]).eraseDups =
    if key ∈ keys then keys.eraseDups else keys.eraseDups ++ [key] := by
  rw [List.eraseDups_append]
  split
  · rename_i hkey
    simp [List.removeAll, hkey]
  · rename_i hkey
    simp [List.removeAll, hkey, List.eraseDups_cons]

/-- The store is what setting the items leaves. -/
structure Keeps (hash : List Char → ℕ) (expandRate : ℕ → ℕ) (items : List Item) (p : Store) : Prop where
  valid : ∃ live unused, Valid hash p.properties live unused ∧ Holds p.properties live (values items)
  keyList : p.keyList = (items.map Prod.fst).eraseDups
  expandRate : p.properties.expandRate = expandRate
  size : p.properties.size ≤ items.length

/-- There is room for the items. -/
def RoomForItems (expandRate : ℕ → ℕ) (n : ℕ) : Prop := n ≤ 2 ^ 31 ∧ ∀ k < n, expandRate (k + 1) < 2 ^ 31

section Runs

variable {hash : List Char → ℕ} {expandRate : ℕ → ℕ} {items : List Item} {p : Store}

theorem exists_new (hash : List Char → ℕ) (expandRate : ℕ → ℕ) :
    ∃ p, Store.new hash expandRate = some p ∧ Keeps hash expandRate [] p := by
  obtain ⟨m, unused, hm, hvalid, hrate⟩ :=
    construct_valid (V := List Char) hash expandRate (show 0 < 2 ^ 32 by norm_num)
  refine ⟨⟨m, []⟩, by rw [Store.new, hm, Option.map_some], ⟨[], unused, hvalid, fun k v => ?_⟩,
    rfl, hrate, ?_⟩
  · simp [values, addAll]
  · exact hvalid.size.le

/-- **`set`** sets the value, and appends a new key to the list. -/
theorem Keeps.set (h : Keeps hash expandRate items p) {n : ℕ} (hroom : RoomForItems expandRate n)
    (hlt : items.length < n) (item : Item) :
    ∃ p', p.set hash item.1 item.2 = some p' ∧ Keeps hash expandRate (items ++ [item]) p' := by
  obtain ⟨live, unused, hvalid, hholds⟩ := h.valid
  have hsize : p.properties.size < 2 ^ 31 := (h.size.trans_lt hlt).trans_le hroom.1
  have hrate : p.properties.expandRate (p.properties.size + 1) < 2 ^ 31 :=
    h.expandRate ▸ hroom.2 _ (h.size.trans_lt hlt)
  have hlength : (items ++ [item]).length = items.length + 1 := List.length_append
  have hmem : item.1 ∈ items.map Prod.fst ↔ values items item.1 ≠ none := values_eq_none_iff.not_left.symm
  rw [Store.set]
  cases hkey : values items item.1 with
  | some v =>
    obtain ⟨i, hi, he, hfind⟩ := hvalid.find_some hholds hkey
    obtain ⟨hvalid', hholds'⟩ := hvalid.store hholds hi he fun _ => item.2
    refine ⟨⟨p.properties.store i fun _ => item.2, p.keyList⟩, ?_, ⟨live, unused, hvalid', ?_⟩, ?_,
      h.expandRate, ?_⟩
    · rw [hfind, Option.bind_some, HashMap.subscript, hfind, Option.bind_some, hvalid.iteratorLegalCheck hi]
      rfl
    · rw [values_concat]
      exact hholds'
    · rw [List.map_append, List.map_singleton, eraseDups_concat,
        if_pos (hmem.2 (hkey ▸ Option.some_ne_none v))]
      exact h.keyList
    · exact h.size.trans (hlength ▸ Nat.le_succ _)
  | none =>
    obtain ⟨bucketIdx, hfind⟩ := hvalid.find_none hholds hkey
    obtain ⟨i, m, live', unused', hadd, hvalid₁, hi, he, hholds₁, hsize₁, hrate₁⟩ :=
      hvalid.add hholds hkey default hsize hrate
    obtain ⟨hvalid', hholds'⟩ := hvalid₁.store hholds₁ hi he fun _ => item.2
    rw [Function.update_idem] at hholds'
    refine ⟨⟨m.store i fun _ => item.2, p.keyList ++ [item.1]⟩, ?_, ⟨live', unused', hvalid', ?_⟩, ?_,
      hrate₁.trans h.expandRate, ?_⟩
    · have hsubscript : p.properties.subscript hash item.1 (fun _ => item.2) =
          some (m.store i fun _ => item.2) := by
        rw [HashMap.subscript, hfind, Option.bind_some]
        change (p.properties.add hash item.1 default).map _ = _
        rw [hadd]
        rfl
      rw [hfind, Option.bind_some, hsubscript]
      rfl
    · rw [values_concat]
      exact hholds'
    · rw [List.map_append, List.map_singleton, eraseDups_concat, if_neg fun hin => hmem.1 hin hkey, h.keyList]
    · change m.size ≤ _
      rw [hsize₁, hlength]
      exact Nat.succ_le_succ h.size

/-- **`get`** returns the value that was set last. -/
theorem Keeps.get (h : Keeps hash expandRate items p) (key defaultValue : List Char) :
    p.get hash key defaultValue = some ((values items key).getD defaultValue) := by
  obtain ⟨live, unused, hvalid, hholds⟩ := h.valid
  rw [Store.get]
  cases hkey : values items key with
  | some v =>
    obtain ⟨i, hi, he, hfind⟩ := hvalid.find_some hholds hkey
    rw [hfind, Option.bind_some, Option.elim_some, he]
    rfl
  | none =>
    obtain ⟨bucketIdx, hfind⟩ := hvalid.find_none hholds hkey
    rw [hfind]
    rfl

theorem Keeps.setAll (h : Keeps hash expandRate items p) {n : ℕ} (hroom : RoomForItems expandRate n)
    (vv : List Item) (hle : items.length + vv.length ≤ n) :
    ∃ p', p.setAll hash vv = some p' ∧ Keeps hash expandRate (items ++ vv) p' := by
  induction vv generalizing items p with
  | nil => exact ⟨p, rfl, by rwa [List.append_nil]⟩
  | cons item vv ih =>
    rw [List.length_cons] at hle
    obtain ⟨p₁, hset, h₁⟩ := h.set hroom (by omega) item
    have hle₁ : (items ++ [item]).length + vv.length ≤ n := by
      rw [List.length_append, List.length_singleton]
      omega
    obtain ⟨p', hrest, h'⟩ := ih h₁ hle₁
    rw [List.append_assoc, List.singleton_append] at h'
    refine ⟨p', ?_, h'⟩
    rw [Store.setAll, List.foldlM_cons, hset]
    exact hrest

theorem Keeps.call (h : Keeps hash expandRate items p) {n : ℕ} (hroom : RoomForItems expandRate n)
    (call : Call) (hle : items.length + call.items.length ≤ n) :
    ∃ p', p.call hash call = some p' ∧ Keeps hash expandRate (items ++ call.items) p' := by
  cases call with
  | set key defaultValue => exact h.set hroom hle (key, defaultValue)
  | load context =>
    obtain ⟨p', hall, h'⟩ := h.setAll hroom (parse context) hle
    exact ⟨p', by rw [Store.call, Store.load, hall]; rfl, h'⟩

theorem Keeps.run (h : Keeps hash expandRate items p) {n : ℕ} (hroom : RoomForItems expandRate n)
    (calls : List Call) (hle : items.length + (calls.flatMap Call.items).length ≤ n) :
    ∃ p', calls.foldlM (Store.call hash) p = some p' ∧
      Keeps hash expandRate (items ++ calls.flatMap Call.items) p' := by
  induction calls generalizing items p with
  | nil => exact ⟨p, rfl, by rwa [List.flatMap_nil, List.append_nil]⟩
  | cons call calls ih =>
    rw [List.flatMap_cons, List.length_append] at hle
    obtain ⟨p₁, hcall, h₁⟩ := h.call hroom call (by omega)
    have hle₁ : (items ++ call.items).length + (calls.flatMap Call.items).length ≤ n := by
      rw [List.length_append]
      omega
    obtain ⟨p', hrest, h'⟩ := ih h₁ hle₁
    refine ⟨p', ?_, ?_⟩
    · rw [List.foldlM_cons, hcall]
      exact hrest
    · rwa [List.flatMap_cons, ← List.append_assoc]

/-- **`serialize`** writes every key once, with its value. -/
theorem Keeps.serialize (h : Keeps hash expandRate items p) : ∃ es,
    p.serialize = some (Property.serialize es) ∧ es.length = p.properties.size ∧ values es = values items ∧
    ∀ key value, (key, value) ∈ es ↔ values items key = some value := by
  obtain ⟨live, unused, hvalid, hholds⟩ := h.valid
  obtain ⟨es, hes, hlength, hnodup, hmem⟩ := hvalid.entries hholds
  refine ⟨es, by rw [Store.serialize, hes]; rfl, hlength, ?_, hmem⟩
  funext key
  refine Option.ext fun value => ?_
  rw [values, addAll_apply hnodup, hmem]
  simp

theorem Keeps.size_eq_zero_iff (h : Keeps hash expandRate items p) : p.properties.size = 0 ↔ items = [] := by
  constructor
  · intro hzero
    obtain ⟨es, -, hlength, -, hmem⟩ := h.serialize
    obtain rfl := List.length_eq_zero_iff.1 (hlength.trans hzero)
    by_contra hne
    obtain ⟨item, items, rfl⟩ := List.exists_cons_of_ne_nil hne
    obtain ⟨value, hvalue⟩ := Option.ne_none_iff_exists'.1
      (values_eq_none_iff.not_left.2 (List.mem_map.2 ⟨item, List.mem_cons_self, rfl⟩))
    cases (hmem item.1 value).2 hvalue
  · rintro rfl
    exact Nat.le_zero.1 h.size

end Runs

/-- **A configuration is restored from its text.** After any calls of `set` and `load` on a new store, `get`
returns what was set last, the list has every key once, in the order of the first settings, and if the items
are clean, a new store that loads the text of this one has the same values; `load` says whether there are
any. -/
theorem store_restored (hash : List Char → ℕ) (expandRate : ℕ → ℕ) (calls : List Call)
    (hroom : RoomForItems expandRate (calls.flatMap Call.items).length) :
    ∃ p text, (Store.new hash expandRate).bind (fun p => calls.foldlM (Store.call hash) p) = some p ∧
      (∀ key defaultValue, p.get hash key defaultValue =
        some ((values (calls.flatMap Call.items) key).getD defaultValue)) ∧
      p.keyList = ((calls.flatMap Call.items).map Prod.fst).eraseDups ∧
      p.serialize = some text ∧
      ((∀ key value, values (calls.flatMap Call.items) key = some value → Clean (key, value)) →
        ∃ q, (Store.new hash expandRate).bind (fun q => q.load hash text) =
            some (!(calls.flatMap Call.items).isEmpty, q) ∧
          ∀ key defaultValue, q.get hash key defaultValue = p.get hash key defaultValue) := by
  obtain ⟨p₀, hnew, h₀⟩ := exists_new hash expandRate
  obtain ⟨p, hrun, hp⟩ := h₀.run hroom calls (by simp)
  rw [List.nil_append] at hp
  obtain ⟨es, htext, hlength, hvalues, hmem⟩ := hp.serialize
  refine ⟨p, _, by rw [hnew]; exact hrun, hp.get, hp.keyList, htext, fun hclean => ?_⟩
  have hparse : parse (Property.serialize es) = es :=
    parse_serialize_of_clean fun item hitem => hclean item.1 item.2 ((hmem item.1 item.2).1 hitem)
  obtain ⟨q, hload, hq⟩ := h₀.setAll hroom es (by simpa using hlength.trans_le hp.size)
  rw [List.nil_append] at hq
  refine ⟨q, ?_, fun key defaultValue => by rw [hq.get, hp.get, hvalues]⟩
  have hempty : (q.properties.size != 0) = !(calls.flatMap Call.items).isEmpty := by
    have hiff : q.properties.size = 0 ↔ calls.flatMap Call.items = [] := by
      rw [hq.size_eq_zero_iff, ← hp.size_eq_zero_iff, ← List.length_eq_zero_iff, hlength]
    rw [Bool.eq_iff_iff, bne_iff_ne, Bool.not_eq_true', Bool.eq_false_iff, ne_eq, ne_eq, List.isEmpty_iff,
      hiff]
  rw [hnew, Option.bind_some, Store.load, hparse, hload, Option.map_some, hempty]

/-- A value with an end of a line and a sign. -/
def oneSetting : List Call := [.set ['k'] ['a', '\n', '=', 'b']]

theorem store_restored_oneSetting : ∃ p text q,
    (Store.new (fun _ => 0) id).bind (fun p => oneSetting.foldlM (Store.call fun _ => 0) p) = some p ∧
      p.serialize = some text ∧
      (Store.new (fun _ => 0) id).bind (fun q => q.load (fun _ => 0) text) = some (true, q) ∧
      q.get (fun _ => 0) ['k'] [] = some ['a', '\n', '=', 'b'] := by
  have hroom : RoomForItems id (oneSetting.flatMap Call.items).length := by
    refine ⟨by decide, fun k hk => ?_⟩
    obtain rfl : k = 0 := Nat.lt_one_iff.1 hk
    decide
  have hkey : CleanKey ['k'] := by
    refine ⟨by decide, by decide, by decide, by decide, by decide, by decide, fun pre post heq => ?_⟩
    cases pre with
    | nil => exact Or.inl rfl
    | cons c pre => simp at heq
  have hvalue : CleanValue ['a', '\n', '=', 'b'] := by
    refine ⟨by decide, by decide, fun c hc hspace => ?_, fun c hc hspace => ?_, by decide, by decide⟩
    · obtain rfl := Option.some.inj hc
      cases hspace
    · obtain rfl := Option.some.inj hc
      cases hspace
  obtain ⟨p, text, hrun, hget, -, htext, hrestored⟩ := store_restored (fun _ => 0) id oneSetting hroom
  have hvalues : values (oneSetting.flatMap Call.items) =
      Function.update (fun _ => none) ['k'] (some ['a', '\n', '=', 'b']) := rfl
  have hclean : ∀ key value,
      values (oneSetting.flatMap Call.items) key = some value → Clean (key, value) := by
    intro key value h
    rw [hvalues, Function.update_apply] at h
    split at h
    · rename_i hk
      obtain rfl := Option.some.inj h
      exact ⟨hk ▸ hkey, hvalue⟩
    · cases h
  obtain ⟨q, hload, hq⟩ := hrestored hclean
  exact ⟨p, text, q, hrun, htext, hload, (hq _ _).trans (hget _ _)⟩

end QLog.Property
