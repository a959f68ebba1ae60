import QLog.Utility.HashMap.Operations

/-!
# Hash maps are finite maps

A `Script` is a sequence of operations on a map, in which a copy is made from a map that has a script of its
own. `Script.run` is what the map does, `Script.model` the finite map of the same sequence. As long as no
step asks for more buckets or nodes than `round_pow_of_two` can round in 32 bits, and no iterator is erased
whose entry has moved to another bucket, the run comes to its end and the map agrees with its model
(`Script.run_agrees`): in its lookups, in its iteration, in its account of the nodes, and in its buckets.
-/

namespace QLog.Utility.HashMap

variable {K V : Type*} [DecidableEq K] {hash : K → ℕ} {m : HashMap K V} {l f : List ℕ} {a b : K → Option V}

/-! ## Copying -/

omit [DecidableEq K] in
theorem Valid.exists_mapM (h : Valid hash m l f) : ∃ es, l.mapM m.entry = some es ∧ l.map m.entry = es.map some := by
  have hentry : ∀ i ∈ l, ∃ e, m.entry i = some e := fun i hi => (h.entry i hi).imp fun _ he => he.1
  clear h
  induction l with
  | nil => exact ⟨[], rfl, rfl⟩
  | cons i l ih =>
    obtain ⟨e, he⟩ := hentry i List.mem_cons_self
    obtain ⟨es, hes, hmap⟩ := ih fun j hj => hentry j (List.mem_cons_of_mem i hj)
    refine ⟨e :: es, ?_, by rw [List.map_cons, List.map_cons, he, hmap]⟩
    rw [List.mapM_cons, he, hes]
    rfl

omit [DecidableEq K] in
/-- The iteration of a map gives every entry, and no key twice. -/
theorem Valid.entries (h : Valid hash m l f) (ha : Holds m l a) : ∃ es, m.entries = some es ∧
    es.length = m.size ∧ (es.map Prod.fst).Nodup ∧ ∀ k v, (k, v) ∈ es ↔ a k = some v := by
  obtain ⟨es, hes, hmap⟩ := h.exists_mapM
  refine ⟨es, ?_, ?_, ?_, fun k v => ?_⟩
  · rw [HashMap.entries, h.iteration, Option.bind_some, hes]
  · have hlen := congrArg List.length hmap
    rw [List.length_map, List.length_map] at hlen
    rw [h.size, hlen]
  · have hkeys := h.links.nodup.map_on h.keys
    have hsome : l.map m.keyAt = (es.map Prod.fst).map some := by
      have hkeyAt : m.keyAt = fun i => (m.entry i).map Prod.fst := rfl
      have hmap' := congrArg (List.map (Option.map Prod.fst)) hmap
      rw [hkeyAt]
      simpa [List.map_map, Function.comp_def] using hmap'
    exact (hsome ▸ hkeys).of_map
  · have hmem : (k, v) ∈ es ↔ some (k, v) ∈ es.map some := by simp
    rw [hmem, ← hmap, List.mem_map, ha k v]

/-- The finite map that gets the entries one after the other. -/
def addAll (a : K → Option V) (es : List (K × V)) : K → Option V :=
  es.foldl (fun a e => Function.update a e.1 (some e.2)) a

theorem addAll_apply {es : List (K × V)} (hes : (es.map Prod.fst).Nodup) (k : K) (v : V) :
    addAll a es k = some v ↔ (k, v) ∈ es ∨ k ∉ es.map Prod.fst ∧ a k = some v := by
  induction es generalizing a with
  | nil => simp [addAll]
  | cons e es ih =>
    obtain ⟨he, hes⟩ := List.nodup_cons.1 hes
    have hrest := ih hes (a := Function.update a e.1 (some e.2))
    have hfold : addAll a (e :: es) = addAll (Function.update a e.1 (some e.2)) es := rfl
    rw [hfold, hrest]
    rcases eq_or_ne k e.1 with rfl | hk
    · have hnot : ∀ w, (e.1, w) ∉ es := fun w hw => he (List.mem_map.2 ⟨_, hw, rfl⟩)
      simp [hnot, he, Prod.ext_iff, eq_comm]
    · simp [hk, Prod.ext_iff]

/-- The loop of a copy, over entries whose keys are new. -/
theorem Valid.foldlM_add {es : List (K × V)} (h : Valid hash m l f) (ha : Holds m l a)
    (hes : (es.map Prod.fst).Nodup) (hnew : ∀ e ∈ es, a e.1 = none) (hsize : m.size + es.length ≤ 2 ^ 31)
    (hrate : ∀ n < m.size + es.length, m.expandRate (n + 1) < 2 ^ 31) : ∃ m' l' f',
      es.foldlM (fun m e => (m.add hash e.1 e.2).map Prod.snd) m = some m' ∧ Valid hash m' l' f' ∧
      Holds m' l' (addAll a es) ∧ m'.expandRate = m.expandRate := by
  induction es generalizing m l f a with
  | nil => exact ⟨m, l, f, rfl, h, ha, rfl⟩
  | cons e es ih =>
    rw [List.length_cons] at hsize hrate
    obtain ⟨he, hes⟩ := List.nodup_cons.1 hes
    obtain ⟨n, m₁, l₁, f₁, hadd, h₁, -, -, ha₁, hs₁, hr₁⟩ :=
      h.add ha (hnew e List.mem_cons_self) e.2 (by omega) (hrate m.size (by omega))
    have hnew₁ : ∀ e' ∈ es, Function.update a e.1 (some e.2) e'.1 = none := fun e' he' => by
      rw [Function.update_of_ne fun heq => he (List.mem_map.2 ⟨e', he', heq⟩)]
      exact hnew e' (List.mem_cons_of_mem e he')
    obtain ⟨m', l', f', hloop, h', ha', hr'⟩ :=
      ih h₁ ha₁ hes hnew₁ (by omega) fun n hn => hr₁ ▸ hrate n (by omega)
    refine ⟨m', l', f', ?_, h', ha', hr'.trans hr₁⟩
    rw [List.foldlM_cons, hadd]
    exact hloop

/-- A copy of another map, into an empty one. -/
theorem Valid.copyFrom {rhs : HashMap K V} {l' f' : List ℕ} (h : Valid hash m [] f)
    (hrhs : Valid hash rhs l' f') (hb : Holds rhs l' b) (hrate : ∀ n < rhs.size, m.expandRate (n + 1) < 2 ^ 31) :
    ∃ m' l₁ f₁, m.copyFrom hash rhs = some m' ∧ Valid hash m' l₁ f₁ ∧ Holds m' l₁ b ∧
      m'.expandRate = m.expandRate := by
  have hbuckets : rhs.bucketsSize ≤ 2 ^ 31 := by
    rcases hrhs.bucketsSize with hzero | ⟨k, hk, hpow⟩
    · omega
    · rw [hpow]
      exact Nat.pow_le_pow_right (by omega) (by omega)
  obtain ⟨m₁, l₁, hm₁, h₁, hl₁, -, -, -, hr₁, -⟩ := h.expandBuckets hbuckets
  obtain rfl := hl₁.eq_nil
  obtain ⟨m₂, f₂, hm₂, h₂, -, -, -, hr₂, -⟩ := h₁.expandNodes hrhs.nodesSize
  obtain ⟨es, hes, hlen, hnodup, hmem⟩ := hrhs.entries hb
  have hzero : m₂.size = 0 := h₂.size
  have hle : rhs.size ≤ 2 ^ 31 := hrhs.size ▸ hrhs.length_le.trans hrhs.nodesSize
  obtain ⟨m', l', f', hloop, h', ha', hr'⟩ := h₂.foldlM_add (a := fun _ => none) (fun k v => by simp) hnodup
    (fun _ _ => rfl) (by omega) fun n hn => by
      rw [hr₂, hr₁]
      exact hrate n (by omega)
  have hall : addAll (fun _ => none) es = b := by
    funext k
    refine Option.ext fun v => ?_
    rw [addAll_apply hnodup, hmem]
    simp
  refine ⟨m', l', f', ?_, h', hall ▸ ha', hr'.trans (hr₂.trans hr₁)⟩
  rw [HashMap.copyFrom, hm₁, Option.bind_some, hm₂, Option.bind_some, hes, Option.bind_some, hloop]

/-! ## Scripts -/

/-- A sequence of operations. An iterator is given by the key of its entry and its two indices, and a change of
`expand_rate_` by the products with it. -/
inductive Script (K V : Type*)
  | construct (expandRate : ℕ → ℕ) (initBucketSize : ℕ)
  | ofCopy (expandRate : ℕ → ℕ) (rhs : Script K V)
  | add (s : Script K V) (key : K) (value : V)
  | subscript (s : Script K V) (key : K) (f : V → V)
  | erase (s : Script K V) (key : K)
  | eraseAt (s : Script K V) (key : K) (it : Iterator)
  | clear (s : Script K V)
  | assign (s rhs : Script K V)
  | setExpandRate (s : Script K V) (expandRate : ℕ → ℕ)

namespace Script

variable [Inhabited V] (hash : K → ℕ)

/-- What the map does. -/
def run : Script K V → Option (HashMap K V)
  | construct expandRate initBucketSize => HashMap.construct hash expandRate initBucketSize
  | ofCopy expandRate rhs => (run rhs).bind fun rhs => HashMap.ofCopy hash expandRate rhs
  | add s key value => (run s).bind fun m => (m.add hash key value).map Prod.snd
  | subscript s key f => (run s).bind fun m => m.subscript hash key f
  | erase s key => (run s).bind fun m => (m.erase hash key).map Prod.snd
  | eraseAt s _ it => (run s).map fun m => (m.eraseAt it).2
  | clear s => (run s).bind fun m => m.clear
  | assign s rhs => (run s).bind fun m => (run rhs).bind fun rhs => m.assign hash rhs
  | setExpandRate s expandRate => (run s).map fun m => { m with expandRate := expandRate }

/-- The finite map of the same sequence. -/
def model : Script K V → K → Option V
  | construct _ _ => fun _ => none
  | ofCopy _ rhs => model rhs
  | add s key value => Function.update (model s) key (some value)
  | subscript s key f => Function.update (model s) key (some (f ((model s key).getD default)))
  | erase s key => Function.update (model s) key none
  | eraseAt s key _ => Function.update (model s) key none
  | clear _ => fun _ => none
  | assign _ rhs => model rhs
  | setExpandRate s _ => model s

/-- There is room for one more entry: its node and its bucket count are rounded in 32 bits. -/
def Room (m : HashMap K V) : Prop := m.size < 2 ^ 31 ∧ m.expandRate (m.size + 1) < 2 ^ 31

instance : DecidablePred (Room (K := K) (V := V)) := fun _ => inferInstanceAs (Decidable (_ ∧ _))

/-- The same, for the entries of another map in an empty one. -/
def RoomFor (expandRate : ℕ → ℕ) (rhs : HashMap K V) : Prop := ∀ n < rhs.size, expandRate (n + 1) < 2 ^ 31

/-- A key that is added is absent, and an iterator to erase is of the node in the list that has its entry. -/
def Proper : Script K V → Prop
  | construct _ initBucketSize => initBucketSize < 2 ^ 32
  | ofCopy _ rhs => Proper rhs
  | add s key _ => Proper s ∧ model s key = none
  | subscript s _ _ => Proper s
  | erase s _ => Proper s
  | eraseAt s key it => Proper s ∧
    ∀ m ∈ run hash s, ∃ live ∈ m.iteration, ∃ i ∈ live, it.nodeIndex = some i ∧ m.keyAt i = some key
  | clear s => Proper s
  | assign s rhs => Proper s ∧ Proper rhs
  | setExpandRate s _ => Proper s

/-- No step asks for more than 32 bits can round, and an entry that is erased by an iterator is in the bucket in
which the iterator was obtained. -/
def Fits : Script K V → Prop
  | construct _ _ => True
  | ofCopy expandRate rhs => Fits rhs ∧ ∀ m ∈ run hash rhs, RoomFor expandRate m
  | add s _ _ => Fits s ∧ ∀ m ∈ run hash s, Room m
  | subscript s key _ => Fits s ∧ (model s key = none → ∀ m ∈ run hash s, Room m)
  | erase s _ => Fits s
  | eraseAt s key it => Fits s ∧ ∀ m ∈ run hash s, it.bucketIdx = some (m.getBucketIndexByKey hash key)
  | clear s => Fits s
  | assign s rhs => (Fits s ∧ Fits rhs) ∧ ∀ m ∈ run hash s, ∀ m' ∈ run hash rhs, RoomFor m.expandRate m'
  | setExpandRate s _ => Fits s

end Script

/-- The map agrees with a finite map, where `live` are the nodes of its list and `unused` the free ones. -/
structure Agrees (hash : K → ℕ) (m : HashMap K V) (a : K → Option V) (live unused : List ℕ) : Prop where
  /-- A lookup finds the value of its key. -/
  find_some : ∀ key v, a key = some v → ∃ it i, m.find hash key = some it ∧ m.iteratorLegalCheck it ∧
    it.nodeIndex = some i ∧ m.entry i = some (key, v)
  /-- It finds nothing for another key. -/
  find_none : ∀ key, a key = none → ∃ it, m.find hash key = some it ∧ it.nodeIndex = none
  /-- The iteration visits the nodes of the list, each once. -/
  iteration : m.iteration = some live
  nodup : live.Nodup
  size : m.size = live.length
  /-- They have the entries of the finite map, and every entry is at one node. -/
  entries : ∀ k v, a k = some v ↔ ∃ i ∈ live, m.entry i = some (k, v)
  constructed : ∀ i ∈ live, (m.entry i).isSome
  keys : ∀ i ∈ live, ∀ j ∈ live, m.keyAt i = m.keyAt j → i = j
  /-- The list can be read in both directions. -/
  links : m.links.Represents live
  /-- Every allocated node is in the list or free. -/
  free : IsChain m.links.next m.free unused
  nodes : (live ++ unused).Perm (List.range m.nodesSize)
  /-- The entries of a bucket are one block of the list, and the bucket has the index of the first. -/
  buckets : ∀ b, ∃ pre mid post, live = pre ++ mid ++ post ∧ m.buckets b = mid.head? ∧
    (∀ i ∈ mid, (m.keyAt i).map (m.getBucketIndexByKey hash) = some b) ∧
    ∀ i ∈ pre ++ post, (m.keyAt i).map (m.getBucketIndexByKey hash) ≠ some b

theorem Valid.agrees (h : Valid hash m l f) (ha : Holds m l a) : Agrees hash m a l f := by
  have hbucket : ∀ i ∈ l, (m.keyAt i).map (m.getBucketIndexByKey hash) = some (m.bucketIdx i) := by
    intro i hi
    obtain ⟨e, he, hb⟩ := h.entry i hi
    rw [keyAt, he, Option.map_some, Option.map_some, hb]
  refine ⟨fun key v hkey => ?_, fun key hkey => ?_, h.iteration, h.links.nodup, h.size, ha, fun i hi => ?_, h.keys,
    h.links, h.free, h.nodes, fun b => ?_⟩
  · obtain ⟨i, hi, he, hfind⟩ := h.find_some ha hkey
    exact ⟨_, i, hfind, h.iteratorLegalCheck hi, rfl, he⟩
  · obtain ⟨b, hfind⟩ := h.find_none ha hkey
    exact ⟨_, hfind, rfl⟩
  · obtain ⟨e, he, -⟩ := h.entry i hi
    rw [he, Option.isSome_some]
  · obtain ⟨pre, mid, post, rfl, hmid, hout, hfind⟩ := h.contiguous.exists_block b
    refine ⟨pre, mid, post, rfl, (h.first b).trans hfind, fun i hi => ?_, fun i hi heq => hout i hi ?_⟩
    · rw [hbucket i (by simp [hi]), hmid i hi]
    · rw [hbucket i (by simp only [List.mem_append] at hi ⊢; tauto)] at heq
      exact Option.some.inj heq

omit [DecidableEq K] in
/-- The constructor, also with a bucket count that is rounded to zero. -/
theorem construct_valid (hash : K → ℕ) (expandRate : ℕ → ℕ) {size : ℕ} (hsize : size < 2 ^ 32) :
    ∃ (m : HashMap K V) (f : List ℕ), construct hash expandRate size = some m ∧ Valid hash m [] f ∧
      m.expandRate = expandRate := by
  set m₀ : HashMap K V := ⟨⟨fun _ => none, fun _ => none, none, none⟩, fun _ => 0, fun _ => none, 0, fun _ => none, 0,
    none, 0, expandRate⟩ with hm₀
  have h₀ : Valid hash m₀ [] [] :=
    ⟨Links.represents_nil rfl rfl, rfl, List.Perm.refl _, rfl, Nat.zero_le _, .inl rfl, fun _ => rfl, by simp,
      by simp, Contiguous.nil, fun _ => rfl⟩
  obtain ⟨m₁, hm₁, h₁, hr₁⟩ : ∃ m₁, m₀.expandBuckets hash size = some m₁ ∧ Valid hash m₁ [] [] ∧
      m₁.expandRate = expandRate := by
    rcases Nat.lt_or_ge (2 ^ 31) size with hlarge | hle
    · refine ⟨{ m₀ with buckets := fun _ => none, bucketsSize := 0 }, ?_, h₀, rfl⟩
      have hpos : ¬size ≤ m₀.bucketsSize := by
        change ¬size ≤ 0
        omega
      rw [expandBuckets, if_neg hpos]
      dsimp only
      rw [roundPowOfTwo_of_large hlarge hsize, if_neg (lt_irrefl 0)]
    · obtain ⟨m₁, l₁, hm₁, h₁, hl₁, -, -, -, hr₁, -⟩ := h₀.expandBuckets hle
      obtain rfl := hl₁.eq_nil
      exact ⟨m₁, hm₁, h₁, hr₁⟩
  have hbuckets : m₁.bucketsSize ≤ 2 ^ 31 := by
    rcases h₁.bucketsSize with hzero | ⟨k, hk, hpow⟩
    · omega
    · rw [hpow]
      exact Nat.pow_le_pow_right (by omega) (by omega)
  obtain ⟨m₂, f₂, hm₂, h₂, -, -, -, hr₂, -⟩ := h₁.expandNodes hbuckets
  exact ⟨m₂, f₂, by rw [construct, ← hm₀, hm₁, Option.bind_some, hm₂], h₂, hr₂.trans hr₁⟩

namespace Script

variable [Inhabited V]

/-- The run comes to its end, and the invariant holds there. -/
theorem run_valid {s : Script K V} (hproper : s.Proper hash) (hfits : s.Fits hash) :
    ∃ m l f, s.run hash = some m ∧ Valid hash m l f ∧ Holds m l s.model := by
  induction s with
  | construct expandRate size =>
    obtain ⟨m, f, hm, h, -⟩ := construct_valid (V := V) hash expandRate hproper
    exact ⟨m, [], f, hm, h, fun k v => by simp [model]⟩
  | ofCopy expandRate rhs ih =>
    obtain ⟨m', l', f', hrun, h', ha'⟩ := ih hproper hfits.1
    obtain ⟨m₀, f₀, hm₀, h₀, hr₀⟩ := construct_valid (V := V) hash expandRate (show 0 < 2 ^ 32 by norm_num)
    obtain ⟨m, l, f, hcopy, h, ha, -⟩ := h₀.copyFrom h' ha' fun n hn => hr₀ ▸ hfits.2 m' hrun n hn
    refine ⟨m, l, f, ?_, h, ha⟩
    rw [run, hrun, Option.bind_some, HashMap.ofCopy, hm₀, Option.bind_some, hcopy]
  | add s key value ih =>
    obtain ⟨m, l, f, hrun, h, ha⟩ := ih hproper.1 hfits.1
    obtain ⟨hsize, hrate⟩ := hfits.2 m hrun
    obtain ⟨n, m', l', f', hadd, h', -, -, ha', -⟩ := h.add ha hproper.2 value hsize hrate
    refine ⟨m', l', f', ?_, h', ha'⟩
    rw [run, hrun, Option.bind_some, hadd, Option.map_some]
  | subscript s key g ih =>
    obtain ⟨m, l, f, hrun, h, ha⟩ := ih hproper hfits.1
    cases hkey : s.model key with
    | some v =>
      obtain ⟨i, hi, he, hfind⟩ := h.find_some ha hkey
      obtain ⟨h', ha'⟩ := h.store ha hi he g
      refine ⟨m.store i g, l, f, ?_, h', ?_⟩
      · rw [run, hrun, Option.bind_some, HashMap.subscript, hfind, Option.bind_some, h.iteratorLegalCheck hi]
        rfl
      · rw [model, hkey]
        exact ha'
    | none =>
      obtain ⟨hsize, hrate⟩ := hfits.2 hkey m hrun
      obtain ⟨bucketIdx, hfind⟩ := h.find_none ha hkey
      obtain ⟨n, m₁, l₁, f₁, hadd, h₁, hn, he, ha₁, -⟩ := h.add ha hkey default hsize hrate
      obtain ⟨h', ha'⟩ := h₁.store ha₁ hn he g
      rw [Function.update_idem] at ha'
      refine ⟨m₁.store n g, l₁, f₁, ?_, h', ?_⟩
      · rw [run, hrun, Option.bind_some, HashMap.subscript, hfind, Option.bind_some]
        change (m.add hash key default).map _ = _
        rw [hadd]
        rfl
      · rw [model, hkey]
        exact ha'
  | erase s key ih =>
    obtain ⟨m, l, f, hrun, h, ha⟩ := ih hproper hfits
    cases hkey : s.model key with
    | some v =>
      obtain ⟨i, hi, he, hfind⟩ := h.find_some ha hkey
      obtain ⟨m', l', f', herase, h', ha', -⟩ := h.eraseAt ha hi he
      refine ⟨m', l', f', ?_, h', ha'⟩
      rw [run, hrun, Option.bind_some, HashMap.erase, hfind, Option.map_some, h.iteratorLegalCheck hi, herase]
      rfl
    | none =>
      obtain ⟨bucketIdx, hfind⟩ := h.find_none ha hkey
      refine ⟨m, l, f, ?_, h, ?_⟩
      · rw [run, hrun, Option.bind_some, HashMap.erase, hfind, Option.map_some]
        rfl
      · rw [model, ← hkey, Function.update_eq_self]
        exact ha
  | eraseAt s key it ih =>
    obtain ⟨m, l, f, hrun, h, ha⟩ := ih hproper.1 hfits.1
    obtain ⟨live, hlive, i, hi, hnode, hkeyAt⟩ := hproper.2 m hrun
    obtain rfl : l = live := Option.some.inj (h.iteration.symm.trans hlive)
    obtain ⟨e, he, hbucket⟩ := h.entry i hi
    obtain rfl : e.1 = key := Option.some.inj (by rw [← hkeyAt, keyAt, he, Option.map_some])
    obtain rfl : it = ⟨some i, some (m.bucketIdx i)⟩ :=
      Iterator.ext hnode ((hfits.2 m hrun).trans (congrArg some hbucket.symm))
    obtain ⟨m', l', f', herase, h', ha', -⟩ := h.eraseAt ha hi he
    exact ⟨m', l', f', by rw [run, hrun, Option.map_some, herase], h', ha'⟩
  | clear s ih =>
    obtain ⟨m, l, f, hrun, h, ha⟩ := ih hproper hfits
    obtain ⟨m', hclear, h', -⟩ := h.clear
    exact ⟨m', [], _, by rw [run, hrun, Option.bind_some, hclear], h', fun k v => by simp [model]⟩
  | assign s rhs ihs ihr =>
    obtain ⟨m, l, f, hrun, h, ha⟩ := ihs hproper.1 hfits.1.1
    obtain ⟨m', l', f', hrun', h', ha'⟩ := ihr hproper.2 hfits.1.2
    obtain ⟨m₀, hclear, h₀, hr₀⟩ := h.clear
    obtain ⟨m₁, l₁, f₁, hcopy, h₁, ha₁, -⟩ := h₀.copyFrom h' ha' fun n hn => hr₀ ▸ hfits.2 m hrun m' hrun' n hn
    refine ⟨m₁, l₁, f₁, ?_, h₁, ha₁⟩
    rw [run, hrun, Option.bind_some, hrun', Option.bind_some, HashMap.assign, hclear, Option.bind_some, hcopy]
  | setExpandRate s expandRate ih =>
    obtain ⟨m, l, f, hrun, h, ha⟩ := ih hproper hfits
    exact ⟨_, l, f, congrArg (Option.map _) hrun, ⟨h.links, h.free, h.nodes, h.size, h.nodesSize,
      h.bucketsSize, h.occupied, h.entry, h.keys, h.contiguous, h.first⟩, ha⟩

/-- **A hash map is a finite map**: a sequence of operations in which no step asks for more than 32 bits can
round comes to its end, and the map agrees with the finite map of the same sequence. -/
theorem run_agrees (hash : K → ℕ) (s : Script K V) (hproper : s.Proper hash) (hfits : s.Fits hash) :
    ∃ m live unused, s.run hash = some m ∧ Agrees hash m s.model live unused := by
  obtain ⟨m, l, f, hrun, h, ha⟩ := run_valid hproper hfits
  exact ⟨m, l, f, hrun, h.agrees ha⟩

/-- Three keys of one bucket, of which the middle one is erased by its key and the last one by an iterator. -/
theorem run_agrees_collision : ∃ (s : Script ℕ ℕ) (m : HashMap ℕ ℕ) (live unused : List ℕ),
    s = (((((construct (fun n => n) 0).add 4 40).add 5 50).add 6 60).erase 5).eraseAt 6 ⟨some 2, some 3⟩ ∧
      s.run (fun _ => 7) = some m ∧ Agrees (fun _ => 7) m s.model live unused := by
  obtain ⟨m, live, unused, h⟩ := run_agrees (fun _ => 7)
    ((((((construct (fun n => n) 0).add 4 40).add 5 50).add 6 60).erase 5).eraseAt 6 ⟨some 2, some 3⟩)
    ⟨⟨⟨⟨show 0 < 2 ^ 32 by decide, rfl⟩, rfl⟩, rfl⟩, by decide⟩
    ⟨⟨⟨⟨trivial, by decide⟩, by decide⟩, by decide⟩, by decide⟩
  exact ⟨_, m, live, unused, rfl, h⟩

/-- The iterator of an entry that moves to another bucket when the next entry is added: it is refused. -/
theorem run_stale_iterator : ∃ s : Script ℕ ℕ, s = (construct (fun n => n) 0).add 6 60 ∧
    (s.run fun key => key).bind (fun m => m.find (fun key => key) 6) = some ⟨some 0, some 0⟩ ∧
    ((s.add 5 50).eraseAt 6 ⟨some 0, some 0⟩).Proper (fun key => key) ∧
    ((s.add 5 50).eraseAt 6 ⟨some 0, some 0⟩).model 6 = none ∧
    (((s.add 5 50).eraseAt 6 ⟨some 0, some 0⟩).run fun key => key).bind (fun m => m.find (fun key => key) 6) =
      some ⟨some 0, some 2⟩ :=
  ⟨_, rfl, by decide, ⟨⟨⟨show 0 < 2 ^ 32 by decide, rfl⟩, rfl⟩, by decide⟩, rfl, by decide⟩

/-- An expand rate of three billion: the bucket count is rounded to zero, and the bucket is looked up where
there is none. -/
theorem run_large_rate : ∃ s : Script ℕ ℕ,
    s = ((construct (fun n => n) 0).setExpandRate fun n => n * 3000000000).add 4 40 ∧
      s.Proper (fun key => key) ∧ s.run (fun key => key) = none :=
  ⟨_, rfl, ⟨show 0 < 2 ^ 32 by decide, rfl⟩, rfl⟩

end Script

end QLog.Utility.HashMap
