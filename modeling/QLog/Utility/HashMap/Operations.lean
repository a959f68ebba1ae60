import QLog.Utility.HashMap.Invariant

/-!
# The operations of a hash map

Every operation keeps the invariant, and the entries change as those of a finite map do: `Models hash m a`
says that the map is well formed and that its entries are those of `a`. More nodes leave the list as it is,
a new entry goes in front of its bucket or to the end, an erased one goes out, and a cleared map has all
nodes free again.
-/

namespace QLog.Utility.HashMap

variable {K V : Type*} {hash : K → ℕ} {m m' : HashMap K V} {l f pre post : List ℕ} {i n b : ℕ}

/-! ## More nodes -/

/-- The new nodes are in front of the free ones, and the links of the others are as they were. -/
theorem pushNodes_spec {start : ℕ} (n : ℕ) (h : IsChain m.links.next m.free f)
    (hf : ∀ i ∈ f, i < start ∨ start + n ≤ i) : ∃ next prev free,
      pushNodes start n m = { m with links := { m.links with next := next, prev := prev }, free := free } ∧
      IsChain next free (List.range' start n ++ f) ∧
      ∀ i < start, next i = m.links.next i ∧ prev i = m.links.prev i := by
  induction n generalizing m f with
  | zero => exact ⟨m.links.next, m.links.prev, m.free, rfl, h, fun _ _ => ⟨rfl, rfl⟩⟩
  | succ n ih =>
    have hnew : start + n ∉ f := fun hmem => by
      have := hf _ hmem
      omega
    obtain ⟨next, prev, free, heq, hchain, hkept⟩ := ih (m := m.pushFree (start + n)) (h.push hnew) fun i hi => by
      rcases List.mem_cons.1 hi with rfl | hi
      · exact .inr le_rfl
      · exact (hf i hi).imp_right fun hle => by omega
    refine ⟨next, prev, free, heq, ?_, fun i hi => ?_⟩
    · rw [List.range'_concat, List.append_assoc, Nat.one_mul]
      exact hchain
    · have hne : i ≠ start + n := by omega
      obtain ⟨hnext, hprev⟩ := hkept i hi
      exact ⟨hnext.trans (Function.update_of_ne hne _ _), hprev.trans (Function.update_of_ne hne _ _)⟩

/-- `expand_nodes` keeps the list, up to the node count whose rounding has 32 bits. -/
theorem Valid.expandNodes (h : Valid hash m l f) {size : ℕ} (hsize : size ≤ 2 ^ 31) :
    ∃ m' f', m.expandNodes size = some m' ∧ Valid hash m' l f' ∧ (∀ i ∈ l, m'.entry i = m.entry i) ∧
      m'.bucketsSize = m.bucketsSize ∧ m'.size = m.size ∧ m'.expandRate = m.expandRate ∧
      size ≤ m'.nodesSize := by
  by_cases hle : size ≤ m.nodesSize
  · exact ⟨m, f, if_pos hle, h, fun _ _ => rfl, rfl, rfl, rfl, hle⟩
  · obtain ⟨k, hk, hround, hcap, -⟩ := exists_roundPowOfTwo (by omega) hsize
    have hpow : 2 ^ k ≤ 2 ^ 31 := Nat.pow_le_pow_right (by omega) (by omega)
    have hfree : ∀ i ∈ f, i < m.nodesSize := fun i hi =>
      List.mem_range.1 (h.nodes.subset (List.mem_append_right l hi))
    obtain ⟨next, prev, free, heq, hchain, hkept⟩ :=
      pushNodes_spec (2 ^ k - m.nodesSize) h.free fun i hi => .inl (hfree i hi)
    refine ⟨{ m with links := { m.links with next := next, prev := prev }
                     free := free
                     entry := fun i => if i ∈ l then m.entry i else none
                     nodesSize := 2 ^ k }, List.range' m.nodesSize (2 ^ k - m.nodesSize) ++ f, ?_,
      ⟨?_, hchain, ?_, h.size, hpow, h.bucketsSize, h.occupied, ?_, ?_, h.contiguous, h.first⟩,
      fun i hi => if_pos hi, rfl, rfl, rfl, hcap⟩
    · rw [HashMap.expandNodes, if_neg hle]
      dsimp only
      rw [hround, if_neg (by omega), h.iteration, Option.map_some, heq]
    · exact h.links.congr (fun i hi => (hkept i (h.lt_of_mem hi)).1) (fun i hi => (hkept i (h.lt_of_mem hi)).2)
        rfl rfl
    · have hrange : List.range (2 ^ k) = List.range m.nodesSize ++
          List.range' m.nodesSize (2 ^ k - m.nodesSize) := by
        have happ := List.range'_append_1 (s := 0) (m := m.nodesSize) (n := 2 ^ k - m.nodesSize)
        rw [Nat.zero_add, Nat.add_sub_cancel' (by omega)] at happ
        rw [List.range_eq_range', List.range_eq_range', happ]
      rw [hrange]
      refine List.Perm.trans ?_ (h.nodes.append_right _)
      rw [List.append_assoc]
      exact List.perm_append_comm.append_left l
    · intro i hi
      obtain ⟨e, he, hb⟩ := h.entry i hi
      exact ⟨e, (if_pos hi).trans he, hb⟩
    · intro i hi j hj hkey
      refine h.keys i hi j hj ?_
      simpa only [keyAt, if_pos hi, if_pos hj] using hkey

/-! ## A new entry -/

/-- Where a new node of a bucket goes: in front of the first one of the bucket, or to the end. -/
theorem Valid.exists_place (h : Valid hash m l f) (b : ℕ) : ∃ pre post, l = pre ++ post ∧
    m.buckets b = post.head? ∧ (∀ i ∈ pre, m.bucketIdx i ≠ b) ∧ ∀ i, post.head? = some i → m.bucketIdx i = b := by
  rw [h.first]
  cases hfind : l.find? (m.bucketIdx · = b) with
  | none =>
    exact ⟨l, [], (List.append_nil l).symm, rfl, fun i hi => by simpa using List.find?_eq_none.1 hfind i hi,
      fun i hi => by cases hi⟩
  | some first =>
    obtain ⟨hb, pre, post, rfl, hpre⟩ := List.find?_eq_some_iff_append.1 hfind
    refine ⟨pre, first :: post, rfl, rfl, fun i hi => by simpa using hpre i hi, fun i hi => ?_⟩
    obtain rfl := Option.some.inj hi
    simpa using hb

/-- A group stays together with a new member in front of it. -/
theorem contiguous_place {g : ℕ → ℕ} {b : ℕ} (h : Contiguous ((pre ++ post).map g)) (hpre : ∀ i ∈ pre, g i ≠ b)
    (hpost : ∀ i, post.head? = some i → g i = b) : Contiguous (pre.map g ++ b :: post.map g) := by
  cases post with
  | nil =>
    rw [List.append_nil] at h
    refine h.concat fun hmem => ?_
    obtain ⟨i, hi, hib⟩ := List.mem_map.1 hmem
    exact hpre i hi hib
  | cons first post =>
    have hfirst := hpost first rfl
    rw [List.map_append, List.map_cons, hfirst] at h
    rw [List.map_cons, hfirst]
    exact h.double

/-- A node linked into its bucket, with the entry that is then constructed. -/
theorem Valid.linkNode {f' : List ℕ} {key : K} (h : Valid hash m l (n :: f')) (value : V)
    (hkey : ∀ i ∈ l, m.keyAt i ≠ some key) (hsize : m.size < 2 ^ 31) (hpos : m.bucketsSize ≠ 0) :
    ∃ m₁ l', m.linkNode (m.getBucketIndexByKey hash key) = some (n, m₁) ∧
      Valid hash { m₁ with entry := Function.update m₁.entry n (some (key, value)), size := add32 m₁.size 1 }
        l' f' ∧ l'.Perm (n :: l) ∧ m₁.entry = m.entry ∧ m₁.size = m.size ∧ m₁.expandRate = m.expandRate := by
  set b := m.getBucketIndexByKey hash key with hb
  obtain ⟨pre, post, rfl, hbucket, hpre, hhead⟩ := h.exists_place b
  have hn : n ∉ pre ++ post := fun hmem => h.not_mem_free hmem List.mem_cons_self
  have hfree : m.free = some n := h.free.1
  have hother : ∀ i ∈ pre ++ post, i ≠ n := fun i hi hin => hn (hin ▸ hi)
  have hself : Function.update m.bucketIdx n b n = b := Function.update_self n b m.bucketIdx
  have hold : ∀ i ∈ pre ++ post, Function.update m.bucketIdx n b i = m.bucketIdx i := fun i hi =>
    Function.update_of_ne (hother i hi) b m.bucketIdx
  have hmap : (pre ++ n :: post).map (Function.update m.bucketIdx n b) =
      pre.map m.bucketIdx ++ b :: post.map m.bucketIdx := by
    rw [List.map_append, List.map_cons, hself,
      List.map_congr_left fun i hi => hold i (List.mem_append_left post hi),
      List.map_congr_left fun i hi => hold i (List.mem_append_right pre hi)]
  have hprev : m.links.before post.head? = pre.getLast? := h.links.before_eq
  have hperm : (pre ++ n :: post).Perm (n :: (pre ++ post)) := List.perm_middle
  refine ⟨{ m with free := m.links.next n
                   buckets := Function.update m.buckets b (some n)
                   bucketIdx := Function.update m.bucketIdx n b
                   links := m.links.link n pre.getLast? post.head? }, pre ++ n :: post, ?_,
    ⟨h.links.link hn, ?_, ?_, ?_, h.nodesSize, h.bucketsSize, fun hzero => absurd hzero hpos, ?_, ?_, ?_, ?_⟩,
    hperm, rfl, rfl, rfl⟩
  · rw [HashMap.linkNode, hfree, Option.map_some, hbucket, ← hprev]
    cases post <;> rfl
  · refine h.free.2.congr fun i hi => Links.next_link (fun hin => ?_) fun hlast => ?_
    · exact (List.nodup_cons.1 (List.nodup_append.1 h.nodup).2.1).1 (hin ▸ hi)
    · exact h.not_mem_free (List.mem_append_left post (List.mem_of_getLast? hlast)) (List.mem_cons_of_mem n hi)
  · refine (hperm.append_right f').trans (List.Perm.trans ?_ h.nodes)
    exact List.perm_middle.symm
  · have hlen := h.size
    rw [List.length_append] at hlen
    dsimp only
    rw [add32, Nat.mod_eq_of_lt (by omega), hlen, List.length_append, List.length_cons, Nat.add_assoc]
  · intro i hi
    dsimp only
    rcases eq_or_ne i n with rfl | hin
    · exact ⟨(key, value), Function.update_self i _ m.entry, hself⟩
    · have hi' : i ∈ pre ++ post := by simpa [hin] using hi
      obtain ⟨e, he, hib⟩ := h.entry i hi'
      exact ⟨e, (Function.update_of_ne hin _ m.entry).trans he, (hold i hi').trans hib⟩
  · intro i hi j hj hij
    simp only [keyAt, Function.update_apply] at hij
    rcases eq_or_ne i n with rfl | hin
    · rcases eq_or_ne j i with rfl | hjn
      · rfl
      · rw [if_pos rfl, if_neg hjn, Option.map_some] at hij
        exact absurd hij.symm (hkey j (by simpa [hjn] using hj))
    · rcases eq_or_ne j n with rfl | hjn
      · rw [if_neg hin, if_pos rfl, Option.map_some] at hij
        exact absurd hij (hkey i (by simpa [hin] using hi))
      · rw [if_neg hin, if_neg hjn] at hij
        exact h.keys i (by simpa [hin] using hi) j (by simpa [hjn] using hj) hij
  · change Contiguous ((pre ++ n :: post).map (Function.update m.bucketIdx n b))
    rw [hmap]
    exact contiguous_place h.contiguous hpre hhead
  · intro c
    change Function.update m.buckets b (some n) c =
      (pre ++ n :: post).find? (Function.update m.bucketIdx n b · = c)
    have hfind : ∀ t, t ⊆ pre ++ post →
        t.find? (Function.update m.bucketIdx n b · = c) = t.find? (m.bucketIdx · = c) := fun t ht =>
      List.find?_congr fun i hi => by rw [hold i (ht hi)]
    rw [List.find?_append, hfind pre (List.subset_append_left _ _)]
    rcases eq_or_ne c b with rfl | hcb
    · have hnone : pre.find? (m.bucketIdx · = b) = none :=
        List.find?_eq_none.2 fun i hi => by simpa using hpre i hi
      rw [Function.update_self, hnone, List.find?_cons_of_pos (by simp)]
      rfl
    · rw [Function.update_of_ne hcb, h.first, List.find?_cons_of_neg (by simp [hcb.symm]),
        hfind post (List.subset_append_right _ _), List.find?_append]

/-! ## The finite map of a hash map -/

/-- The entries of the list are those of a finite map. -/
def Holds (m : HashMap K V) (l : List ℕ) (a : K → Option V) : Prop :=
  ∀ k v, a k = some v ↔ ∃ i ∈ l, m.entry i = some (k, v)

variable {a : K → Option V} {key : K}

theorem Holds.keyAt_ne (h : Holds m l a) (hv : Valid hash m l f) (hkey : a key = none) :
    ∀ i ∈ l, m.keyAt i ≠ some key := by
  intro i hi hik
  obtain ⟨e, he, -⟩ := hv.entry i hi
  rw [keyAt, he, Option.map_some] at hik
  obtain rfl := Option.some.inj hik
  have hsome := (h e.1 e.2).2 ⟨i, hi, he⟩
  rw [hkey] at hsome
  cases hsome

/-- Nodes in another order, with the same entries. -/
theorem Holds.perm {l' : List ℕ} (h : Holds m l a) (hl : l'.Perm l) (hentry : ∀ i ∈ l, m'.entry i = m.entry i) :
    Holds m' l' a := by
  intro k v
  rw [h k v]
  constructor
  · rintro ⟨i, hi, he⟩
    exact ⟨i, hl.symm.subset hi, (hentry i hi).trans he⟩
  · rintro ⟨i, hi, he⟩
    exact ⟨i, hl.subset hi, (hentry i (hl.subset hi)).symm.trans he⟩

variable [DecidableEq K]

/-- A new node. -/
theorem Holds.insert {l' : List ℕ} (h : Holds m l a) (hl : l'.Perm (n :: l)) (hn : n ∉ l) (hkey : a key = none)
    {value : V} (hnew : m'.entry n = some (key, value)) (hentry : ∀ i ∈ l, m'.entry i = m.entry i) :
    Holds m' l' (Function.update a key (some value)) := by
  intro k v
  rcases eq_or_ne k key with rfl | hk
  · rw [Function.update_self]
    constructor
    · intro hv
      obtain rfl := Option.some.inj hv
      exact ⟨n, hl.symm.subset List.mem_cons_self, hnew⟩
    · rintro ⟨i, hi, he⟩
      rcases List.mem_cons.1 (hl.subset hi) with rfl | hi
      · rw [hnew] at he
        obtain ⟨-, rfl⟩ := Prod.mk.inj (Option.some.inj he)
        rfl
      · rw [hentry i hi] at he
        rw [(h k v).2 ⟨i, hi, he⟩] at hkey
        cases hkey
  · rw [Function.update_of_ne hk, h k v]
    constructor
    · rintro ⟨i, hi, he⟩
      exact ⟨i, hl.symm.subset (List.mem_cons_of_mem n hi), (hentry i hi).trans he⟩
    · rintro ⟨i, hi, he⟩
      rcases List.mem_cons.1 (hl.subset hi) with rfl | hi
      · rw [hnew] at he
        exact absurd (Prod.mk.inj (Option.some.inj he)).1.symm hk
      · exact ⟨i, hi, (hentry i hi).symm.trans he⟩

/-- `add` of an absent key, with room for its bucket count and for its node. -/
theorem Valid.add (h : Valid hash m l f) (ha : Holds m l a) (hkey : a key = none) (value : V)
    (hsize : m.size < 2 ^ 31) (hrate : m.expandRate (m.size + 1) < 2 ^ 31) :
    ∃ n m' l' f', m.add hash key value = some (n, m') ∧ Valid hash m' l' f' ∧ n ∈ l' ∧
      m'.entry n = some (key, value) ∧ Holds m' l' (Function.update a key (some value)) ∧
      m'.size = m.size + 1 ∧ m'.expandRate = m.expandRate := by
  have hnext : add32 m.size 1 = m.size + 1 := Nat.mod_eq_of_lt (by omega)
  obtain ⟨m₁, l₁, hm₁, h₁, hl₁, he₁, hn₁, hf₁, hr₁, hb₁⟩ := 
    h.expandBuckets (show m.expandRate (m.size + 1) + 1 ≤ 2 ^ 31 from hrate)
  have hfirst : (if m.bucketsSize < m.expandRate (add32 m.size 1) + 1 then
      m.expandBuckets hash (m.expandRate (add32 m.size 1) + 1) else some m) = some m₁ := by
    rw [hnext]
    split_ifs with hlt
    · exact hm₁
    · rwa [HashMap.expandBuckets, if_pos (by omega)] at hm₁
  have ha₁ : Holds m₁ l₁ a := ha.perm hl₁ fun i _ => congrFun he₁ i
  have hsize₁ : m₁.size = m.size := by rw [h₁.size, h.size, hl₁.length_eq]
  have hpos : 0 < m₁.bucketsSize := by omega
  -- There is a free node, at the latest when the array has grown.
  obtain ⟨m₂, n, f', hm₂, h₂, he₂, hb₂, hs₂, hr₂⟩ : ∃ m₂ n f',
      (if m₁.free = none then m₁.expandNodes (add32 m₁.nodesSize 1) else some m₁) = some m₂ ∧
      Valid hash m₂ l₁ (n :: f') ∧ (∀ i ∈ l₁, m₂.entry i = m₁.entry i) ∧
      m₂.bucketsSize = m₁.bucketsSize ∧ m₂.size = m₁.size ∧ m₂.expandRate = m₁.expandRate := by
    have hlen := h₁.nodes.length_eq
    rw [List.length_append, List.length_range, ← h₁.size, hsize₁] at hlen
    by_cases hnone : m₁.free = none
    · obtain rfl := (h₁.free.eq_nil_iff).1 hnone
      rw [List.length_nil, Nat.add_zero] at hlen
      have hgrow : add32 m₁.nodesSize 1 = m₁.nodesSize + 1 := Nat.mod_eq_of_lt (by omega)
      obtain ⟨m₂, f₂, hm₂, h₂, he₂, hb₂, hs₂, hr₂, hn₂⟩ :=
        h₁.expandNodes (show add32 m₁.nodesSize 1 ≤ 2 ^ 31 by omega)
      have hlen₂ := h₂.nodes.length_eq
      rw [List.length_append, List.length_range, ← h₁.size, hsize₁] at hlen₂
      obtain ⟨n, f', rfl⟩ := List.exists_cons_of_length_pos (show 0 < f₂.length by omega)
      exact ⟨m₂, n, f', by rw [if_pos hnone, hm₂], h₂, he₂, hb₂, hs₂, hr₂⟩
    · obtain ⟨n, hn⟩ := Option.ne_none_iff_exists'.1 hnone
      obtain ⟨f', rfl, -⟩ := (hn ▸ h₁.free).exists_cons
      exact ⟨m₁, n, f', if_neg hnone, h₁, fun _ _ => rfl, rfl, rfl, rfl⟩
  have hbucket : m₁.getBucketIndexByKey hash key = m₂.getBucketIndexByKey hash key := by
    rw [getBucketIndexByKey, getBucketIndexByKey, hb₂]
  have ha₂ : Holds m₂ l₁ a := ha₁.perm (List.Perm.refl l₁) he₂
  obtain ⟨m₃, l', hm₃, h₃, hl₃, he₃, hs₃, hr₃⟩ := h₂.linkNode value (ha₂.keyAt_ne h₂ hkey) (by omega) (by omega)
  have hn : n ∉ l₁ := fun hn => h₂.not_mem_free hn List.mem_cons_self
  refine ⟨n, _, l', f', ?_, h₃, hl₃.symm.subset List.mem_cons_self, Function.update_self n _ m₃.entry,
    ha₂.insert hl₃ hn hkey (Function.update_self n _ m₃.entry) fun i hi => ?_, ?_, ?_⟩
  · rw [HashMap.add, allocNodeByKey]
    dsimp only
    rw [hfirst, Option.bind_some, h₁.findIndexAndBucketIdxByKey key, Option.bind_some, hm₂, Option.bind_some,
      if_pos hpos, Option.bind_some, hbucket, hm₃]
    rfl
  · exact (Function.update_of_ne (fun hin : i = n => hn (hin ▸ hi)) _ m₃.entry).trans (congrFun he₃ i)
  · change add32 m₃.size 1 = m.size + 1
    rw [hs₃, hs₂, hsize₁, hnext]
  · exact hr₃.trans (hr₂.trans hr₁)

/-! ## Searching, storing, erasing -/

/-- A search for a key of the map ends at its node. -/
theorem Valid.find_some (h : Valid hash m l f) (ha : Holds m l a) {v : V} (hkey : a key = some v) :
    ∃ i ∈ l, m.entry i = some (key, v) ∧ m.find hash key = some ⟨some i, some (m.bucketIdx i)⟩ := by
  obtain ⟨i, hi, he⟩ := (ha key v).1 hkey
  have hik : m.keyAt i = some key := by rw [keyAt, he, Option.map_some]
  refine ⟨i, hi, he, ?_⟩
  have hfind : l.find? (m.keyAt · = some key) = some i := by
    cases hfind : l.find? (m.keyAt · = some key) with
    | none => exact absurd hik (by simpa using List.find?_eq_none.1 hfind i hi)
    | some j =>
      have hjk : m.keyAt j = some key := by simpa using List.find?_some hfind
      rw [h.keys j (List.mem_of_find?_eq_some hfind) i hi (hjk.trans hik.symm)]
  have hpos : 0 < m.bucketsSize := by
    by_contra hzero
    rw [h.occupied (by omega)] at hi
    cases hi
  rw [HashMap.find, h.findIndexAndBucketIdxByKey, hfind, if_pos hpos, ← h.bucketIdx_of_keyAt hi hik]
  rfl

/-- A search for another key ends at `end()`. -/
theorem Valid.find_none (h : Valid hash m l f) (ha : Holds m l a) (hkey : a key = none) :
    ∃ bucketIdx, m.find hash key = some ⟨none, bucketIdx⟩ := by
  have hfind : l.find? (m.keyAt · = some key) = none :=
    List.find?_eq_none.2 fun i hi => by simpa using ha.keyAt_ne h hkey i hi
  rw [HashMap.find, h.findIndexAndBucketIdxByKey, hfind]
  exact ⟨_, rfl⟩

omit [DecidableEq K] in
/-- The iterators of the listed nodes are legal. -/
theorem Valid.iteratorLegalCheck (h : Valid hash m l f) (hi : i ∈ l) :
    m.iteratorLegalCheck ⟨some i, some (m.bucketIdx i)⟩ = true := by
  rw [HashMap.iteratorLegalCheck]
  simpa using h.lt_of_mem hi

/-- A store to the value of a node. -/
theorem Valid.store (h : Valid hash m l f) (ha : Holds m l a) {v : V} (hi : i ∈ l)
    (he : m.entry i = some (key, v)) (g : V → V) :
    Valid hash (m.store i g) l f ∧ Holds (m.store i g) l (Function.update a key (some (g v))) := by
  have hself : (m.store i g).entry i = some (key, g v) := by
    rw [HashMap.store]
    dsimp only
    rw [Function.update_self, he, Option.map_some]
  have hother : ∀ j, j ≠ i → (m.store i g).entry j = m.entry j := fun j hj => Function.update_of_ne hj _ m.entry
  have hkeyAt : ∀ j, (m.store i g).keyAt j = m.keyAt j := by
    intro j
    rcases eq_or_ne j i with rfl | hj
    · rw [keyAt, keyAt, hself, he, Option.map_some, Option.map_some]
    · rw [keyAt, keyAt, hother j hj]
  refine ⟨⟨h.links, h.free, h.nodes, h.size, h.nodesSize, h.bucketsSize, h.occupied, fun j hj => ?_,
    fun j hj k hk hjk => ?_, h.contiguous, h.first⟩, ?_⟩
  · obtain ⟨e, hej, hb⟩ := h.entry j hj
    rcases eq_or_ne j i with rfl | hji
    · rw [he] at hej
      obtain rfl := Option.some.inj hej
      exact ⟨(key, g v), hself, hb⟩
    · exact ⟨e, (hother j hji).trans hej, hb⟩
  · rw [hkeyAt, hkeyAt] at hjk
    exact h.keys j hj k hk hjk
  · intro k w
    rcases eq_or_ne k key with rfl | hk
    · rw [Function.update_self]
      constructor
      · intro hw
        obtain rfl := Option.some.inj hw
        exact ⟨i, hi, hself⟩
      · rintro ⟨j, hj, hej⟩
        have hji : j = i := by
          refine h.keys j hj i hi ?_
          rw [← hkeyAt, keyAt, hej, keyAt, he]
          rfl
        rw [hji, hself] at hej
        rw [(Prod.mk.inj (Option.some.inj hej)).2]
    · rw [Function.update_of_ne hk, ha k w]
      refine exists_congr fun j => and_congr_right fun _ => ?_
      rcases eq_or_ne j i with rfl | hji
      · rw [hself, he]
        exact ⟨fun hej => absurd (Prod.mk.inj (Option.some.inj hej)).1.symm hk,
          fun hej => absurd (Prod.mk.inj (Option.some.inj hej)).1.symm hk⟩
      · rw [hother j hji]

omit [DecidableEq K] in
/-- What an erased node leaves its bucket: the next node, if it is of the bucket. -/
theorem find?_erase {g : ℕ → ℕ} (h : Contiguous ((pre ++ i :: post).map g)) (hi : i ∉ pre) (b : ℕ) :
    (if (pre ++ i :: post).find? (g · = b) = some i ∧ g i = b then post.head?.filter (g · = b)
      else (pre ++ i :: post).find? (g · = b)) = (pre ++ post).find? (g · = b) := by
  rw [List.find?_append, List.find?_append]
  by_cases hib : g i = b
  · rw [List.find?_cons_of_pos (by simpa using hib)]
    cases hpre : pre.find? (g · = b) with
    | some x =>
      have hx : some x ≠ some i := fun hx => hi (Option.some.inj hx ▸ List.mem_of_find?_eq_some hpre)
      rw [Option.some_or, Option.some_or, if_neg fun hand => hx hand.1]
    | none =>
      rw [Option.none_or, Option.none_or, if_pos ⟨rfl, hib⟩]
      have hblock : Contiguous ((i :: post).map g) := by
        refine h.sublist ?_
        rw [List.map_append]
        exact List.sublist_append_right _ _
      obtain ⟨mid, rest, rfl, hmid, hrest⟩ := hblock.exists_rest hib
      have hnone : rest.find? (g · = b) = none := List.find?_eq_none.2 fun x hx => by simpa using hrest x hx
      cases mid with
      | nil =>
        rw [List.nil_append, hnone]
        cases rest with
        | nil => rfl
        | cons x rest => simp [hrest x List.mem_cons_self]
      | cons x mid =>
        have hx := hmid x List.mem_cons_self
        simp [hx]
  · rw [List.find?_cons_of_neg (by simpa using hib), if_neg fun hand => hib hand.2]

/-- `erase` of an iterator of a listed node. -/
theorem Valid.eraseAt (h : Valid hash m l f) (ha : Holds m l a) {v : V} (hi : i ∈ l)
    (he : m.entry i = some (key, v)) : ∃ m' l' f', m.eraseAt ⟨some i, some (m.bucketIdx i)⟩ = (true, m') ∧
      Valid hash m' l' f' ∧ Holds m' l' (Function.update a key none) ∧ m'.expandRate = m.expandRate := by
  obtain ⟨pre, post, rfl⟩ := List.append_of_mem hi
  have hnodup := h.links.nodup
  have hout : i ∉ pre ++ post := (List.nodup_cons.1 (List.nodup_middle.1 hnodup)).1
  have hnext := h.links.next_eq
  have hother : ∀ j ∈ pre ++ post, j ≠ i := fun j hj hji => hout (hji ▸ hj)
  have hsub : (pre ++ post).Sublist (pre ++ i :: post) := (List.sublist_cons_self i post).append_left pre
  have hentry : ∀ j ∈ pre ++ post, Function.update m.entry i none j = m.entry j := fun j hj =>
    Function.update_of_ne (hother j hj) none m.entry
  refine ⟨{ m with
      links := { m.links.unlink i with next := Function.update (m.links.unlink i).next i m.free }
      buckets := if m.buckets (m.bucketIdx i) = some i then
          Function.update m.buckets (m.bucketIdx i)
            ((m.links.next i).filter fun n => m.bucketIdx n = m.bucketIdx i)
        else m.buckets
      free := some i
      size := sub32 m.size 1
      entry := Function.update m.entry i none }, pre ++ post, i :: f, ?_,
    ⟨?_, ?_, ?_, ?_, h.nodesSize, h.bucketsSize, fun hzero => ?_, fun j hj => ?_, fun j hj k hk hjk => ?_, ?_,
      fun b => ?_⟩, ?_, rfl⟩
  · rw [HashMap.eraseAt, h.iteratorLegalCheck hi]
  · exact h.links.unlink.congr (fun j hj => Function.update_of_ne (hother j hj) _ _) (fun _ _ => rfl) rfl rfl
  · have hfree : IsChain (m.links.unlink i).next m.free f := h.free.congr fun j hj =>
      Links.next_unlink fun hlast => by
        rw [h.links.prev_eq] at hlast
        exact h.not_mem_free (List.mem_append_left _ (List.mem_of_getLast? hlast)) hj
    exact hfree.push (h.not_mem_free hi)
  · have hmiddle : (pre ++ post ++ i :: f).Perm (i :: (pre ++ post ++ f)) := List.perm_middle
    refine hmiddle.trans (List.Perm.trans ?_ h.nodes)
    exact (List.perm_middle.symm).append_right f
  · have hlen := h.size
    have hle := h.length_le
    have hn := h.nodesSize
    rw [List.length_append, List.length_cons] at hlen hle
    change sub32 m.size 1 = _
    rw [List.length_append, sub32, hlen]
    omega
  · exact absurd (h.occupied hzero) (List.append_ne_nil_of_right_ne_nil pre (List.cons_ne_nil i post))
  · obtain ⟨e, hej, hb⟩ := h.entry j (hsub.subset hj)
    exact ⟨e, (hentry j hj).trans hej, hb⟩
  · refine h.keys j (hsub.subset hj) k (hsub.subset hk) ?_
    have hjk' : (Function.update m.entry i none j).map Prod.fst = (Function.update m.entry i none k).map Prod.fst :=
      hjk
    rwa [hentry j hj, hentry k hk] at hjk'
  · exact h.contiguous.sublist (hsub.map _)
  · rw [← find?_erase h.contiguous (fun hpre => hout (List.mem_append_left post hpre)) b, ← h.first, ← hnext]
    change (if m.buckets (m.bucketIdx i) = some i then _ else m.buckets) b = _
    rcases eq_or_ne (m.bucketIdx i) b with rfl | hb
    · split_ifs with hfirst hfirst' hfirst'
      · rw [Function.update_self]
      · exact absurd ⟨hfirst, rfl⟩ hfirst'
      · exact absurd hfirst'.1 hfirst
      · rfl
    · have hother' : ¬(m.buckets b = some i ∧ m.bucketIdx i = b) := fun hand => hb hand.2
      rw [if_neg hother']
      split_ifs
      · rw [Function.update_of_ne hb.symm]
      · rfl
  · intro k w
    rcases eq_or_ne k key with rfl | hk
    · rw [Function.update_self]
      refine ⟨fun hw => (by cases hw), ?_⟩
      rintro ⟨j, hj, hej⟩
      refine absurd (h.keys j (hsub.subset hj) i hi ?_) (hother j hj)
      rw [keyAt, keyAt, he, (hentry j hj).symm.trans hej]
      rfl
    · rw [Function.update_of_ne hk, ha k w]
      constructor
      · rintro ⟨j, hj, hej⟩
        have hji : j ≠ i := by
          rintro rfl
          rw [he] at hej
          exact hk (Prod.mk.inj (Option.some.inj hej)).1.symm
        have hj' : j ∈ pre ++ post := by simpa [hji] using hj
        exact ⟨j, hj', (hentry j hj').trans hej⟩
      · rintro ⟨j, hj, hej⟩
        exact ⟨j, hsub.subset hj, (hentry j hj).symm.trans hej⟩

/-! ## Clearing -/

omit [DecidableEq K] in
/-- `clear` frees all nodes. -/
theorem Valid.clear (h : Valid hash m l f) : ∃ m', m.clear = some m' ∧
    Valid hash m' [] (List.range m.nodesSize) ∧ m'.expandRate = m.expandRate := by
  have hclear : m.clear = some _ := congrArg (Option.map _) h.iteration
  refine ⟨_, hclear, ⟨Links.represents_nil rfl rfl, ?_, List.Perm.refl _, rfl, h.nodesSize, h.bucketsSize,
    fun _ => rfl, by simp, by simp, Contiguous.nil, fun _ => rfl⟩, rfl⟩
  dsimp only
  -- From each node on, the chain goes to the last one.
  have hchain : ∀ n start, start + n = m.nodesSize →
      IsChain (fun i => if i < m.nodesSize then (if i + 1 = m.nodesSize then none else some (i + 1))
        else m.links.next i) (if start < m.nodesSize then some start else none) (List.range' start n) := by
    intro n
    induction n with
    | zero => exact fun start hstart => if_neg (by omega)
    | succ n ih =>
      intro start hstart
      rw [List.range'_succ]
      refine ⟨if_pos (by omega), ?_⟩
      have hrest := ih (start + 1) (by omega)
      dsimp only
      rw [if_pos (by omega)]
      split_ifs at hrest ⊢ with h₁ h₂ h₂
      · omega
      · exact hrest
      · exact hrest
      · omega
  rw [List.range_eq_range']
  exact hchain m.nodesSize 0 (Nat.zero_add _)

end QLog.Utility.HashMap
