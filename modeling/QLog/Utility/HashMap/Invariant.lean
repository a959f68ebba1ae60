import QLog.Foundations.Groups
import QLog.Utility.HashMap.Model

/-!
# What a hash map keeps

`Valid hash m l f`: the list of the map is `l` and its free nodes are `f`, which together are all nodes of
the array; every listed node has an entry in the bucket of its key, no two have one key, and a bucket has
the index of the first of its entries, which are next to each other in the list.

A search then finds the listed node of the key (`Valid.findIndexAndBucketIdxByKey`). The operations are
followed one by one: each keeps the invariant, and says what the new list and the new entries are.
-/

namespace QLog.Utility.HashMap

variable {K V : Type*} {hash : K → ℕ} {m m' : HashMap K V} {l f : List ℕ}

/-- The key of a node. -/
def keyAt (m : HashMap K V) (i : ℕ) : Option K := (m.entry i).map Prod.fst

structure Valid (hash : K → ℕ) (m : HashMap K V) (l f : List ℕ) : Prop where
  links : m.links.Represents l
  free : IsChain m.links.next m.free f
  nodes : (l ++ f).Perm (List.range m.nodesSize)
  size : m.size = l.length
  nodesSize : m.nodesSize ≤ 2 ^ 31
  bucketsSize : m.bucketsSize = 0 ∨ ∃ k < 32, m.bucketsSize = 2 ^ k
  occupied : m.bucketsSize = 0 → l = []
  entry : ∀ i ∈ l, ∃ e, m.entry i = some e ∧ m.bucketIdx i = m.getBucketIndexByKey hash e.1
  keys : ∀ i ∈ l, ∀ j ∈ l, m.keyAt i = m.keyAt j → i = j
  contiguous : Contiguous (l.map m.bucketIdx)
  first : ∀ b, m.buckets b = l.find? (m.bucketIdx · = b)

namespace Valid

theorem length_le (h : Valid hash m l f) : l.length ≤ m.nodesSize := by
  have hlen := h.nodes.length_eq
  rw [List.length_append, List.length_range] at hlen
  omega

theorem nodup (h : Valid hash m l f) : (l ++ f).Nodup := h.nodes.nodup_iff.2 List.nodup_range

theorem lt_of_mem (h : Valid hash m l f) {i : ℕ} (hi : i ∈ l) : i < m.nodesSize :=
  List.mem_range.1 (h.nodes.subset (List.mem_append_left f hi))

theorem not_mem_free (h : Valid hash m l f) {i : ℕ} (hi : i ∈ l) : i ∉ f := fun hf =>
  (List.nodup_append.1 h.nodup).2.2 i hi i hf rfl

/-- The iteration visits the listed nodes. -/
theorem iteration (h : Valid hash m l f) : m.iteration = some l := h.links.isChain.walk_eq h.length_le

variable {key : K}

/-- A node of the key is in the bucket of the key. -/
theorem bucketIdx_of_keyAt (h : Valid hash m l f) {i : ℕ} (hi : i ∈ l) (hkey : m.keyAt i = some key) :
    m.bucketIdx i = m.getBucketIndexByKey hash key := by
  obtain ⟨e, he, hb⟩ := h.entry i hi
  rw [keyAt, he, Option.map_some] at hkey
  rw [hb, Option.some.inj hkey]

end Valid

/-! ## More buckets -/

/-- A node moved behind an earlier one that is not its neighbour. -/
theorem moveBehind_eq {s : Links ℕ} {pre mid post : List ℕ} {first n cur : ℕ}
    (h : s.Represents (pre ++ first :: (n :: mid) ++ cur :: post)) :
    moveBehind s cur first = (s.unlink cur).link cur (some first) (n :: mid ++ post).head? := by
  obtain ⟨p, hp⟩ : ∃ p, (pre ++ first :: (n :: mid)).getLast? = some p := by
    rw [← Option.isSome_iff_exists]
    simp
  have hnodup := h.nodup
  have hprev : s.prev cur = some p := h.prev_eq.trans hp
  have hnext : s.next cur = post.head? := h.next_eq
  have hfirst : s.next first = some n := by
    have h' : s.Represents (pre ++ first :: (n :: mid ++ cur :: post)) := by simpa using h
    exact h'.next_eq
  have hnc : cur ≠ n := by
    rintro rfl
    simp [List.nodup_append] at hnodup
  have hfc : cur ≠ first := by
    rintro rfl
    simp [List.nodup_append] at hnodup
  have hfn : first ≠ n := by
    rintro rfl
    simp [List.nodup_append] at hnodup
  have hbehind : s.tail = (pre ++ first :: (n :: mid) ++ cur :: post).getLast? := by
    have h' : s.Represents ((pre ++ first :: (n :: mid) ++ cur :: post) ++ []) := by rwa [List.append_nil]
    exact h'.before_eq
  unfold moveBehind
  rw [hprev, hnext, hfirst]
  cases post with
  | nil =>
    rw [List.getLast?_concat] at hbehind
    simp [Links.link, Links.unlink, Links.setAfter, Links.setBefore, Links.setNode, hprev, hnext, hbehind, hnc,
      hfc, hfn]
  | cons x post =>
    have hx : s.tail ≠ some cur := fun htail => by
      rw [hbehind, List.getLast?_append_of_ne_nil _ (List.cons_ne_nil cur _), List.getLast?_cons_cons] at htail
      have hcur := (List.nodup_append.1 hnodup).2.1
      exact (List.nodup_cons.1 hcur).1 (List.mem_of_getLast? htail)
    simp [Links.link, Links.unlink, Links.setAfter, Links.setBefore, Links.setNode, hprev, hnext, hx, hnc,
      hfc, hfn]

/-- What moving the nodes of a list leaves as it is. -/
structure Relinked (l : List ℕ) (m m' : HashMap K V) : Prop where
  entry : m'.entry = m.entry
  nodesSize : m'.nodesSize = m.nodesSize
  bucketsSize : m'.bucketsSize = m.bucketsSize
  free : m'.free = m.free
  size : m'.size = m.size
  expandRate : m'.expandRate = m.expandRate
  next : ∀ i ∉ l, m'.links.next i = m.links.next i

theorem Relinked.trans {m'' : HashMap K V} {l' : List ℕ} (h : Relinked l m m') (h' : Relinked l' m' m'')
    (hl : l'.Perm l) : Relinked l m m'' :=
  ⟨h'.entry.trans h.entry, h'.nodesSize.trans h.nodesSize, h'.bucketsSize.trans h.bucketsSize,
    h'.free.trans h.free, h'.size.trans h.size, h'.expandRate.trans h.expandRate,
    fun i hi => (h'.next i fun hi' => hi (hl.subset hi')).trans (h.next i hi)⟩

/-- While the buckets are filled: the nodes of `d` are grouped, those of `t` are to come. -/
structure Regrouped (hash : K → ℕ) (m : HashMap K V) (d t : List ℕ) : Prop where
  links : m.links.Represents (d ++ t)
  entry : ∀ i ∈ d, ∃ e, m.entry i = some e ∧ m.bucketIdx i = m.getBucketIndexByKey hash e.1
  contiguous : Contiguous (d.map m.bucketIdx)
  first : ∀ b, m.buckets b = d.find? (m.bucketIdx · = b)

/-- A node behind one of its group is not the first of a group. -/
theorem find?_beside {β : Type*} [DecidableEq β] {g : ℕ → β} {pre post : List ℕ} {a b : ℕ} (hab : g b = g a)
    (c : β) : (pre ++ a :: b :: post).find? (g · = c) = (pre ++ a :: post).find? (g · = c) := by
  rw [List.find?_append, List.find?_append]
  by_cases hc : g a = c
  · rw [List.find?_cons_of_pos (by simpa using hc), List.find?_cons_of_pos (by simpa using hc)]
  · rw [List.find?_cons_of_neg (by simpa using hc), List.find?_cons_of_neg (by simpa [hab] using hc),
      List.find?_cons_of_neg (by simpa using hc)]

/-- One turn: the node is put beside the first node of its bucket, or becomes it. -/
theorem Regrouped.step {d t : List ℕ} {cur : ℕ} {e : K × V} (h : Regrouped hash m d (cur :: t))
    (he : m.entry cur = some e) : ∃ m' d', m.regroup hash cur = some m' ∧ Regrouped hash m' d' t ∧
      d'.Perm (cur :: d) ∧ Relinked (d ++ cur :: t) m m' := by
  have hcur : cur ∉ d := fun hd => (List.nodup_append.1 h.links.nodup).2.2 cur hd cur List.mem_cons_self rfl
  set b := m.getBucketIndexByKey hash e.1 with hb
  -- The bucket index of the node is the only one that is stored.
  have hold : ∀ i ∈ d, Function.update m.bucketIdx cur b i = m.bucketIdx i := fun i hi =>
    Function.update_of_ne (fun hic : i = cur => hcur (hic ▸ hi)) b m.bucketIdx
  have hself : Function.update m.bucketIdx cur b cur = b := Function.update_self cur b m.bucketIdx
  have hmap : d.map (Function.update m.bucketIdx cur b) = d.map m.bucketIdx := List.map_congr_left hold
  have hfind : ∀ c, d.find? (Function.update m.bucketIdx cur b · = c) = d.find? (m.bucketIdx · = c) :=
    fun c => List.find?_congr fun i hi => by rw [hold i hi]
  cases hfirst : m.buckets b with
  | none =>
    refine ⟨{ m with bucketIdx := Function.update m.bucketIdx cur b
                     buckets := Function.update m.buckets b (some cur) }, d ++ [cur],
      by simp [regroup, he, ← hb, hfirst], ⟨?_, ?_, ?_, ?_⟩, List.perm_append_singleton cur d,
      ⟨rfl, rfl, rfl, rfl, rfl, rfl, fun _ _ => rfl⟩⟩
    · rw [List.append_assoc, List.singleton_append]
      exact h.links
    · intro i hi
      rcases List.mem_append.1 hi with hi | hi
      · obtain ⟨x, hx, hxb⟩ := h.entry i hi
        exact ⟨x, hx, (hold i hi).trans hxb⟩
      · obtain rfl := List.mem_singleton.1 hi
        exact ⟨e, he, Function.update_self i b m.bucketIdx⟩
    · change Contiguous ((d ++ [cur]).map (Function.update m.bucketIdx cur b))
      rw [List.map_append, hmap, List.map_singleton, hself]
      refine h.contiguous.concat fun hmem => ?_
      obtain ⟨i, hi, hib⟩ := List.mem_map.1 hmem
      rw [h.first b] at hfirst
      exact absurd hib (by simpa using List.find?_eq_none.1 hfirst i hi)
    · intro c
      change Function.update m.buckets b (some cur) c =
        (d ++ [cur]).find? (Function.update m.bucketIdx cur b · = c)
      rw [List.find?_append, hfind, ← h.first]
      rcases eq_or_ne c b with rfl | hcb
      · rw [Function.update_self, hfirst, List.find?_cons_of_pos (by simp)]
        rfl
      · rw [Function.update_of_ne hcb, List.find?_cons_of_neg (by simp [hcb.symm]), List.find?_nil,
          Option.or_none]
  | some first =>
    rw [h.first b] at hfirst
    obtain ⟨hfb, pre, mid, rfl, hpre⟩ := List.find?_eq_some_iff_append.1 hfirst
    have hgb : Function.update m.bucketIdx cur b first = b := by
      rw [hold first (by simp)]
      simpa using hfb
    have hentry : ∀ i ∈ pre ++ first :: cur :: mid,
        ∃ x, m.entry i = some x ∧ Function.update m.bucketIdx cur b i = m.getBucketIndexByKey hash x.1 := by
      intro i hi
      rcases eq_or_ne i cur with rfl | hic
      · exact ⟨e, he, hself⟩
      · have hi' : i ∈ pre ++ first :: mid := by simpa [hic] using hi
        obtain ⟨x, hx, hxb⟩ := h.entry i hi'
        exact ⟨x, hx, (hold i hi').trans hxb⟩
    have hcontiguous : Contiguous ((pre ++ first :: cur :: mid).map (Function.update m.bucketIdx cur b)) := by
      have hd := h.contiguous
      rw [← hmap, List.map_append, List.map_cons, hgb] at hd
      rw [List.map_append, List.map_cons, List.map_cons, hgb, hself]
      exact hd.double
    have hbuckets : ∀ c, m.buckets c =
        (pre ++ first :: cur :: mid).find? (Function.update m.bucketIdx cur b · = c) := by
      intro c
      rw [find?_beside (hself.trans hgb.symm), hfind, h.first]
    have hperm : (pre ++ first :: cur :: mid).Perm (cur :: (pre ++ first :: mid)) := by
      have hmiddle : (pre ++ [first] ++ cur :: mid).Perm (cur :: (pre ++ [first] ++ mid)) := List.perm_middle
      simpa using hmiddle
    cases mid with
    | nil =>
      have hprev : m.links.prev cur = some first := by
        rw [h.links.prev_eq, List.getLast?_concat]
      refine ⟨{ m with bucketIdx := Function.update m.bucketIdx cur b }, pre ++ first :: [cur],
        by simp [regroup, he, ← hb, h.first b, hfirst, hprev], ⟨?_, hentry, hcontiguous, hbuckets⟩, hperm,
        ⟨rfl, rfl, rfl, rfl, rfl, rfl, fun _ _ => rfl⟩⟩
      have hlinks := h.links
      simpa using hlinks
    | cons n mid =>
      have hlinks := h.links
      have hlast : (pre ++ first :: n :: mid).getLast? ≠ some first := fun hlast => by
        rw [List.getLast?_append_of_ne_nil _ (List.cons_ne_nil first _), List.getLast?_cons_cons] at hlast
        have hd := (List.nodup_append.1 (List.nodup_append.1 hlinks.nodup).1).2.1
        exact (List.nodup_cons.1 hd).1 (List.mem_of_getLast? hlast)
      have hprev : m.links.prev cur ≠ some first := by rwa [hlinks.prev_eq]
      have hmove := moveBehind_eq hlinks
      refine ⟨{ m with bucketIdx := Function.update m.bucketIdx cur b, links := moveBehind m.links cur first },
        pre ++ first :: cur :: n :: mid, by simp [regroup, he, ← hb, h.first b, hfirst, hprev],
        ⟨?_, hentry, hcontiguous, hbuckets⟩, hperm, ⟨rfl, rfl, rfl, rfl, rfl, rfl, fun i hi => ?_⟩⟩
      · change (moveBehind m.links cur first).Represents _
        rw [hmove]
        simpa using hlinks.move
      · change (moveBehind m.links cur first).next i = m.links.next i
        have hne : i ≠ cur ∧ i ≠ first := by
          refine ⟨?_, ?_⟩ <;> rintro rfl <;> simp at hi
        rw [hmove, Links.next_link hne.1 fun hf => hne.2 (Option.some.inj hf).symm, Links.next_unlink fun hp => ?_]
        rw [hlinks.prev_eq] at hp
        exact hi (List.mem_append_left _ (List.mem_of_getLast? hp))

theorem Relinked.refl (l : List ℕ) (m : HashMap K V) : Relinked l m m :=
  ⟨rfl, rfl, rfl, rfl, rfl, rfl, fun _ _ => rfl⟩

/-- The loop groups all nodes. -/
theorem Regrouped.loop {d t : List ℕ} (h : Regrouped hash m d t) (hentry : ∀ i ∈ t, ∃ e, m.entry i = some e)
    {fuel : ℕ} (hfuel : t.length ≤ fuel) : ∃ m' l', regroupLoop hash fuel t.head? m = some m' ∧
      Regrouped hash m' l' [] ∧ l'.Perm (d ++ t) ∧ Relinked (d ++ t) m m' := by
  induction t generalizing m d fuel with
  | nil =>
    rw [List.append_nil]
    refine ⟨m, d, ?_, h, List.Perm.refl d, .refl d m⟩
    cases fuel <;> rfl
  | cons cur t ih =>
    obtain ⟨fuel, rfl⟩ : ∃ n, fuel = n + 1 := ⟨fuel - 1, by rw [List.length_cons] at hfuel; omega⟩
    obtain ⟨e, he⟩ := hentry cur List.mem_cons_self
    obtain ⟨m₁, d₁, hstep, h₁, hperm, hkept⟩ := h.step he
    obtain ⟨m', l', hloop, h', hperm', hkept'⟩ :=
      ih h₁ (fun i hi => hkept.entry ▸ hentry i (List.mem_cons_of_mem cur hi)) (Nat.le_of_succ_le_succ hfuel)
    have hmove : (d₁ ++ t).Perm (d ++ cur :: t) := (hperm.append_right t).trans List.perm_middle.symm
    refine ⟨m', l', ?_, h', hperm'.trans hmove, hkept.trans hkept' hmove⟩
    rw [List.head?_cons, regroupLoop, hstep, Option.bind_some, h.links.next_eq, hloop]

/-- `expand_buckets` keeps the entries, in another order, up to the bucket count whose rounding has 32 bits. -/
theorem Valid.expandBuckets (h : Valid hash m l f) {size : ℕ} (hsize : size ≤ 2 ^ 31) :
    ∃ m' l', m.expandBuckets hash size = some m' ∧ Valid hash m' l' f ∧ l'.Perm l ∧ m'.entry = m.entry ∧
      m'.nodesSize = m.nodesSize ∧ m'.free = m.free ∧ m'.expandRate = m.expandRate ∧ size ≤ m'.bucketsSize := by
  by_cases hle : size ≤ m.bucketsSize
  · exact ⟨m, l, if_pos hle, h, List.Perm.refl l, rfl, rfl, rfl, rfl, hle⟩
  · obtain ⟨k, hk, hround, hcap, -⟩ := exists_roundPowOfTwo (by omega) hsize
    have hentry : ∀ i ∈ l, ∃ e, m.entry i = some e := fun i hi => (h.entry i hi).imp fun _ he => he.1
    have hstart : Regrouped hash { m with buckets := fun _ => none, bucketsSize := 2 ^ k } [] l :=
      ⟨h.links, by simp, Contiguous.nil, fun _ => rfl⟩
    obtain ⟨m', l', hloop, h', hperm, hkept⟩ := hstart.loop hentry h.length_le
    rw [List.nil_append] at hperm hkept
    have hbuckets : m'.bucketsSize = 2 ^ k := hkept.bucketsSize
    refine ⟨m', l', ?_, ⟨?_, ?_, ?_, ?_, ?_, ?_, ?_, h'.entry, ?_, h'.contiguous, h'.first⟩, hperm, hkept.entry,
      hkept.nodesSize, hkept.free, hkept.expandRate, by rw [hbuckets]; exact hcap⟩
    · rw [HashMap.expandBuckets, if_neg hle]
      dsimp only
      rw [hround, if_pos (Nat.two_pow_pos k)]
      rw [h.links.isChain.head?_eq] at hloop
      exact hloop
    · simpa using h'.links
    · rw [hkept.free]
      exact h.free.congr fun i hi => hkept.next i fun hil => h.not_mem_free hil hi
    · rw [hkept.nodesSize]
      exact (hperm.append_right f).trans h.nodes
    · rw [hkept.size, hperm.length_eq]
      exact h.size
    · rw [hkept.nodesSize]
      exact h.nodesSize
    · exact .inr ⟨k, hk, hbuckets⟩
    · intro hzero
      rw [hbuckets] at hzero
      exact absurd hzero (Nat.two_pow_pos k).ne'
    · intro i hi j hj hkey
      rw [keyAt, keyAt, hkept.entry] at hkey
      exact h.keys i (hperm.subset hi) j (hperm.subset hj) hkey

/-! ## Searching -/

variable [DecidableEq K]

/-- From the first node of a bucket, the loop finds the node of the key among those of the bucket. -/
theorem findLoop_eq {b : ℕ} {key : K} {mid post : List ℕ} (hmid : ∀ i ∈ mid, m.bucketIdx i = b)
    (hpost : ∀ i ∈ post, m.bucketIdx i ≠ b) (hentry : ∀ i ∈ mid, ∃ e, m.entry i = some e) {p : Option ℕ}
    (hchain : IsChain m.links.next p (mid ++ post)) {fuel : ℕ} (hfuel : (mid ++ post).length ≤ fuel) :
    m.findLoop b key fuel p = some (mid.find? (m.keyAt · = some key)) := by
  induction mid generalizing p fuel with
  | nil =>
    cases post with
    | nil =>
      obtain rfl : p = none := hchain
      cases fuel <;> rfl
    | cons i post =>
      obtain ⟨rfl, -⟩ := hchain
      cases fuel with
      | zero => simp at hfuel
      | succ fuel => exact if_pos (hpost i List.mem_cons_self)
  | cons i mid ih =>
    obtain ⟨rfl, hrest⟩ := hchain
    obtain ⟨e, he⟩ := hentry i List.mem_cons_self
    cases fuel with
    | zero => simp at hfuel
    | succ fuel =>
      rw [findLoop, if_neg (by simpa using hmid i List.mem_cons_self), he, Option.bind_some]
      have hkey : m.keyAt i = some e.1 := by rw [keyAt, he, Option.map_some]
      by_cases heq : e.1 = key
      · rw [if_pos heq, List.find?_cons_of_pos (by simp [hkey, heq])]
      · rw [if_neg heq, List.find?_cons_of_neg (by simp [hkey, heq])]
        exact ih (fun j hj => hmid j (List.mem_cons_of_mem i hj))
          (fun j hj => hentry j (List.mem_cons_of_mem i hj)) hrest (by simpa using hfuel)

namespace Valid

/-- A search finds the listed node of the key, and the bucket of the key if there are buckets. -/
theorem findIndexAndBucketIdxByKey (h : Valid hash m l f) (key : K) :
    m.findIndexAndBucketIdxByKey hash key = some (l.find? (m.keyAt · = some key),
      if 0 < m.bucketsSize then some (m.getBucketIndexByKey hash key) else none) := by
  rw [HashMap.findIndexAndBucketIdxByKey]
  by_cases hpos : 0 < m.bucketsSize
  · rw [if_pos hpos, if_pos hpos]
    obtain ⟨pre, mid, post, rfl, hmid, hout, hfind⟩ :=
      h.contiguous.exists_block (m.getBucketIndexByKey hash key)
    have hnot : ∀ i ∈ pre ++ post, m.keyAt i ≠ some key := fun i hi hkey =>
      hout i hi (h.bucketIdx_of_keyAt (by simp only [List.mem_append] at hi ⊢; tauto) hkey)
    have hpre : pre.find? (m.keyAt · = some key) = none :=
      List.find?_eq_none.2 fun i hi => by simpa using hnot i (List.mem_append_left post hi)
    have hpost : post.find? (m.keyAt · = some key) = none :=
      List.find?_eq_none.2 fun i hi => by simpa using hnot i (List.mem_append_right pre hi)
    have hmid' : (pre ++ mid ++ post).find? (m.keyAt · = some key) = mid.find? (m.keyAt · = some key) := by
      rw [List.find?_append, List.find?_append, hpre, hpost, Option.none_or, Option.or_none]
    dsimp only
    rw [hmid', h.first, hfind]
    cases mid with
    | nil => cases m.nodesSize <;> rfl
    | cons i rest =>
      have hchain := h.links.isChain
      rw [List.append_assoc] at hchain
      have hlen := h.length_le
      rw [List.append_assoc, List.length_append] at hlen
      rw [List.head?_cons, findLoop_eq hmid (fun j hj => hout j (List.mem_append_right pre hj)) (fun j hj => ?_)
        ⟨rfl, hchain.of_append⟩ (by omega), Option.map_some]
      obtain ⟨e, he, -⟩ := h.entry j (by simp only [List.mem_append]; tauto)
      exact ⟨e, he⟩
  · rw [if_neg hpos, if_neg hpos, h.occupied (by omega)]
    rfl

end Valid

end QLog.Utility.HashMap
