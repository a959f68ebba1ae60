import QLog.Foundations.DoubleLinks
import QLog.Foundations.PowTwo

/-!
# The hash map with linked nodes

`QLOG_HASH_MAP_CLS_NAME`: the nodes lie in an array and are linked in one list by their indices, in which
the entries of a bucket come one after the other; a bucket has the index of its first entry. The unused
nodes are a second list through `next`. `none` is `QLOG_HASH_MAP_INVALID_INDEX`, and the memory of a node
without a constructed key and value has no entry.

An operation has no result where the source reads a bucket or a key that is not there, or where a loop does
not come to its end within as many turns as there are nodes.
-/

namespace QLog.Utility

/-- The map, with the product of a number of entries and `expand_rate_` as a 32-bit number. -/
structure HashMap (K V : Type*) where
  /-- `nodes_[i].prev`, `nodes_[i].next`, `head_` and `tail_`. -/
  links : Links ℕ
  /-- `nodes_[i].bucket_idx` -/
  bucketIdx : ℕ → ℕ
  /-- `nodes_[i].entry` -/
  entry : ℕ → Option (K × V)
  nodesSize : ℕ
  buckets : ℕ → Option ℕ
  bucketsSize : ℕ
  free : Option ℕ
  size : ℕ
  expandRate : ℕ → ℕ

/-- `QLOG_HASH_MAP_ITER_CLS_NAME`, of the map at hand. -/
@[ext]
structure Iterator where
  nodeIndex : Option ℕ
  bucketIdx : Option ℕ
  deriving DecidableEq

namespace HashMap

variable {K V : Type*} [DecidableEq K] (hash : K → ℕ) (m : HashMap K V)

/-- `get_bucket_index_by_key`. -/
def getBucketIndexByKey (key : K) : ℕ := hash key % 2 ^ 32 &&& sub32 m.bucketsSize 1

/-- The nodes that `begin()`, `++` and `end()` visit. -/
def iteration : Option (List ℕ) := walk m.links.next m.nodesSize m.links.head

/-- What they refer to. -/
def entries : Option (List (K × V)) := m.iteration.bind fun live => live.mapM m.entry

/-! ## Searching -/

/-- The loop of `find_index_and_bucket_idx_by_key`. -/
def findLoop (bucketIdx : ℕ) (key : K) : ℕ → Option ℕ → Option (Option ℕ)
  | _, none => some none
  | 0, some _ => none
  | fuel + 1, some validIndex =>
    if m.bucketIdx validIndex ≠ bucketIdx then some none
    else
      (m.entry validIndex).bind fun entry =>
        if entry.1 = key then some (some validIndex)
        else findLoop bucketIdx key fuel (m.links.next validIndex)

/-- `find_index_and_bucket_idx_by_key`. -/
def findIndexAndBucketIdxByKey (key : K) : Option (Option ℕ × Option ℕ) :=
  if 0 < m.bucketsSize then
    let bucketIdx := m.getBucketIndexByKey hash key
    (m.findLoop bucketIdx key m.nodesSize (m.buckets bucketIdx)).map fun index => (index, some bucketIdx)
  else some (none, none)

/-- `find`. -/
def find (key : K) : Option Iterator :=
  (m.findIndexAndBucketIdxByKey hash key).map fun found => ⟨found.1, found.2⟩

/-- `iterator_legal_check`, for an iterator of this map. -/
def iteratorLegalCheck (it : Iterator) : Bool :=
  match it.nodeIndex with
  | none => false
  | some index => index < m.nodesSize && some (m.bucketIdx index) = it.bucketIdx

/-! ## Growing -/

/-- The links when a node is moved behind the first one of its bucket, in `expand_buckets`. -/
def moveBehind (s : Links ℕ) (cur newPrev : ℕ) : Links ℕ :=
  let oldPrev := s.prev cur
  let oldNext := s.next cur
  let newNext := s.next newPrev
  let s := match oldPrev with
    | none => s
    | some p => { s with next := Function.update s.next p oldNext }
  let s := match oldNext with
    | none => s
    | some n => { s with prev := Function.update s.prev n oldPrev }
  let s := s.setNode cur (some newPrev) newNext
  let s := { s with next := Function.update s.next newPrev (some cur) }
  let s := match newNext with
    | none => s
    | some n => { s with prev := Function.update s.prev n (some cur) }
  let s := if s.tail = some cur then { s with tail := oldPrev } else s
  if s.prev cur = s.next cur then { s with tail := none } else s

/-- One turn of the loop of `expand_buckets`. -/
def regroup (cur : ℕ) : Option (HashMap K V) :=
  (m.entry cur).map fun entry =>
    let bucketIdx := m.getBucketIndexByKey hash entry.1
    let m := { m with bucketIdx := Function.update m.bucketIdx cur bucketIdx }
    match m.buckets bucketIdx with
    | none => { m with buckets := Function.update m.buckets bucketIdx (some cur) }
    | some first =>
      if m.links.prev cur ≠ some first then { m with links := moveBehind m.links cur first } else m

/-- The loop of `expand_buckets`. -/
def regroupLoop : ℕ → Option ℕ → HashMap K V → Option (HashMap K V)
  | _, none, m => some m
  | 0, some _, _ => none
  | fuel + 1, some cur, m => (m.regroup hash cur).bind (regroupLoop fuel (m.links.next cur))

/-- `expand_buckets`. -/
def expandBuckets (size : ℕ) : Option (HashMap K V) :=
  if size ≤ m.bucketsSize then some m
  else
    let capacity := roundPowOfTwo size
    let m := { m with buckets := fun _ => none, bucketsSize := capacity }
    if 0 < capacity then regroupLoop hash m.nodesSize m.links.head m else some m

/-- A node in front of the free ones. -/
def pushFree (i : ℕ) : HashMap K V :=
  { m with links := m.links.setNode i none m.free, free := some i }

/-- The loop over the new nodes in `expand_nodes`, from the last one down to `from`. -/
def pushNodes (start : ℕ) : ℕ → HashMap K V → HashMap K V
  | 0, m => m
  | n + 1, m => pushNodes start n (m.pushFree (start + n))

/-- `expand_nodes`: the links are copied, and the entries of the nodes that the iteration visits are moved. -/
def expandNodes (size : ℕ) : Option (HashMap K V) :=
  if size ≤ m.nodesSize then some m
  else
    let newSpace := roundPowOfTwo size
    if newSpace < m.nodesSize then none
    else
      m.iteration.map fun live =>
        { pushNodes m.nodesSize (newSpace - m.nodesSize) m with
          entry := fun i => if i ∈ live then m.entry i else none
          nodesSize := newSpace }

/-- The constructor, with `expand_rate_` as it is initialised. -/
def construct (expandRate : ℕ → ℕ) (initBucketSize : ℕ) : Option (HashMap K V) :=
  let m : HashMap K V :=
    ⟨⟨fun _ => none, fun _ => none, none, none⟩, fun _ => 0, fun _ => none, 0, fun _ => none, 0, none, 0,
      expandRate⟩
  (m.expandBuckets hash initBucketSize).bind fun m => m.expandNodes m.bucketsSize

/-! ## Adding and erasing -/

/-- The bucket is linked a new first node, the first free one. -/
def linkNode (bucketIdx : ℕ) : Option (ℕ × HashMap K V) :=
  m.free.map fun newIndex =>
    let nextNode := m.buckets bucketIdx
    let prevNode := match nextNode with
      | none => m.links.tail
      | some first => m.links.prev first
    (newIndex,
      { m with
        free := m.links.next newIndex
        buckets := Function.update m.buckets bucketIdx (some newIndex)
        bucketIdx := Function.update m.bucketIdx newIndex bucketIdx
        links := m.links.link newIndex prevNode nextNode })

/-- `alloc_node_by_key`, without the construction of the key. -/
def allocNodeByKey (key : K) : Option (ℕ × HashMap K V) :=
  let expectedBucketSize := m.expandRate (add32 m.size 1) + 1
  (if m.bucketsSize < expectedBucketSize then m.expandBuckets hash expectedBucketSize else some m).bind fun m =>
  (m.findIndexAndBucketIdxByKey hash key).bind fun found =>
  (if m.free = none then m.expandNodes (add32 m.nodesSize 1) else some m).bind fun m =>
  found.2.bind m.linkNode

/-- `add`, and the node it returns an iterator of. -/
def add (key : K) (value : V) : Option (ℕ × HashMap K V) :=
  (m.allocNodeByKey hash key).map fun (index, m) =>
    (index, { m with entry := Function.update m.entry index (some (key, value)), size := add32 m.size 1 })

/-- A store through a reference to the value of a node. -/
def store (index : ℕ) (f : V → V) : HashMap K V :=
  { m with entry := Function.update m.entry index ((m.entry index).map fun e => (e.1, f e.2)) }

/-- `operator[]`, and what the caller stores through the reference: `m[key] = f(m[key])`. -/
def subscript [Inhabited V] (key : K) (f : V → V) : Option (HashMap K V) :=
  (m.find hash key).bind fun it =>
    if !m.iteratorLegalCheck it then (m.add hash key default).map fun (index, m) => m.store index f
    else it.nodeIndex.map fun index => m.store index f

/-- `erase` of an iterator. -/
def eraseAt (it : Iterator) : Bool × HashMap K V :=
  match m.iteratorLegalCheck it, it.nodeIndex, it.bucketIdx with
  | true, some index, some bucketIdx =>
    let nextIndex := m.links.next index
    let links := m.links.unlink index
    (true,
      { m with
        links := { links with next := Function.update links.next index m.free }
        buckets :=
          if m.buckets bucketIdx = some index then
            Function.update m.buckets bucketIdx (nextIndex.filter fun n => m.bucketIdx n = bucketIdx)
          else m.buckets
        free := some index
        size := sub32 m.size 1
        entry := Function.update m.entry index none })
  | _, _, _ => (false, m)

/-- `erase` of a key. -/
def erase (key : K) : Option (Bool × HashMap K V) :=
  (m.find hash key).map fun it => if !m.iteratorLegalCheck it then (false, m) else m.eraseAt it

/-- `clear`. -/
def clear : Option (HashMap K V) :=
  m.iteration.map fun live =>
    { m with
      entry := fun i => if i ∈ live then none else m.entry i
      buckets := fun _ => none
      links :=
        { next := fun i => if i < m.nodesSize then (if i + 1 = m.nodesSize then none else some (i + 1))
            else m.links.next i
          prev := fun i => if i < m.nodesSize then none else m.links.prev i
          head := none
          tail := none }
      free := if 0 < m.nodesSize then some 0 else none
      size := 0 }

/-! ## Copying -/

/-- What the copy constructor and the copy assignment do with an empty map. -/
def copyFrom (rhs : HashMap K V) : Option (HashMap K V) :=
  (m.expandBuckets hash rhs.bucketsSize).bind fun m =>
  (m.expandNodes rhs.nodesSize).bind fun m =>
  rhs.entries.bind fun entries => entries.foldlM (fun m e => (m.add hash e.1 e.2).map Prod.snd) m

/-- `operator=` from another map. -/
def assign (rhs : HashMap K V) : Option (HashMap K V) := m.clear.bind fun m => m.copyFrom hash rhs

/-- The copy constructor. -/
def ofCopy (expandRate : ℕ → ℕ) (rhs : HashMap K V) : Option (HashMap K V) :=
  (construct hash expandRate 0).bind fun m => m.copyFrom hash rhs

end HashMap

end QLog.Utility
