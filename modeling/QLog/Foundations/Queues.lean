import QLog.Foundations.Simulation

/-!
# Queues as abstract machines

* `QueueStep`: a queue of items. `push` adds one behind, `peek` looks at the first, `pop` takes it, `empty`
  reports that there is none. Along a trace what is taken, followed by what is left, is what was there,
  followed by what was added (`Trace.fifo`).
* `CellStep`: a queue of reservations. A party reserves a cell, and fills it or abandons it; the last cell
  can also be retracted. The reader takes a filled cell, skips an abandoned one and reports nothing while the
  first one is open. Along a trace the items taken and the items in the cells are the items that were there
  and those that were filled in (`Trace.conserved`).
-/

namespace QLog

variable {β : Type*}

/-! ## Items -/

/-- What happens to a queue of items. -/
inductive QueueLabel (β : Type*)
  | push (x : β)
  | peek (x : β)
  | pop (x : β)
  | empty
  deriving DecidableEq

inductive QueueStep : List β → QueueLabel β → List β → Prop
  | push (q : List β) (x : β) : QueueStep q (.push x) (q ++ [x])
  | peek (q : List β) (x : β) : QueueStep (x :: q) (.peek x) (x :: q)
  | pop (q : List β) (x : β) : QueueStep (x :: q) (.pop x) q
  | empty : QueueStep [] .empty []

namespace QueueLabel

def pushed : QueueLabel β → Option β
  | push x => some x
  | _ => none

def popped : QueueLabel β → Option β
  | pop x => some x
  | _ => none

end QueueLabel

/-- **First in, first out.** -/
theorem Trace.fifo {q q' : List β} {ls : List (QueueLabel β)} (h : Trace QueueStep q ls q') :
    ls.filterMap QueueLabel.popped ++ q' = q ++ ls.filterMap QueueLabel.pushed := by
  have hinv := h.invariant (I := fun r seen => seen.filterMap QueueLabel.popped ++ r =
    q ++ seen.filterMap QueueLabel.pushed) [] (by simp) fun r l r' seen hr hs => by
      cases hs with
      | push _ x =>
        simpa [QueueLabel.popped, QueueLabel.pushed, List.filterMap_cons] using congrArg (· ++ [x]) hr
      | peek x => simpa [QueueLabel.popped, QueueLabel.pushed, List.filterMap_cons] using hr
      | pop x => simpa [QueueLabel.popped, QueueLabel.pushed, List.filterMap_cons] using hr
      | empty => simpa [QueueLabel.popped, QueueLabel.pushed, List.filterMap_cons] using hr
  simpa using hinv

/-! ## Reservations -/

/-- A place in a queue of reservations. -/
inductive Cell (β : Type*)
  /-- Reserved by a party that has not settled it. -/
  | opened (t : ℕ)
  | abandoned
  | filled (x : β)
  deriving DecidableEq

/-- What happens to a queue of reservations. -/
inductive CellLabel (β : Type*)
  | reserve (t : ℕ)
  /-- The last reservation is taken back. -/
  | retract (t : ℕ)
  | abandon (t : ℕ)
  | fill (t : ℕ) (x : β)
  /-- The reader passes an abandoned cell. -/
  | skip
  /-- The reader is handed what the first cell holds. -/
  | peek (x : β)
  /-- The reader passes a filled cell. -/
  | pop (x : β)
  /-- The reader finds nothing to read. -/
  | nothing
  deriving DecidableEq

/-- The first cell, if there is one, is open. -/
def Blocked (q : List (Cell β)) : Prop := ∀ c ∈ q.head?, ∃ t, c = .opened t

inductive CellStep : List (Cell β) → CellLabel β → List (Cell β) → Prop
  | reserve (q : List (Cell β)) (t : ℕ) : CellStep q (.reserve t) (q ++ [.opened t])
  | retract (q : List (Cell β)) (t : ℕ) : CellStep (q ++ [.opened t]) (.retract t) q
  | abandon (q q' : List (Cell β)) (t : ℕ) :
      CellStep (q ++ .opened t :: q') (.abandon t) (q ++ .abandoned :: q')
  | fill (q q' : List (Cell β)) (t : ℕ) (x : β) :
      CellStep (q ++ .opened t :: q') (.fill t x) (q ++ .filled x :: q')
  | skip (q : List (Cell β)) : CellStep (.abandoned :: q) .skip q
  | peek (q : List (Cell β)) (x : β) : CellStep (.filled x :: q) (.peek x) (.filled x :: q)
  | pop (q : List (Cell β)) (x : β) : CellStep (.filled x :: q) (.pop x) q
  | nothing (q : List (Cell β)) : Blocked q → CellStep q .nothing q

namespace Cell

def item : Cell β → Option β
  | filled x => some x
  | _ => none

end Cell

namespace CellLabel

def filledIn : CellLabel β → Option β
  | fill _ x => some x
  | _ => none

def popped : CellLabel β → Option β
  | pop x => some x
  | _ => none

end CellLabel

/-- **Nothing is lost and nothing is taken twice.** -/
theorem Trace.conserved {q q' : List (Cell β)} {ls : List (CellLabel β)} (h : Trace CellStep q ls q') :
    (ls.filterMap CellLabel.popped ++ q'.filterMap Cell.item).Perm
      (q.filterMap Cell.item ++ ls.filterMap CellLabel.filledIn) := by
  have hinv := h.invariant (I := fun r seen => (seen.filterMap CellLabel.popped ++
    r.filterMap Cell.item).Perm (q.filterMap Cell.item ++ seen.filterMap CellLabel.filledIn)) [] (by simp)
    fun r l r' seen hr hs => by
      cases hs with
      | reserve | retract | abandon | skip | peek | nothing =>
        simpa [CellLabel.popped, CellLabel.filledIn, Cell.item, List.filterMap_cons] using hr
      | fill a b t x =>
        simp only [List.filterMap_append, List.filterMap_cons, Cell.item, CellLabel.popped,
          CellLabel.filledIn, List.filterMap_nil, List.append_nil] at hr ⊢
        have hperm := hr.append_right [x]
        refine List.Perm.trans ?_ (by simpa [List.append_assoc] using hperm)
        simp only [List.perm_append_left_iff]
        exact (List.perm_append_singleton x _).symm
      | pop x => simpa [CellLabel.popped, CellLabel.filledIn, Cell.item, List.filterMap_cons] using hr
  simpa using hinv

end QLog
