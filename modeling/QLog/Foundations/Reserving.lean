import Mathlib.Algebra.Order.Group.Nat
import Mathlib.Data.List.Basic

/-!
# Texts in a buffer that grows

A text is written into a buffer from a position on. What is done for it is a `Plan`: room is asked for,
bytes are written, positions are computed, each given by its distance from the place where the text begins.
The size of the buffer changes only where room is asked for, by a rule `grow` that is left open, and a
position that is computed has to be a number up to a limit. A plan stays inside (`Plan.Inside`) if all bytes
that are written lie in front of the size that the buffer has then. One plan behind another stays inside if
both do, the second one in the buffer that the first one leaves (`Plan.inside_append`).
-/

namespace QLog.Reserving

/-- A step of a plan: room for so many bytes is asked for, so many bytes are written, a position so far away
is computed. -/
inductive Step
  | ask (n : ℕ)
  | touch (n : ℕ)
  | reach (n : ℕ)

/-- The step of a text that begins `k` bytes later. -/
def Step.shift (k : ℕ) : Step → Step
  | ask n => ask (k + n)
  | touch n => touch (k + n)
  | reach n => reach (k + n)

/-- What is done for a text, and its length. -/
structure Plan where
  steps : List Step
  length : ℕ

section Inside

variable (grow : ℕ → ℕ → ℕ) (limit p : ℕ)

/-- The size of the buffer behind a step. -/
def Step.sizeAfter (size : ℕ) : Step → ℕ
  | ask n => grow size (p + n)
  | touch _ | reach _ => size

/-- A step stays inside. -/
def Step.Inside (size : ℕ) : Step → Prop
  | ask _ => True
  | touch n => p + n ≤ size
  | reach n => p + n ≤ limit

instance (size : ℕ) : DecidablePred (Step.Inside limit p size)
  | .ask _ => inferInstanceAs (Decidable True)
  | .touch n => inferInstanceAs (Decidable (p + n ≤ size))
  | .reach n => inferInstanceAs (Decidable (p + n ≤ limit))

/-- Steps stay inside, one after the other. -/
def StepsInside : ℕ → List Step → Prop
  | _, [] => True
  | size, s :: ss => s.Inside limit p size ∧ StepsInside (s.sizeAfter grow p size) ss

instance decidableStepsInside : ∀ size ss, Decidable (StepsInside grow limit p size ss)
  | _, [] => inferInstanceAs (Decidable True)
  | size, s :: ss =>
    have := decidableStepsInside (s.sizeAfter grow p size) ss
    inferInstanceAs (Decidable (_ ∧ _))

end Inside

namespace Plan

variable (grow : ℕ → ℕ → ℕ) (limit p size : ℕ)

/-- The plan stays inside from the position `p` on, where the buffer has this size. -/
def Inside (P : Plan) : Prop := StepsInside grow limit p size P.steps

instance (P : Plan) : Decidable (P.Inside grow limit p size) := inferInstanceAs (Decidable (StepsInside ..))

/-- The size of the buffer behind the plan. -/
def sizeAfter (P : Plan) : ℕ := P.steps.foldl (Step.sizeAfter grow p) size

/-- Nothing is done. -/
def empty : Plan := ⟨[], 0⟩

/-- Room for so many bytes is asked for. -/
def ask (n : ℕ) : Plan := ⟨[.ask n], 0⟩

/-- So many bytes are written, if any. -/
def put (n : ℕ) : Plan := ⟨if n = 0 then [] else [.touch n], n⟩

/-- So many bytes are written behind the text. -/
def touch (n : ℕ) : Plan := ⟨[.touch n], 0⟩

/-- A plan behind another one. -/
instance : Append Plan := ⟨fun P Q => ⟨P.steps ++ Q.steps.map (Step.shift P.length), P.length + Q.length⟩⟩

@[simp] theorem length_append (P Q : Plan) : (P ++ Q).length = P.length + Q.length := rfl

@[simp] theorem length_empty : empty.length = 0 := rfl

@[simp] theorem length_ask (n : ℕ) : (ask n).length = 0 := rfl

@[simp] theorem length_put (n : ℕ) : (put n).length = n := rfl

@[simp] theorem inside_empty : empty.Inside grow limit p size := trivial

@[simp] theorem sizeAfter_empty : empty.sizeAfter grow p size = size := rfl

@[simp] theorem inside_ask (n : ℕ) : (ask n).Inside grow limit p size := ⟨trivial, trivial⟩

@[simp] theorem sizeAfter_ask (n : ℕ) : (ask n).sizeAfter grow p size = grow size (p + n) := rfl

@[simp] theorem inside_put {n : ℕ} : (put n).Inside grow limit p size ↔ n = 0 ∨ p + n ≤ size := by
  unfold put Inside
  split_ifs with hn
  · exact iff_of_true trivial (.inl hn)
  · exact ⟨fun h => .inr h.1, fun h => ⟨h.resolve_left hn, trivial⟩⟩

@[simp] theorem sizeAfter_put (n : ℕ) : (put n).sizeAfter grow p size = size := by
  unfold put sizeAfter
  split_ifs <;> rfl

end Plan

/-! ## One plan behind another -/

variable {grow : ℕ → ℕ → ℕ} {limit p k size : ℕ}

theorem Step.sizeAfter_shift (s : Step) :
    (s.shift k).sizeAfter grow p size = s.sizeAfter grow (p + k) size := by
  cases s with
  | ask n => exact congrArg (grow size) (Nat.add_assoc p k n).symm
  | _ => rfl

theorem Step.inside_shift (s : Step) : (s.shift k).Inside limit p size ↔ s.Inside limit (p + k) size := by
  cases s with
  | ask n => exact Iff.rfl
  | touch n | reach n => simp only [shift, Inside, Nat.add_assoc]

theorem foldl_sizeAfter_shift (ss : List Step) : (ss.map (Step.shift k)).foldl (Step.sizeAfter grow p) size =
    ss.foldl (Step.sizeAfter grow (p + k)) size := by
  induction ss generalizing size with
  | nil => rfl
  | cons s ss ih => rw [List.map_cons, List.foldl_cons, List.foldl_cons, Step.sizeAfter_shift, ih]

theorem stepsInside_shift (ss : List Step) : StepsInside grow limit p size (ss.map (Step.shift k)) ↔
    StepsInside grow limit (p + k) size ss := by
  induction ss generalizing size with
  | nil => exact Iff.rfl
  | cons s ss ih =>
    rw [List.map_cons, StepsInside, StepsInside, Step.inside_shift, Step.sizeAfter_shift, ih]

theorem stepsInside_append (ss ss' : List Step) : StepsInside grow limit p size (ss ++ ss') ↔
    StepsInside grow limit p size ss ∧
      StepsInside grow limit p (ss.foldl (Step.sizeAfter grow p) size) ss' := by
  induction ss generalizing size with
  | nil => exact (and_iff_right trivial).symm
  | cons s ss ih => rw [List.cons_append, StepsInside, StepsInside, ih, and_assoc, List.foldl_cons]

namespace Plan

@[simp] theorem sizeAfter_append (P Q : Plan) :
    (P ++ Q).sizeAfter grow p size = Q.sizeAfter grow (p + P.length) (P.sizeAfter grow p size) := by
  change (P.steps ++ Q.steps.map (Step.shift P.length)).foldl _ _ = _
  rw [List.foldl_append, foldl_sizeAfter_shift]
  rfl

/-- **A plan behind another one** stays inside if both do, the second one behind the text of the first and in
the buffer that it leaves. -/
@[simp] theorem inside_append (P Q : Plan) : (P ++ Q).Inside grow limit p size ↔
    P.Inside grow limit p size ∧ Q.Inside grow limit (p + P.length) (P.sizeAfter grow p size) := by
  change StepsInside grow limit p size (P.steps ++ Q.steps.map (Step.shift P.length)) ↔ _
  rw [stepsInside_append, stepsInside_shift]
  rfl

end Plan

end QLog.Reserving
