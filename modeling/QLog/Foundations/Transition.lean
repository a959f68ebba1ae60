import Mathlib

/-!
# Runs of a transition function

A system is given by a partial step function `step : σ → α → Option σ`: in state `s` the action
`a` is enabled iff `step s a` is a state. Concurrency is interleaving: the action says which
thread moves and supplies whatever the environment chooses.

* `run step s as` executes a list of actions.
* `Runs step ok s t` holds when `t` is reached from `s` by steps that all satisfy the side
  condition `ok`, a relation between the state before the step and the action.
* `guarded step ok` is the step function that refuses the other steps, for runs that are executed.
* `Runs.invariant` is the induction rule for safety: what holds at the start and is preserved by
  every admitted step holds in every state reached.
* `Admits step ok s as` says that every action of a list satisfies the side condition when it is taken, and
  `run_iff_admits` that a property holds at the end of a run exactly then.
-/

namespace QLog

variable {σ α : Type*}

/-- Execute a list of actions; a disabled action makes the whole run undefined. -/
def run (step : σ → α → Option σ) : σ → List α → Option σ
  | s, [] => some s
  | s, a :: as => (step s a).bind fun t => run step t as

section Run

variable {step : σ → α → Option σ}

@[simp] theorem run_nil (s : σ) : run step s [] = some s := rfl

theorem run_cons (s : σ) (a : α) (as : List α) :
    run step s (a :: as) = (step s a).bind fun t => run step t as := rfl

theorem run_cons_of_step {s t : σ} {a : α} (h : step s a = some t) (as : List α) :
    run step s (a :: as) = run step t as := by
  rw [run_cons, h, Option.bind_some]

theorem run_append (s : σ) (as bs : List α) :
    run step s (as ++ bs) = (run step s as).bind fun t => run step t bs := by
  induction as generalizing s with
  | nil => rfl
  | cons a as ih =>
    rw [List.cons_append, run_cons, run_cons, Option.bind_assoc]
    exact congrArg _ (funext fun t => ih t)

end Run

/-- The step function that refuses what the side condition does not admit. -/
def guarded (step : σ → α → Option σ) (ok : σ → α → Prop) [∀ s a, Decidable (ok s a)] (s : σ)
    (a : α) : Option σ :=
  if ok s a then step s a else none

/-- One admitted step: some enabled action satisfies the side condition. -/
def StepVia (step : σ → α → Option σ) (ok : σ → α → Prop) (s t : σ) : Prop :=
  ∃ a, ok s a ∧ step s a = some t

/-- `t` is reached from `s` by admitted steps. -/
def Runs (step : σ → α → Option σ) (ok : σ → α → Prop) : σ → σ → Prop :=
  Relation.ReflTransGen (StepVia step ok)

/-- Every action satisfies the side condition in the state in which it is taken. -/
def Admits (step : σ → α → Option σ) (ok : σ → α → Prop) : σ → List α → Prop
  | _, [] => True
  | s, a :: as => ok s a ∧ ∀ t, step s a = some t → Admits step ok t as

section Admits

variable {step : σ → α → Option σ} {ok : σ → α → Prop} {P : σ → Prop}

/-- A property that no step regains was there at the start if it is there at the end. -/
theorem exists_run_of_step (hstep : ∀ s a, ∃ t, step s a = some t ∧ (P t → P s)) (s : σ) (as : List α) :
    ∃ t, run step s as = some t ∧ (P t → P s) := by
  induction as generalizing s with
  | nil => exact ⟨s, rfl, id⟩
  | cons a as ih =>
    obtain ⟨t, ht, hback⟩ := hstep s a
    obtain ⟨u, hu, hend⟩ := ih t
    exact ⟨u, (run_cons_of_step ht as).trans hu, hback ∘ hend⟩

/-- **Exactly the admitted runs keep a property**: it is lost where an action fails the side condition,
and not regained; `I` relates a state to the actions that are still to come. -/
theorem run_iff_admits {I : σ → List α → Prop}
    (hback : ∀ s a, ∃ t, step s a = some t ∧ (P t → P s))
    (hstep : ∀ s a as t, I s (a :: as) → P s → step s a = some t → (P t ↔ ok s a) ∧ (P t → I t as))
    {s : σ} {as : List α} (hI : I s as) (hP : P s) :
    ∃ t, run step s as = some t ∧ (P t ↔ Admits step ok s as) := by
  induction as generalizing s with
  | nil => exact ⟨s, rfl, iff_of_true hP trivial⟩
  | cons a as ih =>
    obtain ⟨t, ht, -⟩ := hback s a
    obtain ⟨hok, hnext⟩ := hstep s a as t hI hP ht
    have hadmits : Admits step ok s (a :: as) ↔ ok s a ∧ Admits step ok t as := by
      rw [Admits]
      refine and_congr_right fun _ => ⟨fun h => h t ht, fun h u hu => ?_⟩
      obtain rfl := Option.some.inj (ht.symm.trans hu)
      exact h
    rw [run_cons_of_step ht, hadmits]
    by_cases hPt : P t
    · obtain ⟨u, hu, hiff⟩ := ih (hnext hPt) hPt
      exact ⟨u, hu, hiff.trans (and_iff_right (hok.1 hPt)).symm⟩
    · obtain ⟨u, hu, hend⟩ := exists_run_of_step hback t as
      exact ⟨u, hu, iff_of_false (fun h => hPt (hend h)) fun h => hPt (hok.2 h.1)⟩

end Admits

namespace Runs

variable {step : σ → α → Option σ} {ok ok' : σ → α → Prop} {s t u : σ}

theorem refl (s : σ) : Runs step ok s s := Relation.ReflTransGen.refl

theorem tail {a : α} (h : Runs step ok s t) (hok : ok t a) (ha : step t a = some u) :
    Runs step ok s u :=
  Relation.ReflTransGen.tail h ⟨a, hok, ha⟩

theorem trans (h : Runs step ok s t) (h' : Runs step ok t u) : Runs step ok s u :=
  Relation.ReflTransGen.trans h h'

/-- **The invariant rule**: a predicate that holds at the start and that every admitted step
preserves holds in every state reached. -/
theorem invariant {I : σ → Prop} (h : Runs step ok s t) (hs : I s)
    (hstep : ∀ u v a, I u → ok u a → step u a = some v → I v) : I t := by
  induction h with
  | refl => exact hs
  | tail _ hlast ih =>
    obtain ⟨a, hok, ha⟩ := hlast
    exact hstep _ _ a ih hok ha

theorem mono (h : Runs step ok s t) (himp : ∀ u a, ok u a → ok' u a) : Runs step ok' s t :=
  Relation.ReflTransGen.mono (fun _ _ ⟨a, hok, ha⟩ => ⟨a, himp _ a hok, ha⟩) _ _ h

/-- An executed list of actions is a run under any side condition that always holds. -/
theorem of_run (hok : ∀ u a, ok u a) {as : List α} (h : run step s as = some t) :
    Runs step ok s t := by
  induction as generalizing s with
  | nil =>
    obtain rfl : s = t := by simpa using h
    exact refl s
  | cons a as ih =>
    rw [run_cons, Option.bind_eq_some_iff] at h
    obtain ⟨v, hv, hrest⟩ := h
    exact (tail (refl s) (hok s a) hv).trans (ih hrest)

/-- Runs of the guarded step function are runs under the guard. -/
theorem of_run_guarded [∀ u a, Decidable (ok u a)] {as : List α}
    (h : run (guarded step ok) s as = some t) : Runs step ok s t := by
  refine Relation.ReflTransGen.mono ?_ _ _ (of_run (fun _ _ => trivial) h)
  rintro u v ⟨a, -, ha⟩
  unfold guarded at ha
  split at ha
  · rename_i hok
    exact ⟨a, hok, ha⟩
  · cases ha

end Runs

end QLog
