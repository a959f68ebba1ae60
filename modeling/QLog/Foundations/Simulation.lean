import QLog.Foundations.Transition

/-!
# A system that implements an abstract machine

The abstract machine takes labelled steps `astep q l q'`; `Trace astep q ls q'` says that it goes from `q` to
`q'` by the labels `ls`. Of a step of the system an observer sees some labels, and `observe` collects those of
a run. If every step is a trace of the machine between the abstractions of its states, so is every run
(`Simulates.trace`).
-/

namespace QLog

variable {σ τ α ℓ : Type*}

/-- Labelled steps of an abstract machine, one after the other. -/
inductive Trace (astep : τ → ℓ → τ → Prop) : τ → List ℓ → τ → Prop
  | nil (q : τ) : Trace astep q [] q
  | cons {q r q' : τ} {l : ℓ} {ls : List ℓ} :
      astep q l r → Trace astep r ls q' → Trace astep q (l :: ls) q'

namespace Trace

variable {astep : τ → ℓ → τ → Prop} {q r q' : τ} {ls ls' : List ℓ} {l : ℓ}

theorem single (h : astep q l q') : Trace astep q [l] q' := cons h (nil q')

theorem of_eq (h : q' = q) : Trace astep q [] q' := by
  subst h
  exact nil q'

theorem append (h : Trace astep q ls r) (h' : Trace astep r ls' q') : Trace astep q (ls ++ ls') q' := by
  induction h with
  | nil => exact h'
  | cons hstep _ ih => exact cons hstep (ih h')

/-- What every step keeps, a trace keeps. -/
theorem invariant {I : τ → List ℓ → Prop} (h : Trace astep q ls q') (seen : List ℓ) (hq : I q seen)
    (hstep : ∀ q l q' seen, I q seen → astep q l q' → I q' (seen ++ [l])) : I q' (seen ++ ls) := by
  induction h generalizing seen with
  | nil q => rwa [List.append_nil]
  | @cons q r q' l ls hs _ ih =>
    rw [← List.singleton_append, ← List.append_assoc]
    exact ih _ (hstep _ _ _ _ hq hs)

end Trace

/-- The labels of a run. -/
def observe (step : σ → α → Option σ) (label : σ → α → List ℓ) : σ → List α → List ℓ
  | _, [] => []
  | s, a :: as => label s a ++ match step s a with
    | some t => observe step label t as
    | none => []

theorem observe_cons {step : σ → α → Option σ} {s t : σ} {a : α} (label : σ → α → List ℓ)
    (h : step s a = some t) (as : List α) :
    observe step label s (a :: as) = label s a ++ observe step label t as := by
  rw [observe, h]

theorem Admits.of_forall {step : σ → α → Option σ} {ok : σ → α → Prop} (hok : ∀ s a, ok s a) {s : σ}
    {as : List α} : Admits step ok s as := by
  induction as generalizing s with
  | nil => trivial
  | cons a as ih => exact ⟨hok s a, fun t _ => ih⟩

/-- A run of the guarded step function is an admitted run. -/
theorem Admits.of_run_guarded {step : σ → α → Option σ} {ok : σ → α → Prop} [∀ s a, Decidable (ok s a)]
    {s t : σ} {as : List α} (h : run (guarded step ok) s as = some t) :
    Admits step ok s as ∧ run step s as = some t := by
  induction as generalizing s with
  | nil => exact ⟨trivial, h⟩
  | cons a as ih =>
    rw [run_cons, Option.bind_eq_some_iff] at h
    obtain ⟨u, hu, hrest⟩ := h
    unfold guarded at hu
    split at hu
    · rename_i hok
      obtain ⟨hadmits, hrun⟩ := ih hrest
      refine ⟨⟨hok, fun v hv => ?_⟩, (run_cons_of_step hu as).trans hrun⟩
      obtain rfl := Option.some.inj (hu.symm.trans hv)
      exact hadmits
    · cases hu

/-- Every admitted step from a state in `I` keeps `I` and is a trace of the abstract machine. -/
structure Simulates (step : σ → α → Option σ) (ok : σ → α → Prop) (label : σ → α → List ℓ)
    (astep : τ → ℓ → τ → Prop) (abs : σ → τ) (I : σ → Prop) : Prop where
  keeps {s t : σ} {a : α} : I s → ok s a → step s a = some t → I t
  trace {s t : σ} {a : α} : I s → ok s a → step s a = some t → Trace astep (abs s) (label s a) (abs t)

/-- **Every admitted run is a trace** of the abstract machine. -/
theorem Simulates.run {step : σ → α → Option σ} {ok : σ → α → Prop} {label : σ → α → List ℓ}
    {astep : τ → ℓ → τ → Prop} {abs : σ → τ} {I : σ → Prop} (h : Simulates step ok label astep abs I)
    {s t : σ} {as : List α} (hI : I s) (hok : Admits step ok s as) (hrun : QLog.run step s as = some t) :
    Trace astep (abs s) (observe step label s as) (abs t) := by
  induction as generalizing s with
  | nil =>
    obtain rfl : s = t := Option.some.inj hrun
    exact .nil _
  | cons a as ih =>
    rw [run_cons, Option.bind_eq_some_iff] at hrun
    obtain ⟨u, hu, hrun⟩ := hrun
    rw [observe_cons label hu]
    exact (h.trace hI hok.1 hu).append (ih (h.keeps hI hok.1 hu) (hok.2 u hu) hrun)

end QLog
