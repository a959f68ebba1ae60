import Mathlib

/-!
# Computations in lockstep

A family of computations `p i`, each on its own states. `R i t s` says that `s` is a state of the `i`-th one at
the stage `t`. The family is in `Lockstep` from a stage on if all of its members have the same result and reach
the same stage, whatever the states were; the postcondition speaks about the result and the stage.

The rules follow the structure of a program: `pure`, `bind`, and consequence.
-/

namespace QLog

universe u

variable {ι τ : Type*} {σ α β : Type u}

/-- From stage `t` on, all computations have one result and reach one stage, which satisfy `Q`. -/
def Lockstep (R : ι → τ → σ → Prop) (t : τ) (p : ι → StateM σ α) (Q : α → τ → Prop) : Prop :=
  ∃ a t', Q a t' ∧ ∀ i s, R i t s → ((p i).run s).1 = a ∧ R i t' ((p i).run s).2

namespace Lockstep

variable {R : ι → τ → σ → Prop} {t : τ} {p : ι → StateM σ α} {Q : α → τ → Prop}

theorem pure {a : α} (h : Q a t) : Lockstep R t (fun _ => (Pure.pure a : StateM σ α)) Q :=
  ⟨a, t, h, fun _ _ hs => ⟨rfl, hs⟩⟩

/-- One computation after the other. -/
theorem bind {f : ι → α → StateM σ β} {P : β → τ → Prop} (h : Lockstep R t p Q)
    (hf : ∀ a t', Q a t' → Lockstep R t' (fun i => f i a) P) : Lockstep R t (fun i => p i >>= f i) P := by
  obtain ⟨a, t', hQ, hp⟩ := h
  obtain ⟨b, u, hP, hb⟩ := hf a t' hQ
  refine ⟨b, u, hP, fun i s hs => ?_⟩
  obtain ⟨ha, hs'⟩ := hp i s hs
  have hrun : ((p i >>= f i).run s) = (f i ((p i).run s).1).run ((p i).run s).2 := rfl
  rw [hrun, ha]
  exact hb i _ hs'

/-- A weaker postcondition. -/
theorem mono {P : α → τ → Prop} (h : Lockstep R t p Q) (himp : ∀ a t', Q a t' → P a t') : Lockstep R t p P := by
  obtain ⟨a, t', hQ, hp⟩ := h
  exact ⟨a, t', himp a t' hQ, hp⟩

end Lockstep

end QLog
