import Mathlib

/-!
# Traces of a protocol

What a component does is the list of its events, the newest first. A protocol says of every event whether
its past allows it, and a trace is `Admitted` when every event of it was allowed. A loop emits one event
for each item; `Admitted.emit` admits all of them when no item's event forbids that of another one.
-/

namespace QLog

variable {ε α : Type*}

/-- Every event was allowed by what happened before it. -/
def Admitted (allowed : ε → List ε → Prop) : List ε → Prop
  | [] => True
  | e :: past => allowed e past ∧ Admitted allowed past

/-- A loop over items: one event for each, the newest first. -/
def emit (f : α → ε) : List α → List ε → List ε
  | [], past => past
  | a :: l, past => emit f l (f a :: past)

variable {allowed : ε → List ε → Prop} {f : α → ε} {l : List α} {past post : List ε} {e : ε}

@[simp] theorem mem_emit : e ∈ emit f l past ↔ (∃ a ∈ l, f a = e) ∨ e ∈ past := by
  induction l generalizing past with
  | nil => simp [emit]
  | cons a l ih =>
    simp only [emit, ih, List.mem_cons, exists_eq_or_imp]
    rw [eq_comm (b := f a), or_left_comm, ← or_assoc]

namespace Admitted

theorem of_append (h : Admitted allowed (post ++ past)) : Admitted allowed past := by
  induction post with
  | nil => exact h
  | cons e post ih => exact ih h.2

/-- **A loop of events** is admitted when each is allowed at the start and stays so behind the others. -/
theorem emit (h : Admitted allowed past) (hl : l.Nodup) (hstart : ∀ a ∈ l, allowed (f a) past)
    (hstep : ∀ a ∈ l, ∀ b ∈ l, a ≠ b → ∀ past, allowed (f b) past → allowed (f b) (f a :: past)) :
    Admitted allowed (QLog.emit f l past) := by
  induction l generalizing past with
  | nil => exact h
  | cons a l ih =>
    obtain ⟨ha, hl⟩ := List.nodup_cons.1 hl
    refine ih ⟨hstart a List.mem_cons_self, h⟩ hl (fun b hb => ?_)
      fun b hb c hc => hstep b (List.mem_cons_of_mem a hb) c (List.mem_cons_of_mem a hc)
    exact hstep a List.mem_cons_self b (List.mem_cons_of_mem a hb) (fun hab => ha (hab ▸ hb)) past
      (hstart b (List.mem_cons_of_mem a hb))

end Admitted

end QLog
