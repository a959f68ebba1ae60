import Mathlib

/-!
# Loops with a condition

`whileLoop cond body` runs `body` as long as `cond` holds, for at most so many turns. A loop that takes
more turns, or whose body has no result, has no result. `exists_whileLoop` is the rule of total
correctness: an invariant, and a measure that every turn decreases.
-/

namespace QLog

variable {σ : Type*} (cond : σ → Prop) [DecidablePred cond] (body : σ → Option σ)

/-- `while (cond) body`, for at most so many turns. -/
def whileLoop : ℕ → σ → Option σ
  | 0, _ => none
  | fuel + 1, s => if cond s then (body s).bind (whileLoop fuel) else some s

variable {cond body} {s t : σ}

theorem whileLoop_of_not (h : ¬cond s) (fuel : ℕ) : whileLoop cond body (fuel + 1) s = some s := if_neg h

theorem whileLoop_of_body (h : cond s) (hbody : body s = some t) (fuel : ℕ) :
    whileLoop cond body (fuel + 1) s = whileLoop cond body fuel t := by
  rw [whileLoop, if_pos h, hbody, Option.bind_some]

/-- **Total correctness.** -/
theorem exists_whileLoop {I : σ → Prop} (measure : σ → ℕ)
    (hbody : ∀ s, I s → cond s → ∃ t, body s = some t ∧ I t ∧ measure t < measure s) (hs : I s) :
    ∃ t, whileLoop cond body (measure s + 1) s = some t ∧ I t ∧ ¬cond t := by
  suffices h : ∀ n s, I s → measure s < n → ∃ t, whileLoop cond body n s = some t ∧ I t ∧ ¬cond t from
    h _ s hs (Nat.lt_succ_self _)
  intro n
  induction n with
  | zero => exact fun s _ hlt => absurd hlt (Nat.not_lt_zero _)
  | succ n ih =>
    intro s hs hlt
    by_cases hc : cond s
    · obtain ⟨t, ht, hI, hdec⟩ := hbody s hs hc
      obtain ⟨u, hu, hfinal⟩ := ih t hI (by omega)
      exact ⟨u, (whileLoop_of_body hc ht n).trans hu, hfinal⟩
    · exact ⟨s, whileLoop_of_not hc n, hs, hc⟩

end QLog
