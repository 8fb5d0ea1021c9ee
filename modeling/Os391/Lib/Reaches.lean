import Mathlib.Data.Nat.Notation
import Mathlib.Logic.Function.Iterate

/-!
# What a deterministic machine reaches

A machine is a function on its states, and it reaches a property if some number of
steps leads to a state that has it. `Reaches.loop` is the rule for loops: an invariant
and a number that every step makes smaller.
-/

namespace Machines

universe u

variable {σ : Type u} {f : σ → σ} {Q R : σ → Prop} {s : σ}

/-- From `s` on, a state with `Q` is reached. -/
def Reaches (f : σ → σ) (s : σ) (Q : σ → Prop) : Prop := ∃ t, Q (f^[t] s)

namespace Reaches

theorem here (h : Q s) : Reaches f s Q := ⟨0, h⟩

theorem step (h : Reaches f (f s) Q) : Reaches f s Q := by
  obtain ⟨t, ht⟩ := h
  exact ⟨t + 1, ht⟩

theorem imp (h : Reaches f s Q) (himp : ∀ u, Q u → R u) : Reaches f s R := by
  obtain ⟨t, ht⟩ := h
  exact ⟨t, himp _ ht⟩

/-- As long as `Q` does not hold, every step keeps the invariant and makes the number
smaller. -/
theorem loop {I : σ → Prop} (left : σ → ℕ)
    (hstep : ∀ u, I u → ¬ Q u → I (f u) ∧ left (f u) < left u) (hs : I s) :
    Reaches f s fun u => Q u ∧ I u := by
  induction hn : left s using Nat.strongRecOn generalizing s with
  | ind n ih =>
    by_cases hq : Q s
    · exact here ⟨hq, hs⟩
    · obtain ⟨hnext, hless⟩ := hstep s hs hq
      exact step (ih (left (f s)) (hn ▸ hless) hnext rfl)

end Reaches

end Machines
