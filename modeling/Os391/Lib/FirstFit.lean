import Mathlib.Order.Basic
import Mathlib.Data.List.FinRange

/-!
# First fit

Searching an increasing list for the first element with a property finds the
least one, which is how a table with numbered slots hands out the least free
number.
-/

namespace FirstFit

universe u

variable {α : Type u} [LinearOrder α] {l : List α} {p : α → Bool} {a : α}

/-- In an increasing list, `find?` finds the least element with the property. -/
theorem find?_eq_some_iff (hl : l.Pairwise (· < ·)) :
    l.find? p = some a ↔ a ∈ l ∧ p a = true ∧ ∀ b ∈ l, b < a → p b = false := by
  constructor
  · intro hf
    obtain ⟨hp, before, after, rfl, hnot⟩ := List.find?_eq_some_iff_append.mp hf
    refine ⟨by simp, hp, ?_⟩
    intro b hb hlt
    rcases List.mem_append.mp hb with hb | hb
    · simpa using hnot b hb
    · -- an element from `a` on is not below `a`
      have hge := (List.pairwise_append.mp hl).2.1
      rcases List.mem_cons.mp hb with rfl | hb
      · exact absurd hlt (lt_irrefl _)
      · exact absurd hlt (lt_asymm (List.rel_of_pairwise_cons hge hb))
  · rintro ⟨hmem, hp, hleast⟩
    rcases hf : l.find? p with _ | c
    · exact absurd hp (List.find?_eq_none.mp hf a hmem)
    · obtain ⟨hpc, before, after, rfl, hnot⟩ := List.find?_eq_some_iff_append.mp hf
      rcases List.mem_append.mp hmem with ha | ha
      · have := hnot a ha
        simp [hp] at this
      · rcases List.mem_cons.mp ha with rfl | ha
        · rfl
        · have hlt : c < a :=
            List.rel_of_pairwise_cons (List.pairwise_append.mp hl).2.1 ha
          have := hleast c (by simp) hlt
          rw [hpc] at this
          cases this

/-- The search of all of `Fin n`. -/
theorem find?_finRange_eq_some_iff {n : ℕ} {p : Fin n → Bool} {a : Fin n} :
    (List.finRange n).find? p = some a ↔ p a = true ∧ ∀ b < a, p b = false := by
  rw [find?_eq_some_iff (List.pairwise_lt_finRange n)]
  simp

end FirstFit
