import Mathlib.Data.Nat.Notation
import Mathlib.Data.List.GetD

/-!
# Two lists side by side

Two lists are gone through together, position by position. The shorter one is continued
with a default value, so that nothing of the longer one is lost.
-/

namespace SideBySide

universe u v

variable {α : Type u} {β : Type v} {d : α} {f : ℕ → α → α → List β} {n : ℕ} {xs ys : List α}

/-- What `f` gives for the positions of the two lists, which are numbered from `n` on. -/
def sideBySide (d : α) (f : ℕ → α → α → List β) (n : ℕ) (xs ys : List α) : List β :=
  (List.range (max xs.length ys.length)).flatMap fun j => f (n + j) (xs.getD j d) (ys.getD j d)

@[simp] theorem sideBySide_nil (d : α) (f : ℕ → α → α → List β) (n : ℕ) :
    sideBySide d f n [] [] = [] := rfl

theorem mem_sideBySide {b : β} : b ∈ sideBySide d f n xs ys ↔
    ∃ j < max xs.length ys.length, b ∈ f (n + j) (xs.getD j d) (ys.getD j d) := by
  rw [sideBySide, List.mem_flatMap]
  simp only [List.mem_range]

/-- Where both lists are over there is nothing, if there is nothing for two defaults. -/
theorem mem_sideBySide_of_default (hd : ∀ m, f m d d = []) {b : β} :
    b ∈ sideBySide d f n xs ys ↔ ∃ j, b ∈ f (n + j) (xs.getD j d) (ys.getD j d) := by
  rw [mem_sideBySide]
  constructor
  · rintro ⟨j, -, hb⟩
    exact ⟨j, hb⟩
  · rintro ⟨j, hb⟩
    refine ⟨j, Nat.lt_of_not_le fun hout => ?_, hb⟩
    rw [List.getD_eq_default _ _ (by omega), List.getD_eq_default _ _ (by omega), hd] at hb
    cases hb

/-- What stands at later positions stands later. -/
theorem pairwise_sideBySide {R : β → β → Prop}
    (hsame : ∀ j < max xs.length ys.length, (f (n + j) (xs.getD j d) (ys.getD j d)).Pairwise R)
    (hlater : ∀ j k, j < k → k < max xs.length ys.length →
      ∀ b ∈ f (n + j) (xs.getD j d) (ys.getD j d),
        ∀ b' ∈ f (n + k) (xs.getD k d) (ys.getD k d), R b b') :
    (sideBySide d f n xs ys).Pairwise R := by
  rw [sideBySide, List.pairwise_flatMap]
  refine ⟨fun j hj => hsame j (List.mem_range.mp hj), ?_⟩
  refine (List.pairwise_lt_range (n := max xs.length ys.length)).imp_of_mem ?_
  intro j k _ hk hlt
  exact hlater j k hlt (List.mem_range.mp hk)

theorem getD_zero (d : α) (xs : List α) : xs.getD 0 d = xs.headD d := by
  cases xs with
  | nil => rfl
  | cons x xs => rfl

theorem getD_succ (d : α) (xs : List α) (j : ℕ) : xs.getD (j + 1) d = xs.tail.getD j d := by
  cases xs with
  | nil => rfl
  | cons x xs => rfl

theorem max_length_succ (h : ¬ (xs = [] ∧ ys = [])) :
    max xs.length ys.length = max xs.tail.length ys.tail.length + 1 := by
  rw [List.length_tail, List.length_tail]
  have hpos : xs.length ≠ 0 ∨ ys.length ≠ 0 := by
    rw [ne_eq, ne_eq, List.length_eq_zero_iff, List.length_eq_zero_iff]
    exact not_and_or.mp h
  omega

/-- The first position and the others. -/
theorem sideBySide_step (h : ¬ (xs = [] ∧ ys = [])) :
    sideBySide d f n xs ys =
      f n (xs.headD d) (ys.headD d) ++ sideBySide d f (n + 1) xs.tail ys.tail := by
  rw [sideBySide, max_length_succ h, List.range_succ_eq_map, List.flatMap_cons, List.flatMap_map,
    Nat.add_zero, getD_zero, getD_zero]
  refine congrArg _ (congrArg (fun g => List.flatMap g _) (funext fun j => ?_))
  rw [Nat.succ_eq_add_one, getD_succ, getD_succ, Nat.add_right_comm n 1 j, Nat.add_assoc]

end SideBySide
