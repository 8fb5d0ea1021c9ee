import Mathlib.Logic.Function.Basic
import Mathlib.Data.Fintype.Card
import Mathlib.Data.Fintype.EquivFin

/-!
# Singly linked lists in a table

Nodes with a pointer to the next one, and a pointer to the first. `Linked next p l`
says that from the pointer `p` on the nodes are those of `l`, and that the list ends
there. A pointer determines its list, and a list that ends has no node twice. Nodes
are put in front of a list and taken out of it; the nodes outside do not matter.
-/

namespace SinglyLinked

universe u

variable {ι : Type u} {next : ι → Option ι} {p : Option ι} {l : List ι} {i : ι}

/-- From the pointer `p` on, the list consists of the nodes `l`. -/
def Linked (next : ι → Option ι) : Option ι → List ι → Prop
  | p, [] => p = none
  | p, i :: l => p = some i ∧ Linked next (next i) l

namespace Linked

/-- Two lists from one pointer are the same. -/
theorem unique {l' : List ι} (h : Linked next p l) (h' : Linked next p l') : l = l' := by
  induction l generalizing p l' with
  | nil =>
    cases l' with
    | nil => rfl
    | cons j l' => exact absurd (h.symm.trans h'.1) (by simp)
  | cons i l ih =>
    cases l' with
    | nil => exact absurd (h'.symm.trans h.1) (by simp)
    | cons j l' =>
      obtain rfl : i = j := Option.some.inj (h.1.symm.trans h'.1)
      rw [ih h.2 h'.2]

/-- The rest of a list, from one of its nodes on. -/
theorem append_right {l₁ l₂ : List ι} (h : Linked next p (l₁ ++ i :: l₂)) :
    Linked next (some i) (i :: l₂) := by
  induction l₁ generalizing p with
  | nil => exact ⟨rfl, h.2⟩
  | cons j l₁ ih => exact ih h.2

/-- A list that ends comes by no node twice. -/
theorem nodup (h : Linked next p l) : l.Nodup := by
  induction l generalizing p with
  | nil => exact List.nodup_nil
  | cons i l ih =>
    refine List.nodup_cons.mpr ⟨fun hmem => ?_, ih h.2⟩
    -- the list from `i` on would be a proper part of itself
    obtain ⟨l₁, l₂, rfl⟩ := List.append_of_mem hmem
    have hagain : Linked next (some i) (i :: l₂) := append_right h.2
    have hsame : i :: (l₁ ++ i :: l₂) = i :: l₂ := unique (h.1 ▸ h) hagain
    have hlength := congrArg List.length hsame
    simp only [List.length_cons, List.length_append] at hlength
    omega

theorem length_le [Fintype ι] (h : Linked next p l) : l.length ≤ Fintype.card ι :=
  h.nodup.length_le_card

/-- A list as long as the table has all of its nodes. -/
theorem full_iff [Fintype ι] [DecidableEq ι] (h : Linked next p l) :
    (∀ j, j ∈ l) ↔ l.length = Fintype.card ι := by
  rw [← List.toFinset_card_of_nodup h.nodup, Finset.card_eq_iff_eq_univ, Finset.eq_univ_iff_forall]
  simp

/-- Only the pointers of the nodes in the list matter. -/
theorem congr {next' : ι → Option ι} (h : Linked next p l) (hsame : ∀ j ∈ l, next' j = next j) :
    Linked next' p l := by
  induction l generalizing p with
  | nil => exact h
  | cons i l ih =>
    refine ⟨h.1, ?_⟩
    rw [hsame i List.mem_cons_self]
    exact ih h.2 fun j hj => hsame j (List.mem_cons_of_mem i hj)

/-- A node outside the list is put in front of it. -/
theorem push [DecidableEq ι] (h : Linked next p l) (hi : i ∉ l) :
    Linked (Function.update next i p) (some i) (i :: l) := by
  refine ⟨rfl, ?_⟩
  rw [Function.update_self]
  refine h.congr fun j hj => Function.update_of_ne ?_ _ _
  rintro rfl
  exact hi hj

/-- The first node is taken out. -/
theorem pop (h : Linked next p (i :: l)) : Linked next (next i) l := h.2

/-- The node behind `k` is taken out: `k` points at what it pointed at. -/
theorem unlink [DecidableEq ι] {k : ι} {l₁ l₂ : List ι} (h : Linked next p (l₁ ++ k :: i :: l₂)) :
    Linked (Function.update next k (next i)) p (l₁ ++ k :: l₂) := by
  induction l₁ generalizing p with
  | nil =>
    have hnodup : (k :: i :: l₂).Nodup := nodup h
    obtain ⟨hp, -, hrest⟩ := h
    refine ⟨hp, ?_⟩
    rw [Function.update_self]
    refine hrest.congr fun j hj => Function.update_of_ne ?_ _ _
    rintro rfl
    exact (List.nodup_cons.mp hnodup).1 (List.mem_cons_of_mem i hj)
  | cons j l₁ ih =>
    have hjk : j ≠ k := by
      rintro rfl
      exact (List.nodup_cons.mp (nodup h)).1 (by simp)
    refine ⟨h.1, ?_⟩
    rw [Function.update_of_ne hjk]
    exact ih h.2

end Linked

end SinglyLinked
