import Mathlib.Data.Nat.Notation
import Mathlib.Data.List.Basic

/-!
# What holds along a run

A deterministic system takes a list of events. `Along f R s es` says that `R`
holds of each event in the state it meets. If, as long as an invariant holds, one
condition is equivalent to another one that restores the invariant, then along
every run the two are equivalent too. This turns an exact condition for one step
into an exact condition for runs.
-/

namespace Runs

universe u v

variable {σ : Type u} {ε : Type v}

/-- Each event meets a state in which `R` holds of it. -/
def Along (f : σ → ε → σ) (R : σ → ε → Prop) : σ → List ε → Prop
  | _, [] => True
  | s, e :: es => R s e ∧ Along f R (f s e) es

instance decidableAlong (f : σ → ε → σ) (R : σ → ε → Prop) [∀ s e, Decidable (R s e)] :
    ∀ (s : σ) (es : List ε), Decidable (Along f R s es)
  | _, [] => .isTrue trivial
  | s, e :: es =>
    @instDecidableAnd (R s e) (Along f R (f s e) es) _ (decidableAlong f R (f s e) es)

variable {f : σ → ε → σ} {P C : σ → ε → Prop} {I : σ → Prop}

/-- An exact condition for one step is exact for runs. -/
theorem along_iff (hexact : ∀ s e, I s → (P s e ↔ C s e))
    (hkeeps : ∀ s e, I s → C s e → I (f s e)) {s : σ} (hs : I s) (es : List ε) :
    Along f P s es ↔ Along f C s es := by
  induction es generalizing s with
  | nil => exact Iff.rfl
  | cons e es ih =>
    constructor
    · rintro ⟨hp, hrest⟩
      have hc := (hexact s e hs).mp hp
      exact ⟨hc, (ih (hkeeps s e hs hc)).mp hrest⟩
    · rintro ⟨hc, hrest⟩
      exact ⟨(hexact s e hs).mpr hc, (ih (hkeeps s e hs hc)).mpr hrest⟩

/-- A condition that keeps an invariant, and what the two imply together. -/
theorem Along.imp (himp : ∀ s e, I s → C s e → P s e)
    (hkeeps : ∀ s e, I s → C s e → I (f s e)) {s : σ} (hs : I s) {es : List ε}
    (h : Along f C s es) : Along f P s es := by
  induction es generalizing s with
  | nil => trivial
  | cons e es ih => exact ⟨himp s e hs h.1, ih (hkeeps s e hs h.1) h.2⟩

/-- Two conditions along one run. -/
theorem Along.and {s : σ} {es : List ε} (hp : Along f P s es) (hc : Along f C s es) :
    Along f (fun s e => P s e ∧ C s e) s es := by
  induction es generalizing s with
  | nil => trivial
  | cons e es ih => exact ⟨⟨hp.1, hc.1⟩, ih hp.2 hc.2⟩

/-- A run in two parts. -/
theorem along_append {s : σ} {es es' : List ε} :
    Along f C s (es ++ es') ↔ Along f C s es ∧ Along f C (es.foldl f s) es' := by
  induction es generalizing s with
  | nil => exact ⟨fun h => ⟨trivial, h⟩, fun h => h.2⟩
  | cons e es ih =>
    rw [List.cons_append, Along, ih, Along, and_assoc]
    rfl

/-- The invariant holds at the end of a run along which the condition holds. -/
theorem Along.invariant (hkeeps : ∀ s e, I s → C s e → I (f s e)) {s : σ} (hs : I s)
    {es : List ε} (h : Along f C s es) : I (es.foldl f s) := by
  induction es generalizing s with
  | nil => exact hs
  | cons e es ih => exact ih (hkeeps s e hs h.1) h.2

end Runs
