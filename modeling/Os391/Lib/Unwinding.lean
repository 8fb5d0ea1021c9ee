import Os391.Lib.Runs

/-!
# Two runs that an observer cannot tell apart

Some events of a run are hidden from an observer, in the state in which they occur. Two
runs have the same visible events if they are equal once the hidden ones are deleted.
What the observer sees is then the same in both, provided there is a relation between
states that a hidden event on either side keeps, and that a visible event on both sides
keeps while it shows the same thing.
-/

namespace Runs

universe u v w

variable {σ : Type u} {ε : Type v} {o : Type w} (f : σ → ε → σ)

/-- The events of a run that are not hidden. -/
def visible (H : σ → ε → Prop) [∀ s e, Decidable (H s e)] : σ → List ε → List ε
  | _, [] => []
  | s, e :: es => if H s e then visible H (f s e) es else e :: visible H (f s e) es

/-- What the observer sees along a run. -/
def observed (obs : σ → ε → Option o) : σ → List ε → List o
  | _, [] => []
  | s, e :: es => (obs s e).toList ++ observed obs (f s e) es

/-- A relation that hidden events keep and that visible events keep together. -/
structure Unwinds (H : σ → ε → Prop) (C : σ → ε → Prop) (obs : σ → ε → Option o)
    (R : σ → σ → Prop) : Prop where
  symm : ∀ {a b}, R a b → R b a
  hidden : ∀ {a b e}, R a b → H a e → C a e → R (f a e) b
  unseen : ∀ {a e}, H a e → obs a e = none
  both : ∀ {a b e}, R a b → ¬ H a e → ¬ H b e → C a e → C b e → R (f a e) (f b e)
  same : ∀ {a b e}, R a b → ¬ H a e → ¬ H b e → C a e → C b e → obs a e = obs b e

variable {f} {H C : σ → ε → Prop} {obs : σ → ε → Option o} {R : σ → σ → Prop}

/-- A hidden event shows nothing. -/
theorem Unwinds.observed_hidden (U : Unwinds f H C obs R) {s : σ} {e : ε} (h : H s e)
    (es : List ε) : observed f obs s (e :: es) = observed f obs (f s e) es := by
  rw [observed, U.unseen h]
  rfl

variable [∀ s e, Decidable (H s e)]

theorem visible_hidden {s : σ} {e : ε} (h : H s e) (es : List ε) :
    visible f H s (e :: es) = visible f H (f s e) es := if_pos h

theorem visible_seen {s : σ} {e : ε} (h : ¬ H s e) (es : List ε) :
    visible f H s (e :: es) = e :: visible f H (f s e) es := if_neg h

/-- Related states, and two runs with the same visible events: the observer sees the same. -/
theorem Unwinds.observed_eq (U : Unwinds f H C obs R) {a b : σ} {es es' : List ε} (hR : R a b)
    (ha : Along f C a es) (hb : Along f C b es') (hvis : visible f H a es = visible f H b es') :
    observed f obs a es = observed f obs b es' := by
  induction es generalizing a b es' with
  | nil =>
    -- only hidden events are left of the second run
    induction es' generalizing b with
    | nil => rfl
    | cons e es' ih =>
      by_cases he : H b e
      · rw [U.observed_hidden he]
        rw [visible_hidden he] at hvis
        exact ih (U.symm (U.hidden (U.symm hR) he hb.1)) hb.2 hvis
      · rw [visible_seen he] at hvis
        cases hvis
  | cons e es ih =>
    by_cases he : H a e
    · rw [U.observed_hidden he]
      rw [visible_hidden he] at hvis
      exact ih (U.hidden hR he ha.1) ha.2 hb hvis
    · rw [visible_seen he] at hvis
      -- the second run gets to the same event through hidden ones
      induction es' generalizing b with
      | nil => cases hvis
      | cons e' es' ih' =>
        by_cases he' : H b e'
        · rw [U.observed_hidden he']
          rw [visible_hidden he'] at hvis
          exact ih' (U.symm (U.hidden (U.symm hR) he' hb.1)) hb.2 hvis
        · rw [visible_seen he'] at hvis
          obtain ⟨rfl, hrest⟩ := List.cons.inj hvis
          rw [observed, observed, U.same hR he he' ha.1 hb.1,
            ih (U.both hR he he' ha.1 hb.1) ha.2 hb.2 hrest]

end Runs
