import Mathlib.Algebra.Ring.Nat
import Mathlib.Dynamics.PeriodicPts.Defs

/-!
# A light that goes on and off

The light is on for `p` ticks and off for `q` ticks, in turn. Its state is whether it is
on and how many ticks are left until it changes. `iterate_tick_start` says when it is on.
-/

namespace Alternating

variable {p q : ℕ} {s : Bool × ℕ}

/-- One tick. With one tick left the light changes. -/
def tick (p q : ℕ) (s : Bool × ℕ) : Bool × ℕ :=
  if 1 < s.2 then (s.1, s.2 - 1) else (!s.1, if s.1 then q else p)

/-- Before the change. -/
theorem iterate_tick_of_lt {k : ℕ} (h : k < s.2) : (tick p q)^[k] s = (s.1, s.2 - k) := by
  induction k with
  | zero => rfl
  | succ k ih =>
    rw [Function.iterate_succ_apply', ih (by omega), tick, if_pos (by dsimp only; omega)]
    rw [Nat.sub_sub]

/-- The change. -/
theorem iterate_tick_self (h : 0 < s.2) :
    (tick p q)^[s.2] s = (!s.1, if s.1 then q else p) := by
  obtain ⟨k, hk⟩ := Nat.exists_eq_add_of_lt h
  rw [Nat.zero_add] at hk
  rw [hk, Function.iterate_succ_apply', iterate_tick_of_lt (by omega), tick,
    if_neg (by dsimp only; omega)]

/-- A light that has just gone on does so again after `p + q` ticks. -/
theorem isPeriodicPt_tick (hp : 0 < p) (hq : 0 < q) :
    Function.IsPeriodicPt (tick p q) (p + q) (true, p) := by
  have hon : (tick p q)^[p] (true, p) = (false, q) := iterate_tick_self (s := (true, p)) hp
  have hoff : (tick p q)^[q] (false, q) = (true, p) := iterate_tick_self (s := (false, q)) hq
  rw [Function.IsPeriodicPt, Function.IsFixedPt, Nat.add_comm, Function.iterate_add_apply, hon,
    hoff]

/-- `k` ticks after it has gone on. -/
theorem iterate_tick_start (hp : 0 < p) (hq : 0 < q) (k : ℕ) :
    (tick p q)^[k] (true, p) =
      if k % (p + q) < p then (true, p - k % (p + q)) else (false, p + q - k % (p + q)) := by
  have hlt : k % (p + q) < p + q := Nat.mod_lt k (by omega)
  rw [← (isPeriodicPt_tick hp hq).iterate_mod_apply k]
  generalize k % (p + q) = r at *
  split
  · next hr => exact iterate_tick_of_lt (s := (true, p)) hr
  · next hr =>
    have hon : (tick p q)^[p] (true, p) = (false, q) := iterate_tick_self (s := (true, p)) hp
    have hrest : (tick p q)^[r - p] (false, q) = (false, q - (r - p)) :=
      iterate_tick_of_lt (s := (false, q)) (by dsimp only; omega)
    obtain ⟨j, rfl⟩ := Nat.exists_eq_add_of_le (Nat.le_of_not_lt hr)
    rw [Nat.add_sub_cancel_left] at hrest
    rw [Nat.add_comm p j, Function.iterate_add_apply, hon, hrest, Nat.add_comm j p,
      Nat.add_sub_add_left]

end Alternating
