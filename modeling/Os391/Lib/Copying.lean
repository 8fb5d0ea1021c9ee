import Mathlib.Data.Nat.Notation
import Mathlib.Data.List.Basic

/-!
# Loops of stores

A loop whose turn `k` stores one value at the place `d k` of some state, seen
through a function `get` that reads places. If the places are different and no
turn reads what an earlier one has stored, the loop leaves at `d k` what turn `k`
would have stored in the original state, and every other place as it was. Copying
upwards inside one array is such a loop, and so is filling a range.
-/

namespace Copying

universe u v w

variable {σ : Type u} {ι : Type v} {β : Type w} {get : σ → ι → β} {step : σ → ℕ → σ}

/-- The state after the first `n` turns. -/
@[irreducible] def loop (step : σ → ℕ → σ) (n : ℕ) (s : σ) : σ := (List.range n).foldl step s

@[simp] theorem loop_zero (s : σ) : loop step 0 s = s := by
  rw [loop]
  rfl

theorem loop_succ (n : ℕ) (s : σ) : loop step (n + 1) s = step (loop step n s) n := by
  rw [loop, loop, List.range_succ, List.foldl_append]
  rfl

/-- What every turn keeps, the loop keeps. -/
theorem loop_induction {P : σ → Prop} {n : ℕ} (hstep : ∀ s, ∀ k < n, P s → P (step s k)) {s : σ}
    (hs : P s) : P (loop step n s) := by
  induction n with
  | zero =>
    rw [loop_zero]
    exact hs
  | succ n ih =>
    rw [loop_succ]
    exact hstep _ n (Nat.lt_succ_self n) (ih fun s k hk => hstep s k (Nat.lt_succ_of_lt hk))

/-- Each of the first `n` turns stores `val k s` at `d k` and nothing anywhere else. -/
structure StoresAt (get : σ → ι → β) (step : σ → ℕ → σ) (d : ℕ → ι) (val : ℕ → σ → β) (n : ℕ) :
    Prop where
  self : ∀ s, ∀ k < n, get (step s k) (d k) = val k s
  other : ∀ s, ∀ k < n, ∀ i, i ≠ d k → get (step s k) i = get s i

namespace StoresAt

variable {d : ℕ → ι} {val : ℕ → σ → β} {n : ℕ}

theorem mono (h : StoresAt get step d val n) {m : ℕ} (hm : m ≤ n) : StoresAt get step d val m :=
  ⟨fun s k hk => h.self s k (Nat.lt_of_lt_of_le hk hm),
    fun s k hk => h.other s k (Nat.lt_of_lt_of_le hk hm)⟩

/-- Places that no turn stores at are left alone. -/
theorem loop_other (h : StoresAt get step d val n) {i : ι} (hi : ∀ k < n, i ≠ d k) (s : σ) :
    get (loop step n s) i = get s i := by
  induction n with
  | zero => rw [loop_zero]
  | succ n ih =>
    rw [loop_succ, h.other _ n (Nat.lt_succ_self n) i (hi n (Nat.lt_succ_self n))]
    exact ih (h.mono (Nat.le_succ n)) fun k hk => hi k (Nat.lt_succ_of_lt hk)

/-- The place of turn `k` holds what the turn stores in the original state. -/
theorem loop_self (h : StoresAt get step d val n) {s : σ}
    (hinj : ∀ j k, j < k → k < n → d j ≠ d k)
    (hsrc : ∀ k < n, ∀ t, (∀ i, (∀ j < k, i ≠ d j) → get t i = get s i) → val k t = val k s)
    {k : ℕ} (hk : k < n) : get (loop step n s) (d k) = val k s := by
  induction n with
  | zero => exact absurd hk (Nat.not_lt_zero k)
  | succ n ih =>
    have hn := h.mono (Nat.le_succ n)
    rw [loop_succ]
    rcases Nat.lt_succ_iff_lt_or_eq.mp hk with hlt | rfl
    · -- a later turn stores elsewhere
      rw [h.other _ n (Nat.lt_succ_self n) (d k) (hinj k n hlt (Nat.lt_succ_self n))]
      exact ih hn (fun j k hjk hkn => hinj j k hjk (Nat.lt_succ_of_lt hkn))
        (fun k hkn => hsrc k (Nat.lt_succ_of_lt hkn)) hlt
    · rw [h.self _ k hk]
      exact hsrc k hk _ fun i hi => hn.loop_other hi s

/-- The place of turn `k` holds what the turn has stored, in the state it has found. -/
theorem loop_at (h : StoresAt get step d val n) {s : σ} (hinj : ∀ j k, j < k → k < n → d j ≠ d k)
    {k : ℕ} (hk : k < n) : get (loop step n s) (d k) = val k (loop step k s) := by
  induction n with
  | zero => exact absurd hk (Nat.not_lt_zero k)
  | succ n ih =>
    rw [loop_succ]
    rcases Nat.lt_succ_iff_lt_or_eq.mp hk with hlt | rfl
    · rw [h.other _ n (Nat.lt_succ_self n) (d k) (hinj k n hlt (Nat.lt_succ_self n))]
      exact ih (h.mono (Nat.le_succ n)) (fun j k hjk hkn => hinj j k hjk (Nat.lt_succ_of_lt hkn)) hlt
    · exact h.self _ k hk

end StoresAt

/-- A loop over different places that changes each of them by itself. -/
theorem foldl_update {γ : Type w} [DecidableEq ι] (key : γ → ι) (g : γ → β → β) {xs : List γ}
    (hdiff : (xs.map key).Nodup) (f : ι → β) (i : ι) :
    xs.foldl (fun f x => Function.update f (key x) (g x (f (key x)))) f i =
      (xs.find? fun x => decide (key x = i)).elim (f i) fun x => g x (f i) := by
  induction xs generalizing f with
  | nil => rfl
  | cons x xs ih =>
    rw [List.map_cons, List.nodup_cons] at hdiff
    rw [List.foldl_cons, ih hdiff.2]
    by_cases hi : key x = i
    · subst hi
      have hlater : (xs.find? fun y => decide (key y = key x)) = none := by
        refine List.find?_eq_none.mpr fun y hy heq => hdiff.1 ?_
        exact List.mem_map.mpr ⟨y, hy, of_decide_eq_true heq⟩
      have hfirst : ((x :: xs).find? fun y => decide (key y = key x)) = some x :=
        List.find?_cons_of_pos (decide_eq_true rfl)
      rw [hlater, hfirst]
      exact Function.update_self _ _ _
    · rw [List.find?_cons_of_neg (by simpa using hi), Function.update_of_ne (Ne.symm hi)]

end Copying
