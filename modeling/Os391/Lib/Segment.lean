import Mathlib.Data.Nat.Notation

/-!
# Segments of a sequence

The `n` values of a sequence from position `p` on, and the stores that put them
at consecutive positions of a destination. Segments that meet concatenate, which
is what chunked and blocked copying rests on.
-/

namespace Segment

universe u

variable {α : Type u}

/-- The values `f p, f (p + 1), …`, `n` of them. -/
def segment (f : ℕ → α) (p n : ℕ) : List α := (List.range n).map fun j => f (p + j)

/-- The stores that place the segment at `dest, dest + 1, …`. -/
def fill (f : ℕ → α) (p dest n : ℕ) : List (ℕ × α) :=
  (List.range n).map fun j => (dest + j, f (p + j))

variable (f : ℕ → α)

@[simp] theorem fill_zero (p dest : ℕ) : fill f p dest 0 = [] := rfl

@[simp] theorem length_segment (p n : ℕ) : (segment f p n).length = n := by
  simp [segment]

@[simp] theorem getElem_segment {p n k : ℕ} (h : k < (segment f p n).length) :
    (segment f p n)[k] = f (p + k) := by
  simp [segment]

/-- The first value and the others. -/
theorem segment_succ (n : ℕ) :
    segment f 0 (n + 1) = f 0 :: segment (fun k => f (k + 1)) 0 n := by
  simp [segment, List.range_succ_eq_map]

/-- Two segments that meet. -/
theorem segment_add (p m n : ℕ) :
    segment f p (m + n) = segment f p m ++ segment f (p + m) n := by
  simp [segment, List.range_add, Nat.add_assoc]

/-- Two runs of stores that meet. -/
theorem fill_add (p dest m n : ℕ) :
    fill f p dest (m + n) = fill f p dest m ++ fill f (p + m) (dest + m) n := by
  simp [fill, List.range_add, Nat.add_assoc]

/-- The stored values are the segment. -/
theorem map_snd_fill (p dest n : ℕ) : (fill f p dest n).map Prod.snd = segment f p n := by
  simp [fill, segment]

/-- The stores go to the `n` positions from `dest` on. -/
theorem mem_fill {p dest n : ℕ} {x : ℕ × α} :
    x ∈ fill f p dest n ↔ dest ≤ x.1 ∧ x.1 < dest + n ∧ x.2 = f (p + (x.1 - dest)) := by
  constructor
  · intro hx
    obtain ⟨j, hj, rfl⟩ := List.mem_map.mp hx
    have hlt := List.mem_range.mp hj
    exact ⟨by simp, by simpa using hlt, by simp⟩
  · rintro ⟨hle, hlt, hval⟩
    refine List.mem_map.mpr ⟨x.1 - dest, List.mem_range.mpr (by omega), ?_⟩
    rw [← hval, Nat.add_sub_cancel' hle]

/-- Stores of equal values. -/
theorem fill_congr {f g : ℕ → α} {p q dest n : ℕ} (h : ∀ j < n, f (p + j) = g (q + j)) :
    fill f p dest n = fill g q dest n :=
  List.map_congr_left fun j hj => by rw [h j (List.mem_range.mp hj)]

/-! ## A list in a sequence -/

/-- The sequence has the list from position `p` on. -/
def Holds (f : ℕ → α) (p : ℕ) (l : List α) : Prop := ∀ k (hk : k < l.length), f (p + k) = l[k]

section holds

variable {f} {g : ℕ → α} {p n : ℕ} {l l' : List α}

theorem holds_nil : Holds f p [] := fun k hk => absurd hk (Nat.not_lt_zero k)

theorem holds_append_iff : Holds f p (l ++ l') ↔ Holds f p l ∧ Holds f (p + l.length) l' := by
  constructor
  · intro h
    refine ⟨fun k hk => ?_, fun k hk => ?_⟩
    · have happend := h k (by rw [List.length_append]; omega)
      rwa [List.getElem_append_left hk] at happend
    · have happend := h (l.length + k) (by rw [List.length_append]; omega)
      rw [List.getElem_append_right (Nat.le_add_right _ _)] at happend
      simpa [Nat.add_assoc] using happend
  · rintro ⟨h, h'⟩ k hk
    rcases Nat.lt_or_ge k l.length with hlt | hge
    · rw [List.getElem_append_left hlt, h k hlt]
    · rw [List.length_append] at hk
      rw [List.getElem_append_right hge, ← h' (k - l.length) (by omega)]
      congr 1
      omega

theorem holds_cons_iff {x : α} : Holds f p (x :: l) ↔ f p = x ∧ Holds f (p + 1) l := by
  rw [← List.singleton_append, holds_append_iff]
  refine and_congr_left' ⟨fun h => h 0 Nat.zero_lt_one, fun h k hk => ?_⟩
  obtain rfl : k = 0 := Nat.lt_one_iff.mp hk
  exact h

/-- A sequence that is the same there. -/
theorem Holds.congr (h : Holds f p l) (heq : ∀ k, p ≤ k → k < p + l.length → g k = f k) :
    Holds g p l :=
  fun k hk => (heq (p + k) (Nat.le_add_right p k) (Nat.add_lt_add_left hk p)).trans (h k hk)

theorem Holds.take (h : Holds f p l) (n : ℕ) : Holds f p (l.take n) := by
  rw [← List.take_append_drop n l, holds_append_iff] at h
  exact h.1

end holds

end Segment
