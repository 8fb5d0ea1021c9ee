import Mathlib.Algebra.Ring.Nat

/-!
# Bit-fields of a word

A C bit-field is a run of `len` consecutive bits of a `w`-bit word. `Field w`
carries the bound that keeps the run inside the word; `get` reads it and `set`
overwrites it, truncating the stored value the way an assignment to a C
bit-field does. The two laws are the usual ones: reading back the field just
written, and reading a field disjoint from the one written.
-/

namespace BitField

/-- A run of `len` bits starting at bit `lo`, inside a `w`-bit word. -/
structure Field (w : ℕ) where
  /-- the lowest bit of the field -/
  lo : ℕ
  /-- the number of bits -/
  len : ℕ
  /-- the field lies inside the word -/
  le : lo + len ≤ w

namespace Field

variable {w : ℕ}

/-- Two fields share no bit. -/
def Disjoint (f g : Field w) : Prop := f.lo + f.len ≤ g.lo ∨ g.lo + g.len ≤ f.lo

instance (f g : Field w) : Decidable (f.Disjoint g) :=
  inferInstanceAs (Decidable (_ ∨ _))

/-- The word whose set bits are exactly those of the field. -/
def mask (f : Field w) : BitVec w := (BitVec.allOnes f.len).setWidth w <<< f.lo

/-- The value of the field. -/
def get (f : Field w) (x : BitVec w) : BitVec f.len := x.extractLsb' f.lo f.len

/-- Store `v` in the field: only the low `len` bits of `v` fit. -/
def set (f : Field w) (v x : BitVec w) : BitVec w :=
  (x &&& ~~~f.mask) ||| ((v <<< f.lo) &&& f.mask)

theorem getLsbD_mask (f : Field w) (i : ℕ) :
    f.mask.getLsbD i = decide (f.lo ≤ i ∧ i < f.lo + f.len) := by
  have hle := f.le
  simp only [mask, BitVec.getLsbD_shiftLeft, BitVec.getLsbD_setWidth, BitVec.getLsbD_allOnes]
  rw [Bool.eq_iff_iff]
  simp only [Bool.and_eq_true, Bool.not_eq_true', decide_eq_true_eq, decide_eq_false_iff_not]
  omega

/-- Bit by bit, `set` takes the field's bits from the value and the rest from the word. -/
theorem getLsbD_set (f : Field w) (v x : BitVec w) (i : ℕ) :
    (f.set v x).getLsbD i =
      if f.lo ≤ i ∧ i < f.lo + f.len then v.getLsbD (i - f.lo) else x.getLsbD i := by
  have hle := f.le
  simp only [set, BitVec.getLsbD_or, BitVec.getLsbD_and, BitVec.getLsbD_not, getLsbD_mask,
    BitVec.getLsbD_shiftLeft]
  by_cases hin : f.lo ≤ i ∧ i < f.lo + f.len
  · have hlt : i < w := by omega
    simp [hin, hlt]
  · by_cases hlt : i < w
    · simp [hin, hlt]
    · simp [hin, BitVec.getLsbD_of_ge x i (by omega)]

/-- Reading the field just written gives the value, cut to the field's width. -/
theorem get_set_self (f : Field w) (v x : BitVec w) : f.get (f.set v x) = v.setWidth f.len := by
  apply BitVec.eq_of_getLsbD_eq
  intro i hi
  have hin : f.lo ≤ f.lo + i ∧ f.lo + i < f.lo + f.len := by omega
  simp [get, getLsbD_set, hi, hin]

/-- Writing one field leaves every field disjoint from it alone. -/
theorem get_set_of_disjoint {f g : Field w} (h : f.Disjoint g) (v x : BitVec w) :
    f.get (g.set v x) = f.get x := by
  apply BitVec.eq_of_getLsbD_eq
  intro i hi
  have hout : ¬ (g.lo ≤ f.lo + i ∧ f.lo + i < g.lo + g.len) := by
    rw [Disjoint] at h
    omega
  simp [get, getLsbD_set, hi, hout]

end Field

/-- The number that a word makes together with low bits cut out of another. -/
theorem toNat_append_setWidth {m w : ℕ} (n : ℕ) (b : BitVec m) (x : BitVec w) :
    (b ++ x.setWidth n).toNat = b.toNat * 2 ^ n + x.toNat % 2 ^ n := by
  have hlt : (x.setWidth n).toNat < 2 ^ n := (x.setWidth n).isLt
  rw [BitVec.toNat_append, ← Nat.shiftLeft_add_eq_or_of_lt hlt, Nat.shiftLeft_eq,
    BitVec.toNat_setWidth]

end BitField
