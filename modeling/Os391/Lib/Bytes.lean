import Mathlib.Algebra.Ring.Nat
import Mathlib.Tactic.SplitIfs

/-!
# Bytes, little-endian words, and overwritten memory

A 32-bit word seen as four bytes in little-endian order, and what becomes of a
word when some of the bytes of the memory it lies in are overwritten. `Patch`
says which addresses are overwritten and with what; a string stored at `base`
is the patch `stored base bs`. A word no byte of which is patched is unchanged.
-/

namespace Bytes

/-- A byte. -/
abbrev Byte : Type := BitVec 8

/-- A 32-bit word. -/
abbrev Word : Type := BitVec 32

/-- The word whose bytes, lowest address first, are `b 0, b 1, b 2, b 3`. -/
def ofBytes (b : ℕ → Byte) : Word := b 3 ++ b 2 ++ b 1 ++ b 0

/-- The byte of `x` at byte offset `k`. -/
def byteOf (x : Word) (k : ℕ) : Byte := x.extractLsb' (8 * k) 8

/-- A word is put together from its own bytes. -/
theorem ofBytes_byteOf (x : Word) : ofBytes (byteOf x) = x := by
  apply BitVec.eq_of_getLsbD_eq
  intro i hi
  simp only [ofBytes, byteOf, BitVec.getLsbD_append, BitVec.getLsbD_extractLsb']
  split_ifs with h₀ h₁ h₂
  · simp [h₀]
  · simp [show i - 8 < 8 by omega, show 8 + (i - 8) = i by omega]
  · simp [show i - 8 - 8 < 8 by omega, show 16 + (i - 8 - 8) = i by omega]
  · simp [show i - 8 - 8 - 8 < 8 by omega, show 24 + (i - 8 - 8 - 8) = i by omega]

/-- The bytes a word is put together from. -/
theorem byteOf_ofBytes (b : ℕ → Byte) {k : ℕ} (hk : k < 4) : byteOf (ofBytes b) k = b k := by
  apply BitVec.eq_of_getLsbD_eq
  intro i hi
  simp only [ofBytes, byteOf, BitVec.getLsbD_append, BitVec.getLsbD_extractLsb', hi, decide_true,
    Bool.true_and]
  obtain rfl | rfl | rfl | rfl : k = 0 ∨ k = 1 ∨ k = 2 ∨ k = 3 := by omega
  · simp [hi]
  · simp [hi, show ¬ 8 + i < 8 by omega]
  · simp [hi, show ¬ 16 + i < 8 by omega, show ¬ 16 + i - 8 < 8 by omega,
      show 16 + i - 8 - 8 = i by omega]
  · simp [show ¬ 24 + i < 8 by omega, show ¬ 24 + i - 8 < 8 by omega,
      show ¬ 24 + i - 8 - 8 < 8 by omega, show 24 + i - 8 - 8 - 8 = i by omega]

/-- Only the first four bytes matter. -/
theorem ofBytes_congr {b c : ℕ → Byte} (h : ∀ k < 4, b k = c k) : ofBytes b = ofBytes c := by
  rw [ofBytes, ofBytes, h 0 (by omega), h 1 (by omega), h 2 (by omega), h 3 (by omega)]

/-- Words with the same bytes are the same. -/
theorem word_ext {x y : Word} (h : ∀ k < 4, byteOf x k = byteOf y k) : x = y := by
  rw [← ofBytes_byteOf x, ofBytes_congr h, ofBytes_byteOf]

/-- The address `k` bytes behind `base`, around the end of memory if need be. -/
def addressAt (base : Word) (k : ℕ) : Word := base + BitVec.ofNat 32 k

@[simp] theorem addressAt_zero (base : Word) : addressAt base 0 = base := BitVec.add_zero base

theorem addressAt_addressAt (base : Word) (j k : ℕ) :
    addressAt (addressAt base j) k = addressAt base (j + k) := by
  rw [addressAt, addressAt, addressAt, BitVec.ofNat_add, BitVec.add_assoc]

/-- The offset may be a word. -/
theorem addressAt_toNat (base x : Word) : addressAt base x.toNat = base + x := by
  rw [addressAt, BitVec.ofNat_toNat, BitVec.setWidth_eq]

theorem addressAt_inj {base : Word} {j k : ℕ} (hj : j < 2 ^ 32) (hk : k < 2 ^ 32)
    (h : addressAt base j = addressAt base k) : j = k := by
  have hnat := congrArg BitVec.toNat ((BitVec.add_right_inj base).mp h)
  rwa [BitVec.toNat_ofNat, BitVec.toNat_ofNat, Nat.mod_eq_of_lt hj, Nat.mod_eq_of_lt hk] at hnat

/-- Overwritten memory: the new byte of each address that was written. -/
abbrev Patch : Type := ℕ → Option Byte

/-- The bytes `bs` written from address `base` on. -/
def stored (base : ℕ) (bs : List Byte) : Patch :=
  fun a => if base ≤ a then bs[a - base]? else none

theorem stored_below {base a : ℕ} (bs : List Byte) (h : a < base) : stored base bs a = none :=
  if_neg (by omega)

theorem stored_beyond {base a : ℕ} {bs : List Byte} (h : base + bs.length ≤ a) :
    stored base bs a = none := by
  rw [stored]
  split
  · exact List.getElem?_eq_none (by omega)
  · rfl

theorem stored_at {base : ℕ} (bs : List Byte) (k : ℕ) : stored base bs (base + k) = bs[k]? := by
  simp [stored]

namespace Patch

/-- The byte at address `a` after the patch, where it was `old` before. -/
def byte (p : Patch) (a : ℕ) (old : Byte) : Byte := (p a).getD old

/-- The word at address `a` after the patch, where it was `old` before. -/
def word (p : Patch) (a : ℕ) (old : Word) : Word :=
  ofBytes fun k => p.byte (a + k) (byteOf old k)

theorem byte_of_none {p : Patch} {a : ℕ} (h : p a = none) (old : Byte) : p.byte a old = old := by
  rw [byte, h, Option.getD_none]

theorem byte_of_some {p : Patch} {a : ℕ} {b : Byte} (h : p a = some b) (old : Byte) :
    p.byte a old = b := by
  rw [byte, h, Option.getD_some]

/-- A byte of a word after the patch. -/
theorem byteOf_word (p : Patch) (a : ℕ) (old : Word) {k : ℕ} (hk : k < 4) :
    byteOf (p.word a old) k = p.byte (a + k) (byteOf old k) := by
  rw [word, byteOf_ofBytes _ hk]

/-- A word none of whose bytes is written keeps its value. -/
theorem word_of_none {p : Patch} {a : ℕ} (h : ∀ k < 4, p (a + k) = none) (old : Word) :
    p.word a old = old := by
  rw [word, ofBytes_congr fun k hk => byte_of_none (h k hk) _, ofBytes_byteOf]

/-- A word all of whose bytes are written takes the written bytes. -/
theorem word_of_some {p : Patch} {a : ℕ} {b : ℕ → Byte} (h : ∀ k < 4, p (a + k) = some (b k))
    (old : Word) : p.word a old = ofBytes b := by
  rw [word, ofBytes_congr fun k hk => byte_of_some (h k hk) _]

end Patch

end Bytes
