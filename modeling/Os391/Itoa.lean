import Os391.Console
import Os391.Lib.Segment
import Mathlib.Data.Nat.Digits.Lemmas

/-!
# `itoa`

The digits are put into the buffer lowest first, a NUL behind them, and `strrev` turns
the string around in place. What is left is the numeral of the value, for every value and
every radix from 2 to 36, whatever the buffer held before.
-/

namespace Os391

open Bytes Segment

/-- The code of a character. -/
def char (c : Char) : Byte := BitVec.ofNat 8 c.toNat

namespace Itoa

/-- `lookup`. -/
def lookup : List Byte := List.map char
  ['0', '1', '2', '3', '4', '5', '6', '7', '8', '9', 'A', 'B', 'C', 'D', 'E', 'F', 'G', 'H', 'I',
    'J', 'K', 'L', 'M', 'N', 'O', 'P', 'Q', 'R', 'S', 'T', 'U', 'V', 'W', 'X', 'Y', 'Z']

/-- `lookup[i]`. -/
def digit (i : ℕ) : Byte := lookup.getD i 0

/-- `strlen`, as far as a 32-bit length goes: `len` bytes have been passed. -/
def strlenFrom (s : ℕ → Byte) : (fuel len : ℕ) → ℕ
  | 0, len => len
  | fuel + 1, len => if s len = 0 then len else strlenFrom s fuel (len + 1)

/-- `strlen`. -/
def strlen (s : ℕ → Byte) : ℕ := strlenFrom s (2 ^ 32) 0

/-- The string that starts at `s 0`. -/
def stringAt (s : ℕ → Byte) : List Byte := segment s 0 (strlen s)

/-- The loop of `strrev`, between `first` and `last`. -/
def strrevLoop : (fuel : ℕ) → (first last : Int) → (ℕ → Byte) → ℕ → Byte
  | 0, _, _, s => s
  | fuel + 1, first, last, s =>
    if first < last then
      let tmp := s last.toNat
      let s := Function.update s last.toNat (s first.toNat)
      let s := Function.update s first.toNat tmp
      strrevLoop fuel (first + 1) (last - 1) s
    else s

/-- `strrev`. The two ends meet before every byte has been visited. -/
def strrev (s : ℕ → Byte) : ℕ → Byte := strrevLoop (strlen s) 0 (strlen s - 1) s

/-- The digit loop of `itoa`, and `none` if it has not ended after `fuel` turns. The index
behind the last digit and the buffer. -/
def digitLoop (radix : Word) : (fuel : ℕ) → (newval : Word) → (newbuf : ℕ) → (ℕ → Byte) →
    Option (ℕ × (ℕ → Byte))
  | 0, newval, newbuf, buf => if newval = 0 then some (newbuf, buf) else none
  | fuel + 1, newval, newbuf, buf =>
    if newval = 0 then some (newbuf, buf)
    else
      let i := newval % radix
      digitLoop radix fuel (newval / radix) (newbuf + 1) (Function.update buf newbuf (digit i.toNat))

/-- `itoa`, on the memory from `buf` on. The value is a bound on the turns for every radix
from 2 on. -/
def itoa (value : Word) (buf : ℕ → Byte) (radix : Word) : Option (ℕ → Byte) :=
  if value = 0 then some (Function.update (Function.update buf 0 (char '0')) 1 0)
  else (digitLoop radix value.toNat value 0 buf).map fun t => strrev (Function.update t.2 t.1 0)

/-! ## Strings in a buffer -/

/-- The buffer with `t` written from `i` on. -/
def put (buf : ℕ → Byte) (i : ℕ) (t : List Byte) : ℕ → Byte := fun k => (stored i t).byte k (buf k)

theorem put_of_lt {buf : ℕ → Byte} {i k : ℕ} (t : List Byte) (h : k < i) : put buf i t k = buf k :=
  Patch.byte_of_none (stored_below t h) _

theorem put_add {buf : ℕ → Byte} {t : List Byte} {k : ℕ} (i : ℕ) (h : k < t.length) :
    put buf i t (i + k) = t[k] :=
  Patch.byte_of_some ((stored_at t k).trans (List.getElem?_eq_getElem h)) _

theorem put_of_le {buf : ℕ → Byte} {i k : ℕ} {t : List Byte} (h : i + t.length ≤ k) :
    put buf i t k = buf k :=
  Patch.byte_of_none (stored_beyond h) _

@[simp] theorem put_nil (buf : ℕ → Byte) (i : ℕ) : put buf i [] = buf := by
  funext k
  rcases Nat.lt_or_ge k i with h | h
  · exact put_of_lt [] h
  · exact put_of_le h

/-- First one byte, then what follows it. -/
theorem put_cons (buf : ℕ → Byte) (i : ℕ) (b : Byte) (t : List Byte) :
    put (Function.update buf i b) (i + 1) t = put buf i (b :: t) := by
  funext k
  rcases Nat.lt_trichotomy k i with hlt | rfl | hgt
  · rw [put_of_lt t (Nat.lt_succ_of_lt hlt), put_of_lt _ hlt, Function.update_of_ne hlt.ne]
  · rw [put_of_lt t (Nat.lt_succ_self k), Function.update_self]
    exact (put_add (t := b :: t) k (Nat.zero_lt_succ t.length)).symm
  · obtain ⟨j, rfl⟩ : ∃ j, k = i + 1 + j := ⟨k - (i + 1), by omega⟩
    rcases Nat.lt_or_ge j t.length with hj | hj
    · rw [put_add (i + 1) hj, Nat.add_assoc, Nat.add_comm 1 j]
      exact (put_add (t := b :: t) i (Nat.succ_lt_succ hj)).symm
    · have hout : i + (b :: t).length ≤ i + 1 + j := by
        rw [List.length_cons]
        omega
      rw [put_of_le (by omega), put_of_le hout, Function.update_of_ne hgt.ne']

/-- First what comes before, then the last byte. -/
theorem put_concat (buf : ℕ → Byte) (i : ℕ) (t : List Byte) (b : Byte) :
    Function.update (put buf i t) (i + t.length) b = put buf i (t ++ [b]) := by
  induction t generalizing buf i with
  | nil => rw [put_nil, List.nil_append, ← put_cons, put_nil, List.length_nil, Nat.add_zero]
  | cons c t ih =>
    rw [List.cons_append, ← put_cons, ← put_cons, ← ih, List.length_cons]
    rw [Nat.add_right_comm, Nat.add_assoc]

/-- The buffer starts with `t` and a NUL, and there is no NUL in `t`. -/
structure HoldsText (s : ℕ → Byte) (t : List Byte) : Prop where
  text : ∀ (k : ℕ) (hk : k < t.length), s k = t[k]
  ends : s t.length = 0
  nonzero : 0 ∉ t

namespace HoldsText

variable {s : ℕ → Byte} {t : List Byte}

theorem put (buf : ℕ → Byte) (h : 0 ∉ t) : HoldsText (put buf 0 (t ++ [0])) t := by
  refine ⟨fun k hk => ?_, ?_, h⟩
  · have hk' : k < (t ++ [(0 : Byte)]).length := by
      rw [List.length_append]
      omega
    have hput := @put_add buf _ _ 0 hk'
    rwa [Nat.zero_add, List.getElem_append_left hk] at hput
  · have hlast : t.length < (t ++ [(0 : Byte)]).length := by simp
    have hput := @put_add buf _ _ 0 hlast
    rwa [Nat.zero_add, List.getElem_concat_length rfl] at hput

theorem byte_ne_zero (h : HoldsText s t) {k : ℕ} (hk : k < t.length) : s k ≠ 0 := by
  rw [h.text k hk]
  exact fun hz => h.nonzero (hz ▸ List.getElem_mem hk)

theorem strlenFrom (h : HoldsText s t) {fuel len : ℕ} (hlen : len ≤ t.length)
    (hfuel : t.length < len + fuel) : strlenFrom s fuel len = t.length := by
  induction fuel generalizing len with
  | zero => omega
  | succ fuel ih =>
    rw [Itoa.strlenFrom]
    rcases Nat.lt_or_ge len t.length with hlt | hge
    · rw [if_neg (h.byte_ne_zero hlt)]
      exact ih hlt (by omega)
    · obtain rfl : len = t.length := by omega
      rw [if_pos h.ends]

theorem strlen (h : HoldsText s t) (hlen : t.length < 2 ^ 32) : strlen s = t.length :=
  h.strlenFrom (Nat.zero_le _) (by omega)

/-- What `puts` prints. -/
theorem stringAt (h : HoldsText s t) (hlen : t.length < 2 ^ 32) : stringAt s = t := by
  rw [Itoa.stringAt, h.strlen hlen]
  refine List.ext_getElem (length_segment _ _ _) fun k hk hk' => ?_
  rw [getElem_segment, Nat.zero_add, h.text k hk']

end HoldsText

/-! ## `strrev` -/

/-- The loop exchanges the bytes from `first` to `last` and no others. -/
theorem strrevLoop_eq {fuel first last : ℕ} (hfuel : last ≤ first + fuel) (s : ℕ → Byte) (k : ℕ) :
    strrevLoop fuel first last s k =
      if first ≤ k ∧ k ≤ last then s (first + last - k) else s k := by
  induction fuel generalizing first last s with
  | zero =>
    rw [strrevLoop]
    split_ifs with hk
    · rw [show first + last - k = k by omega]
    · rfl
  | succ fuel ih =>
    rw [strrevLoop]
    by_cases hlt : first < last
    · have hlast : (last : Int) - 1 = ((last - 1 : ℕ) : Int) := by omega
      have hfirst : (first : Int) + 1 = ((first + 1 : ℕ) : Int) := by omega
      rw [if_pos (by omega), hlast, hfirst, ih (by omega), Int.toNat_natCast, Int.toNat_natCast]
      by_cases hinner : first + 1 ≤ k ∧ k ≤ last - 1
      · -- strictly inside, the two stores are not seen
        rw [if_pos hinner, if_pos (by omega), Function.update_of_ne (by omega),
          Function.update_of_ne (by omega)]
        congr 1
        omega
      · rw [if_neg hinner]
        rcases eq_or_ne k first with rfl | hkf
        · rw [Function.update_self, if_pos (by omega), Nat.add_sub_cancel_left]
        · rw [Function.update_of_ne hkf]
          rcases eq_or_ne k last with rfl | hkl
          · rw [Function.update_self, if_pos (by omega), Nat.add_sub_cancel]
          · rw [Function.update_of_ne hkl, if_neg (by omega)]
    · rw [if_neg (by omega)]
      split_ifs with hk
      · rw [show first + last - k = k by omega]
      · rfl

theorem HoldsText.strrev {s : ℕ → Byte} {t : List Byte} (h : HoldsText s t)
    (hlen : t.length < 2 ^ 32) (hne : t ≠ []) : HoldsText (strrev s) t.reverse := by
  have hpos : 0 < t.length := List.length_pos_of_ne_nil hne
  have hloop (k : ℕ) : Itoa.strrev s k =
      if 0 ≤ k ∧ k ≤ t.length - 1 then s (0 + (t.length - 1) - k) else s k := by
    have hlast : (t.length : Int) - 1 = ((t.length - 1 : ℕ) : Int) := by omega
    rw [Itoa.strrev, h.strlen hlen, hlast]
    exact strrevLoop_eq (by omega) s k
  refine ⟨fun k hk => ?_, ?_, ?_⟩
  · rw [List.length_reverse] at hk
    rw [hloop, if_pos (by omega), List.getElem_reverse, h.text _ (by omega)]
    congr 1
    omega
  · rw [List.length_reverse, hloop, if_neg (by omega)]
    exact h.ends
  · rw [List.mem_reverse]
    exact h.nonzero

/-! ## Numerals -/

/-- `t` consists of digits of base `r`, most significant first, and its value is `v`. -/
def Denotes (r v : ℕ) (t : List Byte) : Prop :=
  ∃ ds : List ℕ, t = ds.map digit ∧ (∀ d ∈ ds, d < r) ∧ Nat.ofDigits r ds.reverse = v

/-- There is a digit, and the first one is 0 only in the numeral of 0. -/
structure IsNumeral (r v : ℕ) (t : List Byte) : Prop where
  denotes : Denotes r v t
  nonempty : t ≠ []
  leading : t.head? = some (char '0') → t = [char '0']

/-- The numeral. -/
def numeral (r v : ℕ) : List Byte :=
  if v = 0 then [char '0'] else ((Nat.digits r v).map digit).reverse

theorem digit_ne_zero {d : ℕ} (hd : d < 36) : digit d ≠ 0 := by
  revert d
  decide

theorem digit_eq_zero_iff {d : ℕ} (hd : d < 36) : digit d = char '0' ↔ d = 0 := by
  revert d
  decide

theorem isNumeral_numeral {r : ℕ} (hr : 2 ≤ r) (hr' : r ≤ 36) (v : ℕ) :
    IsNumeral r v (numeral r v) := by
  rw [numeral]
  split_ifs with hv
  · subst hv
    refine ⟨⟨[0], rfl, ?_, rfl⟩, List.cons_ne_nil _ _, fun _ => rfl⟩
    intro d hd
    rw [List.mem_singleton.mp hd]
    omega
  · have hdigits : ∀ d ∈ Nat.digits r v, d < r := fun d hd => Nat.digits_lt_base hr hd
    have hne : Nat.digits r v ≠ [] := Nat.digits_ne_nil_iff_ne_zero.mpr hv
    refine ⟨⟨(Nat.digits r v).reverse, (List.map_reverse).symm, ?_, ?_⟩, ?_, ?_⟩
    · exact fun d hd => hdigits d (List.mem_reverse.mp hd)
    · rw [List.reverse_reverse, Nat.ofDigits_digits]
    · simpa using hne
    · -- the most significant digit is not 0
      intro hhead
      rw [List.head?_reverse, List.getLast?_map, List.getLast?_eq_some_getLast hne, Option.map_some,
        Option.some.injEq] at hhead
      have hlast := hdigits _ (List.getLast_mem hne)
      exact absurd ((digit_eq_zero_iff (by omega)).mp hhead) (Nat.getLast_digit_ne_zero r hv)

/-- The digit loop ends, and has written the digits lowest first. -/
theorem digitLoop_eq {r : ℕ} (hr : 2 ≤ r) {radix : Word} (hradix : radix.toNat = r) {fuel : ℕ}
    {newval : Word} (hfuel : newval.toNat ≤ fuel) (i : ℕ) (buf : ℕ → Byte) :
    digitLoop radix fuel newval i buf =
      some (i + ((Nat.digits r newval.toNat).map digit).length,
        put buf i ((Nat.digits r newval.toNat).map digit)) := by
  have hzero : (0 : Word).toNat = 0 := rfl
  induction fuel generalizing newval i buf with
  | zero =>
    obtain rfl : newval = 0 := BitVec.eq_of_toNat_eq (by omega)
    rw [digitLoop, if_pos rfl, hzero, Nat.digits_zero, List.map_nil, put_nil]
    rfl
  | succ fuel ih =>
    rw [digitLoop]
    split_ifs with hv
    · rw [hv, hzero, Nat.digits_zero, List.map_nil, put_nil]
      rfl
    · have hpos : 0 < newval.toNat :=
        Nat.pos_of_ne_zero fun hz => hv (BitVec.eq_of_toNat_eq (hz.trans hzero.symm))
      have hdiv : (newval / radix).toNat = newval.toNat / r := by
        rw [BitVec.toNat_udiv, hradix]
      have hmod : (newval % radix).toNat = newval.toNat % r := by
        rw [BitVec.toNat_umod, hradix]
      have hless := Nat.div_lt_self hpos hr
      dsimp only
      rw [ih (by omega), hdiv, hmod, put_cons, Nat.digits_def' hr hpos, List.map_cons,
        List.length_cons, Nat.add_assoc, Nat.add_comm 1]

/-- A value below `r ^ k` has a numeral of at most `k` digits. -/
theorem length_numeral_le {r v k : ℕ} (hr : 2 ≤ r) (hk : 1 ≤ k) (hv : v < r ^ k) :
    (numeral r v).length ≤ k := by
  rw [numeral]
  split_ifs
  · exact hk
  · rw [List.length_reverse, List.length_map]
    exact (Nat.digits_length_le_iff hr _).mpr hv

/-- A 32-bit value has at most 32 digits. -/
theorem length_numeral_word_le {r : ℕ} (hr : 2 ≤ r) (value : Word) :
    (numeral r value.toNat).length ≤ 32 :=
  length_numeral_le hr (by decide)
    (Nat.lt_of_lt_of_le value.isLt (Nat.pow_le_pow_left hr 32))

/-- `itoa` leaves the numeral in the buffer, whatever was there. -/
theorem itoa_eq {radix : Word} (hr : 2 ≤ radix.toNat) (hr' : radix.toNat ≤ 36) (value : Word)
    (buf : ℕ → Byte) :
    ∃ b, itoa value buf radix = some b ∧ HoldsText b (numeral radix.toNat value.toNat) := by
  rw [itoa, numeral]
  by_cases hv : value = 0
  · have hput : Function.update (Function.update buf 0 (char '0')) 1 0 =
        put buf 0 ([char '0'] ++ [0]) := by
      rw [List.singleton_append, ← put_cons, ← put_cons, put_nil]
    have hzero : value.toNat = 0 := congrArg BitVec.toNat hv
    rw [if_pos hv, if_pos hzero, hput]
    exact ⟨_, rfl, HoldsText.put buf (by decide)⟩
  · have hne : value.toNat ≠ 0 := fun hz => hv (BitVec.eq_of_toNat_eq hz)
    have hnonzero : 0 ∉ (Nat.digits radix.toNat value.toNat).map digit := by
      intro hmem
      obtain ⟨d, hd, hzero⟩ := List.mem_map.mp hmem
      have hlt : d < radix.toNat := Nat.digits_lt_base hr hd
      exact digit_ne_zero (by omega) hzero
    have hlen := length_numeral_word_le hr value
    rw [numeral, if_neg hne, List.length_reverse] at hlen
    rw [if_neg hv, if_neg hne, digitLoop_eq hr rfl le_rfl, Option.map_some]
    refine ⟨_, rfl, ?_⟩
    dsimp only
    rw [put_concat]
    refine (HoldsText.put buf hnonzero).strrev (by omega) ?_
    rw [ne_eq, List.map_eq_nil_iff]
    exact Nat.digits_ne_nil_iff_ne_zero.mpr hne

example : (itoa 255 (fun _ => 0) 16).map (fun b => [b 0, b 1, b 2]) =
    some [char 'F', char 'F', 0] := by decide

end Itoa

end Os391
