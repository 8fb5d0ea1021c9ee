import Os391.Printf

/-!
# What the conversions of `printf` print

`%u`, `%x` and `%d` print the numeral that `itoa` leaves in the buffer, `%d` with a sign in
front of it. For `%#x` the zeros and the digits are written to two parts of the buffer that
meet at index 8, and together they are eight digits.
-/

namespace Os391

open Bytes Segment Machines Itoa

namespace Itoa

/-- Some bytes in front of a string. -/
theorem HoldsText.pad {s : ℕ → Byte} {t : List Byte} (h : HoldsText s t) {b : Byte} (hb : b ≠ 0)
    (m : ℕ) :
    HoldsText (fun k => if k < m then b else s (k - m)) (List.replicate m b ++ t) := by
  refine ⟨fun k hk => ?_, ?_, ?_⟩
  · rw [List.length_append, List.length_replicate] at hk
    by_cases hkm : k < m
    · rw [if_pos hkm, List.getElem_append_left (by rwa [List.length_replicate]),
        List.getElem_replicate]
    · rw [if_neg hkm, List.getElem_append_right (by rw [List.length_replicate]; omega),
        h.text _ (by omega)]
      simp only [List.length_replicate]
  · rw [List.length_append, List.length_replicate, if_neg (by omega), Nat.add_sub_cancel_left]
    exact h.ends
  · intro hmem
    rcases List.mem_append.mp hmem with hzero | hzero
    · exact hb (List.eq_of_mem_replicate hzero).symm
    · exact h.nonzero hzero

/-- Zeros in front of a numeral leave its value. -/
theorem Denotes.pad {r v : ℕ} {t : List Byte} (h : Denotes r v t) (hr : 0 < r) (m : ℕ) :
    Denotes r v (List.replicate m (char '0') ++ t) := by
  obtain ⟨ds, rfl, hds, hvalue⟩ := h
  refine ⟨List.replicate m 0 ++ ds, ?_, fun d hd => ?_, ?_⟩
  · rw [List.map_append, List.map_replicate]
    rfl
  · rcases List.mem_append.mp hd with hzero | hd
    · exact (List.eq_of_mem_replicate hzero).symm ▸ hr
    · exact hds d hd
  · rw [List.reverse_append, List.reverse_replicate, Nat.ofDigits_append_replicate_zero, hvalue]

/-- The numeral of an integer: a minus sign in front of a negative one. -/
def IsSignedNumeral (v : Int) (t : List Byte) : Prop :=
  if v < 0 then ∃ t', t = char '-' :: t' ∧ IsNumeral 10 v.natAbs t' else IsNumeral 10 v.natAbs t

end Itoa

namespace Printf

/-- What a conversion finds in its buffer. -/
theorem conv_holdsText (value : Word) (buf : ℕ → Byte) {radix : Word} (hr : 2 ≤ radix.toNat)
    (hr' : radix.toNat ≤ 36) :
    HoldsText (conv value buf radix) (numeral radix.toNat value.toNat) := by
  obtain ⟨b, hb, hholds⟩ := itoa_eq hr hr' value buf
  rwa [conv, hb]

/-- `%u` and `%x`. -/
theorem stringAt_conv (value : Word) (buf : ℕ → Byte) {radix : Word} (hr : 2 ≤ radix.toNat)
    (hr' : radix.toNat ≤ 36) :
    IsNumeral radix.toNat value.toNat (stringAt (conv value buf radix)) := by
  have hlen := length_numeral_word_le hr value
  rw [(conv_holdsText value buf hr hr').stringAt (by omega)]
  exact isNumeral_numeral hr hr' value.toNat

/-- The negation of a negative value, the smallest one included, is its magnitude. -/
theorem toNat_neg_of_neg {value : Word} (h : value.toInt < 0) :
    (-value).toNat = value.toInt.natAbs := by
  have hlt := value.isLt
  rw [BitVec.toInt_eq_toNat_cond] at h ⊢
  rw [BitVec.toNat_neg]
  split_ifs at h ⊢
  · omega
  · omega

theorem toNat_of_nonneg {value : Word} (h : ¬ value.toInt < 0) :
    value.toNat = value.toInt.natAbs := by
  have hlt := value.isLt
  rw [BitVec.toInt_eq_toNat_cond] at h ⊢
  split_ifs at h ⊢
  · omega
  · omega

/-- `%d`. -/
theorem isSignedNumeral_signed (value : Word) (convBuf : ℕ → Byte) :
    IsSignedNumeral value.toInt (signed value convBuf) := by
  rw [IsSignedNumeral, signed]
  split_ifs with hneg
  · have hlen := length_numeral_word_le (by decide : 2 ≤ 10) (-value)
    have hholds := (@conv_holdsText (-value) (fun k => convBuf (1 + k)) 10
      (by decide) (by decide)).pad (by decide : char '-' ≠ 0) 1
    simp only [Nat.lt_one_iff] at hholds
    refine ⟨numeral 10 (-value).toNat, hholds.stringAt ?_, ?_⟩
    · change (char '-' :: numeral 10 (-value).toNat).length < 2 ^ 32
      rw [List.length_cons]
      omega
    · rw [← toNat_neg_of_neg hneg]
      exact isNumeral_numeral (by decide) (by decide) _
  · rw [← toNat_of_nonneg hneg]
    exact @stringAt_conv value convBuf 10 (by decide) (by decide)

/-- The padding loop. -/
theorem padLoop_eq {fuel i : ℕ} (hfuel : 8 ≤ i + fuel) (buf : ℕ → Byte) (k : ℕ) :
    padLoop fuel i buf k = if i ≤ k ∧ k < 8 then char '0' else buf k := by
  induction fuel generalizing i buf with
  | zero => rw [padLoop, if_neg (by omega)]
  | succ fuel ih =>
    rw [padLoop]
    by_cases hi : i < 8
    · rw [if_pos hi, ih (by omega)]
      rcases eq_or_ne k i with rfl | hk
      · rw [if_neg (by omega), Function.update_self, if_pos ⟨le_rfl, hi⟩]
      · rw [Function.update_of_ne hk]
        exact if_congr (by omega) rfl rfl
    · rw [if_neg hi, if_neg (by omega)]

/-- `%#x`: the zeros end where the digits begin. -/
theorem alternateHex_eq (value : Word) (convBuf : ℕ → Byte) : alternateHex value convBuf =
    List.replicate (8 - (numeral 16 value.toNat).length) (char '0') ++ numeral 16 value.toNat := by
  have hlen : (numeral 16 value.toNat).length ≤ 8 :=
    length_numeral_le (by decide) (by decide) value.isLt
  have hdigits := @conv_holdsText value (fun k => convBuf (8 + k)) 16 (by decide) (by decide)
  have hsixteen : (16 : Word).toNat = 16 := rfl
  rw [hsixteen] at hdigits
  have hstart := hdigits.strlen (by omega)
  have hholds := hdigits.pad (by decide : char '0' ≠ 0) (8 - (numeral 16 value.toNat).length)
  have hbuf (k : ℕ) : padLoop 8 (numeral 16 value.toNat).length
      (fun k => if k < 8 then convBuf k else conv value (fun k => convBuf (8 + k)) 16 (k - 8))
      ((numeral 16 value.toNat).length + k) =
      if k < 8 - (numeral 16 value.toNat).length then char '0'
      else conv value (fun k => convBuf (8 + k)) 16
        (k - (8 - (numeral 16 value.toNat).length)) := by
    rw [padLoop_eq (Nat.le_add_left _ _)]
    by_cases hk : k < 8 - (numeral 16 value.toNat).length
    · rw [if_pos (by omega), if_pos hk]
    · rw [if_neg (by omega), if_neg hk, if_neg (by omega)]
      congr 1
      omega
  rw [alternateHex, hstart]
  simp only [hbuf]
  refine hholds.stringAt ?_
  rw [List.length_append, List.length_replicate]
  omega

theorem alternateHex_digits (value : Word) (convBuf : ℕ → Byte) :
    (alternateHex value convBuf).length = 8 ∧
      Denotes 16 value.toNat (alternateHex value convBuf) := by
  have hlen : (numeral 16 value.toNat).length ≤ 8 :=
    length_numeral_le (by decide) (by decide) value.isLt
  rw [alternateHex_eq]
  refine ⟨?_, ?_⟩
  · rw [List.length_append, List.length_replicate]
    omega
  · exact (isNumeral_numeral (by decide) (by decide) _).denotes.pad (by decide) _

/-! ## Printing an argument -/

/-- If the bytes of the directive stand at the cursor, `printf` goes over them, takes one
argument and prints a string that is related to it by `P`. -/
def Prints (c : Call) (s : Printf) (directive : List Byte) (P : Word → List Byte → Prop) : Prop :=
  (∀ (k : ℕ) (hk : k < directive.length), c.format (s.buf + k) = directive[k]) →
    ∃ t, P (c.arg s.esp) t ∧ (step c)^[directive.length] s =
      { s with
        buf := s.buf + directive.length
        esp := s.esp + 1
        console := Console.puts t s.console }

section prints

variable {c : Call} {s : Printf}

theorem step_percent (hplace : s.place = .loop) (h : c.format s.buf = char '%') :
    step c s = { s with place := .directive false, buf := s.buf + 1 } := by
  have hzero : ¬ char '%' = 0 := by decide
  rw [step, hplace, h]
  dsimp only
  rw [if_neg hzero, if_pos rfl]

/-- The `#` of a directive. -/
theorem iterate_hashes {alternate : Bool} (hplace : s.place = .directive alternate) {k : ℕ}
    (h : ∀ j < k, c.format (s.buf + j) = char '#') :
    (step c)^[k] s =
      { s with place := .directive (alternate || decide (0 < k)), buf := s.buf + k } := by
  obtain ⟨place, buf, esp, console⟩ := s
  subst hplace
  induction k with
  | zero => simp
  | succ k ih =>
    have hhash := h k (Nat.lt_succ_self k)
    dsimp only at hhash
    rw [Function.iterate_succ_apply', ih fun j hj => h j (Nat.lt_succ_of_lt hj), step]
    dsimp only
    rw [if_pos hhash, decide_eq_true (Nat.zero_lt_succ k), Bool.or_true]
    rfl

/-- A conversion that takes an argument, with any number of `#` in front of it. -/
theorem prints (hplace : s.place = .loop) (k : ℕ) {ch : Byte} (hch : ch ≠ char '#')
    {string : Word → List Byte}
    (hconv : ∀ u : Printf, c.format u.buf = ch → conversion c (decide (0 < k)) u =
      { u with console := Console.puts (string (c.arg u.esp)) u.console, esp := u.esp + 1 })
    {P : Word → List Byte → Prop} (hP : ∀ v, P v (string v)) :
    Prints c s (char '%' :: (List.replicate k (char '#') ++ [ch])) P := by
  intro hformat
  have hlen : (char '%' :: (List.replicate k (char '#') ++ [ch])).length = k + 1 + 1 := by simp
  have hpercent : c.format s.buf = char '%' := hformat 0 (by simp)
  have hhashes : ∀ j < k, c.format (s.buf + 1 + j) = char '#' := by
    intro j hj
    have hat := hformat (j + 1) (by omega)
    rw [List.getElem_cons_succ, List.getElem_append_left (by rwa [List.length_replicate]),
      List.getElem_replicate] at hat
    rwa [Nat.add_assoc, Nat.add_comm 1 j]
  have hlast : c.format (s.buf + 1 + k) = ch := by
    have hat := hformat (k + 1) (by omega)
    rw [List.getElem_cons_succ, List.getElem_append_right (by rw [List.length_replicate])] at hat
    simp only [List.length_replicate, Nat.sub_self, List.getElem_cons_zero] at hat
    rwa [Nat.add_assoc, Nat.add_comm 1 k]
  refine ⟨string (c.arg s.esp), hP _, ?_⟩
  rw [hlen, Function.iterate_succ_apply', Function.iterate_succ_apply, step_percent hplace hpercent,
    iterate_hashes rfl hhashes, Bool.false_or, step]
  dsimp only
  rw [if_neg (by rwa [hlast]), hconv _ hlast]
  dsimp only
  rw [hplace, Nat.add_assoc s.buf, Nat.add_comm 1 k, Nat.add_assoc]

end prints

end Printf

open Printf

/-- For every value and every radix from 2 to 36 `itoa` leaves the numeral in the buffer, and
`printf` prints the numerals of its arguments. -/
theorem numerals_printed :
    (∀ (value radix : Word) (buf : ℕ → Byte), 2 ≤ radix.toNat → radix.toNat ≤ 36 →
      ∃ b t, itoa value buf radix = some b ∧ HoldsText b t ∧
        IsNumeral radix.toNat value.toNat t) ∧
    ∀ (c : Printf.Call) (s : Printf), s.place = .loop →
      Prints c s [char '%', char 'u'] (fun v t => IsNumeral 10 v.toNat t) ∧
      Prints c s [char '%', char 'x'] (fun v t => IsNumeral 16 v.toNat t) ∧
      Prints c s [char '%', char 'd'] (fun v t => IsSignedNumeral v.toInt t) ∧
      Prints c s [char '%', char '#', char 'x'] fun v t => t.length = 8 ∧ Denotes 16 v.toNat t := by
  refine ⟨fun value radix buf hr hr' => ?_, fun c s hplace => ⟨?_, ?_, ?_, ?_⟩⟩
  · obtain ⟨b, hb, hholds⟩ := itoa_eq hr hr' value buf
    exact ⟨b, _, hb, hholds, isNumeral_numeral hr hr' _⟩
  · refine prints hplace 0 (by decide) (fun u hu => ?_)
      fun v => @stringAt_conv v c.convBuf 10 (by decide) (by decide)
    rw [conversion, hu]
    rfl
  · refine prints hplace 0 (by decide) (fun u hu => ?_)
      fun v => @stringAt_conv v c.convBuf 16 (by decide) (by decide)
    rw [conversion, hu]
    rfl
  · refine prints hplace 0 (by decide) (fun u hu => ?_)
      fun v => isSignedNumeral_signed v c.convBuf
    rw [conversion, hu]
    rfl
  · refine prints hplace 1 (by decide) (fun u hu => ?_) fun v => alternateHex_digits v c.convBuf
    rw [conversion, hu]
    rfl

/-- The smallest value, in base 36 and printed with `%d`. -/
theorem numerals_printed_sample :
    (∃ b t, itoa 0x80000000 (fun _ => 0) 36 = some b ∧ HoldsText b t ∧
      IsNumeral 36 (0x80000000 : Word).toNat t) ∧
    ∃ t, IsSignedNumeral (0x80000000 : Word).toInt t ∧
      (step (percentD 0x80000000))^[2] (start ⟨fun _ => 0, 0, 0⟩) =
        ⟨.loop, 2, 1, Console.puts t ⟨fun _ => 0, 0, 0⟩⟩ :=
  ⟨numerals_printed.1 0x80000000 36 (fun _ => 0) (by decide) (by decide),
    (numerals_printed.2 (percentD 0x80000000) (start ⟨fun _ => 0, 0, 0⟩) rfl).2.2.1 (by decide)⟩

end Os391
