import Os391.Assembly
import Os391.Lib.Copying

/-!
# `memmove`, `memset_word` and `memset_dword`

The other block functions of `lib.c` are a single `rep` instruction each. `memmove` goes
downwards when the source lies below the destination, so that it reads every byte before it
overwrites it; around the end of the memory that fails, and `memmove_moves_iff` says exactly
when.
-/

namespace Os391

open Bytes Copying Machines Segment

/-! ## `memmove` -/

/-- In front of the next round of `rep movsb`. `down` is the direction flag. -/
structure Memmove : Type where
  edi : Word
  esi : Word
  ecx : Word
  down : Bool
  mem : Word → Byte

/-- One round. -/
def Memmove.step (s : Memmove) : Memmove :=
  if s.ecx = 0 then s
  else
    { s with
      mem := Function.update s.mem s.edi (s.mem s.esi)
      edi := if s.down then s.edi - 1 else s.edi + 1
      esi := if s.down then s.esi - 1 else s.esi + 1
      ecx := s.ecx - 1 }

/-- `memmove`. The jump is taken unless the source is below the destination. -/
def memmove (mem : Word → Byte) (dest src n : Word) : Memmove :=
  if src.toNat < dest.toNat then ⟨dest + n - 1, src + n - 1, n, true, mem⟩
  else ⟨dest, src, n, false, mem⟩

namespace Memmove

variable {dest src n : Word} {mem : Word → Byte} {down : Bool} {j : ℕ} {s : Memmove}

/-- Which byte is moved in round `k`. -/
def place (down : Bool) (n k : ℕ) : ℕ := if down then n - 1 - k else k

/-- The stores of round `k`. -/
def turn (down : Bool) (dest src n : Word) (m : Word → Byte) (k : ℕ) : Word → Byte :=
  Function.update m (addressAt dest (place down n.toNat k)) (m (addressAt src (place down n.toNat k)))

/-- After `j` rounds. -/
structure Turned (down : Bool) (dest src n : Word) (mem : Word → Byte) (j : ℕ) (s : Memmove) :
    Prop where
  flag : s.down = down
  ecx : s.ecx.toNat + j = n.toNat
  edi : j < n.toNat → s.edi = addressAt dest (place down n.toNat j)
  esi : j < n.toNat → s.esi = addressAt src (place down n.toNat j)
  mem : s.mem = loop (turn down dest src n) j mem

theorem addressAt_succ_sub (a : Word) (k : ℕ) : addressAt a (k + 1) - 1 = addressAt a k := by
  rw [← addressAt_addressAt]
  exact BitVec.add_sub_cancel _ _

/-- The pointers move to the place of the next round. -/
theorem next_place (a : Word) (down : Bool) {n : ℕ} (h : j + 1 < n) :
    (if down then addressAt a (place down n j) - 1 else addressAt a (place down n j) + 1) =
      addressAt a (place down n (j + 1)) := by
  cases down with
  | false => exact addressAt_addressAt a j 1
  | true =>
    have hplace : n - 1 - j = n - 1 - (j + 1) + 1 := by omega
    simp only [place, if_true]
    rw [hplace, addressAt_succ_sub]

theorem Turned.step (h : Turned down dest src n mem j s) (hj : j < n.toNat) :
    Turned down dest src n mem (j + 1) s.step := by
  obtain ⟨hdown, hecx, hedi, hesi, hmem⟩ := h
  have hpos : s.ecx ≠ 0 := by
    intro hzero
    rw [hzero] at hecx
    exact absurd hecx (by simp; omega)
  have hsub := Advances.toNat_sub_one hpos
  rw [Memmove.step, if_neg hpos]
  refine ⟨hdown, ?_, fun hlt => ?_, fun hlt => ?_, ?_⟩
  · dsimp only
    omega
  · dsimp only
    rw [hdown, hedi hj, next_place dest down hlt]
  · dsimp only
    rw [hdown, hesi hj, next_place src down hlt]
  · dsimp only
    rw [loop_succ, turn, hmem, hedi hj, hesi hj]

theorem Turned.iterate (h : Turned down dest src n mem 0 s) (hj : j ≤ n.toNat) :
    Turned down dest src n mem j (Memmove.step^[j] s) := by
  induction j with
  | zero => exact h
  | succ j ih =>
    rw [Function.iterate_succ_apply']
    exact (ih (Nat.le_of_succ_le hj)).step (Nat.lt_of_succ_le hj)

/-- When the instruction has ended, the memory is that after `n` rounds. -/
theorem Turned.ended (h : Turned down dest src n mem 0 s) {t : ℕ}
    (hend : (Memmove.step^[t] s).ecx = 0) :
    (Memmove.step^[t] s).mem = loop (turn down dest src n) n.toNat mem := by
  rcases Nat.lt_or_ge t n.toNat with hlt | hge
  · have hecx := (h.iterate (Nat.le_of_lt hlt)).ecx
    rw [hend] at hecx
    exact absurd hecx (by simp; omega)
  · obtain ⟨r, rfl⟩ := Nat.exists_eq_add_of_le' hge
    have hturned := h.iterate (Nat.le_refl n.toNat)
    have hzero : (Memmove.step^[n.toNat] s).ecx = 0 :=
      BitVec.eq_of_toNat_eq (by have := hturned.ecx; simp; omega)
    have hfixed : Memmove.step (Memmove.step^[n.toNat] s) = Memmove.step^[n.toNat] s := if_pos hzero
    rw [Function.iterate_add_apply, Function.iterate_fixed hfixed]
    exact hturned.mem

/-- The last byte is `n - 1` behind the first. -/
theorem addressAt_last (a : Word) (h : 0 < n.toNat) : a + n - 1 = addressAt a (n.toNat - 1) := by
  have hlast : n.toNat = n.toNat - 1 + 1 := by omega
  rw [← addressAt_toNat a n, hlast, addressAt_succ_sub]
  rfl

theorem turned_memmove (mem : Word → Byte) (dest src n : Word) :
    Turned (decide (src.toNat < dest.toNat)) dest src n mem 0 (memmove mem dest src n) := by
  by_cases hlt : src.toNat < dest.toNat
  · rw [memmove, if_pos hlt, decide_eq_true hlt]
    exact ⟨rfl, rfl, fun h => addressAt_last dest h, fun h => addressAt_last src h, (loop_zero _).symm⟩
  · rw [memmove, if_neg hlt, decide_eq_false hlt]
    exact ⟨rfl, rfl, fun _ => (addressAt_zero dest).symm, fun _ => (addressAt_zero src).symm,
      (loop_zero _).symm⟩

/-! ## What it moves -/

theorem place_lt (down : Bool) {n k : ℕ} (h : k < n) : place down n k < n := by
  cases down <;> simp only [place, if_true, if_false, Bool.false_eq_true] <;> omega

theorem place_inj (down : Bool) {n i k : ℕ} (hi : i < n) (hk : k < n)
    (h : place down n i = place down n k) : i = k := by
  cases down <;> simp only [place, if_true, if_false, Bool.false_eq_true] at h <;> omega

theorem exists_place (down : Bool) {n k : ℕ} (h : k < n) : ∃ i < n, place down n i = k := by
  cases down with
  | false => exact ⟨k, h, rfl⟩
  | true => exact ⟨n - 1 - k, by omega, by simp only [place, if_true]; omega⟩

theorem turn_storesAt (down : Bool) (dest src n : Word) :
    StoresAt (fun (m : Word → Byte) a => m a) (turn down dest src n)
      (fun k => addressAt dest (place down n.toNat k))
      (fun k m => m (addressAt src (place down n.toNat k))) n.toNat :=
  ⟨fun _ _ _ => Function.update_self _ _ _, fun _ _ _ _ hi => Function.update_of_ne hi _ _⟩

theorem places_differ (down : Bool) (dest : Word) {n : Word} (i k : ℕ) (hik : i < k)
    (hk : k < n.toNat) : addressAt dest (place down n.toNat i) ≠ addressAt dest (place down n.toNat k) := by
  intro heq
  have hn := n.isLt
  have hi' := place_lt down (Nat.lt_trans hik hk)
  have hk' := place_lt down hk
  have hplace := addressAt_inj (by omega) (by omega) heq
  exact absurd (place_inj down (Nat.lt_trans hik hk) hk hplace) (by omega)

/-- How far two addresses are apart. -/
def distance (a b : Word) : ℕ := (a.toNat - b.toNat) + (b.toNat - a.toNat)

/-- No round reads what an earlier one has stored. -/
theorem reads_before (h : n.toNat + distance dest src ≤ 2 ^ 32) {i k : ℕ} (hik : i < k)
    (hk : k < n.toNat) :
    addressAt src (place (decide (src.toNat < dest.toNat)) n.toNat k) ≠
      addressAt dest (place (decide (src.toNat < dest.toNat)) n.toNat i) := by
  intro heq
  have hnat := congrArg BitVec.toNat heq
  simp only [addressAt, BitVec.toNat_add, BitVec.toNat_ofNat] at hnat
  unfold distance at h
  have hn := n.isLt
  have hdest := dest.isLt
  have hsrc := src.isLt
  by_cases hlt : src.toNat < dest.toNat
  · simp only [place, decide_eq_true hlt, if_true] at hnat
    omega
  · simp only [place, decide_eq_false hlt, Bool.false_eq_true, if_false] at hnat
    omega

/-- The instruction has ended, the destination holds what the source held, and nothing else has
changed. The direction flag stays as the function has set it. -/
structure Moved (mem : Word → Byte) (dest src n : Word) (t : Memmove) : Prop where
  ended : t.ecx = 0
  flag : t.down = decide (src.toNat < dest.toNat)
  moved : ∀ k < n.toNat, t.mem (addressAt dest k) = mem (addressAt src k)
  others : ∀ a, (∀ k < n.toNat, a ≠ addressAt dest k) → t.mem a = mem a

theorem moved_of_distance (h : n.toNat + distance dest src ≤ 2 ^ 32) (mem : Word → Byte) :
    Reaches Memmove.step (memmove mem dest src n) (Moved mem dest src n) := by
  have hturned := (turned_memmove mem dest src n).iterate (Nat.le_refl n.toNat)
  have hstores := turn_storesAt (decide (src.toNat < dest.toNat)) dest src n
  refine ⟨n.toNat, ?_, hturned.flag, fun k hk => ?_, fun a ha => ?_⟩
  · have hecx := hturned.ecx
    exact BitVec.eq_of_toNat_eq (by simp; omega)
  · obtain ⟨i, hi, rfl⟩ := exists_place (decide (src.toNat < dest.toNat)) hk
    rw [hturned.mem]
    refine hstores.loop_self (s := mem) (places_differ _ dest) (fun k hk t ht => ?_) hi
    exact ht _ fun i hik => reads_before h hik hk
  · rw [hturned.mem]
    exact hstores.loop_other (fun k hk => ha _ (place_lt _ hk)) mem

/-- Otherwise a byte that the first round stores is read in a later one. -/
theorem exists_read_late (h : 2 ^ 32 < n.toNat + distance dest src) :
    ∃ j, 0 < j ∧ j < n.toNat ∧
      addressAt src (place (decide (src.toNat < dest.toNat)) n.toNat j) =
        addressAt dest (place (decide (src.toNat < dest.toNat)) n.toNat 0) := by
  have hn := n.isLt
  have hdest := dest.isLt
  have hsrc := src.isLt
  unfold distance at h
  refine ⟨2 ^ 32 - distance dest src, ?_, ?_, BitVec.eq_of_toNat_eq ?_⟩
  · unfold distance
    omega
  · unfold distance
    omega
  · unfold distance
    simp only [addressAt, BitVec.toNat_add, BitVec.toNat_ofNat]
    by_cases hlt : src.toNat < dest.toNat
    · simp only [place, decide_eq_true hlt, if_true]
      omega
    · simp only [place, decide_eq_false hlt, Bool.false_eq_true, if_false]
      omega

theorem not_moved (h : 2 ^ 32 < n.toNat + distance dest src) :
    ∃ mem, ¬ Reaches Memmove.step (memmove mem dest src n) (Moved mem dest src n) := by
  obtain ⟨j, hpos, hj, hread⟩ := exists_read_late h
  generalize hd : decide (src.toNat < dest.toNat) = down at hread
  -- a memory in which only the byte that is moved first is not 0
  let mem : Word → Byte := fun a => if a = addressAt src (place down n.toNat 0) then 1 else 0
  refine ⟨mem, fun ⟨t, hmoved⟩ => ?_⟩
  have hturned := turned_memmove mem dest src n
  rw [hd] at hturned
  have hstores := turn_storesAt down dest src n
  have hmem := hturned.ended hmoved.ended
  have hfirst : loop (turn down dest src n) j mem (addressAt dest (place down n.toNat 0)) = 1 := by
    have hat := (hstores.mono (Nat.le_of_lt hj)).loop_at (s := mem)
      (fun i k hik hk => places_differ down dest i k hik (Nat.lt_trans hk hj)) hpos
    rw [loop_zero] at hat
    exact hat.trans (if_pos rfl)
  have hlate := hmoved.moved _ (place_lt down hj)
  rw [hmem] at hlate
  have hat := hstores.loop_at (s := mem) (places_differ down dest) hj
  have hone : (1 : Byte) = mem (addressAt src (place down n.toNat j)) := by
    rw [← hlate, hat, hread, hfirst]
  have hzero : mem (addressAt src (place down n.toNat j)) = 0 :=
    if_neg (Ne.symm (places_differ down src 0 j hpos hj))
  rw [hzero] at hone
  exact absurd hone (by decide)

end Memmove

/-- `memmove` moves every memory right exactly if the two areas do not meet again around the end
of the memory. -/
theorem memmove_moves_iff (dest src n : Word) :
    (∀ mem, Reaches Memmove.step (memmove mem dest src n) (Memmove.Moved mem dest src n)) ↔
      n.toNat + Memmove.distance dest src ≤ 2 ^ 32 := by
  refine ⟨fun h => ?_, fun h mem => Memmove.moved_of_distance h mem⟩
  by_contra hlt
  obtain ⟨mem, hnot⟩ := Memmove.not_moved (Nat.lt_of_not_le hlt)
  exact hnot (h mem)

/-! ## `memset_word` and `memset_dword` -/

/-- In front of the next round of `rep stosw` or `rep stosl`. -/
structure RepStos : Type where
  edi : Word
  ecx : Word
  mem : Word → Byte

/-- One round, which stores the low `width` bytes of `eax`. -/
def RepStos.step (width : ℕ) (eax : Word) (s : RepStos) : RepStos :=
  if s.ecx = 0 then s
  else
    { mem := overwrite s.mem (segment (fun k => (addressAt s.edi k, byteOf eax k)) 0 width)
      edi := addressAt s.edi width
      ecx := s.ecx - 1 }

/-- One round of `memset_word`. -/
def memsetWord (c : Word) : RepStos → RepStos := RepStos.step 2 c

/-- One round of `memset_dword`. -/
def memsetDword (c : Word) : RepStos → RepStos := RepStos.step 4 c

/-- `n` times the low bytes of `c`, by the loop that goes byte by byte. -/
def patternLoop (width : ℕ) (s c : Word) (mem : Word → Byte) (n : ℕ) : Word → Byte :=
  (byteLoop (fun k _ => byteOf c (k % width)) s mem (width * n)).1

theorem eq_addressAt_iff (a s : Word) (k : ℕ) : a = addressAt s k ↔ (a - s).toNat = k % 2 ^ 32 := by
  rw [← BitVec.toNat_ofNat, addressAt]
  constructor
  · rintro rfl
    rw [BitVec.add_comm, BitVec.add_sub_cancel]
  · intro h
    rw [← BitVec.eq_of_toNat_eq h, BitVec.add_comm, BitVec.sub_add_cancel]

/-- Around the end of the memory it goes over the same bytes with the same values. -/
theorem byteLoop_pattern {width : ℕ} (hdvd : width ∣ 2 ^ 32) (s c : Word) (mem : Word → Byte) (n : ℕ)
    (a : Word) : (byteLoop (fun k _ => byteOf c (k % width)) s mem n).1 a =
      if (a - s).toNat < n then byteOf c ((a - s).toNat % width) else mem a := by
  have hbound := (a - s).isLt
  induction n with
  | zero => exact (if_neg (Nat.not_lt_zero _)).symm
  | succ n ih =>
    rw [byteLoop]
    dsimp only
    by_cases ha : a = addressAt s n
    · have hoffset := (eq_addressAt_iff a s n).mp ha
      have hle := Nat.mod_le n (2 ^ 32)
      rw [if_pos (by omega), hoffset, Nat.mod_mod_of_dvd _ hdvd]
      conv_lhs => rw [ha]
      exact Function.update_self _ _ _
    · have hoffset : (a - s).toNat ≠ n := by
        intro heq
        refine ha ((eq_addressAt_iff a s n).mpr ?_)
        rw [heq, Nat.mod_eq_of_lt (by omega)]
      rw [Function.update_of_ne ha, ih]
      by_cases hlt : (a - s).toNat < n
      · rw [if_pos hlt, if_pos (Nat.lt_succ_of_lt hlt)]
      · rw [if_neg hlt, if_neg (by omega)]

theorem repStos_ends (width : ℕ) (mem : Word → Byte) (s c n : Word) :
    Reaches (RepStos.step width c) ⟨s, n, mem⟩ fun t =>
      t.ecx = 0 ∧ t.mem = patternLoop width s c mem n.toNat := by
  -- what is left and what has been stored add up to `n`
  let I : RepStos → Prop := fun t => ∃ j, t.ecx.toNat + j = n.toNat ∧
    t.edi = addressAt s (width * j) ∧ t.mem = patternLoop width s c mem j
  have hstep : ∀ t, I t → ¬ t.ecx = 0 →
      I (RepStos.step width c t) ∧ (RepStos.step width c t).ecx.toNat < t.ecx.toNat := by
    rintro t ⟨j, hecx, hedi, hmem⟩ hpos
    have hsub := Advances.toNat_sub_one hpos
    have hround : byteLoop (fun k _ => byteOf c (k % width)) s mem (width * j + width) =
        (overwrite (patternLoop width s c mem j) _, _) :=
      byteLoop_add fun k hk => by
        rw [Nat.mul_add_mod, Nat.mod_eq_of_lt hk]
    rw [RepStos.step, if_neg hpos]
    refine ⟨⟨j + 1, ?_, ?_, ?_⟩, ?_⟩
    · dsimp only
      omega
    · dsimp only
      rw [hedi, addressAt_addressAt, Nat.mul_succ]
    · dsimp only
      rw [patternLoop, Nat.mul_succ, hround, hmem, hedi]
      simp only [addressAt_addressAt]
    · dsimp only
      omega
  have hstart : I ⟨s, n, mem⟩ := ⟨0, rfl, by rw [Nat.mul_zero, addressAt_zero], by
    rw [patternLoop, Nat.mul_zero]
    rfl⟩
  refine (Reaches.loop (fun t => t.ecx.toNat) hstep hstart).imp ?_
  rintro t ⟨hzero, j, hecx, -, hmem⟩
  rw [hzero] at hecx
  have hj : j = n.toNat := by
    rw [← hecx]
    exact (Nat.zero_add j).symm
  exact ⟨hzero, hj ▸ hmem⟩

/-- The memory after a fill: `n` words of `width` bytes from `s` on, and the rest as it was. -/
def Filled (width : ℕ) (s c n : Word) (mem mem' : Word → Byte) : Prop :=
  ∀ a, mem' a = if (a - s).toNat < width * n.toNat then byteOf c ((a - s).toNat % width) else mem a

theorem repStos_fills {width : ℕ} (hdvd : width ∣ 2 ^ 32) (mem : Word → Byte) (s c n : Word) :
    Reaches (RepStos.step width c) ⟨s, n, mem⟩ fun t =>
      t.ecx = 0 ∧ Filled width s c n mem t.mem := by
  refine (repStos_ends width mem s c n).imp ?_
  rintro t ⟨hzero, hmem⟩
  refine ⟨hzero, fun a => ?_⟩
  rw [hmem]
  exact byteLoop_pattern hdvd s c mem _ a

/-- `memset_word` fills `n` times two bytes and `memset_dword` `n` times four, for every `n`, also
around the end of the memory. -/
theorem memsets_fill (mem : Word → Byte) (s c n : Word) :
    (Reaches (memsetWord c) ⟨s, n, mem⟩ fun t => t.ecx = 0 ∧ Filled 2 s c n mem t.mem) ∧
    Reaches (memsetDword c) ⟨s, n, mem⟩ fun t => t.ecx = 0 ∧ Filled 4 s c n mem t.mem :=
  ⟨repStos_fills (by decide) mem s c n, repStos_fills (by decide) mem s c n⟩

end Os391
