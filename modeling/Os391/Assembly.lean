import Os391.Console
import Os391.Lib.Reaches
import Os391.Lib.Segment

/-!
# `memset` and `memcpy` in assembly

Both are the same program around different stores: single bytes until `%edi` is a
multiple of 4, then double words, then the bytes that are left. `BlockOp.step` executes
what stands behind one label, and one step lemma follows the number of bytes left through
all labels. For every alignment and every count the stores are those of the loop that goes
byte by byte, in its order.
-/

namespace Os391

open Bytes Segment Machines

/-! ## The registers and the memory -/

/-- What the stores use and change. `stores` is the record of the bytes stored so far. -/
structure StringRegs : Type where
  eax : Word
  edi : Word
  esi : Word
  mem : Word → Byte
  stores : List (Word × Byte)

/-- Memory after some bytes have been stored. -/
def overwrite (mem : Word → Byte) (stores : List (Word × Byte)) : Word → Byte :=
  stores.foldl (fun m s => Function.update m s.1 s.2) mem

namespace StringRegs

/-- Store bytes. -/
def store (bytes : List (Word × Byte)) (r : StringRegs) : StringRegs :=
  { r with mem := overwrite r.mem bytes, stores := r.stores ++ bytes }

/-- The bytes of a double word at `%edi`, lowest first. -/
def dword (r : StringRegs) (x : Word) : List (Word × Byte) :=
  segment (fun k => (addressAt r.edi k, byteOf x k)) 0 4

/-- `movb %al, (%edi)` and `addl $1, %edi`. -/
def memsetByte (r : StringRegs) : StringRegs :=
  { r.store [(r.edi, byteOf r.eax 0)] with edi := r.edi + 1 }

/-- One round of `rep stosl`. -/
def stosl (r : StringRegs) : StringRegs :=
  { r.store (r.dword r.eax) with edi := r.edi + 4 }

/-- `movb (%esi), %al`, `movb %al, (%edi)`, and both pointers go on by 1. -/
def memcpyByte (r : StringRegs) : StringRegs :=
  let al := r.mem r.esi
  { r.store [(r.edi, al)] with
    eax := r.eax.extractLsb' 8 24 ++ al
    edi := r.edi + 1
    esi := r.esi + 1 }

/-- One round of `rep movsl`. -/
def movsl (r : StringRegs) : StringRegs :=
  let x := ofBytes fun k => r.mem (addressAt r.esi k)
  { r.store (r.dword x) with edi := r.edi + 4, esi := r.esi + 4 }

end StringRegs

/-! ## The program -/

/-- Where the program is: at `.memset_top`, `.memset_aligned`, in front of the next round of
the `rep` instruction, at `.memset_bottom`, at `.memset_done`, and the same for `memcpy`. -/
inductive BlockLabel : Type where
  | top
  | aligned
  | rep
  | bottom
  | done
  deriving DecidableEq

/-- The program with its two counters. -/
structure BlockOp : Type where
  label : BlockLabel
  ecx : Word
  edx : Word
  regs : StringRegs

namespace BlockOp

/-- What stands behind a label. `byteOp` is the store in the two byte loops and `dwordOp` a
round of the `rep` instruction. Copying `%ds` to `%es` leaves no trace, as `%edx` is
loaded right after it. -/
def step (byteOp dwordOp : StringRegs → StringRegs) (s : BlockOp) : BlockOp :=
  match s.label with
  | .top =>
    if s.ecx = 0 then { s with label := .done }
    else if s.regs.edi &&& 3 = 0 then { s with label := .aligned }
    else { s with regs := byteOp s.regs, ecx := s.ecx - 1 }
  | .aligned => { s with label := .rep, edx := s.ecx &&& 3, ecx := s.ecx >>> 2 }
  | .rep =>
    if s.ecx = 0 then { s with label := .bottom }
    else { s with regs := dwordOp s.regs, ecx := s.ecx - 1 }
  | .bottom =>
    if s.edx = 0 then { s with label := .done }
    else { s with regs := byteOp s.regs, edx := s.edx - 1 }
  | .done => s

/-- `memset`, once its operands are loaded. `%edx` and `%esi` may hold anything. -/
def memset (mem : Word → Byte) (s c n edx esi : Word) : BlockOp :=
  let c := c &&& 0xFF
  ⟨.top, n, edx, ⟨c <<< 24 ||| c <<< 16 ||| c <<< 8 ||| c, s, esi, mem, []⟩⟩

/-- `memcpy`. -/
def memcpy (mem : Word → Byte) (dest src n edx eax : Word) : BlockOp :=
  ⟨.top, n, edx, ⟨eax, dest, src, mem, []⟩⟩

/-- The number of bytes that are still to be stored. -/
def left (s : BlockOp) : ℕ :=
  match s.label with
  | .top => s.ecx.toNat
  | .aligned => s.ecx.toNat
  | .rep => 4 * s.ecx.toNat + s.edx.toNat
  | .bottom => s.edx.toNat
  | .done => 0

/-- A bound on the number of steps to come. -/
def steps (s : BlockOp) : ℕ :=
  match s.label with
  | .top => s.ecx.toNat + 4
  | .aligned => s.ecx.toNat + 3
  | .rep => s.ecx.toNat + s.edx.toNat + 2
  | .bottom => s.edx.toNat + 1
  | .done => 0

end BlockOp

/-- The two stores advance `P`, which says what holds after some of `n` bytes are stored. -/
structure Advances (n : ℕ) (P : ℕ → StringRegs → Prop) (byteOp dwordOp : StringRegs → StringRegs) :
    Prop where
  byte : ∀ j r, j + 1 ≤ n → P j r → P (j + 1) (byteOp r)
  dword : ∀ j r, j + 4 ≤ n → P j r → P (j + 4) (dwordOp r)

/-- What is left and what is stored add up to `n`. -/
def BlockOp.Holds (n : ℕ) (P : ℕ → StringRegs → Prop) (s : BlockOp) : Prop :=
  s.left ≤ n ∧ P (n - s.left) s.regs

namespace Advances

variable {n : ℕ} {P : ℕ → StringRegs → Prop} {byteOp dwordOp : StringRegs → StringRegs}
  {s : BlockOp}

theorem toNat_sub_one {x : Word} (h : x ≠ 0) : (x - 1).toNat + 1 = x.toNat := by
  have hpos : x.toNat ≠ 0 := fun hz => h (BitVec.eq_of_toNat_eq hz)
  have hone : (1 : Word).toNat = 1 := rfl
  rw [BitVec.toNat_sub_of_le (by rw [BitVec.le_def, hone]; omega), hone]
  omega

/-- The two counters of the double words and the bytes behind them. -/
theorem toNat_split (x : Word) :
    4 * (x >>> 2).toNat + (x &&& 3).toNat = x.toNat ∧ (x &&& 3).toNat < 4 := by
  have hand : (x &&& 3).toNat = x.toNat % 4 := by
    rw [BitVec.toNat_and]
    exact Nat.and_two_pow_sub_one_eq_mod x.toNat 2
  rw [hand, BitVec.toNat_ushiftRight, Nat.shiftRight_eq_div_pow]
  omega

/-- What one step stores is what it leaves less. -/
theorem holds_next {u : BlockOp} {m : ℕ} (hleft : s.left ≤ n) (hu : u.left + m = s.left)
    (hP : P (n - s.left + m) u.regs) : u.Holds n P := by
  have hsum : n - s.left + m = n - u.left := by omega
  rw [hsum] at hP
  exact ⟨by omega, hP⟩

/-- One step, at every label. -/
theorem step (h : Advances n P byteOp dwordOp) (hs : s.Holds n P) (hlabel : s.label ≠ .done) :
    (s.step byteOp dwordOp).Holds n P ∧ (s.step byteOp dwordOp).steps < s.steps := by
  obtain ⟨hleft, hP⟩ := hs
  obtain ⟨label, ecx, edx, r⟩ := s
  have hzero : (0 : Word).toNat = 0 := rfl
  cases label with
  | top =>
    simp only [BlockOp.step]
    split_ifs with hecx haligned
    · subst hecx
      exact ⟨holds_next hleft (m := 0) rfl hP, Nat.zero_lt_succ _⟩
    · exact ⟨holds_next hleft (m := 0) rfl hP, Nat.lt_succ_self _⟩
    · have hsub := toNat_sub_one hecx
      refine ⟨holds_next hleft hsub (h.byte _ r ?_ hP), ?_⟩
      · simp only [BlockOp.left] at hleft ⊢
        omega
      · simp only [BlockOp.steps]
        omega
  | aligned =>
    obtain ⟨hsplit, hbottom⟩ := toNat_split ecx
    refine ⟨holds_next hleft (m := 0) hsplit hP, ?_⟩
    simp only [BlockOp.step, BlockOp.steps]
    omega
  | rep =>
    simp only [BlockOp.step]
    split_ifs with hecx
    · subst hecx
      refine ⟨holds_next hleft (m := 0) ?_ hP, ?_⟩
      · simp only [BlockOp.left, hzero, Nat.mul_zero, Nat.zero_add, Nat.add_zero]
      · simp only [BlockOp.steps]
        omega
    · have hsub := toNat_sub_one hecx
      refine ⟨holds_next hleft (m := 4) ?_ (h.dword _ r ?_ hP), ?_⟩
      · simp only [BlockOp.left]
        omega
      · simp only [BlockOp.left] at hleft ⊢
        omega
      · simp only [BlockOp.steps]
        omega
  | bottom =>
    simp only [BlockOp.step]
    split_ifs with hedx
    · subst hedx
      exact ⟨holds_next hleft (m := 0) rfl hP, Nat.zero_lt_succ _⟩
    · have hsub := toNat_sub_one hedx
      refine ⟨holds_next hleft hsub (h.byte _ r ?_ hP), ?_⟩
      · simp only [BlockOp.left] at hleft ⊢
        omega
      · simp only [BlockOp.steps]
        omega
  | done => exact absurd rfl hlabel

/-- The program ends, with all `n` bytes stored. -/
theorem run (h : Advances n P byteOp dwordOp) (hleft : s.left = n) (hP : P 0 s.regs) :
    Reaches (BlockOp.step byteOp dwordOp) s fun t => t.label = .done ∧ P n t.regs := by
  have hstart : s.Holds n P := by
    rw [BlockOp.Holds, hleft, Nat.sub_self]
    exact ⟨le_rfl, hP⟩
  refine (Reaches.loop BlockOp.steps (fun t ht hlabel => h.step ht hlabel) hstart).imp ?_
  rintro ⟨label, ecx, edx, r⟩ ⟨rfl, -, hend⟩
  exact ⟨rfl, hend⟩

end Advances

/-! ## The byte loop -/

/-- The loop that goes byte by byte: turn `k` stores at `dest + k` what `value k` makes of the
memory it finds. The memory and the stores after `n` turns. -/
def byteLoop (value : ℕ → (Word → Byte) → Byte) (dest : Word) (mem : Word → Byte) :
    ℕ → (Word → Byte) × List (Word × Byte)
  | 0 => (mem, [])
  | n + 1 =>
    let r := byteLoop value dest mem n
    let b := value n r.1
    (Function.update r.1 (addressAt dest n) b, r.2 ++ [(addressAt dest n, b)])

section byteLoop

variable {value : ℕ → (Word → Byte) → Byte} {dest : Word} {mem : Word → Byte}

theorem byteLoop_mem_of_ne {n : ℕ} {a : Word} (h : ∀ k < n, a ≠ addressAt dest k) :
    (byteLoop value dest mem n).1 a = mem a := by
  induction n with
  | zero => rfl
  | succ n ih =>
    rw [byteLoop]
    dsimp only
    rw [Function.update_of_ne (h n (Nat.lt_succ_self n))]
    exact ih fun k hk => h k (Nat.lt_succ_of_lt hk)

/-- Where it stores. -/
theorem byteLoop_addresses (n : ℕ) :
    (byteLoop value dest mem n).2.map Prod.fst = segment (addressAt dest) 0 n := by
  induction n with
  | zero => rfl
  | succ n ih =>
    rw [byteLoop, segment_add, List.map_append, ih]
    simp [Segment.segment]

/-- Some turns at once, when their values are known. -/
theorem byteLoop_add {j m : ℕ} {v : ℕ → Byte}
    (hv : ∀ k < m, value (j + k) (byteLoop value dest mem (j + k)).1 = v k) :
    let bytes := segment (fun k => (addressAt dest (j + k), v k)) 0 m
    byteLoop value dest mem (j + m) = (overwrite (byteLoop value dest mem j).1 bytes,
      (byteLoop value dest mem j).2 ++ bytes) := by
  induction m with
  | zero => simp [Segment.segment, overwrite]
  | succ m ih =>
    have hbytes : segment (fun k => (addressAt dest (j + k), v k)) 0 (m + 1) =
        segment (fun k => (addressAt dest (j + k), v k)) 0 m ++ [(addressAt dest (j + m), v m)] := by
      rw [segment_add]
      simp [Segment.segment]
    have hlast := hv m (Nat.lt_succ_self m)
    rw [ih fun k hk => hv k (Nat.lt_succ_of_lt hk)] at hlast
    rw [← Nat.add_assoc, byteLoop, ih fun k hk => hv k (Nat.lt_succ_of_lt hk), hbytes]
    dsimp only at hlast ⊢
    rw [hlast, overwrite, overwrite, List.foldl_append, List.append_assoc]
    rfl

/-- The copy loop of the rest of the model is this one. -/
theorem memcpy_mem (c : Console) (dest src : Word) (n : ℕ) : (c.memcpy dest src n).mem =
    (byteLoop (fun k m => m (addressAt src k)) dest c.mem n).1 := by
  induction n with
  | zero => rfl
  | succ n ih =>
    rw [Console.memcpy, byteLoop, ← ih]
    rfl

end byteLoop

/-- The registers after as many stores as the byte loop makes in `j` turns. -/
structure Stored (value : ℕ → (Word → Byte) → Byte) (dest : Word) (mem₀ : Word → Byte) (j : ℕ)
    (r : StringRegs) : Prop where
  edi : r.edi = addressAt dest j
  mem : r.mem = (byteLoop value dest mem₀ j).1
  stores : r.stores = (byteLoop value dest mem₀ j).2

namespace Stored

variable {value : ℕ → (Word → Byte) → Byte} {dest : Word} {mem : Word → Byte} {j : ℕ}
  {r : StringRegs}

/-- One byte more. -/
theorem byte (h : Stored value dest mem j r) {al : Byte} (hal : al = value j r.mem)
    (eax esi : Word) :
    Stored value dest mem (j + 1)
      { r.store [(r.edi, al)] with eax := eax, edi := r.edi + 1, esi := esi } := by
  rw [h.mem] at hal
  refine ⟨?_, ?_, ?_⟩
  · dsimp only
    rw [h.edi, ← addressAt_addressAt]
    rfl
  · rw [byteLoop, hal, ← h.mem, ← h.edi]
    rfl
  · rw [byteLoop, hal, ← h.stores, ← h.edi]
    rfl

/-- One double word more, if its bytes are those of the next four turns. -/
theorem dword (h : Stored value dest mem j r) {x : Word}
    (hx : ∀ k < 4, value (j + k) (byteLoop value dest mem (j + k)).1 = byteOf x k) (esi : Word) :
    Stored value dest mem (j + 4)
      { r.store (r.dword x) with edi := r.edi + 4, esi := esi } := by
  have hbytes : r.dword x = segment (fun k => (addressAt dest (j + k), byteOf x k)) 0 4 := by
    simp only [StringRegs.dword, h.edi, addressAt_addressAt]
  have hloop := byteLoop_add hx
  refine ⟨?_, ?_, ?_⟩
  · dsimp only
    rw [h.edi, ← addressAt_addressAt]
    rfl
  · rw [hloop, ← hbytes, ← h.mem]
    rfl
  · rw [hloop, ← hbytes, ← h.stores]
    rfl

end Stored

/-! ## `memset` -/

/-- A byte repeated over a word. -/
theorem byteOf_splat (b : Byte) {k : ℕ} (hk : k < 4) :
    byteOf (b.setWidth 32 <<< 24 ||| b.setWidth 32 <<< 16 ||| b.setWidth 32 <<< 8 |||
      b.setWidth 32) k = b := by
  refine BitVec.eq_of_getLsbD_eq fun i hi => ?_
  have hge (j : ℕ) (hj : 8 ≤ j) : b.getLsbD j = false := BitVec.getLsbD_of_ge b j hj
  rw [byteOf, BitVec.getLsbD_extractLsb', decide_eq_true hi, Bool.true_and]
  simp only [BitVec.getLsbD_or, BitVec.getLsbD_shiftLeft, BitVec.getLsbD_setWidth]
  -- in byte `k` only the shift by `8 * k` has bits
  obtain rfl | rfl | rfl | rfl : k = 0 ∨ k = 1 ∨ k = 2 ∨ k = 3 := by omega
  all_goals
    simp (disch := omega) only [decide_eq_true, decide_eq_false, hge, Bool.not_true, Bool.not_false,
      Bool.and_false, Bool.false_and, Bool.or_false, Bool.false_or, Bool.true_and, Nat.mul_zero,
      Nat.mul_one, Nat.zero_add, Nat.add_sub_cancel_left]

/-- `c &= 0xFF`. -/
theorem and_ff (c : Word) : c &&& 0xFF = (c.setWidth 8).setWidth 32 := by
  refine BitVec.eq_of_toNat_eq ?_
  have hff : (0xFF : Word).toNat = 2 ^ 8 - 1 := rfl
  rw [BitVec.toNat_and, BitVec.toNat_setWidth, BitVec.toNat_setWidth, hff,
    Nat.and_two_pow_sub_one_eq_mod]
  omega

theorem memset_advances (mem : Word → Byte) (s c n : Word) :
    Advances n.toNat (fun j r => Stored (fun _ _ => c.setWidth 8) s mem j r ∧
      ∀ k < 4, byteOf r.eax k = c.setWidth 8) StringRegs.memsetByte StringRegs.stosl := by
  refine ⟨fun j r _ h => ⟨?_, h.2⟩, fun j r _ h => ⟨?_, h.2⟩⟩
  · exact h.1.byte (h.2 0 (by decide)) r.eax r.esi
  · exact h.1.dword (fun k hk => (h.2 k hk).symm) r.esi

/-! ## `memcpy` -/

/-- No byte of the source is one of the destination. -/
def NotOverlapping (dest src : Word) (n : ℕ) : Prop :=
  ∀ j < n, ∀ k < n, addressAt src j ≠ addressAt dest k

theorem memcpy_advances {dest src n : Word} (hsrc : NotOverlapping dest src n.toNat)
    (mem : Word → Byte) :
    Advances n.toNat (fun j r => Stored (fun k m => m (addressAt src k)) dest mem j r ∧
      r.esi = addressAt src j) StringRegs.memcpyByte StringRegs.movsl := by
  -- whatever has been stored, the source is read as it was
  have hread {i k : ℕ} (hi : i ≤ n.toNat) (hk : k < n.toNat) :
      (byteLoop (fun k m => m (addressAt src k)) dest mem i).1 (addressAt src k) =
        mem (addressAt src k) :=
    byteLoop_mem_of_ne fun l hl => hsrc k hk l (Nat.lt_of_lt_of_le hl hi)
  refine ⟨fun j r _ h => ⟨?_, ?_⟩, fun j r hj h => ⟨?_, ?_⟩⟩
  · exact h.1.byte (by rw [h.2]) _ _
  · rw [StringRegs.memcpyByte, h.2, ← addressAt_addressAt]
    rfl
  · refine h.1.dword (fun k hk => ?_) _
    rw [byteOf_ofBytes _ hk, h.2, addressAt_addressAt, h.1.mem, hread (by omega) (by omega),
      hread (by omega) (by omega)]
  · rw [StringRegs.movsl, h.2, ← addressAt_addressAt]
    rfl

/-! ## The two programs -/

/-- The program has ended and has made the stores of the byte loop, and no others. -/
structure EndsAsByteLoop (value : ℕ → (Word → Byte) → Byte) (dest : Word) (mem₀ : Word → Byte)
    (n : ℕ) (t : BlockOp) : Prop where
  done : t.label = .done
  mem : t.regs.mem = (byteLoop value dest mem₀ n).1
  stores : t.regs.stores = (byteLoop value dest mem₀ n).2
  addresses : t.regs.stores.map Prod.fst = segment (addressAt dest) 0 n

theorem Stored.ends {value : ℕ → (Word → Byte) → Byte} {dest : Word} {mem : Word → Byte} {n : ℕ}
    {t : BlockOp} (hdone : t.label = .done) (h : Stored value dest mem n t.regs) :
    EndsAsByteLoop value dest mem n t :=
  ⟨hdone, h.mem, h.stores, h.stores ▸ byteLoop_addresses n⟩

theorem memset_ends (mem : Word → Byte) (s c n edx esi : Word) :
    Reaches (BlockOp.step StringRegs.memsetByte StringRegs.stosl)
      (BlockOp.memset mem s c n edx esi)
      (EndsAsByteLoop (fun _ _ => c.setWidth 8) s mem n.toNat) := by
  have hstart : Stored (fun _ _ => c.setWidth 8) s mem 0
      (BlockOp.memset mem s c n edx esi).regs := ⟨(addressAt_zero s).symm, rfl, rfl⟩
  have heax : ∀ k < 4, byteOf (BlockOp.memset mem s c n edx esi).regs.eax k = c.setWidth 8 := by
    intro k hk
    simp only [BlockOp.memset, and_ff]
    exact byteOf_splat (c.setWidth 8) hk
  exact ((memset_advances mem s c n).run rfl ⟨hstart, heax⟩).imp fun t ht => ht.2.1.ends ht.1

theorem memcpy_ends {dest src n : Word} (hsrc : NotOverlapping dest src n.toNat)
    (mem : Word → Byte) (edx eax : Word) :
    Reaches (BlockOp.step StringRegs.memcpyByte StringRegs.movsl)
      (BlockOp.memcpy mem dest src n edx eax)
      (EndsAsByteLoop (fun k m => m (addressAt src k)) dest mem n.toNat) := by
  have hstart : Stored (fun k m => m (addressAt src k)) dest mem 0
      (BlockOp.memcpy mem dest src n edx eax).regs := ⟨(addressAt_zero dest).symm, rfl, rfl⟩
  exact ((memcpy_advances hsrc mem).run rfl ⟨hstart, (addressAt_zero src).symm⟩).imp
    fun t ht => ht.2.1.ends ht.1

/-- The rest of the model takes `memcpy` for a loop that goes byte by byte, and so it is. -/
theorem memcpy_refines (c : Console) {dest src n : Word}
    (hsrc : NotOverlapping dest src n.toNat) (edx eax : Word) :
    Reaches (BlockOp.step StringRegs.memcpyByte StringRegs.movsl)
      (BlockOp.memcpy c.mem dest src n edx eax) fun t =>
        t.label = .done ∧ t.regs.mem = (c.memcpy dest src n.toNat).mem :=
  (memcpy_ends hsrc c.mem edx eax).imp fun _ ht =>
    ⟨ht.done, ht.mem.trans (memcpy_mem c dest src n.toNat).symm⟩

/-- For every destination and every number of bytes, `memset` stores the low byte of `c` and
`memcpy` stores a source that does not overlap as the loop that goes byte by byte does. -/
theorem assembly_eq_byteLoop (mem : Word → Byte) (dest n : Word) :
    (∀ c edx esi, Reaches (BlockOp.step StringRegs.memsetByte StringRegs.stosl)
      (BlockOp.memset mem dest c n edx esi)
      (EndsAsByteLoop (fun _ _ => c.setWidth 8) dest mem n.toNat)) ∧
    ∀ src edx eax, NotOverlapping dest src n.toNat →
      Reaches (BlockOp.step StringRegs.memcpyByte StringRegs.movsl)
        (BlockOp.memcpy mem dest src n edx eax)
        (EndsAsByteLoop (fun k m => m (addressAt src k)) dest mem n.toNat) :=
  ⟨fun c edx esi => memset_ends mem dest c n edx esi,
    fun _ edx eax hsrc => memcpy_ends hsrc mem edx eax⟩

/-- Seven bytes are copied from 0x2000 to 0x1003: one, a double word, and two. -/
theorem assembly_eq_byteLoop_sample :
    Reaches (BlockOp.step StringRegs.memcpyByte StringRegs.movsl)
      (BlockOp.memcpy (fun a => a.setWidth 8) 0x1003 0x2000 7 0 0)
      (EndsAsByteLoop (fun k m => m (addressAt 0x2000 k)) 0x1003 (fun a => a.setWidth 8) 7) :=
  (assembly_eq_byteLoop (fun a => a.setWidth 8) 0x1003 7).2 0x2000 0 0 (by
    unfold NotOverlapping
    decide)

end Os391
