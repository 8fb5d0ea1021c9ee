import Mathlib.Logic.Function.Basic
import Os391.Lib.BitField
import Os391.Lib.Bytes

/-!
# The stack of a 32-bit x86 processor

Registers, flags and byte-addressed memory, with the instructions that entry code is made
of: moves, pushes and pops, calls, jumps on a comparison, interrupts through a gate and
`iret`. `SameOn` says that code has left a part of the memory alone, `OnStack` what lies on the
stack. Registers that are pushed and popped again in the opposite order come back, and so does
the interrupted code after `iret`.
-/

namespace X86

open Bytes BitField

/-- The general registers. -/
inductive Reg : Type where
  | eax | ecx | edx | ebx | esp | ebp | esi | edi
  deriving DecidableEq

/-- The processor and its memory. -/
structure Cpu : Type where
  regs : Reg → Word
  eip : Word
  eflags : Word
  cs : Word
  ss : Word
  mem : Word → Byte

/-! ## Memory -/

/-- The word at an address. -/
def load (mem : Word → Byte) (a : Word) : Word := ofBytes fun k => mem (addressAt a k)

/-- A word stored. -/
def store (mem : Word → Byte) (a w : Word) : Word → Byte :=
  fun b => if (b - a).toNat < 4 then byteOf w (b - a).toNat else mem b

/-- The memory from address `lo` up to `hi` is the same. -/
def SameOn (lo hi : ℕ) (mem mem' : Word → Byte) : Prop :=
  ∀ a : Word, lo ≤ a.toNat → a.toNat < hi → mem' a = mem a

/-- Only the memory from address `lo` up to `hi` may have changed. -/
def SameOutside (lo hi : ℕ) (mem mem' : Word → Byte) : Prop :=
  ∀ a : Word, a.toNat < lo ∨ hi ≤ a.toNat → mem' a = mem a

section memory

variable {mem mem' mem'' : Word → Byte} {a w : Word} {lo hi : ℕ}

theorem load_store (mem : Word → Byte) (a w : Word) : load (store mem a w) a = w := by
  refine (ofBytes_congr fun k hk => ?_).trans (ofBytes_byteOf w)
  have hoffset : (addressAt a k - a).toNat = k := by
    rw [addressAt, BitVec.add_comm, BitVec.add_sub_cancel, BitVec.toNat_ofNat]
    omega
  rw [store, hoffset, if_pos hk]

namespace SameOn

theorem refl (lo hi : ℕ) (mem : Word → Byte) : SameOn lo hi mem mem := fun _ _ _ => rfl

theorem trans (h : SameOn lo hi mem mem') (h' : SameOn lo hi mem' mem'') :
    SameOn lo hi mem mem'' := fun a hlow hhigh => (h' a hlow hhigh).trans (h a hlow hhigh)

theorem mono (h : SameOn lo hi mem mem') {lo' hi' : ℕ} (hlo : lo ≤ lo') (hhi : hi' ≤ hi) :
    SameOn lo' hi' mem mem' :=
  fun a hlow hhigh => h a (Nat.le_trans hlo hlow) (Nat.lt_of_lt_of_le hhigh hhi)

/-- A store leaves what lies above or below it alone. -/
theorem store (mem : Word → Byte) (w : Word) (hfits : a.toNat + 4 ≤ 2 ^ 32)
    (h : a.toNat + 4 ≤ lo ∨ hi ≤ a.toNat) : SameOn lo hi mem (store mem a w) := by
  intro b hlow hhigh
  have hbound := b.isLt
  have hapart : ¬ (b - a).toNat < 4 := by
    rw [BitVec.toNat_sub]
    omega
  rw [X86.store, if_neg hapart]

/-- A word that lies inside the part that is the same. -/
theorem load_eq (h : SameOn lo hi mem mem') (hlow : lo ≤ a.toNat) (hhigh : a.toNat + 4 ≤ hi)
    (hfits : a.toNat + 4 ≤ 2 ^ 32) : load mem' a = load mem a := by
  refine ofBytes_congr fun k hk => ?_
  have hplace : (addressAt a k).toNat = a.toNat + k := by
    rw [addressAt, BitVec.toNat_add, BitVec.toNat_ofNat]
    omega
  exact h _ (by omega) (by omega)

end SameOn

namespace SameOutside

theorem refl (lo hi : ℕ) (mem : Word → Byte) : SameOutside lo hi mem mem := fun _ _ => rfl

/-- One change below the other. -/
theorem trans {mid : ℕ} (h : SameOutside mid hi mem mem') (h' : SameOutside lo mid mem' mem'')
    (hlo : lo ≤ mid) (hhi : mid ≤ hi) : SameOutside lo hi mem mem'' := by
  intro a ha
  exact (h' a (by omega)).trans (h a (by omega))

theorem store (mem : Word → Byte) (a w : Word) (hfits : a.toNat + 4 ≤ 2 ^ 32) :
    SameOutside a.toNat (a.toNat + 4) mem (store mem a w) := by
  intro b hb
  rcases hb with hb | hb
  · exact SameOn.store mem w hfits (Or.inr (Nat.le_refl _)) b (Nat.zero_le _) hb
  · exact SameOn.store mem w hfits (Or.inl (Nat.le_refl _)) b hb b.isLt

/-- What lies above. -/
theorem above (h : SameOutside lo hi mem mem') : SameOn hi (2 ^ 32) mem mem' :=
  fun a ha _ => h a (Or.inr ha)

end SameOutside

end memory

/-! ## Instructions -/

namespace Cpu

/-- A move to a register. -/
def set (c : Cpu) (r : Reg) (w : Word) : Cpu := { c with regs := Function.update c.regs r w }

/-- The word `k` bytes above the stack pointer. -/
def arg (c : Cpu) (k : ℕ) : Word := load c.mem (addressAt (c.regs .esp) k)

/-- The word `k` bytes above the address in a register. -/
def slot (c : Cpu) (r : Reg) (k : ℕ) : Word := load c.mem (addressAt (c.regs r) k)

def push (c : Cpu) (w : Word) : Cpu :=
  { c with
    regs := Function.update c.regs .esp (c.regs .esp - 4)
    mem := store c.mem (c.regs .esp - 4) w }

/-- The word on top of the stack. -/
def top (c : Cpu) : Word := load c.mem (c.regs .esp)

/-- The stack pointer moves up by a word. -/
def drop (c : Cpu) : Cpu := c.set .esp (c.regs .esp + 4)

/-- `pushl`, of what the register held before. -/
def pushl (c : Cpu) (r : Reg) : Cpu := c.push (c.regs r)

/-- `popl`. Into `esp` it is the word popped that stays. -/
def popl (c : Cpu) (r : Reg) : Cpu := c.drop.set r c.top

def pushfl (c : Cpu) : Cpu := c.push c.eflags

def popfl (c : Cpu) : Cpu := { c.drop with eflags := c.top }

/-- A call whose return address is `next`. -/
def call (c : Cpu) (target next : Word) : Cpu := { c.push next with eip := target }

def ret (c : Cpu) : Cpu := { c.drop with eip := c.top }

def leave (c : Cpu) : Cpu := (c.set .esp (c.regs .ebp)).popl .ebp

end Cpu

/-! ## Flags and comparisons -/

/-- The flags that entry code looks at or changes. -/
inductive Flag : Type where
  | carry | zero | sign | interrupt | overflow
  deriving DecidableEq

/-- Where they are in `eflags`. -/
def Flag.bit : Flag → ℕ
  | .carry => 0
  | .zero => 6
  | .sign => 7
  | .interrupt => 9
  | .overflow => 11

theorem Flag.bit_lt (f : Flag) : f.bit + 1 ≤ 32 := by
  cases f <;> decide

def Flag.field (f : Flag) : Field 32 := ⟨f.bit, 1, f.bit_lt⟩

def getFlag (x : Word) (f : Flag) : Bool := x.getLsbD f.field.lo

def setFlag (x : Word) (f : Flag) (b : Bool) : Word :=
  f.field.set ((BitVec.ofBool b).setWidth 32) x

@[simp] theorem getFlag_setFlag (x : Word) (f g : Flag) (b : Bool) :
    getFlag (setFlag x f b) g = if f = g then b else getFlag x g := by
  rw [getFlag, setFlag, Field.getLsbD_set]
  cases f <;> cases g <;> simp [Flag.field, Flag.bit, getFlag]

theorem getFlag_setFlag_self (x : Word) (f : Flag) (b : Bool) : getFlag (setFlag x f b) f = b := by
  simp

/-- The flags of `a - b` that the jumps look at. -/
def subFlags (a b x : Word) : Word :=
  let x := setFlag x .carry (decide (a.toNat < b.toNat))
  let x := setFlag x .zero (decide (a = b))
  let x := setFlag x .sign (a - b).msb
  setFlag x .overflow (decide (a.msb ≠ b.msb ∧ (a - b).msb ≠ a.msb))

namespace Cpu

def cli (c : Cpu) : Cpu := { c with eflags := setFlag c.eflags .interrupt false }

def sti (c : Cpu) : Cpu := { c with eflags := setFlag c.eflags .interrupt true }

/-- `subl` of a constant. -/
def subl (c : Cpu) (n : Word) (r : Reg) : Cpu :=
  { c.set r (c.regs r - n) with eflags := subFlags (c.regs r) n c.eflags }

/-- `cmpl` with a constant. -/
def cmpl (c : Cpu) (n : Word) (r : Reg) : Cpu :=
  { c with eflags := subFlags (c.regs r) n c.eflags }

/-- Whether `jl` jumps. -/
def jl (c : Cpu) : Bool := getFlag c.eflags .sign != getFlag c.eflags .overflow

/-- Whether `jg` jumps. -/
def jg (c : Cpu) : Bool :=
  !getFlag c.eflags .zero && getFlag c.eflags .sign == getFlag c.eflags .overflow

end Cpu

section flags

/-- The sign of the difference, corrected by the overflow, is the signed order. -/
theorem sign_ne_overflow_iff (a b : Word) :
    (a - b).msb ≠ decide (a.msb ≠ b.msb ∧ (a - b).msb ≠ a.msb) ↔ a.toInt < b.toInt := by
  have ha := a.isLt
  have hb := b.isLt
  have hcarry : (4294967296 - b.toNat + a.toNat) % 4294967296 =
      if b.toNat ≤ a.toNat then a.toNat - b.toNat else 4294967296 - b.toNat + a.toNat := by
    split <;> omega
  simp only [BitVec.msb_eq_decide, BitVec.toNat_sub, BitVec.toInt_eq_toNat_cond, ne_eq,
    decide_eq_decide, Nat.reduceSub, Nat.reducePow, hcarry]
  split <;> omega

variable (c : Cpu) (n : Word) (r : Reg)

theorem Cpu.jl_cmpl : (c.cmpl n r).jl = true ↔ (c.regs r).toInt < n.toInt := by
  rw [jl, bne_iff_ne, ← sign_ne_overflow_iff]
  simp [cmpl, subFlags]

theorem Cpu.jg_cmpl : (c.cmpl n r).jg = true ↔ n.toInt < (c.regs r).toInt := by
  have hiff := (sign_ne_overflow_iff (c.regs r) n).not
  rw [not_not] at hiff
  have hjump : (c.cmpl n r).jg = true ↔ c.regs r ≠ n ∧ ¬ (c.regs r).toInt < n.toInt := by
    rw [← hiff]
    simp [jg, cmpl, subFlags]
  rw [hjump, ne_eq, ← BitVec.toInt_inj]
  omega

end flags

/-- Neither `sti` nor a call changes the segments. -/
theorem Cpu.sti_call_segments (c : Cpu) (target next : Word) :
    (c.sti.call target next).cs = c.cs ∧ (c.sti.call target next).ss = c.ss := ⟨rfl, rfl⟩

/-! ## What lies on the stack -/

/-- The words from an address on. -/
def Words (mem : Word → Byte) : Word → List Word → Prop
  | _, [] => True
  | a, w :: ws => load mem a = w ∧ Words mem (a + 4) ws

/-- The words on top of the stack, up to address `base`. -/
structure OnStack (c : Cpu) (base : ℕ) (ws : List Word) : Prop where
  base_lt : base < 2 ^ 32
  top_add : (c.regs .esp).toNat + 4 * ws.length = base
  words : Words c.mem (c.regs .esp) ws

theorem toNat_add_four {a : Word} (h : a.toNat + 4 < 2 ^ 32) : (a + 4).toNat = a.toNat + 4 := by
  rw [BitVec.toNat_add]
  exact Nat.mod_eq_of_lt h

theorem toNat_sub_four {a : Word} (h : 4 ≤ a.toNat) : (a - 4).toNat = a.toNat - 4 := by
  have ha := a.isLt
  have hfour : (4 : Word).toNat = 4 := rfl
  rw [BitVec.toNat_sub, hfour]
  omega

namespace Words

variable {mem mem' : Word → Byte} {a : Word} {ws : List Word} {lo hi : ℕ}

/-- Words in the part of the memory that is the same. -/
theorem same (h : Words mem a ws) (hsame : SameOn lo hi mem mem') (hlow : lo ≤ a.toNat)
    (hhigh : a.toNat + 4 * ws.length ≤ hi) (hfits : a.toNat + 4 * ws.length ≤ 2 ^ 32) :
    Words mem' a ws := by
  induction ws generalizing a with
  | nil => trivial
  | cons w ws ih =>
    rw [List.length_cons] at hhigh hfits
    refine ⟨(hsame.load_eq hlow (by omega) (by omega)).trans h.1, ?_⟩
    cases ws with
    | nil => trivial
    | cons w' ws =>
      rw [List.length_cons] at hhigh hfits
      have hnext : (a + 4).toNat = a.toNat + 4 := toNat_add_four (by omega)
      exact ih h.2 (by omega) (by rw [List.length_cons]; omega) (by rw [List.length_cons]; omega)

theorem load_eq (h : Words mem a ws) {k : ℕ} (hk : k < ws.length) :
    load mem (addressAt a (4 * k)) = ws[k] := by
  induction ws generalizing a k with
  | nil => exact absurd hk (Nat.not_lt_zero k)
  | cons w ws ih =>
    cases k with
    | zero =>
      rw [Nat.mul_zero, addressAt_zero]
      exact h.1
    | succ k =>
      have hplace : addressAt a (4 * (k + 1)) = addressAt (a + 4) (4 * k) := by
        have hfour : a + 4 = addressAt a 4 := rfl
        rw [hfour, addressAt_addressAt, Nat.mul_succ, Nat.add_comm]
      rw [hplace]
      exact ih h.2 (Nat.lt_of_succ_lt_succ hk)

end Words

namespace OnStack

variable {c : Cpu} {base : ℕ} {w : Word} {ws : List Word}

theorem push (h : OnStack c base ws) (hroom : 4 ≤ (c.regs .esp).toNat) (w : Word) :
    OnStack (c.push w) base (w :: ws) := by
  obtain ⟨hbase, htop, hwords⟩ := h
  have hesp : (c.push w).regs .esp = c.regs .esp - 4 := by simp [Cpu.push]
  have hlow := toNat_sub_four hroom
  have hfits : (c.regs .esp).toNat + 4 * ws.length ≤ 2 ^ 32 := by omega
  refine ⟨hbase, by rw [hesp, hlow, List.length_cons]; omega, ?_⟩
  rw [hesp]
  refine ⟨load_store _ _ _, ?_⟩
  rw [BitVec.sub_add_cancel]
  exact hwords.same (SameOn.store _ _ (by omega) (Or.inl (by omega))) (Nat.le_refl _) hfits hfits

theorem top (h : OnStack c base (w :: ws)) : c.top = w := h.words.1

theorem drop (h : OnStack c base (w :: ws)) : OnStack c.drop base ws := by
  obtain ⟨hbase, htop, hwords⟩ := h
  have hesp : c.drop.regs .esp = c.regs .esp + 4 := by simp [Cpu.drop, Cpu.set]
  rw [List.length_cons] at htop
  refine ⟨hbase, ?_, hesp ▸ hwords.2⟩
  rw [hesp, toNat_add_four (by omega)]
  omega

theorem arg (h : OnStack c base ws) {k : ℕ} (hk : k < ws.length) : c.arg (4 * k) = ws[k] :=
  h.words.load_eq hk

/-- The stack pointer follows from what lies on the stack. -/
theorem esp_eq {c' : Cpu} (h : OnStack c base ws) {ws' : List Word} (h' : OnStack c' base ws')
    (hlength : ws.length = ws'.length) : c'.regs .esp = c.regs .esp := by
  have htop := h.top_add
  have htop' := h'.top_add
  exact BitVec.eq_of_toNat_eq (by omega)

/-- Only the stack pointer and the memory matter. -/
theorem congr {c' : Cpu} (h : OnStack c base ws) (hesp : c'.regs .esp = c.regs .esp)
    (hmem : c'.mem = c.mem) : OnStack c' base ws :=
  ⟨h.base_lt, hesp ▸ h.top_add, hesp ▸ hmem ▸ h.words⟩

/-- A call puts the return address on top. -/
theorem call (h : OnStack c base ws) (hroom : 4 ≤ (c.regs .esp).toNat) (target next : Word) :
    OnStack (c.call target next) base (next :: ws) :=
  (h.push hroom next).congr rfl rfl

theorem popfl (h : OnStack c base (w :: ws)) : OnStack c.popfl base ws := h.drop.congr rfl rfl

/-- `popl` for a register, then `ret`. -/
theorem popl_ret {back : Word} {r : Reg} (h : OnStack c base (w :: back :: ws)) (hr : r ≠ .esp) :
    OnStack (c.popl r).ret base ws ∧ (c.popl r).ret.eip = back ∧ (c.popl r).ret.regs r = w ∧
      ∀ r', r' ≠ .esp → r' ≠ r → (c.popl r).ret.regs r' = c.regs r' := by
  have hpop : OnStack (c.popl r) base (back :: ws) :=
    h.drop.congr (Function.update_of_ne (Ne.symm hr) _ _) rfl
  refine ⟨hpop.drop.congr rfl rfl, hpop.top, ?_, fun r' hesp hr' => ?_⟩
  · refine Eq.trans ?_ h.top
    simp [Cpu.ret, Cpu.popl, Cpu.drop, Cpu.set, hr]
  · simp [Cpu.ret, Cpu.popl, Cpu.drop, Cpu.set, hesp, hr']

/-- `popl %esp`, of the value that the pop leaves in `esp` anyway. -/
theorem popl_esp (h : OnStack c base (w :: ws)) (hw : w.toNat + 4 * ws.length = base) :
    c.popl .esp = c.drop := by
  have htop := h.drop.top_add
  have hesp : c.top = c.drop.regs .esp := by
    rw [h.top]
    exact BitVec.eq_of_toNat_eq (by omega)
  have hupdate : Function.update c.drop.regs .esp c.top = c.drop.regs := by
    rw [hesp, Function.update_eq_self]
  rw [Cpu.popl, Cpu.set, hupdate]

end OnStack

namespace Cpu

variable {c : Cpu} {r : Reg}

/-- What has been pushed is on top. -/
theorem arg_push_zero (c : Cpu) (w : Word) : (c.push w).arg 0 = w := by
  have hesp : (c.push w).regs .esp = c.regs .esp - 4 := by simp [push]
  rw [arg, hesp, addressAt_zero]
  exact load_store _ _ _

/-- After a push everything is a word further away. -/
theorem arg_push {k : ℕ} (hroom : 4 ≤ (c.regs .esp).toNat)
    (hfits : (c.regs .esp).toNat + k + 4 ≤ 2 ^ 32) (w : Word) :
    (c.push w).arg (k + 4) = c.arg k := by
  have hlow := toNat_sub_four hroom
  have hesp : (c.push w).regs .esp = c.regs .esp - 4 := by simp [push]
  have hplace : addressAt (c.regs .esp - 4) (k + 4) = addressAt (c.regs .esp) k := by
    have hfour : addressAt (c.regs .esp - 4) 4 = c.regs .esp := BitVec.sub_add_cancel _ _
    rw [Nat.add_comm, ← addressAt_addressAt, hfour]
  have hnat : (addressAt (c.regs .esp) k).toNat = (c.regs .esp).toNat + k := by
    rw [addressAt, BitVec.toNat_add, BitVec.toNat_ofNat]
    omega
  have hsame : SameOn (c.regs .esp).toNat (2 ^ 32) c.mem (c.push w).mem :=
    SameOn.store _ _ (by omega) (Or.inl (by omega))
  rw [arg, hesp, hplace]
  exact hsame.load_eq (by omega) (by omega) (by omega)

end Cpu

/-! ## Registers saved on the stack -/

namespace Cpu

/-- Registers pushed one after the other. -/
def pushAll (c : Cpu) (rs : List Reg) : Cpu := rs.foldl pushl c

/-- Registers popped one after the other. -/
def popAll (c : Cpu) (rs : List Reg) : Cpu := rs.foldl popl c

/-- `pushal`. -/
def pushal (c : Cpu) : Cpu :=
  ((c.pushAll [.eax, .ecx, .edx, .ebx]).push (c.regs .esp)).pushAll [.ebp, .esi, .edi]

/-- `popal`, which skips the stack pointer. -/
def popal (c : Cpu) : Cpu :=
  ((c.popAll [.edi, .esi, .ebp]).drop).popAll [.ebx, .edx, .ecx, .eax]

end Cpu

/-- `c'` is `c` with more on the stack: nothing else has changed. -/
structure Pushed (c c' : Cpu) : Prop where
  eq : ∃ esp mem, c' = { c with regs := Function.update c.regs .esp esp, mem := mem }
  outside : SameOutside (c'.regs .esp).toNat (c.regs .esp).toNat c.mem c'.mem
  le : (c'.regs .esp).toNat ≤ (c.regs .esp).toNat

namespace Pushed

variable {c c' c'' : Cpu}

theorem refl (c : Cpu) : Pushed c c := by
  refine ⟨⟨c.regs .esp, c.mem, ?_⟩, SameOutside.refl _ _ _, Nat.le_refl _⟩
  rw [Function.update_eq_self]

theorem trans (h : Pushed c c') (h' : Pushed c' c'') : Pushed c c'' := by
  obtain ⟨⟨esp, mem, rfl⟩, hsame, hle⟩ := h
  obtain ⟨⟨esp', mem', rfl⟩, hsame', hle'⟩ := h'
  refine ⟨⟨esp', mem', ?_⟩, hsame.trans hsame' hle' hle, Nat.le_trans hle' hle⟩
  simp

theorem push (hroom : 4 ≤ (c.regs .esp).toNat) (w : Word) : Pushed c (c.push w) := by
  have hlow := toNat_sub_four hroom
  have hbound := (c.regs .esp).isLt
  have hesp : (c.push w).regs .esp = c.regs .esp - 4 := by simp [Cpu.push]
  refine ⟨⟨_, _, rfl⟩, ?_, by rw [hesp]; omega⟩
  have hstore := SameOutside.store c.mem (c.regs .esp - 4) w (by omega)
  have hhigh : (c.regs .esp - 4).toNat + 4 = (c.regs .esp).toNat := by omega
  rw [hhigh] at hstore
  rw [hesp]
  exact hstore

theorem regs_eq (h : Pushed c c') {r : Reg} (hr : r ≠ .esp) : c'.regs r = c.regs r := by
  obtain ⟨⟨esp, mem, rfl⟩, -, -⟩ := h
  exact Function.update_of_ne hr _ _

theorem segments_eq (h : Pushed c c') : c'.cs = c.cs ∧ c'.ss = c.ss := by
  obtain ⟨⟨esp, mem, rfl⟩, -, -⟩ := h
  exact ⟨rfl, rfl⟩

end Pushed

section saved

variable {c : Cpu} {base : ℕ} {rs : List Reg} {ws : List Word}

/-- What has been pushed lies on the stack. -/
theorem pushAll_spec (h : OnStack c base ws) (hrs : .esp ∉ rs)
    (hroom : 4 * rs.length ≤ (c.regs .esp).toNat) :
    Pushed c (c.pushAll rs) ∧
      OnStack (c.pushAll rs) base ((rs.map c.regs).reverse ++ ws) := by
  induction rs generalizing c ws with
  | nil => exact ⟨Pushed.refl c, h⟩
  | cons r rs ih =>
    rw [List.mem_cons, not_or] at hrs
    rw [List.length_cons] at hroom
    have hlow : (c.regs .esp - 4).toNat = (c.regs .esp).toNat - 4 := toNat_sub_four (by omega)
    have hesp : (c.push (c.regs r)).regs .esp = c.regs .esp - 4 := by simp [Cpu.push]
    have hpush := Pushed.push (c := c) (by omega) (c.regs r)
    obtain ⟨hpushed, hstack⟩ := ih (h.push (by omega) (c.regs r)) hrs.2 (by rw [hesp]; omega)
    have hvalues : rs.map (c.push (c.regs r)).regs = rs.map c.regs :=
      List.map_congr_left fun r' hr' => hpush.regs_eq fun heq => hrs.2 (heq ▸ hr')
    refine ⟨hpush.trans hpushed, ?_⟩
    rw [hvalues] at hstack
    rw [List.map_cons, List.reverse_cons, List.append_assoc]
    exact hstack

/-- The registers popped get what lies on the stack; besides them only the stack pointer
changes. -/
theorem popAll_spec (val : Reg → Word) (h : OnStack c base (rs.map val ++ ws)) (hrs : .esp ∉ rs) :
    ∃ regs, c.popAll rs = { c with regs := regs } ∧ OnStack (c.popAll rs) base ws ∧
      (∀ r ∈ rs, regs r = val r) ∧ ∀ r, r ≠ .esp → r ∉ rs → regs r = c.regs r := by
  induction rs generalizing c with
  | nil => exact ⟨c.regs, rfl, h, by simp, fun _ _ _ => rfl⟩
  | cons r rs ih =>
    rw [List.mem_cons, not_or] at hrs
    have hdrop : OnStack (c.popl r) base (rs.map val ++ ws) :=
      h.drop.congr (Function.update_of_ne hrs.1 _ _) rfl
    obtain ⟨regs, heq, hstack, hin, hout⟩ := ih hdrop hrs.2
    have htop : (c.popl r).regs r = val r := (Function.update_self _ _ _).trans h.top
    refine ⟨regs, heq, hstack, fun r' hr' => ?_, fun r' hesp hr' => ?_⟩
    · rcases List.mem_cons.mp hr' with rfl | hr'
      · by_cases hagain : r' ∈ rs
        · exact hin r' hagain
        · rw [hout r' (Ne.symm hrs.1) hagain, htop]
      · exact hin r' hr'
    · rw [List.mem_cons, not_or] at hr'
      rw [hout r' hesp hr'.2]
      exact (Function.update_of_ne hr'.1 _ _).trans (Function.update_of_ne hesp _ _)

/-- What `pushal` leaves on the stack. -/
def saved (val : Reg → Word) (esp : Word) : List Word :=
  [val .edi, val .esi, val .ebp, esp, val .ebx, val .edx, val .ecx, val .eax]

theorem pushal_spec (h : OnStack c base ws) (hroom : 32 ≤ (c.regs .esp).toNat) :
    Pushed c c.pushal ∧ OnStack c.pushal base (saved c.regs (c.regs .esp) ++ ws) := by
  obtain ⟨hfirst, hstack⟩ := @pushAll_spec c base [.eax, .ecx, .edx, .ebx] ws h (by decide)
    (by simp only [List.length_cons, List.length_nil]; omega)
  have htop := h.top_add
  have htop' := hstack.top_add
  simp only [List.length_append, List.length_reverse, List.length_map, List.length_cons,
    List.length_nil] at htop'
  have hmid := Pushed.push (c := c.pushAll [.eax, .ecx, .edx, .ebx]) (by omega) (c.regs .esp)
  have hstack' := hstack.push (by omega) (c.regs .esp)
  have htop'' := hstack'.top_add
  simp only [List.length_append, List.length_reverse, List.length_map, List.length_cons,
    List.length_nil] at htop''
  obtain ⟨hlast, hall⟩ := @pushAll_spec _ base [.ebp, .esi, .edi] _ hstack' (by decide)
    (by simp only [List.length_cons, List.length_nil]; omega)
  refine ⟨(hfirst.trans hmid).trans hlast, ?_⟩
  have hregs : ∀ r, r ≠ .esp → ((c.pushAll [.eax, .ecx, .edx, .ebx]).push (c.regs .esp)).regs r =
      c.regs r := fun r hr => (hfirst.trans hmid).regs_eq hr
  simp only [List.map_cons, List.map_nil, List.reverse_cons, List.reverse_nil, List.nil_append,
    List.cons_append, hregs .ebp (by decide), hregs .esi (by decide), hregs .edi (by decide)] at hall
  exact hall

theorem popal_spec {val : Reg → Word} {esp : Word} (h : OnStack c base (saved val esp ++ ws)) :
    ∃ regs, c.popal = { c with regs := regs } ∧ OnStack c.popal base ws ∧
      ∀ r, r ≠ .esp → regs r = val r := by
  obtain ⟨regs, heq, hstack, hin, hout⟩ := @popAll_spec c base [.edi, .esi, .ebp]
    (esp :: val .ebx :: val .edx :: val .ecx :: val .eax :: ws) val h (by decide)
  obtain ⟨regs', heq', hstack', hin', hout'⟩ := @popAll_spec _ base [.ebx, .edx, .ecx, .eax]
    ws val hstack.drop (by decide)
  refine ⟨regs', ?_, hstack', fun r hr => ?_⟩
  · rw [Cpu.popal, heq', heq]
    rfl
  · by_cases hlate : r ∈ [Reg.ebx, .edx, .ecx, .eax]
    · exact hin' r hlate
    · have hearly : r ∈ [Reg.edi, .esi, .ebp] := by
        revert hr hlate
        cases r <;> decide
      rw [hout' r hr hlate, ← hin r hearly, heq]
      exact Function.update_of_ne hr _ _

end saved

/-! ## Interrupts -/

/-- A gate of the interrupt table. An interrupt gate disables interrupts, a trap gate does
not. -/
structure Gate : Type where
  offset : Word
  selector : Word
  trap : Bool
  dpl : ℕ
  present : Bool

/-- The stack for the inner privilege level. -/
structure TaskState : Type where
  esp0 : Word
  ss0 : Word

namespace Cpu

/-- The privilege level. -/
def cpl (c : Cpu) : ℕ := c.cs.toNat % 4

/-- The stack that an interrupt uses: the inner one when the privilege level changes. -/
def inner (c : Cpu) (t : TaskState) : Cpu :=
  if c.cpl = 0 then c else { c.set .esp t.esp0 with ss := t.ss0 }

/-- The outer stack noted on the inner one. -/
def noteStack (c : Cpu) (t : TaskState) : Cpu :=
  if c.cpl = 0 then c else ((c.inner t).push c.ss).push (c.regs .esp)

/-- An interrupt goes through a gate. `next` is where the interrupted code goes on. -/
def enter (c : Cpu) (t : TaskState) (g : Gate) (next : Word) : Cpu :=
  { (((c.noteStack t).push c.eflags).push c.cs).push next with
    eip := g.offset
    cs := g.selector
    eflags := if g.trap then c.eflags else setFlag c.eflags .interrupt false }

/-- `int n`: through the gate, if it is open to the privilege level and there is one; else it
raises an exception. -/
def int (c : Cpu) (idt : ℕ → Gate) (t : TaskState) (n : ℕ) (next : Word) : Except ℕ Cpu :=
  if (idt n).dpl < c.cpl then .error 13
  else if (idt n).present then .ok (c.enter t (idt n) next)
  else .error 11

/-- `iret`, to the same or to an outer level. -/
def iret (c : Cpu) : Cpu :=
  let outer := c.drop.drop.drop
  let back : Cpu := { outer with eip := c.top, cs := c.drop.top, eflags := c.drop.drop.top }
  if back.cpl = c.cpl then back else { back.set .esp outer.top with ss := outer.drop.top }

/-- What `iret` needs on the stack to go back to `c`. -/
def returnFrame (c : Cpu) (next : Word) : List Word :=
  [next, c.cs, c.eflags] ++ if c.cpl = 0 then [] else [c.regs .esp, c.ss]

/-- `c` goes on at `next`; besides that, the memory may have changed. -/
def resumed (c : Cpu) (next : Word) (mem : Word → Byte) : Cpu := { c with eip := next, mem := mem }

end Cpu

section interrupts

variable {c d : Cpu} {t : TaskState} {base : ℕ} {ws : List Word} {next : Word}

theorem Cpu.inner_eq (hcpl : c.cpl = 0) (t : TaskState) : c.inner t = c := if_pos hcpl

/-- On the same level the stack segment stays. -/
theorem Cpu.enter_ss (hcpl : c.cpl = 0) (t : TaskState) (g : Gate) (next : Word) :
    (c.enter t g next).ss = c.ss := by
  have hnote : c.noteStack t = c := if_pos hcpl
  change (c.noteStack t).ss = c.ss
  rw [hnote]

theorem Cpu.length_returnFrame_le (c : Cpu) (next : Word) : (c.returnFrame next).length ≤ 5 := by
  rw [returnFrame]
  split <;> simp

/-- Through a gate: what `iret` needs is on the stack, and the registers are as they were. -/
theorem enter_spec (h : OnStack (c.inner t) base ws) (hroom : 20 ≤ ((c.inner t).regs .esp).toNat)
    (g : Gate) : OnStack (c.enter t g next) base (c.returnFrame next ++ ws) ∧
      (∀ r, r ≠ .esp → (c.enter t g next).regs r = c.regs r) ∧
      SameOutside ((c.enter t g next).regs .esp).toNat ((c.inner t).regs .esp).toNat c.mem
        (c.enter t g next).mem := by
  have htop := h.top_add
  -- the words that an interrupt pushes
  have hpushes : ∀ (b : Cpu) (us : List Word), OnStack b base us → 12 ≤ (b.regs .esp).toNat →
      Pushed b (((b.push c.eflags).push c.cs).push next) ∧
      OnStack (((b.push c.eflags).push c.cs).push next) base (next :: c.cs :: c.eflags :: us) := by
    intro b us hb hlow
    have htop := hb.top_add
    have hb₁ := hb.push (by omega) c.eflags
    have htop₁ := hb₁.top_add
    rw [List.length_cons] at htop₁
    have hb₂ := hb₁.push (by omega) c.cs
    have htop₂ := hb₂.top_add
    rw [List.length_cons, List.length_cons] at htop₂
    exact ⟨((Pushed.push (by omega) _).trans (Pushed.push (by omega) _)).trans
      (Pushed.push (by omega) _), hb₂.push (by omega) next⟩
  by_cases hcpl : c.cpl = 0
  · have hnote : c.noteStack t = c := if_pos hcpl
    rw [Cpu.inner_eq hcpl] at h hroom ⊢
    obtain ⟨hpushed, hstack⟩ := hpushes c ws h (by omega)
    rw [Cpu.enter, hnote, Cpu.returnFrame, if_pos hcpl]
    exact ⟨hstack.congr rfl rfl, fun r hr => hpushed.regs_eq hr, hpushed.outside⟩
  · have hinner : c.inner t = { c.set .esp t.esp0 with ss := t.ss0 } := if_neg hcpl
    have hnote : c.noteStack t = ((c.inner t).push c.ss).push (c.regs .esp) := if_neg hcpl
    have h₁ := h.push (by omega) c.ss
    have htop₁ := h₁.top_add
    rw [List.length_cons] at htop₁
    have h₂ := h₁.push (by omega) (c.regs .esp)
    have htop₂ := h₂.top_add
    rw [List.length_cons, List.length_cons] at htop₂
    have hbefore := (Pushed.push (c := c.inner t) (by omega) c.ss).trans
      (Pushed.push (by omega) (c.regs .esp))
    obtain ⟨hpushed, hstack⟩ := hpushes _ _ h₂ (by omega)
    have hall := hbefore.trans hpushed
    rw [Cpu.enter, hnote, Cpu.returnFrame, if_neg hcpl]
    refine ⟨hstack.congr rfl rfl, fun r hr => (hall.regs_eq hr).trans ?_, ?_⟩
    · rw [hinner]
      exact Function.update_of_ne hr _ _
    · have hmem : (c.inner t).mem = c.mem := by
        rw [hinner]
        rfl
      exact hmem ▸ hall.outside

/-- Back to where the interrupt came from. -/
theorem iret_spec (h : OnStack d base (c.returnFrame next ++ ws)) (hd : d.cpl = 0)
    (hsame : c.cpl = 0 → OnStack c base ws ∧ d.ss = c.ss) (hregs : ∀ r, r ≠ .esp → d.regs r = c.regs r) :
    d.iret = c.resumed next d.mem := by
  have hdrop : ∀ (b : Cpu) (r : Reg), r ≠ .esp → b.drop.regs r = b.regs r := fun b r hr =>
    Function.update_of_ne hr _ _
  have hdrops : ∀ r, r ≠ .esp → d.drop.drop.drop.regs r = c.regs r := fun r hr => by
    rw [hdrop _ r hr, hdrop _ r hr, hdrop _ r hr, hregs r hr]
  rw [Cpu.returnFrame, List.append_assoc] at h
  have h₁ : OnStack d.drop base _ := h.drop
  have h₂ : OnStack d.drop.drop base _ := h₁.drop
  rw [Cpu.iret, h.top, h₁.top, h₂.top]
  dsimp only
  by_cases hcpl : c.cpl = 0
  · obtain ⟨hstack, hss⟩ := hsame hcpl
    rw [if_pos hcpl] at h₂
    have hback : Cpu.cpl { d.drop.drop.drop with eip := next, cs := c.cs, eflags := c.eflags } = d.cpl :=
      Eq.trans hcpl hd.symm
    rw [if_pos hback, Cpu.resumed]
    have hregs' : d.drop.drop.drop.regs = c.regs := by
      funext r
      by_cases hr : r = .esp
      · subst hr
        exact hstack.esp_eq h₂.drop rfl
      · exact hdrops r hr
    rw [hregs', ← hss]
    rfl
  · rw [if_neg hcpl] at h₂
    have h₃ : OnStack d.drop.drop.drop base _ := h₂.drop
    have hback : Cpu.cpl { d.drop.drop.drop with eip := next, cs := c.cs, eflags := c.eflags } ≠ d.cpl :=
      fun heq => hcpl (Eq.trans heq hd)
    rw [if_neg hback, Cpu.resumed, h₃.top, h₃.drop.top]
    have hregs' : Function.update d.drop.drop.drop.regs .esp (c.regs .esp) = c.regs := by
      funext r
      by_cases hr : r = .esp
      · subst hr
        exact Function.update_self _ _ _
      · exact (Function.update_of_ne hr _ _).trans (hdrops r hr)
    rw [Cpu.set]
    dsimp only
    rw [hregs']
    rfl

end interrupts

/-! ## Calls -/

/-- A routine, from its first instruction to behind its `ret`. -/
abbrev Routine : Type := Cpu → Cpu

/-- A routine with `n` argument words returns to its caller. What lies on the stack above the
arguments is as it was; the registers need not be. -/
structure Returns (n base : ℕ) (c c' : Cpu) : Prop where
  eip : c'.eip = c.top
  cs : c'.cs = c.cs
  ss : c'.ss = c.ss
  keeps : ∀ (back : Word) (as ws : List Word), as.length = n →
    OnStack c base (back :: (as ++ ws)) → ∃ as', as'.length = n ∧ OnStack c' base (as' ++ ws)

/-- `ret` and nothing else. -/
theorem Returns.ret (n base : ℕ) (c : Cpu) : Returns n base c c.ret :=
  ⟨rfl, rfl, rfl, fun _ as _ has h => ⟨as, has, h.drop.congr rfl rfl⟩⟩

end X86
