import Os391.Entry
import Os391.Lib.Unwinding

/-!
# A program that is interrupted

Interrupts can arrive between any two instructions of a program. Each of them goes through
the table and the stub to a handler, which may change what is in the memory of the kernel,
and back. `SparesProgram` is what a handler owes the program: it returns to its stub, and it
leaves the memory of the program alone. `keyboard_handler` does neither when it starts a shell
on another terminal, and its echo is seen in a window that `vidmap` has opened, which is no
part of the memory meant here. Among interrupts whose handlers keep to that the program cannot
tell: in two runs with as many instructions, interrupted in any places, every instruction
finds the same registers, flags and memory of the program.
-/

namespace Os391

open Bytes X86 InterruptTable Entry Runs

/-- The next instruction of the program, or an interrupt with vector `n` whose stub at `target`
calls `f`. `back` is the address behind the call. -/
inductive MachineEvent : Type where
  | instruction : MachineEvent
  | interrupt (n : ℕ) (f : Routine) (target back : Word) : MachineEvent

namespace MachineEvent

section

variable (code : Cpu → Cpu) (t : TaskState) (addr : Stub → Word) (lo hi : ℕ)

/-- The event. `code` executes one instruction. -/
def run (c : Cpu) : MachineEvent → Cpu
  | instruction => code c
  | interrupt n f target back => stub f target back (c.enter t (table addr n) c.eip)

/-- What belongs to the program: all registers and flags, and the memory from `lo` to `hi`. -/
def programPart (c : Cpu) : Cpu :=
  { c with mem := fun a => if lo ≤ a.toNat ∧ a.toNat < hi then c.mem a else 0 }

/-- A handler `f` that its stub has called in `entry` returns to the stub, and leaves the
memory of the program alone. -/
structure SparesProgram (f : Routine) (entry : Cpu) : Prop where
  returns : Returns 0 t.esp0.toNat entry (f entry)
  memory : SameOn lo hi entry.mem (f entry).mem

/-- An interrupt of a device arrives while interrupts are enabled, and its handler spares the
program. -/
def Arrives (c : Cpu) : MachineEvent → Prop
  | instruction => True
  | interrupt n f target back =>
    n ∈ [32, 33, 40] ∧ getFlag c.eflags .interrupt = true ∧
      SparesProgram t lo hi f (stubEntry target back (c.enter t (table addr n) c.eip))

/-- What an instruction finds. -/
def finds (c : Cpu) : MachineEvent → Option Cpu
  | instruction => some (programPart lo hi c)
  | interrupt _ _ _ _ => none

end

/-- An interrupt is no instruction of the program. -/
def Hidden (_ : Cpu) : MachineEvent → Prop
  | instruction => False
  | interrupt _ _ _ _ => True

instance (c : Cpu) : (e : MachineEvent) → Decidable (Hidden c e)
  | instruction => .isFalse id
  | interrupt _ _ _ _ => .isTrue trivial

/-- Instructions at the user level work on what belongs to the program, and do not leave the
level. -/
structure UserCode (lo hi : ℕ) (code : Cpu → Cpu) : Prop where
  same : ∀ {c c'}, programPart lo hi c = programPart lo hi c' →
    programPart lo hi (code c) = programPart lo hi (code c')
  level : ∀ {c : Cpu}, c.cpl = 3 → (code c).cpl = 3

section run

variable {code : Cpu → Cpu} {t : TaskState} {addr : Stub → Word} {lo hi : ℕ} {c c' : Cpu}

theorem programPart_eq (h : SameOn lo hi c.mem c'.mem) (hrest : c' = { c with mem := c'.mem }) :
    programPart lo hi c' = programPart lo hi c := by
  have hmem : (fun a : Word => if lo ≤ a.toNat ∧ a.toNat < hi then c'.mem a else 0) =
      fun a => if lo ≤ a.toNat ∧ a.toNat < hi then c.mem a else 0 := by
    funext a
    by_cases ha : lo ≤ a.toNat ∧ a.toNat < hi
    · rw [if_pos ha, if_pos ha, h a ha.1 ha.2]
    · rw [if_neg ha, if_neg ha]
  rw [programPart, programPart, hmem, hrest]

theorem cpl_of_programPart (h : programPart lo hi c = programPart lo hi c') : c'.cpl = c.cpl := by
  have hcs : (programPart lo hi c).cs = (programPart lo hi c').cs := congrArg Cpu.cs h
  exact congrArg (fun w : Word => w.toNat % 4) hcs.symm

/-- The gates of the devices lead into the kernel. -/
theorem level_device {n : ℕ} (h : n ∈ [32, 33, 40]) : (table addr n).selector.toNat % 4 = 0 := by
  have hstub : ∃ s, (n, s) ∈ handlers := by
    simp only [List.mem_cons, List.not_mem_nil, or_false] at h
    obtain rfl | rfl | rfl := h
    · exact ⟨.pitException, by decide⟩
    · exact ⟨.keyboardException, by decide⟩
    · exact ⟨.rtcException, by decide⟩
  obtain ⟨s, hs⟩ := hstub
  rw [gate_of_mem addr hs]
  exact (by decide : (0x10 : Word).toNat % 4 = 0)

/-- An interrupt leaves what belongs to the program alone. -/
theorem programPart_interrupt (hkernel : 60 ≤ t.esp0.toNat) (hlo : t.esp0.toNat ≤ lo)
    (hc : c.cpl = 3) {n : ℕ} {f : Routine} {target back : Word}
    (harrives : Arrives t addr lo hi c (.interrupt n f target back)) :
    programPart lo hi (run code t addr c (.interrupt n f target back)) = programPart lo hi c := by
  obtain ⟨hn, -, hret, hkeeps⟩ := harrives
  have hcpl : ¬ c.cpl = 0 := by omega
  have hesp : (c.inner t).regs .esp = t.esp0 := by
    rw [Cpu.inner, if_neg hcpl]
    simp [Cpu.set]
  have hstack : OnStack (c.inner t) t.esp0.toNat [] := ⟨t.esp0.isLt, by rw [hesp]; rfl, trivial⟩
  obtain ⟨hresumes, hsame⟩ :=
    @stub_resumes f c t _ _ [] c.eip target back hstack (level_device hn)
      (by rw [hesp]; exact hkernel) hret
  rw [hesp] at hsame
  have hentry : SameOn lo hi c.mem (stubEntry target back (c.enter t (table addr n) c.eip)).mem :=
    fun a ha _ => hsame a (Nat.le_trans hlo ha) a.isLt
  rw [run, hresumes]
  exact programPart_eq (hentry.trans hkeeps) rfl

/-- Two runs that differ in their interrupts. -/
theorem unwinds (hcode : UserCode lo hi code) (hkernel : 60 ≤ t.esp0.toNat) (hlo : t.esp0.toNat ≤ lo) :
    Unwinds (run code t addr) Hidden (Arrives t addr lo hi) (finds lo hi)
      fun a b => a.cpl = 3 ∧ programPart lo hi a = programPart lo hi b where
  symm h := ⟨(cpl_of_programPart h.2).trans h.1, h.2.symm⟩
  hidden {a b e} h hhidden harrives := by
    cases e with
    | instruction => exact hhidden.elim
    | interrupt n f target back =>
      have hpart := @programPart_interrupt code t addr lo hi a hkernel hlo h.1 n f target back
        harrives
      exact ⟨(cpl_of_programPart hpart.symm).trans h.1, hpart.trans h.2⟩
  unseen {a e} hhidden := by
    cases e with
    | instruction => exact hhidden.elim
    | interrupt n f target back => rfl
  both {a b e} h hseen _ _ _ := by
    cases e with
    | instruction => exact ⟨hcode.level h.1, hcode.same h.2⟩
    | interrupt n f target back => exact absurd trivial hseen
  same {a b e} h hseen _ _ _ := by
    cases e with
    | instruction => exact congrArg some h.2
    | interrupt n f target back => exact absurd trivial hseen

end run

end MachineEvent

end Os391
