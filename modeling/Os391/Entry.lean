import Os391.InterruptTable

/-!
# Entering and leaving the kernel

The assembly between user programs and the functions of the kernel: the wrappers of
`ece391syscall.S`, `system_call` with its table, the stubs of `exceptionASM.S` and
`halt_return`. The functions written in C are parameters that follow the calling convention:
they return, and leave what lies on the stack above their arguments alone. Whatever they
leave in the registers, an interrupted program goes on as if nothing had happened, and a
system call returns with the registers that a caller may rely on.
-/

namespace Os391

open Bytes X86 InterruptTable

/-- The system calls. -/
inductive SysCall : Type where
  | halt | execute | read | write | open | close | getargs | vidmap | setHandler | sigreturn
  deriving DecidableEq

namespace Entry

/-! ## The source -/

/-- The numbers of `ece391sysnum.h`. -/
def number : SysCall → Word
  | .halt => 1
  | .execute => 2
  | .read => 3
  | .write => 4
  | .open => 5
  | .close => 6
  | .getargs => 7
  | .vidmap => 8
  | .setHandler => 9
  | .sigreturn => 10

/-- `jump_table`. -/
def jumpTable : List SysCall :=
  [.halt, .execute, .read, .write, .open, .close, .getargs, .vidmap, .setHandler, .sigreturn]

/-- The functions of the kernel: where they are and what they do. `next` is the address behind
the call in `system_call`. -/
structure Code : Type where
  address : SysCall → Word
  routine : SysCall → Routine
  next : Word

/-- The function that `system_call` calls, by what it has made of the number. -/
def called (c : Cpu) : SysCall := jumpTable.getD (c.regs .eax).toNat .halt

/-- The flags, registers and arguments that `system_call` pushes. -/
def saveAll (c : Cpu) : Cpu := (c.pushfl.pushl .esp).pushAll [.ebp, .edi, .esi, .edx, .ecx, .ebx]

/-- `system_call` up to the first instruction of the function called. -/
def handlerEntry (k : Code) (c : Cpu) : Cpu :=
  (saveAll c).sti.call (k.address (called c)) k.next

/-- And from its return on. -/
def handlerExit (c : Cpu) : Cpu :=
  (((c.popAll [.ebx, .ecx, .edx, .esi, .edi, .ebp]).popl .esp).popfl).iret

/-- `INVALID_CALL_NUM`. -/
def invalidCallNum (c : Cpu) : Cpu := (c.set .eax (-1)).iret

/-- `system_call`. -/
def systemCall (k : Code) (c : Cpu) : Cpu :=
  let c := (c.cli.subl 1 .eax).cmpl 0 .eax
  if c.jl then invalidCallNum c
  else
    let c := c.cmpl 9 .eax
    if c.jg then invalidCallNum c
    else handlerExit (k.routine (called c) (handlerEntry k c))

/-- What `DO_CALL` does before the `INT`. -/
def loadArguments (number : Word) (c : Cpu) : Cpu :=
  let c := (c.pushl .ebx).set .eax number
  let c := c.set .ebx (c.arg 8)
  let c := c.set .ecx (c.arg 12)
  c.set .edx (c.arg 16)

/-- `DO_CALL`. `next` is the address behind the `INT`. -/
def doCall (k : Code) (idt : ℕ → Gate) (t : TaskState) (number next : Word) (c : Cpu) : Except ℕ Cpu :=
  ((loadArguments number c).int idt t 0x80 next).map fun c => ((systemCall k c).popl .ebx).ret

/-- `halt_return`. -/
def haltReturn (c : Cpu) : Cpu :=
  let c := c.pushl .ebp
  let c := c.set .ebp (c.regs .esp)
  let c := c.set .esp (c.slot .ebp 8)
  let c := c.set .ebx (c.slot .ebp 16)
  let c := c.set .ebp (c.slot .ebp 12)
  let c := c.set .eax (c.regs .ebx)
  c.leave.ret

/-- `_start` up to the first instruction of `ece391_halt`. `back` and `next` are the addresses
behind its calls. -/
def start (main : Routine) (mainAt back haltAt next : Word) (c : Cpu) : Cpu :=
  ((((main (c.call mainAt back)).push 0).push 0).pushl .eax).call haltAt next

/-- A stub of `exceptionASM.S` up to the first instruction of the function called. -/
def stubEntry (target next : Word) (c : Cpu) : Cpu := c.pushal.pushfl.call target next

/-- A stub that calls `f`. `next` is the address behind the call. -/
def stub (f : Routine) (target next : Word) (c : Cpu) : Cpu :=
  (f (stubEntry target next c)).popfl.popal.iret

namespace Sample

/-- A kernel whose functions return at once. -/
def code : Code := ⟨number, fun _ => Cpu.ret, 0x401000⟩

def tss : TaskState := ⟨0x7FFFFC, 0x18⟩

theorem inner_program : OnStack (InterruptTable.Sample.program.inner tss) 0x7FFFFC [] :=
  ⟨by decide, by decide, trivial⟩

end Sample

/-! ## Interrupts -/

section stub

variable {f : Routine} {c : Cpu} {t : TaskState} {g : Gate} {base : ℕ} {ws : List Word}
  {next target back : Word}

/-- The interrupted code goes on where it was, with all its registers and flags. -/
theorem stub_resumes (h : OnStack (c.inner t) base ws) (hg : g.selector.toNat % 4 = 0)
    (hroom : 60 ≤ ((c.inner t).regs .esp).toNat)
    (hret : Returns 0 base (stubEntry target back (c.enter t g next))
      (f (stubEntry target back (c.enter t g next)))) :
    stub f target back (c.enter t g next) =
        c.resumed next (f (stubEntry target back (c.enter t g next))).mem ∧
      SameOn ((c.inner t).regs .esp).toNat (2 ^ 32) c.mem
        (stubEntry target back (c.enter t g next)).mem := by
  have hlength := c.length_returnFrame_le next
  have htop := h.top_add
  obtain ⟨hframe, hregs, hentered⟩ := @enter_spec c t base ws next h (by omega) g
  have htop' := hframe.top_add
  rw [List.length_append] at htop'
  obtain ⟨hpushed, hsaved⟩ := pushal_spec hframe (by omega)
  have hsavedTop := hsaved.top_add
  simp only [List.length_append, saved, List.length_cons, List.length_nil] at hsavedTop
  have hflags := hsaved.push (by omega) (c.enter t g next).pushal.eflags
  have hflagsTop := hflags.top_add
  simp only [List.length_append, saved, List.length_cons, List.length_nil] at hflagsTop
  have hentry := hflags.call (by omega) target back
  have hbelow := (hpushed.trans (Pushed.push (by omega) (c.enter t g next).pushal.eflags)).trans
    (Pushed.push (by omega) back)
  obtain ⟨as, has, hback⟩ := hret.keeps back [] _ rfl hentry
  obtain rfl : as = [] := List.eq_nil_of_length_eq_zero has
  obtain ⟨regs, heq, hend, hrestored⟩ := popal_spec hback.popfl
  obtain ⟨⟨esp, mem, hpushal⟩, -, -⟩ := hpushed
  have hcs : (f (stubEntry target back (c.enter t g next))).cs = g.selector := by
    rw [hret.cs, stubEntry, hpushal]
    rfl
  have hresumed : stub f target back (c.enter t g next) =
      c.resumed next (f (stubEntry target back (c.enter t g next))).popfl.popal.mem := by
    refine iret_spec hend ?_ (fun hcpl => ⟨?_, ?_⟩) fun r hr => ?_
    · rw [heq]
      exact (congrArg (fun w : Word => w.toNat % 4) hcs).trans hg
    · rwa [Cpu.inner_eq hcpl] at h
    · rw [heq]
      refine hret.ss.trans ?_
      rw [stubEntry, hpushal]
      exact Cpu.enter_ss hcpl t g next
    · rw [heq]
      exact (hrestored r hr).trans (hregs r hr)
  refine ⟨?_, hentered.above.trans (hbelow.outside.above.mono (by omega) (Nat.le_refl _))⟩
  rw [hresumed, heq]
  rfl

end stub

/-! ## System calls -/

/-- `system_call` after its comparisons, when the number is valid. -/
def checked (c : Cpu) : Cpu := ((c.cli.subl 1 .eax).cmpl 0 .eax).cmpl 9 .eax

theorem checked_regs (c : Cpu) {r : Reg} (hr : r ≠ .eax) : (checked c).regs r = c.regs r := by
  simp [checked, Cpu.cmpl, Cpu.subl, Cpu.cli, Cpu.set, hr]

theorem checked_eax (c : Cpu) : (checked c).regs .eax = c.regs .eax - 1 := by
  simp [checked, Cpu.cmpl, Cpu.subl, Cpu.cli, Cpu.set]

/-- The two comparisons let exactly the numbers from 1 to 10 pass. -/
theorem valid_iff (x : Word) :
    ¬ (x - 1).toInt < (0 : Word).toInt ∧ ¬ (9 : Word).toInt < (x - 1).toInt ↔
      1 ≤ x.toNat ∧ x.toNat ≤ 10 := by
  have hx := x.isLt
  have hzero : (0 : Word).toInt = 0 := rfl
  have hnine : (9 : Word).toInt = 9 := rfl
  have hone : (1 : Word).toNat = 1 := rfl
  rw [hzero, hnine, BitVec.toInt_eq_toNat_cond, BitVec.toNat_sub, hone]
  omega

section systemCall

variable {k : Code} {c u : Cpu} {t : TaskState} {g : Gate} {base : ℕ} {ws : List Word} {next : Word}

theorem systemCall_valid_eq (h : 1 ≤ (c.regs .eax).toNat ∧ (c.regs .eax).toNat ≤ 10) :
    systemCall k c = handlerExit (k.routine (called (checked c)) (handlerEntry k (checked c))) := by
  obtain ⟨hlow, hhigh⟩ := (valid_iff _).mpr h
  have heax : (c.cli.subl 1 .eax).regs .eax = c.regs .eax - 1 := by simp [Cpu.subl, Cpu.cli, Cpu.set]
  have hjl : ((c.cli.subl 1 .eax).cmpl 0 .eax).jl = false := by
    rw [← Bool.not_eq_true, Cpu.jl_cmpl, heax]
    exact hlow
  have hjg : ¬ (((c.cli.subl 1 .eax).cmpl 0 .eax).cmpl 9 .eax).jg = true := by
    rw [Cpu.jg_cmpl]
    exact heax ▸ hhigh
  rw [systemCall]
  dsimp only
  rw [hjl, if_neg Bool.false_ne_true]
  exact if_neg hjg

theorem systemCall_invalid_eq (h : ¬ (1 ≤ (c.regs .eax).toNat ∧ (c.regs .eax).toNat ≤ 10)) :
    ∃ x, systemCall k c = invalidCallNum { checked c with eflags := x } := by
  have heax : (c.cli.subl 1 .eax).regs .eax = c.regs .eax - 1 := by simp [Cpu.subl, Cpu.cli, Cpu.set]
  rw [← valid_iff] at h
  rw [systemCall]
  dsimp only
  by_cases hjl : ((c.cli.subl 1 .eax).cmpl 0 .eax).jl = true
  · rw [if_pos hjl]
    exact ⟨_, rfl⟩
  · rw [if_neg hjl]
    rw [Cpu.jl_cmpl, heax] at hjl
    have hjg : (((c.cli.subl 1 .eax).cmpl 0 .eax).cmpl 9 .eax).jg = true := by
      rw [Cpu.jg_cmpl]
      by_contra hle
      exact h ⟨hjl, heax ▸ hle⟩
    rw [if_pos hjg]
    exact ⟨_, rfl⟩

/-- An invalid number: -1, and nothing else has changed for the program. -/
theorem systemCall_invalid (h : OnStack (u.inner t) base ws) (hg : g.selector.toNat % 4 = 0)
    (hroom : 20 ≤ ((u.inner t).regs .esp).toNat)
    (hnumber : ¬ (1 ≤ (u.regs .eax).toNat ∧ (u.regs .eax).toNat ≤ 10)) :
    ∃ mem, systemCall k (u.enter t g next) = (u.set .eax (-1)).resumed next mem ∧
      SameOn ((u.inner t).regs .esp).toNat (2 ^ 32) u.mem mem := by
  obtain ⟨hstack, hregs, hsame⟩ := @enter_spec u t base ws next h hroom g
  obtain ⟨x, hcall⟩ := @systemCall_invalid_eq k (u.enter t g next) (by rwa [hregs .eax (by decide)])
  refine ⟨(u.enter t g next).mem, ?_, hsame.above⟩
  rw [hcall, invalidCallNum]
  have hesp : (checked (u.enter t g next)).regs .esp = (u.enter t g next).regs .esp :=
    checked_regs _ (by decide)
  have hframe : OnStack ((Cpu.set { checked (u.enter t g next) with eflags := x } .eax (-1))) base
      ((u.set .eax (-1)).returnFrame next ++ ws) :=
    hstack.congr hesp rfl
  refine iret_spec hframe hg (fun (hcpl : u.cpl = 0) => ⟨?_, ?_⟩) fun r hr => ?_
  · rw [Cpu.inner_eq hcpl] at h
    exact h.congr rfl rfl
  · exact Cpu.enter_ss hcpl t g next
  · by_cases heax : r = .eax
    · subst heax
      simp [Cpu.set]
    · simp only [Cpu.set, Function.update_of_ne heax]
      exact (checked_regs _ heax).trans (hregs r hr)

theorem systemCall_invalid_sample : ∃ mem,
    systemCall Sample.code (Sample.program.enter Sample.tss (systemCallGate fun _ => 0) 0) =
      (Sample.program.set .eax (-1)).resumed 0 mem ∧
      SameOn ((Sample.program.inner Sample.tss).regs .esp).toNat (2 ^ 32) Sample.program.mem mem :=
  systemCall_invalid Sample.inner_program (level_systemCallGate _) (by decide) (by decide)

/-- The words that the call of the function leaves on the stack above the return frame. -/
def kept (c : Cpu) (esp flags : Word) : List Word :=
  [c.regs .esi, c.regs .edi, c.regs .ebp, esp, flags]

theorem saveAll_spec (h : OnStack c base ws) (hroom : 32 ≤ (c.regs .esp).toNat) :
    Pushed c (saveAll c) ∧ ∃ esp flags, esp.toNat + 4 = (c.regs .esp).toNat ∧
      OnStack (saveAll c) base
        ([c.regs .ebx, c.regs .ecx, c.regs .edx] ++ (kept c esp flags ++ ws)) := by
  have htop := h.top_add
  have h₁ : OnStack c.pushfl base (c.eflags :: ws) := h.push (by omega) c.eflags
  have hpush₁ : Pushed c c.pushfl := Pushed.push (by omega) c.eflags
  have htop₁ := h₁.top_add
  rw [List.length_cons] at htop₁
  have h₂ : OnStack (c.pushfl.pushl .esp) base (c.pushfl.regs .esp :: c.eflags :: ws) :=
    h₁.push (by omega) _
  have hpush₂ : Pushed c (c.pushfl.pushl .esp) := hpush₁.trans (Pushed.push (by omega) _)
  have htop₂ := h₂.top_add
  rw [List.length_cons, List.length_cons] at htop₂
  obtain ⟨hpushed, h₃⟩ := @pushAll_spec _ base [.ebp, .edi, .esi, .edx, .ecx, .ebx] _ h₂ (by decide)
    (by simp only [List.length_cons, List.length_nil]; omega)
  simp only [List.map_cons, List.map_nil, hpush₂.regs_eq (by decide : Reg.ebp ≠ .esp),
    hpush₂.regs_eq (by decide : Reg.edi ≠ .esp), hpush₂.regs_eq (by decide : Reg.esi ≠ .esp),
    hpush₂.regs_eq (by decide : Reg.edx ≠ .esp), hpush₂.regs_eq (by decide : Reg.ecx ≠ .esp),
    hpush₂.regs_eq (by decide : Reg.ebx ≠ .esp)] at h₃
  exact ⟨hpush₂.trans hpushed, c.pushfl.regs .esp, c.eflags, by omega, h₃⟩

theorem handlerEntry_spec (h : OnStack c base ws) (hroom : 36 ≤ (c.regs .esp).toNat) :
    ∃ esp flags, esp.toNat + 4 = (c.regs .esp).toNat ∧
      OnStack (handlerEntry k c) base
        (k.next :: ([c.regs .ebx, c.regs .ecx, c.regs .edx] ++ (kept c esp flags ++ ws))) ∧
      (handlerEntry k c).cs = c.cs ∧ (handlerEntry k c).ss = c.ss ∧
      getFlag (handlerEntry k c).eflags .interrupt = true ∧
      SameOutside ((handlerEntry k c).regs .esp).toNat (c.regs .esp).toNat c.mem
        (handlerEntry k c).mem := by
  have htop := h.top_add
  obtain ⟨hpushed, esp, flags, hesp, hstack⟩ := saveAll_spec h (by omega)
  have htop' := hstack.top_add
  simp only [kept, List.length_append, List.length_cons, List.length_nil] at htop'
  have hsti : OnStack (saveAll c).sti base _ := hstack.congr rfl rfl
  have hroom' : 4 ≤ ((saveAll c).sti.regs .esp).toNat := by
    change 4 ≤ ((saveAll c).regs .esp).toNat
    omega
  have hcall := Pushed.push hroom' k.next
  obtain ⟨hcs, hss⟩ := (saveAll c).sti_call_segments (k.address (called c)) k.next
  refine ⟨esp, flags, hesp, hsti.call hroom' _ k.next, hcs.trans hpushed.segments_eq.1,
    hss.trans hpushed.segments_eq.2, ?_,
    hpushed.outside.trans hcall.outside hcall.le hpushed.le⟩
  exact getFlag_setFlag_self (saveAll c).eflags .interrupt true

/-- Back through the registers on the stack and the return frame. -/
theorem handlerExit_spec {d : Cpu} {x₁ x₂ x₃ esp flags : Word}
    (h : OnStack d base ([x₁, x₂, x₃] ++ (kept u esp flags ++ (u.returnFrame next ++ ws))))
    (hd : d.cpl = 0) (hlevel : u.cpl = 0 → OnStack u base ws ∧ d.ss = u.ss)
    (hesp : esp.toNat + 4 * (flags :: (u.returnFrame next ++ ws)).length = base) :
    ∃ regs, handlerExit d = Cpu.resumed { u with regs := regs } next d.mem ∧
      regs .eax = d.regs .eax ∧ regs .esp = u.regs .esp ∧
      ∀ r ∈ [Reg.esi, .edi, .ebp], regs r = u.regs r := by
  let val : Reg → Word := fun r => match r with
    | .ebx => x₁
    | .ecx => x₂
    | .edx => x₃
    | r => u.regs r
  obtain ⟨regs, heq, hstack, hin, hout⟩ := @popAll_spec d base [.ebx, .ecx, .edx, .esi, .edi, .ebp]
    (esp :: flags :: (u.returnFrame next ++ ws)) val h (by decide)
  have hpopped := hstack.popl_esp hesp
  have hend : OnStack (((d.popAll [.ebx, .ecx, .edx, .esi, .edi, .ebp]).popl .esp).popfl) base
      (u.returnFrame next ++ ws) := by
    rw [hpopped]
    exact hstack.drop.popfl
  have hback := iret_spec (c := { u with regs := Function.update regs .esp (u.regs .esp) }) hend
    (by rw [hpopped, heq]; exact hd)
    (fun hcpl => ⟨(hlevel hcpl).1.congr (by simp) rfl, by
      rw [hpopped, heq]
      exact (hlevel hcpl).2⟩)
    (fun r hr => by
      rw [hpopped, heq]
      simp [Cpu.popfl, Cpu.drop, Cpu.set, hr])
  refine ⟨Function.update regs .esp (u.regs .esp), ?_, ?_, Function.update_self _ _ _, ?_⟩
  · rw [handlerExit, hback, hpopped, heq]
    rfl
  · rw [Function.update_of_ne (by decide)]
    exact hout .eax (by decide) (by decide)
  · intro r hr
    have hne : r ≠ .esp := by
      rintro rfl
      exact absurd hr (by decide)
    rw [Function.update_of_ne hne, hin r (List.mem_cons_of_mem _ (List.mem_cons_of_mem _
      (List.mem_cons_of_mem _ hr)))]
    simp only [List.mem_cons, List.not_mem_nil, or_false] at hr
    rcases hr with rfl | rfl | rfl <;> rfl

/-- The words on the stack when the function of a system call starts, below the return frame. -/
def entryWords (k : Code) (u : Cpu) (esp flags : Word) : List Word :=
  k.next :: ([u.regs .ebx, u.regs .ecx, u.regs .edx] ++ kept u esp flags)

/-- What the function of system call `f` finds when it is called for `u`: its arguments on the
stack, interrupts enabled, and nothing changed but the stack of the kernel. -/
structure Started (k : Code) (f : SysCall) (t : TaskState) (g : Gate) (u entry : Cpu) : Prop where
  function : entry.eip = k.address f
  arguments : entry.arg 4 = u.regs .ebx ∧ entry.arg 8 = u.regs .ecx ∧ entry.arg 12 = u.regs .edx
  interrupts : getFlag entry.eflags .interrupt = true
  segments : entry.cs = g.selector ∧ (u.cpl = 0 → entry.ss = u.ss)
  same : SameOutside (entry.regs .esp).toNat ((u.inner t).regs .esp).toNat u.mem entry.mem

/-- A valid number: the function of that number is called. -/
theorem systemCall_started (f : SysCall) (h : OnStack (u.inner t) base ws)
    (hroom : 56 ≤ ((u.inner t).regs .esp).toNat) (hnumber : u.regs .eax = number f) :
    let entry := handlerEntry k (checked (u.enter t g next))
    Started k f t g u entry ∧ called (checked (u.enter t g next)) = f ∧
      ∃ esp flags, esp.toNat + 4 * (flags :: (u.returnFrame next ++ ws)).length = base ∧
        OnStack entry base (entryWords k u esp flags ++ (u.returnFrame next ++ ws)) := by
  have hlength := u.length_returnFrame_le next
  have htop := h.top_add
  obtain ⟨hframe, hregs, hmem⟩ := @enter_spec u t base ws next h (by omega) g
  have htop' := hframe.top_add
  rw [List.length_append] at htop'
  have hcheckedEsp : (checked (u.enter t g next)).regs .esp = (u.enter t g next).regs .esp :=
    checked_regs _ (by decide)
  have hchecked : OnStack (checked (u.enter t g next)) base (u.returnFrame next ++ ws) :=
    hframe.congr hcheckedEsp rfl
  obtain ⟨esp, flags, hesp, hentry, hcs, hss, hflag, hsame⟩ :=
    @handlerEntry_spec k _ base _ hchecked (by rw [hcheckedEsp]; omega)
  have hargs : ∀ r, r ≠ .esp → r ≠ .eax → (checked (u.enter t g next)).regs r = u.regs r :=
    fun r hr hr' => (checked_regs _ hr').trans (hregs r hr)
  have hcalled : called (checked (u.enter t g next)) = f := by
    rw [called, checked_eax, hregs .eax (by decide), hnumber]
    cases f <;> rfl
  have hkept : kept (checked (u.enter t g next)) esp flags = kept u esp flags := by
    rw [kept, kept, hargs .esi (by decide) (by decide), hargs .edi (by decide) (by decide),
      hargs .ebp (by decide) (by decide)]
  rw [hkept, hargs .ebx (by decide) (by decide), hargs .ecx (by decide) (by decide),
    hargs .edx (by decide) (by decide)] at hentry
  have hcheckedTop := hchecked.top_add
  have hentryTop := hentry.top_add
  simp only [List.length_cons, List.length_append] at hentryTop hcheckedTop
  rw [hcheckedEsp] at hsame hesp hcheckedTop
  refine ⟨⟨congrArg k.address hcalled, ⟨?_, ?_, ?_⟩, hflag, ⟨hcs, fun hcpl => ?_⟩, ?_⟩, hcalled,
    esp, flags, ?_, hentry⟩
  · exact hentry.arg (by simp : 1 < _)
  · exact hentry.arg (by simp : 2 < _)
  · exact hentry.arg (by simp : 3 < _)
  · exact hss.trans (Cpu.enter_ss hcpl t g next)
  · exact hmem.trans hsame (by omega) (by omega)
  · rw [List.length_cons, List.length_append]
    omega

/-- What is left of a system call for its caller `u`, whose function has returned in `d`: the
program goes on behind the `INT` with what the function has left in `eax`, and with the
registers that belong to it. -/
structure Served (next : Word) (u d u' : Cpu) : Prop where
  back : ∃ regs, u' = Cpu.resumed { u with regs := regs } next d.mem
  eax : u'.regs .eax = d.regs .eax
  esp : u'.regs .esp = u.regs .esp
  saved : ∀ r ∈ [Reg.esi, .edi, .ebp], u'.regs r = u.regs r

theorem systemCall_served (f : SysCall) (h : OnStack (u.inner t) base ws)
    (hg : g.selector.toNat % 4 = 0) (hroom : 56 ≤ ((u.inner t).regs .esp).toNat)
    (hnumber : u.regs .eax = number f)
    (hret : let entry := handlerEntry k (checked (u.enter t g next))
      Returns 3 base entry (k.routine f entry)) :
    Served next u (k.routine f (handlerEntry k (checked (u.enter t g next))))
      (systemCall k (u.enter t g next)) := by
  obtain ⟨hstarted, hcalled, esp, flags, hesp, hentry⟩ :=
    @systemCall_started k u t g base ws next f h hroom hnumber
  obtain ⟨-, hregs, -⟩ := @enter_spec u t base ws next h (by omega) g
  rw [entryWords, List.cons_append, List.append_assoc] at hentry
  obtain ⟨as, has, hback⟩ := hret.keeps _ _ _ rfl hentry
  obtain ⟨x₁, x₂, x₃, rfl⟩ := List.length_eq_three.mp has
  have hnum : 1 ≤ ((u.enter t g next).regs .eax).toNat ∧ ((u.enter t g next).regs .eax).toNat ≤ 10 := by
    rw [hregs .eax (by decide), hnumber]
    cases f <;> decide
  obtain ⟨regs, hexit, heax, hesp', hsaved⟩ := @handlerExit_spec u base ws next _ x₁ x₂ x₃ esp flags
    hback (by rw [Cpu.cpl, hret.cs, hstarted.segments.1]; exact hg)
    (fun hcpl => ⟨by rwa [Cpu.inner_eq hcpl] at h, hret.ss.trans (hstarted.segments.2 hcpl)⟩) hesp
  have hcall : systemCall k (u.enter t g next) = Cpu.resumed { u with regs := regs } next
      (k.routine f (handlerEntry k (checked (u.enter t g next)))).mem := by
    rw [systemCall_valid_eq hnum, hcalled]
    exact hexit
  rw [hcall]
  exact ⟨⟨regs, rfl⟩, heax, hesp', hsaved⟩

end systemCall

/-! ## The wrappers -/

/-- What `DO_CALL` has put into the registers. -/
theorem loadArguments_spec {u : Cpu} (n : Word) (hroom : 4 ≤ (u.regs .esp).toNat)
    (hfits : (u.regs .esp).toNat + 16 ≤ 2 ^ 32) :
    (loadArguments n u).regs .eax = n ∧ (loadArguments n u).regs .esp = u.regs .esp - 4 ∧
      (loadArguments n u).regs .ebx = u.arg 4 ∧ (loadArguments n u).regs .ecx = u.arg 8 ∧
      (loadArguments n u).regs .edx = u.arg 12 ∧
      ∀ r ∈ [Reg.esi, .edi, .ebp], (loadArguments n u).regs r = u.regs r := by
  -- the stack pointer is one word lower than in the caller
  have harg : ∀ j, j ≤ 12 → (u.push (u.regs .ebx)).arg (j + 4) = u.arg j := fun j hj =>
    Cpu.arg_push hroom (by omega) _
  have hebx : (loadArguments n u).regs .ebx = (u.push (u.regs .ebx)).arg 8 := by
    simp [loadArguments, Cpu.set, Cpu.arg, Cpu.pushl]
  have hecx : (loadArguments n u).regs .ecx = (u.push (u.regs .ebx)).arg 12 := by
    simp [loadArguments, Cpu.set, Cpu.arg, Cpu.pushl]
  have hedx : (loadArguments n u).regs .edx = (u.push (u.regs .ebx)).arg 16 := by
    simp [loadArguments, Cpu.set, Cpu.arg, Cpu.pushl]
  refine ⟨by simp [loadArguments, Cpu.set], by simp [loadArguments, Cpu.set, Cpu.pushl, Cpu.push],
    hebx.trans (harg 4 (by omega)), hecx.trans (harg 8 (by omega)),
    hedx.trans (harg 12 (by omega)), fun r hr => ?_⟩
  simp only [List.mem_cons, List.not_mem_nil, or_false] at hr
  rcases hr with rfl | rfl | rfl <;> simp [loadArguments, Cpu.set, Cpu.pushl, Cpu.push]

/-- A program that calls a wrapper: it runs at the user level, its stack is above that of the
kernel and the arguments are on it. -/
structure Calls (t : TaskState) (u : Cpu) : Prop where
  level : u.cpl = 3
  room : 56 ≤ t.esp0.toNat
  above : t.esp0.toNat + 4 ≤ (u.regs .esp).toNat
  fits : (u.regs .esp).toNat + 16 ≤ 2 ^ 32

/-- What the function of system call `f` finds when `u` calls its wrapper. -/
def started (k : Code) (addr : Stub → Word) (t : TaskState) (f : SysCall) (next : Word) (u : Cpu) : Cpu :=
  handlerEntry k (checked ((loadArguments (number f) u).enter t (systemCallGate addr) next))

/-- A wrapper returns to its caller `u`, like a function written in C. -/
structure Returned (u : Cpu) (result : Word) (u' : Cpu) : Prop where
  eip : u'.eip = u.top
  esp : u'.regs .esp = u.regs .esp + 4
  eax : u'.regs .eax = result
  saved : ∀ r ∈ [Reg.ebx, .esi, .edi, .ebp], u'.regs r = u.regs r
  rest : u'.eflags = u.eflags ∧ u'.cs = u.cs ∧ u'.ss = u.ss

section calls

variable {k : Code} {addr : Stub → Word} {f : SysCall} {next : Word} {u : Cpu} {t : TaskState}

/-- The stack of the kernel is empty when a program enters it. -/
theorem Calls.inner_spec (h : Calls t u) (n : Word) :
    ((loadArguments n u).inner t).regs .esp = t.esp0 ∧
      OnStack ((loadArguments n u).inner t) t.esp0.toNat [] := by
  have hcpl : ¬ (loadArguments n u).cpl = 0 := by
    have hlevel : (loadArguments n u).cpl = 3 := h.level
    omega
  have hesp : ((loadArguments n u).inner t).regs .esp = t.esp0 := by
    rw [Cpu.inner, if_neg hcpl]
    simp [Cpu.set]
  exact ⟨hesp, t.esp0.isLt, by rw [hesp]; rfl, trivial⟩

theorem Calls.started_spec (h : Calls t u) :
    Started k f t (systemCallGate addr) (loadArguments (number f) u) (started k addr t f next u) := by
  obtain ⟨hesp, hstack⟩ := h.inner_spec (number f)
  exact (systemCall_started f hstack (hesp ▸ h.room)
    (loadArguments_spec _ (by have := h.above; omega) h.fits).1).1

/-- The return address into `system_call` is on top of the stack of the kernel, with 13 words
above. -/
theorem Calls.onStack (h : Calls t u) : ∃ us, us.length = 13 ∧
    OnStack (started k addr t f next u) t.esp0.toNat (k.next :: us) := by
  obtain ⟨hesp, hstack⟩ := h.inner_spec (number f)
  have habove := h.above
  obtain ⟨-, -, esp, flags, -, hentry⟩ := @systemCall_started k _ t (systemCallGate addr) _ [] next f
    hstack (hesp ▸ h.room) (loadArguments_spec _ (by omega) h.fits).1
  refine ⟨_, ?_, hentry⟩
  have hcpl : ¬ (loadArguments (number f) u).cpl = 0 := by
    have hlevel : (loadArguments (number f) u).cpl = 3 := h.level
    omega
  simp [kept, Cpu.returnFrame, hcpl]

/-- The function finds the arguments of the wrapper. -/
theorem Calls.arguments (h : Calls t u) :
    let entry := started k addr t f next u
    entry.eip = k.address f ∧ entry.arg 4 = u.arg 4 ∧ entry.arg 8 = u.arg 8 ∧
      entry.arg 12 = u.arg 12 := by
  have habove := h.above
  obtain ⟨hfunction, ⟨harg₁, harg₂, harg₃⟩, -, -, -⟩ := @Calls.started_spec k addr f next u t h
  obtain ⟨-, -, hebx, hecx, hedx, -⟩ := @loadArguments_spec u (number f) (by omega) h.fits
  exact ⟨hfunction, harg₁.trans hebx, harg₂.trans hecx, harg₃.trans hedx⟩

/-- When the function returns, the wrapper returns. -/
theorem Calls.returned {d : Cpu} (h : Calls t u)
    (hd : k.routine f (started k addr t f next u) = d)
    (hret : Returns 3 t.esp0.toNat (started k addr t f next u) d)
    (hkeep : SameOn ((u.regs .esp).toNat - 4) ((u.regs .esp).toNat + 4)
      (started k addr t f next u).mem d.mem) :
    ∃ u', doCall k (table addr) t (number f) next u = .ok u' ∧ Returned u (d.regs .eax) u' := by
  subst hd
  obtain ⟨hesp, hstack⟩ := h.inner_spec (number f)
  obtain ⟨hlevel, hroom, habove, hfits⟩ := h
  obtain ⟨heax, hlow, -, -, -, hkept⟩ :=
    @loadArguments_spec u (number f) (by omega) hfits
  have hstarted : Started k f t _ _ (started k addr t f next u) :=
    (systemCall_started f hstack (hesp ▸ hroom) heax).1
  have hserved := systemCall_served f hstack (level_systemCallGate addr) (hesp ▸ hroom) heax hret
  refine ⟨_, by rw [doCall, int_systemCall]; rfl, ?_⟩
  -- the saved register and the return address are still on the stack
  have hcaller : OnStack u ((u.regs .esp).toNat + 4) [u.top] := ⟨by omega, rfl, rfl, trivial⟩
  have hpushed := hcaller.push (by omega) (u.regs .ebx)
  have hsame : SameOn ((u.regs .esp).toNat - 4) ((u.regs .esp).toNat + 4)
      (u.push (u.regs .ebx)).mem (k.routine f (started k addr t f next u)).mem :=
    (hstarted.same.above.mono (by rw [hesp]; omega) (by omega)).trans hkeep
  obtain ⟨⟨regs, hback⟩, heax', hesp', hsaved⟩ := hserved
  set v := systemCall k ((loadArguments (number f) u).enter t (systemCallGate addr) next)
  have hv : OnStack v ((u.regs .esp).toNat + 4) [u.regs .ebx, u.top] := by
    have htop := hpushed.top_add
    have hvesp : v.regs .esp = (u.push (u.regs .ebx)).regs .esp :=
      hesp'.trans (hlow.trans (by simp [Cpu.push]))
    have hvmem : v.mem = (k.routine f (started k addr t f next u)).mem := by
      rw [hback]
      rfl
    refine ⟨hpushed.base_lt, by rw [hvesp]; exact htop, ?_⟩
    rw [hvesp, hvmem]
    simp only [List.length_cons, List.length_nil] at htop
    exact hpushed.words.same hsame (by omega) (by simp only [List.length_cons, List.length_nil]; omega)
      (by simp only [List.length_cons, List.length_nil]; omega)
  obtain ⟨hend, heip, hebx', hregs⟩ := hv.popl_ret (by decide : Reg.ebx ≠ .esp)
  refine ⟨heip, ?_, (hregs .eax (by decide) (by decide)).trans heax', fun r hr => ?_, ?_⟩
  · have htop := hend.top_add
    have hnext : (u.regs .esp + 4).toNat = (u.regs .esp).toNat + 4 := toNat_add_four (by omega)
    exact BitVec.eq_of_toNat_eq (htop.trans hnext.symm)
  · rcases List.mem_cons.mp hr with rfl | hr'
    · exact hebx'
    · have hne : r ≠ .esp ∧ r ≠ .ebx := by
        constructor <;> (rintro rfl; revert hr'; decide)
      exact (hregs r hne.1 hne.2).trans ((hsaved r hr').trans (hkept r hr'))
  · have hrest : v.eflags = u.eflags ∧ v.cs = u.cs ∧ v.ss = u.ss := by
      rw [hback]
      exact ⟨rfl, rfl, rfl⟩
    exact hrest

/-- The wrapper hands the three arguments over, and if the function returns as the calling
convention has it, with the caller's stack as it was, it returns the result. -/
theorem doCall_returns (h : Calls t u) :
    let entry := started k addr t f next u
    (entry.eip = k.address f ∧ entry.arg 4 = u.arg 4 ∧ entry.arg 8 = u.arg 8 ∧
      entry.arg 12 = u.arg 12) ∧
    (Returns 3 t.esp0.toNat entry (k.routine f entry) →
      SameOn ((u.regs .esp).toNat - 4) ((u.regs .esp).toNat + 4) entry.mem (k.routine f entry).mem →
      ∃ u', doCall k (table addr) t (number f) next u = .ok u' ∧
        Returned u ((k.routine f entry).regs .eax) u') :=
  ⟨h.arguments, fun hret hkeep => h.returned rfl hret hkeep⟩

theorem Sample.calls : Calls Sample.tss Sample.program :=
  ⟨by decide, by decide, by decide, by decide⟩

theorem doCall_returns_sample :
    let entry := started Sample.code (fun _ => 0) Sample.tss .read 0 Sample.program
    (entry.eip = 3 ∧ entry.arg 4 = Sample.program.arg 4 ∧ entry.arg 8 = Sample.program.arg 8 ∧
      entry.arg 12 = Sample.program.arg 12) ∧
    ∃ u', doCall Sample.code (table fun _ => 0) Sample.tss 3 0 Sample.program = .ok u' ∧
      Returned Sample.program (entry.ret.regs .eax) u' := by
  have h := @doCall_returns Sample.code (fun _ => 0) .read 0 Sample.program Sample.tss Sample.calls
  exact ⟨h.1, h.2 (Returns.ret _ _ _) (SameOn.refl _ _ _)⟩

end calls

/-! ## From `main` to the parent -/

/-- What `halt_return` makes of its arguments. -/
theorem haltReturn_eq (d : Cpu) :
    (haltReturn d).eip = load (d.pushl .ebp).mem ((d.pushl .ebp).arg 12 + 4) ∧
      (haltReturn d).regs .esp = (d.pushl .ebp).arg 12 + 4 + 4 ∧
      (haltReturn d).regs .eax = (d.pushl .ebp).arg 16 ∧ (haltReturn d).cs = d.cs ∧
      (haltReturn d).ss = d.ss ∧ (haltReturn d).mem = (d.pushl .ebp).mem := by
  refine ⟨?_, ?_, ?_, rfl, rfl, rfl⟩
  all_goals simp [haltReturn, Cpu.leave, Cpu.ret, Cpu.drop, Cpu.popl, Cpu.top, Cpu.set, Cpu.slot,
    Cpu.arg]

/-- `halt_return` is called by the child in `d`, with the frame pointer of the function that
the parent entered in `e`: it returns to the caller of that function, with the status. -/
structure Unwinds (base : ℕ) (e d : Cpu) : Prop where
  room : 4 ≤ (d.regs .esp).toNat
  fits : (d.regs .esp).toNat + 16 ≤ 2 ^ 32
  segments : d.cs = e.cs ∧ d.ss = e.ss
  framePointer : d.arg 8 = e.regs .esp - 4
  frame : SameOn (e.regs .esp).toNat base e.mem d.mem
  apart : (d.regs .esp).toNat ≤ (e.regs .esp).toNat ∨ base + 4 ≤ (d.regs .esp).toNat

theorem Unwinds.spec {d e : Cpu} {n base : ℕ} {back : Word} {us : List Word}
    (h : Unwinds base e d) (he : OnStack e base (back :: us)) :
    Returns n base e (haltReturn d) ∧ (haltReturn d).regs .eax = d.arg 12 := by
  obtain ⟨hroom, hfits, ⟨hcs, hss⟩, hebp, hframe, hapart⟩ := h
  obtain ⟨heip, hesp, heax, hcs', hss', hmem⟩ := haltReturn_eq d
  have harg : ∀ k, k ≤ 12 → (d.pushl .ebp).arg (k + 4) = d.arg k := fun k hk =>
    Cpu.arg_push hroom (by omega) _
  have hbase := he.base_lt
  have htop := he.top_add
  rw [List.length_cons] at htop
  have hlow := toNat_sub_four hroom
  have hsame : SameOn (e.regs .esp).toNat base e.mem (haltReturn d).mem := by
    rw [hmem]
    exact hframe.trans (SameOn.store _ _ (by omega) (by omega))
  rw [harg 8 (by omega), hebp, BitVec.sub_add_cancel] at heip hesp
  refine ⟨⟨?_, hcs'.trans hcs, hss'.trans hss, fun back' as ws has hstack => ⟨as, has, ?_⟩⟩,
    heax.trans (harg 12 (by omega))⟩
  · rw [heip, ← hmem]
    exact hsame.load_eq (Nat.le_refl _) (by omega) (by omega)
  · have hdrop := hstack.drop
    have hplace : (haltReturn d).regs .esp = e.drop.regs .esp := by
      rw [hesp]
      simp [Cpu.drop, Cpu.set]
    have hend := hdrop.top_add
    have hstart := hstack.top_add
    rw [List.length_cons] at hstart
    refine ⟨hdrop.base_lt, by rw [hplace]; exact hend, ?_⟩
    rw [hplace]
    exact Words.same hdrop.words hsame (by omega) (by omega) (by omega)

/-- `_start` hands the result of `main` to `ece391_halt`. -/
theorem start_arg {main : Routine} {mainAt back haltAt next : Word} {c r : Cpu}
    (hmain : main (c.call mainAt back) = r) (hroom : 16 ≤ (r.regs .esp).toNat) :
    (start main mainAt back haltAt next c).arg 4 = r.regs .eax := by
  let x : Cpu := (r.push 0).push 0
  have hbound := (r.regs .esp).isLt
  have hesp : (x.push (x.regs .eax)).regs .esp = r.regs .esp - 4 - 4 - 4 := by simp [x, Cpu.push]
  have hlow₁ := @toNat_sub_four (r.regs .esp) (by omega)
  have hlow₂ := @toNat_sub_four (r.regs .esp - 4) (by omega)
  have hlow₃ := @toNat_sub_four (r.regs .esp - 4 - 4) (by omega)
  have hcall : ((x.push (x.regs .eax)).push next).arg 4 = (x.push (x.regs .eax)).arg 0 :=
    @Cpu.arg_push _ 0 (by rw [hesp]; omega) (by rw [hesp]; omega) next
  rw [start, hmain]
  refine hcall.trans ((Cpu.arg_push_zero x _).trans ?_)
  simp [x, Cpu.push]

section halt

variable {k : Code} {addr : Stub → Word} {next : Word} {u d : Cpu} {t : TaskState}

/-- `ece391_execute` returns when the child halts, with the status that `halt_return` is
given. -/
theorem Calls.execute_returned (h : Calls t u)
    (hd : k.routine .execute (started k addr t .execute next u) = haltReturn d)
    (hunwinds : Unwinds t.esp0.toNat (started k addr t .execute next u) d)
    (hbelow : (d.regs .esp).toNat + 4 ≤ (u.regs .esp).toNat)
    (hkeep : SameOn ((u.regs .esp).toNat - 4) ((u.regs .esp).toNat + 4)
      (started k addr t .execute next u).mem d.mem) :
    ∃ u', doCall k (table addr) t (number .execute) next u = .ok u' ∧
      Returned u (d.arg 12) u' := by
  obtain ⟨us, -, hstack⟩ := @Calls.onStack k addr .execute next u t h
  obtain ⟨hret, heax⟩ := hunwinds.spec hstack
  obtain ⟨-, -, -, -, -, hmem⟩ := haltReturn_eq d
  have hroom := hunwinds.room
  have hfits := hunwinds.fits
  have hlow := toNat_sub_four hroom
  rw [← heax]
  refine h.returned hd hret (hkeep.trans ?_)
  rw [hmem]
  exact SameOn.store _ _ (by omega) (by omega)

end halt

end Entry

end Os391
