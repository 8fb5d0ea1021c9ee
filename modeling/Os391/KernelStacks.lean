import Os391.AddressSpace
import Os391.Bracket
import Os391.Entry

/-!
# The stacks of the kernel

Each process has 8 KB for its system calls, and `tss.esp0` is the top of those of the current
one. So whatever wrapper a program calls, the entry into the kernel writes to these 8 KB and
to one word of the program's own stack, and the call returns. A child halts on another
stack than the one on which its parent waits in `execute_function`: the parent gets the
status.
-/

namespace Os391

open Bytes X86 InterruptTable Entry Relation

variable {L : Link} {fs : FileSystem} {cs : CallSite}

/-- Where the stack of a process begins. -/
def stackBottom (i : Fin 6) : ℕ := 0x800000 - 0x2000 * (i.val + 1)

/-- `tss.esp0` leaves the topmost word free. -/
theorem toNat_kernelStackTop (i : Fin 6) :
    (kernelStackTop i.val).toNat = stackBottom i + 0x2000 - 4 := by
  have hi := i.isLt
  simp only [kernelStackTop, BitVec.toNat_ofInt]
  unfold stackBottom
  omega

theorem stackBottom_le (i : Fin 6) : stackBottom i + 0x2000 ≤ 0x800000 ∧ 0x7F4000 ≤ stackBottom i := by
  have hi := i.isLt
  unfold stackBottom
  omega

/-- Two stacks lie apart. -/
theorem stackBottom_apart {i j : Fin 6} (h : i ≠ j) :
    stackBottom i + 0x2000 ≤ stackBottom j ∨ stackBottom j + 0x2000 ≤ stackBottom i := by
  have hne : i.val ≠ j.val := fun heq => h (Fin.ext heq)
  have hi := i.isLt
  have hj := j.isLt
  unfold stackBottom
  omega

/-- A program runs, with its stack in the page for programs. -/
structure Running (u : Cpu) : Prop where
  level : u.cpl = 3
  low : 0x8000000 ≤ (u.regs .esp).toNat
  high : (u.regs .esp).toNat < 0x8400000

section calls

variable {t : TaskState} {u : Cpu} {i : Fin 6}

/-- It can call the wrappers. -/
theorem Running.calls (hu : Running u) (ht : t.esp0 = kernelStackTop i.val) : Calls t u := by
  obtain ⟨hlevel, hlow, hhigh⟩ := hu
  have htop := toNat_kernelStackTop i
  have hbottom := stackBottom_le i
  exact ⟨hlevel, by rw [ht]; omega, by rw [ht]; omega, by omega⟩

variable {k : Code} {addr : Stub → Word} {f : SysCall} {next : Word}

/-- The function of a system call starts 60 bytes below the end of the stack. -/
theorem Running.started_esp (hu : Running u) (ht : t.esp0 = kernelStackTop i.val) :
    ((started k addr t f next u).regs .esp).toNat = stackBottom i + 0x2000 - 60 := by
  obtain ⟨us, hlength, hstack⟩ := @Calls.onStack k addr f next u t (hu.calls ht)
  have htop := hstack.top_add
  have htop' := toNat_kernelStackTop i
  rw [List.length_cons, hlength, ht] at htop
  omega

/-- The entry writes to the stack of the process and to the word on which the wrapper saves a
register. -/
theorem Running.started_mem (hu : Running u) (ht : t.esp0 = kernelStackTop i.val) {a : Word}
    (hstack : a.toNat < stackBottom i ∨ stackBottom i + 0x2000 ≤ a.toNat)
    (hown : a.toNat < (u.regs .esp).toNat - 4 ∨ (u.regs .esp).toNat ≤ a.toNat) :
    (started k addr t f next u).mem a = u.mem a := by
  have hcalls := hu.calls ht
  have hesp := @Running.started_esp t u i k addr f next hu ht
  have hlow := hu.low
  have hbottom := stackBottom_le i
  have htop := toNat_kernelStackTop i
  have hpush := Pushed.push (c := u) (by omega) (u.regs .ebx)
  have hpushEsp : ((u.push (u.regs .ebx)).regs .esp).toNat = (u.regs .esp).toNat - 4 := by
    simp only [Cpu.push, Function.update_self]
    exact toNat_sub_four (by omega)
  obtain ⟨-, -, -, -, hsame⟩ := @Calls.started_spec k addr f next u t hcalls
  rw [(hcalls.inner_spec _).1, ht] at hsame
  have hentry : (started k addr t f next u).mem a = (u.push (u.regs .ebx)).mem a :=
    hsame a (by omega)
  exact hentry.trans (hpush.outside a (by rw [hpushEsp]; exact hown))

/-- The function of system call `f` starts for program `u` of process `i`: with the arguments of
the wrapper, on the stack of that process, and with all other memory as it was but for the word
on which the wrapper saves a register. -/
structure StartsOn (i : Fin 6) (k : Code) (f : SysCall) (u entry : Cpu) : Prop where
  function : entry.eip = k.address f
  arguments : entry.arg 4 = u.arg 4 ∧ entry.arg 8 = u.arg 8 ∧ entry.arg 12 = u.arg 12
  esp : (entry.regs .esp).toNat = stackBottom i + 0x2000 - 60
  mem : ∀ a : Word, a.toNat < stackBottom i ∨ stackBottom i + 0x2000 ≤ a.toNat →
    a.toNat < (u.regs .esp).toNat - 4 ∨ (u.regs .esp).toNat ≤ a.toNat → entry.mem a = u.mem a

theorem Running.startsOn (hu : Running u) (ht : t.esp0 = kernelStackTop i.val) :
    StartsOn i k f u (started k addr t f next u) := by
  obtain ⟨hfunction, harguments⟩ := @Calls.arguments k addr f next u t (hu.calls ht)
  exact ⟨hfunction, harguments, hu.started_esp ht, fun a => hu.started_mem ht⟩

end calls

/-! ## From the kernel's runs -/

/-- From the running base shell on the process table is a tree of stacks, and the page for
programs and the stack of the kernel are those of the current process. -/
theorem tree_mapsCurrent_run {mem : Word → Byte} {p : PageTables} {s₀ s : Kernel} {eip esp : Word}
    (hboot : executeFunction L fs cs (some shellCommand) (bootKernel L mem p) =
      (.userMode eip esp, s₀))
    (hrun : ReflTransGen (MapStep L fs ArgsFit SameProcess) s₀ s) :
    (∃ S, Tree s S) ∧ MapsCurrent s := by
  obtain ⟨i, hs⟩ := executeFunction_userMode hboot
  induction hrun with
  | refl => exact ⟨⟨_, tree_boot hs argsFit_shell⟩, hs.mapsCurrent⟩
  | tail _ hstep ih => exact hstep.preserves ih.1 ih.2

/-- `tss.esp0` is the top of the stack of the current process. -/
theorem MapsCurrent.esp0_slot {s : Kernel} {i : Fin 6} (h : MapsCurrent s) (hpid : s.pid = i.val) :
    s.tss.esp0 = kernelStackTop i.val := by
  rw [h.esp0, hpid]
  rfl

/-- From the running base shell on, as long as arguments fit and the user switches to a terminal
that runs already only when the same process is on top of it: whatever the current program
calls starts on the stack of the current process. -/
theorem entries_run {mem : Word → Byte} {p : PageTables} {s₀ s : Kernel} {eip esp : Word}
    (hboot : executeFunction L fs cs (some shellCommand) (bootKernel L mem p) =
      (.userMode eip esp, s₀))
    (hrun : ReflTransGen (MapStep L fs ArgsFit SameProcess) s₀ s) :
    ∃ i : Fin 6, s.pid = i.val ∧ ∀ (ss : Word) (u : Cpu), Running u → ∀ k addr f next,
      StartsOn i k f u (started k addr ⟨s.tss.esp0, ss⟩ f next u) := by
  obtain ⟨⟨S, htree⟩, hmaps⟩ := tree_mapsCurrent_run hboot hrun
  have hpid := htree.current
  exact ⟨_, hpid, fun ss u hu k addr f next => hu.startsOn (hmaps.esp0_slot hpid)⟩

theorem entries_run_sample : ∃ i : Fin 6, Sample.twoShells.pid = i.val ∧
    ∀ (ss : Word) (u : Cpu), Running u → ∀ k addr f next,
      StartsOn i k f u (started k addr ⟨Sample.twoShells.tss.esp0, ss⟩ f next u) :=
  entries_run Sample.execute_atBoot (.single (.startsShell Sample.switch_running))

/-! ## From `main` to the parent -/

/-- `halt_return` is called by a child in `d`, on the stack of slot `j`. -/
structure HaltsOn (j : Fin 6) (e d : Cpu) : Prop where
  low : stackBottom j + 4 ≤ (d.regs .esp).toNat
  high : (d.regs .esp).toNat + 16 ≤ stackBottom j + 0x2000
  segments : d.cs = e.cs ∧ d.ss = e.ss

/-- What the parent has left on its two stacks is still there. -/
def Waiting (i : Fin 6) (u e d : Cpu) : Prop :=
  SameOn (e.regs .esp).toNat (stackBottom i + 0x2000 - 4) e.mem d.mem ∧
    SameOn ((u.regs .esp).toNat - 4) ((u.regs .esp).toNat + 4) e.mem d.mem

/-- `halt_return` is called in `d` with the three values `halt_function` has come to. -/
def HaltOutcome.PassedIn (out : HaltOutcome) (d : Cpu) : Prop :=
  match out with
  | .resumes esp ebp eax => d.arg 4 = esp ∧ d.arg 8 = ebp ∧ d.arg 12 = eax
  | .userMode _ _ => False

section halt

variable {k : Code} {addr : Stub → Word} {next : Word} {u d : Cpu} {t : TaskState} {i j : Fin 6}

/-- `ece391_execute` returns with the status that `halt_return` is given. -/
theorem Running.execute_returned (hu : Running u) (ht : t.esp0 = kernelStackTop i.val) (hij : i ≠ j)
    (hd : k.routine .execute (started k addr t .execute next u) = haltReturn d)
    (hframe : d.arg 8 = (started k addr t .execute next u).regs .esp - 4)
    (hhalts : HaltsOn j (started k addr t .execute next u) d)
    (hwaiting : Waiting i u (started k addr t .execute next u) d) :
    ∃ u', doCall k (table addr) t (number .execute) next u = .ok u' ∧
      Returned u (d.arg 12) u' := by
  have hesp := @Running.started_esp t u i k addr .execute next hu ht
  have htop := toNat_kernelStackTop i
  have hi := stackBottom_le i
  have hj := stackBottom_le j
  have hapart := stackBottom_apart hij
  have hlow := hu.low
  obtain ⟨hlow', hhigh', hsegments⟩ := hhalts
  obtain ⟨hstack, hown⟩ := hwaiting
  refine (hu.calls ht).execute_returned hd ⟨by omega, by omega, hsegments, hframe, ?_, ?_⟩
    (by omega) hown
  · exact hstack.mono (Nat.le_refl _) (by rw [ht, htop])
  · rw [ht]
    omega

/-- The register a parent left in its PCB when it started slot `i`, and the status, as they are
passed to `halt_return` when the program in that slot halts. -/
theorem Started.passedIn {p : Fin 6} {s s₁ s₂ : Kernel} {U : Finset (Fin 6)} {command : List Byte}
    (hs : Os391.Started L cs command i s s₁) (hroot : (s.processes 0).active ≠ 0)
    (hpid : s.pid = p.val) (hinv : SessionInv i U s₁ s₂) {cs' : CallSite} {status : Byte}
    (hpassed : ∀ out s₃, haltFunction L fs cs' status s₂ = .ok out s₃ → out.PassedIn d) :
    d.arg 8 = cs.ebp ∧ d.arg 12 = status.setWidth 32 := by
  obtain ⟨s₃, hok, -⟩ := hs.halt_ok fs hroot hpid hinv.links hinv.pid cs' status
  exact (hpassed _ s₃ hok).2

/-- The status `halt_function` gets when program `v` calls the wrapper. -/
def haltStatus (k : Code) (addr : Stub → Word) (t : TaskState) (next : Word) (v : Cpu) : Byte :=
  ((started k addr t .halt next v).arg 4).setWidth 8

/-- The exit status, from `main` of the child to `ece391_execute` of the parent. In a state `s`
that the kernel reaches from the running base shell, process `p` is current, and its program
`u` calls the wrapper. `execute_function` keeps a frame pointer and saves it in the PCB of the
slot `i` it starts; the child and its descendants run from `s₁` to `s₂` without a switch of
terminals, until `main` returns in `r` and `_start` halts. `halt_function` calls `halt_return`
in `d` with the values it has come to, on the stack of slot `i`, and nothing has touched what
`u` has left on its two stacks. Then the wrapper returns to `u`, with what `main` left in `eax`
cut to a byte. -/
theorem execute_returns_status {p : Fin 6} {s₀ s s₁ s₂ : Kernel} {U : Finset (Fin 6)}
    {mem : Word → Byte} {pages : PageTables} {command : List Byte} {eip₀ esp₀ eip esp ss ss' : Word}
    {cs₀ cs' : CallSite} {main : Routine} {mainAt back haltAt behind behind' : Word} {c r : Cpu}
    (hboot : executeFunction L fs cs₀ (some shellCommand) (bootKernel L mem pages) =
      (.userMode eip₀ esp₀, s₀))
    (hreach : ReflTransGen (MapStep L fs ArgsFit SameProcess) s₀ s) (hpid : s.pid = p.val)
    (hu : Running u)
    (hsite : cs.ebp = (started k addr ⟨s.tss.esp0, ss⟩ .execute next u).regs .esp - 4)
    (hfit : ArgsFit command)
    (hstart : executeFunction L fs cs (some command) s = (.userMode eip esp, s₁))
    (hslot : s₁.pid = i.val) (hrun : Session L fs ArgsFit s₁ U s₂)
    (hmain : main (c.call mainAt back) = r) (hroom : 16 ≤ (r.regs .esp).toNat)
    (hchild : Running (start main mainAt back haltAt behind c))
    (hpassed : ∀ out s₃, haltFunction L fs cs' (haltStatus k addr ⟨s₂.tss.esp0, ss'⟩ behind'
      (start main mainAt back haltAt behind c)) s₂ = .ok out s₃ → out.PassedIn d)
    (hd : k.routine .execute (started k addr ⟨s.tss.esp0, ss⟩ .execute next u) = haltReturn d)
    (hhalts : HaltsOn i (started k addr ⟨s.tss.esp0, ss⟩ .execute next u) d)
    (hwaiting : Waiting p u (started k addr ⟨s.tss.esp0, ss⟩ .execute next u) d) :
    ∃ u', doCall k (table addr) ⟨s.tss.esp0, ss⟩ (number .execute) next u = .ok u' ∧
      Returned u (((r.regs .eax).setWidth 8).setWidth 32) u' := by
  obtain ⟨⟨S, htree⟩, hmaps⟩ := tree_mapsCurrent_run hboot hreach
  obtain ⟨j, hs⟩ := executeFunction_userMode hstart
  obtain rfl := slot_inj hs.pid hslot
  have hroot : (s.processes 0).active ≠ 0 := (htree.active 0).mpr (Or.inl rfl)
  have hinv := hs.inv hfit hroot hrun
  obtain ⟨hframe, hstatus⟩ := hs.passedIn hroot hpid hinv hpassed
  -- what `main` left in `eax` is the argument of `halt_function`
  have hbyte : haltStatus k addr ⟨s₂.tss.esp0, ss'⟩ behind'
      (start main mainAt back haltAt behind c) = (r.regs .eax).setWidth 8 := by
    obtain ⟨-, harg, -⟩ := @Calls.arguments k addr .halt behind' _ ⟨s₂.tss.esp0, ss'⟩
      (hchild.calls hinv.esp0)
    rw [haltStatus, harg, start_arg hmain hroom]
  have hreturned := hu.execute_returned (t := ⟨s.tss.esp0, ss⟩) (hmaps.esp0_slot hpid)
    (hs.ne_of_active (htree.current_active hpid)) hd (hframe.trans hsite) hhalts hwaiting
  rwa [hstatus, hbyte] at hreturned

namespace Entry.Sample

/-- A `main` that returns 0x1FF. -/
def main (c : Cpu) : Cpu := (c.set .eax 0x1FF).ret

/-- The stack of the child when it calls `halt_return`. -/
def halts (e : Cpu) : Cpu :=
  ((((e.set .esp 0x7FDF00).push 0xFF).push (e.regs .esp - 4)).push 0x7FF000).call 0x403000 0x404000

/-- A kernel where the child halts at once. -/
def halting : Code where
  address := number
  routine f := if f = .execute then fun e => haltReturn (halts e) else Cpu.ret
  next := 0x401000

theorem halts_spec (e : Cpu) :
    OnStack (halts e) 0x7FDF00 [0x404000, 0x7FF000, e.regs .esp - 4, 0xFF] ∧
      SameOn 0x7FDF00 (2 ^ 32) e.mem (halts e).mem := by
  let c := e.set .esp 0x7FDF00
  have hesp : c.regs .esp = 0x7FDF00 := by simp [c, Cpu.set]
  have h₀ : OnStack c 0x7FDF00 [] := ⟨by decide, by rw [hesp]; rfl, trivial⟩
  have hroom₁ : 4 ≤ ((c.push 0xFF).regs .esp).toNat := by simp [Cpu.push, hesp]
  have hroom₂ : 4 ≤ (((c.push 0xFF).push (e.regs .esp - 4)).regs .esp).toNat := by
    simp [Cpu.push, hesp]
  have hroom₃ : 4 ≤ ((((c.push 0xFF).push (e.regs .esp - 4)).push 0x7FF000).regs .esp).toNat := by
    simp [Cpu.push, hesp]
  have hroom₀ : 4 ≤ (c.regs .esp).toNat := by
    rw [hesp]
    decide
  refine ⟨(((h₀.push hroom₀ _).push hroom₁ _).push hroom₂ _).call hroom₃ _ _, ?_⟩
  have hpushed := (((Pushed.push hroom₀ 0xFF).trans (Pushed.push hroom₁ (e.regs .esp - 4))).trans
    (Pushed.push hroom₂ 0x7FF000)).trans (Pushed.push hroom₃ 0x404000)
  have hsame := hpushed.outside.above
  rw [hesp] at hsame
  exact hsame

end Entry.Sample

/-- The place where the base shell calls `execute_function`. -/
def Sample.framed : CallSite := ⟨0x7FF000, 0x7FFFC0, fun _ => 0⟩

/-- A shell started there. -/
def Sample.child : Kernel :=
  (executeFunction Sample.link Sample.files Sample.framed (some shellCommand) Sample.running).2

/-- The base shell executes a shell whose `main` returns 0x1FF. -/
theorem execute_returns_status_sample : ∃ u',
    doCall Entry.Sample.halting (table fun _ => 0) ⟨Sample.running.tss.esp0, 0x18⟩ 2 0
        InterruptTable.Sample.program = .ok u' ∧
      Returned InterruptTable.Sample.program (((0x1FF : Word).setWidth 8).setWidth 32) u' := by
  have hstart : executeFunction Sample.link Sample.files Sample.framed (some shellCommand)
      Sample.running = (.userMode 0x08048018 userStack, Sample.child) := Prod.ext (by decide) rfl
  obtain ⟨i, hs⟩ := executeFunction_userMode hstart
  obtain rfl : i = 1 := slot_inj hs.pid (by decide)
  have hinv : SessionInv 1 ∅ Sample.child Sample.child :=
    hs.inv argsFit_shell (by decide) (.nil _ : Session Sample.link Sample.files ArgsFit _ _ _)
  obtain ⟨e, hentry⟩ : ∃ e, started Entry.Sample.halting (fun _ => 0)
      ⟨Sample.running.tss.esp0, 0x18⟩ .execute 0 InterruptTable.Sample.program = e := ⟨_, rfl⟩
  have he : e.regs .esp = 0x7FFFC4 := by
    rw [← hentry]
    decide
  have hrunning : Running InterruptTable.Sample.program := ⟨by decide, by decide, by decide⟩
  have hchild : Running (start Entry.Sample.main 0 0 0 0 InterruptTable.Sample.program) :=
    ⟨by decide, by decide, by decide⟩
  obtain ⟨hstack, hsame⟩ := Entry.Sample.halts_spec e
  have htop := hstack.top_add
  simp only [List.length_cons, List.length_nil] at htop
  have hbottom : stackBottom 1 = 0x7FC000 := rfl
  have hhalts : HaltsOn 1 e (Entry.Sample.halts e) := ⟨by omega, by omega, ⟨rfl, rfl⟩⟩
  have hwaiting : Waiting 0 InterruptTable.Sample.program e (Entry.Sample.halts e) :=
    ⟨hsame.mono (by rw [he]; decide) (by decide), hsame.mono (by decide) (by decide)⟩
  have hstatus : haltStatus Entry.Sample.halting (fun _ => 0) ⟨Sample.child.tss.esp0, 0x18⟩ 0
      (start Entry.Sample.main 0 0 0 0 InterruptTable.Sample.program) = 0xFF := by
    obtain ⟨-, harg, -⟩ := @Calls.arguments Entry.Sample.halting (fun _ => 0) .halt 0 _
      ⟨Sample.child.tss.esp0, 0x18⟩ (hchild.calls hinv.esp0)
    rw [haltStatus, harg,
      @start_arg Entry.Sample.main 0 0 0 0 InterruptTable.Sample.program _ rfl (by decide)]
    rfl
  have hpassed : ∀ out s₃, haltFunction Sample.link Sample.files Sample.site 0xFF Sample.child =
      .ok out s₃ → out.PassedIn (Entry.Sample.halts e) := by
    intro out s₃ hout
    obtain ⟨s₃', hok, -⟩ := hs.halt_ok (p := 0) Sample.files (by decide) (by decide) hinv.links
      hinv.pid Sample.site 0xFF
    rw [hok] at hout
    cases hout
    have hframe : e.regs .esp - 4 = Sample.framed.ebp := by
      rw [he]
      rfl
    exact ⟨hstack.arg (by simp : 1 < _), (hstack.arg (by simp : 2 < _)).trans hframe,
      hstack.arg (by simp : 3 < _)⟩
  subst hentry
  rw [← hstatus] at hpassed
  exact execute_returns_status Sample.execute_atBoot .refl (by decide) hrunning (by rw [he]; rfl)
    argsFit_shell hstart (by decide) (.nil _) rfl (by decide) hchild hpassed rfl hhalts hwaiting

end halt

end Os391
