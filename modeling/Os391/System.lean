import Os391.Execute

/-!
# Ending a program and switching terminals

`halt_function` tears the current process down and resumes its parent inside the
`execute_function` call that started it. The base shell is started anew before
it is torn down: that `execute_function` call enters user mode, and the rest of
`halt_function` only runs when the new shell exits. `haltFunction` therefore
ends either by resuming a caller or in user mode, and `haltRest` is what is left.
-/

namespace Os391

open Bytes

/-! ## `halt_function` -/

/-- How `halt_function` ends. -/
inductive HaltOutcome : Type where
  /-- `halt_return` loads these values into `esp`, `ebp` and `eax` -/
  | resumes : Word → Word → Word → HaltOutcome
  /-- the shell that replaces the base shell enters user mode -/
  | userMode : Word → Word → HaltOutcome
  deriving DecidableEq

/-- `close_function` on each of some descriptor numbers, results ignored. -/
def closeEach : List Int → Kernel → Result Unit
  | [], s => .ok () s
  | fd :: rest, s => (closeFunction fd s).bind fun _ s => closeEach rest s

/-- `processes[pid].active = 0` and the `memset` of the arguments. -/
def Pcb.cleared (p : Pcb) : Pcb := { p with active := 0, args := fun _ => 0 }

/-- Lines 42 to 104: slot `old` hands over to its parent. -/
def handOver (L : Link) (old : Fin 6) (s : Kernel) : Kernel :=
  let pid := (s.processes old).parentPid.toInt
  let latest := { s.terminals s.curTerminal with latestPid := pid }
  { s with
    pid := pid
    terminals := Function.update s.terminals s.curTerminal latest
    tss := ⟨kernelStackTop pid, kernelDs⟩
    pages := haltPaging L pid s.curTerminal s.pages }

/-- Lines 30 to 127 of `halt_function`. -/
def haltRest (L : Link) (status : Byte) (s : Kernel) : Result HaltOutcome :=
  (closeEach [0, 1, 2, 3, 4, 5, 6, 7] s).bind fun _ s =>
    s.withSlot s.pid fun old =>
      let s := handOver L old (s.setPcb old (s.processes old).cleared)
      s.withSlot s.pid fun parent =>
        let s := s.setPcb parent { s.processes parent with active := 1 }
        let p := s.processes old
        .ok (.resumes p.savedEsp p.savedEbp (status.setWidth 32)) s

/-- The command `"shell "` of `halt_function`. -/
def respawnCommand : List Byte := [0x73, 0x68, 0x65, 0x6C, 0x6C, 0x20]

/-- `halt_function`. -/
def haltFunction (L : Link) (fs : FileSystem) (cs : CallSite) (status : Byte) (s : Kernel) :
    Result HaltOutcome :=
  s.withSlot s.pid fun i =>
    if (s.processes i).pid = 0 then
      match executeFunction L fs cs (some respawnCommand) s with
      | (.userMode eip esp, s) => .ok (.userMode eip esp) s
      -- the result is ignored, and `pid` may have changed
      | (.returned _, s) => haltRest L status s
    else haltRest L status s

/-! ## `switch_terminal` -/

/-- The page that backs up the screen of a terminal: `TERM_1_MEM` and so on. -/
def terminalPage (t : Fin 3) : Word := 0xB9000 + 0x1000 * BitVec.ofNat 32 t.val

/-- The command `"shell"` of `switch_terminal` and of `entry`. -/
def shellCommand : List Byte := [0x73, 0x68, 0x65, 0x6C, 0x6C]

/-- `switch_terminal` up to the check whether the target already runs. -/
def showTerminal (source target : Fin 3) (s : Kernel) : Kernel :=
  let saved := { s.terminals source with
    cursorY := BitVec.ofInt 16 s.console.screenY, cursorX := BitVec.ofInt 16 s.console.screenX }
  let terminals := Function.update s.terminals source saved
  let console := s.console.memcpy (terminalPage source) 0xB8000 4096
  let console := console.memcpy 0xB8000 (terminalPage target) 4096
  { s with
    terminals := terminals
    curTerminal := target
    pid := (terminals target).latestPid
    console := { console with
      screenX := (terminals target).cursorX.toNat, screenY := (terminals target).cursorY.toNat } }

/-- `switch_terminal`; `none` if it returns without a call of `execute_function`. -/
def switchTerminal (L : Link) (fs : FileSystem) (cs : CallSite) (source target : Fin 3)
    (s : Kernel) : Option ExecOutcome × Kernel :=
  if source = target then (none, s)
  else
    let s := showTerminal source target s
    if (s.terminals target).running = 0 ∧ target ≠ 0 then
      let started := { s.terminals target with running := 1 }
      let s := { s with
        console := s.console.clear, terminals := Function.update s.terminals target started }
      let r := executeFunction L fs cs (some shellCommand) s
      (some r.1, r.2)
    else (none, s)

/-! ## Boot -/

/-- The descriptors of a zero-initialised `pcb_t`. -/
def FileDescriptor.zero : FileDescriptor := ⟨⟨0, 0, 0, 0⟩, 0, 0, 0, 0⟩

/-- A zero-initialised `pcb_t`. -/
def Pcb.zero : Pcb := ⟨fun _ => .zero, 0, 0, 0, 0, 0, 0, fun _ => 0, 0⟩

/-- The state in which `entry` calls `execute_function("shell")`, with the given
contents of memory and of the page tables before `init_paging`. -/
def bootKernel (L : Link) (mem : Word → Byte) (t : PageTables) : Kernel where
  pid := -1
  processes := fun _ => .zero
  fdInd := 2
  commandBuffer := []
  curTerminal := 0
  terminals := fun _ => ⟨0, 0, 0, 0⟩
  tss := ⟨0x800000, kernelDs⟩
  pages := initPaging L t
  console := Console.clear ⟨mem, 0, 0⟩
  keyboard := ⟨fun _ _ => 0, fun _ => 0, none, 0, 0, 0, 0, 0, 0, 0⟩
  rtc := ⟨0, 0, 0, 16⟩

/-! ## A small system

A disk image with a shell, a text file and the RTC, and the kernel just after
the base shell has been started on it. -/

namespace Sample

/-- The nonzero parts of the image: `shell` (inode 0, a 28-byte executable),
`notes` (inode 1, the five bytes `hello`) and `rtc`. -/
def parts : List (ℕ × List Byte) :=
  [(0, [3]), (4, [2]), (8, [2]),
    (64, shellCommand), (96, [2]),
    (128, [0x6E, 0x6F, 0x74, 0x65, 0x73]), (160, [2]), (164, [1]),
    (192, [0x72, 0x74, 0x63]),
    (4096, [28]), (8192, [5]), (8196, [1]),
    (12288, [0x7F, 0x45, 0x4C, 0x46]), (12312, [0x18, 0x80, 0x04, 0x08]),
    (16384, [0x68, 0x65, 0x6C, 0x6C, 0x6F])]

/-- The image. -/
def image (a : ℕ) : Byte :=
  match parts.find? fun p => decide (p.1 ≤ a ∧ a < p.1 + p.2.length) with
  | some p => p.2.getD (a - p.1) 0
  | none => 0

/-- The file system on it. -/
def files : FileSystem := FileSystem.initFileSystem image

/-- The name of the text file. -/
def notes : List Byte := [0x6E, 0x6F, 0x74, 0x65, 0x73]

/-- The name of the RTC. -/
def rtc : List Byte := [0x72, 0x74, 0x63]

/-- A layout of the kernel. -/
def link : Link where
  address h := BitVec.ofNat 32 (0x400000 + 16 * Handler.all.idxOf h)
  address_inj := by
    intro h k
    cases h <;> cases k <;> decide
  firstPageTable := 0x406
  videoMappingPage := 0x407
  tables_ne := by decide

/-- A call site. -/
def site : CallSite := ⟨0x7FF000, 0x7FF010, fun _ => 0⟩

/-- The kernel before the base shell is started. -/
def atBoot : Kernel := bootKernel link (fun _ => 0) ⟨fun _ => 0, fun _ => 0, fun _ => 0⟩

/-- The kernel with the base shell running in slot 0. -/
def running : Kernel := (executeFunction link files site (some shellCommand) atBoot).2

/-- The base shell starts. -/
theorem execute_atBoot : executeFunction link files site (some shellCommand) atBoot =
    (.userMode 0x08048018 userStack, running) :=
  Prod.ext (by decide) rfl

end Sample

end Os391
