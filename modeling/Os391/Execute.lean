import Mathlib.Tactic.IntervalCases
import Os391.SystemCall

/-!
# Starting a program: `execute_function`

The call interleaves its checks with its updates; `executeFunction` keeps the
order of the source and returns, at each `return`, the state brought about so
far. Entering user mode does not return: it is the outcome `userMode`.

The argument copy is `strncpy` into `args`, 4096 bytes in the middle of the
`processes[]` array, with no bound on the length. `copyArgs` is the copy as it
happens in memory: what does not fit runs on into the `terminal` word and the
next slots.
-/

namespace Os391

open Bytes Segment

/-! ## Overwriting PCBs -/

/-- A descriptor at an address, after a patch. -/
def FileDescriptor.patched (p : Patch) (a : ℕ) (d : FileDescriptor) : FileDescriptor where
  fileOpTable :=
    { openPtr := p.word a d.fileOpTable.openPtr
      readPtr := p.word (a + 4) d.fileOpTable.readPtr
      writePtr := p.word (a + 8) d.fileOpTable.writePtr
      closePtr := p.word (a + 12) d.fileOpTable.closePtr }
  inodeNum := p.word (a + 16) d.inodeNum
  filePos := p.word (a + 20) d.filePos
  flags := p.word (a + 24) d.flags
  avail := p.word (a + 28) d.avail

/-- A PCB at an address, after a patch. -/
def Pcb.patched (p : Patch) (a : ℕ) (q : Pcb) : Pcb where
  fdArr := fun k => (q.fdArr k).patched p (a + 32 * k.val)
  pid := p.word (a + 256) q.pid
  parentPid := p.word (a + 260) q.parentPid
  savedEsp := p.word (a + 264) q.savedEsp
  savedEbp := p.word (a + 268) q.savedEbp
  active := p.word (a + 272) q.active
  esp0 := p.word (a + 276) q.esp0
  args := fun k => p.byte (a + 280 + k.val) (q.args k)
  terminal := p.word (a + 4376) q.terminal

/-- The process table after bytes have been stored in `processes[i].args` and, if
there are more than 4096 of them, behind it. -/
def copyArgs (ps : Fin 6 → Pcb) (i : Fin 6) (bs : List Byte) : Fin 6 → Pcb :=
  fun j => (ps j).patched (stored (pcbSize * i.val + argsOffset) bs) (pcbSize * j.val)

/-! ## The table as bytes -/

theorem FileDescriptor.words_patched (d : FileDescriptor) (p : Patch) (a : ℕ) {j : ℕ} (hj : j < 8) :
    (d.patched p a).words.getD j 0 = p.word (a + 4 * j) (d.words.getD j 0) := by
  interval_cases j <;> rfl

theorem FileDescriptor.ext_words {d e : FileDescriptor}
    (h : ∀ j < 8, d.words.getD j 0 = e.words.getD j 0) : d = e := by
  obtain ⟨⟨d₀, d₁, d₂, d₃⟩, d₄, d₅, d₆, d₇⟩ := d
  obtain ⟨⟨e₀, e₁, e₂, e₃⟩, e₄, e₅, e₆, e₇⟩ := e
  obtain rfl : d₀ = e₀ := h 0 (by decide)
  obtain rfl : d₁ = e₁ := h 1 (by decide)
  obtain rfl : d₂ = e₂ := h 2 (by decide)
  obtain rfl : d₃ = e₃ := h 3 (by decide)
  obtain rfl : d₄ = e₄ := h 4 (by decide)
  obtain rfl : d₅ = e₅ := h 5 (by decide)
  obtain rfl : d₆ = e₆ := h 6 (by decide)
  obtain rfl : d₇ = e₇ := h 7 (by decide)
  rfl

namespace Pcb

theorem words_patched (q : Pcb) (p : Patch) (a : ℕ) {j : ℕ} (hj : j < 6) :
    (q.patched p a).words.getD j 0 = p.word (a + (256 + 4 * j)) (q.words.getD j 0) := by
  interval_cases j <;> rfl

theorem byteAt_fd (q : Pcb) (k : Fin 8) {j m : ℕ} (hj : j < 8) (hm : m < 4) :
    q.byteAt (32 * k.val + (4 * j + m)) = byteOf ((q.fdArr k).words.getD j 0) m := by
  have hk := k.isLt
  have hlt : 32 * k.val + (4 * j + m) < 256 := by omega
  have hfd : (32 * k.val + (4 * j + m)) / 32 = k.val := by omega
  have hword : (32 * k.val + (4 * j + m)) % 32 / 4 = j := by omega
  have hbyte : (32 * k.val + (4 * j + m)) % 4 = m := by omega
  have hfin : Fin.ofNat 8 k.val = k := Fin.ext (Nat.mod_eq_of_lt hk)
  rw [byteAt, if_pos hlt, hfd, hword, hbyte, hfin]

theorem byteAt_word (q : Pcb) {j m : ℕ} (hj : j < 6) (hm : m < 4) :
    q.byteAt (256 + (4 * j + m)) = byteOf (q.words.getD j 0) m := by
  have hword : (256 + (4 * j + m) - 256) / 4 = j := by omega
  have hbyte : (256 + (4 * j + m)) % 4 = m := by omega
  rw [byteAt, if_neg (by omega), if_pos (by omega), hword, hbyte]

theorem byteAt_args (q : Pcb) (k : Fin 4096) : q.byteAt (280 + k.val) = q.args k := by
  have hk := k.isLt
  have hfin : Fin.ofNat 4096 (280 + k.val - 280) = k := by
    refine Fin.ext ?_
    rw [Nat.add_sub_cancel_left]
    exact Nat.mod_eq_of_lt hk
  rw [byteAt, if_neg (by omega), if_neg (by omega), if_pos (by omega), hfin]

theorem byteAt_terminal (q : Pcb) {m : ℕ} (hm : m < 4) :
    q.byteAt (4376 + m) = byteOf q.terminal m := by
  have hbyte : (4376 + m) % 4 = m := by omega
  rw [byteAt, if_neg (by omega), if_neg (by omega), if_neg (by omega), hbyte]

/-- Where a byte of a PCB lies: in a descriptor, in a word, in the arguments, in `terminal`. -/
theorem offset_cases {off : ℕ} (h : off < pcbSize) :
    (∃ (k : Fin 8) (j m : ℕ), j < 8 ∧ m < 4 ∧ off = 32 * k.val + (4 * j + m)) ∨
    (∃ j m : ℕ, j < 6 ∧ m < 4 ∧ off = 256 + (4 * j + m)) ∨
    (∃ k : Fin 4096, off = 280 + k.val) ∨ ∃ m < 4, off = 4376 + m := by
  rw [pcbSize] at h
  rcases Nat.lt_or_ge off 256 with hfd | hfd
  · exact Or.inl ⟨⟨off / 32, by omega⟩, off % 32 / 4, off % 4, by omega, by omega, by
      dsimp only
      omega⟩
  · rcases Nat.lt_or_ge off 280 with hword | hword
    · exact Or.inr (Or.inl ⟨(off - 256) / 4, off % 4, by omega, by omega, by omega⟩)
    · rcases Nat.lt_or_ge off 4376 with hargs | hargs
      · exact Or.inr (Or.inr (Or.inl ⟨⟨off - 280, by omega⟩, by
          dsimp only
          omega⟩))
      · exact Or.inr (Or.inr (Or.inr ⟨off - 4376, by omega, by omega⟩))

/-- A byte of a PCB after a patch. -/
theorem byteAt_patched (q : Pcb) (p : Patch) (a : ℕ) {off : ℕ} (h : off < pcbSize) :
    (q.patched p a).byteAt off = p.byte (a + off) (q.byteAt off) := by
  rcases offset_cases h with ⟨k, j, m, hj, hm, rfl⟩ | ⟨j, m, hj, hm, rfl⟩ | ⟨k, rfl⟩ | ⟨m, hm, rfl⟩
  · have hfd : (q.patched p a).fdArr k = (q.fdArr k).patched p (a + 32 * k.val) := rfl
    rw [byteAt_fd _ k hj hm, byteAt_fd _ k hj hm, hfd, FileDescriptor.words_patched _ p _ hj,
      Patch.byteOf_word _ _ _ hm, Nat.add_assoc, Nat.add_assoc]
  · rw [byteAt_word _ hj hm, byteAt_word _ hj hm, words_patched q p a hj, Patch.byteOf_word _ _ _ hm,
      Nat.add_assoc, Nat.add_assoc]
  · rw [byteAt_args, byteAt_args, ← Nat.add_assoc]
    rfl
  · rw [byteAt_terminal _ hm, byteAt_terminal _ hm, ← Nat.add_assoc]
    exact Patch.byteOf_word p (a + 4376) q.terminal hm

/-- PCBs with the same bytes are the same. -/
theorem ext_byteAt {p q : Pcb} (h : ∀ off < pcbSize, p.byteAt off = q.byteAt off) : p = q := by
  have hfd : p.fdArr = q.fdArr := by
    funext k
    refine FileDescriptor.ext_words fun j hj => word_ext fun m hm => ?_
    have hk := k.isLt
    rw [← byteAt_fd p k hj hm, ← byteAt_fd q k hj hm]
    exact h _ (by rw [pcbSize]; omega)
  have hword : ∀ j < 6, p.words.getD j 0 = q.words.getD j 0 := fun j hj => by
    refine word_ext fun m hm => ?_
    rw [← byteAt_word p hj hm, ← byteAt_word q hj hm]
    exact h _ (by rw [pcbSize]; omega)
  have hargs : p.args = q.args := by
    funext k
    have hk := k.isLt
    rw [← byteAt_args, ← byteAt_args]
    exact h _ (by rw [pcbSize]; omega)
  have hterm : p.terminal = q.terminal := by
    refine word_ext fun m hm => ?_
    rw [← byteAt_terminal p hm, ← byteAt_terminal q hm]
    exact h _ (by rw [pcbSize]; omega)
  obtain ⟨pfd, ppid, pparent, pesp, pebp, pact, pesp0, pargs, pterm⟩ := p
  obtain ⟨qfd, qpid, qparent, qesp, qebp, qact, qesp0, qargs, qterm⟩ := q
  obtain rfl : ppid = qpid := hword 0 (by decide)
  obtain rfl : pparent = qparent := hword 1 (by decide)
  obtain rfl : pesp = qesp := hword 2 (by decide)
  obtain rfl : pebp = qebp := hword 3 (by decide)
  obtain rfl : pact = qact := hword 4 (by decide)
  obtain rfl : pesp0 = qesp0 := hword 5 (by decide)
  obtain rfl : pfd = qfd := hfd
  obtain rfl : pargs = qargs := hargs
  obtain rfl : pterm = qterm := hterm
  rfl

end Pcb

/-- A byte of the table after the argument copy. -/
theorem processesByte_copyArgs (ps : Fin 6 → Pcb) (i : Fin 6) (bs : List Byte) {a : ℕ}
    (ha : a < pcbSize * 6) : processesByte (copyArgs ps i bs) a =
      (stored (pcbSize * i.val + argsOffset) bs).byte a (processesByte ps a) := by
  have hslot : a / pcbSize < 6 := Nat.div_lt_of_lt_mul ha
  have hoff : a % pcbSize < pcbSize := Nat.mod_lt _ (by decide)
  rw [processesByte, processesByte, dif_pos hslot, dif_pos hslot, copyArgs,
    Pcb.byteAt_patched _ _ _ hoff, Nat.div_add_mod]

/-- The byte at an offset in a slot. -/
theorem processesByte_slot (ps : Fin 6 → Pcb) (j : Fin 6) {off : ℕ} (h : off < pcbSize) :
    processesByte ps (pcbSize * j.val + off) = (ps j).byteAt off := by
  have hdiv : (pcbSize * j.val + off) / pcbSize = j.val := by
    rw [Nat.mul_add_div (by decide), Nat.div_eq_of_lt h, Nat.add_zero]
  have hmod : (pcbSize * j.val + off) % pcbSize = off := by
    rw [Nat.mul_add_mod, Nat.mod_eq_of_lt h]
  have hj : (pcbSize * j.val + off) / pcbSize < 6 := by
    rw [hdiv]
    exact j.isLt
  have hfin : (⟨(pcbSize * j.val + off) / pcbSize, hj⟩ : Fin 6) = j := Fin.ext hdiv
  rw [processesByte, dif_pos hj, hfin, hmod]

/-! ## The command line -/

/-- The first loop: skip the first word, counting its bytes in a `uint8_t`. -/
def scanWord : List Byte → Byte → Byte × List Byte
  | [], size => (size, [])
  | c :: rest, size =>
    if c ≠ 0x20 ∧ c ≠ 0 then scanWord rest (size + 1) else (size, c :: rest)

/-- The second loop: skip spaces, counting them. -/
def skipSpaces : List Byte → ℕ → ℕ × List Byte
  | [], n => (n, [])
  | c :: rest, n => if c = 0x20 then skipSpaces rest (n + 1) else (n, c :: rest)

/-- `size`: the length of the first word, modulo 256. -/
def wordSize (command : List Byte) : ℕ := (scanWord command 0).1.toNat

/-- The name that is looked up, `filename_buffer`. -/
def commandName (command : List Byte) : List Byte := command.take (wordSize command)

/-- `command_buffer`: what is left behind the first word and the spaces after it. -/
def commandArgs (command : List Byte) : List Byte := (skipSpaces (scanWord command 0).2 0).2

/-- `space_counter`. -/
def spaceCount (command : List Byte) : ℕ := (skipSpaces (scanWord command 0).2 0).1

/-- The number of bytes `strncpy` is told to write into `args`. -/
def argLength (command : List Byte) : ℕ :=
  sub32 (sub32 (strlen command) (wordSize command)) (spaceCount command)

/-- The bytes `strncpy` writes into `args`. -/
def argBytes (command : List Byte) : List Byte :=
  strncpy (cstr (commandArgs command)) (argLength command)

@[simp] theorem length_argBytes (command : List Byte) :
    (argBytes command).length = argLength command := length_strncpy _ _

/-! ## The pieces of `execute_function` -/

/-- What an `execute_function` call finds on the kernel stack: the registers it
saves, and the bytes in its uninitialised `check_buffer`. -/
structure CallSite : Type where
  esp : Word
  ebp : Word
  checkBuffer : Fin 4 → Byte

/-- The free slot that is taken: the first one whose `active` is 0. -/
def freeSlot (ps : Fin 6 → Pcb) : Option (Fin 6) :=
  (List.finRange 6).find? fun i => decide ((ps i).active = 0)

/-- The last byte stored at an offset, if one is. -/
def lastStore (st : Stores) (a : ℕ) : Option Byte :=
  (st.reverse.find? fun x => decide (x.1 = a)).map Prod.snd

/-- A buffer after the stores of a `read_data` call into it. -/
def readInto (fs : FileSystem) (inode offset length : ℕ) (buf : ℕ → Byte) : ℕ → Byte :=
  fun k => (lastStore ((fs.readData inode offset length).stores fs) k).getD (buf k)

/-- The four bytes the ELF check looks at: those of the file, or what was on the
stack if `read_data` fails. -/
def checkBytes (fs : FileSystem) (cs : CallSite) (inode : ℕ) : ℕ → Byte :=
  readInto fs inode 0 4 fun k => cs.checkBuffer (Fin.ofNat 4 k)

/-- The ELF check passes. -/
def isElf (fs : FileSystem) (cs : CallSite) (inode : ℕ) : Bool :=
  let b := checkBytes fs cs inode
  decide (b 0 = 0x7F ∧ b 1 = 0x45 ∧ b 2 = 0x4C ∧ b 3 = 0x46)

/-- `printf("Max programs already running\n")`. -/
def maxProgramsText : List Byte :=
  [0x4D, 0x61, 0x78, 0x20, 0x70, 0x72, 0x6F, 0x67, 0x72, 0x61, 0x6D, 0x73, 0x20, 0x61, 0x6C, 0x72,
    0x65, 0x61, 0x64, 0x79, 0x20, 0x72, 0x75, 0x6E, 0x6E, 0x69, 0x6E, 0x67, 0x0A]

/-- `(0x800000 - (0x2000*pid)) - 4`. -/
def kernelStackTop (pid : Int) : Word := BitVec.ofInt 32 (0x800000 - 0x2000 * pid - 4)

/-- `KERNEL_DS`. -/
def kernelDs : BitVec 16 := 0x18

/-- The virtual address programs are loaded at. -/
def programStart : Word := 0x08048000

/-- `usr_esp`. -/
def userStack : Word := 0x8400000 - 4

/-- Descriptors 0 and 1 are set up, 2 to 7 marked available. -/
def Pcb.setupDescriptors (L : Link) (p : Pcb) : Pcb :=
  { p with fdArr := fun k =>
      if k = 0 then ⟨L.stdinTable, 0, 0, 0, 0⟩
      else if k = 1 then ⟨L.stdoutTable, 0, 0, 0, 0⟩
      else { p.fdArr k with avail := 1 } }

/-- The PCB of slot `i` when the program is started by `oldPid`. -/
def Pcb.started (L : Link) (cs : CallSite) (terminal : Fin 3) (oldPid : Int) (i : Fin 6)
    (p : Pcb) : Pcb :=
  { p.setupDescriptors L with
    terminal := BitVec.ofNat 32 terminal.val
    pid := BitVec.ofNat 32 i.val
    parentPid := BitVec.ofInt 32 oldPid
    savedEsp := cs.esp
    savedEbp := cs.ebp
    active := 1
    esp0 := kernelStackTop i.val }

/-- Lines 240 to 310: everything between the ELF check and the read of the entry
point, in slot `i` on behalf of `oldPid`. -/
def startProcess (L : Link) (fs : FileSystem) (cs : CallSite) (oldPid : Int) (inode : ℕ)
    (i : Fin 6) (s : Kernel) : Kernel :=
  let latest := { s.terminals s.curTerminal with latestPid := i.val }
  let s := { s with terminals := Function.update s.terminals s.curTerminal latest }
  let s := { s with pages := mapUserPage i.val s.pages }
  let s := s.storeBytes L programStart ((fs.readData inode 0 (fs.inodeLength inode)).stores fs)
  let s := s.setPcb i ((s.processes i).started L cs s.curTerminal oldPid i)
  { s with tss := ⟨kernelStackTop i.val, kernelDs⟩ }

/-- How `execute_function` ends. -/
inductive ExecOutcome : Type where
  /-- it returns this value to its caller -/
  | returned : Int → ExecOutcome
  /-- it enters user mode with this `eip` and `esp` -/
  | userMode : Word → Word → ExecOutcome
  deriving DecidableEq

/-- Lines 216 to 342: a directory entry has been found and slot `i` chosen. -/
def executeIn (L : Link) (fs : FileSystem) (cs : CallSite) (command : List Byte)
    (e : DirectoryEntry) (i : Fin 6) (s : Kernel) : ExecOutcome × Kernel :=
  let oldPid := s.pid
  -- `pid` and the arguments are assigned before the file is looked at
  let s := { s with pid := i.val, processes := copyArgs s.processes i (argBytes command) }
  let inode := e.inodeNum.toNat
  if isElf fs cs inode = false then (.returned (-1), s)
  else
    let s := startProcess L fs cs oldPid inode i s
    -- by now the program counts as started, and the return leaves it so
    if (fs.readData inode 24 4).ret = -1 then (.returned (-1), s)
    else (.userMode (ofBytes (readInto fs inode 24 4 fun _ => 0)) userStack, s)

/-- `execute_function`; the command is `none` for a null pointer. -/
def executeFunction (L : Link) (fs : FileSystem) (cs : CallSite) (command : Option (List Byte))
    (s : Kernel) : ExecOutcome × Kernel :=
  match command with
  | none => (.returned (-1), s)
  | some command =>
    match fs.readDentryByName (commandName command) with
    | none => (.returned (-1), s)
    | some e =>
      let s := { s with commandBuffer := commandArgs command }
      match freeSlot s.processes with
      | none => (.returned 0, { s with console := s.console.puts maxProgramsText })
      | some i => executeIn L fs cs command e i s

end Os391
