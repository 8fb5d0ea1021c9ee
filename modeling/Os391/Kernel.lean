import Mathlib.Algebra.Ring.Nat
import Mathlib.Logic.Function.Basic
import Mathlib.Tactic.Simps.Basic
import Os391.Lib.Bytes

/-!
# The kernel's state

The global variables the system calls, the terminal switch and the device
drivers read and write, gathered in one record `Kernel`. The C structures keep
their fields; a 32-bit field is a `Word`, a plain `int` an `Int`.

Two things are kept as the compiled program has them. Function pointers in a
`file_op_table_t` are addresses, and `Link` is what the linker decided: where
the handlers and the two page tables lie. And `processes[]` is a C array, so an
index outside it is no PCB: every access goes through `Kernel.withSlot`, which
stops with `Result.fault` when the index is not one of the six slots.
-/

namespace Os391

open Bytes

/-! The kernel's tables have three terminals, six slots and eight descriptors, a line
buffer has 128 bytes and a page table 1024 entries; the first of each can be written as
a numeral. -/

instance terminals_neZero : NeZero 3 := ⟨by decide⟩

instance slots_neZero : NeZero 6 := ⟨by decide⟩

instance descriptors_neZero : NeZero 8 := ⟨by decide⟩

instance lineBuffer_neZero : NeZero 128 := ⟨by decide⟩

instance pageTable_neZero : NeZero 1024 := ⟨by decide⟩

/-- The driver functions that `execute_function` and `open_function` put into
file operation tables. -/
inductive Handler : Type where
  | terminalOpen | terminalRead | terminalWrite | terminalClose
  | rtcOpen | rtcRead | rtcWrite | rtcClose
  | dirOpen | dirRead | dirWrite | dirClose
  | filesystemOpen | filesystemRead | filesystemWrite | filesystemClose
  | invalidFunction
  deriving DecidableEq

namespace Handler

/-- All handlers, in the order in which a pointer is looked up. -/
def all : List Handler :=
  [terminalOpen, terminalRead, terminalWrite, terminalClose, rtcOpen, rtcRead, rtcWrite, rtcClose,
    dirOpen, dirRead, dirWrite, dirClose, filesystemOpen, filesystemRead, filesystemWrite,
    filesystemClose, invalidFunction]

theorem mem_all (h : Handler) : h ∈ all := by
  cases h <;> decide

end Handler

/-- What the linker fixes: where the handlers lie, and where the two page tables
lie. Both tables are declared `aligned(4096)`, and they are different arrays. -/
structure Link : Type where
  /-- the address of a handler -/
  address : Handler → Word
  /-- different handlers have different addresses -/
  address_inj : ∀ h k, address h = address k → h = k
  /-- the page frame of `first_page_table` -/
  firstPageTable : BitVec 20
  /-- the page frame of `video_mapping_page` -/
  videoMappingPage : BitVec 20
  /-- the two tables are different arrays -/
  tables_ne : firstPageTable ≠ videoMappingPage

namespace Link

/-- The handler a function pointer points at, if it points at one. -/
def handlerAt (L : Link) (ptr : Word) : Option Handler :=
  Handler.all.find? fun h => decide (L.address h = ptr)

theorem handlerAt_address (L : Link) (h : Handler) : L.handlerAt (L.address h) = some h := by
  rcases hf : L.handlerAt (L.address h) with _ | k
  · have hnone := List.find?_eq_none.mp hf h (Handler.mem_all h)
    simp at hnone
  · have hk : L.address k = L.address h := by simpa using List.find?_some hf
    rw [L.address_inj k h hk]

theorem address_of_handlerAt (L : Link) {ptr : Word} {h : Handler}
    (hat : L.handlerAt ptr = some h) : L.address h = ptr := by
  have hfound := List.find?_some hat
  rwa [decide_eq_true_eq] at hfound

end Link

/-- `file_op_table_t`: four function pointers. -/
structure FileOpTable : Type where
  openPtr : Word
  readPtr : Word
  writePtr : Word
  closePtr : Word
  deriving DecidableEq

/-- `file_descriptor_t`. A descriptor is free when `avail` is 1. -/
structure FileDescriptor : Type where
  fileOpTable : FileOpTable
  inodeNum : Word
  filePos : Word
  flags : Word
  avail : Word
  deriving DecidableEq

/-- `pcb_t`, one slot of the process table. -/
structure Pcb : Type where
  fdArr : Fin 8 → FileDescriptor
  pid : Word
  parentPid : Word
  savedEsp : Word
  savedEbp : Word
  active : Word
  esp0 : Word
  args : Fin 4096 → Byte
  terminal : Word

/-- `terminal_t`; its `screen_text` and `terminal_buf` are used by no function. -/
structure Terminal : Type where
  cursorY : BitVec 16
  cursorX : BitVec 16
  running : Word
  latestPid : Int

/-- The two fields of the TSS that the system calls write. -/
structure Tss : Type where
  esp0 : Word
  ss0 : BitVec 16

/-- `page_dir`, `first_page_table` and `video_mapping_page`. -/
structure PageTables : Type where
  pageDir : Fin 1024 → Word
  firstPageTable : Fin 1024 → Word
  videoMappingPage : Fin 1024 → Word

/-- Physical memory outside the variables of this record (the video pages and the
user frames), and the cursor of `lib.c`. -/
structure Console : Type where
  mem : Word → Byte
  screenX : Int
  screenY : Int

/-- The variables of `keyboard.c`. `kbBuf` says which of the three buffers the
pointer `kb_buf` points at; it starts out null. -/
structure Keyboard : Type where
  kbBufs : Fin 3 → Fin 128 → Byte
  kbInds : Fin 3 → Int
  kbBuf : Option (Fin 3)
  kbInd : Int
  readInd : Int
  kbFlag : Int
  caps : Int
  ctrl : Int
  tab : Int
  alt : Int

/-- The variables of `rtc.c`. -/
structure Rtc : Type where
  flag : Int
  frequencyBuffer : Word
  virtualCounter : Int
  virtualFrequency : Int

/-- The kernel's state. `fdInd` is only ever assigned a descriptor number. -/
structure Kernel : Type where
  pid : Int
  processes : Fin 6 → Pcb
  fdInd : Fin 8
  commandBuffer : List Byte
  curTerminal : Fin 3
  terminals : Fin 3 → Terminal
  tss : Tss
  pages : PageTables
  console : Console
  keyboard : Keyboard
  rtc : Rtc

/-! ## Indexing the process table -/

/-- The slot an index names, if it is one of the six. -/
def slot? (i : Int) : Option (Fin 6) :=
  if h : 0 ≤ i ∧ i ≤ 5 then some ⟨i.toNat, by omega⟩ else none

@[simp] theorem slot?_val (i : Fin 6) : slot? (i.val : Int) = some i := by
  have hi := i.isLt
  have h : (0 : Int) ≤ i.val ∧ (i.val : Int) ≤ 5 := by omega
  rw [slot?, dif_pos h]
  rfl

theorem slot?_eq_some {i : Int} {k : Fin 6} (h : slot? i = some k) : i = k.val := by
  rw [slot?] at h
  split at h
  · obtain rfl := Option.some.inj h
    simp only
    omega
  · cases h

/-- A number names one slot at most. -/
theorem slot_inj {n : Int} {i k : Fin 6} (hi : n = i.val) (hk : n = k.val) : i = k :=
  Fin.ext (by omega)

/-- A slot number stored in `parent_pid`, which is unsigned, reads back as it was. -/
theorem slot?_ofInt (k : Fin 6) : slot? (BitVec.ofInt 32 (k.val : Int)).toInt = some k := by
  revert k
  decide

/-- Slots other than 0 are stored in `pid` fields as something other than 0. -/
theorem ofNat_slot_ne_zero {i : Fin 6} (hi : i ≠ 0) : BitVec.ofNat 32 i.val ≠ 0 := by
  revert i
  decide

/-- How a kernel function ends: it returns, or it leaves the memory it may use, by an
index outside the six slots of `processes[]` or by a copy of a negative number of bytes.
Either way there is the state it has brought about. -/
inductive Result (α : Type) : Type where
  /-- the function returns -/
  | ok : α → Kernel → Result α
  /-- the function does not return: it uses this index, which is not one of `0..5`, or
  copies this negative number of bytes -/
  | fault : Int → Kernel → Result α

namespace Result

variable {α β : Type}

/-- Go on with the returned value and state. -/
def bind (r : Result α) (f : α → Kernel → Result β) : Result β :=
  match r with
  | ok a s => f a s
  | fault i s => fault i s

@[simp] theorem bind_ok (a : α) (s : Kernel) (f : α → Kernel → Result β) :
    (ok a s).bind f = f a s := rfl

@[simp] theorem bind_fault (i : Int) (s : Kernel) (f : α → Kernel → Result β) :
    (fault i s : Result α).bind f = fault i s := rfl

/-- The state at the end, whichever way the function ended. -/
def state : Result α → Kernel
  | ok _ s => s
  | fault _ s => s

@[simp] theorem state_ok (a : α) (s : Kernel) : (ok a s).state = s := rfl

@[simp] theorem state_fault (i : Int) (s : Kernel) : (fault i s : Result α).state = s := rfl

end Result

namespace Kernel

/-- Use `processes[i]`. -/
def withSlot {α : Type} (s : Kernel) (i : Int) (f : Fin 6 → Result α) : Result α :=
  match slot? i with
  | some k => f k
  | none => .fault i s

@[simp] theorem withSlot_val {α : Type} (s : Kernel) (i : Fin 6) (f : Fin 6 → Result α) :
    s.withSlot (i.val : Int) f = f i := by
  rw [withSlot, slot?_val]

/-- A function that starts by using `processes[pid]`, when `pid` is a slot. -/
theorem withSlot_of_eq {α : Type} {s : Kernel} {n : Int} {i : Fin 6} (h : n = i.val)
    (f : Fin 6 → Result α) : s.withSlot n f = f i := by
  rw [h, withSlot_val]

/-- Overwrite one PCB. -/
@[simps] def setPcb (s : Kernel) (i : Fin 6) (p : Pcb) : Kernel :=
  { s with processes := Function.update s.processes i p }

end Kernel

/-- Overwrite one descriptor. -/
@[simps] def Pcb.setFd (p : Pcb) (fd : Fin 8) (d : FileDescriptor) : Pcb :=
  { p with fdArr := Function.update p.fdArr fd d }

/-- Overwriting a descriptor leaves the links and the activity of every slot alone. -/
theorem Kernel.setFd_words (s : Kernel) (i : Fin 6) (fd : Fin 8) (d : FileDescriptor) (j : Fin 6) :
    ((s.setPcb i ((s.processes i).setFd fd d)).processes j).parentPid =
        (s.processes j).parentPid ∧
      ((s.setPcb i ((s.processes i).setFd fd d)).processes j).active = (s.processes j).active := by
  by_cases hj : j = i
  · subst hj
    simp
  · simp [hj]

/-- The element of an 8-element array that a descriptor number in range names. -/
def fdIndex (fd : Int) : Fin 8 := Fin.ofNat 8 fd.toNat

@[simp] theorem fdIndex_val (fd : Fin 8) : fdIndex (fd.val : Int) = fd := by
  simp [fdIndex]

/-- A descriptor number in range is the number of the element it names. -/
theorem fdIndex_val_eq (fd : Int) (h₀ : 0 ≤ fd) (h₇ : fd ≤ 7) : ((fdIndex fd).val : Int) = fd := by
  simp only [fdIndex, Fin.ofNat]
  omega

end Os391
