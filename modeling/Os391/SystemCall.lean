import Os391.Paging
import Os391.FileSystem

/-!
# The system calls on descriptors: `syscall_functions.c`

`open`, `close`, `read`, `write`, `getargs` and `vidmap`, with the drivers that
`read` and `write` jump to. A driver that reads says which bytes it stores at
which offset from the caller's buffer; `readFunction` carries the stores out.
Waiting loops (`while (!kb_flag);`) do not end inside the call: the answer is
then `Answer.waits`.
-/

namespace Os391

open Bytes Segment

/-! ## File operation tables -/

namespace Link

variable (L : Link)

/-- `stdin_table` of `execute_function`. -/
def stdinTable : FileOpTable :=
  ⟨L.address .terminalOpen, L.address .terminalRead, L.address .invalidFunction,
    L.address .terminalClose⟩

/-- `stdout_table` of `execute_function`. -/
def stdoutTable : FileOpTable :=
  ⟨L.address .terminalOpen, L.address .invalidFunction, L.address .terminalWrite,
    L.address .terminalClose⟩

/-- The table `open_function` gives a descriptor of this file type. For a type
other than 0, 1, 2 the local variable `ft` stays as it is: `junk`. -/
def openTable (filetype : Word) (junk : FileOpTable) : FileOpTable :=
  if filetype = 0 then
    ⟨L.address .rtcOpen, L.address .rtcRead, L.address .rtcWrite, L.address .rtcClose⟩
  else if filetype = 1 then
    ⟨L.address .dirOpen, L.address .dirRead, L.address .dirWrite, L.address .dirClose⟩
  else if filetype = 2 then
    ⟨L.address .filesystemOpen, L.address .filesystemRead, L.address .filesystemWrite,
      L.address .filesystemClose⟩
  else junk

end Link

/-! ## Drivers -/

/-- How a call of a driver ends. -/
inductive Answer : Type where
  /-- it returns this value -/
  | ret : Int → Answer
  /-- it returns from a `void` function: the caller finds some value in `eax` -/
  | void : Answer
  /-- it has not returned: it waits for an interrupt -/
  | waits : Answer
  /-- the pointer is not one of the drivers; control goes to this address -/
  | jumps : Word → Answer
  deriving DecidableEq

/-- Stores at offsets from the buffer passed to a driver. -/
abbrev Stores : Type := List (ℕ × Byte)

/-- Write the bytes of a string to consecutive offsets, from 0 on. -/
def storesOf (bs : List Byte) : Stores := fill (fun i => bs.getD i 0) 0 0 bs.length

theorem map_snd_storesOf (bs : List Byte) : (storesOf bs).map Prod.snd = bs := by
  rw [storesOf, map_snd_fill]
  refine List.ext_getElem (length_segment _ _ _) fun k hk hk' => ?_
  simp [hk']

/-- `filesystem_read`. For `read_data` a negative `nbytes` is a length of 2 GiB or more.
No two pages that far apart are mapped, so if it copies anything, the copy ends in a page
fault, and the call does not return. -/
def filesystemRead (fs : FileSystem) (fd nbytes : Int) (s : Kernel) : Result (Int × Stores) :=
  s.withSlot s.pid fun i =>
    let d := (s.processes i).fdArr (fdIndex fd)
    if fs.inodeLength d.inodeNum.toNat ≤ d.filePos.toNat then .ok (0, []) s
    else
      let r := fs.readData d.inodeNum.toNat d.filePos.toNat (BitVec.ofInt 32 nbytes).toNat
      if nbytes < 0 ∧ r.copies ≠ [] then .fault nbytes s
      else
        -- the position moves before the return value is looked at
        let d := { d with filePos := d.filePos + BitVec.ofInt 32 r.ret }
        let s := s.setPcb i ((s.processes i).setFd (fdIndex fd) d)
        if r.ret < 0 then .ok (-1, r.stores fs) s else .ok (r.ret, r.stores fs) s

/-- `dir_read`. The local `temp` is the entry that the lookup hands out; what `strcpy` stores
behind it when the name does not end within its entry (`FileSystem.NameEnds`) is no part of the
result. -/
def dirRead (fs : FileSystem) (fd : Int) (s : Kernel) : Result (Int × Stores) :=
  if fd < 2 ∨ 7 < fd then .ok (-1, []) s
  else
    s.withSlot s.pid fun i =>
      let d := (s.processes i).fdArr (fdIndex fd)
      match fs.readDentryByIndex d.filePos with
      | none => .ok (0, []) s
      | some temp =>
        let s := s.setPcb i ((s.processes i).setFd (fdIndex fd) { d with filePos := d.filePos + 1 })
        let readlength := strlen temp.filename
        .ok (if 32 < readlength then 32 else readlength, storesOf (strncpy (cstr temp.filename) 32)) s

/-- `terminal_read`; `none` while it waits for `kb_flag`. -/
def terminalRead (nbytes : Int) (s : Kernel) : Option (Int × Stores) × Kernel :=
  let kb := s.keyboard
  let kb := { kb with kbBuf := some s.curTerminal, kbInd := kb.kbInds s.curTerminal }
  if kb.kbFlag = 0 then (none, { s with keyboard := kb })
  else
    -- the loop runs while `i < read_ind`, `i <= 127` and `i < nbytes`
    let n := (min (min kb.readInd 128) nbytes).toNat
    (some (n, fill (fun i => kb.kbBufs s.curTerminal (Fin.ofNat 128 i)) 0 0 n),
      { s with keyboard := { kb with kbFlag := 0 } })

/-- `terminal_write` of the bytes found in the caller's buffer. -/
def terminalWrite (bs : List Byte) (s : Kernel) : Kernel :=
  let kb := s.keyboard
  { s with
    console := s.console.puts bs
    keyboard := { kb with kbInds := Function.update kb.kbInds s.curTerminal 0, kbInd := 0 } }

/-- `rtc_read`; `false` while it waits for `virtual_counter`. -/
def rtcRead (s : Kernel) : Bool × Kernel :=
  if s.rtc.virtualCounter < s.rtc.virtualFrequency then (false, s)
  else (true, { s with rtc := { s.rtc with flag := 0, virtualCounter := 0 } })

/-- `virtual_frequency` for each frequency `rtc_write` accepts. -/
def rtcDivisors : List (Word × Int) :=
  [(1024, 1), (512, 2), (256, 4), (128, 8), (64, 16), (32, 32), (16, 64), (8, 128), (4, 256),
    (2, 512)]

/-- `rtc_write` of the frequency found in the caller's buffer. -/
def rtcWrite (frequency : Word) (s : Kernel) : Int × Kernel :=
  let rtc := { s.rtc with frequencyBuffer := frequency }
  if frequency.toNat ≤ 1024 ∧ 2 ≤ frequency.toNat then
    match rtcDivisors.find? fun e => decide (e.1 = frequency) with
    | some e => (0, { s with rtc := { rtc with virtualFrequency := e.2 } })
    | none => (-1, { s with rtc := { rtc with virtualFrequency := 1 } })
  else (-1, { s with rtc := rtc })

/-! ## `read` and `write` -/

/-- The check both calls start with: `none` if the call returns -1 right away,
otherwise the function pointer that is called. `outside` is the comparison of
the descriptor number with `fd_ind`, in which the two calls differ. -/
def gate (outside : Bool) (fd : Int) (ptr : FileOpTable → Word) (s : Kernel) :
    Result (Option Word) :=
  if fd < 0 ∨ outside = true then .ok none s
  else
    s.withSlot s.pid fun i =>
      let d := (s.processes i).fdArr (fdIndex fd)
      if d.avail = 1 then .ok none s else .ok (some (ptr d.fileOpTable)) s

/-- The check of `read_function`. -/
def readGate (fd : Int) (s : Kernel) : Result (Option Word) :=
  gate (decide (fd > s.fdInd.val)) fd FileOpTable.readPtr s

/-- The check of `write_function`. -/
def writeGate (fd : Int) (s : Kernel) : Result (Option Word) :=
  gate (decide (fd ≥ s.fdInd.val)) fd FileOpTable.writePtr s

/-- Carry out the stores of a driver that has returned. -/
def deliver (L : Link) (buf : Word) (a : Int × Stores) (s : Kernel) : Result Answer :=
  .ok (.ret a.1) (s.storeBytes L buf a.2)

/-- The call through the read pointer. -/
def callRead (L : Link) (fs : FileSystem) (ptr : Word) (fd : Int) (buf : Word) (nbytes : Int)
    (s : Kernel) : Result Answer :=
  match L.handlerAt ptr with
  | some .filesystemRead => (filesystemRead fs fd nbytes s).bind (deliver L buf)
  | some .dirRead => (dirRead fs fd s).bind (deliver L buf)
  | some .terminalRead =>
    match terminalRead nbytes s with
    | (some a, s) => deliver L buf a s
    | (none, s) => .ok .waits s
  | some .rtcRead =>
    match rtcRead s with
    | (true, s) => .ok (.ret 0) s
    | (false, s) => .ok .waits s
  | some .invalidFunction => .ok (.ret (-1)) s
  | _ => .ok (.jumps ptr) s

/-- `read_function`. -/
def readFunction (L : Link) (fs : FileSystem) (fd : Int) (buf : Word) (nbytes : Int)
    (s : Kernel) : Result Answer :=
  (readGate fd s).bind fun ptr? s =>
    match ptr? with
    | none => .ok (.ret (-1)) s
    | some ptr => callRead L fs ptr fd buf nbytes s

/-- The call through the write pointer. -/
def callWrite (L : Link) (ptr buf : Word) (nbytes : Int) (s : Kernel) : Result Answer :=
  match L.handlerAt ptr with
  | some .terminalWrite =>
    let bs := segment (fun i => s.loadByte L (buf + BitVec.ofNat 32 i)) 0 nbytes.toNat
    .ok .void (terminalWrite bs s)
  | some .rtcWrite =>
    let a := rtcWrite (ofBytes fun k => s.loadByte L (buf + BitVec.ofNat 32 k)) s
    .ok (.ret a.1) a.2
  | some .dirWrite => .ok (.ret 0) s
  | some .filesystemWrite => .ok (.ret (-1)) s
  | some .invalidFunction => .ok (.ret (-1)) s
  | _ => .ok (.jumps ptr) s

/-- `write_function`. -/
def writeFunction (L : Link) (fd : Int) (buf : Word) (nbytes : Int) (s : Kernel) :
    Result Answer :=
  (writeGate fd s).bind fun ptr? s =>
    match ptr? with
    | none => .ok (.ret (-1)) s
    | some ptr => callWrite L ptr buf nbytes s

/-! ## `open` and `close` -/

/-- The first of the descriptors 2 to 7 whose `avail` is not zero. -/
def firstAvailable (p : Pcb) : Option (Fin 8) :=
  [2, 3, 4, 5, 6, 7].find? fun fd => decide ((p.fdArr fd).avail ≠ 0)

/-- The descriptor `open_function` builds for a directory entry. -/
def openDescriptor (L : Link) (junk : FileOpTable) (e : DirectoryEntry) : FileDescriptor where
  fileOpTable := L.openTable e.filetype junk
  inodeNum := if e.filetype = 2 then e.inodeNum else 0
  filePos := 0
  flags := 0
  avail := 0

/-- `open_function`; the file name is `none` for a null pointer. -/
def openFunction (L : Link) (fs : FileSystem) (junk : FileOpTable) (filename : Option (List Byte))
    (s : Kernel) : Result Int :=
  match filename with
  | none => .ok (-1) s
  | some fname =>
    match fs.readDentryByName fname with
    | none => .ok (-1) s
    | some e =>
      s.withSlot s.pid fun i =>
        match firstAvailable (s.processes i) with
        | none => .ok (-1) s
        | some fd =>
          let s := s.setPcb i ((s.processes i).setFd fd (openDescriptor L junk e))
          .ok fd.val { s with fdInd := fd }

/-- `close_function`. -/
def closeFunction (fd : Int) (s : Kernel) : Result Int :=
  if fd ≤ 1 ∨ 7 < fd then .ok (-1) s
  else
    s.withSlot s.pid fun i =>
      let p := s.processes i
      if (p.fdArr (fdIndex fd)).avail = 1 then .ok (-1) s
      else .ok 0 (s.setPcb i (p.setFd (fdIndex fd) { p.fdArr (fdIndex fd) with avail := 1 }))

/-! ## `getargs` and `vidmap` -/

namespace FileDescriptor

/-- The words of a `file_descriptor_t` in order. -/
def words (d : FileDescriptor) : List Word :=
  [d.fileOpTable.openPtr, d.fileOpTable.readPtr, d.fileOpTable.writePtr, d.fileOpTable.closePtr,
    d.inodeNum, d.filePos, d.flags, d.avail]

end FileDescriptor

namespace Pcb

/-- The words between the descriptors and the argument buffer. -/
def words (p : Pcb) : List Word := [p.pid, p.parentPid, p.savedEsp, p.savedEbp, p.active, p.esp0]

/-- The byte at an offset inside a `pcb_t`: eight descriptors of 32 bytes, six
words, 4096 bytes of arguments, the terminal. -/
def byteAt (p : Pcb) (off : ℕ) : Byte :=
  if off < 256 then
    byteOf ((p.fdArr (Fin.ofNat 8 (off / 32))).words.getD (off % 32 / 4) 0) (off % 4)
  else if off < 280 then byteOf (p.words.getD ((off - 256) / 4) 0) (off % 4)
  else if off < 4376 then p.args (Fin.ofNat 4096 (off - 280))
  else byteOf p.terminal (off % 4)

end Pcb

/-- `sizeof(pcb_t)`. -/
def pcbSize : ℕ := 4380

/-- The offset of `args` in a `pcb_t`. -/
def argsOffset : ℕ := 280

/-- The byte at an offset from the start of `processes[]`; what lies behind the
array is not modelled and reads as 0. -/
def processesByte (ps : Fin 6 → Pcb) (off : ℕ) : Byte :=
  if h : off / pcbSize < 6 then (ps ⟨off / pcbSize, h⟩).byteAt (off % pcbSize) else 0

/-- `getargs_function`: always 0, whatever it copies. -/
def getargsFunction (L : Link) (buf : Word) (nbytes : Int) (s : Kernel) : Result Int :=
  s.withSlot s.pid fun i =>
    let args := fun k => processesByte s.processes (pcbSize * i.val + argsOffset + k)
    .ok 0 (s.storeBytes L buf (storesOf (strncpy args (BitVec.ofInt 32 nbytes).toNat)))

/-- `vidmap_function`. -/
def vidmapFunction (L : Link) (screenStart : Word) (s : Kernel) : Int × Kernel :=
  if screenStart = 0 then (-1, s)
  else if screenStart.toNat < 0x8000000 ∨ screenStart.toNat > 0x8000000 + 0x400000 then (-1, s)
  else
    let s := { s with pages := vidmapPaging s.pages }
    (0, s.storeBytes L screenStart (fill (byteOf 0x08400000) 0 0 4))

end Os391
