import Os391.Console
import Os391.Lib.BitField

/-!
# Paging: `x86_desc.h`, `paging.c`, and the walk of the hardware

The two unions `kb_t` and `mb_t` overlay a page directory entry, so their fields
are fields of one and the same word; `page_tab_entr_t` is the layout of a page
table entry. The C code never writes an entry in one go: it assigns the fields
one by one, and so do `mbEntry`, `kbEntry` and `pteEntry`.

`walk` is the two-level translation of the processor, with or without the check
of the user bits. A directory entry may point at a frame that holds neither of
the two tables; the processor would then read its entries from memory, and so
does `tableEntry`.
-/

namespace Os391

open Bytes BitField

/-! ## Entry layouts -/

namespace Mb

abbrev p : Field 32 := ⟨0, 1, by decide⟩
abbrev rw : Field 32 := ⟨1, 1, by decide⟩
abbrev us : Field 32 := ⟨2, 1, by decide⟩
abbrev pwt : Field 32 := ⟨3, 1, by decide⟩
abbrev pcd : Field 32 := ⟨4, 1, by decide⟩
abbrev a : Field 32 := ⟨5, 1, by decide⟩
abbrev d : Field 32 := ⟨6, 1, by decide⟩
abbrev ps : Field 32 := ⟨7, 1, by decide⟩
abbrev g : Field 32 := ⟨8, 1, by decide⟩
abbrev avail : Field 32 := ⟨9, 3, by decide⟩
abbrev pat : Field 32 := ⟨12, 1, by decide⟩
abbrev res : Field 32 := ⟨13, 9, by decide⟩
abbrev pBase : Field 32 := ⟨22, 10, by decide⟩

end Mb

namespace Kb

abbrev p : Field 32 := ⟨0, 1, by decide⟩
abbrev rw : Field 32 := ⟨1, 1, by decide⟩
abbrev us : Field 32 := ⟨2, 1, by decide⟩
abbrev pwt : Field 32 := ⟨3, 1, by decide⟩
abbrev pcd : Field 32 := ⟨4, 1, by decide⟩
abbrev a : Field 32 := ⟨5, 1, by decide⟩
abbrev zero : Field 32 := ⟨6, 1, by decide⟩
abbrev ps : Field 32 := ⟨7, 1, by decide⟩
abbrev g : Field 32 := ⟨8, 1, by decide⟩
abbrev avail : Field 32 := ⟨9, 3, by decide⟩
abbrev pBase : Field 32 := ⟨12, 20, by decide⟩

end Kb

namespace Pte

abbrev p : Field 32 := ⟨0, 1, by decide⟩
abbrev rw : Field 32 := ⟨1, 1, by decide⟩
abbrev us : Field 32 := ⟨2, 1, by decide⟩
abbrev pwt : Field 32 := ⟨3, 1, by decide⟩
abbrev pcd : Field 32 := ⟨4, 1, by decide⟩
abbrev a : Field 32 := ⟨5, 1, by decide⟩
abbrev d : Field 32 := ⟨6, 1, by decide⟩
abbrev pat : Field 32 := ⟨7, 1, by decide⟩
abbrev g : Field 32 := ⟨8, 1, by decide⟩
abbrev avail : Field 32 := ⟨9, 3, by decide⟩
abbrev pBase : Field 32 := ⟨12, 20, by decide⟩

end Pte

/-- The thirteen assignments that fill a directory entry as a 4 MB page, over
whatever the entry held. -/
def mbEntry (p us g pBase e : Word) : Word :=
  let e := Mb.us.set us (Mb.rw.set 1 (Mb.p.set p e))
  let e := Mb.a.set 0 (Mb.pcd.set 0 (Mb.pwt.set 0 e))
  let e := Mb.g.set g (Mb.ps.set 1 (Mb.d.set 0 e))
  let e := Mb.res.set 0 (Mb.pat.set 0 (Mb.avail.set 0 e))
  Mb.pBase.set pBase e

/-- The eleven assignments that make a directory entry point at a page table. -/
def kbEntry (us pBase e : Word) : Word :=
  let e := Kb.us.set us (Kb.rw.set 1 (Kb.p.set 1 e))
  let e := Kb.a.set 0 (Kb.pcd.set 0 (Kb.pwt.set 0 e))
  let e := Kb.g.set 0 (Kb.ps.set 0 (Kb.zero.set 0 e))
  Kb.pBase.set pBase (Kb.avail.set 0 e)

/-- The assignments that fill a page table entry. -/
def pteEntry (p us pBase e : Word) : Word :=
  let e := Pte.us.set us (Pte.rw.set 1 (Pte.p.set p e))
  let e := Pte.a.set 0 (Pte.pcd.set 0 (Pte.pwt.set 0 e))
  let e := Pte.g.set 0 (Pte.pat.set 0 (Pte.d.set 0 e))
  Pte.pBase.set pBase (Pte.avail.set 0 e)

section entries

variable (p us g b e : Word)

@[simp] theorem mbEntry_p : Kb.p.get (mbEntry p us g b e) = p.setWidth 1 := by
  simp (disch := decide) only [mbEntry, Field.get_set_of_disjoint, Field.get_set_self]

@[simp] theorem mbEntry_us : Kb.us.get (mbEntry p us g b e) = us.setWidth 1 := by
  simp (disch := decide) only [mbEntry, Field.get_set_of_disjoint, Field.get_set_self]

@[simp] theorem mbEntry_ps : Kb.ps.get (mbEntry p us g b e) = 1 := by
  simp (disch := decide) only [mbEntry, Field.get_set_of_disjoint, Field.get_set_self]
  rfl

@[simp] theorem mbEntry_pBase : Mb.pBase.get (mbEntry p us g b e) = b.setWidth 10 := by
  simp (disch := decide) only [mbEntry, Field.get_set_self]

@[simp] theorem kbEntry_p : Kb.p.get (kbEntry us b e) = 1 := by
  simp (disch := decide) only [kbEntry, Field.get_set_of_disjoint, Field.get_set_self]
  rfl

@[simp] theorem kbEntry_us : Kb.us.get (kbEntry us b e) = us.setWidth 1 := by
  simp (disch := decide) only [kbEntry, Field.get_set_of_disjoint, Field.get_set_self]

@[simp] theorem kbEntry_rw : Kb.rw.get (kbEntry us b e) = 1 := by
  simp (disch := decide) only [kbEntry, Field.get_set_of_disjoint, Field.get_set_self]
  rfl

@[simp] theorem kbEntry_ps : Kb.ps.get (kbEntry us b e) = 0 := by
  simp (disch := decide) only [kbEntry, Field.get_set_of_disjoint, Field.get_set_self]
  rfl

@[simp] theorem kbEntry_pBase : Kb.pBase.get (kbEntry us b e) = b.setWidth 20 := by
  simp (disch := decide) only [kbEntry, Field.get_set_self]

@[simp] theorem pteEntry_p : Pte.p.get (pteEntry p us b e) = p.setWidth 1 := by
  simp (disch := decide) only [pteEntry, Field.get_set_of_disjoint, Field.get_set_self]

@[simp] theorem pteEntry_us : Pte.us.get (pteEntry p us b e) = us.setWidth 1 := by
  simp (disch := decide) only [pteEntry, Field.get_set_of_disjoint, Field.get_set_self]

@[simp] theorem pteEntry_rw : Pte.rw.get (pteEntry p us b e) = 1 := by
  simp (disch := decide) only [pteEntry, Field.get_set_of_disjoint, Field.get_set_self]
  rfl

@[simp] theorem pteEntry_pBase : Pte.pBase.get (pteEntry p us b e) = b.setWidth 20 := by
  simp (disch := decide) only [pteEntry, Field.get_set_self]

end entries

/-! ## `init_paging` and the entries the system calls rewrite -/

namespace Link

/-- `(uint32_t) first_page_table`. -/
def firstPageTableAddr (L : Link) : Word := L.firstPageTable ++ 0#12

/-- `(uint32_t) video_mapping_page`. -/
def videoMappingPageAddr (L : Link) : Word := L.videoMappingPage ++ 0#12

end Link

/-- `init_paging`. -/
def initPaging (L : Link) (t : PageTables) : PageTables :=
  let dir : Fin 1024 → Word := fun i =>
    if 2 ≤ i.val then mbEntry 0 0 0 (BitVec.ofNat 32 i.val) (t.pageDir i) else t.pageDir i
  let dir := Function.update dir 1 (mbEntry 1 0 1 1 (dir 1))
  let first : Fin 1024 → Word := fun i =>
    pteEntry (if i.val = 0xB8 ∨ i.val = 0xB9 ∨ i.val = 0xBA ∨ i.val = 0xBB then 1 else 0) 0
      (BitVec.ofNat 32 i.val) (t.firstPageTable i)
  let video : Fin 1024 → Word := fun i =>
    pteEntry (if i.val = 0xB8 then 1 else 0) 0 (BitVec.ofNat 32 i.val) (t.videoMappingPage i)
  let dir := Function.update dir 0 (kbEntry 0 (L.firstPageTableAddr >>> 12) (dir 0))
  let dir := Function.update dir 33 (kbEntry 1 (L.videoMappingPageAddr >>> 12) (dir 33))
  { pageDir := dir, firstPageTable := first, videoMappingPage := video }

/-- The physical base of a process' 4 MB page, as the C expression
`(0x800000 + (0x400000 * pid)) >> 22` computes it in `int`. -/
def userPageBase (pid : Int) : Word :=
  (BitVec.ofInt 32 (0x800000 + 0x400000 * pid)).sshiftRight 22

/-- The assignments to `page_dir[32].mb` that map the user page of `pid`. -/
def mapUserPage (pid : Int) (t : PageTables) : PageTables :=
  { t with pageDir :=
      Function.update t.pageDir 32 (mbEntry 1 1 0 (userPageBase pid) (t.pageDir 32)) }

/-- The paging part of `halt_function`: `page_dir[32]` is cleared and mapped for
the parent, `page_dir[0]` written again, and the entry of `video_mapping_page`
with the number of the current terminal unmapped. -/
def haltPaging (L : Link) (pid : Int) (terminal : Fin 3) (t : PageTables) : PageTables :=
  let t := mapUserPage pid { t with pageDir := Function.update t.pageDir 32 0 }
  let dir0 := kbEntry 0 (L.firstPageTableAddr >>> 12) (t.pageDir 0)
  let t := { t with pageDir := Function.update t.pageDir 0 dir0 }
  let slot := Fin.ofNat 1024 terminal.val
  let base := BitVec.ofNat 32 (0xB8 + terminal.val * 0x1000)
  let entry := pteEntry 0 1 base (t.videoMappingPage slot)
  { t with videoMappingPage := Function.update t.videoMappingPage slot entry }

/-- The assignments of `vidmap_function`: the first page of the video window. -/
def vidmapPaging (t : PageTables) : PageTables :=
  { t with videoMappingPage :=
      Function.update t.videoMappingPage 0 (pteEntry 1 1 0xB8 (t.videoMappingPage 0)) }

/-! ## The walk -/

/-- The page directory entry that translates `va`. -/
def dirEntry (t : PageTables) (va : Word) : Word := t.pageDir (Fin.ofNat 1024 (va.toNat / 2 ^ 22))

/-- Entry `i` of the page table in frame `base`. -/
def tableEntry (L : Link) (t : PageTables) (mem : Word → Byte) (base : BitVec 20) (i : Fin 1024) :
    Word :=
  if base = L.firstPageTable then t.firstPageTable i
  else if base = L.videoMappingPage then t.videoMappingPage i
  else ofBytes fun k => mem (base ++ 0#12 + BitVec.ofNat 32 (4 * i.val + k))

/-- The page table entry that translates `va` when its directory entry is `e`. -/
def walkEntry (L : Link) (t : PageTables) (mem : Word → Byte) (e va : Word) : Word :=
  tableEntry L t mem (Kb.pBase.get e) (Fin.ofNat 1024 (va.toNat / 2 ^ 12))

/-- The physical address of `va`, in user mode or in kernel mode. -/
def walk (L : Link) (t : PageTables) (mem : Word → Byte) (user : Bool) (va : Word) :
    Option Word :=
  let e := dirEntry t va
  if Kb.p.get e = 1 ∧ (user = true → Kb.us.get e = 1) then
    if Kb.ps.get e = 1 then some (Mb.pBase.get e ++ va.setWidth 22)
    else
      let e := walkEntry L t mem e va
      if Pte.p.get e = 1 ∧ (user = true → Pte.us.get e = 1) then
        some (Pte.pBase.get e ++ va.setWidth 12)
      else none
  else none

/-- Store a byte at a virtual address from kernel mode. A store that no page
backs is lost here; on the machine it raises the page fault exception. -/
def Console.storeByte (L : Link) (t : PageTables) (c : Console) (va : Word) (b : Byte) : Console :=
  match walk L t c.mem false va with
  | some pa => c.poke pa b
  | none => c

namespace Kernel

/-- Store bytes at offsets from a virtual address, one after the other. -/
@[simps] def storeBytes (L : Link) (s : Kernel) (va : Word) (bs : List (ℕ × Byte)) : Kernel :=
  { s with console :=
      bs.foldl (fun c b => c.storeByte L s.pages (va + BitVec.ofNat 32 b.1) b.2) s.console }

/-- Load a byte from a virtual address in kernel mode; unbacked pages read as 0. -/
def loadByte (L : Link) (s : Kernel) (va : Word) : Byte :=
  match walk L s.pages s.console.mem false va with
  | some pa => s.console.mem pa
  | none => 0

end Kernel

end Os391
