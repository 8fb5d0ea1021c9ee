import Os391.AddressSpace
import Os391.Arguments
import Os391.Blocks
import Os391.Lib.Copying

/-!
# The program that is started

`execute_function` looks a name up, compares four bytes, loads the file and reads the
entry point. Its three `read_data` calls know neither the type of the entry nor the
end of the file. `Enters` is a call that ends in user mode; a load that runs off the
pages raises the page fault exception, and does not.

The load goes to the page of the new slot and, for a file that is too long for it, on
into the window of the video page. `WindowTable` is what the kernel keeps of the tables
there, in every run: of the window at most the first page is present.
-/

namespace Os391

open Bytes BitField Segment FileSystem Relation

variable {L : Link} {fs : FileSystem} {cs : CallSite}

/-! ## The pages behind the user page -/

/-- The 4 MB behind the user page go through `video_mapping_page`, whose first entry maps
the screen if it is present, and whose second is not. -/
structure WindowTable (L : Link) (t : PageTables) : Prop where
  small : Kb.ps.get (t.pageDir 33) = 0
  table : Kb.pBase.get (t.pageDir 33) = L.videoMappingPage
  screen : Pte.p.get (t.videoMappingPage 0) = 1 → Pte.pBase.get (t.videoMappingPage 0) = 0xB8
  guard : Pte.p.get (t.videoMappingPage 1) = 0

namespace WindowTable

variable {t : PageTables}

/-- `init_paging`, whatever the tables held before. -/
theorem init (L : Link) (t : PageTables) : WindowTable L (initPaging L t) := by
  have h := UserPages.init L t
  refine ⟨h.small, h.table, fun hp => ?_, ?_⟩
  · rw [initPaging, pteEntry_p] at hp
    exact absurd hp (by decide)
  · rw [initPaging, pteEntry_p]
    decide

/-- Mapping a user page, whether or not the number is a slot's. -/
theorem mapUserPage (h : WindowTable L t) (pid : Int) : WindowTable L (mapUserPage pid t) := by
  have h33 : (Os391.mapUserPage pid t).pageDir 33 = t.pageDir 33 :=
    mapUserPage_pageDir_of_ne _ _ (by decide)
  exact ⟨by rw [h33]; exact h.small, by rw [h33]; exact h.table, h.screen, h.guard⟩

/-- The paging part of `halt_function` unmaps one of the first three pages. -/
theorem haltPaging (h : WindowTable L t) (pid : Int) (terminal : Fin 3) :
    WindowTable L (haltPaging L pid terminal t) := by
  have h33 : (Os391.haltPaging L pid terminal t).pageDir 33 = t.pageDir 33 :=
    haltPaging_pageDir_of_ne _ _ _ _ (by decide) (by decide)
  have hentry := haltPaging_videoMappingPage L pid terminal t
  refine ⟨by rw [h33]; exact h.small, by rw [h33]; exact h.table, fun hp => ?_, ?_⟩
  · rcases hentry 0 with heq | hnone
    · rw [heq] at hp ⊢
      exact h.screen hp
    · exact absurd (hnone.symm.trans hp) (by decide)
  · rcases hentry 1 with heq | hnone
    · rw [heq]
      exact h.guard
    · exact hnone

/-- The assignments of `vidmap_function`. -/
theorem vidmapPaging (h : WindowTable L t) : WindowTable L (vidmapPaging t) := by
  refine ⟨h.small, h.table, fun _ => ?_, ?_⟩
  · simp only [Os391.vidmapPaging, Function.update_self, pteEntry_pBase]
    rfl
  · simpa [Os391.vidmapPaging] using h.guard

theorem kept (L : Link) : PagesKept L (WindowTable L) :=
  ⟨fun _ pid h => h.mapUserPage pid, fun _ pid terminal h => h.haltPaging pid terminal,
    fun _ h => h.vidmapPaging⟩

variable {s s' : Kernel}

/-- The steps of the kernel that write the tables, with any command and from any state. -/
theorem step {C : List Byte → Prop} (h : WindowTable L s.pages) (hstep : SpaceStep L fs C s s') :
    WindowTable L s'.pages := by
  cases hstep with
  | starts _ hexec => exact (kept L).executes h hexec
  | halts cs status _ _ => exact (kept L).halts h fs cs status
  | vidmap screenStart => exact (kept L).vidmaps h screenStart
  | switches cs source target => exact (kept L).switches h fs cs source target

/-- In every run from boot on, whatever commands are executed. -/
theorem run {C : List Byte → Prop} {mem : Word → Byte}
    (hrun : ReflTransGen (SpaceStep L fs C) (bootKernel L mem t) s) : WindowTable L s.pages := by
  induction hrun with
  | refl => exact init L t
  | tail _ hstep ih => exact ih.step hstep

end WindowTable

/-! ## Where the load goes -/

/-- The physical address of byte `k` of a program in slot `i`: in the page of the slot, and
from the 4 MB boundary on in the first page of the screen. -/
def loadAddr (i : Fin 6) (k : ℕ) : Word :=
  if k < 0x3B8000 then BitVec.ofNat 32 (0x848000 + 0x400000 * i.val + k)
  else BitVec.ofNat 32 (0xB8000 + (k - 0x3B8000))

/-- Different bytes go to different places. -/
theorem loadAddr_ne {i : Fin 6} {j k : ℕ} (hjk : j < k) (hk : k < 0x3B9000) :
    loadAddr i j ≠ loadAddr i k := by
  intro heq
  have hnat := congrArg BitVec.toNat heq
  have hi := i.isLt
  rw [loadAddr, loadAddr] at hnat
  split at hnat <;> split at hnat <;> simp only [BitVec.toNat_ofNat] at hnat <;> omega

theorem toNat_programStart {k : ℕ} (hk : k ≤ 0x3B9000) :
    (programStart + BitVec.ofNat 32 k).toNat = 0x8048000 + k := by
  have hstart : programStart.toNat = 0x8048000 := rfl
  rw [BitVec.toNat_add, BitVec.toNat_ofNat, hstart]
  omega

/-- With the page of slot `i` mapped, every byte of the load is backed by a page. -/
def LoadBacked (L : Link) (fs : FileSystem) (inode : ℕ) (i : Fin 6) (s : Kernel) : Prop :=
  ∀ k < fs.inodeLength inode, ∃ pa, walk L (mapUserPage i.val s.pages) s.console.mem false
    (programStart + BitVec.ofNat 32 k) = some pa

section walk

variable {t : PageTables} {mem : Word → Byte} {s : Kernel} {i : Fin 6} {inode k : ℕ}

/-- Through the page of the slot. -/
theorem walk_userPage (hk : k < 0x3B8000) :
    walk L (mapUserPage i.val t) mem false (programStart + BitVec.ofNat 32 k) =
      some (loadAddr i k) := by
  have hva := toNat_programStart (k := k) (by omega)
  have h32 : Fin.ofNat 1024 ((programStart + BitVec.ofNat 32 k).toNat / 2 ^ 22) = 32 := by
    rw [hva]
    exact Fin.ext (by rw [Fin.val_ofNat]; omega)
  have hdir : dirEntry (mapUserPage i.val t) (programStart + BitVec.ofNat 32 k) =
      mbEntry 1 1 0 (userPageBase i.val) (t.pageDir 32) := by
    rw [dirEntry, h32, mapUserPage_pageDir]
  have haddr : (BitVec.ofNat 10 (2 + i.val) ++
      (programStart + BitVec.ofNat 32 k).setWidth 22 : Word) = loadAddr i k := by
    have hi := i.isLt
    refine BitVec.eq_of_toNat_eq ?_
    rw [toNat_largePage, hva, loadAddr, if_pos hk, BitVec.toNat_ofNat, BitVec.toNat_ofNat]
    omega
  simp only [walk, hdir, mbEntry_p, mbEntry_ps, mbEntry_pBase, userPageBase_slot, haddr]
  rfl

/-- Behind it, through the window. -/
theorem walk_behind (h : WindowTable L t) (hlow : 0x3B8000 ≤ k) (hk : k ≤ 0x3B9000) :
    walk L (mapUserPage i.val t) mem false (programStart + BitVec.ofNat 32 k) =
      if Kb.p.get (t.pageDir 33) = 1 ∧ k < 0x3B9000 ∧ Pte.p.get (t.videoMappingPage 0) = 1 then
        some (loadAddr i k)
      else none := by
  have hva := toNat_programStart hk
  have h33 : Fin.ofNat 1024 ((programStart + BitVec.ofNat 32 k).toNat / 2 ^ 22) = 33 := by
    rw [hva]
    exact Fin.ext (by rw [Fin.val_ofNat]; omega)
  have hdir : dirEntry (mapUserPage i.val t) (programStart + BitVec.ofNat 32 k) =
      t.pageDir 33 := by
    rw [dirEntry, h33, mapUserPage_pageDir_of_ne _ _ (by decide)]
  have hentry : walkEntry L (mapUserPage i.val t) mem (t.pageDir 33)
      (programStart + BitVec.ofNat 32 k) =
        t.videoMappingPage (if k < 0x3B9000 then 0 else 1) := by
    have hpage : Fin.ofNat 1024 ((programStart + BitVec.ofNat 32 k).toNat / 2 ^ 12) =
        if k < 0x3B9000 then 0 else 1 := by
      rw [hva]
      refine Fin.ext ?_
      rw [Fin.val_ofNat]
      split
      · show _ = 0
        omega
      · show _ = 1
        omega
    rw [walkEntry, h.table, tableEntry, if_neg L.tables_ne.symm, if_pos rfl, hpage]
    rfl
  have haddr : k < 0x3B9000 →
      ((0xB8 : BitVec 20) ++ (programStart + BitVec.ofNat 32 k).setWidth 12 : Word) =
        loadAddr i k := by
    intro hlt
    have hbase : (0xB8 : BitVec 20).toNat = 0xB8 := rfl
    refine BitVec.eq_of_toNat_eq ?_
    rw [toNat_smallPage, hbase, hva, loadAddr, if_neg (not_lt.mpr hlow), BitVec.toNat_ofNat]
    omega
  have hsmall : ¬ (0 : BitVec 1) = 1 := by decide
  simp only [walk, hdir, hentry, h.small, hsmall, Bool.false_eq_true, false_imp_iff, and_true,
    if_false]
  rcases lt_or_eq_of_le hk with hlt | rfl
  · rw [if_pos hlt]
    by_cases hp : Pte.p.get (t.videoMappingPage 0) = 1
    · rw [h.screen hp, haddr hlt]
      simp only [hp, hlt, and_true, if_true]
    · simp only [hp, and_false, if_false, ite_self]
  · -- the second page of the window
    simp only [lt_irrefl, if_false, h.guard, hsmall, false_and, and_false, ite_self]

/-- If all bytes of a program are backed by pages, its length is at most that of the user page
from `0x08048000` on and one page more, and its bytes lie at `loadAddr`. -/
theorem LoadBacked.walk_eq (hback : LoadBacked L fs inode i s) (h : WindowTable L s.pages)
    (hk : k < fs.inodeLength inode) : k < 0x3B9000 ∧ ∀ mem,
      walk L (mapUserPage i.val s.pages) mem false (programStart + BitVec.ofNat 32 k) =
        some (loadAddr i k) := by
  have hlt : fs.inodeLength inode ≤ 0x3B9000 := by
    by_contra hlong
    obtain ⟨pa, hpa⟩ := hback 0x3B9000 (not_le.mp hlong)
    rw [walk_behind h (by decide) le_rfl] at hpa
    simp at hpa
  refine ⟨by omega, fun mem => ?_⟩
  rcases lt_or_ge k 0x3B8000 with hlow | hhigh
  · exact walk_userPage hlow
  · obtain ⟨pa, hpa⟩ := hback k hk
    rw [walk_behind h hhigh (by omega)] at hpa ⊢
    split at hpa
    · next hcond => rw [if_pos hcond]
    · cases hpa

end walk

/-! ## What the load leaves in memory -/

/-- Bytes stored from `va` on, at places that all differ and that no store re-maps, are all
there afterwards. -/
theorem loadByte_storeBytes {s : Kernel} {va : Word} {d : ℕ → Word} {n : ℕ} (f : ℕ → Byte)
    (hwalk : ∀ k < n, ∀ mem, walk L s.pages mem false (va + BitVec.ofNat 32 k) = some (d k))
    (hne : ∀ j k, j < k → k < n → d j ≠ d k) {k : ℕ} (hk : k < n) :
    (s.storeBytes L va (fill f 0 0 n)).loadByte L (va + BitVec.ofNat 32 k) = f k := by
  have hloop : (s.storeBytes L va (fill f 0 0 n)).console = Copying.loop
      (fun c k => c.storeByte L s.pages (va + BitVec.ofNat 32 k) (f k)) n s.console := by
    rw [Copying.loop, Kernel.storeBytes_console, fill, List.foldl_map]
    simp only [Nat.zero_add]
  have hstores : Copying.StoresAt Console.mem
      (fun c k => c.storeByte L s.pages (va + BitVec.ofNat 32 k) (f k)) d (fun k _ => f k) n := by
    refine ⟨fun c k hk => ?_, fun c k hk a ha => ?_⟩
    · rw [Console.storeByte, hwalk k hk]
      simp
    · rw [Console.storeByte, hwalk k hk]
      simp [ha]
  rw [Kernel.loadByte, Kernel.storeBytes_pages, hwalk k hk, hloop]
  exact hstores.loop_self hne (fun _ _ _ _ => rfl) hk

/-- Of `startProcess` the map of the user page and the load decide what lies in memory. -/
theorem startProcess_loadByte (oldPid : Int) (inode : ℕ) (i : Fin 6) (s : Kernel) (va : Word) :
    (startProcess L fs cs oldPid inode i s).loadByte L va =
      ({ s with pages := mapUserPage i.val s.pages }.storeBytes L programStart
        ((fs.readData inode 0 (fs.inodeLength inode)).stores fs)).loadByte L va := by
  simp only [startProcess, Kernel.loadByte, Kernel.storeBytes_pages, Kernel.storeBytes_console,
    Kernel.setPcb_pages, Kernel.setPcb_console]

/-! ## A call that enters user mode -/

/-- `execute_function` finds the entry `e` and a free slot `i`, and it enters user mode: it
does not run into a page fault before. -/
structure Enters (L : Link) (fs : FileSystem) (cs : CallSite) (command : List Byte) (s : Kernel)
    (e : DirectoryEntry) (i : Fin 6) (eip esp : Word) (s' : Kernel) : Prop where
  found : fs.readDentryByName (commandName command) = some e
  free : freeSlot s.processes = some i
  backed : LoadBacked L fs e.inodeNum.toNat i s
  runs : executeFunction L fs cs (some command) s = (.userMode eip esp, s')

/-- The first four bytes of an executable. -/
def HasMagic (f : ℕ → Byte) : Prop := f 0 = 0x7F ∧ f 1 = 0x45 ∧ f 2 = 0x4C ∧ f 3 = 0x46

/-- What the call checks about the entry it finds: the first four bytes behind its inode, and
that there is such an inode. -/
structure Accepted (L : Link) (fs : FileSystem) (command : List Byte) (s : Kernel)
    (e : DirectoryEntry) (i : Fin 6) : Prop where
  found : fs.readDentryByName (commandName command) = some e
  free : freeSlot s.processes = some i
  backed : LoadBacked L fs e.inodeNum.toNat i s
  inode : e.inodeNum.toNat < fs.inodeCount
  magic : HasMagic (fs.fileByte e.inodeNum.toNat)

/-- The file of an entry has been started as a program. -/
structure FileStarted (L : Link) (fs : FileSystem) (e : DirectoryEntry) (eip : Word)
    (s' : Kernel) : Prop where
  magic : HasMagic (fs.fileByte e.inodeNum.toNat)
  entryPoint : eip = ofBytes fun k => fs.fileByte e.inodeNum.toNat (24 + k)
  loaded : ∀ k < fs.inodeLength e.inodeNum.toNat,
    s'.loadByte L (programStart + BitVec.ofNat 32 k) = fs.fileByte e.inodeNum.toNat k

/-- The first word of a command names the entry, which is a regular file with a header. -/
structure IsProgram (fs : FileSystem) (command : List Byte) (e : DirectoryEntry) : Prop where
  named : fs.readDentryByName (firstWord command) = some e
  regular : e.filetype = 2
  header : 28 ≤ fs.inodeLength e.inodeNum.toNat

section entering

variable {command : List Byte} {s s' : Kernel} {e : DirectoryEntry} {i : Fin 6} {eip esp : Word}

/-- The check of an inode that exists looks at the file, whatever its length is. -/
theorem isElf_iff (cs : CallSite) {inode : ℕ} (hinode : inode < fs.inodeCount) :
    isElf fs cs inode = true ↔ HasMagic (fs.fileByte inode) := by
  have hbyte : ∀ k < 4, checkBytes fs cs inode k = fs.fileByte inode k := fun k hk => by
    rw [checkBytes, readInto_eq hinode (Nat.zero_le _) _ hk, Nat.zero_add]
  rw [isElf, HasMagic, decide_eq_true_eq, hbyte 0 (by decide), hbyte 1 (by decide),
    hbyte 2 (by decide), hbyte 3 (by decide)]

/-- A call enters user mode if the checks pass, and only then. -/
theorem enters_iff : Enters L fs cs command s e i eip esp s' ↔
    Accepted L fs command s e i ∧ esp = userStack ∧
      eip = ofBytes (readInto fs e.inodeNum.toNat 24 4 fun _ => 0) ∧
      s' = startProcess L fs cs s.pid e.inodeNum.toNat i
        { s with
          commandBuffer := commandArgs command, pid := i.val
          processes := copyArgs s.processes i (argBytes command) } := by
  constructor
  · rintro ⟨hfound, hfree, hback, hruns⟩
    rw [executeFunction_found hfound hfree, executeIn] at hruns
    dsimp only at hruns
    split at hruns
    · cases hruns
    · next helf =>
      split at hruns
      · cases hruns
      · next hret =>
        obtain ⟨hmode, rfl⟩ := Prod.mk.inj hruns
        obtain ⟨rfl, rfl⟩ := ExecOutcome.userMode.inj hmode
        have hinode : e.inodeNum.toNat < fs.inodeCount := by
          by_contra hnot
          exact hret (by rw [readData_entry_ret, if_pos (not_lt.mp hnot)])
        rw [Bool.not_eq_false, isElf_iff cs hinode] at helf
        exact ⟨⟨hfound, hfree, hback, hinode, helf⟩, rfl, rfl, rfl⟩
  · rintro ⟨h, rfl, rfl, rfl⟩
    refine ⟨h.found, h.free, h.backed, ?_⟩
    have hentry : ¬ (4 : Int) = -1 := by decide
    have helf : isElf fs cs e.inodeNum.toNat = true := (isElf_iff cs h.inode).mpr h.magic
    rw [executeFunction_found h.found h.free, executeIn]
    simp only [helf, Bool.true_eq_false, if_false, readData_entry_ret, not_le.mpr h.inode, hentry]

/-- Whatever the entry is, its file has been started. -/
theorem Enters.fileStarted (h : Enters L fs cs command s e i eip esp s')
    (htable : WindowTable L s.pages) : FileStarted L fs e eip s' := by
  obtain ⟨hacc, -, rfl, rfl⟩ := enters_iff.mp h
  have hwalk : ∀ k < fs.inodeLength e.inodeNum.toNat, ∀ mem,
      walk L (mapUserPage i.val s.pages) mem false (programStart + BitVec.ofNat 32 k) =
        some (loadAddr i k) := fun k hk => (hacc.backed.walk_eq htable hk).2
  refine ⟨hacc.magic, ?_, fun k hk => ?_⟩
  · exact ofBytes_congr fun k hk => readInto_eq hacc.inode (Nat.zero_le _) _ hk
  · rw [startProcess_loadByte, readData_stores hacc.inode (Nat.zero_le _)]
    exact loadByte_storeBytes _ hwalk
      (fun j k hjk hk => loadAddr_ne hjk (hacc.backed.walk_eq htable hk).1) hk

end entering

/-- For every image, command and state whose tables are as the kernel keeps them: a call
that enters user mode has started a regular file with a header, which the first word
names, exactly if the name is not found, or its inode does not exist, or the four bytes
behind it are not the magic ones, or a page of the load is not present, or the entry is
such a file. As in `FileSystem.entry`, the name found ends within its entry. -/
theorem started_program_iff (L : Link) (fs : FileSystem) (cs : CallSite) (command : List Byte)
    {s : Kernel} (htable : WindowTable L s.pages) :
    (∀ e i eip esp s', Enters L fs cs command s e i eip esp s' →
      IsProgram fs command e ∧ FileStarted L fs e eip s') ↔
      ∀ e i, Accepted L fs command s e i → IsProgram fs command e := by
  constructor
  · intro hall e i hacc
    exact (hall e i _ _ _ (enters_iff.mpr ⟨hacc, rfl, rfl, rfl⟩)).1
  · intro hall e i eip esp s' henters
    exact ⟨hall e i (enters_iff.mp henters).1, henters.fileStarted htable⟩

/-- A short program always finds its pages. -/
theorem loadBacked_of_le {inode : ℕ} (h : fs.inodeLength inode ≤ 0x3B8000) (i : Fin 6)
    (s : Kernel) : LoadBacked L fs inode i s :=
  fun k hk => ⟨loadAddr i k, walk_userPage (lt_of_lt_of_le hk h)⟩

/-- The base shell is such a file. -/
theorem started_program_iff_sample :
    IsProgram Sample.files shellCommand (Sample.files.entry 0) ∧
      FileStarted Sample.link Sample.files (Sample.files.entry 0) 0x08048018 Sample.running := by
  have hprogram : ∀ e i, Accepted Sample.link Sample.files shellCommand Sample.atBoot e i →
      IsProgram Sample.files shellCommand e := by
    intro e i hacc
    have hfound : Sample.files.readDentryByName (commandName shellCommand) =
        some (Sample.files.entry 0) := by decide
    obtain rfl := Option.some.inj (hfound.symm.trans hacc.found)
    exact ⟨by decide, by decide, by decide⟩
  have henters : Enters Sample.link Sample.files Sample.site shellCommand Sample.atBoot
      (Sample.files.entry 0) 0 0x08048018 userStack Sample.running :=
    ⟨by decide, by decide, loadBacked_of_le (by decide) _ _, Sample.execute_atBoot⟩
  exact (started_program_iff Sample.link Sample.files Sample.site shellCommand
    (WindowTable.init _ _)).mpr hprogram _ _ _ _ _ henters

/-- The inode number of the device entry `rtc` is 0, which is the shell's: the base shell
executes `rtc`, and it starts. -/
theorem device_entry_started : (Sample.files.entry 2).filetype = 0 ∧
    ¬ ∀ e i eip esp s', Enters Sample.link Sample.files Sample.site Sample.rtc Sample.running
        e i eip esp s' →
      IsProgram Sample.files Sample.rtc e ∧ FileStarted Sample.link Sample.files e eip s' := by
  have hacc : Accepted Sample.link Sample.files Sample.rtc Sample.running
      (Sample.files.entry 2) 1 :=
    ⟨by decide, by decide, loadBacked_of_le (by decide) _ _, by decide,
      ⟨by decide, by decide, by decide, by decide⟩⟩
  have htype : (Sample.files.entry 2).filetype = 0 := by decide
  refine ⟨htype, fun hall => ?_⟩
  have hregular := (hall _ _ _ _ _ (enters_iff.mpr ⟨hacc, rfl, rfl, rfl⟩)).1.regular
  rw [htype] at hregular
  exact absurd hregular (by decide)

end Os391
