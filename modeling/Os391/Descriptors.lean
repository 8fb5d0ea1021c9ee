import Os391.Steps
import Mathlib.Data.Finset.Insert

/-!
# The descriptor table of one process

Seen from outside, the eight descriptors of a process are a set of open numbers:
0 and 1 always, and between 2 and 7 those that `open` handed out and `close` has
not taken back. `OpenSet` relates the `avail` fields to such a set, `FdRun`
follows a process through its calls and keeps the set by their return values
alone, and `openClose_refines` says that the table and the set never part.
-/

namespace Os391

open FirstFit

variable {L : Link} {fs : FileSystem} {cs : CallSite}

/-! ## Files by kind -/

/-- The file types of a directory entry. -/
inductive FileKind : Type where
  | rtc | directory | regular
  deriving DecidableEq

/-- The kind a `filetype` field stands for. -/
def FileKind.ofType (filetype : Bytes.Word) : Option FileKind :=
  if filetype = 0 then some .rtc
  else if filetype = 1 then some .directory
  else if filetype = 2 then some .regular
  else none

/-- The operation table of a kind of file. -/
def Link.tableOf (L : Link) : FileKind → FileOpTable
  | .rtc => ⟨L.address .rtcOpen, L.address .rtcRead, L.address .rtcWrite, L.address .rtcClose⟩
  | .directory =>
    ⟨L.address .dirOpen, L.address .dirRead, L.address .dirWrite, L.address .dirClose⟩
  | .regular => ⟨L.address .filesystemOpen, L.address .filesystemRead, L.address .filesystemWrite,
      L.address .filesystemClose⟩

/-- For a known type the table does not depend on what was on the stack. -/
theorem openTable_of_kind {filetype : Bytes.Word} {kind : FileKind}
    (h : FileKind.ofType filetype = some kind) (junk : FileOpTable) :
    L.openTable filetype junk = L.tableOf kind := by
  rw [FileKind.ofType] at h
  rw [Link.openTable]
  split at h
  · obtain rfl := Option.some.inj h
    simp [*, Link.tableOf]
  · split at h
    · obtain rfl := Option.some.inj h
      simp [*, Link.tableOf]
    · split at h
      · obtain rfl := Option.some.inj h
        simp [*, Link.tableOf]
      · cases h

namespace FileSystem

/-- Every directory entry has file type 0, 1 or 2. -/
def WellTyped (fs : FileSystem) : Prop :=
  ∀ k < fs.dirCount, (FileKind.ofType (fs.entry k).filetype).isSome

/-- The look-up of a file name, null pointer included. -/
def lookup (fs : FileSystem) (name : Option (List Bytes.Byte)) : Option DirectoryEntry :=
  name.bind fs.readDentryByName

theorem findEntry_mem {fname : List Bytes.Byte} {n count : ℕ} {e : DirectoryEntry}
    (h : fs.findEntry fname n count = some e) : ∃ k < count + n, fs.entry k = e := by
  induction n generalizing count with
  | zero => cases h
  | succ n ih =>
    rw [findEntry] at h
    split at h
    · exact ⟨count, by omega, Option.some.inj h⟩
    · obtain ⟨k, hk, he⟩ := ih h
      exact ⟨k, by omega, he⟩

/-- A file that is found is one of the first `dir_count` entries. -/
theorem lookup_mem {name : Option (List Bytes.Byte)} {e : DirectoryEntry}
    (h : fs.lookup name = some e) : ∃ k < fs.dirCount, fs.entry k = e := by
  obtain ⟨fname, -, he⟩ := Option.bind_eq_some_iff.mp h
  obtain ⟨k, hk, hke⟩ := findEntry_mem he
  exact ⟨k, by omega, hke⟩

theorem WellTyped.kind (h : fs.WellTyped) {name : Option (List Bytes.Byte)} {e : DirectoryEntry}
    (he : fs.lookup name = some e) : ∃ kind, FileKind.ofType e.filetype = some kind := by
  obtain ⟨k, hk, rfl⟩ := lookup_mem he
  exact Option.isSome_iff_exists.mp (h k hk)

end FileSystem

/-! ## One call -/

/-- A descriptor that `close_function` has freed. -/
def FileDescriptor.freed (d : FileDescriptor) : FileDescriptor := { d with avail := 1 }

/-- The state after descriptor `fd` of slot `i` has been opened for entry `e`. -/
def Kernel.openAt (L : Link) (junk : FileOpTable) (e : DirectoryEntry) (i : Fin 6) (fd : Fin 8)
    (s : Kernel) : Kernel :=
  { s.setPcb i ((s.processes i).setFd fd (openDescriptor L junk e)) with fdInd := fd }

section calls

variable {s : Kernel} {i : Fin 6} {junk : FileOpTable} {name : Option (List Bytes.Byte)}
  {e : DirectoryEntry}

theorem openFunction_unknown (h : fs.lookup name = none) :
    openFunction L fs junk name s = .ok (-1) s := by
  rcases name with _ | fname
  · rfl
  · have hname : fs.readDentryByName fname = none := h
    simp only [openFunction, hname]

theorem openFunction_full (hpid : s.pid = i.val) (h : fs.lookup name = some e)
    (hfull : firstAvailable (s.processes i) = none) :
    openFunction L fs junk name s = .ok (-1) s := by
  obtain ⟨fname, rfl, hname⟩ := Option.bind_eq_some_iff.mp h
  simp only [openFunction, hname, Kernel.withSlot_of_eq hpid, hfull]

theorem openFunction_found {fd : Fin 8} (hpid : s.pid = i.val) (h : fs.lookup name = some e)
    (hfree : firstAvailable (s.processes i) = some fd) :
    openFunction L fs junk name s = .ok fd.val (s.openAt L junk e i fd) := by
  obtain ⟨fname, rfl, hname⟩ := Option.bind_eq_some_iff.mp h
  simp only [openFunction, hname, Kernel.withSlot_of_eq hpid, hfree]
  rfl

/-- A call that returns a descriptor has opened it. -/
theorem openFunction_opened {fd : Fin 8} {s' : Kernel} (hpid : s.pid = i.val)
    (hname : fs.lookup name = some e)
    (hopen : openFunction L fs junk name s = .ok (fd.val : Int) s') :
    s' = s.openAt L junk e i fd := by
  rcases hfree : firstAvailable (s.processes i) with _ | fd'
  · rw [openFunction_full hpid hname hfree] at hopen
    injection hopen with hret
    omega
  · rw [openFunction_found hpid hname hfree] at hopen
    injection hopen with hret hstate
    obtain rfl : fd' = fd := Fin.ext (by omega)
    exact hstate.symm

/-- Everything a call of `open` can do. -/
theorem openFunction_cases {r : Int} {s' : Kernel} (hpid : s.pid = i.val)
    (h : openFunction L fs junk name s = .ok r s') :
    (r = -1 ∧ s' = s) ∨ ∃ fd e, firstAvailable (s.processes i) = some fd ∧ r = fd.val ∧
      s' = s.openAt L junk e i fd := by
  rcases hname : fs.lookup name with _ | e
  · rw [openFunction_unknown hname] at h
    cases h
    exact Or.inl ⟨rfl, rfl⟩
  · rcases hfree : firstAvailable (s.processes i) with _ | fd
    · rw [openFunction_full hpid hname hfree] at h
      cases h
      exact Or.inl ⟨rfl, rfl⟩
    · rw [openFunction_found hpid hname hfree] at h
      cases h
      exact Or.inr ⟨fd, e, rfl, rfl, rfl⟩

theorem closeFunction_refused {fd : Int} (hpid : s.pid = i.val)
    (h : ∀ k : Fin 8, fd = k.val → 2 ≤ k.val → ((s.processes i).fdArr k).avail = 1) :
    closeFunction fd s = .ok (-1) s := by
  rw [closeFunction]
  by_cases hfd : fd ≤ 1 ∨ 7 < fd
  · rw [if_pos hfd]
  · have hval := fdIndex_val_eq fd (by omega) (by omega)
    have hav := h (fdIndex fd) hval.symm (by omega)
    rw [if_neg hfd, Kernel.withSlot_of_eq hpid]
    simp only [hav, if_true]

theorem closeFunction_frees {k : Fin 8} (hpid : s.pid = i.val) (h₂ : 2 ≤ k.val)
    (h : ((s.processes i).fdArr k).avail ≠ 1) :
    closeFunction k.val s =
      .ok 0 (s.setPcb i ((s.processes i).setFd k ((s.processes i).fdArr k).freed)) := by
  have hk := k.isLt
  have hfd : ¬ ((k.val : Int) ≤ 1 ∨ 7 < (k.val : Int)) := by omega
  rw [closeFunction, if_neg hfd, Kernel.withSlot_of_eq hpid]
  simp only [fdIndex_val, h, if_false]
  rfl

/-- Everything a call of `close` can do. -/
theorem closeFunction_cases {fd r : Int} {s' : Kernel} (hpid : s.pid = i.val)
    (h : closeFunction fd s = .ok r s') :
    (r = -1 ∧ s' = s) ∨ ∃ k : Fin 8, fd = k.val ∧ r = 0 ∧
      s' = s.setPcb i ((s.processes i).setFd k ((s.processes i).fdArr k).freed) := by
  by_cases hfree : ∃ k : Fin 8, fd = k.val ∧ 2 ≤ k.val ∧ ((s.processes i).fdArr k).avail ≠ 1
  · obtain ⟨k, rfl, h₂, hopen⟩ := hfree
    rw [closeFunction_frees hpid h₂ hopen] at h
    cases h
    exact Or.inr ⟨k, rfl, rfl, rfl⟩
  · push Not at hfree
    rw [closeFunction_refused hpid hfree] at h
    cases h
    exact Or.inl ⟨rfl, rfl⟩

end calls

/-! ## The table as a set -/

/-- The descriptors of `p` that are taken are 0, 1 and the members of `O`. -/
structure OpenSet (p : Pcb) (O : Finset (Fin 8)) : Prop where
  range : ∀ k ∈ O, 2 ≤ k.val
  avail : ∀ k, (p.fdArr k).avail = if k.val < 2 ∨ k ∈ O then 0 else 1

/-- No descriptor is left. -/
def Full (O : Finset (Fin 8)) : Prop := ∀ k : Fin 8, 2 ≤ k.val → k ∈ O

/-- The least descriptor from 2 on that is not open. -/
structure LeastFree (O : Finset (Fin 8)) (fd : Fin 8) : Prop where
  range : 2 ≤ fd.val
  free : fd ∉ O
  least : ∀ k < fd, 2 ≤ k.val → k ∈ O

namespace OpenSet

variable {p : Pcb} {O : Finset (Fin 8)}

theorem avail_eq_zero_iff (h : OpenSet p O) (k : Fin 8) :
    (p.fdArr k).avail = 0 ↔ k.val < 2 ∨ k ∈ O := by
  rw [h.avail k]
  split
  · rename_i htaken
    exact iff_of_true rfl htaken
  · rename_i hfree
    exact iff_of_false (by decide) hfree

theorem avail_eq_one_iff (h : OpenSet p O) (k : Fin 8) :
    (p.fdArr k).avail = 1 ↔ 2 ≤ k.val ∧ k ∉ O := by
  rw [h.avail k]
  split
  · rename_i htaken
    have hnot : ¬ (2 ≤ k.val ∧ k ∉ O) := fun hk => htaken.elim (by omega) hk.2
    simp [hnot]
  · rename_i hfree
    exact ⟨fun _ => ⟨by omega, fun hk => hfree (Or.inr hk)⟩, fun _ => rfl⟩

/-- Membership in the list `open_function` searches. -/
theorem mem_searched (k : Fin 8) : k ∈ ([2, 3, 4, 5, 6, 7] : List (Fin 8)) ↔ 2 ≤ k.val := by
  revert k
  decide

theorem firstAvailable_eq_none_iff (h : OpenSet p O) : firstAvailable p = none ↔ Full O := by
  simp only [firstAvailable, List.find?_eq_none, mem_searched, decide_eq_true_eq, not_not]
  refine forall_congr' fun k => forall_congr' fun hk => ?_
  rw [h.avail_eq_zero_iff k]
  exact ⟨fun hor => hor.resolve_left (by omega), Or.inr⟩

theorem firstAvailable_eq_some_iff (h : OpenSet p O) {fd : Fin 8} :
    firstAvailable p = some fd ↔ LeastFree O fd := by
  rw [firstAvailable, find?_eq_some_iff (by decide)]
  simp only [mem_searched, decide_eq_true_eq, decide_eq_false_iff_not, not_not, ne_eq,
    h.avail_eq_zero_iff]
  constructor
  · rintro ⟨hfd, hfree, hleast⟩
    exact ⟨hfd, fun hmem => hfree (Or.inr hmem),
      fun k hk h₂ => (hleast k h₂ hk).resolve_left (by omega)⟩
  · rintro ⟨hfd, hfree, hleast⟩
    refine ⟨hfd, ?_, fun k h₂ hk => Or.inr (hleast k hk h₂)⟩
    rintro (hlt | hmem)
    · omega
    · exact hfree hmem

/-- Opening the least free descriptor puts it into the set. -/
theorem insert (h : OpenSet p O) {fd : Fin 8} (hfd : 2 ≤ fd.val) {d : FileDescriptor}
    (hd : d.avail = 0) : OpenSet (p.setFd fd d) (insert fd O) := by
  refine ⟨?_, ?_⟩
  · intro k hk
    rcases Finset.mem_insert.mp hk with rfl | hk
    · exact hfd
    · exact h.range k hk
  · intro k
    by_cases hk : k = fd
    · subst hk
      simp [hd]
    · simp [hk, h.avail k]

/-- Closing a descriptor takes it out of the set. -/
theorem erase (h : OpenSet p O) {fd : Fin 8} (hfd : 2 ≤ fd.val) :
    OpenSet (p.setFd fd (p.fdArr fd).freed) (O.erase fd) := by
  refine ⟨fun k hk => h.range k (Finset.mem_of_mem_erase hk), ?_⟩
  intro k
  by_cases hk : k = fd
  · subst hk
    have hout : ¬ k.val < 2 := by omega
    simp [FileDescriptor.freed, hout]
  · simp [hk, h.avail k]

/-- `execute_function` leaves no descriptor open but 0 and 1. -/
theorem started (terminal : Fin 3) (oldPid : Int) (i : Fin 6) :
    OpenSet (p.started L cs terminal oldPid i) ∅ := by
  refine ⟨by simp, ?_⟩
  intro k
  fin_cases k <;> rfl

end OpenSet

/-! ## What the calls promise -/

/-- A successful `open` of entry `e` at descriptor `fd` of slot `i`. -/
structure Opened (L : Link) (e : DirectoryEntry) (i : Fin 6) (fd : Fin 8) (s s' : Kernel) :
    Prop where
  taken : ((s'.processes i).fdArr fd).avail = 0
  filePos : ((s'.processes i).fdArr fd).filePos = 0
  table : ∃ kind, FileKind.ofType e.filetype = some kind ∧
    ((s'.processes i).fdArr fd).fileOpTable = L.tableOf kind
  inode : e.filetype = 2 → ((s'.processes i).fdArr fd).inodeNum = e.inodeNum
  slots : ∀ k, k ≠ fd → (s'.processes i).fdArr k = (s.processes i).fdArr k
  others : ∀ j, j ≠ i → s'.processes j = s.processes j

/-- `open` in slot `i` behaves as on the set `O`: it fails, changing nothing, if the
name is unknown or no descriptor is left, and otherwise takes the least one left. -/
structure OpenMeets (L : Link) (fs : FileSystem) (i : Fin 6) (O : Finset (Fin 8)) (s : Kernel)
    (junk : FileOpTable) (name : Option (List Bytes.Byte)) : Prop where
  fails : fs.lookup name = none ∨ Full O → openFunction L fs junk name s = .ok (-1) s
  succeeds : ∀ e, fs.lookup name = some e → ¬ Full O → ∃ fd s',
    openFunction L fs junk name s = .ok (fd.val : Int) s' ∧ LeastFree O fd ∧ Opened L e i fd s s'

/-- `close` in slot `i` behaves as on the set `O`: it frees a member of the set and
fails, changing nothing, for any other number. -/
structure CloseMeets (i : Fin 6) (O : Finset (Fin 8)) (s : Kernel) (fd : Int) : Prop where
  frees : ∀ k ∈ O, fd = k.val → closeFunction fd s =
    .ok 0 (s.setPcb i ((s.processes i).setFd k ((s.processes i).fdArr k).freed))
  refuses : (∀ k ∈ O, fd ≠ k.val) → closeFunction fd s = .ok (-1) s

section meets

variable {s : Kernel} {i : Fin 6} {O : Finset (Fin 8)}

theorem OpenSet.openMeets (h : OpenSet (s.processes i) O) (hpid : s.pid = i.val)
    (hfs : fs.WellTyped) (junk : FileOpTable) (name : Option (List Bytes.Byte)) :
    OpenMeets L fs i O s junk name := by
  refine ⟨?_, ?_⟩
  · rintro (hname | hfull)
    · exact openFunction_unknown hname
    · rcases hname : fs.lookup name with _ | e
      · exact openFunction_unknown hname
      · exact openFunction_full hpid hname (h.firstAvailable_eq_none_iff.mpr hfull)
  · intro e hname hfull
    rcases hfree : firstAvailable (s.processes i) with _ | fd
    · exact absurd (h.firstAvailable_eq_none_iff.mp hfree) hfull
    · obtain ⟨kind, hkind⟩ := hfs.kind hname
      refine ⟨fd, _, openFunction_found hpid hname hfree, h.firstAvailable_eq_some_iff.mp hfree, ?_⟩
      refine ⟨?_, ?_, ⟨kind, hkind, ?_⟩, ?_, ?_, ?_⟩
      · simp [Kernel.openAt, openDescriptor]
      · simp [Kernel.openAt, openDescriptor]
      · simp [Kernel.openAt, openDescriptor, openTable_of_kind hkind]
      · intro htype
        simp [Kernel.openAt, openDescriptor, htype]
      · intro k hk
        simp [Kernel.openAt, hk]
      · intro j hj
        simp [Kernel.openAt, hj]

theorem OpenSet.closeMeets (h : OpenSet (s.processes i) O) (hpid : s.pid = i.val) (fd : Int) :
    CloseMeets i O s fd := by
  refine ⟨?_, ?_⟩
  · rintro k hk rfl
    refine closeFunction_frees hpid (h.range k hk) ?_
    rw [ne_eq, h.avail_eq_one_iff k]
    exact fun hnot => hnot.2 hk
  · intro hne
    refine closeFunction_refused hpid fun k hfd h₂ => ?_
    exact (h.avail_eq_one_iff k).mpr ⟨h₂, fun hk => hne k hk hfd⟩

end meets

/-! ## Runs -/

/-- The calls of one process from state `s₀` on. The set is kept by the return
values: `open` puts a number in, a `close` that returns 0 takes it out. -/
inductive FdRun (L : Link) (fs : FileSystem) (s₀ : Kernel) : Kernel → Finset (Fin 8) → Prop where
  | start : FdRun L fs s₀ s₀ ∅
  | opens {s s' : Kernel} {O : Finset (Fin 8)} (junk : FileOpTable)
      (name : Option (List Bytes.Byte)) {r : Int} :
      FdRun L fs s₀ s O → openFunction L fs junk name s = .ok r s' →
      FdRun L fs s₀ s' (if 0 ≤ r then insert (fdIndex r) O else O)
  | closes {s s' : Kernel} {O : Finset (Fin 8)} (fd : Int) {r : Int} :
      FdRun L fs s₀ s O → closeFunction fd s = .ok r s' →
      FdRun L fs s₀ s' (if r = 0 then O.erase (fdIndex fd) else O)

/-- What holds between the start of a run and any state of it. -/
structure FdInv (i : Fin 6) (s₀ s : Kernel) (O : Finset (Fin 8)) : Prop where
  pid : s.pid = i.val
  table : OpenSet (s.processes i) O
  others : ∀ j, j ≠ i → s.processes j = s₀.processes j

namespace FdInv

variable {i : Fin 6} {s₀ s s' : Kernel} {O : Finset (Fin 8)}

theorem opens (h : FdInv i s₀ s O) {junk : FileOpTable} {name : Option (List Bytes.Byte)} {r : Int}
    (hr : openFunction L fs junk name s = .ok r s') :
    FdInv i s₀ s' (if 0 ≤ r then insert (fdIndex r) O else O) := by
  rcases openFunction_cases h.pid hr with ⟨rfl, rfl⟩ | ⟨fd, e, hfree, rfl, rfl⟩
  · exact h
  · have hleast := h.table.firstAvailable_eq_some_iff.mp hfree
    rw [if_pos (Int.natCast_nonneg _), fdIndex_val]
    refine ⟨by simpa [Kernel.openAt] using h.pid, ?_, ?_⟩
    · simpa [Kernel.openAt] using h.table.insert hleast.range rfl
    · intro j hj
      simpa [Kernel.openAt, hj] using h.others j hj

theorem closes (h : FdInv i s₀ s O) {fd r : Int} (hr : closeFunction fd s = .ok r s') :
    FdInv i s₀ s' (if r = 0 then O.erase (fdIndex fd) else O) := by
  have hmeets := h.table.closeMeets h.pid fd
  by_cases hfd : ∃ k ∈ O, fd = k.val
  · obtain ⟨k, hk, rfl⟩ := hfd
    rw [hmeets.frees k hk rfl] at hr
    cases hr
    rw [if_pos rfl, fdIndex_val]
    refine ⟨by simpa using h.pid, ?_, ?_⟩
    · simpa using h.table.erase (h.table.range k hk)
    · intro j hj
      simpa [hj] using h.others j hj
  · push Not at hfd
    rw [hmeets.refuses hfd] at hr
    cases hr
    exact h

end FdInv

/-- Every state of a run. -/
theorem FdRun.inv {i : Fin 6} {s₀ s : Kernel} {O : Finset (Fin 8)} (h₀ : FdInv i s₀ s₀ ∅)
    (h : FdRun L fs s₀ s O) : FdInv i s₀ s O := by
  induction h with
  | start => exact h₀
  | opens junk name _ hr ih => exact ih.opens hr
  | closes fd _ hr ih => exact ih.closes hr

/-- From the moment `execute_function` has set up its descriptors, a process that
opens and closes files sees a set of numbers: the taken descriptors are 0, 1 and
the set its successful calls describe, each further call does to the set what it
says, and no other process' slot changes. -/
theorem openClose_refines (hfs : fs.WellTyped) {command : List Bytes.Byte} {t s₀ s : Kernel}
    {eip esp : Bytes.Word} {O : Finset (Fin 8)}
    (hstart : executeFunction L fs cs (some command) t = (.userMode eip esp, s₀))
    (hrun : FdRun L fs s₀ s O) :
    ∃ i : Fin 6, s₀.pid = i.val ∧ s.pid = i.val ∧ OpenSet (s.processes i) O ∧
      (∀ j, j ≠ i → s.processes j = s₀.processes j) ∧
      (∀ junk name, OpenMeets L fs i O s junk name) ∧ ∀ fd, CloseMeets i O s fd := by
  obtain ⟨i, hs⟩ := executeFunction_userMode hstart
  have h₀ : FdInv i s₀ s₀ ∅ := by
    refine ⟨hs.pid, ?_, fun _ _ => rfl⟩
    rw [hs.own]
    exact OpenSet.started _ _ _
  have h := hrun.inv h₀
  exact ⟨i, hs.pid, h.pid, h.table, h.others, h.table.openMeets h.pid hfs,
    h.table.closeMeets h.pid⟩

/-- The base shell opens the RTC, which is descriptor 2, and can close it again. -/
theorem openClose_refines_sample : ∃ s, FdRun Sample.link Sample.files Sample.running s {2} ∧
    ∃ i : Fin 6, s.pid = i.val ∧ OpenSet (s.processes i) {2} ∧ CloseMeets i {2} s 2 := by
  have hopen : openFunction Sample.link Sample.files ⟨0, 0, 0, 0⟩ (some Sample.rtc)
      Sample.running = .ok (2 : Fin 8).val
        (Sample.running.openAt Sample.link ⟨0, 0, 0, 0⟩ (Sample.files.entry 2) 0 2) :=
    openFunction_found (by decide) (by decide) (by decide)
  have hrun := FdRun.start.opens _ _ hopen
  have htyped : Sample.files.WellTyped := by
    rw [FileSystem.WellTyped]
    decide
  obtain ⟨i, -, hpid, hset, -, -, hclose⟩ :=
    openClose_refines htyped Sample.execute_atBoot hrun
  exact ⟨_, hrun, i, hpid, hset, hclose 2⟩

end Os391
