import Os391.FileReads

/-!
# Open files as streams

What a descriptor has still to deliver of its file, for programs that read files to their
end. A read moves its own descriptor only, and so does `close_function`; a file that has
just been opened has all of its bytes to deliver.
-/

namespace Os391

open Bytes Segment

/-- `'\n'`. -/
def newlineChar : Byte := 0x0A

/-- What `ece391_close` does to the kernel. -/
def close (fd : Fin 8) (s : Kernel) : Kernel := (closeFunction fd.val s).state

variable {fs : FileSystem} {s s' : Kernel} {i : Fin 6} {fd k : Fin 8} {bs : List Byte}

/-- Slot `i` is current, and what its descriptor `fd` has not delivered yet of its file are
the bytes `bs`. -/
def Remaining (fs : FileSystem) (s : Kernel) (i : Fin 6) (fd : Fin 8) (bs : List Byte) : Prop :=
  ∃ inode pos, fs.Sized inode ∧ At s i fd inode pos ∧ pos ≤ fs.inodeLength inode ∧
    bs = segment (fs.fileByte inode) pos (fs.inodeLength inode - pos)

/-- What happens to one descriptor of the current slot. -/
structure Touches (i : Fin 6) (fd : Fin 8) (s s' : Kernel) : Prop where
  pid : s'.pid = s.pid
  others : ∀ k, k ≠ fd → (s'.processes i).fdArr k = (s.processes i).fdArr k

theorem Touches.refl (i : Fin 6) (fd : Fin 8) (s : Kernel) : Touches i fd s s :=
  ⟨rfl, fun _ _ => rfl⟩

theorem touches_advance (n : ℕ) : Touches i fd s (s.advance i fd n) :=
  ⟨rfl, fun k hk => by simp [hk]⟩

theorem touches_close (hpid : s.pid = i.val) : Touches i fd s (close fd s) := by
  obtain ⟨r, hr⟩ := closeFunction_eq hpid fd.val
  rw [close, hr, Result.state_ok]
  refine ⟨rfl, fun k hk => ?_⟩
  rw [Kernel.setPcb_processes, Function.update_self, Pcb.closeFd]
  split
  · simp [hk]
  · rfl

/-- Another descriptor delivers what it would have delivered. -/
theorem Remaining.frame (h : Remaining fs s i k bs) (ht : Touches i fd s s') (hne : k ≠ fd) :
    Remaining fs s' i k bs := by
  obtain ⟨inode, pos, hsized, hat, hle, hbs⟩ := h
  refine ⟨inode, pos, hsized, ⟨?_, ?_⟩, hle, hbs⟩
  · rw [ht.others k hne, hat.inode]
  · rw [ht.others k hne, hat.filePos]

/-- At the end of the file. -/
theorem Remaining.read_end (hpid : s.pid = i.val) (h : Remaining fs s i fd []) :
    filesystemRead fs fd.val 1 s = .ok (0, []) s := by
  obtain ⟨inode, pos, -, hat, -, hbs⟩ := h
  have hlength := congrArg List.length hbs
  rw [length_segment, List.length_nil] at hlength
  exact filesystemRead_end hpid hat (by omega) 1

/-- Before it. -/
theorem Remaining.read_next (hpid : s.pid = i.val) {b : Byte}
    (h : Remaining fs s i fd (b :: bs)) :
    filesystemRead fs fd.val 1 s = .ok (1, [(0, b)]) (s.advance i fd 1) ∧
      Remaining fs (s.advance i fd 1) i fd bs := by
  obtain ⟨inode, pos, hsized, hat, hle, hbs⟩ := h
  have hlength := congrArg List.length hbs
  rw [length_segment, List.length_cons] at hlength
  have hfit := hsized.length_le
  have hsplit : fs.inodeLength inode - pos = 1 + (fs.inodeLength inode - (pos + 1)) := by omega
  have hone : segment (fs.fileByte inode) pos 1 = [fs.fileByte inode pos] := by simp [Segment.segment]
  rw [hsplit, segment_add, hone, List.singleton_append] at hbs
  obtain ⟨rfl, rfl⟩ := List.cons.inj hbs
  have hread := filesystemRead_inside (n := 1) hpid hat hsized (by omega) (by decide)
  have hfill : fill (fs.fileByte inode) pos 0 1 = [(0, fs.fileByte inode pos)] := by simp [fill]
  rw [hfill] at hread
  exact ⟨hread, inode, pos + 1, hsized, hat.advance (by omega), by omega, rfl⟩

/-- The bytes of a file. -/
def contents (fs : FileSystem) (e : DirectoryEntry) : List Byte :=
  segment (fs.fileByte e.inodeNum.toNat) 0 (fs.inodeLength e.inodeNum.toNat)

/-- A regular file that has just been opened, on a descriptor that was free. -/
structure OpenedStream (fs : FileSystem) (i : Fin 6) (fd : Fin 8) (e : DirectoryEntry)
    (s s' : Kernel) : Prop where
  pid : s'.pid = i.val
  two_le : 2 ≤ fd.val
  free : ((s.processes i).fdArr fd).avail ≠ 0
  taken : ((s'.processes i).fdArr fd).avail = 0
  remaining : Remaining fs s' i fd (contents fs e)
  touches : Touches i fd s s'

theorem opened_of_open {L : Link} (hfs : fs.WellFormed) {table : FileOpTable}
    {name : Option (List Byte)} {e : DirectoryEntry} (hpid : s.pid = i.val)
    (hname : fs.lookup name = some e) (htype : e.filetype = 2)
    (hopen : openFunction L fs table name s = .ok (fd.val : Int) s') :
    OpenedStream fs i fd e s s' := by
  have hsized := hfs.sized hname htype
  obtain ⟨hs', hat⟩ := openFunction_at hpid hname htype hopen
  have hfree : firstAvailable (s.processes i) = some fd := by
    rcases openFunction_cases hpid hopen with ⟨hret, -⟩ | ⟨k, -, hk, hret, -⟩
    · omega
    · rwa [show fd = k from Fin.ext (by omega)]
  subst hs'
  refine ⟨hpid, (OpenSet.mem_searched fd).mp (List.mem_of_find?_eq_some hfree),
    by simpa using List.find?_some hfree, ?_, ⟨_, 0, hsized, hat, Nat.zero_le _, rfl⟩,
    ⟨rfl, fun k hk => ?_⟩⟩
  · simp [Kernel.openAt, openDescriptor]
  · simp [Kernel.openAt, hk]

/-- Two files opened one after the other. -/
theorem OpenedStream.both {s₁ s₂ : Kernel} {e e' : DirectoryEntry} (h : OpenedStream fs i fd e s s₁)
    (h' : OpenedStream fs i k e' s₁ s₂) : fd ≠ k ∧ Remaining fs s₂ i fd (contents fs e) := by
  have hne : fd ≠ k := by
    rintro rfl
    exact h'.free h.taken
  exact ⟨hne, h.remaining.frame h'.touches hne⟩

/-- The base shell with `notes` open twice. -/
def Sample.readingTwice : Kernel :=
  Sample.reading.openAt Sample.link ⟨0, 0, 0, 0⟩ (Sample.files.entry 1) 0 3

theorem Sample.open_again : openFunction Sample.link Sample.files ⟨0, 0, 0, 0⟩
    (some Sample.notes) Sample.reading = .ok (3 : Fin 8).val Sample.readingTwice :=
  openFunction_found (by decide) (by decide) (by decide)

end Os391
