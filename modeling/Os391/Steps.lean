import Os391.System
import Os391.Lib.FirstFit
import Mathlib.Data.Fintype.Basic
import Mathlib.Tactic.FinCases

/-!
# What one call can do

One specification for each of `execute_function` and `halt_function`: `Started`
and `Halted` list everything the call changes, as far as the process table,
`pid`, the terminals, the TSS, paging and `fd_ind` are concerned. Whatever is
said about runs is derived from these two and from the lemmas on `open`, `close`
and `read`; no later proof unfolds the calls themselves.
-/

namespace Os391

open Bytes Segment FirstFit

variable {L : Link} {fs : FileSystem} {cs : CallSite}

/-- An entry of a table after one entry has been replaced. -/
theorem update_eq_some {α β : Type} [DecidableEq α] {f : α → Option β} {i j : α} {x : Option β}
    {y : β} (h : Function.update f i x j = some y) :
    j = i ∧ x = some y ∨ j ≠ i ∧ f j = some y := by
  by_cases hji : j = i
  · subst hji
    rw [Function.update_self] at h
    exact Or.inl ⟨rfl, h⟩
  · rw [Function.update_of_ne hji] at h
    exact Or.inr ⟨hji, h⟩

/-! ## The argument copy -/

/-- `args` after a copy that fits. -/
def Pcb.withArgs (p : Pcb) (bs : List Byte) : Pcb :=
  { p with args := fun k => (bs[k.val]?).getD (p.args k) }

theorem Pcb.withArgs_args (p : Pcb) (bs : List Byte) (k : Fin 4096) :
    (p.withArgs bs).args k = (bs[k.val]?).getD (p.args k) := rfl

/-- Where arguments without a zero are copied, zeros remain behind them only. -/
theorem Pcb.withArgs_ne_zero_iff (p : Pcb) {bs : List Byte} (h : ∀ c ∈ bs, c ≠ 0) (k : Fin 4096) :
    (p.withArgs bs).args k ≠ 0 ↔ p.args k ≠ 0 ∨ k.val < bs.length := by
  rw [Pcb.withArgs_args]
  rcases hk : bs[k.val]? with _ | c
  · have hbeyond := List.getElem?_eq_none_iff.mp hk
    rw [Option.getD_none]
    exact ⟨Or.inl, fun hor => hor.resolve_right (Nat.not_lt.mpr hbeyond)⟩
  · obtain ⟨hlt, hget⟩ := List.getElem?_eq_some_iff.mp hk
    rw [Option.getD_some]
    refine iff_of_true (h c ?_) (Or.inr hlt)
    rw [← hget]
    exact List.getElem_mem hlt

namespace FileDescriptor

theorem patched_of_none {p : Patch} {a : ℕ} (h : ∀ k < 32, p (a + k) = none)
    (d : FileDescriptor) : d.patched p a = d := by
  have hword : ∀ o, o ≤ 28 → ∀ old, p.word (a + o) old = old := by
    intro o ho old
    exact Patch.word_of_none (fun k hk => by rw [Nat.add_assoc]; exact h _ (by omega)) old
  have h₀ : ∀ old, p.word a old = old := hword 0 (by omega)
  simp only [patched, h₀, hword 4 (by omega), hword 8 (by omega), hword 12 (by omega),
    hword 16 (by omega), hword 20 (by omega), hword 24 (by omega), hword 28 (by omega)]

end FileDescriptor

namespace Pcb

/-- A patch that touches no byte before the arguments. -/
theorem patched_of_none_before {p : Patch} {a : ℕ} (h : ∀ k < argsOffset, p (a + k) = none)
    (q : Pcb) : q.patched p a =
      { q with
        args := fun k => p.byte (a + argsOffset + k.val) (q.args k)
        terminal := p.word (a + 4376) q.terminal } := by
  have hword : ∀ o, o ≤ 276 → ∀ old, p.word (a + o) old = old := by
    intro o ho old
    refine Patch.word_of_none (fun k hk => ?_) old
    rw [Nat.add_assoc]
    exact h _ (by rw [argsOffset]; omega)
  have hfd : (fun k : Fin 8 => (q.fdArr k).patched p (a + 32 * k.val)) = q.fdArr := by
    funext k
    refine FileDescriptor.patched_of_none (fun j hj => ?_) _
    rw [Nat.add_assoc]
    exact h _ (by rw [argsOffset]; omega)
  simp only [patched, hfd, hword 256 (by omega), hword 260 (by omega), hword 264 (by omega),
    hword 268 (by omega), hword 272 (by omega), hword 276 (by omega), argsOffset]

/-- A patch that touches no byte of the PCB. -/
theorem patched_of_none {p : Patch} {a : ℕ} (h : ∀ k < pcbSize, p (a + k) = none)
    (q : Pcb) : q.patched p a = q := by
  have hbefore : ∀ k < argsOffset, p (a + k) = none := fun k hk =>
    h k (lt_trans hk (by decide))
  rw [patched_of_none_before hbefore]
  have hargs : (fun k : Fin 4096 => p.byte (a + argsOffset + k.val) (q.args k)) = q.args := by
    funext k
    refine Patch.byte_of_none ?_ _
    rw [Nat.add_assoc]
    exact h _ (by rw [argsOffset, pcbSize]; omega)
  have hterm : p.word (a + 4376) q.terminal = q.terminal := by
    refine Patch.word_of_none (fun k hk => ?_) _
    rw [Nat.add_assoc]
    exact h _ (by rw [pcbSize]; omega)
  rw [hargs, hterm]

end Pcb

/-- Slots below the one the arguments are copied into are not touched. -/
theorem copyArgs_below {ps : Fin 6 → Pcb} {i j : Fin 6} (h : j < i) (bs : List Byte) :
    copyArgs ps i bs j = ps j := by
  refine Pcb.patched_of_none (fun k hk => stored_below _ ?_) _
  have hij : j.val + 1 ≤ i.val := h
  unfold pcbSize at hk ⊢
  omega

/-- In the slot itself the copy reaches the arguments and the terminal. -/
theorem copyArgs_self (ps : Fin 6 → Pcb) (i : Fin 6) (bs : List Byte) :
    copyArgs ps i bs i =
      { (ps i).withArgs bs with
        terminal := (stored (pcbSize * i.val + argsOffset) bs).word (pcbSize * i.val + 4376)
          (ps i).terminal } := by
  rw [copyArgs, Pcb.patched_of_none_before
    (fun k hk => stored_below _ (Nat.add_lt_add_left hk _))]
  simp only [Pcb.withArgs, Patch.byte, stored_at]

/-- A copy that ends in the slot leaves the other slots alone: behind the arguments it has
only the word `terminal`. -/
theorem copyArgs_other {ps : Fin 6 → Pcb} {i j : Fin 6} {bs : List Byte} (h : bs.length ≤ 4100)
    (hj : j ≠ i) : copyArgs ps i bs j = ps j := by
  rcases lt_or_gt_of_ne hj with hlt | hgt
  · exact copyArgs_below hlt bs
  · refine Pcb.patched_of_none (fun k hk => stored_beyond ?_) _
    have hij : i.val + 1 ≤ j.val := hgt
    unfold pcbSize argsOffset at *
    omega

/-- A copy that fits changes the arguments of the slot and nothing else. -/
theorem copyArgs_of_fits {ps : Fin 6 → Pcb} {i : Fin 6} {bs : List Byte} (h : bs.length ≤ 4096) :
    copyArgs ps i bs = Function.update ps i ((ps i).withArgs bs) := by
  funext j
  by_cases hj : j = i
  · subst hj
    rw [Function.update_self, copyArgs_self]
    have hterm : (stored (pcbSize * j.val + argsOffset) bs).word (pcbSize * j.val + 4376)
        (ps j).terminal = (ps j).terminal := by
      refine Patch.word_of_none (fun k hk => stored_beyond ?_) _
      rw [argsOffset]
      omega
    rw [hterm]
    rfl
  · rw [Function.update_of_ne hj, copyArgs_other (by omega) hj]

/-! ## `execute_function` -/

/-- The arguments of a command stay in their slot: they fit into `args` and the word
`terminal` behind it, which is assigned after them. -/
def ArgsFit (command : List Byte) : Prop := argLength command ≤ 4100

/-- `"shell"` has none. -/
theorem argsFit_shell : ArgsFit shellCommand := by
  rw [ArgsFit]
  decide

theorem argsFit_respawn : ArgsFit respawnCommand := by
  rw [ArgsFit]
  decide

theorem ArgsFit.length_le {command : List Byte} (h : ArgsFit command) :
    (argBytes command).length ≤ 4100 := by
  rw [length_argBytes]
  exact h

theorem freeSlot_eq_some {ps : Fin 6 → Pcb} {i : Fin 6} :
    freeSlot ps = some i ↔ (ps i).active = 0 ∧ ∀ j < i, (ps j).active ≠ 0 := by
  simp [freeSlot, find?_finRange_eq_some_iff]

/-- The first slot is taken if it is free. -/
theorem eq_zero_of_freeSlot {ps : Fin 6 → Pcb} {i : Fin 6} (hfree : freeSlot ps = some i)
    (h₀ : (ps 0).active = 0) : i = 0 := by
  by_contra hi
  exact (freeSlot_eq_some.mp hfree).2 0 (Nat.pos_of_ne_zero fun h => hi (Fin.ext h)) h₀

/-- `read_data` of the entry point fails exactly for an inode out of range. -/
theorem readData_entry_ret (inode : ℕ) :
    (fs.readData inode 24 4).ret = if fs.inodeCount ≤ inode then -1 else 4 := by
  rw [FileSystem.readData]
  split
  · rfl
  · have hidx : ¬ fs.inodeLength inode / 4096 < 24 / 4096 := by omega
    simp [hidx]

section equations

variable {command : List Byte} {e : DirectoryEntry} {s : Kernel}

/-- An unknown name: nothing happens at all. -/
theorem executeFunction_unknown (h : fs.readDentryByName (commandName command) = none) :
    executeFunction L fs cs (some command) s = (.returned (-1), s) := by
  simp only [executeFunction, h]

/-- All slots active: a message. -/
theorem executeFunction_full (h : fs.readDentryByName (commandName command) = some e)
    (hfree : freeSlot s.processes = none) :
    executeFunction L fs cs (some command) s =
      (.returned 0, { s with
        commandBuffer := commandArgs command, console := s.console.puts maxProgramsText }) := by
  simp only [executeFunction, h, hfree]

/-- A slot is chosen. -/
theorem executeFunction_found {i : Fin 6}
    (h : fs.readDentryByName (commandName command) = some e)
    (hfree : freeSlot s.processes = some i) :
    executeFunction L fs cs (some command) s =
      executeIn L fs cs command e i { s with commandBuffer := commandArgs command } := by
  simp only [executeFunction, h, hfree]

/-- A program is started: the name is known, a slot is free, the file is an executable
and its inode exists. -/
theorem executeFunction_starts {i : Fin 6} (L : Link) (cs : CallSite)
    (h : fs.readDentryByName (commandName command) = some e)
    (hfree : freeSlot s.processes = some i) (helf : isElf fs cs e.inodeNum.toNat = true)
    (hinode : e.inodeNum.toNat < fs.inodeCount) :
    ∃ eip s', executeFunction L fs cs (some command) s = (.userMode eip userStack, s') := by
  have hentry : ¬ (4 : Int) = -1 := by decide
  rw [executeFunction_found h hfree, executeIn]
  simp only [helf, Bool.true_eq_false, if_false, readData_entry_ret, not_le.mpr hinode, hentry]
  exact ⟨_, _, rfl⟩

end equations

/-- What a call of `execute_function` that starts a program in slot `i` has done. -/
structure Started (L : Link) (cs : CallSite) (command : List Byte) (i : Fin 6) (s s' : Kernel) :
    Prop where
  free : freeSlot s.processes = some i
  pid : s'.pid = i.val
  own : s'.processes i =
    (copyArgs s.processes i (argBytes command) i).started L cs s.curTerminal s.pid i
  other : ∀ j, j ≠ i → s'.processes j = copyArgs s.processes i (argBytes command) j
  terminals : s'.terminals = Function.update s.terminals s.curTerminal
    { s.terminals s.curTerminal with latestPid := i.val }
  curTerminal : s'.curTerminal = s.curTerminal
  tss : s'.tss = ⟨kernelStackTop i.val, kernelDs⟩
  pages : s'.pages = mapUserPage i.val s.pages
  fdInd : s'.fdInd = s.fdInd

/-- With arguments that fit no other slot changes. -/
theorem Started.other_of_fits {command : List Byte} {i : Fin 6} {s s' : Kernel}
    (h : Started L cs command i s s') (hfit : ArgsFit command) {j : Fin 6} (hj : j ≠ i) :
    s'.processes j = s.processes j := by
  rw [h.other j hj, copyArgs_other hfit.length_le hj]

/-- What a call of `execute_function` leaves that finds the name but no free slot,
or not even the name: only the command buffer and the screen can differ. -/
structure Refused (s s' : Kernel) : Prop where
  pid : s'.pid = s.pid
  processes : s'.processes = s.processes
  terminals : s'.terminals = s.terminals
  curTerminal : s'.curTerminal = s.curTerminal
  tss : s'.tss = s.tss
  pages : s'.pages = s.pages
  fdInd : s'.fdInd = s.fdInd

theorem Refused.refl (s : Kernel) : Refused s s := ⟨rfl, rfl, rfl, rfl, rfl, rfl, rfl⟩

/-- What a call of `execute_function` leaves that fails in the ELF check: `pid` names
the slot that was chosen, and the arguments have been copied into it. -/
structure Stalled (command : List Byte) (i : Fin 6) (s s' : Kernel) : Prop where
  free : freeSlot s.processes = some i
  pid : s'.pid = i.val
  processes : s'.processes = copyArgs s.processes i (argBytes command)
  terminals : s'.terminals = s.terminals
  curTerminal : s'.curTerminal = s.curTerminal
  tss : s'.tss = s.tss
  pages : s'.pages = s.pages
  fdInd : s'.fdInd = s.fdInd

namespace Stalled

variable {command : List Byte} {i : Fin 6} {s s' : Kernel}

/-- Arguments that fit into `args` are all that has changed. -/
theorem processes_of_le (h : Stalled command i s s') (hle : argLength command ≤ 4096) :
    s'.processes =
      Function.update s.processes i ((s.processes i).withArgs (argBytes command)) :=
  h.processes.trans (copyArgs_of_fits ((length_argBytes command).trans_le hle))

/-- Arguments that fit leave the words of every slot and its descriptors alone. -/
theorem kept_of_fits (h : Stalled command i s s') (hfit : ArgsFit command) (j : Fin 6) :
    (s'.processes j).parentPid = (s.processes j).parentPid ∧
      (s'.processes j).active = (s.processes j).active ∧
      (s'.processes j).fdArr = (s.processes j).fdArr := by
  rw [h.processes]
  by_cases hj : j = i
  · subst hj
    rw [copyArgs_self, Pcb.withArgs]
    exact ⟨rfl, rfl, rfl⟩
  · have hsame : copyArgs s.processes i (argBytes command) j = s.processes j :=
      copyArgs_other hfit.length_le hj
    rw [hsame]
    exact ⟨rfl, rfl, rfl⟩

theorem words_of_fits (h : Stalled command i s s') (hfit : ArgsFit command) (j : Fin 6) :
    (s'.processes j).parentPid = (s.processes j).parentPid ∧
      (s'.processes j).active = (s.processes j).active :=
  ⟨(h.kept_of_fits hfit j).1, (h.kept_of_fits hfit j).2.1⟩

theorem fdArr_of_fits (h : Stalled command i s s') (hfit : ArgsFit command) (j : Fin 6) :
    (s'.processes j).fdArr = (s.processes j).fdArr := (h.kept_of_fits hfit j).2.2

end Stalled

section inversion

variable {command : List Byte} {s s' : Kernel} {out : ExecOutcome}

/-- A call with all slots active leaves everything but the screen alone. -/
theorem executeFunction_no_slot (hfree : freeSlot s.processes = none)
    (h : executeFunction L fs cs (some command) s = (out, s')) :
    Refused s s' ∧ ∃ r, out = .returned r := by
  rcases hname : fs.readDentryByName (commandName command) with _ | e
  · rw [executeFunction_unknown hname] at h
    obtain ⟨rfl, rfl⟩ := Prod.mk.inj h
    exact ⟨Refused.refl s, -1, rfl⟩
  · rw [executeFunction_full hname hfree] at h
    obtain ⟨rfl, rfl⟩ := Prod.mk.inj h
    exact ⟨⟨rfl, rfl, rfl, rfl, rfl, rfl, rfl⟩, 0, rfl⟩

/-- A call that has found the name and chosen a slot: the ELF check fails, or the slot
is set up, and if the inode does not exist the call returns -1 all the same. -/
theorem executeFunction_found_cases {e : DirectoryEntry} {i : Fin 6}
    (hname : fs.readDentryByName (commandName command) = some e)
    (hfree : freeSlot s.processes = some i)
    (h : executeFunction L fs cs (some command) s = (out, s')) :
    (Stalled command i s s' ∧ out = .returned (-1)) ∨
      (Started L cs command i s s' ∧
        (out = .returned (-1) ∨ ∃ eip, out = .userMode eip userStack)) := by
  rw [executeFunction_found hname hfree, executeIn] at h
  dsimp only at h
  have hstarted : ∀ inode, Started L cs command i s (startProcess L fs cs s.pid inode i
      { s with
        commandBuffer := commandArgs command, pid := i.val
        processes := copyArgs s.processes i (argBytes command) }) := fun inode =>
    ⟨hfree, rfl, by simp [startProcess], fun j hj => by simp [startProcess, hj],
      rfl, rfl, rfl, rfl, rfl⟩
  split at h
  · -- the ELF check fails
    obtain ⟨rfl, rfl⟩ := Prod.mk.inj h
    exact Or.inl ⟨⟨hfree, rfl, rfl, rfl, rfl, rfl, rfl, rfl⟩, rfl⟩
  · split at h
    · -- the entry point cannot be read
      obtain ⟨rfl, rfl⟩ := Prod.mk.inj h
      exact Or.inr ⟨hstarted _, Or.inl rfl⟩
    · obtain ⟨rfl, rfl⟩ := Prod.mk.inj h
      exact Or.inr ⟨hstarted _, Or.inr ⟨_, rfl⟩⟩

/-- Everything a call of `execute_function` can do. -/
theorem executeFunction_cases (h : executeFunction L fs cs (some command) s = (out, s')) :
    (Refused s s' ∧ ∃ r, out = .returned r) ∨
      (∃ i, Stalled command i s s' ∧ out = .returned (-1)) ∨
      ∃ i, Started L cs command i s s' ∧
        (out = .returned (-1) ∨ ∃ eip, out = .userMode eip userStack) := by
  rcases hfree : freeSlot s.processes with _ | i
  · exact Or.inl (executeFunction_no_slot hfree h)
  · rcases hname : fs.readDentryByName (commandName command) with _ | e
    · rw [executeFunction_unknown hname] at h
      obtain ⟨rfl, rfl⟩ := Prod.mk.inj h
      exact Or.inl ⟨Refused.refl s, -1, rfl⟩
    · rcases executeFunction_found_cases hname hfree h with hstalled | hstarted
      · exact Or.inr (Or.inl ⟨i, hstalled⟩)
      · exact Or.inr (Or.inr ⟨i, hstarted⟩)

/-- The call gets as far as the copy of the arguments: the name is known, and a slot is
free. -/
def CopiesArgs (fs : FileSystem) (command : List Byte) (s : Kernel) : Prop :=
  (fs.readDentryByName (commandName command)).isSome = true ∧ (freeSlot s.processes).isSome = true

/-- Otherwise it is refused before anything is copied. -/
theorem executeFunction_not_copies (hnot : ¬ CopiesArgs fs command s)
    (h : executeFunction L fs cs (some command) s = (out, s')) : Refused s s' := by
  rcases hfree : freeSlot s.processes with _ | i
  · exact (executeFunction_no_slot hfree h).1
  · rcases hname : fs.readDentryByName (commandName command) with _ | e
    · rw [executeFunction_unknown hname] at h
      obtain ⟨-, rfl⟩ := Prod.mk.inj h
      exact Refused.refl s
    · exact absurd ⟨by rw [hname]; rfl, by rw [hfree]; rfl⟩ hnot

/-- The call enters user mode only by starting a program in the first free slot. -/
theorem executeFunction_userMode {eip esp : Word}
    (h : executeFunction L fs cs (some command) s = (.userMode eip esp, s')) :
    ∃ i, Started L cs command i s s' := by
  rcases executeFunction_cases h with ⟨-, r, hr⟩ | ⟨i, -, hr⟩ | ⟨i, hs, -⟩
  · cases hr
  · cases hr
  · exact ⟨i, hs⟩

end inversion

/-! ## `close_function` and `halt_function` -/

namespace Pcb

/-- One descriptor after `close_function`, whether or not it was open. -/
def closeFd (p : Pcb) (fd : Int) : Pcb :=
  if 2 ≤ fd ∧ fd ≤ 7 then p.setFd (fdIndex fd) { p.fdArr (fdIndex fd) with avail := 1 } else p

/-- A PCB whose descriptors 2 to 7 are all free. -/
def closed (p : Pcb) : Pcb :=
  { p with fdArr := fun k => if 2 ≤ k.val then { p.fdArr k with avail := 1 } else p.fdArr k }

theorem closed_avail (p : Pcb) (k : Fin 8) :
    (p.closed.fdArr k).avail = if k.val < 2 then (p.fdArr k).avail else 1 := by
  rw [closed]
  by_cases hk : k.val < 2
  · simp only [hk, Nat.not_le.mpr hk, if_true, if_false]
  · simp only [hk, Nat.not_lt.mp hk, if_true, if_false]

theorem foldl_closeFd (p : Pcb) : [0, 1, 2, 3, 4, 5, 6, 7].foldl closeFd p = p.closed := by
  have hfd : ([0, 1, 2, 3, 4, 5, 6, 7].foldl closeFd p).fdArr = p.closed.fdArr := by
    funext k
    fin_cases k <;> rfl
  exact congrArg (fun f => { p with fdArr := f }) hfd

end Pcb

namespace Kernel

@[simp] theorem setPcb_self (s : Kernel) (i : Fin 6) : s.setPcb i (s.processes i) = s := by
  simp [setPcb]

theorem setPcb_processes_self (s : Kernel) (i : Fin 6) (p : Pcb) :
    (s.setPcb i p).processes i = p := by
  simp

/-- Marking a slot active leaves the saved registers of every slot alone. -/
theorem saved_markActive (s : Kernel) (i parent : Fin 6) :
    let t := s.setPcb parent { s.processes parent with active := 1 }
    (t.processes i).savedEsp = (s.processes i).savedEsp ∧
      (t.processes i).savedEbp = (s.processes i).savedEbp := by
  by_cases hp : i = parent
  · subst hp
    simp
  · simp [hp]

@[simp] theorem setPcb_setPcb (s : Kernel) (i : Fin 6) (p q : Pcb) :
    (s.setPcb i p).setPcb i q = s.setPcb i q := by
  simp [setPcb]

end Kernel

/-- Whatever its argument, `close_function` leaves the current slot with that
descriptor free. -/
theorem closeFunction_eq {s : Kernel} {i : Fin 6} (h : s.pid = i.val) (fd : Int) :
    ∃ r, closeFunction fd s = .ok r (s.setPcb i ((s.processes i).closeFd fd)) := by
  rw [closeFunction]
  by_cases hfd : fd ≤ 1 ∨ 7 < fd
  · have hout : ¬ (2 ≤ fd ∧ fd ≤ 7) := by omega
    rw [if_pos hfd, Pcb.closeFd, if_neg hout, Kernel.setPcb_self]
    exact ⟨-1, rfl⟩
  · have hin : 2 ≤ fd ∧ fd ≤ 7 := by omega
    rw [if_neg hfd, Kernel.withSlot_of_eq h, Pcb.closeFd, if_pos hin]
    by_cases hav : ((s.processes i).fdArr (fdIndex fd)).avail = 1
    · -- an entry that is free already keeps its value
      have hsame : ({ (s.processes i).fdArr (fdIndex fd) with avail := 1 } : FileDescriptor) =
          (s.processes i).fdArr (fdIndex fd) := by
        rw [← hav]
      rw [hsame, Pcb.setFd, Function.update_eq_self, Kernel.setPcb_self]
      simp only [hav, if_true]
      exact ⟨-1, rfl⟩
    · simp only [hav, if_false]
      exact ⟨0, rfl⟩

theorem closeEach_eq {s : Kernel} {i : Fin 6} (h : s.pid = i.val) (fds : List Int) :
    closeEach fds s = .ok () (s.setPcb i (fds.foldl Pcb.closeFd (s.processes i))) := by
  induction fds generalizing s with
  | nil => simp [closeEach]
  | cons fd rest ih =>
    obtain ⟨r, hr⟩ := closeFunction_eq h fd
    rw [closeEach, hr, Result.bind_ok, ih (by simpa using h)]
    simp

/-- What a completed `halt_function` has done that ran in slot `i` with parent `p`. -/
structure Halted (L : Link) (i p : Fin 6) (s s' : Kernel) : Prop where
  parentPid : (s.processes i).parentPid.toInt = p.val
  pid : s'.pid = p.val
  processes : s'.processes =
    let ps := Function.update s.processes i (s.processes i).closed.cleared
    Function.update ps p { ps p with active := 1 }
  terminals : s'.terminals = Function.update s.terminals s.curTerminal
    { s.terminals s.curTerminal with latestPid := p.val }
  curTerminal : s'.curTerminal = s.curTerminal
  tss : s'.tss = ⟨kernelStackTop p.val, kernelDs⟩
  pages : s'.pages = haltPaging L p.val s.curTerminal s.pages
  fdInd : s'.fdInd = s.fdInd

namespace Halted

variable {i p : Fin 6} {s s' : Kernel}

theorem own (h : Halted L i p s s') (hne : i ≠ p) :
    s'.processes i = (s.processes i).closed.cleared := by
  simp [h.processes, hne]

theorem parent (h : Halted L i p s s') (hne : i ≠ p) :
    s'.processes p = { s.processes p with active := 1 } := by
  simp [h.processes, hne.symm]

theorem other (h : Halted L i p s s') {j : Fin 6} (hi : j ≠ i) (hp : j ≠ p) :
    s'.processes j = s.processes j := by
  simp [h.processes, hi, hp]

end Halted

/-- The rest of `halt_function` in slot `i`, up to the access to the parent's PCB. -/
theorem haltRest_eq {status : Byte} {s : Kernel} {i : Fin 6} (h : s.pid = i.val) :
    haltRest L status s =
      (let t := handOver L i (s.setPcb i (s.processes i).closed.cleared)
       t.withSlot (s.processes i).parentPid.toInt fun parent =>
        .ok (.resumes (s.processes i).savedEsp (s.processes i).savedEbp (status.setWidth 32))
          (t.setPcb parent { t.processes parent with active := 1 })) := by
  have hpid : (s.setPcb i ((s.processes i).closed)).pid = i.val := by simpa using h
  rw [haltRest, closeEach_eq h, Pcb.foldl_closeFd, Result.bind_ok, Kernel.withSlot_of_eq hpid,
    Kernel.setPcb_processes_self, Kernel.setPcb_setPcb]
  set t := handOver L i (s.setPcb i (s.processes i).closed.cleared) with ht
  have hto : t.pid = (s.processes i).parentPid.toInt := by
    simp [ht, handOver, Pcb.cleared, Pcb.closed]
  have hown : t.processes i = (s.processes i).closed.cleared := by
    simp [ht, handOver]
  simp only [hto]
  congr 1
  funext parent
  -- the registers are read from the slot that was torn down, which still has them
  rw [(t.saved_markActive i parent).1, (t.saved_markActive i parent).2, hown]
  rfl

/-- The hand-over to parent `p`. -/
theorem handOver_eq {s : Kernel} {i p : Fin 6} (hp : (s.processes i).parentPid.toInt = p.val) :
    handOver L i s =
      { s with
        pid := p.val
        terminals := Function.update s.terminals s.curTerminal
          { s.terminals s.curTerminal with latestPid := p.val }
        tss := ⟨kernelStackTop p.val, kernelDs⟩
        pages := haltPaging L p.val s.curTerminal s.pages } := by
  simp only [handOver, hp]

/-- Whatever the parent is, its page is mapped. -/
theorem haltRest_pages {status : Byte} {s : Kernel} {i : Fin 6} (h : s.pid = i.val) :
    (haltRest L status s).state.pages =
      haltPaging L (s.processes i).parentPid.toInt s.curTerminal s.pages := by
  have hown : (s.processes i).closed.cleared.parentPid = (s.processes i).parentPid := rfl
  rw [haltRest_eq h]
  dsimp only
  rw [Kernel.withSlot]
  split <;> simp [handOver, hown]

/-- Whatever the parent is, the slot is torn down, and at most one slot is marked as
active. -/
theorem haltRest_processes (L : Link) (status : Byte) {s : Kernel} {i : Fin 6}
    (h : s.pid = i.val) :
    let ps := Function.update s.processes i (s.processes i).closed.cleared
    (haltRest L status s).state.processes = ps ∨
      ∃ p, (haltRest L status s).state.processes =
        Function.update ps p { ps p with active := 1 } := by
  rw [haltRest_eq h]
  dsimp only
  rw [Kernel.withSlot]
  split
  · exact Or.inr ⟨_, rfl⟩
  · exact Or.inl rfl

/-- `halt_function` empties the buffer of its slot and deactivates no other, whether or not
the parent is a slot. -/
theorem haltRest_args {s : Kernel} {i : Fin 6} (L : Link) (status : Byte) (hpid : s.pid = i.val)
    (j : Fin 6) : ((haltRest L status s).state.processes j).args =
        (if j = i then fun _ => 0 else (s.processes j).args) ∧
      (j ≠ i → (s.processes j).active ≠ 0 →
        ((haltRest L status s).state.processes j).active ≠ 0) := by
  have hcleared : (Function.update s.processes i (s.processes i).closed.cleared j).args =
      if j = i then fun _ => 0 else (s.processes j).args := by
    by_cases hji : j = i
    · subst hji
      rw [Function.update_self, if_pos rfl]
      rfl
    · rw [Function.update_of_ne hji, if_neg hji]
  rcases haltRest_processes L status hpid with heq | ⟨p, heq⟩
  · rw [heq]
    refine ⟨hcleared, fun hji hact => ?_⟩
    rw [Function.update_of_ne hji]
    exact hact
  · rw [heq]
    by_cases hjp : j = p
    · subst hjp
      rw [Function.update_self]
      exact ⟨hcleared, fun _ _ hzero => absurd hzero (by decide : (1 : Word) ≠ 0)⟩
    · rw [Function.update_of_ne hjp]
      refine ⟨hcleared, fun hji hact => ?_⟩
      rw [Function.update_of_ne hji]
      exact hact

/-- Outside the table nothing happens at all. -/
theorem haltRest_no_slot (L : Link) (status : Byte) {s : Kernel} (h : slot? s.pid = none) :
    (haltRest L status s).state = s := by
  simp [haltRest, closeEach, closeFunction, Kernel.withSlot, h]

/-- With a parent in the table the rest of `halt_function` completes. -/
theorem haltRest_ok (L : Link) (status : Byte) {s : Kernel} {i p : Fin 6} (h : s.pid = i.val)
    (hp : (s.processes i).parentPid.toInt = p.val) :
    ∃ s', haltRest L status s = .ok (.resumes (s.processes i).savedEsp (s.processes i).savedEbp
      (status.setWidth 32)) s' ∧ Halted L i p s s' := by
  have hown : ((s.setPcb i (s.processes i).closed.cleared).processes i).parentPid.toInt = p.val := by
    rw [Kernel.setPcb_processes_self]
    exact hp
  rw [haltRest_eq h]
  simp only [hp, Kernel.withSlot_val, handOver_eq hown]
  exact ⟨_, rfl, hp, rfl, rfl, rfl, rfl, rfl, rfl, rfl⟩

/-- `halt_function` of a process that is not the base shell. -/
theorem haltFunction_ok (L : Link) (fs : FileSystem) (cs : CallSite) (status : Byte) {s : Kernel}
    {i p : Fin 6} (h : s.pid = i.val) (hown : (s.processes i).pid ≠ 0)
    (hp : (s.processes i).parentPid.toInt = p.val) :
    ∃ s', haltFunction L fs cs status s = .ok (.resumes (s.processes i).savedEsp
      (s.processes i).savedEbp (status.setWidth 32)) s' ∧ Halted L i p s s' := by
  rw [haltFunction, Kernel.withSlot_of_eq h, if_neg hown]
  exact haltRest_ok L status h hp

/-! ## The current process' page and stack -/

/-- The page of a slot, as the directory entry holds it. -/
theorem userPageBase_slot (p : Fin 6) :
    (userPageBase p.val).setWidth 10 = BitVec.ofNat 10 (2 + p.val) := by
  revert p
  decide

theorem kernelStackTop_slot (p : Fin 6) :
    kernelStackTop p.val = 0x800000 - 0x2000 * BitVec.ofNat 32 p.val - 4 := by
  revert p
  decide

theorem mapUserPage_pageDir (p : Int) (t : PageTables) :
    (mapUserPage p t).pageDir 32 = mbEntry 1 1 0 (userPageBase p) (t.pageDir 32) := by
  simp [mapUserPage]

theorem mapUserPage_pageDir_of_ne (p : Int) (t : PageTables) {i : Fin 1024} (h : i ≠ 32) :
    (mapUserPage p t).pageDir i = t.pageDir i := by
  simp only [mapUserPage, Function.update_of_ne h]

/-- The user page after `halt_function` has handed over to slot `p`. -/
theorem haltPaging_pageDir (L : Link) (p : Int) (terminal : Fin 3) (t : PageTables) :
    (haltPaging L p terminal t).pageDir 32 = mbEntry 1 1 0 (userPageBase p) 0 := by
  simp [haltPaging, mapUserPage]

theorem haltPaging_pageDir_of_ne (L : Link) (p : Int) (terminal : Fin 3) (t : PageTables)
    {i : Fin 1024} (h0 : i ≠ 0) (h : i ≠ 32) :
    (haltPaging L p terminal t).pageDir i = t.pageDir i := by
  simp only [haltPaging, mapUserPage, Function.update_of_ne h0, Function.update_of_ne h]

/-- Of the window `halt_function` unmaps at most one page, and writes no other. -/
theorem haltPaging_videoMappingPage (L : Link) (p : Int) (terminal : Fin 3) (t : PageTables)
    (i : Fin 1024) :
    (haltPaging L p terminal t).videoMappingPage i = t.videoMappingPage i ∨
      Pte.p.get ((haltPaging L p terminal t).videoMappingPage i) = 0 := by
  by_cases hslot : i = Fin.ofNat 1024 terminal.val
  · subst hslot
    refine Or.inr ?_
    simp only [haltPaging, mapUserPage, Function.update_self, pteEntry_p]
    rfl
  · refine Or.inl ?_
    simp only [haltPaging, mapUserPage, Function.update_of_ne hslot]

/-! ## Activity and links -/

section links

variable {command : List Byte} {i p : Fin 6} {s s' : Kernel}

theorem Started.active_iff (h : Started L cs command i s s') (hfit : ArgsFit command)
    (j : Fin 6) : (s'.processes j).active ≠ 0 ↔ j = i ∨ (s.processes j).active ≠ 0 := by
  by_cases hj : j = i
  · subst hj
    rw [h.own]
    exact iff_of_true (by simp [Pcb.started]) (Or.inl rfl)
  · rw [h.other_of_fits hfit hj, or_iff_right hj]

theorem Halted.active_iff (h : Halted L i p s s') (hne : i ≠ p) (hp : (s.processes p).active ≠ 0)
    (j : Fin 6) : (s'.processes j).active ≠ 0 ↔ j ≠ i ∧ (s.processes j).active ≠ 0 := by
  by_cases hj : j = i
  · subst hj
    rw [h.own hne]
    exact iff_of_false (by simp [Pcb.cleared]) fun hnot => hnot.1 rfl
  · by_cases hjp : j = p
    · subst hjp
      rw [h.parent hne]
      exact iff_of_true (by simp) ⟨hj, hp⟩
    · rw [h.other hj hjp]
      exact ⟨fun hact => ⟨hj, hact⟩, fun hact => hact.2⟩

theorem Halted.links (h : Halted L i p s s') (hne : i ≠ p) (j : Fin 6) :
    (s'.processes j).parentPid = (s.processes j).parentPid ∧
      (s'.processes j).pid = (s.processes j).pid := by
  by_cases hj : j = i
  · subst hj
    rw [h.own hne]
    exact ⟨rfl, rfl⟩
  · by_cases hjp : j = p
    · subst hjp
      rw [h.parent hne]
      exact ⟨rfl, rfl⟩
    · rw [h.other hj hjp]
      exact ⟨rfl, rfl⟩

/-- `halt` closes the descriptors of its own slot. -/
theorem Halted.fdArr_eq (h : Halted L i p s s') (j : Fin 6) :
    (s'.processes j).fdArr = if j = i then (s.processes i).closed.fdArr
      else (s.processes j).fdArr := by
  by_cases hjp : j = p <;> by_cases hj : j = i
  all_goals
    subst_vars
    simp [h.processes, Pcb.cleared, *]

/-- `halt` changes no link, whichever slots it concerns. -/
theorem Halted.parentPid_eq (h : Halted L i p s s') (j : Fin 6) :
    (s'.processes j).parentPid = (s.processes j).parentPid := by
  by_cases hne : i = p
  · subst hne
    by_cases hj : j = i
    · subst hj
      simp [h.processes, Pcb.cleared, Pcb.closed]
    · simp [h.processes, hj]
  · exact (h.links hne j).1

end links

/-! ## `switch_terminal` -/

/-- The state in which `switch_terminal` executes a shell on the target: its screen
has been cleared and the terminal marked as running. -/
def Kernel.startingOn (s : Kernel) (target : Fin 3) : Kernel :=
  { s with
    console := s.console.clear
    terminals := Function.update s.terminals target { s.terminals target with running := 1 } }

section switch

variable {source target : Fin 3} {s : Kernel}

theorem switchTerminal_same (h : source = target) :
    switchTerminal L fs cs source target s = (none, s) := by
  rw [switchTerminal, if_pos h]

/-- The target already runs a shell. -/
theorem switchTerminal_shows (h : source ≠ target)
    (hrun : ¬ (((showTerminal source target s).terminals target).running = 0 ∧ target ≠ 0)) :
    switchTerminal L fs cs source target s = (none, showTerminal source target s) := by
  rw [switchTerminal, if_neg h]
  exact if_neg hrun

/-- The target is shown for the first time. -/
theorem switchTerminal_starts (h : source ≠ target)
    (hrun : ((showTerminal source target s).terminals target).running = 0 ∧ target ≠ 0) :
    switchTerminal L fs cs source target s =
      (let r := executeFunction L fs cs (some shellCommand)
        ((showTerminal source target s).startingOn target)
       (some r.1, r.2)) := by
  rw [switchTerminal, if_neg h]
  dsimp only
  rw [if_pos hrun]
  rfl

/-- A switch in short: nothing happens, or the target is shown, or a shell is executed
on it as well. -/
theorem switchTerminal_cases {out : Option ExecOutcome} {s' : Kernel}
    (h : switchTerminal L fs cs source target s = (out, s')) :
    (out = none ∧ s' = s) ∨ (out = none ∧ s' = showTerminal source target s) ∨
      ∃ r, out = some r ∧ executeFunction L fs cs (some shellCommand)
        ((showTerminal source target s).startingOn target) = (r, s') := by
  by_cases hsame : source = target
  · rw [switchTerminal_same hsame] at h
    obtain ⟨rfl, rfl⟩ := Prod.mk.inj h
    exact Or.inl ⟨rfl, rfl⟩
  · by_cases hrun : ((showTerminal source target s).terminals target).running = 0 ∧ target ≠ 0
    · rw [switchTerminal_starts hsame hrun] at h
      obtain ⟨rfl, rfl⟩ := Prod.mk.inj h
      exact Or.inr (Or.inr ⟨_, rfl, rfl⟩)
    · rw [switchTerminal_shows hsame hrun] at h
      obtain ⟨rfl, rfl⟩ := Prod.mk.inj h
      exact Or.inr (Or.inl ⟨rfl, rfl⟩)

theorem showTerminal_latestPid (source target : Fin 3) (s : Kernel) (t : Fin 3) :
    ((showTerminal source target s).terminals t).latestPid = (s.terminals t).latestPid := by
  by_cases ht : t = source
  · subst ht
    simp [showTerminal]
  · simp [showTerminal, ht]

theorem showTerminal_running (source target : Fin 3) (s : Kernel) (t : Fin 3) :
    ((showTerminal source target s).terminals t).running = (s.terminals t).running := by
  by_cases ht : t = source
  · subst ht
    simp [showTerminal]
  · simp [showTerminal, ht]

theorem showTerminal_pid (source target : Fin 3) (s : Kernel) :
    (showTerminal source target s).pid = (s.terminals target).latestPid :=
  showTerminal_latestPid source target s target

theorem startingOn_latestPid (s : Kernel) (target t : Fin 3) :
    ((s.startingOn target).terminals t).latestPid = (s.terminals t).latestPid := by
  by_cases ht : t = target
  · subst ht
    simp [Kernel.startingOn]
  · simp [Kernel.startingOn, ht]

end switch

/-! ## The page tables -/

/-- A property of the page tables that all calls which write them keep. -/
structure PagesKept (L : Link) (P : PageTables → Prop) : Prop where
  map : ∀ t pid, P t → P (mapUserPage pid t)
  halt : ∀ t pid terminal, P t → P (haltPaging L pid terminal t)
  vidmap : ∀ t, P t → P (vidmapPaging t)

namespace PagesKept

variable {P : PageTables → Prop} {s s' : Kernel}

theorem executes (h : PagesKept L P) (hs : P s.pages) {command : List Byte} {out : ExecOutcome}
    (hexec : executeFunction L fs cs (some command) s = (out, s')) : P s'.pages := by
  rcases executeFunction_cases hexec with ⟨hr, -⟩ | ⟨i, hi, -⟩ | ⟨i, hi, -⟩
  · rw [hr.pages]
    exact hs
  · rw [hi.pages]
    exact hs
  · rw [hi.pages]
    exact h.map _ _ hs

theorem finishes (h : PagesKept L P) (hs : P s.pages) (status : Byte) :
    P (haltRest L status s).state.pages := by
  rcases hslot : slot? s.pid with _ | i
  · rw [haltRest_no_slot L status hslot]
    exact hs
  · rw [haltRest_pages (slot?_eq_some hslot)]
    exact h.halt _ _ _ hs

theorem halts (h : PagesKept L P) (hs : P s.pages) (fs : FileSystem) (cs : CallSite)
    (status : Byte) : P (haltFunction L fs cs status s).state.pages := by
  rw [haltFunction, Kernel.withSlot]
  rcases slot? s.pid with _ | i
  · exact hs
  · dsimp only
    split
    · rcases hexec : executeFunction L fs cs (some respawnCommand) s with ⟨r | ⟨eip, esp⟩, u⟩
      · exact h.finishes (h.executes hs hexec) status
      · exact h.executes hs hexec
    · exact h.finishes hs status

theorem vidmaps (h : PagesKept L P) (hs : P s.pages) (screenStart : Word) :
    P (vidmapFunction L screenStart s).2.pages := by
  rw [vidmapFunction]
  split
  · exact hs
  · split
    · exact hs
    · exact h.vidmap _ hs

theorem switches (h : PagesKept L P) (hs : P s.pages) (fs : FileSystem) (cs : CallSite)
    (source target : Fin 3) : P (switchTerminal L fs cs source target s).2.pages := by
  rcases hsw : switchTerminal L fs cs source target s with ⟨out, u⟩
  rcases switchTerminal_cases hsw with ⟨-, rfl⟩ | ⟨-, rfl⟩ | ⟨r, -, hexec⟩
  · exact hs
  · exact hs
  · exact executes (s := (showTerminal source target s).startingOn target) h hs hexec

end PagesKept

end Os391
