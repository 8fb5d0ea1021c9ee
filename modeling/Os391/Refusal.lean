import Os391.Steps

/-!
# When `execute_function` starts nothing

A caller that gets a return value from `execute_function` goes on running, so
everything that is looked up through `pid` should be as it was. Three of the
returns keep it so. The return after the ELF check does not: by then `pid` names
the slot that was chosen and the arguments have been written into it.
`keepsCaller_iff` says exactly when a call that returns has left the caller's
state alone.
-/

namespace Os391

open Bytes Segment

/-- The state a caller relies on: who runs, the process table, the terminals, and
the mapping and stack of user mode. -/
structure SameForCaller (s s' : Kernel) : Prop where
  pid : s'.pid = s.pid
  processes : s'.processes = s.processes
  terminals : s'.terminals = s.terminals
  userPage : s'.pages.pageDir 32 = s.pages.pageDir 32
  esp0 : s'.tss.esp0 = s.tss.esp0

/-- If the call returns, it leaves the caller's state alone. -/
def KeepsCaller (L : Link) (fs : FileSystem) (cs : CallSite) (command : List Byte) (s : Kernel) :
    Prop :=
  ∀ r s', executeFunction L fs cs (some command) s = (.returned r, s') → SameForCaller s s'

/-- The bytes from the arguments of slot `i` on are `bs`, as far as the table goes. -/
def ArgsThere (ps : Fin 6 → Pcb) (i : Fin 6) (bs : List Byte) : Prop :=
  ∀ (k : ℕ) (hk : k < bs.length), pcbSize * i.val + argsOffset + k < pcbSize * 6 →
    processesByte ps (pcbSize * i.val + argsOffset + k) = bs[k]

/-- The condition on the command and the state before the call: the name is
unknown, or no slot is free, or the program passes the ELF check and starts, or
the call is refused by the ELF check but `pid` is the chosen slot already and
the argument bytes are there already. -/
def CallerSafe (fs : FileSystem) (cs : CallSite) (command : List Byte) (s : Kernel) : Prop :=
  match fs.readDentryByName (commandName command), freeSlot s.processes with
  | none, _ => True
  | some _, none => True
  | some e, some i =>
    let inode := e.inodeNum.toNat
    (isElf fs cs inode = true ∧ inode < fs.inodeCount) ∨
      (isElf fs cs inode = false ∧ s.pid = i.val ∧ ArgsThere s.processes i (argBytes command))

variable {L : Link} {fs : FileSystem} {cs : CallSite}

/-- The copy changes nothing exactly if the bytes are there already. -/
theorem copyArgs_eq_self_iff (ps : Fin 6 → Pcb) (i : Fin 6) (bs : List Byte) :
    copyArgs ps i bs = ps ↔ ArgsThere ps i bs := by
  constructor
  · intro hsame k hk hin
    have hbyte := processesByte_copyArgs ps i bs hin
    rw [hsame, Patch.byte_of_some (b := bs[k])] at hbyte
    · exact hbyte
    · rw [stored_at, List.getElem?_eq_getElem hk]
  · intro hthere
    funext j
    refine Pcb.ext_byteAt fun off hoff => ?_
    have hin : pcbSize * j.val + off < pcbSize * 6 := by
      have hj := j.isLt
      unfold pcbSize at *
      omega
    rw [← processesByte_slot _ j hoff, ← processesByte_slot _ j hoff,
      processesByte_copyArgs _ _ _ hin]
    generalize pcbSize * j.val + off = a at hin
    rcases hstored : stored (pcbSize * i.val + argsOffset) bs a with _ | b
    · exact Patch.byte_of_none hstored _
    · rw [Patch.byte_of_some hstored]
      rw [stored] at hstored
      split at hstored
      · next hle =>
        obtain ⟨k, rfl⟩ := Nat.exists_eq_add_of_le hle
        rw [Nat.add_sub_cancel_left] at hstored
        obtain ⟨hk, hget⟩ := List.getElem?_eq_some_iff.mp hstored
        rw [hthere k hk hin, hget]
      · cases hstored

theorem Refused.sameForCaller {s s' : Kernel} (h : Refused s s') : SameForCaller s s' :=
  ⟨h.pid, h.processes, h.terminals, by rw [h.pages], by rw [h.tss]⟩

/-- In a chosen slot: what `executeIn` returns and when. -/
theorem executeIn_keeps_iff {command : List Byte} {e : DirectoryEntry} {i : Fin 6} {s : Kernel}
    (hfree : (s.processes i).active = 0) :
    (∀ r s', executeIn L fs cs command e i s = (.returned r, s') → SameForCaller s s') ↔
      (isElf fs cs e.inodeNum.toNat = true ∧ e.inodeNum.toNat < fs.inodeCount) ∨
        (isElf fs cs e.inodeNum.toNat = false ∧ s.pid = i.val ∧
          ArgsThere s.processes i (argBytes command)) := by
  simp only [executeIn, readData_entry_ret, ← copyArgs_eq_self_iff]
  by_cases helf : isElf fs cs e.inodeNum.toNat = false
  · -- refused after the slot was taken: `pid` and the arguments are what was touched
    simp only [helf, if_true]
    constructor
    · intro h
      have hsame := h _ _ rfl
      exact Or.inr ⟨trivial, hsame.pid.symm, hsame.processes⟩
    · rintro (⟨hf, -⟩ | ⟨-, hpid, hcopy⟩)
      · cases hf
      · intro r s' h
        obtain ⟨-, rfl⟩ := Prod.mk.inj h
        exact ⟨hpid.symm, hcopy, rfl, rfl, rfl⟩
  · have htrue : isElf fs cs e.inodeNum.toNat = true := by simpa using helf
    by_cases hino : fs.inodeCount ≤ e.inodeNum.toNat
    · -- the entry point cannot be read: the slot has been made active all the same
      simp only [htrue, hino, if_true, Bool.true_eq_false, if_false]
      constructor
      · intro h
        have hsame := congrFun (h _ _ rfl).processes i
        have hact := congrArg Pcb.active hsame
        simp [startProcess, Pcb.started, hfree] at hact
      · rintro (⟨-, hlt⟩ | ⟨hf, -⟩)
        · exact absurd hlt (by omega)
        · cases hf
    · have hne : ¬ (4 : Int) = -1 := by decide
      simp only [htrue, hino, if_false, Bool.true_eq_false, hne]
      constructor
      · intro _
        exact Or.inl ⟨trivial, by omega⟩
      · rintro - r s' h
        cases h

/-- A call of `execute_function` leaves the caller's state alone whenever it
returns if and only if the command and the state satisfy `CallerSafe`. This is
about what is assigned: if the name that is found does not end within its entry
(`FileSystem.NameEnds`), `strcpy` overruns the local entry on the stack besides. -/
theorem keepsCaller_iff (L : Link) (fs : FileSystem) (cs : CallSite) (command : List Byte)
    (s : Kernel) : KeepsCaller L fs cs command s ↔ CallerSafe fs cs command s := by
  rw [KeepsCaller, CallerSafe]
  rcases hname : fs.readDentryByName (commandName command) with _ | e
  · simp only [executeFunction_unknown hname, iff_true]
    intro r s' h
    obtain ⟨-, rfl⟩ := Prod.mk.inj h
    exact (Refused.refl s).sameForCaller
  · rcases hfree : freeSlot s.processes with _ | i
    · simp only [executeFunction_full hname hfree, iff_true]
      intro r s' h
      obtain ⟨-, rfl⟩ := Prod.mk.inj h
      exact ⟨rfl, rfl, rfl, rfl, rfl⟩
    · simp only [executeFunction_found hname hfree]
      -- the command buffer is none of the caller's state
      let t := { s with commandBuffer := commandArgs command }
      refine Iff.trans ?_ (executeIn_keeps_iff (L := L) (s := t) (freeSlot_eq_some.mp hfree).1)
      constructor
      · intro h r s' hr
        have hsame := h r s' hr
        exact ⟨hsame.pid, hsame.processes, hsame.terminals, hsame.userPage, hsame.esp0⟩
      · intro h r s' hr
        have hsame := h r s' hr
        exact ⟨hsame.pid, hsame.processes, hsame.terminals, hsame.userPage, hsame.esp0⟩

/-- With the base shell running, the text file is refused by the ELF check, and
`pid` is 1 afterwards. -/
theorem notes_changes_caller :
    ¬ KeepsCaller Sample.link Sample.files Sample.site Sample.notes Sample.running := by
  intro h
  have hret : (executeFunction Sample.link Sample.files Sample.site (some Sample.notes)
      Sample.running).1 = .returned (-1) := by decide
  have hpid := (h (-1) _ (Prod.ext hret rfl)).pid
  revert hpid
  decide

end Os391
