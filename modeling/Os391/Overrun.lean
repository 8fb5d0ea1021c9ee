import Os391.Steps

/-!
# Arguments that do not fit

`args` has 4096 bytes, and the copy of `execute_function` stops at the end of the
command line. `copyArgs_overrun` is what becomes of the slot behind when the
arguments are one byte repeated often enough to run through all its words.
-/

namespace Os391

open Bytes

/-- The word all of whose bytes are `b`. -/
def wordOf (b : Byte) : Word := ofBytes fun _ => b

/-- A slot whose first 280 bytes are all overwritten with `b`. -/
theorem Pcb.patched_of_const {p : Patch} {a : ℕ} {b : Byte}
    (h : ∀ k < argsOffset, p (a + k) = some b) (q : Pcb) :
    (q.patched p a).pid = wordOf b ∧ (q.patched p a).parentPid = wordOf b ∧
      (q.patched p a).active = wordOf b := by
  have hword : ∀ o, o ≤ 276 → ∀ old, p.word (a + o) old = wordOf b := by
    intro o ho old
    refine Patch.word_of_some (fun k hk => ?_) old
    rw [Nat.add_assoc]
    exact h _ (by rw [argsOffset]; omega)
  exact ⟨hword 256 (by omega) _, hword 260 (by omega) _, hword 272 (by omega) _⟩

/-- Enough bytes `b` copied into the arguments of slot `i` fill the words of the
next slot with `b`. -/
theorem copyArgs_overrun {ps : Fin 6 → Pcb} {i j : Fin 6} (hj : j.val = i.val + 1) {b : Byte} {n : ℕ}
    (hn : pcbSize ≤ n) :
    (copyArgs ps i (List.replicate n b) j).pid = wordOf b ∧
      (copyArgs ps i (List.replicate n b) j).parentPid = wordOf b ∧
      (copyArgs ps i (List.replicate n b) j).active = wordOf b := by
  refine Pcb.patched_of_const (fun k hk => ?_) _
  have hat : pcbSize * j.val + k =
      pcbSize * i.val + argsOffset + (pcbSize - argsOffset + k) := by
    rw [hj]
    unfold argsOffset pcbSize at *
    omega
  have hlt : pcbSize - argsOffset + k < n := by
    unfold argsOffset pcbSize at *
    omega
  rw [hat, stored_at, List.getElem?_replicate, if_pos hlt]

/-! ## A long command line -/

namespace Sample

/-- `shell` with one argument of `n` letters. -/
def longCommand (n : ℕ) : List Byte := respawnCommand ++ List.replicate n 0x78

theorem commandName_longCommand (n : ℕ) : commandName (longCommand n) = shellCommand := rfl

theorem strlen_replicate (n : ℕ) : strlen (List.replicate n 0x78) = n := by
  induction n with
  | zero => rfl
  | succ n ih => rw [List.replicate_succ, strlen, if_neg (by decide), ih]

theorem strncpyFrom_replicate (n m i : ℕ) (h : i + m ≤ n) :
    strncpyFrom (cstr (List.replicate n 0x78)) m i = List.replicate m 0x78 := by
  induction m generalizing i with
  | zero => rfl
  | succ m ih =>
    have hbyte : cstr (List.replicate n 0x78) i = 0x78 := by
      rw [cstr, List.getD_eq_getElem?_getD, List.getElem?_replicate, if_pos (by omega)]
      rfl
    rw [strncpyFrom, hbyte, if_neg (by decide), ih (i + 1) (by omega), List.replicate_succ]

/-- What the call copies for it. -/
theorem argBytes_longCommand {n : ℕ} (hn : 0 < n) (hlt : n < 2 ^ 31) :
    argBytes (longCommand n) = List.replicate n 0x78 := by
  obtain ⟨m, rfl⟩ : ∃ m, n = m + 1 := ⟨n - 1, by omega⟩
  have hargs : commandArgs (longCommand (m + 1)) = List.replicate (m + 1) 0x78 := rfl
  have hsize : wordSize (longCommand (m + 1)) = 5 := rfl
  have hspaces : spaceCount (longCommand (m + 1)) = 1 := rfl
  have hlen : strlen (longCommand (m + 1)) = m + 1 + 6 :=
    congrArg (fun k => k + 6) (strlen_replicate (m + 1))
  have hcount : argLength (longCommand (m + 1)) = m + 1 := by
    rw [argLength, hlen, hsize, hspaces]
    unfold sub32
    omega
  rw [argBytes, hargs, hcount]
  exact strncpyFrom_replicate (m + 1) (m + 1) 0 (by omega)

/-- A program started with such a command in slot `i` overwrites the next slot. -/
theorem started_longCommand {L : Link} {cs : CallSite} {i j : Fin 6} {s s' : Kernel}
    (h : Started L cs (longCommand pcbSize) i s s') (hj : j.val = i.val + 1) :
    (s'.processes j).pid = wordOf 0x78 ∧ (s'.processes j).parentPid = wordOf 0x78 ∧
      (s'.processes j).active = wordOf 0x78 := by
  have hne : j ≠ i := by
    rintro rfl
    omega
  rw [h.other j hne, argBytes_longCommand (by decide) (by decide)]
  exact copyArgs_overrun hj le_rfl

/-- It is started whenever there is a slot for it. -/
theorem execute_longCommand {s : Kernel} {i : Fin 6} (hfree : freeSlot s.processes = some i) :
    ∃ eip s', executeFunction link files site (some (longCommand pcbSize)) s =
      (.userMode eip userStack, s') ∧ Started link site (longCommand pcbSize) i s s' := by
  have hname : files.readDentryByName (commandName (longCommand pcbSize)) =
      some (files.entry 0) := by
    rw [commandName_longCommand]
    decide
  obtain ⟨eip, s', hstart⟩ :=
    executeFunction_starts link site hname hfree (by decide) (by decide)
  obtain ⟨k, hs⟩ := executeFunction_userMode hstart
  obtain rfl : i = k := Option.some.inj (hfree.symm.trans hs.free)
  exact ⟨eip, s', hstart, hs⟩

/-- A shell on each terminal, the one in slot 1 halted again: slot 2 runs on terminal 2
and slot 1 is free. -/
def gap : Kernel :=
  let s := (switchTerminal link files site 0 1 running).2
  let s := (switchTerminal link files site 1 2 s).2
  let s := (switchTerminal link files site 2 1 s).2
  let s := (haltFunction link files site 0 s).state
  (switchTerminal link files site 1 2 s).2

/-- A program started there with the long arguments can halt: its own slot is intact. -/
theorem halt_longCommand {s : Kernel} (hs : Started link site (longCommand pcbSize) 1 gap s) :
    ∃ s', haltFunction link files site 0 s = .ok (.resumes (s.processes 1).savedEsp
      (s.processes 1).savedEbp (BitVec.setWidth 32 (0 : Byte))) s' ∧ Halted link 1 2 s s' := by
  have hown : (s.processes 1).pid ≠ 0 := by
    rw [hs.own]
    decide
  have hparent : (s.processes 1).parentPid.toInt = ((2 : Fin 6).val : Int) := by
    rw [hs.own]
    decide
  exact haltFunction_ok link files site 0 hs.pid hown hparent

end Sample

end Os391
