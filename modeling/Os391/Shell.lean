import Os391.GrepOutput
import Os391.Keyboard

/-!
# The shell

`main` of `ece391shell.c` against any kernel. What is typed is cut at a newline at its end
and at the first NUL; from then on a session is `respond`: every command that is not empty
is executed as it was typed, until one is `exit`. The message about an exception is never
printed, as the status of a program is a byte.
-/

namespace Os391

open Bytes Segment Itoa Support

universe u

namespace Shell

/-! ## The source -/

/-- A system call of the shell. -/
inductive Request : Type where
  | write : List Byte → Request
  | read : Request
  | execute : List Byte → Request
  deriving DecidableEq

/-- `ece391_fdputs` of a constant string. -/
def fdputs (text : String) : Request := .write (text.toList.map char)

/-- The kernel as the shell sees it, with some state: what `ece391_read` on descriptor 0 returns
and stores, and what `ece391_execute` returns. -/
structure Machine (σ : Type u) : Type u where
  read : σ → (Int × Stores) × σ
  execute : List Byte → σ → Int × σ

/-- What a session leaves: its calls, and what `main` has returned if it has. -/
structure Session : Type where
  calls : List Request
  code : Option Int
  deriving DecidableEq

/-- After other calls. -/
def Session.after (calls : List Request) (x : Session) : Session := { x with calls := calls ++ x.calls }

/-- What is printed about the result of a command. -/
def report (rval : Int) : List Request :=
  if rval = -1 then [fdputs "no such command\n"]
  else if rval = 256 then [fdputs "program terminated by exception\n"]
  else if rval ≠ 0 then [fdputs "program terminated abnormally\n"]
  else []

/-- `"exit"`. -/
def exitText : List Byte := List.map char "exit".toList

variable {σ : Type u}

/-- The first `n` turns of the loop. `none` if `ece391_strcmp` has not ended after `fuel`
bytes. -/
def turns (M : Machine σ) (fuel : ℕ) : ℕ → (ℕ → Byte) → σ → Option Session
  | 0, _, _ => some ⟨[], none⟩
  | n + 1, buf, s =>
    let ((cnt, st), s) := M.read s
    if cnt = -1 then
      some ⟨[fdputs "391OS> ", .read, fdputs "read from keyboard failed\n"], some 3⟩
    else
      let buf := Grep.received buf 0 st
      let cnt := if 0 < cnt ∧ buf (cnt - 1).toNat = newlineChar then cnt - 1 else cnt
      let buf := Function.update buf cnt.toNat 0
      (ece391Strcmp fuel buf (cstr exitText)).bind fun order =>
        if order = 0 then some ⟨[fdputs "391OS> ", .read], some 0⟩
        else if buf 0 = 0 then (turns M fuel n buf s).map (.after [fdputs "391OS> ", .read])
        else
          let command := stringAt buf
          let (rval, s) := M.execute command s
          (turns M fuel n buf s).map
            (.after ([fdputs "391OS> ", .read, .execute command] ++ report rval))

/-- `main`, with at most `n` turns of its loop. `buf` is what is on the stack. -/
def main (M : Machine σ) (fuel n : ℕ) (buf : ℕ → Byte) (s : σ) : Option Session :=
  (turns M fuel n buf s).map (.after [fdputs "Starting 391 Shell\n"])

/-! ## What is typed -/

/-- Without the newline at the end. -/
def chomp (bs : List Byte) : List Byte :=
  if bs.getLast? = some newlineChar then bs.dropLast else bs

/-- The command. -/
def commandOf (bs : List Byte) : List Byte := (chomp bs).takeWhile fun b => decide (b ≠ 0)

/-- The session, for what is typed in each state; `none` if the read fails. -/
def respond (M : Machine σ) (typed : σ → Option (List Byte)) : ℕ → σ → Session
  | 0, _ => ⟨[], none⟩
  | n + 1, s =>
    match typed s with
    | none => ⟨[fdputs "391OS> ", .read, fdputs "read from keyboard failed\n"], some 3⟩
    | some bs =>
      if commandOf bs = exitText then ⟨[fdputs "391OS> ", .read], some 0⟩
      else if commandOf bs = [] then
        (respond M typed n (M.read s).2).after [fdputs "391OS> ", .read]
      else
        let (rval, s) := M.execute (commandOf bs) (M.read s).2
        (respond M typed n s).after ([fdputs "391OS> ", .read, .execute (commandOf bs)] ++ report rval)

/-- The kernel delivers what is typed, at most what is asked for. -/
def Delivers (M : Machine σ) (typed : σ → Option (List Byte)) : Prop :=
  ∀ s, match typed s with
    | none => (M.read s).1.1 = -1
    | some bs => bs.length ≤ 1023 ∧ (M.read s).1 = ((bs.length : Int), storesOf bs)

section line

variable {buf : ℕ → Byte} {bs : List Byte}

theorem holds_read (buf : ℕ → Byte) (bs : List Byte) :
    Holds (Grep.received buf 0 (storesOf bs)) 0 bs := by
  intro k hk
  rw [Grep.received, if_neg (Nat.not_lt_zero _), Nat.zero_add, Nat.sub_zero, lastStore_storesOf,
    List.getElem?_eq_getElem hk, Option.getD_some]

/-- The index that gets a NUL. -/
theorem cut_eq (h : Holds buf 0 bs) :
    (if 0 < (bs.length : Int) ∧ buf ((bs.length : Int) - 1).toNat = newlineChar then
      (bs.length : Int) - 1 else bs.length).toNat = (chomp bs).length := by
  rcases List.eq_nil_or_concat' bs with rfl | ⟨l, b, rfl⟩
  · rfl
  · have hlength : (l ++ [b]).length = l.length + 1 := List.length_append
    have hb : buf l.length = b := by
      have hlast := (holds_append_iff.mp h).2 0 (by simp)
      rw [Nat.zero_add] at hlast
      exact hlast
    have hindex : (((l ++ [b]).length : Int) - 1).toNat = l.length := by omega
    rw [hindex, hb, chomp, List.getLast?_concat, List.dropLast_concat]
    by_cases hnew : b = newlineChar
    · rw [if_pos ⟨by omega, hnew⟩, if_pos (congrArg some hnew), hindex]
    · rw [if_neg fun hand => hnew hand.2, if_neg fun heq => hnew (Option.some.inj heq)]
      omega

theorem chomp_isPrefix (bs : List Byte) : chomp bs <+: bs := by
  rw [chomp]
  split
  · exact List.dropLast_prefix bs
  · exact List.prefix_rfl

/-- The buffer after a read and the NUL: the command is the string in it. -/
theorem holdsText_command (buf : ℕ → Byte) (bs : List Byte) :
    HoldsText (Function.update (Grep.received buf 0 (storesOf bs)) (chomp bs).length 0)
      (commandOf bs) := by
  have hread := holds_read buf bs
  obtain ⟨rest, hrest⟩ := chomp_isPrefix bs
  have hchomp : Holds (Function.update (Grep.received buf 0 (storesOf bs)) (chomp bs).length 0) 0
      (chomp bs) := by
    have hall : Holds (Grep.received buf 0 (storesOf bs)) 0 (chomp bs ++ rest) := by rwa [hrest]
    refine (holds_append_iff.mp hall).1.congr fun k _ hk => Function.update_of_ne ?_ _ _
    rw [Nat.zero_add] at hk
    exact Nat.ne_of_lt hk
  have htext := Grep.holdsText_takeWhile hchomp (by rw [Nat.zero_add, Function.update_self])
  simp only [Nat.zero_add] at htext
  exact htext

theorem length_commandOf_le (bs : List Byte) : (commandOf bs).length ≤ bs.length :=
  Nat.le_trans (List.takeWhile_sublist _).length_le (chomp_isPrefix bs).length_le

theorem exitText_holds : HoldsText (cstr exitText) exitText := Grep.holdsText_cstr (by decide)

end line

/-! ## A session -/

section session

variable {M : Machine σ} {typed : σ → Option (List Byte)}

theorem turns_eq (h : Delivers M typed) {fuel : ℕ} (hfuel : 1023 < fuel) (n : ℕ) (buf : ℕ → Byte)
    (s : σ) : turns M fuel n buf s = some (respond M typed n s) := by
  induction n generalizing buf s with
  | zero => rfl
  | succ n ih =>
    have hread := h s
    rcases hM : M.read s with ⟨⟨cnt, st⟩, s'⟩
    rw [hM] at hread
    rw [turns, respond, hM]
    rcases htyped : typed s with _ | bs
    · rw [htyped] at hread
      exact if_pos hread
    · rw [htyped] at hread
      obtain ⟨hlength, heq⟩ := hread
      obtain ⟨rfl, rfl⟩ := Prod.mk.inj heq
      have htext := holdsText_command buf bs
      have hshort := length_commandOf_le bs
      have hstring : stringAt _ = commandOf bs := htext.stringAt (by omega)
      obtain ⟨order, horder, hiff, -⟩ :=
        @ece391Strcmp_orders _ _ _ _ htext exitText_holds fuel (by omega)
      dsimp only
      rw [if_neg (by omega), cut_eq (holds_read buf bs), horder, Option.bind_some, hstring]
      by_cases hexit : commandOf bs = exitText
      · rw [if_pos (hiff.mpr hexit), if_pos hexit]
      · rw [if_neg fun hzero => hexit (hiff.mp hzero), if_neg hexit, ih, ih, holdsText_head htext]
        by_cases hempty : commandOf bs = []
        · rw [if_pos hempty, hempty]
          rfl
        · have hfirst : (commandOf bs).headD 0 ≠ 0 := by
            obtain ⟨b, l, hcons⟩ := List.exists_cons_of_ne_nil hempty
            have hnonzero := htext.nonzero
            rw [hcons, List.mem_cons, not_or] at hnonzero
            rw [hcons]
            exact Ne.symm hnonzero.1
          rw [if_neg hempty, if_neg hfirst]
          rfl

/-- Whatever is typed: the commands are executed as they were typed, up to the first `exit`. -/
theorem main_eq (h : Delivers M typed) {fuel : ℕ} (hfuel : 1023 < fuel) (n : ℕ) (buf : ℕ → Byte)
    (s : σ) : main M fuel n buf s =
      some ((respond M typed n s).after [fdputs "Starting 391 Shell\n"]) := by
  rw [main, turns_eq h hfuel n buf s]
  rfl

/-- A command that can be executed. -/
def Executable (command : List Byte) : Prop := command ≠ [] ∧ command ≠ exitText ∧ 0 ∉ command

/-- The calls of a session, when commands return -1 or the status of a program. -/
inductive Expected : Request → Prop where
  | started : Expected (fdputs "Starting 391 Shell\n")
  | prompt : Expected (fdputs "391OS> ")
  | read : Expected .read
  | failed : Expected (fdputs "read from keyboard failed\n")
  | execute {command : List Byte} : Executable command → Expected (.execute command)
  | missing : Expected (fdputs "no such command\n")
  | abnormal : Expected (fdputs "program terminated abnormally\n")

theorem expected_report {rval : Int} (h : rval ≠ 256) : ∀ r ∈ report rval, Expected r := by
  intro r hr
  rw [report, if_neg h] at hr
  split at hr
  · rw [List.mem_singleton.mp hr]
    exact .missing
  · split at hr
    · rw [List.mem_singleton.mp hr]
      exact .abnormal
    · exact absurd hr List.not_mem_nil

theorem executable_commandOf {bs : List Byte} (hexit : commandOf bs ≠ exitText)
    (hempty : commandOf bs ≠ []) : Executable (commandOf bs) :=
  ⟨hempty, hexit, (holdsText_command (fun _ => 0) bs).nonzero⟩

theorem expected_respond (hstatus : ∀ command s, (M.execute command s).1 ≠ 256) (n : ℕ) (s : σ) :
    ∀ r ∈ (respond M typed n s).calls, Expected r := by
  induction n generalizing s with
  | zero => exact fun r hr => absurd hr List.not_mem_nil
  | succ n ih =>
    intro r hr
    rw [respond] at hr
    rcases htyped : typed s with _ | bs
    · rw [htyped] at hr
      simp only [List.mem_cons, List.not_mem_nil, or_false] at hr
      obtain rfl | rfl | rfl := hr
      · exact .prompt
      · exact .read
      · exact .failed
    · rw [htyped] at hr
      dsimp only at hr
      by_cases hexit : commandOf bs = exitText
      · rw [if_pos hexit] at hr
        simp only [List.mem_cons, List.not_mem_nil, or_false] at hr
        obtain rfl | rfl := hr
        · exact .prompt
        · exact .read
      · rw [if_neg hexit] at hr
        by_cases hempty : commandOf bs = []
        · rw [if_pos hempty] at hr
          simp only [Session.after, List.mem_append, List.mem_cons, List.not_mem_nil, or_false] at hr
          obtain (rfl | rfl) | hr := hr
          · exact .prompt
          · exact .read
          · exact ih _ r hr
        · rw [if_neg hempty] at hr
          simp only [Session.after, List.mem_append, List.mem_cons, List.not_mem_nil, or_false] at hr
          obtain ((rfl | rfl | rfl) | hr) | hr := hr
          · exact .prompt
          · exact .read
          · exact .execute (executable_commandOf hexit hempty)
          · exact expected_report (hstatus _ _) r hr
          · exact ih _ r hr

/-- The result of `ece391_execute` is -1 or a byte, so that the message about an exception is
never printed; and what is executed is neither empty nor `exit`. -/
theorem exceptions_not_reported (h : Delivers M typed)
    (hstatus : ∀ command s, (M.execute command s).1 = -1 ∨
      ∃ status : Byte, (M.execute command s).1 = status.toNat)
    {fuel : ℕ} (hfuel : 1023 < fuel) (n : ℕ) (buf : ℕ → Byte) (s : σ) :
    ∃ x, main M fuel n buf s = some x ∧ (∀ r ∈ x.calls, Expected r) ∧
      fdputs "program terminated by exception\n" ∉ x.calls := by
  have hvalue : ∀ command s, (M.execute command s).1 ≠ 256 := by
    intro command s heq
    rcases hstatus command s with hfail | ⟨status, hbyte⟩
    · omega
    · have hlt := status.isLt
      omega
  have hexpected : ∀ r ∈ ((respond M typed n s).after [fdputs "Starting 391 Shell\n"]).calls,
      Expected r := by
    intro r hr
    rcases List.mem_append.mp hr with hr | hr
    · rw [List.mem_singleton.mp hr]
      exact .started
    · exact expected_respond hvalue n s r hr
  have hmain := turns_eq h hfuel n buf s
  refine ⟨_, by rw [main, hmain]; rfl, hexpected, fun hmem => ?_⟩
  generalize htext : fdputs "program terminated by exception\n" = r at hmem
  cases hexpected r hmem with
  | execute _ => cases htext
  | _ => exact absurd htext (by decide)

end session

/-! ## The shell on `terminal_read` -/

/-- What `terminal_read` is going to copy. -/
def pendingLine (k : Kernel) : List Byte :=
  segment k.keyboard.bufferByte 0 (min (min k.keyboard.readInd 128) 1023).toNat

/-- The kernel with its keyboard, when a line is ready at every read. -/
def onKeyboard (execute : List Byte → Kernel → Int × Kernel) : Machine Kernel :=
  ⟨terminalReadRest 1023, execute⟩

theorem delivers_onKeyboard (execute : List Byte → Kernel → Int × Kernel) :
    Delivers (onKeyboard execute) fun k => some (pendingLine k) := by
  intro k
  have hlength : (pendingLine k).length = (min (min k.keyboard.readInd 128) 1023).toNat :=
    length_segment _ _ _
  refine ⟨by omega, Prod.ext ?_ ?_⟩
  · rw [hlength]
    rfl
  · change fill k.keyboard.bufferByte 0 0 _ = storesOf (pendingLine k)
    rw [storesOf, hlength]
    refine fill_congr fun j hj => ?_
    have hj' : j < (pendingLine k).length := hlength.symm ▸ hj
    rw [Nat.zero_add]
    exact ((List.getD_eq_getElem _ 0 hj').trans
      ((getElem_segment _ hj').trans (by rw [Nat.zero_add]))).symm

namespace Sample

/-- With this line typed, and ready. -/
def typing (text : String) (k : Kernel) : Kernel :=
  { k with
    keyboard := { k.keyboard with
      kbBufs := fun _ i => (text.toList.map char).getD i 0
      kbBuf := some k.curTerminal
      readInd := text.length } }

/-- While a program runs `exit` is typed. The program returns 255. -/
def keyboard : Machine Kernel := onKeyboard fun _ k => (255, typing "exit\n" k)

/-- `ls` has been typed. -/
def lsTyped : Kernel := typing "ls\n" Os391.Sample.running

end Sample

/-- `ls`, and `exit`. -/
theorem main_eq_sample : main Sample.keyboard 1024 7 (fun _ => 0) Sample.lsTyped =
    some ⟨[fdputs "Starting 391 Shell\n", fdputs "391OS> ", .read,
      .execute (List.map char "ls".toList), fdputs "program terminated abnormally\n",
      fdputs "391OS> ", .read], some 0⟩ :=
  (main_eq (delivers_onKeyboard _) (by decide) 7 (fun _ => 0) Sample.lsTyped).trans
    (congrArg some (by decide))

/-- The same session. -/
theorem exceptions_not_reported_sample : ∃ x,
    main Sample.keyboard 1024 7 (fun _ => 0) Sample.lsTyped = some x ∧
      (∀ r ∈ x.calls, Expected r) ∧
      fdputs "program terminated by exception\n" ∉ x.calls :=
  exceptions_not_reported (delivers_onKeyboard _) (fun _ _ => Or.inr ⟨255, rfl⟩) (by decide) 7 _ _

end Shell

end Os391
