import Mathlib.Data.List.TakeWhile
import Os391.Steps

/-!
# The arguments of a program

`execute_function` copies what follows the first word of a command into the slot
of the new program and stores no terminator: it relies on the slot's `args` being
zero, which is what `halt_function` leaves behind. A call that is refused in the
ELF check has copied its arguments already, and nothing takes them out again.

A `Ledger` is kept along a run: the longest arguments copied into each slot since
it was last torn down, and the arguments of the program that runs in it. The
bytes of `args` that are not zero are exactly as many as the former says, so
`getargs_function` delivers the latter exactly if no longer ones lie below.
-/

namespace Os391

open Bytes Segment

variable {L : Link} {fs : FileSystem} {cs : CallSite}

/-! ## The command line -/

/-- The byte that ends a word. -/
def isSpace (c : Byte) : Bool := decide (c = 0x20)

/-- The first word of a command. -/
def firstWord (command : List Byte) : List Byte := command.takeWhile fun c => !isSpace c

/-- What follows the first word of a command and the spaces after it. -/
def argPart (command : List Byte) : List Byte :=
  (command.dropWhile fun c => !isSpace c).dropWhile isSpace

/-- A command string of the length a user can type, with a first word that can be
counted in a byte. -/
structure Typed (command : List Byte) : Prop where
  nonzero : ∀ c ∈ command, c ≠ 0
  length : command.length < 1024
  word : (firstWord command).length < 256

theorem isSpace_iff {c : Byte} : isSpace c = true ↔ c = 0x20 := decide_eq_true_iff

/-- The first loop stops at the first space. -/
theorem scanWord_eq {command : List Byte} (h : ∀ c ∈ command, c ≠ 0) (size : Byte) :
    scanWord command size = (size + BitVec.ofNat 8 (firstWord command).length,
      command.dropWhile fun c => !isSpace c) := by
  induction command generalizing size with
  | nil => simp [scanWord, firstWord]
  | cons c rest ih =>
    have hc : c ≠ 0 := h c List.mem_cons_self
    rw [scanWord, firstWord]
    by_cases hspace : isSpace c = true
    · rw [if_neg fun hnot => hnot.1 (isSpace_iff.mp hspace)]
      simp [hspace]
    · have hword : (!isSpace c) = true := by simpa using hspace
      rw [if_pos ⟨fun heq => hspace (isSpace_iff.mpr heq), hc⟩,
        ih fun d hd => h d (List.mem_cons_of_mem c hd),
        List.takeWhile_cons_of_pos (p := fun c => !isSpace c) hword,
        List.dropWhile_cons_of_pos (p := fun c => !isSpace c) hword, List.length_cons, Nat.add_comm,
        BitVec.ofNat_add, ← BitVec.add_assoc]
      rfl

/-- The second loop stops at the first byte that is not a space. -/
theorem skipSpaces_eq (l : List Byte) (n : ℕ) :
    skipSpaces l n = (n + (l.takeWhile isSpace).length, l.dropWhile isSpace) := by
  induction l generalizing n with
  | nil => rfl
  | cons c rest ih =>
    rw [skipSpaces]
    by_cases hspace : isSpace c = true
    · rw [if_pos (isSpace_iff.mp hspace), ih, List.takeWhile_cons_of_pos hspace,
        List.dropWhile_cons_of_pos hspace, List.length_cons, Nat.add_assoc, Nat.add_comm 1]
    · rw [if_neg fun heq => hspace (isSpace_iff.mpr heq), List.takeWhile_cons_of_neg hspace,
        List.dropWhile_cons_of_neg hspace]
      rfl

/-! ### The word and the lengths the code computes -/

/-- `w` is the first word of a command: its longest prefix without a space. -/
structure IsFirstWord (command w : List Byte) : Prop where
  isPrefix : w <+: command
  noSpace : ∀ c ∈ w, c ≠ 0x20
  longest : ∀ v, v <+: command → (∀ c ∈ v, c ≠ 0x20) → v.length ≤ w.length

theorem not_isSpace_iff {c : Byte} : (!isSpace c) = true ↔ c ≠ 0x20 := by
  rw [Bool.not_eq_true', ← Bool.not_eq_true, isSpace_iff]

theorem isFirstWord_firstWord (command : List Byte) :
    IsFirstWord command (firstWord command) where
  isPrefix := List.takeWhile_prefix _
  noSpace _ hc := not_isSpace_iff.mp (List.mem_takeWhile_imp (p := fun c => !isSpace c) hc)
  longest := by
    rintro v ⟨rest, rfl⟩ hword
    rw [firstWord, List.takeWhile_append_of_pos fun c hc => not_isSpace_iff.mpr (hword c hc),
      List.length_append]
    exact Nat.le_add_right _ _

/-- There is one first word. -/
theorem isFirstWord_iff {command w : List Byte} :
    IsFirstWord command w ↔ w = firstWord command := by
  constructor
  · intro h
    have hfirst := isFirstWord_firstWord command
    have hle := h.longest _ hfirst.isPrefix hfirst.noSpace
    have hge := hfirst.longest _ h.isPrefix h.noSpace
    exact (List.prefix_of_prefix_length_le h.isPrefix hfirst.isPrefix hge).eq_of_length_le hle
  · rintro rfl
    exact isFirstWord_firstWord command

/-- The word, the spaces behind it and the arguments make up the command. -/
theorem length_firstWord_add (command : List Byte) :
    (firstWord command).length +
      (((command.dropWhile fun c => !isSpace c).takeWhile isSpace).length +
        (argPart command).length) = command.length := by
  have hrest : ((command.dropWhile fun c => !isSpace c).takeWhile isSpace).length +
      (argPart command).length = (command.dropWhile fun c => !isSpace c).length := by
    rw [argPart, ← List.length_append, List.takeWhile_append_dropWhile]
  rw [hrest, firstWord, ← List.length_append, List.takeWhile_append_dropWhile]

section Scan

variable {command : List Byte} (hnonzero : ∀ c ∈ command, c ≠ 0)
include hnonzero

/-- The counter of the first loop is a byte. -/
theorem wordSize_eq : wordSize command = (firstWord command).length % 2 ^ 8 := by
  rw [wordSize, scanWord_eq hnonzero]
  simp

theorem wordSize_le : wordSize command ≤ (firstWord command).length := by
  rw [wordSize_eq hnonzero]
  exact Nat.mod_le _ _

theorem commandArgs_eq_argPart : commandArgs command = argPart command := by
  rw [commandArgs, scanWord_eq hnonzero, skipSpaces_eq]
  rfl

theorem spaceCount_eq :
    spaceCount command = ((command.dropWhile fun c => !isSpace c).takeWhile isSpace).length := by
  rw [spaceCount, scanWord_eq hnonzero, skipSpaces_eq]
  exact Nat.zero_add _

/-- The name is cut to the counted size. -/
theorem commandName_eq_take :
    commandName command = (firstWord command).take (wordSize command) := by
  have hprefix : (firstWord command).take (wordSize command) <+: command :=
    (List.take_prefix _ _).trans (isFirstWord_firstWord command).isPrefix
  have hlen : ((firstWord command).take (wordSize command)).length = wordSize command :=
    List.length_take_of_le (wordSize_le hnonzero)
  have hcut := List.prefix_iff_eq_take.mp hprefix
  rw [hlen] at hcut
  exact hcut.symm

/-- What the counter has lost is added to the length of the arguments. -/
theorem argLength_add (hlength : command.length < 2 ^ 32) :
    argLength command =
      (argPart command).length + ((firstWord command).length - wordSize command) := by
  have hsum := length_firstWord_add command
  have hle := wordSize_le hnonzero
  rw [argLength, strlen_eq hnonzero, spaceCount_eq hnonzero, sub32, sub32]
  omega

/-- The name that is looked up is the first word of the command, and the length given to
`strncpy` that of the arguments, exactly if the word has at most 255 bytes. A string
in a 32-bit address space is shorter than 2^32 bytes. -/
theorem word_scan_iff (hlength : command.length < 2 ^ 32) :
    IsFirstWord command (commandName command) ∧
        argLength command = (argPart command).length ↔
      (firstWord command).length ≤ 255 := by
  rw [isFirstWord_iff, commandName_eq_take hnonzero, List.take_eq_self_iff,
    argLength_add hnonzero hlength, wordSize_eq hnonzero]
  omega

end Scan

/-- `"ls"`, a space and one argument byte. -/
theorem word_scan_iff_sample :
    let command : List Byte := [0x6C, 0x73, 0x20, 0x61]
    IsFirstWord command (commandName command) ∧ argLength command = (argPart command).length :=
  (word_scan_iff (by decide) (by decide)).mpr (by decide)

/-- `"shell"` and 256 more bytes without a space. -/
def Sample.longWord : List Byte := shellCommand ++ List.replicate 256 0x78

/-- The counter wraps around: the name looked up is `"shell"`, and the other 256 bytes of
the word count as arguments, of which there are none. -/
theorem long_word_cut : (∀ c ∈ Sample.longWord, c ≠ 0) ∧
    commandName Sample.longWord = shellCommand ∧
    ¬ IsFirstWord Sample.longWord (commandName Sample.longWord) ∧
    argPart Sample.longWord = [] ∧ argLength Sample.longWord = 256 := by
  have hshell : shellCommand.length = 5 ∧ ∀ c ∈ shellCommand, c ≠ 0 ∧ c ≠ 0x20 := by decide
  have hbytes : ∀ c ∈ Sample.longWord, c ≠ 0 ∧ c ≠ 0x20 := by
    intro c hc
    rcases List.mem_append.mp hc with hfirst | hrest
    · exact hshell.2 c hfirst
    · rw [(List.mem_replicate.mp hrest).2]
      decide
  have hnonzero : ∀ c ∈ Sample.longWord, c ≠ 0 := fun c hc => (hbytes c hc).1
  have hword : firstWord Sample.longWord = Sample.longWord :=
    List.takeWhile_eq_self_iff.mpr fun c hc => not_isSpace_iff.mpr (hbytes c hc).2
  have hlen : Sample.longWord.length = 261 := by
    rw [Sample.longWord, List.length_append, List.length_replicate, hshell.1]
  have hsize : wordSize Sample.longWord = 5 := by
    rw [wordSize_eq hnonzero, hword, hlen]
    rfl
  have hname : commandName Sample.longWord = shellCommand := by
    rw [commandName_eq_take hnonzero, hword, hsize, ← hshell.1]
    exact List.take_left
  have hnone : argPart Sample.longWord = [] := by
    have hsum := length_firstWord_add Sample.longWord
    rw [hword] at hsum
    exact List.eq_nil_of_length_eq_zero (by omega)
  refine ⟨hnonzero, hname, fun h => ?_, hnone, ?_⟩
  · have hlonger := h.longest _ (List.prefix_refl _) fun c hc => (hbytes c hc).2
    rw [hname, hlen] at hlonger
    exact absurd hlonger (by decide)
  · rw [argLength_add hnonzero (by omega), hnone, hword, hlen, hsize]
    rfl

/-- The command with which `halt_function` replaces the base shell. -/
theorem typed_respawn : Typed respawnCommand :=
  ⟨by decide, by decide, by decide⟩

theorem typed_shell : Typed shellCommand :=
  ⟨by decide, by decide, by decide⟩

namespace Typed

variable {command : List Byte}

theorem argPart_sublist (command : List Byte) : (argPart command).Sublist command :=
  (List.dropWhile_sublist _).trans (List.dropWhile_sublist _)

theorem argPart_nonzero (h : Typed command) : ∀ c ∈ argPart command, c ≠ 0 := fun c hc =>
  h.nonzero c ((argPart_sublist command).subset hc)

theorem commandArgs_eq (h : Typed command) : commandArgs command = argPart command :=
  commandArgs_eq_argPart h.nonzero

/-- The three lengths add up. -/
theorem argLength_eq (h : Typed command) : argLength command = (argPart command).length := by
  have hsize : wordSize command = (firstWord command).length :=
    (wordSize_eq h.nonzero).trans (Nat.mod_eq_of_lt h.word)
  rw [argLength_add h.nonzero (h.length.trans (by decide)), hsize, Nat.sub_self, Nat.add_zero]

/-- What is copied into `args`. -/
theorem argBytes_eq (h : Typed command) : argBytes command = argPart command := by
  have hcopy := strncpy_cstr h.argPart_nonzero 0
  rw [argBytes, h.commandArgs_eq, h.argLength_eq]
  simpa using hcopy

theorem argLength_le (h : Typed command) : argLength command ≤ 4096 := by
  have hlen := h.length
  have hsub := (argPart_sublist command).length_le
  rw [h.argLength_eq]
  omega

theorem argsFit (h : Typed command) : ArgsFit command := h.argLength_le.trans (by decide)

end Typed

/-! ## What `getargs_function` copies -/

/-- The bytes `getargs_function` copies for the process in slot `i`. -/
def getargsBytes (s : Kernel) (i : Fin 6) (n : ℕ) : List Byte :=
  strncpy (fun k => processesByte s.processes (pcbSize * i.val + argsOffset + k)) n

theorem getargsFunction_eq {s : Kernel} {i : Fin 6} (h : s.pid = i.val) (L : Link) (buf : Word)
    (nbytes : Int) : getargsFunction L buf nbytes s =
      .ok 0 (s.storeBytes L buf (storesOf (getargsBytes s i (BitVec.ofInt 32 nbytes).toNat))) := by
  rw [getargsFunction, Kernel.withSlot_of_eq h]
  rfl

/-- The argument bytes of a slot, as they lie in memory. -/
theorem processesByte_args (ps : Fin 6 → Pcb) (i : Fin 6) (k : Fin 4096) :
    processesByte ps (pcbSize * i.val + argsOffset + k.val) = (ps i).args k := by
  have hk := k.isLt
  rw [Nat.add_assoc, processesByte_slot ps i (by rw [argsOffset, pcbSize]; omega)]
  exact Pcb.byteAt_args (ps i) k

/-- Copying a string and the byte behind it, which is not zero. -/
theorem strncpyFrom_snoc {src : ℕ → Byte} {l : List Byte} (h : ∀ c ∈ l, c ≠ 0)
    (hsrc : ∀ k (hk : k < l.length), src (0 + k) = l[k]) (hnext : src l.length ≠ 0) :
    strncpyFrom src (l.length + 1) 0 = l ++ [src l.length] := by
  have hall : ∀ c ∈ l ++ [src l.length], c ≠ 0 := by
    intro c hc
    rcases List.mem_append.mp hc with hmem | hlast
    · exact h c hmem
    · rw [List.mem_singleton.mp hlast]
      exact hnext
  have hbytes : ∀ k (hk : k < (l ++ [src l.length]).length),
      src (0 + k) = (l ++ [src l.length])[k] := by
    intro k hk
    rw [List.getElem_append]
    split
    · exact hsrc k (by assumption)
    · have hk' : k = l.length := by
        rw [List.length_append, List.length_singleton] at hk
        omega
      simp [hk']
  have hcopy := strncpyFrom_eq hall 0 hbytes 0 (Or.inl rfl)
  simpa using hcopy

/-- Arguments at the start of `args` are delivered exactly if a zero follows them. -/
theorem getargsBytes_eq_iff {s : Kernel} {i : Fin 6} {bs : List Byte} (hnonzero : ∀ c ∈ bs, c ≠ 0)
    (hlen : bs.length < 4096)
    (hargs : ∀ k : Fin 4096, ∀ c, bs[k.val]? = some c → (s.processes i).args k = c) :
    (∀ n, bs.length < n → getargsBytes s i n = bs ++ List.replicate (n - bs.length) 0) ↔
      (s.processes i).args ⟨bs.length, hlen⟩ = 0 := by
  set src := fun k => processesByte s.processes (pcbSize * i.val + argsOffset + k) with hsrc
  have hprefix : ∀ k (hk : k < bs.length), src (0 + k) = bs[k] := by
    intro k hk
    have hthis := processesByte_args s.processes i ⟨k, hk.trans hlen⟩
    rw [hargs ⟨k, hk.trans hlen⟩ bs[k] (List.getElem?_eq_getElem hk)] at hthis
    rw [Nat.zero_add]
    exact hthis
  have hend : src bs.length = (s.processes i).args ⟨bs.length, hlen⟩ :=
    processesByte_args s.processes i ⟨bs.length, hlen⟩
  constructor
  · -- one byte more than the arguments is enough to see it
    intro h
    have hone := h (bs.length + 1) (Nat.lt_succ_self _)
    by_contra hne
    rw [← hend] at hne
    have hlonger := strncpyFrom_snoc hnonzero hprefix hne
    rw [getargsBytes, strncpy, ← hsrc, hlonger, Nat.add_sub_cancel_left] at hone
    exact hne (List.singleton_inj.mp (List.append_cancel_left hone))
  · intro hzero n hn
    have hstop : src (0 + bs.length) = 0 := by
      rw [Nat.zero_add]
      exact hend.trans hzero
    have hcopy := strncpyFrom_eq hnonzero 0 hprefix (n - bs.length) (Or.inr hstop)
    rw [Nat.add_sub_cancel' hn.le] at hcopy
    exact hcopy

/-! ## What has been copied so far -/

/-- What a run has done to the argument buffers. -/
structure Ledger : Type where
  /-- the length of the longest arguments copied into a slot since it was torn down -/
  left : Fin 6 → ℕ
  /-- the arguments of the program that runs in a slot -/
  given : Fin 6 → Option (List Byte)

namespace Ledger

/-- Nothing has been copied. -/
def empty : Ledger := ⟨fun _ => 0, fun _ => none⟩

/-- After a call of `execute_function`: if the name is known and a slot free, the
arguments have been copied, and if user mode was entered, they are the new program's. -/
def executed (fs : FileSystem) (command : List Byte) (s : Kernel) (out : ExecOutcome)
    (l : Ledger) : Ledger :=
  match fs.readDentryByName (commandName command), freeSlot s.processes with
  | some _, some i =>
    { left := Function.update l.left i (max (l.left i) (argPart command).length)
      given :=
        match out with
        | .userMode _ _ => Function.update l.given i (some (argPart command))
        | .returned _ => l.given }
  | _, _ => l

/-- After the rest of `halt_function` from line 30 on. -/
def tornDown (s : Kernel) (l : Ledger) : Ledger :=
  match slot? s.pid with
  | some i => ⟨Function.update l.left i 0, Function.update l.given i none⟩
  | none => l

/-- After `halt_function`, which executes a shell first if slot 0 halts. -/
def halted (L : Link) (fs : FileSystem) (cs : CallSite) (s : Kernel) (l : Ledger) : Ledger :=
  match slot? s.pid with
  | none => l
  | some i =>
    if (s.processes i).pid = 0 then
      let r := executeFunction L fs cs (some respawnCommand) s
      let l := l.executed fs respawnCommand s r.1
      match r.1 with
      | .userMode _ _ => l
      | .returned _ => l.tornDown r.2
    else l.tornDown s

end Ledger

/-- The runs of `execute_function` and `halt_function` from boot on, with any outcome,
and what each has done. The rest of a `halt_function` that was suspended by a new
shell may run at any time. -/
inductive ArgRun (L : Link) (fs : FileSystem) : Kernel → Ledger → Prop where
  | boot (mem : Word → Byte) (t : PageTables) : ArgRun L fs (bootKernel L mem t) .empty
  | executes {s : Kernel} {l : Ledger} (cs : CallSite) {command : List Byte} :
      ArgRun L fs s l → Typed command →
      ArgRun L fs (executeFunction L fs cs (some command) s).2
        (l.executed fs command s (executeFunction L fs cs (some command) s).1)
  | halts {s : Kernel} {l : Ledger} (cs : CallSite) (status : Byte) : ArgRun L fs s l →
      ArgRun L fs (haltFunction L fs cs status s).state (l.halted L fs cs s)
  | finishes {s : Kernel} {l : Ledger} (status : Byte) : ArgRun L fs s l →
      ArgRun L fs (haltRest L status s).state (l.tornDown s)

/-- `args` holds what the ledger says. -/
structure Keeps (s : Kernel) (l : Ledger) : Prop where
  left : ∀ (i : Fin 6) (k : Fin 4096), (s.processes i).args k ≠ 0 ↔ k.val < l.left i
  active : ∀ i bs, l.given i = some bs → (s.processes i).active ≠ 0
  given : ∀ i bs, l.given i = some bs → ∀ (k : Fin 4096) (c : Byte), bs[k.val]? = some c →
    (s.processes i).args k = c
  typed : ∀ i bs, l.given i = some bs → (∀ c ∈ bs, c ≠ 0) ∧ bs.length < 1024

namespace Keeps

variable {s s' : Kernel} {l : Ledger} {command : List Byte} {i : Fin 6}

theorem boot (L : Link) (mem : Word → Byte) (t : PageTables) :
    Keeps (bootKernel L mem t) .empty := by
  refine ⟨fun _ _ => ⟨fun h => absurd rfl h, fun h => absurd h (Nat.not_lt_zero _)⟩, ?_, ?_, ?_⟩ <;>
    exact fun _ _ h => nomatch h

/-- The arguments of a command are copied into the free slot `i`, and the slot is
perhaps given to the new program. -/
theorem copied (h : Keeps s l) (hc : Typed command) (hfree : freeSlot s.processes = some i)
    (hargs : ∀ j, (s'.processes j).args =
      if j = i then ((s.processes i).withArgs (argPart command)).args else (s.processes j).args)
    (hactive : ∀ j, (s.processes j).active ≠ 0 → (s'.processes j).active ≠ 0)
    {given : Fin 6 → Option (List Byte)}
    (hgiven : given = l.given ∨
      given = Function.update l.given i (some (argPart command)) ∧ (s'.processes i).active ≠ 0) :
    Keeps s' ⟨Function.update l.left i (max (l.left i) (argPart command).length), given⟩ := by
  have hinactive : (s.processes i).active = 0 := (freeSlot_eq_some.mp hfree).1
  -- the entries that were there are about other slots
  have hold : ∀ j bs, l.given j = some bs → j ≠ i := by
    rintro j bs hj rfl
    exact h.active j bs hj hinactive
  have hcases : ∀ j bs, given j = some bs →
      l.given j = some bs ∨ j = i ∧ bs = argPart command ∧ (s'.processes i).active ≠ 0 := by
    intro j bs hj
    rcases hgiven with rfl | ⟨rfl, hact⟩
    · exact Or.inl hj
    · rcases update_eq_some hj with ⟨rfl, hnew⟩ | ⟨-, hthen⟩
      · exact Or.inr ⟨rfl, (Option.some.inj hnew).symm, hact⟩
      · exact Or.inl hthen
  refine ⟨fun j k => ?_, fun j bs hj => ?_, fun j bs hj k c hkc => ?_, fun j bs hj => ?_⟩
  · rw [hargs]
    dsimp only
    by_cases hji : j = i
    · subst hji
      rw [if_pos rfl, Function.update_self, lt_max_iff, ← h.left j k]
      exact Pcb.withArgs_ne_zero_iff _ hc.argPart_nonzero k
    · rw [if_neg hji, Function.update_of_ne hji]
      exact h.left j k
  · rcases hcases j bs hj with hthen | ⟨rfl, -, hact⟩
    · exact hactive j (h.active j bs hthen)
    · exact hact
  · rw [hargs]
    rcases hcases j bs hj with hthen | ⟨rfl, rfl, -⟩
    · rw [if_neg (hold j bs hthen)]
      exact h.given j bs hthen k c hkc
    · rw [if_pos rfl, Pcb.withArgs_args, hkc, Option.getD_some]
  · rcases hcases j bs hj with hthen | ⟨-, rfl, -⟩
    · exact h.typed j bs hthen
    · exact ⟨hc.argPart_nonzero, lt_of_le_of_lt (Typed.argPart_sublist command).length_le hc.length⟩

/-- Every outcome of `execute_function`. -/
theorem executed (h : Keeps s l) (hc : Typed command) {out : ExecOutcome}
    (hexec : executeFunction L fs cs (some command) s = (out, s')) :
    Keeps s' (l.executed fs command s out) := by
  rcases hname : fs.readDentryByName (commandName command) with _ | e
  · rw [executeFunction_unknown hname] at hexec
    obtain ⟨-, rfl⟩ := Prod.mk.inj hexec
    simpa only [Ledger.executed, hname] using h
  · rcases hfree : freeSlot s.processes with _ | i
    · have hps := (executeFunction_no_slot hfree hexec).1.processes
      simp only [Ledger.executed, hname, hfree]
      refine ⟨?_, ?_, ?_, h.typed⟩ <;> rw [hps]
      · exact h.left
      · exact h.active
      · exact h.given
    · simp only [Ledger.executed, hname, hfree]
      rcases executeFunction_found_cases hname hfree hexec with ⟨hs, rfl⟩ | ⟨hs, hout⟩
      · have hps := hs.processes_of_le hc.argLength_le
        rw [hc.argBytes_eq] at hps
        refine h.copied hc hfree (fun j => ?_) (fun j hj => ?_) (Or.inl rfl)
        · rw [hps]
          by_cases hji : j = i
          · subst hji
            rw [Function.update_self, if_pos rfl]
          · rw [Function.update_of_ne hji, if_neg hji]
        · rw [(hs.words_of_fits hc.argsFit j).2]
          exact hj
      · have hactive := hs.active_iff hc.argsFit
        refine h.copied hc hfree (fun j => ?_) (fun j hj => (hactive j).mpr (Or.inr hj)) ?_
        · by_cases hji : j = i
          · subst hji
            have hle := (length_argBytes command).trans_le hc.argLength_le
            rw [if_pos rfl, hs.own, copyArgs_of_fits hle, Function.update_self, hc.argBytes_eq]
            rfl
          · rw [if_neg hji, hs.other_of_fits hc.argsFit hji]
        · rcases hout with rfl | ⟨eip, rfl⟩
          · exact Or.inl rfl
          · exact Or.inr ⟨rfl, (hactive i).mpr (Or.inl rfl)⟩

/-- The rest of `halt_function` empties the buffer of the slot it tears down. -/
theorem tornDown (h : Keeps s l) (L : Link) (status : Byte) :
    Keeps (haltRest L status s).state (l.tornDown s) := by
  rcases hslot : slot? s.pid with _ | i
  · rw [haltRest_no_slot L status hslot]
    simpa only [Ledger.tornDown, hslot] using h
  · have hps := haltRest_args L status (slot?_eq_some hslot)
    have hgiven : ∀ j bs, Function.update l.given i none j = some bs →
        j ≠ i ∧ l.given j = some bs := by
      intro j bs hj
      rcases update_eq_some hj with ⟨-, hnone⟩ | hthen
      · cases hnone
      · exact hthen
    simp only [Ledger.tornDown, hslot]
    refine ⟨fun j k => ?_, fun j bs hj => ?_, fun j bs hj k c hkc => ?_, fun j bs hj => ?_⟩
    · rw [(hps j).1]
      dsimp only
      by_cases hji : j = i
      · subst hji
        rw [if_pos rfl, Function.update_self]
        exact ⟨fun hne => absurd rfl hne, fun hlt => absurd hlt (Nat.not_lt_zero _)⟩
      · rw [if_neg hji, Function.update_of_ne hji]
        exact h.left j k
    · obtain ⟨hji, hthen⟩ := hgiven j bs hj
      exact (hps j).2 hji (h.active j bs hthen)
    · obtain ⟨hji, hthen⟩ := hgiven j bs hj
      rw [(hps j).1, if_neg hji]
      exact h.given j bs hthen k c hkc
    · exact h.typed j bs (hgiven j bs hj).2

/-- `halt_function`, with the shell it executes if slot 0 halts. -/
theorem halted (h : Keeps s l) (L : Link) (fs : FileSystem) (cs : CallSite) (status : Byte) :
    Keeps (haltFunction L fs cs status s).state (l.halted L fs cs s) := by
  rw [haltFunction, Ledger.halted, Kernel.withSlot]
  rcases slot? s.pid with _ | i
  · exact h
  · dsimp only
    by_cases hown : (s.processes i).pid = 0
    · rw [if_pos hown, if_pos hown]
      rcases hexec : executeFunction L fs cs (some respawnCommand) s with ⟨r | ⟨eip, esp⟩, u⟩
      · exact (h.executed typed_respawn hexec).tornDown L status
      · exact h.executed typed_respawn hexec
    · rw [if_neg hown, if_neg hown]
      exact h.tornDown L status

end Keeps

/-- Along every run the buffers hold what the ledger says. -/
theorem ArgRun.keeps {s : Kernel} {l : Ledger} (hrun : ArgRun L fs s l) : Keeps s l := by
  induction hrun with
  | boot mem t => exact .boot L mem t
  | executes cs _ hc ih => exact ih.executed hc rfl
  | halts cs status _ ih => exact ih.halted L fs cs status
  | finishes status _ ih => exact ih.tornDown L status

/-- After a successful call the new program is current, and the ledger has its arguments. -/
theorem Ledger.executed_given {s s' : Kernel} {command : List Byte} {eip esp : Word} (l : Ledger)
    (hstart : executeFunction L fs cs (some command) s = (.userMode eip esp, s')) :
    ∃ i : Fin 6, s'.pid = i.val ∧
      (l.executed fs command s (.userMode eip esp)).given i = some (argPart command) ∧
      (l.executed fs command s (.userMode eip esp)).left i =
        max (l.left i) (argPart command).length := by
  rcases hname : fs.readDentryByName (commandName command) with _ | e
  · rw [executeFunction_unknown hname] at hstart
    cases hstart
  · obtain ⟨i, hs⟩ := executeFunction_userMode hstart
    refine ⟨i, hs.pid, ?_, ?_⟩ <;> simp [Ledger.executed, hname, hs.free]

/-- In every state of every run: the process in slot `i`, started with the arguments
`bs`, gets exactly these from `getargs_function`, terminated and padded with zeros, if
and only if no longer arguments have been copied into the slot since it was last torn
down. -/
theorem getargs_run_iff {s : Kernel} {l : Ledger} (hrun : ArgRun L fs s l) {i : Fin 6}
    (hpid : s.pid = i.val) {bs : List Byte} (hgiven : l.given i = some bs) :
    (∀ buf nbytes, getargsFunction L buf nbytes s = .ok 0
        (s.storeBytes L buf (storesOf (getargsBytes s i (BitVec.ofInt 32 nbytes).toNat)))) ∧
      ((∀ n, bs.length < n → getargsBytes s i n = bs ++ List.replicate (n - bs.length) 0) ↔
        l.left i ≤ bs.length) := by
  have h := hrun.keeps
  obtain ⟨hnonzero, hlen⟩ := h.typed i bs hgiven
  have hlen' : bs.length < 4096 := hlen.trans (by decide)
  refine ⟨getargsFunction_eq hpid L, ?_⟩
  rw [getargsBytes_eq_iff hnonzero hlen' (h.given i bs hgiven), ← not_lt,
    ← h.left i ⟨bs.length, hlen'⟩, not_not]

/-- `"shell ab"`. -/
def Sample.shellAb : List Byte := shellCommand ++ [0x20, 0x61, 0x62]

/-- `"notes abcdef"`: the text file is no executable. -/
def Sample.notesLong : List Byte := Sample.notes ++ [0x20, 0x61, 0x62, 0x63, 0x64, 0x65, 0x66]

theorem Sample.typed_shellAb : Typed Sample.shellAb :=
  ⟨by decide, by decide, by decide⟩

/-- The base shell starts another shell with the arguments `ab`. -/
theorem getargs_run_sample :
    let s := (executeFunction Sample.link Sample.files Sample.site (some Sample.shellAb)
      Sample.running).2
    ∀ n, 2 < n → getargsBytes s 1 n = [0x61, 0x62] ++ List.replicate (n - 2) 0 := by
  have hboot : ArgRun Sample.link Sample.files Sample.atBoot .empty := ArgRun.boot _ _
  have hrun := (hboot.executes Sample.site typed_shell).executes Sample.site Sample.typed_shellAb
  exact (@getargs_run_iff _ _ _ _ hrun 1 (by decide) [0x61, 0x62] (by decide)).2.mpr (by decide)

/-- The arguments of a call that was refused in the ELF check show up behind those of
the next program. -/
theorem refused_arguments_left_over : ∃ s l, ArgRun Sample.link Sample.files s l ∧ s.pid = 1 ∧
    l.given 1 = some [0x61, 0x62] ∧ getargsBytes s 1 7 = [0x61, 0x62, 0x63, 0x64, 0x65, 0x66, 0] ∧
    ¬ ∀ n, 2 < n → getargsBytes s 1 n = [0x61, 0x62] ++ List.replicate (n - 2) 0 := by
  have hboot : ArgRun Sample.link Sample.files Sample.atBoot .empty := ArgRun.boot _ _
  have hlong : Typed Sample.notesLong := ⟨by decide, by decide, by decide⟩
  have hrun := ((hboot.executes Sample.site typed_shell).executes Sample.site hlong).executes
    Sample.site Sample.typed_shellAb
  have hbytes : getargsBytes (executeFunction Sample.link Sample.files Sample.site
      (some Sample.shellAb) (executeFunction Sample.link Sample.files Sample.site
        (some Sample.notesLong) Sample.running).2).2 1 7 =
      [0x61, 0x62, 0x63, 0x64, 0x65, 0x66, 0] := by decide
  refine ⟨_, _, hrun, by decide, by decide, hbytes, fun h => ?_⟩
  have hseven := hbytes.symm.trans (h 7 (by decide))
  revert hseven
  decide

end Os391
