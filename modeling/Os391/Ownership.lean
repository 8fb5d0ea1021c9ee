import Os391.ProcessTree

/-!
# Which terminal a process belongs to

`execute_function` notes the current terminal in the PCB it fills, and
`terminals[t].latest_pid` names the process on top of terminal `t`. The two agree
as long as a terminal is handed on inside its own stack: every slot of the stack
of `t` was started on `t`. Slot 0 lies below all three stacks but belongs to
terminal 0, so the first shell of another terminal must not hand over to it, and
a terminal must not be shown for the first time without a shell on it.
-/

namespace Os391

open Bytes Relation

variable {L : Link} {fs : FileSystem} {cs : CallSite}

/-- The terminals on which a shell has been started: terminal 0 by `entry`, the
others by the switch that shows them for the first time. -/
def IsStarted (s : Kernel) (t : Fin 3) : Prop := t = 0 ∨ (s.terminals t).running ≠ 0

instance (s : Kernel) (t : Fin 3) : Decidable (IsStarted s t) :=
  inferInstanceAs (Decidable (t = 0 ∨ (s.terminals t).running ≠ 0))

/-- `latest_pid` of a terminal names an active process of that terminal. -/
def OwnsLatest (s : Kernel) (t : Fin 3) : Prop :=
  ∃ i : Fin 6, (s.terminals t).latestPid = i.val ∧ (s.processes i).active ≠ 0 ∧
    (s.processes i).terminal = BitVec.ofNat 32 t.val

/-- The image holds a shell that passes the checks of `execute_function` when it is
called from this site. -/
def FileSystem.ShellRuns (fs : FileSystem) (cs : CallSite) : Prop :=
  ∃ e, fs.readDentryByName (commandName shellCommand) = some e ∧
    e.inodeNum.toNat < fs.inodeCount ∧ isElf fs cs e.inodeNum.toNat = true

/-- The current process is not the first shell of terminal 1 or 2: if its parent is
slot 0, terminal 0 is shown. -/
def NotFirstShell (s : Kernel) : Prop :=
  ∀ i : Fin 6, s.pid = i.val → (s.processes i).parentPid = 0 → s.curTerminal = 0

/-- A switch that shows a terminal for the first time finds a slot for its shell. -/
def FindsSlot (fs : FileSystem) (cs : CallSite) (source target : Fin 3) (s : Kernel) : Prop :=
  source = target ∨ IsStarted s target ∨ (freeSlot s.processes).isSome ∧ fs.ShellRuns cs

/-- One step: a program is started with a command that satisfies `C`, a process in a
slot other than 0 halts in a state that satisfies `H`, or the terminal is switched
under the condition `W`. -/
inductive OwnStep (L : Link) (fs : FileSystem) (C : List Byte → Prop) (H : Kernel → Prop)
    (W : CallSite → Fin 3 → Fin 3 → Kernel → Prop) (s : Kernel) : Kernel → Prop where
  | starts {cs : CallSite} {command : List Byte} {eip esp : Word} {s' : Kernel} :
      C command → executeFunction L fs cs (some command) s = (.userMode eip esp, s') →
      OwnStep L fs C H W s s'
  | halts (cs : CallSite) (status : Byte) {i : Fin 6} : s.pid = i.val → i ≠ 0 → H s →
      OwnStep L fs C H W s (haltFunction L fs cs status s).state
  | switches (cs : CallSite) (source target : Fin 3) : W cs source target s →
      OwnStep L fs C H W s (switchTerminal L fs cs source target s).2

/-- What `switch_terminal` tests before it starts a shell. -/
theorem starts_shell_iff (s : Kernel) (source target : Fin 3) :
    ((showTerminal source target s).terminals target).running = 0 ∧ target ≠ 0 ↔
      ¬ IsStarted s target := by
  rw [showTerminal_running, IsStarted, not_or, not_not, and_comm]

/-! ## The running words and the shown terminal -/

section words

variable {command : List Byte} {i p : Fin 6} {s s' : Kernel}

/-- Starting a program marks no terminal as running. -/
theorem Started.running_eq (h : Started L cs command i s s') (t : Fin 3) :
    (s'.terminals t).running = (s.terminals t).running := by
  rw [h.terminals]
  by_cases ht : t = s.curTerminal
  · subst ht
    simp
  · simp [ht]

theorem Halted.running_eq (h : Halted L i p s s') (t : Fin 3) :
    (s'.terminals t).running = (s.terminals t).running := by
  rw [h.terminals]
  by_cases ht : t = s.curTerminal
  · subst ht
    simp
  · simp [ht]

/-- `halt` leaves the terminal of every slot as it is. -/
theorem Halted.terminal_eq (h : Halted L i p s s') (hne : i ≠ p) (j : Fin 6) :
    (s'.processes j).terminal = (s.processes j).terminal := by
  by_cases hj : j = i
  · subst hj
    rw [h.own hne]
    rfl
  · by_cases hjp : j = p
    · subst hjp
      rw [h.parent hne]
    · rw [h.other hj hjp]

end words

/-! ## The invariant -/

/-- The stacks of `Tree`, each of slots that belong to its terminal. -/
structure Owned (s : Kernel) (S : Fin 3 → List (Fin 6)) : Prop where
  tree : Tree s S
  terminal : ∀ t, ∀ j ∈ S t, (s.processes j).terminal = BitVec.ofNat 32 t.val
  base : (s.processes 0).terminal = 0
  running : ∀ t, t ≠ 0 → (s.terminals t).running ≠ 0 → S t ≠ []
  current : IsStarted s s.curTerminal

namespace Owned

variable {s s' : Kernel} {S : Fin 3 → List (Fin 6)} {i p : Fin 6} {command : List Byte}

/-- The invariant says what is wanted. -/
theorem ownsLatest (h : Owned s S) {t : Fin 3} (ht : IsStarted s t) : OwnsLatest s t := by
  refine ⟨(S t).headD 0, h.tree.latest t, ?_, ?_⟩
  · rcases hS : S t with _ | ⟨k, l⟩
    · exact (h.tree.active 0).mpr (Or.inl rfl)
    · exact (h.tree.active k).mpr (Or.inr ⟨t, by rw [hS]; exact List.mem_cons_self⟩)
  · rcases hS : S t with _ | ⟨k, l⟩
    · -- only terminal 0 can have an empty stack
      have hzero : t = 0 := by
        by_contra hne
        exact h.running t hne (ht.resolve_left hne) hS
      rw [hzero]
      exact h.base
    · exact h.terminal t k (by rw [hS]; exact List.mem_cons_self)

/-- Pushing a slot started on the current terminal, whose stack may be empty so far
even if it is marked as running. -/
theorem pushed (htree : Tree s S)
    (hterm : ∀ t, ∀ j ∈ S t, (s.processes j).terminal = BitVec.ofNat 32 t.val)
    (hbase : (s.processes 0).terminal = 0)
    (hrunning : ∀ t, t ≠ 0 → t ≠ s.curTerminal → (s.terminals t).running ≠ 0 → S t ≠ [])
    (hcur : IsStarted s s.curTerminal) (hs : Started L cs command i s s')
    (hfit : ArgsFit command) : Owned s' (Function.update S s.curTerminal (i :: S s.curTerminal)) := by
  obtain ⟨hi, hfresh⟩ := htree.fresh hs.free
  refine ⟨htree.started hs hfit, fun t j hj => ?_, ?_, fun t ht hrun => ?_, ?_⟩
  · rcases LinkedStacks.Forest.mem_push.mp hj with ⟨rfl, rfl⟩ | hmem
    · rw [hs.own]
      rfl
    · have hne : j ≠ i := by
        rintro rfl
        exact hfresh t hmem
      rw [hs.other_of_fits hfit hne]
      exact hterm t j hmem
  · rw [hs.other_of_fits hfit hi.symm]
    exact hbase
  · rw [hs.running_eq] at hrun
    by_cases hcur : t = s.curTerminal
    · subst hcur
      rw [Function.update_self]
      exact List.cons_ne_nil _ _
    · rw [Function.update_of_ne hcur]
      exact hrunning t ht hcur hrun
  · rw [IsStarted, hs.curTerminal, hs.running_eq]
    exact hcur

theorem started (h : Owned s S) (hs : Started L cs command i s s') (hfit : ArgsFit command) :
    Owned s' (Function.update S s.curTerminal (i :: S s.curTerminal)) :=
  pushed h.tree h.terminal h.base (fun t ht _ => h.running t ht) h.current hs hfit

/-- A halt keeps the terminal inside its stack, unless it is that of a first shell. -/
theorem halted (h : Owned s S) (hs : Halted L i p s s') (hpid : s.pid = i.val) (hi : i ≠ 0)
    (hfirst : NotFirstShell s) : ∃ S', Owned s' S' := by
  obtain ⟨l, hS, htree⟩ := h.tree.halted hs hpid hi
  obtain ⟨l', hS', hp⟩ := h.tree.top hpid hi
  obtain rfl : l = l' := (List.cons.inj (hS.symm.trans hS')).2
  have hmem : i ∈ S s.curTerminal := by rw [hS]; exact List.mem_cons_self
  have hip : i ≠ p := h.tree.parent_ne hmem hs.parentPid
  refine ⟨_, htree, fun t j hj => ?_, ?_, fun t ht hrun => ?_, ?_⟩
  · rw [hs.terminal_eq hip]
    exact h.terminal t j ((h.tree.forest.mem_pop hS).mp hj).2
  · rw [hs.terminal_eq hip]
    exact h.base
  · rw [hs.running_eq] at hrun
    by_cases hcur : t = s.curTerminal
    · subst hcur
      rw [Function.update_self]
      rintro rfl
      -- nothing is left below: the parent is slot 0
      refine ht (hfirst i hpid ?_)
      rw [← BitVec.toInt_inj, hp]
      rfl
    · rw [Function.update_of_ne hcur]
      exact h.running t ht hrun
  · rw [IsStarted, hs.curTerminal, hs.running_eq]
    exact h.current

/-- Calls that change no process and mark no terminal as running. -/
theorem shown (h : Owned s S) (source : Fin 3) {target : Fin 3} (ht : IsStarted s target) :
    Owned (showTerminal source target s) S := by
  refine ⟨h.tree.shown source target, h.terminal, h.base, fun t hne hrun => ?_, ?_⟩
  · rw [showTerminal_running] at hrun
    exact h.running t hne hrun
  · rw [IsStarted, showTerminal_running]
    exact ht

/-- A terminal is shown for the first time, and its shell is started. -/
theorem startsShell (h : Owned s S) (source : Fin 3) {target : Fin 3}
    (hs : Started L cs command i ((showTerminal source target s).startingOn target) s')
    (hfit : ArgsFit command) : Owned s' (Function.update S target (i :: S target)) := by
  -- in between, the target is marked as running and its stack is still empty
  have htree : Tree ((showTerminal source target s).startingOn target) S :=
    (h.tree.shown source target).startingOn target
  refine pushed htree h.terminal h.base (fun t ht hne hrun => h.running t ht ?_) (Or.inr ?_) hs hfit
  · rw [← showTerminal_running source target s t]
    have hsame : ((showTerminal source target s).startingOn target).terminals t =
        (showTerminal source target s).terminals t := Function.update_of_ne hne _ _
    rwa [hsame] at hrun
  · simp [Kernel.startingOn, showTerminal]

/-- A switch that finds a slot for the shell of a new terminal. -/
theorem switches (h : Owned s S) {source target : Fin 3} (hslot : FindsSlot fs cs source target s) :
    ∃ S', Owned (switchTerminal L fs cs source target s).2 S' := by
  by_cases hsame : source = target
  · rw [switchTerminal_same hsame]
    exact ⟨S, h⟩
  · by_cases hrun : ((showTerminal source target s).terminals target).running = 0 ∧ target ≠ 0
    · -- the target is new, so there is a free slot and a shell to put into it
      have hnew := (starts_shell_iff s source target).mp hrun
      obtain ⟨hfree, e, hname, hinode, helf⟩ := (hslot.resolve_left hsame).resolve_left hnew
      obtain ⟨i, hi⟩ := Option.isSome_iff_exists.mp hfree
      have hfree' : freeSlot ((showTerminal source target s).startingOn target).processes = some i :=
        hi
      obtain ⟨eip, s', hstart⟩ := executeFunction_starts L cs hname hfree' helf hinode
      obtain ⟨k, hs⟩ := executeFunction_userMode hstart
      rw [switchTerminal_starts hsame hrun]
      simp only [hstart]
      exact ⟨_, h.startsShell source hs argsFit_shell⟩
    · rw [switchTerminal_shows hsame hrun]
      exact ⟨S, h.shown source (not_not.mp fun hnew =>
        hrun ((starts_shell_iff s source target).mpr hnew))⟩

theorem step (h : Owned s S)
    (hstep : OwnStep L fs ArgsFit NotFirstShell (FindsSlot fs) s s') : ∃ S', Owned s' S' := by
  cases hstep with
  | starts hfit hstart =>
    obtain ⟨i, hs⟩ := executeFunction_userMode hstart
    exact ⟨_, h.started hs hfit⟩
  | halts cs status hpid hi hfirst =>
    obtain ⟨p, u, hok, hs⟩ := h.tree.halt_ok L fs cs status hpid hi
    rw [hok]
    exact h.halted hs hpid hi hfirst
  | switches cs source target hslot => exact h.switches hslot

/-- The condition on halts is exact: the first shell of terminal 1 or 2 hands its
terminal over to slot 0, which belongs to terminal 0. -/
theorem not_ownsLatest_halted (h : Owned s S) (hs : Halted L i p s s') (hpid : s.pid = i.val)
    (hi : i ≠ 0) (hfirst : ¬ NotFirstShell s) :
    IsStarted s' s'.curTerminal ∧ ¬ OwnsLatest s' s'.curTerminal := by
  rw [NotFirstShell] at hfirst
  push Not at hfirst
  obtain ⟨k, hk, hparent, hcur⟩ := hfirst
  obtain rfl := slot_inj hpid hk
  have hp := hs.parentPid
  rw [hparent] at hp
  obtain rfl : (0 : Fin 6) = p := slot_inj rfl hp
  refine ⟨?_, ?_⟩
  · rw [IsStarted, hs.curTerminal, hs.running_eq]
    exact h.current
  · rintro ⟨j, hj, -, hterm⟩
    rw [hs.curTerminal, hs.terminals, Function.update_self] at hj
    obtain rfl : (0 : Fin 6) = j := slot_inj rfl hj
    rw [hs.terminal_eq hi, h.base, hs.curTerminal] at hterm
    revert hterm hcur
    generalize s.curTerminal = t
    revert t
    decide

end Owned

/-- The base shell runs alone on terminal 0. -/
theorem owned_boot {mem : Word → Byte} {t : PageTables} {s : Kernel} {command : List Byte}
    {i : Fin 6} (hs : Started L cs command i (bootKernel L mem t) s) (hfit : ArgsFit command) :
    Owned s fun _ => [] := by
  obtain rfl := eq_zero_of_freeSlot hs.free rfl
  refine ⟨tree_boot hs hfit, fun u j hj => ?_, ?_, fun u hu hrun => ?_, Or.inl hs.curTerminal⟩
  · cases hj
  · rw [hs.own]
    rfl
  · rw [hs.running_eq] at hrun
    exact absurd rfl hrun

/-- From the running base shell on, in any order of successful starts whose arguments
fit, halts outside slot 0 and switches: as long as no first shell of terminal 1 or 2
halts and every new terminal finds a slot for its shell, `latest_pid` of each started
terminal names an active process of that terminal. -/
theorem ownsLatest_run {mem : Word → Byte} {t : PageTables} {s₀ s : Kernel} {eip esp : Word}
    (hboot : executeFunction L fs cs (some shellCommand) (bootKernel L mem t) =
      (.userMode eip esp, s₀))
    (hrun : ReflTransGen (OwnStep L fs ArgsFit NotFirstShell (FindsSlot fs)) s₀ s) :
    ∀ u, IsStarted s u → OwnsLatest s u := by
  obtain ⟨i, hs⟩ := executeFunction_userMode hboot
  have h : ∃ S, Owned s S := by
    induction hrun with
    | refl => exact ⟨_, owned_boot hs argsFit_shell⟩
    | tail _ hstep ih =>
      obtain ⟨S, h⟩ := ih
      exact h.step hstep
  obtain ⟨S, h⟩ := h
  exact fun u hu => h.ownsLatest hu

/-- The sample image has a shell. -/
theorem Sample.shellRuns : Sample.files.ShellRuns Sample.site :=
  ⟨Sample.files.entry 0, by decide, by decide, by decide⟩

/-- A shell is started on terminal 1. -/
theorem ownsLatest_run_sample :
    OwnsLatest (switchTerminal Sample.link Sample.files Sample.site 0 1 Sample.running).2 1 :=
  ownsLatest_run Sample.execute_atBoot
    (.single (.switches Sample.site 0 1 (Or.inr (Or.inr ⟨by decide, Sample.shellRuns⟩)))) 1
    (Or.inr (by decide))

/-- That shell exits: terminal 1 is handed over to the base shell of terminal 0. -/
theorem first_shell_exits : ∃ s,
    ReflTransGen (OwnStep Sample.link Sample.files ArgsFit (fun _ => True) fun _ _ _ _ => True)
      Sample.running s ∧ IsStarted s 1 ∧ ¬ OwnsLatest s 1 := by
  let s₁ := (switchTerminal Sample.link Sample.files Sample.site 0 1 Sample.running).2
  refine ⟨(haltFunction Sample.link Sample.files Sample.site 0 s₁).state,
    (ReflTransGen.single (.switches Sample.site 0 1 trivial)).tail
      (.halts (i := 1) Sample.site 0 (by decide) (by decide) trivial), ?_, ?_⟩
  · exact Or.inr (by decide)
  · rw [OwnsLatest]
    decide

end Os391
