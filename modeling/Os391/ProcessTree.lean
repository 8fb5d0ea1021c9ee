import Os391.Overrun
import Os391.Lib.LinkedStacks

/-!
# The process table as three stacks

Each terminal runs one program at a time, on top of those that wait for it, down
to the base shell in slot 0, which all three share. The abstract state is
therefore a stack of slots per terminal; `Tree` says how the process table,
`latest_pid` and `pid` represent the stacks. Starting a program pushes a slot,
`halt` pops one, and switching terminals only changes which stack is current.
What one wants to know about parents and children is then read off the stacks.
-/

namespace Os391

open LinkedStacks Relation

variable {L : Link} {fs : FileSystem} {cs : CallSite}

/-- The parent of a slot, if `parent_pid` is a slot. -/
def parentOf (ps : Fin 6 → Pcb) (j : Fin 6) : Option (Fin 6) := slot? (ps j).parentPid.toInt

/-! ## The representation -/

/-- The kernel's state represents these stacks. -/
structure Tree (s : Kernel) (S : Fin 3 → List (Fin 6)) : Prop where
  forest : Forest (parentOf s.processes) 0 S
  latest : ∀ t, (s.terminals t).latestPid = ((S t).headD 0).val
  active : ∀ j, (s.processes j).active ≠ 0 ↔ j = 0 ∨ ∃ t, j ∈ S t
  own : ∀ j, (s.processes j).active ≠ 0 → (s.processes j).pid = BitVec.ofNat 32 j.val
  pid : s.pid = (s.terminals s.curTerminal).latestPid

namespace Tree

variable {s s' : Kernel} {S : Fin 3 → List (Fin 6)} {i p : Fin 6}

/-- The current slot is the top of the current stack. -/
theorem current (h : Tree s S) : s.pid = ((S s.curTerminal).headD 0).val := by
  rw [h.pid, h.latest]

theorem current_active (h : Tree s S) (hpid : s.pid = i.val) : (s.processes i).active ≠ 0 := by
  obtain rfl := slot_inj hpid h.current
  refine (h.active _).mpr ?_
  rcases hS : S s.curTerminal with _ | ⟨k, l⟩
  · exact Or.inl rfl
  · refine Or.inr ⟨s.curTerminal, ?_⟩
    rw [hS]
    exact List.mem_cons_self

/-- A free slot is in no stack, and it is not slot 0. -/
theorem fresh (h : Tree s S) (hfree : freeSlot s.processes = some i) :
    i ≠ 0 ∧ ∀ t, i ∉ S t := by
  have hzero := (freeSlot_eq_some.mp hfree).1
  refine ⟨?_, fun t ht => (h.active i).mpr (Or.inr ⟨t, ht⟩) hzero⟩
  rintro rfl
  exact (h.active 0).mpr (Or.inl rfl) hzero

/-- Running in a slot other than 0: the current stack is not empty, and the slot
below the current one is its parent. -/
theorem top (h : Tree s S) (hpid : s.pid = i.val) (hi : i ≠ 0) :
    ∃ l, S s.curTerminal = i :: l ∧
      (s.processes i).parentPid.toInt = ((l.headD 0 : Fin 6).val : Int) := by
  have hcur := h.current
  rcases hS : S s.curTerminal with _ | ⟨k, l⟩
  · rw [hS, hpid] at hcur
    exact absurd (slot_inj rfl hcur) hi
  · rw [hS, hpid] at hcur
    obtain rfl : i = k := slot_inj rfl hcur
    have hlinked := h.forest.linked s.curTerminal
    rw [hS] at hlinked
    exact ⟨l, rfl, slot?_eq_some hlinked.1⟩

/-- A slot of a stack is not its own parent. -/
theorem parent_ne (h : Tree s S) {t : Fin 3} (hmem : i ∈ S t)
    (hp : (s.processes i).parentPid.toInt = p.val) : i ≠ p := by
  rintro rfl
  refine h.forest.not_cyclic hmem (TransGen.single ?_)
  rw [parentOf, hp, slot?_val]

/-- Calls that leave links, activity and terminals alone. -/
theorem congr (h : Tree s S)
    (hps : ∀ j, (s'.processes j).parentPid = (s.processes j).parentPid ∧
      (s'.processes j).active = (s.processes j).active ∧
      (s'.processes j).pid = (s.processes j).pid)
    (hlatest : ∀ t, (s'.terminals t).latestPid = (s.terminals t).latestPid)
    (hpid : s'.pid = (s'.terminals s'.curTerminal).latestPid) : Tree s' S := by
  have hparent : parentOf s'.processes = parentOf s.processes := by
    funext j
    rw [parentOf, parentOf, (hps j).1]
  refine ⟨by rw [hparent]; exact h.forest, fun t => ?_, fun j => ?_, fun j => ?_, hpid⟩
  · rw [hlatest]
    exact h.latest t
  · rw [(hps j).2.1]
    exact h.active j
  · rw [(hps j).2.1, (hps j).2.2]
    exact h.own j

/-- Starting a program whose arguments fit pushes its slot. -/
theorem started (h : Tree s S) {command : List Bytes.Byte} (hs : Started L cs command i s s')
    (hfit : ArgsFit command) :
    Tree s' (Function.update S s.curTerminal (i :: S s.curTerminal)) := by
  obtain ⟨hne, hfresh⟩ := h.fresh hs.free
  -- the caller is the top of the current stack
  have hparent : parentOf s'.processes i = some ((S s.curTerminal).headD 0) := by
    rw [parentOf, hs.own, ← slot?_ofInt, ← h.current]
    rfl
  refine ⟨h.forest.push hfresh hne hparent fun b hb => ?_, fun t => ?_, fun j => ?_, fun j => ?_, ?_⟩
  · rw [parentOf, hs.other_of_fits hfit hb, parentOf]
  · rw [hs.terminals]
    by_cases ht : t = s.curTerminal
    · subst ht
      simp
    · simpa [ht] using h.latest t
  · rw [hs.active_iff hfit, h.active j]
    simp only [Forest.mem_push, exists_or, exists_and_right, exists_eq, true_and]
    exact or_left_comm
  · by_cases hj : j = i
    · subst hj
      rw [hs.own]
      intro
      rfl
    · rw [hs.other_of_fits hfit hj]
      exact h.own j
  · rw [hs.pid, hs.curTerminal, hs.terminals]
    simp

/-- `halt` pops the current slot. -/
theorem halted (h : Tree s S) (hs : Halted L i p s s') (hpid : s.pid = i.val) (hi : i ≠ 0) :
    ∃ l, S s.curTerminal = i :: l ∧ Tree s' (Function.update S s.curTerminal l) := by
  obtain ⟨l, hS, hp⟩ := h.top hpid hi
  obtain rfl := slot_inj hp hs.parentPid
  have hmem : i ∈ S s.curTerminal := by rw [hS]; exact List.mem_cons_self
  -- the parent is the root or lies below, so it is active
  have hpl : l.headD 0 = 0 ∨ l.headD 0 ∈ Function.update S s.curTerminal l s.curTerminal := by
    rw [Function.update_self]
    rcases l with _ | ⟨k, l⟩
    · exact Or.inl rfl
    · exact Or.inr List.mem_cons_self
  have hip : i ≠ l.headD 0 := h.parent_ne hmem hp
  have hpactive : (s.processes (l.headD 0)).active ≠ 0 :=
    (h.active _).mpr (hpl.imp_right fun hbelow =>
      ⟨s.curTerminal, ((h.forest.mem_pop hS).mp hbelow).2⟩)
  have hparent : parentOf s'.processes = parentOf s.processes := by
    funext j
    rw [parentOf, (hs.links hip j).1, parentOf]
  refine ⟨l, hS, by rw [hparent]; exact h.forest.pop hS, fun t => ?_, fun j => ?_, fun j => ?_, ?_⟩
  · rw [hs.terminals]
    by_cases ht : t = s.curTerminal
    · subst ht
      simp
    · simpa [ht] using h.latest t
  · rw [hs.active_iff hip hpactive, h.active j]
    simp only [h.forest.mem_pop hS]
    constructor
    · rintro ⟨hj, hzero | ⟨t, ht⟩⟩
      · exact Or.inl hzero
      · exact Or.inr ⟨t, hj, ht⟩
    · rintro (rfl | ⟨t, hj, ht⟩)
      · exact ⟨hi.symm, Or.inl rfl⟩
      · exact ⟨hj, Or.inr ⟨t, ht⟩⟩
  · rw [hs.active_iff hip hpactive, (hs.links hip j).2]
    exact fun hact => h.own j hact.2
  · rw [hs.pid, hs.curTerminal, hs.terminals]
    simp

/-- In a slot other than 0 `halt` completes. -/
theorem halt_ok (L : Link) (fs : FileSystem) (cs : CallSite) (status : Bytes.Byte) (h : Tree s S)
    (hpid : s.pid = i.val) (hi : i ≠ 0) :
    ∃ p s', haltFunction L fs cs status s = .ok (.resumes (s.processes i).savedEsp
      (s.processes i).savedEbp (status.setWidth 32)) s' ∧ Halted L i p s s' := by
  obtain ⟨l, hS, hp⟩ := h.top hpid hi
  have hactive : (s.processes i).active ≠ 0 :=
    (h.active i).mpr (Or.inr ⟨s.curTerminal, by rw [hS]; exact List.mem_cons_self⟩)
  have hown : (s.processes i).pid ≠ 0 := by
    rw [h.own i hactive]
    exact ofNat_slot_ne_zero hi
  exact ⟨_, haltFunction_ok L fs cs status hpid hown hp⟩

/-- Showing another terminal makes its stack the current one. -/
theorem shown (h : Tree s S) (source target : Fin 3) : Tree (showTerminal source target s) S :=
  h.congr (fun _ => ⟨rfl, rfl, rfl⟩) (showTerminal_latestPid source target s) rfl

/-- Marking the current terminal as running changes no stack. -/
theorem startingOn (h : Tree s S) (target : Fin 3) : Tree (s.startingOn target) S := by
  refine h.congr (fun _ => ⟨rfl, rfl, rfl⟩) (startingOn_latestPid s target) ?_
  rw [startingOn_latestPid]
  exact h.pid

end Tree

/-- The base shell on top of nothing. -/
theorem tree_boot {mem : Bytes.Word → Bytes.Byte} {t : PageTables} {s : Kernel}
    {command : List Bytes.Byte} {i : Fin 6} (hs : Started L cs command i (bootKernel L mem t) s)
    (hfit : ArgsFit command) : Tree s fun _ => [] := by
  obtain rfl := eq_zero_of_freeSlot hs.free rfl
  have hother : ∀ j, j ≠ 0 → s.processes j = Pcb.zero := fun j hj => hs.other_of_fits hfit hj
  have hroot : parentOf s.processes 0 = none := by
    rw [parentOf, hs.own]
    rfl
  refine ⟨⟨hroot, fun _ => trivial, fun _ => List.nodup_nil, ?_, ?_⟩, fun u => ?_, fun j => ?_,
    fun j => ?_, ?_⟩
  · intro u w a ha
    cases ha
  · intro u hu
    cases hu
  · rw [hs.terminals, Function.apply_update (fun _ r => Terminal.latestPid r)]
    simp [bootKernel]
  · rw [hs.active_iff hfit]
    simp [bootKernel, Pcb.zero]
  · rw [hs.active_iff hfit]
    rintro (rfl | hact)
    · rw [hs.own]
      rfl
    · exact absurd rfl hact
  · rw [hs.pid, hs.curTerminal, hs.terminals]
    simp

/-! ## Runs -/

/-- The image holds a shell that can be executed. -/
def FileSystem.HasShell (fs : FileSystem) : Prop :=
  ∃ e, fs.readDentryByName (commandName shellCommand) = some e ∧
    e.inodeNum.toNat < fs.inodeCount ∧ ∀ cs, isElf fs cs e.inodeNum.toNat = true

/-- One step: a program is started with a command that satisfies `C`, the call is
refused because all slots are active, a process in a slot other than 0 halts, or
the terminal is switched. -/
inductive TreeStep (L : Link) (fs : FileSystem) (C : List Bytes.Byte → Prop) (s : Kernel) :
    Kernel → Prop where
  | starts {cs : CallSite} {command : List Bytes.Byte} {eip esp : Bytes.Word} {s' : Kernel} :
      C command → executeFunction L fs cs (some command) s = (.userMode eip esp, s') →
      TreeStep L fs C s s'
  | refused {cs : CallSite} {command : List Bytes.Byte} {r : Int} {s' : Kernel} :
      freeSlot s.processes = none →
      executeFunction L fs cs (some command) s = (.returned r, s') → TreeStep L fs C s s'
  | halts (cs : CallSite) (status : Bytes.Byte) {i : Fin 6} : s.pid = i.val → i ≠ 0 →
      TreeStep L fs C s (haltFunction L fs cs status s).state
  | switches (cs : CallSite) (source target : Fin 3) :
      TreeStep L fs C s (switchTerminal L fs cs source target s).2

namespace Tree

variable {s s' : Kernel} {S : Fin 3 → List (Fin 6)}

theorem refused (h : Tree s S) (hr : Refused s s') : Tree s' S := by
  refine h.congr (fun j => ?_) (fun t => ?_) ?_
  · rw [hr.processes]
    exact ⟨rfl, rfl, rfl⟩
  · rw [hr.terminals]
  · rw [hr.pid, hr.terminals, hr.curTerminal]
    exact h.pid

/-- Executing a shell starts it if there is a slot for it. -/
theorem executed (L : Link) (cs : CallSite) (h : Tree s S) (hshell : fs.HasShell) :
    ∃ S', Tree (executeFunction L fs cs (some shellCommand) s).2 S' := by
  rcases hfree : freeSlot s.processes with _ | i
  · exact ⟨S, h.refused (executeFunction_no_slot hfree rfl).1⟩
  · obtain ⟨e, hname, hinode, helf⟩ := hshell
    obtain ⟨eip, w, hstart⟩ := executeFunction_starts L cs hname hfree (helf cs) hinode
    obtain ⟨i, hs⟩ := executeFunction_userMode hstart
    rw [hstart]
    exact ⟨_, h.started hs argsFit_shell⟩

/-- Switching terminals, with or without a shell to start on the new one. -/
theorem switched (h : Tree s S) (hshell : fs.HasShell) (source target : Fin 3) :
    ∃ S', Tree (switchTerminal L fs cs source target s).2 S' := by
  rcases hsw : switchTerminal L fs cs source target s with ⟨out, s'⟩
  rcases switchTerminal_cases hsw with ⟨-, rfl⟩ | ⟨-, rfl⟩ | ⟨r, -, hexec⟩
  · exact ⟨S, h⟩
  · exact ⟨S, h.shown source target⟩
  · have hthen := ((h.shown source target).startingOn target).executed L cs hshell
    rwa [hexec] at hthen

/-- Every step whose command fits leads from stacks to stacks. -/
theorem step (h : Tree s S) (hshell : fs.HasShell) (hstep : TreeStep L fs ArgsFit s s') :
    ∃ S', Tree s' S' := by
  cases hstep with
  | starts hfit hstart =>
    obtain ⟨i, hs⟩ := executeFunction_userMode hstart
    exact ⟨_, h.started hs hfit⟩
  | refused hfree hret => exact ⟨S, h.refused (executeFunction_no_slot hfree hret).1⟩
  | halts cs status hpid hi =>
    obtain ⟨p, t, hok, hs⟩ := h.halt_ok L fs cs status hpid hi
    obtain ⟨l, -, hpopped⟩ := h.halted hs hpid hi
    rw [hok]
    exact ⟨_, hpopped⟩
  | switches cs source target => exact h.switched hshell source target

end Tree

/-- So every state of a run is represented by stacks. -/
theorem tree_run {s₀ s : Kernel} (hshell : fs.HasShell) (h₀ : ∃ S, Tree s₀ S)
    (hrun : ReflTransGen (TreeStep L fs ArgsFit) s₀ s) : ∃ S, Tree s S := by
  induction hrun with
  | refl => exact h₀
  | tail _ hstep ih =>
    obtain ⟨S, h⟩ := ih
    exact h.step hshell hstep

/-! ## What the stacks say -/

/-- A slot lies on the parent chain of a terminal's `latest_pid`. -/
def OnChain (s : Kernel) (t : Fin 3) (j : Fin 6) : Prop :=
  ∃ k : Fin 6, (s.terminals t).latestPid = k.val ∧ Chain (parentOf s.processes) k j

/-- The process table is a tree rooted at slot 0 whose branches belong to terminals. -/
structure TreeShaped (s : Kernel) : Prop where
  pid : s.pid = (s.terminals s.curTerminal).latestPid
  root : (s.processes 0).active ≠ 0
  parent : ∀ j, j ≠ 0 → (s.processes j).active ≠ 0 →
    ∃ p, parentOf s.processes j = some p ∧ (s.processes p).active ≠ 0
  reaches : ∀ j, j ≠ 0 → (s.processes j).active ≠ 0 → Chain (parentOf s.processes) j 0
  acyclic : ∀ j, j ≠ 0 → (s.processes j).active ≠ 0 → ¬ ProperChain (parentOf s.processes) j j
  owner : ∀ j, j ≠ 0 → (s.processes j).active ≠ 0 → ∃! t, OnChain s t j
  noChild : ∀ i : Fin 6, s.pid = i.val → i ≠ 0 →
    ∀ j, (s.processes j).active ≠ 0 → parentOf s.processes j ≠ some i
  free : ∀ i, freeSlot s.processes = some i → ∀ t, ¬ OnChain s t i

namespace Tree

variable {s : Kernel} {S : Fin 3 → List (Fin 6)}

/-- The chain of a terminal starts at the top of its stack. -/
theorem onChain_iff_chain (h : Tree s S) (t : Fin 3) (j : Fin 6) :
    OnChain s t j ↔ Chain (parentOf s.processes) ((S t).headD 0) j := by
  constructor
  · rintro ⟨k, hk, hchain⟩
    obtain rfl := slot_inj (h.latest t) hk
    exact hchain
  · intro hchain
    exact ⟨_, h.latest t, hchain⟩

theorem onChain_iff (h : Tree s S) (t : Fin 3) (j : Fin 6) : OnChain s t j ↔ j ∈ S t ∨ j = 0 :=
  (h.onChain_iff_chain t j).trans (h.forest.chain_iff t)

theorem mem_of_active (h : Tree s S) {j : Fin 6} (hj : j ≠ 0) (hact : (s.processes j).active ≠ 0) :
    ∃ t, j ∈ S t :=
  ((h.active j).mp hact).resolve_left hj

theorem shaped (h : Tree s S) : TreeShaped s := by
  refine ⟨h.pid, (h.active 0).mpr (Or.inl rfl), ?_, ?_, ?_, ?_, ?_, ?_⟩
  · intro j hj hact
    obtain ⟨t, ht⟩ := h.mem_of_active hj hact
    obtain ⟨p, hp, hmem⟩ := h.forest.parent_mem ht
    exact ⟨p, hp, (h.active p).mpr (hmem.imp_right fun hpt => ⟨t, hpt⟩)⟩
  · intro j hj hact
    obtain ⟨t, ht⟩ := h.mem_of_active hj hact
    exact h.forest.chain_root ht
  · intro j hj hact
    obtain ⟨t, ht⟩ := h.mem_of_active hj hact
    exact h.forest.not_cyclic ht
  · intro j hj hact
    obtain ⟨t, ht⟩ := h.mem_of_active hj hact
    exact (existsUnique_congr fun u => h.onChain_iff_chain u j).mpr
      (h.forest.existsUnique_chain ht)
  · intro i hpid hi j hact
    obtain ⟨l, htop, -⟩ := h.top hpid hi
    by_cases hj : j = 0
    · rw [hj, h.forest.root_parent]
      intro hnone
      cases hnone
    · obtain ⟨t, ht⟩ := h.mem_of_active hj hact
      exact h.forest.top_not_parent htop ht
  · intro i hfree t hon
    obtain ⟨hne, hfresh⟩ := h.fresh hfree
    rcases (h.onChain_iff t i).mp hon with hmem | hzero
    · exact hfresh t hmem
    · exact hne hzero

end Tree

/-- From the state in which the base shell has been started, every run of program
starts with arguments that fit, refusals for lack of slots, halts outside slot 0
and terminal switches leads through tree-shaped states only. -/
theorem treeShaped_run (hshell : fs.HasShell) {mem : Bytes.Word → Bytes.Byte} {t : PageTables}
    {s₀ s : Kernel} {eip esp : Bytes.Word}
    (hboot : executeFunction L fs cs (some shellCommand) (bootKernel L mem t) =
      (.userMode eip esp, s₀))
    (hrun : ReflTransGen (TreeStep L fs ArgsFit) s₀ s) : TreeShaped s := by
  obtain ⟨i, hs⟩ := executeFunction_userMode hboot
  obtain ⟨S, h⟩ := tree_run hshell ⟨_, tree_boot hs argsFit_shell⟩ hrun
  exact h.shaped

theorem Sample.hasShell : Sample.files.HasShell := by
  refine ⟨Sample.files.entry 0, by decide, by decide, fun cs => ?_⟩
  -- the magic is read from the file, whatever was on the stack
  rfl

/-- In the small system a second shell is started on terminal 1. -/
theorem treeShaped_run_sample :
    TreeShaped (switchTerminal Sample.link Sample.files Sample.site 0 1 Sample.running).2 :=
  treeShaped_run Sample.hasShell Sample.execute_atBoot (.single (.switches Sample.site 0 1))

/-- With arguments of any length the base shell can make slot 2 active with a parent
that is no slot. -/
theorem long_arguments_break_tree : Sample.files.HasShell ∧
    ∃ s, ReflTransGen (TreeStep Sample.link Sample.files fun _ => True) Sample.running s ∧
      ¬ TreeShaped s := by
  have hfree : freeSlot Sample.running.processes = some 1 := by decide
  obtain ⟨eip, s, hstart, hs⟩ := Sample.execute_longCommand hfree
  obtain ⟨-, hparent, hactive⟩ := Sample.started_longCommand (j := 2) hs rfl
  refine ⟨Sample.hasShell, s, .single (.starts trivial hstart), fun h => ?_⟩
  obtain ⟨p, hp, -⟩ := h.parent 2 (by decide) (by rw [hactive]; decide)
  rw [parentOf, hparent] at hp
  revert hp
  revert p
  decide

end Os391
