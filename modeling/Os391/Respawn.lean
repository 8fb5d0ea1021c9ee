import Os391.Indices

/-!
# The base shell halts

When the process in slot 0 halts, `halt_function` executes a new shell before it
tears anything down. That call does not return until the new shell halts in turn;
then the suspended `halt_function` goes on, with `pid` as the new shell's `halt`
left it. `Machine` adds to the kernel's state what the stacks hold: who is waiting
for the program in each slot, and whether user mode runs or the rest of a `halt`.

Every start, return and halt then keeps its indices inside the process table,
except one step: tearing down slot 0 itself, whose parent is -1.
-/

namespace Os391

open Bytes Relation

variable {L : Link} {fs : FileSystem} {cs : CallSite}

/-- Whose call of `execute_function` started the program in a slot. -/
inductive Caller : Type where
  /-- `entry`, which spins after the call -/
  | boot : Caller
  /-- the `execute` system call of a process -/
  | user : Caller
  /-- `halt_function`, suspended with this status -/
  | halt : Byte → Caller
  /-- nobody: the call has returned or was resumed -/
  | gone : Caller
  deriving DecidableEq

/-- What runs. -/
inductive Mode : Type where
  /-- the current process in user mode -/
  | user : Mode
  /-- `halt_function` from line 30 on -/
  | finishing : Byte → Mode
  /-- nothing the kernel decides: `entry` spins, or a frame was resumed that is gone -/
  | lost : Mode
  /-- `processes[]` was indexed with this number -/
  | faulted : Int → Mode
  deriving DecidableEq

/-- The kernel and the calls that are suspended. -/
structure Machine : Type where
  kernel : Kernel
  callers : Fin 6 → Caller
  mode : Mode

/-- What goes on when a caller is resumed. -/
def Caller.resumed : Caller → Mode
  | .boot => .lost
  | .user => .user
  | .halt status => .finishing status
  | .gone => .lost

namespace Machine

/-- A call of `execute_function` on behalf of `caller` has ended. -/
def executed (m : Machine) (caller : Caller) (r : ExecOutcome × Kernel) : Machine :=
  match r.1 with
  | .userMode _ _ =>
    match slot? r.2.pid with
    | some i => ⟨r.2, Function.update m.callers i caller, .user⟩
    | none => ⟨r.2, m.callers, .faulted r.2.pid⟩
  | .returned _ => ⟨r.2, m.callers, caller.resumed⟩

/-- `halt_function` up to line 28. -/
def halt (L : Link) (fs : FileSystem) (cs : CallSite) (status : Byte) (m : Machine) : Machine :=
  match slot? m.kernel.pid with
  | none => { m with mode := .faulted m.kernel.pid }
  | some i =>
    if (m.kernel.processes i).pid = 0 then
      m.executed (.halt status) (executeFunction L fs cs (some respawnCommand) m.kernel)
    else { m with mode := .finishing status }

/-- `halt_function` from line 30 on, and the return to whoever waited for the slot. -/
def finish (L : Link) (status : Byte) (m : Machine) : Machine :=
  match haltRest L status m.kernel, slot? m.kernel.pid with
  | .ok _ s, some i => ⟨s, Function.update m.callers i .gone, (m.callers i).resumed⟩
  | .ok _ s, none => { m with kernel := s, mode := .faulted m.kernel.pid }
  | .fault k s, _ => { m with kernel := s, mode := .faulted k }

/-- A call that ends in `execute_function` leaves the kernel it has brought about. -/
theorem executed_kernel (m : Machine) (caller : Caller) (r : ExecOutcome × Kernel) :
    (m.executed caller r).kernel = r.2 := by
  obtain ⟨out | ⟨eip, esp⟩, s⟩ := r
  · rfl
  · rw [executed]
    dsimp only
    cases slot? s.pid <;> rfl

theorem executed_userMode (m : Machine) (caller : Caller) {s : Kernel} {eip esp : Word} {i : Fin 6}
    (hpid : s.pid = i.val) : m.executed caller (.userMode eip esp, s) =
      ⟨s, Function.update m.callers i caller, .user⟩ := by
  rw [executed]
  simp only [hpid, slot?_val]

section parts

variable {m : Machine} {i : Fin 6}

/-- `halt` in a slot: the base shell is replaced first. -/
theorem halt_eq (hpid : m.kernel.pid = i.val) (status : Byte) : m.halt L fs cs status =
    if (m.kernel.processes i).pid = 0 then
      m.executed (.halt status) (executeFunction L fs cs (some respawnCommand) m.kernel)
    else { m with mode := .finishing status } := by
  rw [halt]
  simp only [hpid, slot?_val]

/-- With a parent in the table the rest of `halt` hands over and resumes. -/
theorem finish_ok (L : Link) (status : Byte) (hpid : m.kernel.pid = i.val) {p : Fin 6}
    (hp : (m.kernel.processes i).parentPid.toInt = p.val) :
    ∃ s, m.finish L status = ⟨s, Function.update m.callers i .gone, (m.callers i).resumed⟩ ∧
      Halted L i p m.kernel s := by
  obtain ⟨s, hok, hs⟩ := haltRest_ok L status hpid hp
  refine ⟨s, ?_, hs⟩
  rw [finish, hok, hpid, slot?_val]

end parts

/-- The two parts together are `halt_function`. -/
theorem halt_finish_eq (L : Link) (fs : FileSystem) (cs : CallSite) (status : Byte) (m : Machine) :
    (haltFunction L fs cs status m.kernel).state =
      match (m.halt L fs cs status).mode with
      | .finishing status => ((m.halt L fs cs status).finish L status).kernel
      | _ => (m.halt L fs cs status).kernel := by
  have hfinish : ∀ n : Machine, (n.finish L status).kernel = (haltRest L status n.kernel).state := by
    intro n
    rw [finish]
    rcases haltRest L status n.kernel with ⟨o, s⟩ | ⟨k, s⟩
    · cases slot? n.kernel.pid <;> rfl
    · rfl
  unfold haltFunction Kernel.withSlot halt
  rcases slot? m.kernel.pid with _ | i
  · rfl
  · dsimp only
    by_cases hown : (m.kernel.processes i).pid = 0
    · simp only [if_pos hown]
      rcases executeFunction L fs cs (some respawnCommand) m.kernel with ⟨r | ⟨eip, esp⟩, s⟩
      · -- no shell has been started: the rest runs right away
        exact (hfinish ⟨s, m.callers, .finishing status⟩).symm
      · -- the new shell runs, and the rest is suspended
        rw [executed]
        dsimp only
        cases slot? s.pid <;> rfl
    · simp only [if_neg hown]
      exact (hfinish { m with mode := .finishing status }).symm

end Machine

/-- One step: the current process executes a command, which satisfies `C` if the call gets
as far as the copy of its arguments, or halts, or the rest of a `halt` runs in a state that
satisfies `D`. -/
inductive RespawnStep (L : Link) (fs : FileSystem) (C : List Byte → Prop) (D : Kernel → Prop)
    (m : Machine) : Machine → Prop where
  | executes (cs : CallSite) {command : List Byte} : m.mode = .user →
      (CopiesArgs fs command m.kernel → C command) →
      RespawnStep L fs C D m (m.executed .user (executeFunction L fs cs (some command) m.kernel))
  | halts (cs : CallSite) (status : Byte) : m.mode = .user →
      RespawnStep L fs C D m (m.halt L fs cs status)
  | finishes {status : Byte} : m.mode = .finishing status → D m.kernel →
      RespawnStep L fs C D m (m.finish L status)

/-- The machine once `entry` has started the base shell. -/
def Machine.booted (s : Kernel) : Machine := ⟨s, Function.update (fun _ => .gone) 0 .boot, .user⟩

/-- The rest of `halt_function` does not run for slot 0. -/
def NotBase (s : Kernel) : Prop := s.pid ≠ 0

/-! ## The invariant -/

/-- Indices are slots, slot 0 is active, and no index has been wrong so far. -/
structure Sound (m : Machine) : Prop where
  indices : InTable m.kernel
  base : (m.kernel.processes 0).active ≠ 0
  mode : ∀ k, m.mode ≠ .faulted k

theorem Caller.resumed_ne_faulted (c : Caller) (k : Int) : c.resumed ≠ .faulted k := by
  cases c <;> exact fun h => Mode.noConfusion h

namespace Sound

variable {m : Machine}

/-- With slot 0 active `pid` is a slot. -/
theorem slot {s : Kernel} (h : InTable s) (hbase : (s.processes 0).active ≠ 0) :
    ∃ i : Fin 6, s.pid = i.val :=
  h.pid.resolve_right fun hnone => hbase (hnone.2 0)

theorem booted {mem : Word → Byte} {t : PageTables} {s : Kernel} {command : List Byte} {i : Fin 6}
    (hs : Started L cs command i (bootKernel L mem t) s) (hfit : ArgsFit command) :
    Sound (.booted s) := by
  obtain rfl := eq_zero_of_freeSlot hs.free rfl
  exact ⟨(InTable.boot L mem t).started hs hfit, (hs.active_iff hfit 0).mpr (Or.inl rfl),
    fun k hk => Mode.noConfusion hk⟩

/-- A call in user mode that leaves indices and activity alone. -/
theorem returned (h : Sound m) {s : Kernel} (hmode : m.mode = .user) (hpid : s.pid = m.kernel.pid)
    (hterm : s.terminals = m.kernel.terminals)
    (hps : ∀ j, (s.processes j).parentPid = (m.kernel.processes j).parentPid ∧
      (s.processes j).active = (m.kernel.processes j).active) :
    Sound { m with kernel := s } := by
  refine ⟨h.indices.congr hpid hterm hps, ?_, fun k hk => ?_⟩
  · rw [(hps 0).2]
    exact h.base
  · exact Mode.noConfusion (hmode.symm.trans hk)

theorem executed (h : Sound m) {command : List Byte}
    (hfit : CopiesArgs fs command m.kernel → ArgsFit command) (cs : CallSite) (caller : Caller) :
    Sound (m.executed caller (executeFunction L fs cs (some command) m.kernel)) := by
  rcases hexec : executeFunction L fs cs (some command) m.kernel with ⟨out, s⟩
  have hindices := h.indices.executed hfit hexec
  have hbase : (s.processes 0).active ≠ 0 := by
    by_cases hcopies : CopiesArgs fs command m.kernel
    · rcases executeFunction_cases hexec with ⟨hr, -⟩ | ⟨i, hs, -⟩ | ⟨i, hs, -⟩
      · rw [hr.processes]
        exact h.base
      · rw [(hs.words_of_fits (hfit hcopies) 0).2]
        exact h.base
      · exact (hs.active_iff (hfit hcopies) 0).mpr (Or.inr h.base)
    · rw [(executeFunction_not_copies hcopies hexec).processes]
      exact h.base
  obtain ⟨i, hpid⟩ := slot hindices hbase
  rcases out with r | ⟨eip, esp⟩
  · exact ⟨hindices, hbase, caller.resumed_ne_faulted⟩
  · rw [Machine.executed_userMode m caller hpid]
    exact ⟨hindices, hbase, fun k hk => Mode.noConfusion hk⟩

theorem halts (h : Sound m) (cs : CallSite) (status : Byte) : Sound (m.halt L fs cs status) := by
  obtain ⟨i, hpid⟩ := slot h.indices h.base
  rw [Machine.halt_eq hpid]
  split
  · exact h.executed (fun _ => argsFit_respawn) cs _
  · exact ⟨h.indices, h.base, fun k hk => Mode.noConfusion hk⟩

theorem finishes (h : Sound m) (hnot : NotBase m.kernel) (status : Byte) :
    Sound (m.finish L status) := by
  obtain ⟨i, hpid⟩ := slot h.indices h.base
  have hi : i ≠ 0 := by
    rintro rfl
    exact hnot hpid
  obtain ⟨p, hp⟩ := h.indices.parent_slot (i := i) fun h0 => hi h0.1
  obtain ⟨s, hok, hs⟩ := Machine.finish_ok L status hpid hp
  rw [hok]
  refine ⟨h.indices.halted hs, ?_, (m.callers i).resumed_ne_faulted⟩
  by_cases hp0 : (0 : Fin 6) = p
  · subst hp0
    rw [hs.parent hi]
    simp
  · rw [hs.other hi.symm hp0]
    exact h.base

theorem step (h : Sound m) {m' : Machine} (hstep : RespawnStep L fs ArgsFit NotBase m m') :
    Sound m' := by
  cases hstep with
  | executes cs _ hfit => exact h.executed hfit cs .user
  | halts cs status _ => exact h.halts cs status
  | finishes _ hnot => exact h.finishes hnot _

end Sound

/-- After the base shell has started, in every run in which arguments that are copied fit
and the rest of `halt_function` never runs for slot 0, `pid` is a slot and no access to the process
table is outside it. -/
theorem respawn_run {mem : Word → Byte} {t : PageTables} {s₀ : Kernel} {eip esp : Word}
    {m : Machine} (hboot : executeFunction L fs cs (some shellCommand) (bootKernel L mem t) =
      (.userMode eip esp, s₀))
    (hrun : ReflTransGen (RespawnStep L fs ArgsFit NotBase) (.booted s₀) m) :
    (∃ i : Fin 6, m.kernel.pid = i.val) ∧ ∀ k, m.mode ≠ .faulted k := by
  obtain ⟨i, hs⟩ := executeFunction_userMode hboot
  have h : Sound m := by
    induction hrun with
    | refl => exact .booted hs argsFit_shell
    | tail _ hstep ih => exact ih.step hstep
  exact ⟨Sound.slot h.indices h.base, h.mode⟩

/-- The base shell halts, and the shell that replaces it runs in slot 1. -/
theorem respawn_run_sample : ∃ m, ReflTransGen (RespawnStep Sample.link Sample.files ArgsFit NotBase)
      (.booted Sample.running) m ∧ m.kernel.pid = 1 ∧ ∀ k, m.mode ≠ .faulted k := by
  have hrun : ReflTransGen (RespawnStep Sample.link Sample.files ArgsFit NotBase)
      (.booted Sample.running) _ := .single (.halts Sample.site 0 rfl)
  exact ⟨_, hrun, by decide, (respawn_run Sample.execute_atBoot hrun).2⟩

/-- That shell halts as well: the suspended `halt_function` goes on, now for slot 0,
takes -1 for the parent and uses it as an index. -/
theorem second_exit_faults : ∃ m, ReflTransGen (RespawnStep Sample.link Sample.files ArgsFit
      fun _ => True) (.booted Sample.running) m ∧ m.kernel.pid = -1 ∧ m.mode = .faulted (-1) := by
  let m₁ := (Machine.booted Sample.running).halt Sample.link Sample.files Sample.site 0
  let m₂ := m₁.halt Sample.link Sample.files Sample.site 0
  let m₃ := m₂.finish Sample.link 0
  refine ⟨m₃.finish Sample.link 0, ?_, by decide, by decide⟩
  exact (((ReflTransGen.single (.halts Sample.site 0 rfl)).tail
    (.halts (m := m₁) Sample.site 0 (by decide))).tail
    (.finishes (m := m₂) (by decide) trivial)).tail (.finishes (m := m₃) (by decide) trivial)

end Os391
