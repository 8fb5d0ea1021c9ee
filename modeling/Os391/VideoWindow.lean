import Os391.Ownership

/-!
# The video window

`vidmap_function` makes the first page of the window at `0x08400000` present, and
that entry is shared: starting a program and switching terminals do not touch it,
and `halt_function` clears the entry with the number of the terminal, which is
the first one on terminal 0 only. Which processes have asked for the window since
they were started is noted beside the state. The entry follows the current
process exactly as long as control passes between processes that agree on it.
-/

namespace Os391

open Bytes Relation

variable {L : Link} {fs : FileSystem} {cs : CallSite}

/-- The first page of the window is present. -/
def WindowPresent (s : Kernel) : Prop := Pte.p.get (s.pages.videoMappingPage 0) = 1

/-- The kernel, and which slots have made a successful `vidmap` call since the program
in them was started. -/
structure Windows : Type where
  kernel : Kernel
  asked : Fin 6 → Bool

namespace Windows

/-- The process with this number has asked for the window. -/
def Asked (m : Windows) (n : Int) : Prop := ∃ k : Fin 6, n = k.val ∧ m.asked k = true

/-- The window is present exactly for the processes that asked for it. -/
def Fits (m : Windows) : Prop := WindowPresent m.kernel ↔ m.Asked m.kernel.pid

/-- Go on with another kernel state in which the current process is noted. -/
def note (m : Windows) (asked : Bool) (s : Kernel) : Windows :=
  match slot? s.pid with
  | some k => ⟨s, Function.update m.asked k asked⟩
  | none => ⟨s, m.asked⟩

/-- `vidmap_function`. -/
def vidmap (L : Link) (screenStart : Word) (m : Windows) : Windows :=
  let r := vidmapFunction L screenStart m.kernel
  if r.1 = 0 then m.note true r.2 else { m with kernel := r.2 }

/-- `switch_terminal`: a shell it starts has not asked for anything. -/
def switch (L : Link) (fs : FileSystem) (cs : CallSite) (source target : Fin 3) (m : Windows) :
    Windows :=
  let r := switchTerminal L fs cs source target m.kernel
  match r.1 with
  | some (.userMode _ _) => m.note false r.2
  | _ => { m with kernel := r.2 }

end Windows

/-- The calls of a run. -/
inductive WindowCall : Type where
  | execute : WindowCall
  | halt : WindowCall
  | vidmap : WindowCall
  | switch : CallSite → Fin 3 → Fin 3 → WindowCall

/-- One step: a program is started with a command that satisfies `C`, a process in a
slot other than 0 halts, `vidmap` is called, or the terminal is switched, each under
the condition `D`. -/
inductive WindowStep (L : Link) (fs : FileSystem) (C : List Byte → Prop)
    (D : WindowCall → Windows → Prop) (m : Windows) : Windows → Prop where
  | starts {cs : CallSite} {command : List Byte} {eip esp : Word} {s' : Kernel} :
      D .execute m → C command →
      executeFunction L fs cs (some command) m.kernel = (.userMode eip esp, s') →
      WindowStep L fs C D m (m.note false s')
  | halts (cs : CallSite) (status : Byte) {i : Fin 6} : D .halt m → m.kernel.pid = i.val → i ≠ 0 →
      WindowStep L fs C D m { m with kernel := (haltFunction L fs cs status m.kernel).state }
  | vidmaps (screenStart : Word) : D .vidmap m → WindowStep L fs C D m (m.vidmap L screenStart)
  | switches (cs : CallSite) (source target : Fin 3) : D (.switch cs source target) m →
      WindowStep L fs C D m (m.switch L fs cs source target)

/-- The parent of the current process. -/
def currentParent (s : Kernel) : Int :=
  match slot? s.pid with
  | some i => (s.processes i).parentPid.toInt
  | none => -1

/-- Control passes between processes that agree on the window: no process that has it
starts a program; a process that halts has it exactly if its parent has, and on terminal
0 the parent does not; and the process on top of the terminal that is switched to has it
exactly if the current one has, or is a shell started for a process without it. -/
def Agrees (fs : FileSystem) : WindowCall → Windows → Prop
  | .execute, m => ¬ m.Asked m.kernel.pid
  | .halt, m =>
    if m.kernel.curTerminal = 0 then ¬ m.Asked (currentParent m.kernel)
    else (m.Asked m.kernel.pid ↔ m.Asked (currentParent m.kernel))
  | .vidmap, _ => True
  | .switch cs source target, m =>
    source = target ∨
      if IsStarted m.kernel target ∨ freeSlot m.kernel.processes = none then
        (m.Asked m.kernel.pid ↔ m.Asked (m.kernel.terminals target).latestPid)
      else ¬ m.Asked m.kernel.pid ∧ fs.ShellRuns cs

/-! ## What each call does to the entry -/

section entry

variable {command : List Byte} {i p : Fin 6} {s s' : Kernel}

theorem Started.windowPresent_iff (h : Started L cs command i s s') :
    WindowPresent s' ↔ WindowPresent s := by
  rw [WindowPresent, h.pages]
  rfl

/-- `halt` clears the entry on terminal 0 and leaves it alone on the others. -/
theorem Halted.windowPresent_iff (h : Halted L i p s s') :
    WindowPresent s' ↔ s.curTerminal ≠ 0 ∧ WindowPresent s := by
  rw [WindowPresent, h.pages]
  by_cases ht : s.curTerminal = 0
  · rw [ht]
    refine iff_of_false ?_ fun hnot => hnot.1 rfl
    simp [haltPaging]
  · have hne : (0 : Fin 1024) ≠ Fin.ofNat 1024 s.curTerminal.val := by
      revert ht
      generalize s.curTerminal = t
      revert t
      decide
    rw [haltPaging]
    simp only [Function.update_of_ne hne]
    exact ⟨fun hp => ⟨ht, hp⟩, fun hp => hp.2⟩

theorem windowPresent_vidmapPaging {t : PageTables} :
    Pte.p.get ((vidmapPaging t).videoMappingPage 0) = 1 := by
  simp [vidmapPaging]

end entry

namespace Windows

variable {m : Windows} {S : Fin 3 → List (Fin 6)} {i p : Fin 6} {s' : Kernel} {command : List Byte}

theorem asked_val (m : Windows) (k : Fin 6) : m.Asked k.val ↔ m.asked k = true := by
  constructor
  · rintro ⟨j, hj, hask⟩
    obtain rfl := slot_inj rfl hj
    exact hask
  · exact fun hask => ⟨k, rfl, hask⟩

theorem note_of_slot (m : Windows) (b : Bool) {s : Kernel} (h : s.pid = i.val) :
    m.note b s = ⟨s, Function.update m.asked i b⟩ := by
  rw [note, h, slot?_val]

/-- After a note about the current process the entry has to have the noted value. -/
theorem fits_note_iff (m : Windows) (b : Bool) {s : Kernel} (h : s.pid = i.val) :
    (m.note b s).Fits ↔ (WindowPresent s ↔ b = true) := by
  rw [m.note_of_slot b h, Fits, h, asked_val]
  dsimp only
  rw [Function.update_self]

/-- Starting a program fits exactly if the caller has no window. -/
theorem fits_started_iff (hfits : m.Fits) (hs : Started L cs command i m.kernel s') :
    (m.note false s').Fits ↔ ¬ m.Asked m.kernel.pid := by
  have hown : WindowPresent m.kernel ↔ m.Asked m.kernel.pid := hfits
  rw [fits_note_iff m false hs.pid, hs.windowPresent_iff, hown]
  exact ⟨fun h hask => Bool.noConfusion (h.mp hask), fun h => iff_of_false h Bool.false_ne_true⟩

/-- A halt fits exactly under the condition of `Agrees`. -/
theorem fits_halted_iff (hfits : m.Fits) (hs : Halted L i p m.kernel s')
    (hpid : m.kernel.pid = i.val) :
    Fits { m with kernel := s' } ↔ Agrees fs .halt m := by
  have hparent : currentParent m.kernel = p.val := by
    rw [currentParent, hpid, slot?_val]
    exact hs.parentPid
  have hown : WindowPresent m.kernel ↔ m.Asked m.kernel.pid := hfits
  have hsame : ∀ n, Asked { m with kernel := s' } n ↔ m.Asked n := fun _ => Iff.rfl
  rw [Fits, Agrees, hparent, hs.windowPresent_iff, hs.pid, hown, hsame]
  by_cases ht : m.kernel.curTerminal = 0
  · rw [if_pos ht]
    exact ⟨fun h hask => (h.mpr hask).1 ht, fun h => iff_of_false (fun hnot => hnot.1 ht) h⟩
  · rw [if_neg ht]
    exact ⟨fun h => ⟨fun hask => h.mp ⟨ht, hask⟩, fun hask => (h.mpr hask).2⟩,
      fun h => ⟨fun hboth => h.mp hboth.2, fun hask => ⟨ht, h.mpr hask⟩⟩⟩

/-- Showing a terminal fits exactly if the process on top of it agrees. -/
theorem fits_shown_iff (hfits : m.Fits) {s : Kernel} {n : Int}
    (hpages : s.pages = m.kernel.pages) (hpid : s.pid = n) :
    Fits { m with kernel := s } ↔ (m.Asked m.kernel.pid ↔ m.Asked n) := by
  have hown : WindowPresent m.kernel ↔ m.Asked m.kernel.pid := hfits
  have hsame : WindowPresent s ↔ WindowPresent m.kernel := by rw [WindowPresent, hpages, WindowPresent]
  rw [Fits, hsame, hown, hpid]
  exact Iff.rfl

theorem note_kernel (m : Windows) (b : Bool) (s : Kernel) : (m.note b s).kernel = s := by
  rw [note]
  split <;> rfl

/-- `vidmap` gives the window to the current process. -/
theorem vidmap_fits (h : Tree m.kernel S) (hfits : m.Fits) (screenStart : Word) :
    Tree (m.vidmap L screenStart).kernel S ∧ (m.vidmap L screenStart).Fits := by
  rw [vidmap, vidmapFunction]
  split
  · exact ⟨h, hfits⟩
  · split
    · exact ⟨h, hfits⟩
    · dsimp only
      rw [if_pos rfl, note_kernel]
      refine ⟨h.congr (fun _ => ⟨rfl, rfl, rfl⟩) (fun _ => rfl) h.pid, ?_⟩
      refine (fits_note_iff m true (i := (S m.kernel.curTerminal).headD 0) ?_).mpr
        (iff_of_true ?_ rfl)
      · exact h.current
      · exact windowPresent_vidmapPaging

/-- A switch between processes that agree. -/
theorem switch_fits (h : Tree m.kernel S) (hfits : m.Fits) {source target : Fin 3}
    (hagree : Agrees fs (.switch cs source target) m) :
    ∃ S', Tree (m.switch L fs cs source target).kernel S' ∧
      (m.switch L fs cs source target).Fits := by
  have hpid := showTerminal_pid source target m.kernel
  by_cases hsame : source = target
  · rw [switch, switchTerminal_same hsame]
    exact ⟨S, h, hfits⟩
  · have hagree' := hagree.resolve_left hsame
    by_cases hrun : ((showTerminal source target m.kernel).terminals target).running = 0 ∧ target ≠ 0
    · have hnew := (starts_shell_iff m.kernel source target).mp hrun
      have htree : Tree ((showTerminal source target m.kernel).startingOn target) S :=
        (h.shown source target).startingOn target
      rw [switch, switchTerminal_starts hsame hrun]
      dsimp only
      rcases hfree : freeSlot m.kernel.processes with _ | i
      · -- no slot for a shell: the terminal is shown all the same
        rw [if_pos (Or.inr hfree)] at hagree'
        rcases hexec : executeFunction L fs cs (some shellCommand)
          ((showTerminal source target m.kernel).startingOn target) with ⟨out, s'⟩
        have hnone : freeSlot ((showTerminal source target m.kernel).startingOn target).processes =
          none := hfree
        obtain ⟨hr, r, rfl⟩ := executeFunction_no_slot hnone hexec
        exact ⟨S, htree.refused hr, (fits_shown_iff hfits hr.pages (hr.pid.trans hpid)).mpr hagree'⟩
      · rw [if_neg (not_or.mpr ⟨hnew, by rw [hfree]; exact Option.some_ne_none i⟩)] at hagree'
        obtain ⟨hnot, e, hname, hinode, helf⟩ := hagree'
        obtain ⟨eip, s', hstart⟩ := executeFunction_starts
          (s := (showTerminal source target m.kernel).startingOn target) L cs hname hfree helf hinode
        obtain ⟨k, hs⟩ := executeFunction_userMode hstart
        rw [hstart]
        dsimp only
        rw [note_kernel]
        refine ⟨_, htree.started hs argsFit_shell, ?_⟩
        rw [fits_note_iff m false hs.pid, hs.windowPresent_iff]
        exact iff_of_false (fun hpresent => hnot (hfits.mp hpresent)) Bool.false_ne_true
    · have hstarted : IsStarted m.kernel target :=
        not_not.mp fun hnew => hrun ((starts_shell_iff m.kernel source target).mpr hnew)
      rw [if_pos (Or.inl hstarted)] at hagree'
      rw [switch, switchTerminal_shows hsame hrun]
      exact ⟨S, h.shown source target,
        (fits_shown_iff (s := showTerminal source target m.kernel) hfits rfl hpid).mpr hagree'⟩

theorem step {m' : Windows} (h : Tree m.kernel S) (hfits : m.Fits)
    (hstep : WindowStep L fs ArgsFit (Agrees fs) m m') : ∃ S', Tree m'.kernel S' ∧ m'.Fits := by
  cases hstep with
  | starts hagree hfit hstart =>
    obtain ⟨i, hs⟩ := executeFunction_userMode hstart
    rw [note_kernel]
    exact ⟨_, h.started hs hfit, (fits_started_iff hfits hs).mpr hagree⟩
  | halts cs status hagree hpid hi =>
    obtain ⟨p, u, hok, hs⟩ := h.halt_ok L fs cs status hpid hi
    obtain ⟨l, -, hpopped⟩ := h.halted hs hpid hi
    rw [hok]
    exact ⟨_, hpopped, (fits_halted_iff hfits hs hpid).mpr hagree⟩
  | vidmaps screenStart =>
    exact ⟨S, vidmap_fits h hfits screenStart⟩
  | switches cs source target hagree => exact switch_fits h hfits hagree

end Windows

/-- Nobody has asked for the window when the base shell starts, and its entry is not present. -/
theorem windows_boot {mem : Word → Byte} {t : PageTables} {s : Kernel} {command : List Byte}
    {i : Fin 6} (hs : Started L cs command i (bootKernel L mem t) s) :
    Windows.Fits ⟨s, fun _ => false⟩ := by
  refine iff_of_false ?_ ?_
  · rw [hs.windowPresent_iff, WindowPresent]
    simp [bootKernel, initPaging]
  · rintro ⟨k, -, hk⟩
    cases hk

/-- From the running base shell on, in any order of successful starts whose arguments
fit, halts outside slot 0, `vidmap` calls and switches: as long as control passes
between processes that agree on the window, it is present exactly if the current
process has asked for it since it was started. -/
theorem windowPresent_run {mem : Word → Byte} {t : PageTables} {s₀ : Kernel} {eip esp : Word}
    {m : Windows} (hboot : executeFunction L fs cs (some shellCommand) (bootKernel L mem t) =
      (.userMode eip esp, s₀))
    (hrun : ReflTransGen (WindowStep L fs ArgsFit (Agrees fs)) ⟨s₀, fun _ => false⟩ m) :
    WindowPresent m.kernel ↔ ∃ k : Fin 6, m.kernel.pid = k.val ∧ m.asked k = true := by
  obtain ⟨i, hs⟩ := executeFunction_userMode hboot
  have h : ∃ S, Tree m.kernel S ∧ m.Fits := by
    induction hrun with
    | refl => exact ⟨_, tree_boot hs argsFit_shell, windows_boot hs⟩
    | tail _ hstep ih =>
      obtain ⟨S, htree, hfits⟩ := ih
      exact Windows.step htree hfits hstep
  obtain ⟨S, -, hfits⟩ := h
  exact hfits

/-- The base shell has asked for the window. -/
def Sample.withWindow : Windows :=
  Windows.vidmap Sample.link 0x8048000 ⟨Sample.running, fun _ => false⟩

theorem windowPresent_run_sample : WindowPresent Sample.withWindow.kernel ↔
    ∃ k : Fin 6, Sample.withWindow.kernel.pid = k.val ∧ Sample.withWindow.asked k = true :=
  windowPresent_run (m := Sample.withWindow) Sample.execute_atBoot
    (.single (.vidmaps 0x8048000 trivial))

/-- A shell on terminal 1 starts another one, which asks for the window and halts: the
entry cleared is number 1, and the first shell finds the window present. -/
theorem window_outlives_process : ∃ m, ReflTransGen
      (WindowStep Sample.link Sample.files ArgsFit fun _ _ => True) ⟨Sample.running, fun _ => false⟩ m ∧
    WindowPresent m.kernel ∧ ¬ ∃ k : Fin 6, m.kernel.pid = k.val ∧ m.asked k = true := by
  let m₁ := Windows.switch Sample.link Sample.files Sample.site 0 1 ⟨Sample.running, fun _ => false⟩
  let s₂ := (executeFunction Sample.link Sample.files Sample.site (some shellCommand) m₁.kernel).2
  let m₃ := (m₁.note false s₂).vidmap Sample.link 0x8048000
  have hstart : executeFunction Sample.link Sample.files Sample.site (some shellCommand) m₁.kernel =
      (.userMode 0x08048018 userStack, s₂) := Prod.ext (by decide) rfl
  refine ⟨{ m₃ with kernel := (haltFunction Sample.link Sample.files Sample.site 0 m₃.kernel).state },
    (((ReflTransGen.single (.switches Sample.site 0 1 trivial)).tail
      (.starts (m := m₁) trivial argsFit_shell hstart)).tail (.vidmaps 0x8048000 trivial)).tail
      (.halts (i := 2) (m := m₃) Sample.site 0 trivial (by decide) (by decide)), ?_, ?_⟩
  · rw [WindowPresent]
    decide
  · decide

end Os391
