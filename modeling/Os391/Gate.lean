import Os391.Respawn
import Os391.Descriptors

/-!
# Which descriptors `read` and `write` accept

Both calls compare the descriptor number with `fd_ind` before they look at the
descriptor itself. `fd_ind` is one variable for all processes: every successful
`open` overwrites it, and nothing takes it back. `History` is what an observer of
the calls writes down, the open descriptors of each slot and the number the last
successful `open` returned; `Recorded` says that the kernel's state agrees with it
along every run. What the two comparisons make of an open descriptor is then a
question about these two numbers.
-/

namespace Os391

open Bytes

variable {L : Link} {fs : FileSystem} {cs : CallSite}

/-! ## The history of the calls -/

/-- The descriptors of each slot that are open, and the number `open` returned last. -/
structure History : Type where
  opens : Fin 6 → Finset (Fin 8)
  last : Fin 8

namespace History

/-- After boot: the base shell has its descriptors 0 and 1. In a slot where nothing
has been started yet the zero-initialised table leaves all eight open. -/
def booted : History := ⟨fun i => if i = 0 then {0, 1} else Finset.univ, 2⟩

/-- A call of `execute_function` that made a slot active has opened 0 and 1 there. -/
def started (s s' : Kernel) (H : History) : History :=
  { H with opens := fun i =>
      if (s.processes i).active = 0 ∧ (s'.processes i).active ≠ 0 then {0, 1} else H.opens i }

/-- `halt_function` in slot `i` closes the descriptors from 2 on. -/
def halted (i : Fin 6) (H : History) : History :=
  { H with opens := Function.update H.opens i ((H.opens i).filter fun k => k.val < 2) }

/-- A call of `open` in slot `i` that returns `r`. -/
def opened (i : Fin 6) (r : Int) (H : History) : History :=
  if 0 ≤ r then ⟨Function.update H.opens i (insert (fdIndex r) (H.opens i)), fdIndex r⟩ else H

/-- A call of `close` on `fd` in slot `i` that returns `r`. -/
def closed (i : Fin 6) (fd r : Int) (H : History) : History :=
  if r = 0 then { H with opens := Function.update H.opens i ((H.opens i).erase (fdIndex fd)) }
  else H

end History

/-- The calls of all processes from machine `m₀` on, with the history they write:
programs are executed, and arguments that are copied fit, processes halt, open and close, and
the rest of a `halt` runs, though not for slot 0. -/
inductive CallRun (L : Link) (fs : FileSystem) (m₀ : Machine) : Machine → History → Prop where
  | start : CallRun L fs m₀ m₀ .booted
  | executes {m : Machine} {H : History} (cs : CallSite) {command : List Byte} :
      CallRun L fs m₀ m H → m.mode = .user → (CopiesArgs fs command m.kernel → ArgsFit command) →
      CallRun L fs m₀ (m.executed .user (executeFunction L fs cs (some command) m.kernel))
        (H.started m.kernel (executeFunction L fs cs (some command) m.kernel).2)
  | halts {m : Machine} {H : History} (cs : CallSite) (status : Byte) :
      CallRun L fs m₀ m H → m.mode = .user →
      CallRun L fs m₀ (m.halt L fs cs status)
        (H.started m.kernel (m.halt L fs cs status).kernel)
  | finishes {m : Machine} {H : History} {status : Byte} {i : Fin 6} :
      CallRun L fs m₀ m H → m.mode = .finishing status → m.kernel.pid = i.val → i ≠ 0 →
      CallRun L fs m₀ (m.finish L status) (H.halted i)
  | opens {m : Machine} {H : History} (junk : FileOpTable) (name : Option (List Byte))
      {i : Fin 6} {r : Int} {s' : Kernel} :
      CallRun L fs m₀ m H → m.mode = .user → m.kernel.pid = i.val →
      openFunction L fs junk name m.kernel = .ok r s' →
      CallRun L fs m₀ { m with kernel := s' } (H.opened i r)
  | closes {m : Machine} {H : History} (fd : Int) {i : Fin 6} {r : Int} {s' : Kernel} :
      CallRun L fs m₀ m H → m.mode = .user → m.kernel.pid = i.val →
      closeFunction fd m.kernel = .ok r s' →
      CallRun L fs m₀ { m with kernel := s' } (H.closed i fd r)

/-! ## The kernel agrees with the history -/

/-- The `avail` fields and `fd_ind` are what the history says. -/
structure Recorded (s : Kernel) (H : History) : Prop where
  avail : ∀ j k, ((s.processes j).fdArr k).avail = if k ∈ H.opens j then 0 else 1
  last : s.fdInd = H.last

namespace Recorded

variable {s s' : Kernel} {H : History} {i p : Fin 6} {command : List Byte}

/-- A call that changes no descriptor and makes no slot active. -/
theorem kept (h : Recorded s H) (hfd : ∀ j, (s'.processes j).fdArr = (s.processes j).fdArr)
    (hactive : ∀ j, (s'.processes j).active = (s.processes j).active)
    (hlast : s'.fdInd = s.fdInd) : Recorded s' (H.started s s') := by
  refine ⟨fun j k => ?_, hlast.trans h.last⟩
  have hnot : ¬ ((s.processes j).active = 0 ∧ (s'.processes j).active ≠ 0) := by
    rw [hactive j]
    exact fun hboth => hboth.2 hboth.1
  rw [hfd j, h.avail j k, History.started]
  simp only [if_neg hnot]

theorem started (h : Recorded s H) (hs : Started L cs command i s s') (hfit : ArgsFit command) :
    Recorded s' (H.started s s') := by
  refine ⟨fun j k => ?_, hs.fdInd.trans h.last⟩
  by_cases hj : j = i
  · subst hj
    -- the slot was free and is active now
    have hnew : (s.processes j).active = 0 ∧ (s'.processes j).active ≠ 0 :=
      ⟨(freeSlot_eq_some.mp hs.free).1, (hs.active_iff hfit j).mpr (Or.inl rfl)⟩
    rw [hs.own, History.started]
    simp only [if_pos hnew]
    fin_cases k <;> rfl
  · have hnot : ¬ ((s.processes j).active = 0 ∧ (s'.processes j).active ≠ 0) := by
      rw [hs.other_of_fits hfit hj]
      exact fun hboth => hboth.2 hboth.1
    rw [hs.other_of_fits hfit hj, h.avail j k, History.started]
    simp only [if_neg hnot]

/-- Every outcome of `execute_function`. -/
theorem executed (h : Recorded s H) (hfit : CopiesArgs fs command s → ArgsFit command)
    {out : ExecOutcome} (hexec : executeFunction L fs cs (some command) s = (out, s')) :
    Recorded s' (H.started s s') := by
  have hrefused : Refused s s' → Recorded s' (H.started s s') := fun hr =>
    h.kept (fun j => by rw [hr.processes]) (fun j => by rw [hr.processes]) hr.fdInd
  by_cases hcopies : CopiesArgs fs command s
  · have hfit := hfit hcopies
    rcases executeFunction_cases hexec with ⟨hr, -⟩ | ⟨i, hs, -⟩ | ⟨i, hs, -⟩
    · exact hrefused hr
    · exact h.kept (hs.fdArr_of_fits hfit) (fun j => (hs.words_of_fits hfit j).2) hs.fdInd
    · exact h.started hs hfit
  · exact hrefused (executeFunction_not_copies hcopies hexec)

theorem halted (h : Recorded s H) (hs : Halted L i p s s') : Recorded s' (H.halted i) := by
  refine ⟨fun j k => ?_, hs.fdInd.trans h.last⟩
  rw [hs.fdArr_eq, History.halted]
  by_cases hj : j = i
  · subst hj
    simp only [if_true, Function.update_self, Finset.mem_filter, Pcb.closed_avail, h.avail]
    by_cases hk : k.val < 2
    · simp only [hk, and_true, if_true]
    · simp only [hk, and_false, if_false]
  · simp [hj, h.avail j k]

theorem opened (h : Recorded s H) {junk : FileOpTable} {name : Option (List Byte)} {r : Int}
    (hpid : s.pid = i.val) (hr : openFunction L fs junk name s = .ok r s') :
    Recorded s' (H.opened i r) := by
  rcases openFunction_cases hpid hr with ⟨rfl, rfl⟩ | ⟨fd, e, -, rfl, rfl⟩
  · exact h
  · rw [History.opened, if_pos (Int.natCast_nonneg _), fdIndex_val]
    refine ⟨fun j k => ?_, rfl⟩
    by_cases hj : j = i
    · subst hj
      by_cases hk : k = fd
      · subst hk
        simp [Kernel.openAt, openDescriptor]
      · simp [Kernel.openAt, hk, h.avail j k]
    · simp [Kernel.openAt, hj, h.avail j k]

theorem closed (h : Recorded s H) {fd r : Int} (hpid : s.pid = i.val)
    (hr : closeFunction fd s = .ok r s') : Recorded s' (H.closed i fd r) := by
  rcases closeFunction_cases hpid hr with ⟨rfl, rfl⟩ | ⟨k, rfl, rfl, rfl⟩
  · exact h
  · rw [History.closed, if_pos rfl, fdIndex_val]
    refine ⟨fun j l => ?_, by simpa using h.last⟩
    by_cases hj : j = i
    · subst hj
      by_cases hl : l = k
      · subst hl
        simp [FileDescriptor.freed]
      · simp [hl, h.avail j l]
    · simp [hj, h.avail j l]

/-- The state in which the base shell starts. -/
theorem booted {mem : Word → Byte} {t : PageTables}
    (hs : Started L cs command i (bootKernel L mem t) s) (hfit : ArgsFit command) :
    Recorded s .booted := by
  obtain rfl := eq_zero_of_freeSlot hs.free rfl
  refine ⟨fun j k => ?_, hs.fdInd⟩
  by_cases hj : j = 0
  · subst hj
    rw [hs.own]
    fin_cases k <;> rfl
  · rw [hs.other_of_fits hfit hj]
    simp [History.booted, hj, bootKernel, Pcb.zero, FileDescriptor.zero]

end Recorded

/-! ## Runs -/

/-- Along a run indices stay in the table, and the kernel agrees with the history. -/
structure Tracked (m : Machine) (H : History) : Prop where
  sound : Sound m
  recorded : Recorded m.kernel H

namespace Tracked

variable {m : Machine} {H : History} {i : Fin 6} {s' : Kernel} {r : Int}

theorem executes (h : Tracked m H) {command : List Byte}
    (hfit : CopiesArgs fs command m.kernel → ArgsFit command) (cs : CallSite) (caller : Caller) :
    Tracked (m.executed caller (executeFunction L fs cs (some command) m.kernel))
      (H.started m.kernel (executeFunction L fs cs (some command) m.kernel).2) := by
  refine ⟨h.sound.executed hfit cs caller, ?_⟩
  rw [Machine.executed_kernel]
  exact h.recorded.executed hfit rfl

theorem halts (h : Tracked m H) (cs : CallSite) (status : Byte) :
    Tracked (m.halt L fs cs status) (H.started m.kernel (m.halt L fs cs status).kernel) := by
  refine ⟨h.sound.halts cs status, ?_⟩
  obtain ⟨i, hpid⟩ := Sound.slot h.sound.indices h.sound.base
  rw [Machine.halt_eq hpid]
  split
  · rw [Machine.executed_kernel]
    exact h.recorded.executed (fun _ => argsFit_respawn) rfl
  · -- nothing has happened yet
    exact h.recorded.kept (fun _ => rfl) (fun _ => rfl) rfl

theorem finishes (h : Tracked m H) (hpid : m.kernel.pid = i.val) (hi : i ≠ 0) (status : Byte) :
    Tracked (m.finish L status) (H.halted i) := by
  have hnot : NotBase m.kernel := fun h0 => hi (slot_inj hpid h0)
  refine ⟨h.sound.finishes hnot status, ?_⟩
  obtain ⟨p, hp⟩ := h.sound.indices.parent_slot (i := i) fun h0 => hi h0.1
  obtain ⟨s, hok, hs⟩ := Machine.finish_ok L status hpid hp
  rw [hok]
  exact h.recorded.halted hs

theorem opens (h : Tracked m H) (hmode : m.mode = .user) (hpid : m.kernel.pid = i.val)
    {junk : FileOpTable} {name : Option (List Byte)}
    (hr : openFunction L fs junk name m.kernel = .ok r s') :
    Tracked { m with kernel := s' } (H.opened i r) := by
  refine ⟨?_, h.recorded.opened hpid hr⟩
  rcases openFunction_cases hpid hr with ⟨-, rfl⟩ | ⟨fd, e, -, -, rfl⟩
  · exact h.sound
  · exact h.sound.returned hmode rfl rfl (m.kernel.setFd_words i fd _)

theorem closes (h : Tracked m H) (hmode : m.mode = .user) (hpid : m.kernel.pid = i.val) {fd : Int}
    (hr : closeFunction fd m.kernel = .ok r s') :
    Tracked { m with kernel := s' } (H.closed i fd r) := by
  refine ⟨?_, h.recorded.closed hpid hr⟩
  rcases closeFunction_cases hpid hr with ⟨-, rfl⟩ | ⟨k, -, -, rfl⟩
  · exact h.sound
  · exact h.sound.returned hmode rfl rfl (m.kernel.setFd_words i k _)

end Tracked

/-- Every state of a run. -/
theorem CallRun.tracked {m₀ m : Machine} {H : History} (h₀ : Tracked m₀ .booted)
    (hrun : CallRun L fs m₀ m H) : Tracked m H := by
  induction hrun with
  | start => exact h₀
  | executes cs _ _ hfit ih => exact ih.executes hfit cs .user
  | halts cs status _ _ ih => exact ih.halts cs status
  | finishes _ _ hpid hi ih => exact ih.finishes hpid hi _
  | opens junk name _ hmode hpid hr ih => exact ih.opens hmode hpid hr
  | closes fd _ hmode hpid hr ih => exact ih.closes hmode hpid hr

/-- The base shell just started. -/
theorem tracked_booted {mem : Word → Byte} {t : PageTables} {s₀ : Kernel} {eip esp : Word}
    (hboot : executeFunction L fs cs (some shellCommand) (bootKernel L mem t) =
      (.userMode eip esp, s₀)) : Tracked (.booted s₀) .booted := by
  obtain ⟨i, hs⟩ := executeFunction_userMode hboot
  exact ⟨.booted hs argsFit_shell, .booted hs argsFit_shell⟩

/-! ## The check of `read` and `write` -/

/-- A number names an open descriptor. -/
def IsOpen (O : Finset (Fin 8)) (fd : Int) : Prop := ∃ k ∈ O, fd = k.val

/-- A call of `read` or `write` on `fd` in a process with PCB `p` and open descriptors
`O`, where `invoke` is the call through a function pointer. If `fd` is open the check
passes and the call is the call through the pointer of that descriptor; otherwise the
check fails, and the call returns -1 and changes nothing. -/
structure CallMeets (ptr : FileOpTable → Word) (invoke : Word → Result Answer) (p : Pcb)
    (O : Finset (Fin 8)) (fd : Int) (s : Kernel) (check : Result (Option Word))
    (call : Result Answer) : Prop where
  invokes : ∀ k ∈ O, fd = k.val → check = .ok (some (ptr (p.fdArr k).fileOpTable)) s ∧
    call = invoke (ptr (p.fdArr k).fileOpTable)
  refuses : ¬ IsOpen O fd → check = .ok none s ∧ call = .ok (.ret (-1)) s

/-- The common shape of `read_function` and `write_function`: -1 unless the check gave a
pointer, and otherwise the call through it. -/
def Dispatches (s : Kernel) (invoke : Word → Result Answer) (check : Result (Option Word))
    (call : Result Answer) : Prop :=
  (check = .ok none s → call = .ok (.ret (-1)) s) ∧
    ∀ ptr, check = .ok (some ptr) s → call = invoke ptr

theorem readFunction_dispatches (L : Link) (fs : FileSystem) (fd : Int) (buf : Word) (nbytes : Int)
    (s : Kernel) : Dispatches s (fun ptr => callRead L fs ptr fd buf nbytes s) (readGate fd s)
      (readFunction L fs fd buf nbytes s) := by
  refine ⟨fun hnone => ?_, fun ptr hsome => ?_⟩
  · rw [readFunction, hnone, Result.bind_ok]
  · rw [readFunction, hsome, Result.bind_ok]

theorem writeFunction_dispatches (L : Link) (fd : Int) (buf : Word) (nbytes : Int) (s : Kernel) :
    Dispatches s (fun ptr => callWrite L ptr buf nbytes s) (writeGate fd s)
      (writeFunction L fd buf nbytes s) := by
  refine ⟨fun hnone => ?_, fun ptr hsome => ?_⟩
  · rw [writeFunction, hnone, Result.bind_ok]
  · rw [writeFunction, hsome, Result.bind_ok]

/-- What the comparison with `fd_ind` means for a call: it must not exclude an open
descriptor. -/
theorem callMeets_iff {s : Kernel} {H : History} (h : Recorded s H) {i : Fin 6}
    (hpid : s.pid = i.val) {fd : Int} {outside : Bool} (hrange : 7 < fd → outside = true)
    {ptr : FileOpTable → Word} {invoke : Word → Result Answer} {call : Result Answer}
    (hcall : Dispatches s invoke (gate outside fd ptr s) call) :
    CallMeets ptr invoke (s.processes i) (H.opens i) fd s (gate outside fd ptr s) call ↔
      (IsOpen (H.opens i) fd → outside = false) := by
  by_cases hout : fd < 0 ∨ outside = true
  · -- refused by its number alone
    have hnone : gate outside fd ptr s = .ok none s := if_pos hout
    constructor
    · rintro hmeets ⟨k, hk, rfl⟩
      have hsome := (hmeets.invokes k hk rfl).1.symm.trans hnone
      cases hsome
    · intro himp
      refine ⟨?_, fun _ => ⟨hnone, hcall.1 hnone⟩⟩
      rintro k hk rfl
      have hin := himp ⟨k, hk, rfl⟩
      exact absurd hout (by simp [hin])
  · -- the number is in range, and `avail` decides
    have hfalse : outside = false := by simpa using fun ho => hout (Or.inr ho)
    have hval := fdIndex_val_eq fd (by omega) (by
      by_contra h7
      exact hout (Or.inr (hrange (by omega))))
    have hgate : gate outside fd ptr s =
        if fdIndex fd ∈ H.opens i then
          .ok (some (ptr ((s.processes i).fdArr (fdIndex fd)).fileOpTable)) s
        else .ok none s := by
      rw [gate, if_neg hout, Kernel.withSlot_of_eq hpid]
      simp only [h.avail i (fdIndex fd)]
      split <;> simp
    refine iff_of_true ⟨?_, fun hclosed => ?_⟩ fun _ => hfalse
    · rintro k hk rfl
      rw [fdIndex_val, if_pos hk] at hgate
      exact ⟨hgate, hcall.2 _ hgate⟩
    · have hnot : fdIndex fd ∉ H.opens i := fun hk => hclosed ⟨_, hk, hval.symm⟩
      have hnone : gate outside fd ptr s = .ok none s := hgate.trans (if_neg hnot)
      exact ⟨hnone, hcall.1 hnone⟩

section calls

variable {s : Kernel} {H : History} {i : Fin 6}

/-- `read` meets its purpose for the descriptors up to the last one opened. -/
theorem readFunction_meets_iff (h : Recorded s H) (hpid : s.pid = i.val) (fd : Int) (buf : Word)
    (nbytes : Int) :
    CallMeets FileOpTable.readPtr (fun ptr => callRead L fs ptr fd buf nbytes s) (s.processes i)
      (H.opens i) fd s (readGate fd s) (readFunction L fs fd buf nbytes s) ↔
        (IsOpen (H.opens i) fd → fd ≤ H.last.val) := by
  have hlast := H.last.isLt
  have hrange : 7 < fd → decide (fd > s.fdInd.val) = true := fun h7 => by
    rw [h.last, decide_eq_true_eq]
    omega
  refine (callMeets_iff h hpid hrange (readFunction_dispatches L fs fd buf nbytes s)).trans ?_
  rw [h.last, decide_eq_false_iff_not, not_lt]

/-- `write` does so for the descriptors below the last one opened. -/
theorem writeFunction_meets_iff (h : Recorded s H) (hpid : s.pid = i.val) (fd : Int) (buf : Word)
    (nbytes : Int) :
    CallMeets FileOpTable.writePtr (fun ptr => callWrite L ptr buf nbytes s) (s.processes i)
      (H.opens i) fd s (writeGate fd s) (writeFunction L fd buf nbytes s) ↔
        (IsOpen (H.opens i) fd → fd < H.last.val) := by
  have hlast := H.last.isLt
  have hrange : 7 < fd → decide (fd ≥ s.fdInd.val) = true := fun h7 => by
    rw [h.last, decide_eq_true_eq]
    omega
  refine (callMeets_iff h hpid hrange (writeFunction_dispatches L fd buf nbytes s)).trans ?_
  rw [h.last, decide_eq_false_iff_not, not_le]

end calls

/-- In every state of a run `read` and `write` accept the open descriptors of the
current process and refuse every other number, except that `read` refuses those above
the number `open` returned last, to whatever process, and `write` that number as well. -/
theorem accepts_run {mem : Word → Byte} {t : PageTables} {s₀ : Kernel} {eip esp : Word}
    {m : Machine} {H : History}
    (hboot : executeFunction L fs cs (some shellCommand) (bootKernel L mem t) =
      (.userMode eip esp, s₀))
    (hrun : CallRun L fs (.booted s₀) m H) :
    ∃ i : Fin 6, m.kernel.pid = i.val ∧ ∀ fd buf nbytes,
      (CallMeets FileOpTable.readPtr (fun ptr => callRead L fs ptr fd buf nbytes m.kernel)
          (m.kernel.processes i) (H.opens i) fd m.kernel (readGate fd m.kernel)
          (readFunction L fs fd buf nbytes m.kernel) ↔
        (IsOpen (H.opens i) fd → fd ≤ H.last.val)) ∧
      (CallMeets FileOpTable.writePtr (fun ptr => callWrite L ptr buf nbytes m.kernel)
          (m.kernel.processes i) (H.opens i) fd m.kernel (writeGate fd m.kernel)
          (writeFunction L fd buf nbytes m.kernel) ↔
        (IsOpen (H.opens i) fd → fd < H.last.val)) := by
  have h := hrun.tracked (tracked_booted hboot)
  obtain ⟨i, hpid⟩ := Sound.slot h.sound.indices h.sound.base
  exact ⟨i, hpid, fun fd buf nbytes => ⟨readFunction_meets_iff h.recorded hpid fd buf nbytes,
    writeFunction_meets_iff h.recorded hpid fd buf nbytes⟩⟩

/-- The RTC has been opened in slot 0 at descriptor `fd`. -/
def Sample.rtcAt (fd : Fin 8) (s : Kernel) : Kernel :=
  s.openAt Sample.link ⟨0, 0, 0, 0⟩ (Sample.files.entry 2) 0 fd

theorem Sample.open_rtc (fd : Fin 8) {s : Kernel} (hpid : s.pid = (0 : Fin 6).val)
    (hfree : firstAvailable (s.processes 0) = some fd) :
    openFunction Sample.link Sample.files ⟨0, 0, 0, 0⟩ (some Sample.rtc) s =
      .ok fd.val (Sample.rtcAt fd s) :=
  openFunction_found hpid (by decide) hfree

/-- The base shell opens the RTC, which is descriptor 2. -/
theorem Sample.run_rtc : CallRun Sample.link Sample.files (.booted Sample.running)
    { Machine.booted Sample.running with kernel := Sample.rtcAt 2 Sample.running }
    (History.booted.opened 0 2) :=
  .opens ⟨0, 0, 0, 0⟩ (some Sample.rtc) .start rfl (i := 0) (by decide)
    (Sample.open_rtc 2 (by decide) (by decide))

/-- The base shell can read from the descriptor it has just opened. -/
theorem accepts_run_sample : ∃ m H, CallRun Sample.link Sample.files (.booted Sample.running) m H ∧
    IsOpen (H.opens 0) 2 ∧ ∃ i : Fin 6, m.kernel.pid = i.val ∧
      CallMeets FileOpTable.readPtr
        (fun ptr => callRead Sample.link Sample.files ptr 2 0x8000000 4 m.kernel)
        (m.kernel.processes i) (H.opens i) 2 m.kernel (readGate 2 m.kernel)
        (readFunction Sample.link Sample.files 2 0x8000000 4 m.kernel) := by
  obtain ⟨i, hpid, hmeets⟩ := accepts_run Sample.execute_atBoot Sample.run_rtc
  exact ⟨_, _, Sample.run_rtc, ⟨2, by decide, rfl⟩, i, hpid,
    (hmeets 2 0x8000000 4).1.mpr fun _ => by decide⟩

/-- It cannot write to it; and once it has opened the RTC twice, closed descriptor 2
and opened it again, it cannot read from descriptor 3 either. -/
theorem open_not_accepted : ∃ m H m' H',
    CallRun Sample.link Sample.files (.booted Sample.running) m H ∧
    CallRun Sample.link Sample.files (.booted Sample.running) m' H' ∧
    m.kernel.pid = 0 ∧ IsOpen (H.opens 0) 2 ∧
    writeFunction Sample.link 2 0x8000000 4 m.kernel = .ok (.ret (-1)) m.kernel ∧
    ¬ CallMeets FileOpTable.writePtr (fun ptr => callWrite Sample.link ptr 0x8000000 4 m.kernel)
      (m.kernel.processes 0) (H.opens 0) 2 m.kernel (writeGate 2 m.kernel)
      (writeFunction Sample.link 2 0x8000000 4 m.kernel) ∧
    m'.kernel.pid = 0 ∧ IsOpen (H'.opens 0) 3 ∧
    readFunction Sample.link Sample.files 3 0x8000000 4 m'.kernel = .ok (.ret (-1)) m'.kernel ∧
    ¬ CallMeets FileOpTable.readPtr
      (fun ptr => callRead Sample.link Sample.files ptr 3 0x8000000 4 m'.kernel)
      (m'.kernel.processes 0) (H'.opens 0) 3 m'.kernel (readGate 3 m'.kernel)
      (readFunction Sample.link Sample.files 3 0x8000000 4 m'.kernel) := by
  have htwice := Sample.run_rtc.opens (i := 0) ⟨0, 0, 0, 0⟩ (some Sample.rtc) rfl (by decide)
    (Sample.open_rtc 3 (by decide) (by decide))
  have hclosed := htwice.closes (i := 0) 2 rfl (by decide)
    (closeFunction_frees (i := 0) (k := 2) (by decide) (by decide) (by decide))
  have hagain := hclosed.opens (i := 0) ⟨0, 0, 0, 0⟩ (some Sample.rtc) rfl (by decide)
    (Sample.open_rtc 2 (by decide) (by decide))
  have hopen₂ : IsOpen ((History.booted.opened 0 2).opens 0) 2 := ⟨2, by decide, rfl⟩
  have hopen₃ : IsOpen (((((History.booted.opened 0 2).opened 0 3).closed 0 2 0).opened 0 2).opens 0)
      3 := ⟨3, by decide, rfl⟩
  have h := Sample.run_rtc.tracked (tracked_booted Sample.execute_atBoot)
  have h' := hagain.tracked (tracked_booted Sample.execute_atBoot)
  refine ⟨_, _, _, _, Sample.run_rtc, hagain, by decide, hopen₂, rfl, ?_, by decide, hopen₃, rfl, ?_⟩
  · rw [writeFunction_meets_iff h.recorded (i := 0) (by decide)]
    exact fun himp => absurd (himp hopen₂) (by decide)
  · rw [readFunction_meets_iff h'.recorded (i := 0) (by decide)]
    exact fun himp => absurd (himp hopen₃) (by decide)

end Os391
