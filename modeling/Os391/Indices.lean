import Os391.Steps

/-!
# Which indices reach the process table

`pid`, `latest_pid` and `parent_pid` are the three sources of indices into
`processes[]`. `InTable` says that they are slots, with two exceptions: before
the first program starts `pid` is -1, and the program that is started then, in
slot 0, keeps that -1 as its parent for as long as it is active. The invariant
survives every outcome of `execute_function`, refusals in the ELF check
included, and every `halt` of a slot whose parent is a slot.
-/

namespace Os391

open Bytes

variable {L : Link} {fs : FileSystem} {cs : CallSite}

/-- The indices kept in the state are slots. -/
structure InTable (s : Kernel) : Prop where
  pid : (∃ i : Fin 6, s.pid = i.val) ∨ s.pid = -1 ∧ ∀ j, (s.processes j).active = 0
  latest : ∀ t, ∃ i : Fin 6, (s.terminals t).latestPid = i.val
  parent : ∀ j, (∃ k : Fin 6, (s.processes j).parentPid.toInt = k.val) ∨
    j = 0 ∧ (s.processes 0).active ≠ 0

/-- The parent a slot number is stored as. -/
theorem toInt_ofInt_slot (k : Fin 6) : (BitVec.ofInt 32 (k.val : Int)).toInt = k.val :=
  slot?_eq_some (slot?_ofInt k)

namespace InTable

variable {s s' : Kernel} {i p : Fin 6} {command : List Byte}

theorem boot (L : Link) (mem : Word → Byte) (t : PageTables) : InTable (bootKernel L mem t) :=
  ⟨Or.inr ⟨rfl, fun _ => rfl⟩, fun _ => ⟨0, rfl⟩, fun _ => Or.inl ⟨0, rfl⟩⟩

/-- The parent of a slot is a slot, unless it is the active slot 0. -/
theorem parent_slot (h : InTable s) (hi : ¬ (i = 0 ∧ (s.processes 0).active ≠ 0)) :
    ∃ k : Fin 6, (s.processes i).parentPid.toInt = k.val :=
  (h.parent i).resolve_right hi

/-- Calls that leave `pid`, terminals, links and activity alone. -/
theorem congr (h : InTable s) (hpid : s'.pid = s.pid) (hterm : s'.terminals = s.terminals)
    (hps : ∀ j, (s'.processes j).parentPid = (s.processes j).parentPid ∧
      (s'.processes j).active = (s.processes j).active) : InTable s' := by
  refine ⟨?_, fun t => ?_, fun j => ?_⟩
  · simp only [hpid, (hps _).2]
    exact h.pid
  · rw [hterm]
    exact h.latest t
  · rw [(hps j).1, (hps 0).2]
    exact h.parent j

theorem refused (h : InTable s) (hr : Refused s s') : InTable s' :=
  h.congr hr.pid hr.terminals fun j => by rw [hr.processes]; exact ⟨rfl, rfl⟩

theorem stalled (h : InTable s) (hs : Stalled command i s s') (hfit : ArgsFit command) :
    InTable s' := by
  refine ⟨Or.inl ⟨i, hs.pid⟩, fun t => ?_, fun j => ?_⟩
  · rw [hs.terminals]
    exact h.latest t
  · rw [(hs.words_of_fits hfit j).1, (hs.words_of_fits hfit 0).2]
    exact h.parent j

theorem started (h : InTable s) (hs : Started L cs command i s s') (hfit : ArgsFit command) :
    InTable s' := by
  refine ⟨Or.inl ⟨i, hs.pid⟩, fun t => ?_, fun j => ?_⟩
  · rw [hs.terminals]
    by_cases ht : t = s.curTerminal
    · subst ht
      exact ⟨i, by simp⟩
    · simpa [ht] using h.latest t
  · by_cases hj : j = i
    · subst hj
      rcases h.pid with ⟨k, hk⟩ | ⟨hpid, hnone⟩
      · refine Or.inl ⟨k, ?_⟩
        rw [hs.own]
        change (BitVec.ofInt 32 s.pid).toInt = k.val
        rw [hk, toInt_ofInt_slot]
      · -- the first program of all: slot 0 is the first free slot
        obtain rfl := eq_zero_of_freeSlot hs.free (hnone 0)
        exact Or.inr ⟨rfl, (hs.active_iff hfit 0).mpr (Or.inl rfl)⟩
    · rw [hs.other_of_fits hfit hj]
      exact (h.parent j).imp_right fun h0 => ⟨h0.1, (hs.active_iff hfit 0).mpr (Or.inr h0.2)⟩

/-- Every outcome of `execute_function`. -/
theorem executed (h : InTable s) (hfit : CopiesArgs fs command s → ArgsFit command)
    {out : ExecOutcome} (hexec : executeFunction L fs cs (some command) s = (out, s')) :
    InTable s' := by
  by_cases hcopies : CopiesArgs fs command s
  · rcases executeFunction_cases hexec with ⟨hr, -⟩ | ⟨i, hs, -⟩ | ⟨i, hs, -⟩
    · exact h.refused hr
    · exact h.stalled hs (hfit hcopies)
    · exact h.started hs (hfit hcopies)
  · exact h.refused (executeFunction_not_copies hcopies hexec)

theorem halted (h : InTable s) (hs : Halted L i p s s') : InTable s' := by
  refine ⟨Or.inl ⟨p, hs.pid⟩, fun t => ?_, fun j => ?_⟩
  · rw [hs.terminals]
    by_cases ht : t = s.curTerminal
    · subst ht
      exact ⟨p, by simp⟩
    · simpa [ht] using h.latest t
  · rw [hs.parentPid_eq]
    by_cases hj : ∃ k : Fin 6, (s.processes j).parentPid.toInt = k.val
    · exact Or.inl hj
    · -- only slot 0, which is not the one that halts
      obtain ⟨rfl, hact⟩ := (h.parent j).resolve_left hj
      have hne : (0 : Fin 6) ≠ i := by
        rintro rfl
        exact hj ⟨p, hs.parentPid⟩
      refine Or.inr ⟨rfl, ?_⟩
      by_cases hp : (0 : Fin 6) = p
      · subst hp
        rw [hs.parent hne.symm]
        simp
      · rw [hs.other hne hp]
        exact hact

theorem shown (h : InTable s) (source target : Fin 3) : InTable (showTerminal source target s) := by
  refine ⟨Or.inl ?_, fun t => ?_, h.parent⟩
  · obtain ⟨i, hi⟩ := h.latest target
    exact ⟨i, (showTerminal_pid source target s).trans hi⟩
  · rw [showTerminal_latestPid]
    exact h.latest t

theorem startingOn (h : InTable s) (target : Fin 3) : InTable (s.startingOn target) := by
  refine ⟨h.pid, fun t => ?_, h.parent⟩
  rw [startingOn_latestPid]
  exact h.latest t

/-- After a respawn that returned, `pid` is again a slot with a parent. -/
theorem respawned (h : InTable s) (hpid : s.pid = i.val) (hi : i ≠ 0) {r : Int}
    (hexec : executeFunction L fs cs (some respawnCommand) s = (.returned r, s')) :
    ∃ k p : Fin 6, s'.pid = k.val ∧ (s'.processes k).parentPid.toInt = p.val := by
  have h' := h.executed (fun _ => argsFit_respawn) hexec
  rcases executeFunction_cases hexec with ⟨hr, -⟩ | ⟨k, hs, -⟩ | ⟨k, hs, -⟩
  · obtain ⟨p, hp⟩ := h'.parent_slot (i := i) fun h0 => hi h0.1
    exact ⟨i, p, hr.pid.trans hpid, hp⟩
  · -- the chosen slot was inactive, and the refusal has not made it active
    have hfree : ¬ (k = 0 ∧ (s'.processes 0).active ≠ 0) := by
      rintro ⟨rfl, hact⟩
      rw [(hs.words_of_fits argsFit_respawn 0).2] at hact
      exact hact (freeSlot_eq_some.mp hs.free).1
    obtain ⟨p, hp⟩ := h'.parent_slot hfree
    exact ⟨k, p, hs.pid, hp⟩
  · refine ⟨k, i, hs.pid, ?_⟩
    rw [hs.own]
    change (BitVec.ofInt 32 s.pid).toInt = i.val
    rw [hpid, toInt_ofInt_slot]

/-- `halt` in a slot other than 0 completes, whatever the slot holds: after a respawn,
if there is one, it ends there or by the tear-down of a slot. -/
theorem haltFunction_cases (h : InTable s) (hpid : s.pid = i.val) (hi : i ≠ 0) (L : Link)
    (fs : FileSystem) (cs : CallSite) (status : Byte) :
    ∃ u out s', (u = s ∨ ∃ r, executeFunction L fs cs (some respawnCommand) s = (r, u)) ∧
      haltFunction L fs cs status s = .ok out s' ∧ (s' = u ∨ ∃ k p, Halted L k p u s') := by
  rw [haltFunction, Kernel.withSlot_of_eq hpid]
  by_cases hown : (s.processes i).pid = 0
  · rw [if_pos hown]
    rcases hexec : executeFunction L fs cs (some respawnCommand) s with ⟨r | ⟨eip, esp⟩, u⟩
    · obtain ⟨k, p, hk, hp⟩ := h.respawned hpid hi hexec
      obtain ⟨s', hok, hs⟩ := haltRest_ok L status hk hp
      exact ⟨u, _, s', Or.inr ⟨_, rfl⟩, hok, Or.inr ⟨k, p, hs⟩⟩
    · exact ⟨u, _, u, Or.inr ⟨_, rfl⟩, rfl, Or.inl rfl⟩
  · rw [if_neg hown]
    obtain ⟨p, hp⟩ := h.parent_slot (i := i) fun h0 => hi h0.1
    obtain ⟨s', hok, hs⟩ := haltRest_ok L status hpid hp
    exact ⟨s, _, s', Or.inl rfl, hok, Or.inr ⟨i, p, hs⟩⟩

end InTable

end Os391
