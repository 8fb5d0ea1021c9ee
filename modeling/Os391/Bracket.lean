import Os391.Descriptors
import Os391.Overrun

/-!
# Execute and the matching halt

A process that executes a program waits until that program halts; in between the
program makes calls of its own and executes and waits for others. `Session` is
what goes on between the two: calls and complete brackets of an `execute` and the
`halt` that ends it. No session reaches a slot that was taken when it began, and
so `bracket_restores`: the waiting process finds everything as it left it.
-/

namespace Os391

open Bytes

variable {L : Link} {fs : FileSystem} {cs : CallSite}

/-! ## Steps local to one slot -/

/-- The fields of a PCB that `execute` sets and only `halt` looks at. -/
structure SameLinks (p q : Pcb) : Prop where
  pid : q.pid = p.pid
  parentPid : q.parentPid = p.parentPid
  savedEsp : q.savedEsp = p.savedEsp
  savedEbp : q.savedEbp = p.savedEbp
  active : q.active = p.active

theorem SameLinks.refl (p : Pcb) : SameLinks p p := ⟨rfl, rfl, rfl, rfl, rfl⟩

theorem SameLinks.trans {p q r : Pcb} (h : SameLinks p q) (h' : SameLinks q r) : SameLinks p r :=
  ⟨h'.pid.trans h.pid, h'.parentPid.trans h.parentPid, h'.savedEsp.trans h.savedEsp,
    h'.savedEbp.trans h.savedEbp, h'.active.trans h.active⟩

/-- A step that touches descriptors and arguments of slot `i` at most. -/
structure LocalTo (i : Fin 6) (s s' : Kernel) : Prop where
  pid : s'.pid = s.pid
  curTerminal : s'.curTerminal = s.curTerminal
  tss : s'.tss = s.tss
  links : SameLinks (s.processes i) (s'.processes i)
  others : ∀ j, j ≠ i → s'.processes j = s.processes j

namespace LocalTo

variable {i : Fin 6} {s s' t : Kernel}

theorem of_eq (hpid : s'.pid = s.pid) (hcur : s'.curTerminal = s.curTerminal)
    (htss : s'.tss = s.tss) (hps : s'.processes = s.processes) : LocalTo i s s' :=
  ⟨hpid, hcur, htss, by rw [hps]; exact SameLinks.refl _, fun j _ => by rw [hps]⟩

theorem refl (s : Kernel) : LocalTo i s s := of_eq rfl rfl rfl rfl

theorem trans (h : LocalTo i s s') (h' : LocalTo i s' t) : LocalTo i s t :=
  ⟨h'.pid.trans h.pid, h'.curTerminal.trans h.curTerminal, h'.tss.trans h.tss,
    h.links.trans h'.links, fun j hj => (h'.others j hj).trans (h.others j hj)⟩

theorem setFd (fd : Fin 8) (d : FileDescriptor) :
    LocalTo i s (s.setPcb i ((s.processes i).setFd fd d)) := by
  refine ⟨rfl, rfl, rfl, ?_, fun j hj => ?_⟩
  · rw [Kernel.setPcb_processes_self]
    exact ⟨rfl, rfl, rfl, rfl, rfl⟩
  · simp [hj]

theorem storeBytes (va : Word) (bs : Stores) : LocalTo i s (s.storeBytes L va bs) :=
  of_eq rfl rfl rfl rfl

variable {junk : FileOpTable} {name : Option (List Byte)}

theorem openFunction (hpid : s.pid = i.val) {r : Int}
    (h : openFunction L fs junk name s = .ok r s') : LocalTo i s s' := by
  rcases openFunction_cases hpid h with ⟨-, rfl⟩ | ⟨fd, e, -, -, rfl⟩
  · exact refl _
  · -- the descriptor is written, then `fd_ind`
    exact (setFd fd _).trans (of_eq rfl rfl rfl rfl)

theorem closeFunction (hpid : s.pid = i.val) {fd r : Int} (h : closeFunction fd s = .ok r s') :
    LocalTo i s s' := by
  rcases closeFunction_cases hpid h with ⟨-, rfl⟩ | ⟨k, -, -, rfl⟩
  · exact refl _
  · exact setFd k _

theorem filesystemRead (hpid : s.pid = i.val) {fd nbytes : Int} {a : Int × Stores}
    (h : filesystemRead fs fd nbytes s = .ok a s') : LocalTo i s s' := by
  rw [Os391.filesystemRead, Kernel.withSlot_of_eq hpid] at h
  dsimp only at h
  split at h
  · cases h
    exact refl s
  · split at h
    · cases h
    · split at h
      · cases h
        exact setFd _ _
      · cases h
        exact setFd _ _

theorem dirRead (hpid : s.pid = i.val) {fd : Int} {a : Int × Stores}
    (h : dirRead fs fd s = .ok a s') : LocalTo i s s' := by
  rw [Os391.dirRead, Kernel.withSlot_of_eq hpid] at h
  split at h
  · cases h
    exact refl s
  · dsimp only at h
    split at h
    · cases h
      exact refl s
    · cases h
      exact setFd _ _

theorem terminalRead {nbytes : Int} : LocalTo i s (terminalRead nbytes s).2 := by
  rw [Os391.terminalRead]
  dsimp only
  split <;> exact of_eq rfl rfl rfl rfl

theorem rtcRead : LocalTo i s (rtcRead s).2 := by
  rw [Os391.rtcRead]
  split <;> exact of_eq rfl rfl rfl rfl

/-- The stores of a driver that has returned. -/
theorem deliver {r : Result (Int × Stores)} {buf : Word} {a : Answer}
    (hr : ∀ x t, r = .ok x t → LocalTo i s t) (h : r.bind (deliver L buf) = .ok a s') :
    LocalTo i s s' := by
  rcases r with ⟨x, t⟩ | ⟨k, t⟩
  · rw [Result.bind_ok, Os391.deliver] at h
    cases h
    exact (hr x t rfl).trans (storeBytes buf x.2)
  · cases h

theorem callRead (hpid : s.pid = i.val) {ptr buf : Word} {fd nbytes : Int} {a : Answer}
    (h : callRead L fs ptr fd buf nbytes s = .ok a s') : LocalTo i s s' := by
  rw [Os391.callRead] at h
  split at h
  · exact deliver (fun x t ht => filesystemRead hpid ht) h
  · exact deliver (fun x t ht => dirRead hpid ht) h
  · have hlocal : LocalTo i s (Os391.terminalRead nbytes s).2 := terminalRead
    split at h
    · next a' t ht =>
      rw [ht] at hlocal
      cases h
      exact hlocal.trans (storeBytes buf a'.2)
    · next t ht =>
      rw [ht] at hlocal
      cases h
      exact hlocal
  · have hlocal : LocalTo i s (Os391.rtcRead s).2 := rtcRead
    split at h
    · next t ht =>
      rw [ht] at hlocal
      cases h
      exact hlocal
    · next t ht =>
      rw [ht] at hlocal
      cases h
      exact hlocal
  · cases h
    exact refl s
  · cases h
    exact refl s

theorem readFunction (hpid : s.pid = i.val) {fd nbytes : Int} {buf : Word} {a : Answer}
    (h : readFunction L fs fd buf nbytes s = .ok a s') : LocalTo i s s' := by
  rw [Os391.readFunction, readGate, gate] at h
  split at h
  · cases h
    exact refl s
  · rw [Kernel.withSlot_of_eq hpid] at h
    dsimp only at h
    split at h
    · cases h
      exact refl s
    · exact callRead hpid h

theorem rtcWrite {frequency : Word} : LocalTo i s (rtcWrite frequency s).2 := by
  rw [Os391.rtcWrite]
  dsimp only
  split
  · split <;> exact of_eq rfl rfl rfl rfl
  · exact of_eq rfl rfl rfl rfl

theorem callWrite {ptr buf : Word} {nbytes : Int} {a : Answer}
    (h : callWrite L ptr buf nbytes s = .ok a s') : LocalTo i s s' := by
  rw [Os391.callWrite] at h
  split at h
  · cases h
    exact of_eq rfl rfl rfl rfl
  · cases h
    exact rtcWrite
  all_goals
    cases h
    exact refl s

theorem writeFunction (hpid : s.pid = i.val) {fd nbytes : Int} {buf : Word} {a : Answer}
    (h : writeFunction L fd buf nbytes s = .ok a s') : LocalTo i s s' := by
  rw [Os391.writeFunction, writeGate, gate] at h
  split at h
  · cases h
    exact refl s
  · rw [Kernel.withSlot_of_eq hpid] at h
    dsimp only at h
    split at h
    · cases h
      exact refl s
    · exact callWrite h

theorem vidmapFunction (screenStart : Word) : LocalTo i s (vidmapFunction L screenStart s).2 := by
  rw [Os391.vidmapFunction]
  split
  · exact refl s
  · split
    · exact refl s
    · exact of_eq rfl rfl rfl rfl

theorem getargsFunction (hpid : s.pid = i.val) {buf : Word} {nbytes r : Int}
    (h : getargsFunction L buf nbytes s = .ok r s') : LocalTo i s s' := by
  rw [Os391.getargsFunction, Kernel.withSlot_of_eq hpid] at h
  cases h
  exact storeBytes buf _

theorem refused (h : Refused s s') : LocalTo i s s' := of_eq h.pid h.curTerminal h.tss h.processes

end LocalTo

/-! ## Sessions -/

/-- The `n` bytes from a virtual address on lie outside the kernel's own 4 MB page.
What lies inside it are the variables of `Kernel`. -/
def OutsideKernel (buf : Word) (n : ℕ) : Prop :=
  ∀ k < n, (buf + BitVec.ofNat 32 k).toNat < 0x400000 ∨ 0x800000 ≤ (buf + BitVec.ofNat 32 k).toNat

/-- No call with this `nbytes` stores further from its buffer. -/
def reach (nbytes : Int) : ℕ := max 32 (BitVec.ofInt 32 nbytes).toNat

/-- A call a process makes for itself: on descriptors, on its arguments, on its video
memory, or an `execute` that is refused before a slot is taken. -/
inductive OwnCall (L : Link) (fs : FileSystem) (s s' : Kernel) : Prop where
  | opens (junk : FileOpTable) (name : Option (List Byte)) (r : Int) :
      openFunction L fs junk name s = .ok r s' → OwnCall L fs s s'
  | closes (fd r : Int) : closeFunction fd s = .ok r s' → OwnCall L fs s s'
  | reads (fd : Int) (buf : Word) (nbytes : Int) (a : Answer) : OutsideKernel buf (reach nbytes) →
      readFunction L fs fd buf nbytes s = .ok a s' → OwnCall L fs s s'
  | writes (fd : Int) (buf : Word) (nbytes : Int) (a : Answer) :
      writeFunction L fd buf nbytes s = .ok a s' → OwnCall L fs s s'
  | getargs (buf : Word) (nbytes r : Int) : OutsideKernel buf (reach nbytes) →
      getargsFunction L buf nbytes s = .ok r s' → OwnCall L fs s s'
  | vidmaps (screenStart : Word) (r : Int) : vidmapFunction L screenStart s = (r, s') →
      OwnCall L fs s s'
  | refused (cs : CallSite) (command : List Byte) (r : Int) :
      fs.readDentryByName (commandName command) = none ∨ freeSlot s.processes = none →
      executeFunction L fs cs (some command) s = (.returned r, s') → OwnCall L fs s s'

theorem OwnCall.localTo {i : Fin 6} {s s' : Kernel} (hpid : s.pid = i.val)
    (h : OwnCall L fs s s') : LocalTo i s s' := by
  cases h with
  | opens junk name r h => exact LocalTo.openFunction hpid h
  | closes fd r h => exact LocalTo.closeFunction hpid h
  | reads fd buf nbytes a _ h => exact LocalTo.readFunction hpid h
  | writes fd buf nbytes a h => exact LocalTo.writeFunction hpid h
  | getargs buf nbytes r _ h => exact LocalTo.getargsFunction hpid h
  | vidmaps screenStart r h =>
    have hlocal : LocalTo i s (vidmapFunction L screenStart s).2 :=
      LocalTo.vidmapFunction screenStart
    rwa [h] at hlocal
  | refused cs command r hwhy h =>
    rcases hwhy with hname | hfree
    · rw [executeFunction_unknown hname] at h
      cases h
      exact LocalTo.refl s
    · exact LocalTo.refused (executeFunction_no_slot hfree h).1

/-- What the current process and its descendants do until it is about to halt, with
the slots that are used on the way. Executed commands satisfy `C`. -/
inductive Session (L : Link) (fs : FileSystem) (C : List Byte → Prop) :
    Kernel → Finset (Fin 6) → Kernel → Prop where
  | nil (s : Kernel) : Session L fs C s ∅ s
  | call {s s' t : Kernel} {U : Finset (Fin 6)} :
      OwnCall L fs s s' → Session L fs C s' U t → Session L fs C s U t
  | bracket {s s₁ s₂ t : Kernel} {U V : Finset (Fin 6)} {i : Fin 6} {cs cs' : CallSite}
      {command : List Byte} {eip esp : Word} {status : Byte} : C command →
      executeFunction L fs cs (some command) s = (.userMode eip esp, s₁) → s₁.pid = i.val →
      Session L fs C s₁ U s₂ → Session L fs C (haltFunction L fs cs' status s₂).state V t →
      Session L fs C s (insert i (U ∪ V)) t

/-- A slot a program has left: inactive, descriptors 2 to 7 free, arguments zero. -/
structure Vacated (p : Pcb) : Prop where
  active : p.active = 0
  closed : ∀ k : Fin 8, 2 ≤ k.val → (p.fdArr k).avail = 1
  args : ∀ k, p.args k = 0

theorem vacated_cleared (p : Pcb) : Vacated p.closed.cleared := by
  refine ⟨rfl, fun k hk => ?_, fun _ => rfl⟩
  simp [Pcb.closed, Pcb.cleared, hk]

/-- What a session that runs in slot `i` leaves alone, and what it leaves behind. -/
structure SessionInv (i : Fin 6) (U : Finset (Fin 6)) (s t : Kernel) : Prop where
  pid : t.pid = i.val
  curTerminal : t.curTerminal = s.curTerminal
  esp0 : t.tss.esp0 = kernelStackTop i.val
  links : SameLinks (s.processes i) (t.processes i)
  wasFree : ∀ j ∈ U, j ≠ i ∧ (s.processes j).active = 0
  vacated : ∀ j ∈ U, Vacated (t.processes j)
  others : ∀ j, j ∉ U → j ≠ i → t.processes j = s.processes j

/-- What the process in slot `p` finds after a program it executed has halted that,
with its descendants, used the slots `U`. -/
structure Restored (p : Fin 6) (U : Finset (Fin 6)) (s t : Kernel) : Prop where
  pid : t.pid = p.val
  curTerminal : t.curTerminal = s.curTerminal
  latestPid : (t.terminals t.curTerminal).latestPid = p.val
  present : Kb.p.get (t.pages.pageDir 32) = 1
  user : Kb.us.get (t.pages.pageDir 32) = 1
  large : Kb.ps.get (t.pages.pageDir 32) = 1
  base : Mb.pBase.get (t.pages.pageDir 32) = BitVec.ofNat 10 (2 + p.val)
  esp0 : t.tss.esp0 = 0x800000 - 0x2000 * BitVec.ofNat 32 p.val - 4
  own : t.processes p = s.processes p
  wasFree : ∀ j ∈ U, j ≠ p ∧ (s.processes j).active = 0
  vacated : ∀ j ∈ U, Vacated (t.processes j)
  others : ∀ j, j ∉ U → t.processes j = s.processes j

/-! ## One bracket -/

section bracket

variable {p i : Fin 6} {U V : Finset (Fin 6)} {s s₁ s₂ s₃ t : Kernel} {command : List Byte}

/-- A program is started in a free slot, which is neither slot 0 nor the caller's. -/
theorem Started.ne_of_active (h : Started L cs command i s s₁) {j : Fin 6}
    (hj : (s.processes j).active ≠ 0) : j ≠ i := by
  rintro rfl
  exact hj (freeSlot_eq_some.mp h.free).1

/-- The slot of a started program keeps its parent and the registers to resume, so
`halt` hands over to the slot that executed it. -/
theorem Started.halt_ok (fs : FileSystem) (hs : Started L cs command i s s₁)
    (hroot : (s.processes 0).active ≠ 0) (hpid : s.pid = p.val)
    (hlinks : SameLinks (s₁.processes i) (s₂.processes i)) (hcur : s₂.pid = i.val)
    (cs' : CallSite) (status : Byte) :
    ∃ s₃, haltFunction L fs cs' status s₂ =
        .ok (.resumes cs.esp cs.ebp (status.setWidth 32)) s₃ ∧ Halted L i p s₂ s₃ := by
  have hown : (s₂.processes i).pid ≠ 0 := by
    rw [hlinks.pid, hs.own]
    exact ofNat_slot_ne_zero fun hi => hs.ne_of_active hroot hi.symm
  have hparent : (s₂.processes i).parentPid.toInt = p.val := by
    rw [hlinks.parentPid, hs.own]
    change (BitVec.ofInt 32 s.pid).toInt = p.val
    rw [hpid]
    exact slot?_eq_some (slot?_ofInt p)
  have hesp : (s₂.processes i).savedEsp = cs.esp := by
    rw [hlinks.savedEsp, hs.own]
    rfl
  have hebp : (s₂.processes i).savedEbp = cs.ebp := by
    rw [hlinks.savedEbp, hs.own]
    rfl
  obtain ⟨s₃, hok, hh⟩ := haltFunction_ok L fs cs' status hcur hown hparent
  rw [hesp, hebp] at hok
  exact ⟨s₃, hok, hh⟩

/-- `halt` maps the parent's page for user mode. -/
theorem Halted.userPage (h : Halted L i p s s₁) :
    Kb.p.get (s₁.pages.pageDir 32) = 1 ∧ Kb.us.get (s₁.pages.pageDir 32) = 1 ∧
      Kb.ps.get (s₁.pages.pageDir 32) = 1 ∧
      Mb.pBase.get (s₁.pages.pageDir 32) = BitVec.ofNat 10 (2 + p.val) := by
  rw [h.pages, haltPaging_pageDir, mbEntry_p, mbEntry_us, mbEntry_ps, mbEntry_pBase,
    userPageBase_slot]
  exact ⟨rfl, rfl, rfl, rfl⟩

/-- After the session of a program started by slot `p`, `halt` completes and slot `p`
has everything back. -/
theorem restored_of_halt (fs : FileSystem) (hs : Started L cs command i s s₁) (hfit : ArgsFit command)
    (hroot : (s.processes 0).active ≠ 0) (hpid : s.pid = p.val) (hact : (s.processes p).active = 1)
    (h : SessionInv i U s₁ s₂) (cs' : CallSite) (status : Byte) :
    ∃ s₃, haltFunction L fs cs' status s₂ =
        .ok (.resumes cs.esp cs.ebp (status.setWidth 32)) s₃ ∧ Restored p (insert i U) s s₃ := by
  have hpactive : (s.processes p).active ≠ 0 := by
    rw [hact]
    decide
  have hpi : p ≠ i := hs.ne_of_active hpactive
  have hsame : ∀ j, j ≠ i → s₁.processes j = s.processes j := fun j hj => hs.other_of_fits hfit hj
  have hpU : p ∉ U := fun hmem => hpactive (hsame p hpi ▸ (h.wasFree p hmem).2)
  obtain ⟨s₃, hok, hh⟩ := hs.halt_ok fs hroot hpid h.links h.pid cs' status
  obtain ⟨hpresent, huser, hlarge, hbase⟩ := hh.userPage
  have hpown : s₃.processes p = s.processes p := by
    rw [hh.parent hpi.symm, h.others p hpU hpi, hsame p hpi, ← hact]
  have hcur : s₃.curTerminal = s.curTerminal :=
    hh.curTerminal.trans (h.curTerminal.trans hs.curTerminal)
  refine ⟨s₃, hok, hh.pid, hcur, ?_, hpresent, huser, hlarge, hbase, ?_, hpown, ?_, ?_, ?_⟩
  · rw [hh.terminals, hh.curTerminal]
    simp
  · rw [hh.tss, kernelStackTop_slot]
  · -- the slots used were free before: the program's own, and those of its session
    intro j hj
    rcases Finset.mem_insert.mp hj with rfl | hj
    · exact ⟨hpi.symm, (freeSlot_eq_some.mp hs.free).1⟩
    · obtain ⟨hji, hfree⟩ := h.wasFree j hj
      rw [hsame j hji] at hfree
      refine ⟨?_, hfree⟩
      rintro rfl
      exact hpactive hfree
  · -- and they are left clean
    intro j hj
    rcases Finset.mem_insert.mp hj with rfl | hj
    · rw [hh.own hpi.symm]
      exact vacated_cleared _
    · have hjp : j ≠ p := by
        rintro rfl
        exact hpU hj
      rw [hh.other (h.wasFree j hj).1 hjp]
      exact h.vacated j hj
  · intro j hj
    obtain ⟨hji, hjU⟩ := not_or.mp (mt Finset.mem_insert.mpr hj)
    by_cases hjp : j = p
    · rw [hjp]
      exact hpown
    · rw [hh.other hji hjp, h.others j hjU hji, hsame j hji]

/-- A complete bracket, then the rest of the session. -/
theorem SessionInv.bracket (hr : Restored p U s s₃) (h : SessionInv p V s₃ t) :
    SessionInv p (U ∪ V) s t := by
  refine ⟨h.pid, h.curTerminal.trans hr.curTerminal, h.esp0, hr.own ▸ h.links, ?_, ?_, ?_⟩
  · intro j hj
    by_cases hjU : j ∈ U
    · exact hr.wasFree j hjU
    · have hjV := h.wasFree j ((Finset.mem_union.mp hj).resolve_left hjU)
      rwa [hr.others j hjU] at hjV
  · intro j hj
    by_cases hjV : j ∈ V
    · exact h.vacated j hjV
    · have hjU := (Finset.mem_union.mp hj).resolve_right hjV
      rw [h.others j hjV (hr.wasFree j hjU).1]
      exact hr.vacated j hjU
  · intro j hj hjp
    obtain ⟨hjU, hjV⟩ := not_or.mp (mt Finset.mem_union.mpr hj)
    rw [h.others j hjV hjp, hr.others j hjU]

/-- A call of the process itself, then the rest of the session. -/
theorem SessionInv.call (hl : LocalTo p s s₁) (h : SessionInv p U s₁ t) : SessionInv p U s t := by
  refine ⟨h.pid, h.curTerminal.trans hl.curTerminal, h.esp0, hl.links.trans h.links, ?_, h.vacated,
    ?_⟩
  · intro j hj
    obtain ⟨hjp, hfree⟩ := h.wasFree j hj
    exact ⟨hjp, hl.others j hjp ▸ hfree⟩
  · intro j hjU hjp
    rw [h.others j hjU hjp, hl.others j hjp]

end bracket

/-! ## Whole sessions -/

/-- By induction on the session; the process in slot `i` changes at every bracket. -/
theorem Session.inv {U : Finset (Fin 6)} {s t : Kernel} (h : Session L fs ArgsFit s U t)
    {i : Fin 6} (hpid : s.pid = i.val) (hact : (s.processes i).active = 1)
    (hroot : (s.processes 0).active ≠ 0) (hesp : s.tss.esp0 = kernelStackTop i.val) :
    SessionInv i U s t := by
  induction h generalizing i with
  | nil s => exact ⟨hpid, rfl, hesp, SameLinks.refl _, by simp, by simp, fun _ _ _ => rfl⟩
  | call hown _ ih =>
    have hl := hown.localTo hpid
    refine SessionInv.call hl (ih (hl.pid.trans hpid) (hl.links.active.trans hact) ?_
      (hl.tss ▸ hesp))
    by_cases hi : 0 = i
    · subst hi
      rw [hl.links.active]
      exact hroot
    · rw [hl.others 0 hi]
      exact hroot
  | bracket hfit hstart hcur _ _ ih₁ ih₂ =>
    obtain ⟨k, hs⟩ := executeFunction_userMode hstart
    obtain rfl := slot_inj hs.pid hcur
    -- the inner session runs in the new slot, what follows it in slot `i` again
    have hinv := ih₁ hcur (by rw [hs.own]; rfl) (by
      rw [hs.other_of_fits hfit (hs.ne_of_active hroot)]
      exact hroot) (by rw [hs.tss])
    obtain ⟨s₃, hok, hr⟩ := restored_of_halt fs hs hfit hroot hpid hact hinv _ _
    rw [hok, Result.state_ok] at ih₂
    have hroot₃ : (s₃.processes 0).active ≠ 0 := by
      rw [hr.others 0 fun hmem => hroot (hr.wasFree 0 hmem).2]
      exact hroot
    have hthen := SessionInv.bracket hr (ih₂ hr.pid (by rw [hr.own]; exact hact) hroot₃
      (hr.esp0.trans (kernelStackTop_slot i).symm))
    rwa [Finset.insert_union] at hthen

/-- The session of a program that has just been started. -/
theorem Started.inv {s s₁ s₂ : Kernel} {i : Fin 6} {U : Finset (Fin 6)} {command : List Byte}
    (hs : Started L cs command i s s₁) (hfit : ArgsFit command)
    (hroot : (s.processes 0).active ≠ 0) (hrun : Session L fs ArgsFit s₁ U s₂) :
    SessionInv i U s₁ s₂ := by
  refine hrun.inv hs.pid (by rw [hs.own]; rfl) ?_ (by rw [hs.tss])
  rw [hs.other_of_fits hfit (hs.ne_of_active hroot)]
  exact hroot

/-- A process `p`, running with slot 0 active, executes a program; the program and
its descendants open, close, read and write files, fetch arguments, map video memory,
execute programs whose arguments fit and wait for them. Then `halt` with any status
completes, resumes the `execute` call of `p` with that status, and leaves `p` current,
mapped and with the PCB it had; the slots used in between are free and clean. -/
theorem bracket_restores {p : Fin 6} {s s₁ s₂ : Kernel} {U : Finset (Fin 6)} {command : List Byte}
    {eip esp : Word} (hroot : (s.processes 0).active ≠ 0) (hpid : s.pid = p.val)
    (hact : (s.processes p).active = 1) (hfit : ArgsFit command)
    (hstart : executeFunction L fs cs (some command) s = (.userMode eip esp, s₁))
    (hrun : Session L fs ArgsFit s₁ U s₂) (cs' : CallSite) (status : Byte) :
    ∃ i s₃, Started L cs command i s s₁ ∧ haltFunction L fs cs' status s₂ =
        .ok (.resumes cs.esp cs.ebp (status.setWidth 32)) s₃ ∧
      Restored p (insert i U) s s₃ := by
  obtain ⟨i, hs⟩ := executeFunction_userMode hstart
  have hinv := hs.inv hfit hroot hrun
  obtain ⟨s₃, hok, hr⟩ := restored_of_halt fs hs hfit hroot hpid hact hinv cs' status
  exact ⟨i, s₃, hs, hok, hr⟩

/-- The base shell executes a second shell, which opens `notes` and halts with 7. -/
theorem bracket_restores_sample : ∃ s₁ s₂ s₃ : Kernel,
    Session Sample.link Sample.files ArgsFit s₁ ∅ s₂ ∧
    haltFunction Sample.link Sample.files Sample.site 7 s₂ =
      .ok (.resumes 0x7FF000 0x7FF010 7) s₃ ∧ Restored 0 {1} Sample.running s₃ := by
  let s₁ := (executeFunction Sample.link Sample.files Sample.site (some shellCommand)
    Sample.running).2
  have hstart : executeFunction Sample.link Sample.files Sample.site (some shellCommand)
      Sample.running = (.userMode 0x08048018 userStack, s₁) := Prod.ext (by decide) rfl
  have hopen : openFunction Sample.link Sample.files ⟨0, 0, 0, 0⟩ (some Sample.notes) s₁ =
      .ok (2 : Fin 8).val (s₁.openAt Sample.link ⟨0, 0, 0, 0⟩ (Sample.files.entry 1) 1 2) :=
    openFunction_found (by decide) (by decide) (by decide)
  have hrun : Session Sample.link Sample.files ArgsFit s₁ ∅ _ :=
    .call (.opens _ _ _ hopen) (.nil _)
  obtain ⟨i, s₃, hs, hok, hr⟩ := bracket_restores (p := 0) (by decide) (by decide) (by decide)
    argsFit_shell hstart hrun Sample.site 7
  obtain rfl : i = 1 := slot_inj hs.pid (by decide)
  exact ⟨s₁, _, s₃, hrun, hok, hr⟩

/-- Slot 2 is running, slot 1 is free: a program started there with long arguments
overwrites the PCB of the process that waits for it. -/
theorem long_arguments_change_parent : ∃ eip s₁,
    (Sample.gap.processes 0).active ≠ 0 ∧ Sample.gap.pid = 2 ∧
    (Sample.gap.processes 2).active = 1 ∧
    executeFunction Sample.link Sample.files Sample.site (some (Sample.longCommand pcbSize))
      Sample.gap = (.userMode eip userStack, s₁) ∧
    Session Sample.link Sample.files (fun _ => True) s₁ ∅ s₁ ∧
    ∀ out s₃, haltFunction Sample.link Sample.files Sample.site 0 s₁ = .ok out s₃ →
      s₃.processes 2 ≠ Sample.gap.processes 2 := by
  have hfree : freeSlot Sample.gap.processes = some 1 := by decide
  obtain ⟨eip, s₁, hstart, hs⟩ := Sample.execute_longCommand hfree
  refine ⟨eip, s₁, by decide, by decide, by decide, hstart, .nil _, fun out s₃ hhalt hsame => ?_⟩
  obtain ⟨t, hok, hh⟩ := Sample.halt_longCommand hs
  rw [hok] at hhalt
  cases hhalt
  -- the parent field of slot 2 has been overwritten, and `halt` does not repair it
  have hlink : (s₃.processes 2).parentPid = wordOf 0x78 := by
    rw [hh.parent (by decide)]
    exact (Sample.started_longCommand (j := 2) hs rfl).2.1
  rw [hsame] at hlink
  revert hlink
  decide

end Os391
