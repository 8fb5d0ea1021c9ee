import Os391.Indices
import Os391.ProcessTree

/-!
# What user mode can reach

`UserPages` is the invariant of the three tables: of the page directory only
entries 32 and 33 admit user mode, entry 32 maps the 4 MB page of some slot, and
entry 33 points at `video_mapping_page`, of which only the first entry can admit
user mode and then maps the screen. `init_paging` establishes it and the system
calls keep it, so `walk_user` describes every translation user mode can make.
-/

namespace Os391

open Bytes BitField Relation

variable {L : Link} {fs : FileSystem} {cs : CallSite}

/-- A directory entry that user mode can go through. -/
def UserEntry (e : Word) : Prop := Kb.p.get e = 1 ∧ Kb.us.get e = 1

/-- A page table entry that user mode can go through. -/
def UserPte (e : Word) : Prop := Pte.p.get e = 1 ∧ Pte.us.get e = 1

/-- User mode goes through directory entries 32 and 33 only: the page of a slot, and
the first page of the video window. -/
structure UserPages (L : Link) (t : PageTables) : Prop where
  dir : ∀ i, i ≠ 32 → i ≠ 33 → ¬ UserEntry (t.pageDir i)
  slot : UserEntry (t.pageDir 32) → Kb.ps.get (t.pageDir 32) = 1 ∧
    ∃ q : Fin 6, Mb.pBase.get (t.pageDir 32) = BitVec.ofNat 10 (2 + q.val)
  small : Kb.ps.get (t.pageDir 33) = 0
  table : Kb.pBase.get (t.pageDir 33) = L.videoMappingPage
  video : ∀ i, i ≠ 0 → ¬ UserPte (t.videoMappingPage i)
  screen : UserPte (t.videoMappingPage 0) → Pte.pBase.get (t.videoMappingPage 0) = 0xB8

theorem userEntry_mbEntry (p us g b e : Word) :
    UserEntry (mbEntry p us g b e) ↔ p.setWidth 1 = 1 ∧ us.setWidth 1 = 1 := by
  rw [UserEntry, mbEntry_p, mbEntry_us]

theorem userEntry_kbEntry (us b e : Word) : UserEntry (kbEntry us b e) ↔ us.setWidth 1 = 1 := by
  rw [UserEntry, kbEntry_p, kbEntry_us, and_iff_right rfl]

theorem userPte_pteEntry (p us b e : Word) :
    UserPte (pteEntry p us b e) ↔ p.setWidth 1 = 1 ∧ us.setWidth 1 = 1 := by
  rw [UserPte, pteEntry_p, pteEntry_us]

/-- A page frame written as an address and shifted back. -/
theorem videoMappingPageAddr_base (L : Link) :
    (L.videoMappingPageAddr >>> 12).setWidth 20 = L.videoMappingPage := by
  apply BitVec.eq_of_toNat_eq
  have haddr : L.videoMappingPageAddr.toNat = L.videoMappingPage.toNat * 2 ^ 12 :=
    (BitVec.toNat_append L.videoMappingPage 0#12).trans (by simp [Nat.shiftLeft_eq])
  have hlt := L.videoMappingPage.isLt
  rw [BitVec.toNat_setWidth, BitVec.toNat_ushiftRight, haddr, Nat.shiftRight_eq_div_pow]
  omega

namespace UserPages

variable {t : PageTables}

/-- `init_paging`, whatever the tables held before. -/
theorem init (L : Link) (t : PageTables) : UserPages L (initPaging L t) := by
  have h32 : (initPaging L t).pageDir 32 = mbEntry 0 0 0 32 (t.pageDir 32) := by
    simp [initPaging]
  have h33 : (initPaging L t).pageDir 33 = kbEntry 1 (L.videoMappingPageAddr >>> 12)
      (mbEntry 0 0 0 33 (t.pageDir 33)) := by
    simp [initPaging]
  refine ⟨fun i hi hi' => ?_, fun huser => ?_, ?_, ?_, fun i _ huser => ?_, fun huser => ?_⟩
  · -- entry 0 is a page table, entry 1 the kernel, and the others are not present
    have hdir : (initPaging L t).pageDir i =
        if i = 0 then kbEntry 0 (L.firstPageTableAddr >>> 12) (t.pageDir 0)
        else if i = 1 then mbEntry 1 0 1 1 (t.pageDir 1)
        else mbEntry 0 0 0 (BitVec.ofNat 32 i.val) (t.pageDir i) := by
      simp only [initPaging, Function.update_of_ne hi']
      by_cases h0 : i = 0
      · subst h0
        simp
      · by_cases h1 : i = 1
        · subst h1
          simp
        · have h2 : 2 ≤ i.val := by omega
          simp [h0, h1, h2]
    rw [hdir]
    split
    · rw [userEntry_kbEntry]
      decide
    · split
      · rw [userEntry_mbEntry]
        decide
      · rw [userEntry_mbEntry]
        decide
  · rw [h32, userEntry_mbEntry] at huser
    exact absurd huser.1 (by decide)
  · rw [h33, kbEntry_ps]
  · rw [h33, kbEntry_pBase, videoMappingPageAddr_base]
  · rw [initPaging, userPte_pteEntry] at huser
    exact absurd huser.2 (by decide)
  · rw [initPaging, userPte_pteEntry] at huser
    exact absurd huser.2 (by decide)

/-- Mapping the page of a slot. -/
theorem mapUserPage (h : UserPages L t) (q : Fin 6) : UserPages L (mapUserPage q.val t) := by
  have h33 : (Os391.mapUserPage q.val t).pageDir 33 = t.pageDir 33 :=
    mapUserPage_pageDir_of_ne _ _ (by decide)
  refine ⟨fun i hi hi' => ?_, fun _ => ?_, by rw [h33]; exact h.small,
    by rw [h33]; exact h.table, h.video, h.screen⟩
  · rw [mapUserPage_pageDir_of_ne _ _ hi]
    exact h.dir i hi hi'
  · rw [mapUserPage_pageDir, mbEntry_ps, mbEntry_pBase, userPageBase_slot]
    exact ⟨rfl, q, rfl⟩

/-- The paging part of `halt_function`, handing over to a slot. -/
theorem haltPaging (h : UserPages L t) (q : Fin 6) (terminal : Fin 3) :
    UserPages L (haltPaging L q.val terminal t) := by
  have h33 : (Os391.haltPaging L q.val terminal t).pageDir 33 = t.pageDir 33 :=
    haltPaging_pageDir_of_ne _ _ _ _ (by decide) (by decide)
  have hentry := haltPaging_videoMappingPage L q.val terminal t
  refine ⟨fun i hi hi' => ?_, fun _ => ?_, by rw [h33]; exact h.small,
    by rw [h33]; exact h.table, fun i hi huser => ?_, fun huser => ?_⟩
  · -- entry 0 is written again, for the kernel only
    by_cases h0 : i = 0
    · subst h0
      simp only [Os391.haltPaging, Function.update_self, userEntry_kbEntry]
      decide
    · rw [haltPaging_pageDir_of_ne _ _ _ _ h0 hi]
      exact h.dir i hi hi'
  · rw [haltPaging_pageDir, mbEntry_ps, mbEntry_pBase, userPageBase_slot]
    exact ⟨rfl, q, rfl⟩
  · rcases hentry i with heq | hnone
    · rw [heq] at huser
      exact h.video i hi huser
    · exact absurd (hnone.symm.trans huser.1) (by decide)
  · rcases hentry 0 with heq | hnone
    · rw [heq] at huser ⊢
      exact h.screen huser
    · exact absurd (hnone.symm.trans huser.1) (by decide)

/-- The assignments of `vidmap_function`. -/
theorem vidmapPaging (h : UserPages L t) : UserPages L (vidmapPaging t) := by
  refine ⟨h.dir, h.slot, h.small, h.table, fun i hi => ?_, fun _ => ?_⟩
  · simpa [Os391.vidmapPaging, hi] using h.video i hi
  · simp only [Os391.vidmapPaging, Function.update_self, pteEntry_pBase]
    rfl

end UserPages

/-! ## The walk -/

/-- The page of slot `q`: `0x08000000 + k` is `0x800000 + 0x400000 * q + k`, `k` below 4 MB. -/
def InUserPage (q : Fin 6) (va pa : Word) : Prop :=
  ∃ k < 0x400000, va.toNat = 0x8000000 + k ∧ pa.toNat = 0x800000 + 0x400000 * q.val + k

/-- The screen: `0x08400000 + k` is `0xB8000 + k`, `k` below 4096. -/
def InVideoPage (va pa : Word) : Prop :=
  ∃ k < 4096, va.toNat = 0x8400000 + k ∧ pa.toNat = 0xB8000 + k

/-- A 4 MB page. -/
theorem toNat_largePage (b : BitVec 10) (va : Word) :
    (b ++ va.setWidth 22 : Word).toNat = b.toNat * 2 ^ 22 + va.toNat % 2 ^ 22 :=
  toNat_append_setWidth 22 b va

/-- A 4 KB page. -/
theorem toNat_smallPage (b : BitVec 20) (va : Word) :
    (b ++ va.setWidth 12 : Word).toNat = b.toNat * 2 ^ 12 + va.toNat % 2 ^ 12 :=
  toNat_append_setWidth 12 b va

/-- What a user-mode translation goes through. -/
theorem walk_user_eq_some {t : PageTables} {mem : Word → Byte} {va pa : Word}
    (h : walk L t mem true va = some pa) :
    UserEntry (dirEntry t va) ∧
      (Kb.ps.get (dirEntry t va) = 1 ∧ pa = Mb.pBase.get (dirEntry t va) ++ va.setWidth 22 ∨
        Kb.ps.get (dirEntry t va) ≠ 1 ∧ UserPte (walkEntry L t mem (dirEntry t va) va) ∧
          pa = Pte.pBase.get (walkEntry L t mem (dirEntry t va) va) ++ va.setWidth 12) := by
  rw [walk] at h
  dsimp only at h
  split at h
  · next hdir =>
    refine ⟨⟨hdir.1, hdir.2 rfl⟩, ?_⟩
    split at h
    · next hps => exact Or.inl ⟨hps, (Option.some.inj h).symm⟩
    · next hps =>
      split at h
      · next hpte => exact Or.inr ⟨hps, ⟨hpte.1, hpte.2 rfl⟩, (Option.some.inj h).symm⟩
      · cases h
  · cases h

/-- The index of the directory entry an address goes through. -/
theorem val_dirIndex (va : Word) : (Fin.ofNat 1024 (va.toNat / 2 ^ 22)).val = va.toNat / 2 ^ 22 := by
  have hva := va.isLt
  rw [Fin.val_ofNat]
  omega

namespace UserPages

variable {t : PageTables} {mem : Word → Byte} {va pa : Word}

/-- Through entry 32, which maps the page of slot `q`. -/
theorem walk_slot {q : Fin 6} (hps : Kb.ps.get (t.pageDir 32) = 1)
    (hbase : Mb.pBase.get (t.pageDir 32) = BitVec.ofNat 10 (2 + q.val))
    (h32 : Fin.ofNat 1024 (va.toNat / 2 ^ 22) = 32) (hwalk : walk L t mem true va = some pa) :
    InUserPage q va pa := by
  obtain ⟨-, hcase⟩ := walk_user_eq_some hwalk
  have hva32 : va.toNat / 2 ^ 22 = 32 := by rw [← val_dirIndex, h32]; rfl
  rw [dirEntry, h32] at hcase
  rcases hcase with ⟨-, hpa⟩ | ⟨hnot, -, -⟩
  · have hpanat := congrArg BitVec.toNat hpa
    rw [toNat_largePage, hbase, BitVec.toNat_ofNat] at hpanat
    have hlt := q.isLt
    exact ⟨va.toNat % 2 ^ 22, by omega, by omega, by omega⟩
  · exact absurd hps hnot

/-- Through entry 33, the video window: only the first entry of its table is for the user. -/
theorem walk_window (h : UserPages L t) (h33 : Fin.ofNat 1024 (va.toNat / 2 ^ 22) = 33)
    (hwalk : walk L t mem true va = some pa) : InVideoPage va pa := by
  obtain ⟨-, hcase⟩ := walk_user_eq_some hwalk
  have hva33 : va.toNat / 2 ^ 22 = 33 := by rw [← val_dirIndex, h33]; rfl
  rw [dirEntry, h33] at hcase
  rcases hcase with ⟨hps, -⟩ | ⟨-, hpte, hpa⟩
  · rw [h.small] at hps
    exact absurd hps (by decide)
  · have hentry : walkEntry L t mem (t.pageDir 33) va =
        t.videoMappingPage (Fin.ofNat 1024 (va.toNat / 2 ^ 12)) := by
      rw [walkEntry, h.table, tableEntry, if_neg L.tables_ne.symm, if_pos rfl]
    rw [hentry] at hpte hpa
    have hzero : Fin.ofNat 1024 (va.toNat / 2 ^ 12) = 0 := by
      by_contra hne
      exact h.video _ hne hpte
    rw [hzero] at hpte hpa
    have hva := va.isLt
    have hpage : va.toNat / 2 ^ 12 % 1024 = 0 := congrArg Fin.val hzero
    have hpanat := congrArg BitVec.toNat hpa
    rw [toNat_smallPage, h.screen hpte] at hpanat
    exact ⟨va.toNat % 2 ^ 12, by omega, by omega, by simpa using hpanat⟩

/-- The slot whose page entry 32 maps. -/
theorem walk_user (h : UserPages L t) (mem : Word → Byte) :
    ∃ q : Fin 6, ∀ va pa, walk L t mem true va = some pa →
      InUserPage q va pa ∨ InVideoPage va pa := by
  obtain ⟨q, hq⟩ : ∃ q : Fin 6, UserEntry (t.pageDir 32) →
      Kb.ps.get (t.pageDir 32) = 1 ∧ Mb.pBase.get (t.pageDir 32) = BitVec.ofNat 10 (2 + q.val) := by
    by_cases h32 : UserEntry (t.pageDir 32)
    · obtain ⟨hps, q, hq⟩ := h.slot h32
      exact ⟨q, fun _ => ⟨hps, hq⟩⟩
    · exact ⟨0, fun hu => absurd hu h32⟩
  refine ⟨q, fun va pa hwalk => ?_⟩
  obtain ⟨huser, -⟩ := walk_user_eq_some hwalk
  by_cases h32 : Fin.ofNat 1024 (va.toNat / 2 ^ 22) = 32
  · rw [dirEntry, h32] at huser
    obtain ⟨hps, hbase⟩ := hq huser
    exact Or.inl (walk_slot hps hbase h32 hwalk)
  · by_cases h33 : Fin.ofNat 1024 (va.toNat / 2 ^ 22) = 33
    · exact Or.inr (h.walk_window h33 hwalk)
    · exact absurd huser (h.dir _ h32 h33)

end UserPages

/-! ## Runs from `init_paging` on -/

/-- One step: a program is started with a command that satisfies `C`, a process in a
slot other than 0 halts, `vidmap` is called, or the terminal is switched. -/
inductive SpaceStep (L : Link) (fs : FileSystem) (C : List Byte → Prop) (s : Kernel) :
    Kernel → Prop where
  | starts {cs : CallSite} {command : List Byte} {eip esp : Word} {s' : Kernel} :
      C command → executeFunction L fs cs (some command) s = (.userMode eip esp, s') →
      SpaceStep L fs C s s'
  | halts (cs : CallSite) (status : Byte) {i : Fin 6} : s.pid = i.val → i ≠ 0 →
      SpaceStep L fs C s (haltFunction L fs cs status s).state
  | vidmap (screenStart : Word) : SpaceStep L fs C s (vidmapFunction L screenStart s).2
  | switches (cs : CallSite) (source target : Fin 3) :
      SpaceStep L fs C s (switchTerminal L fs cs source target s).2

/-- The indices are slots, and the tables admit user mode to a slot's page only. -/
structure Space (L : Link) (s : Kernel) : Prop where
  indices : InTable s
  pages : UserPages L s.pages

namespace Space

variable {s s' : Kernel}

theorem executed (h : Space L s) {command : List Byte} (hfit : ArgsFit command)
    {out : ExecOutcome} (hexec : executeFunction L fs cs (some command) s = (out, s')) :
    Space L s' := by
  refine ⟨h.indices.executed (fun _ => hfit) hexec, ?_⟩
  rcases executeFunction_cases hexec with ⟨hr, -⟩ | ⟨i, hs, -⟩ | ⟨i, hs, -⟩
  · rw [hr.pages]
    exact h.pages
  · rw [hs.pages]
    exact h.pages
  · rw [hs.pages]
    exact h.pages.mapUserPage i

theorem halts (h : Space L s) {i : Fin 6} (hpid : s.pid = i.val) (hi : i ≠ 0) (cs : CallSite)
    (status : Byte) : Space L (haltFunction L fs cs status s).state := by
  obtain ⟨u, out, s', hu, hok, hend⟩ := h.indices.haltFunction_cases hpid hi L fs cs status
  have hspace : Space L u := by
    rcases hu with rfl | ⟨r, hexec⟩
    · exact h
    · exact h.executed argsFit_respawn hexec
  rw [hok, Result.state_ok]
  rcases hend with rfl | ⟨k, p, hs⟩
  · exact hspace
  · refine ⟨hspace.indices.halted hs, ?_⟩
    rw [hs.pages]
    exact hspace.pages.haltPaging p u.curTerminal

theorem vidmap (h : Space L s) (screenStart : Word) :
    Space L (vidmapFunction L screenStart s).2 := by
  rw [vidmapFunction]
  split
  · exact h
  · split
    · exact h
    · exact ⟨⟨h.indices.pid, h.indices.latest, h.indices.parent⟩, h.pages.vidmapPaging⟩

theorem switches (h : Space L s) (cs : CallSite) (source target : Fin 3) :
    Space L (switchTerminal L fs cs source target s).2 := by
  have hshown : Space L (showTerminal source target s) := ⟨h.indices.shown source target, h.pages⟩
  rcases hsw : switchTerminal L fs cs source target s with ⟨out, s'⟩
  rcases switchTerminal_cases hsw with ⟨-, rfl⟩ | ⟨-, rfl⟩ | ⟨r, -, hexec⟩
  · exact h
  · exact hshown
  · have hmarked : Space L ((showTerminal source target s).startingOn target) :=
      ⟨hshown.indices.startingOn target, hshown.pages⟩
    exact hmarked.executed argsFit_shell hexec

theorem step (h : Space L s) (hstep : SpaceStep L fs ArgsFit s s') : Space L s' := by
  cases hstep with
  | starts hfit hstart => exact h.executed hfit hstart
  | halts cs status hpid hi => exact h.halts hpid hi cs status
  | vidmap screenStart => exact h.vidmap screenStart
  | switches cs source target => exact h.switches cs source target

end Space

/-- From `init_paging` on, in any order of successful starts with arguments that fit,
halts outside slot 0, calls of `vidmap` and terminal switches, user mode reaches the
4 MB page of a single slot and the screen, and nothing else. -/
theorem userSpace_run {mem : Word → Byte} {t : PageTables} {s : Kernel}
    (hrun : ReflTransGen (SpaceStep L fs ArgsFit) (bootKernel L mem t) s) :
    ∃ q : Fin 6, ∀ va pa, walk L s.pages s.console.mem true va = some pa →
      InUserPage q va pa ∨ InVideoPage va pa := by
  have h : Space L s := by
    induction hrun with
    | refl => exact ⟨InTable.boot L mem t, UserPages.init L t⟩
    | tail _ hstep ih => exact ih.step hstep
  exact h.pages.walk_user s.console.mem

/-- The base shell runs: user mode reaches the page of one slot. -/
theorem userSpace_run_sample : ∃ q : Fin 6, ∀ va pa,
    walk Sample.link Sample.running.pages Sample.running.console.mem true va = some pa →
      InUserPage q va pa ∨ InVideoPage va pa :=
  userSpace_run (.single (.starts argsFit_shell Sample.execute_atBoot))

/-- The first address of the user window, when entry 32 maps some 4 MB page. -/
theorem walk_userWindow {t : PageTables} {mem : Word → Byte} {b e : Word}
    (h : t.pageDir 32 = mbEntry 1 1 0 b e) :
    walk L t mem true 0x8000000 = some (b.setWidth 10 ++ 0#22) := by
  have hdir : dirEntry t 0x8000000 = mbEntry 1 1 0 b e := h
  rw [walk]
  rw [hdir]
  dsimp only
  rw [mbEntry_p, mbEntry_us, mbEntry_ps, mbEntry_pBase, if_pos ⟨rfl, fun _ => rfl⟩, if_pos rfl]
  rfl

/-- A shell with long arguments is started in slot 1 while slot 2 waits for it, and both
halt: the parent the second one hands over to is no slot, and user mode reaches memory
far behind the six pages. -/
theorem long_arguments_leave_window : ∃ s,
    ReflTransGen (SpaceStep Sample.link Sample.files fun _ => True) Sample.atBoot s ∧
    ¬ ∃ q : Fin 6, ∀ va pa, walk Sample.link s.pages s.console.mem true va = some pa →
      InUserPage q va pa ∨ InVideoPage va pa := by
  have hfree : freeSlot Sample.gap.processes = some 1 := by decide
  obtain ⟨eip, s₁, hstart, hs⟩ := Sample.execute_longCommand hfree
  -- slot 1 halts and hands over to slot 2
  obtain ⟨s₂, hok, hh⟩ := Sample.halt_longCommand hs
  obtain ⟨hpid₂, hparent₂, -⟩ := Sample.started_longCommand (j := 2) hs rfl
  have hown₂ : (s₂.processes 2).pid = wordOf 0x78 := by
    rw [hh.parent (by decide)]
    exact hpid₂
  have hlink₂ : (s₂.processes 2).parentPid = wordOf 0x78 := by
    rw [hh.parent (by decide)]
    exact hparent₂
  refine ⟨(haltFunction Sample.link Sample.files Sample.site 0 s₂).state, ?_, ?_⟩
  · have hgap : ReflTransGen (SpaceStep Sample.link Sample.files fun _ => True) Sample.atBoot
        Sample.gap :=
      ((((ReflTransGen.single (.starts trivial Sample.execute_atBoot)).tail
        (.switches Sample.site 0 1)).tail (.switches Sample.site 1 2)).tail
        (.switches Sample.site 2 1)).tail (.halts Sample.site 0 (i := 1) (by decide) (by decide))
        |>.tail (.switches Sample.site 1 2)
    have hhalt : SpaceStep Sample.link Sample.files (fun _ => True) s₁
        (haltFunction Sample.link Sample.files Sample.site 0 s₁).state :=
      .halts Sample.site 0 hs.pid (by decide)
    rw [hok, Result.state_ok] at hhalt
    exact ((hgap.tail (.starts trivial hstart)).tail hhalt).tail
      (.halts Sample.site 0 hh.pid (by decide))
  · -- slot 2 halts in turn
    rintro ⟨q, hq⟩
    have hpages : (haltFunction Sample.link Sample.files Sample.site 0 s₂).state.pages.pageDir 32 =
        mbEntry 1 1 0 (userPageBase (wordOf 0x78).toInt) 0 := by
      rw [haltFunction, Kernel.withSlot_of_eq hh.pid, hown₂, if_neg (by decide),
        haltRest_pages hh.pid, haltPaging_pageDir, hlink₂]
    have hlt := q.isLt
    rcases hq _ _ (walk_userWindow hpages) with ⟨k, -, hva, hpa⟩ | ⟨k, -, hva, -⟩
    · have hbase : ((userPageBase (wordOf 0x78).toInt).setWidth 10 ++ 0#22 : Word).toNat =
          0x1E800000 := by decide
      rw [hbase] at hpa
      have hzero : k = 0 := by
        have : (0x8000000 : Word).toNat = 0x8000000 := by decide
        omega
      omega
    · have : (0x8000000 : Word).toNat = 0x8000000 := by decide
      omega

/-! ## The page and the stack of the current process -/

/-- `page_dir[32]` and `tss.esp0` belong to the current process. -/
structure MapsCurrent (s : Kernel) : Prop where
  base : ((Mb.pBase.get (s.pages.pageDir 32)).toNat : Int) = 2 + s.pid
  esp0 : s.tss.esp0 = BitVec.ofInt 32 (0x800000 - 0x2000 * s.pid - 4)

/-- One step: a program is started with a command that satisfies `C`, a process in a
slot other than 0 halts, the terminal is switched to one that runs already and
satisfies `D`, or to a new one on which a shell is started. -/
inductive MapStep (L : Link) (fs : FileSystem) (C : List Byte → Prop) (D : Kernel → Fin 3 → Prop)
    (s : Kernel) : Kernel → Prop where
  | starts {cs : CallSite} {command : List Byte} {eip esp : Word} {s' : Kernel} :
      C command → executeFunction L fs cs (some command) s = (.userMode eip esp, s') →
      MapStep L fs C D s s'
  | halts (cs : CallSite) (status : Byte) {i : Fin 6} : s.pid = i.val → i ≠ 0 →
      MapStep L fs C D s (haltFunction L fs cs status s).state
  | shows {cs : CallSite} {source target : Fin 3} {s' : Kernel} : D s target →
      switchTerminal L fs cs source target s = (none, s') → MapStep L fs C D s s'
  | startsShell {cs : CallSite} {source target : Fin 3} {eip esp : Word} {s' : Kernel} :
      switchTerminal L fs cs source target s = (some (.userMode eip esp), s') →
      MapStep L fs C D s s'

/-- The process on top of the target terminal is the one that runs already. -/
def SameProcess (s : Kernel) (target : Fin 3) : Prop := (s.terminals target).latestPid = s.pid

section current

variable {s s' : Kernel} {i p : Fin 6} {command : List Byte}

theorem mapsCurrent_of_slot (hpid : s.pid = i.val)
    (hbase : Mb.pBase.get (s.pages.pageDir 32) = BitVec.ofNat 10 (2 + i.val))
    (htss : s.tss.esp0 = kernelStackTop i.val) : MapsCurrent s := by
  refine ⟨?_, ?_⟩
  · have hlt := i.isLt
    have hnat : (BitVec.ofNat 10 (2 + i.val)).toNat = 2 + i.val := by
      rw [BitVec.toNat_ofNat]
      omega
    rw [hbase, hpid]
    exact congrArg Int.ofNat hnat
  · rw [htss, hpid]
    rfl

theorem Started.mapsCurrent (hs : Started L cs command i s s') : MapsCurrent s' := by
  refine mapsCurrent_of_slot hs.pid ?_ (by rw [hs.tss])
  rw [hs.pages, mapUserPage_pageDir, mbEntry_pBase, userPageBase_slot]

theorem Halted.mapsCurrent (hs : Halted L i p s s') : MapsCurrent s' := by
  refine mapsCurrent_of_slot hs.pid ?_ (by rw [hs.tss])
  rw [hs.pages, haltPaging_pageDir, mbEntry_pBase, userPageBase_slot]

/-- Showing a terminal changes `pid` alone, so page and stack fit afterwards exactly if
`pid` keeps its value. -/
theorem mapsCurrent_showTerminal_iff (h : MapsCurrent s) (source target : Fin 3) :
    MapsCurrent (showTerminal source target s) ↔ SameProcess s target := by
  rw [SameProcess, ← showTerminal_pid source target s]
  constructor
  · intro h'
    have hbase := h'.base.symm.trans h.base
    omega
  · intro hsame
    exact ⟨by rw [hsame]; exact h.base, by rw [hsame]; exact h.esp0⟩

end current

/-- In every state between a step and the next, the table is a tree and the current
process is mapped. -/
theorem MapStep.preserves {s s' : Kernel} (htree : ∃ S, Tree s S) (h : MapsCurrent s)
    (hstep : MapStep L fs ArgsFit SameProcess s s') : (∃ S, Tree s' S) ∧ MapsCurrent s' := by
  obtain ⟨S, htree⟩ := htree
  cases hstep with
  | starts hfit hstart =>
    obtain ⟨i, hs⟩ := executeFunction_userMode hstart
    exact ⟨⟨_, htree.started hs hfit⟩, hs.mapsCurrent⟩
  | halts cs status hpid hi =>
    obtain ⟨p, u, hok, hs⟩ := htree.halt_ok L fs cs status hpid hi
    obtain ⟨l, -, hpopped⟩ := htree.halted hs hpid hi
    rw [hok, Result.state_ok]
    exact ⟨⟨_, hpopped⟩, hs.mapsCurrent⟩
  | shows hsame hsw =>
    rcases switchTerminal_cases hsw with ⟨-, rfl⟩ | ⟨-, rfl⟩ | ⟨r, hr, -⟩
    · exact ⟨⟨S, htree⟩, h⟩
    · exact ⟨⟨S, htree.shown _ _⟩, (mapsCurrent_showTerminal_iff h _ _).mpr hsame⟩
    · cases hr
  | startsShell hsw =>
    rcases switchTerminal_cases hsw with ⟨hr, -⟩ | ⟨hr, -⟩ | ⟨r, hr, hexec⟩
    · cases hr
    · cases hr
    · cases hr
      obtain ⟨i, hs⟩ := executeFunction_userMode hexec
      exact ⟨⟨_, ((htree.shown _ _).startingOn _).started hs argsFit_shell⟩, hs.mapsCurrent⟩

/-- From the running base shell on, as long as arguments fit and the user switches to
a terminal that runs already only when the same process is on top of it, the user
page and the kernel stack are those of the current process. -/
theorem mapsCurrent_run {mem : Word → Byte} {t : PageTables} {s₀ s : Kernel} {eip esp : Word}
    (hboot : executeFunction L fs cs (some shellCommand) (bootKernel L mem t) =
      (.userMode eip esp, s₀))
    (hrun : ReflTransGen (MapStep L fs ArgsFit SameProcess) s₀ s) : MapsCurrent s := by
  obtain ⟨i, hs⟩ := executeFunction_userMode hboot
  have h : (∃ S, Tree s S) ∧ MapsCurrent s := by
    induction hrun with
    | refl => exact ⟨⟨_, tree_boot hs argsFit_shell⟩, hs.mapsCurrent⟩
    | tail _ hstep ih => exact hstep.preserves ih.1 ih.2
  exact h.2

/-- The base shell runs, and a second shell is started on terminal 1. -/
def Sample.twoShells : Kernel :=
  (switchTerminal Sample.link Sample.files Sample.site 0 1 Sample.running).2

theorem Sample.switch_running : switchTerminal Sample.link Sample.files Sample.site 0 1
    Sample.running = (some (.userMode 0x08048018 userStack), Sample.twoShells) :=
  Prod.ext (by decide) rfl

theorem mapsCurrent_run_sample : MapsCurrent Sample.twoShells :=
  mapsCurrent_run Sample.execute_atBoot (.single (.startsShell Sample.switch_running))

/-- Switching back to terminal 0, the base shell runs with the page of slot 1. -/
theorem switching_back_keeps_page : ∃ s,
    ReflTransGen (MapStep Sample.link Sample.files ArgsFit fun _ _ => True) Sample.running s ∧
      ¬ MapsCurrent s := by
  have hback : switchTerminal Sample.link Sample.files Sample.site 1 0 Sample.twoShells =
      (none, (switchTerminal Sample.link Sample.files Sample.site 1 0 Sample.twoShells).2) :=
    Prod.ext (by decide) rfl
  refine ⟨_, (ReflTransGen.single (.startsShell Sample.switch_running)).tail
    (.shows trivial hback), fun h => ?_⟩
  have hbase := h.base
  revert hbase
  decide

end Os391
