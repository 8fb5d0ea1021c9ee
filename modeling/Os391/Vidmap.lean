import Os391.AddressSpace

/-!
# Where `vidmap` stores

`vidmap_function` compares the first address it is about to store to with the ends of
the user page, the upper one included, and then stores four bytes. The last three
addresses of the page and the one behind it are let through although the store leaves
the page, for the window that has just been mapped. The window itself is always open
after a successful call: directory entry 33 is never written after `init_paging`.
-/

namespace Os391

open Bytes BitField Relation

variable {L : Link} {fs : FileSystem}

/-! ## The entries the window goes through -/

/-- Directory entry 33 leads to `video_mapping_page`, for reading and writing in user
mode, and entry 32 is one for a large page, present or not. -/
structure WindowEntry (L : Link) (t : PageTables) : Prop where
  p : Kb.p.get (t.pageDir 33) = 1
  rw : Kb.rw.get (t.pageDir 33) = 1
  us : Kb.us.get (t.pageDir 33) = 1
  ps : Kb.ps.get (t.pageDir 33) = 0
  pBase : Kb.pBase.get (t.pageDir 33) = L.videoMappingPage
  large : Kb.ps.get (t.pageDir 32) = 1

namespace WindowEntry

variable {t : PageTables} {mem : Word → Byte} {va : Word}

/-- `init_paging`, whatever the tables held before. -/
theorem init (L : Link) (t : PageTables) : WindowEntry L (initPaging L t) := by
  have h32 : (initPaging L t).pageDir 32 = mbEntry 0 0 0 32 (t.pageDir 32) := by
    simp [initPaging]
  have h33 : (initPaging L t).pageDir 33 = kbEntry 1 (L.videoMappingPageAddr >>> 12)
      (mbEntry 0 0 0 33 (t.pageDir 33)) := by
    simp [initPaging]
  refine ⟨?_, ?_, ?_, ?_, ?_, ?_⟩
  · rw [h33, kbEntry_p]
  · rw [h33, kbEntry_rw]
  · rw [h33, kbEntry_us]
    rfl
  · rw [h33, kbEntry_ps]
  · rw [h33, kbEntry_pBase, videoMappingPageAddr_base]
  · rw [h32, mbEntry_ps]

/-- Nothing else writes entry 33. -/
theorem kept (L : Link) : PagesKept L (WindowEntry L) := by
  refine ⟨fun t pid h => ?_, fun t pid terminal h => ?_, fun t h => ?_⟩
  · have h33 : (mapUserPage pid t).pageDir 33 = t.pageDir 33 :=
      mapUserPage_pageDir_of_ne _ _ (by decide)
    refine ⟨?_, ?_, ?_, ?_, ?_, by rw [mapUserPage_pageDir, mbEntry_ps]⟩ <;> rw [h33]
    exacts [h.p, h.rw, h.us, h.ps, h.pBase]
  · have h33 : (haltPaging L pid terminal t).pageDir 33 = t.pageDir 33 :=
      haltPaging_pageDir_of_ne _ _ _ _ (by decide) (by decide)
    refine ⟨?_, ?_, ?_, ?_, ?_, by rw [haltPaging_pageDir, mbEntry_ps]⟩ <;> rw [h33]
    exacts [h.p, h.rw, h.us, h.ps, h.pBase]
  · exact ⟨h.p, h.rw, h.us, h.ps, h.pBase, h.large⟩

/-- The page table entry for an address of the window. -/
theorem walkEntry_eq (h : WindowEntry L t) (mem : Word → Byte) (va : Word) :
    walkEntry L t mem (t.pageDir 33) va =
      t.videoMappingPage (Fin.ofNat 1024 (va.toNat / 2 ^ 12)) := by
  rw [walkEntry, h.pBase, tableEntry, if_neg L.tables_ne.symm, if_pos rfl]

end WindowEntry

/-! ## After a successful call -/

/-- The address `k` bytes into the window. -/
def windowAddr (k : ℕ) : Word := 0x8400000 + BitVec.ofNat 32 k

/-- The window shows the screen: its addresses are translated for user mode, and the two
entries they go through allow writing. -/
structure WindowOpen (L : Link) (t : PageTables) (mem : Word → Byte) : Prop where
  shows : ∀ k < 4096, walk L t mem true (windowAddr k) = some (0xB8000 + BitVec.ofNat 32 k)
  writable : ∀ k < 4096, Kb.rw.get (dirEntry t (windowAddr k)) = 1 ∧
    Pte.rw.get (walkEntry L t mem (dirEntry t (windowAddr k)) (windowAddr k)) = 1

theorem toNat_windowAddr {k : ℕ} (hk : k < 4096) : (windowAddr k).toNat = 0x8400000 + k := by
  have hbase : (0x8400000 : Word).toNat = 0x8400000 := rfl
  rw [windowAddr, BitVec.toNat_add, BitVec.toNat_ofNat, hbase]
  omega

section window

variable {t : PageTables} {k : ℕ}

theorem dirEntry_windowAddr (t : PageTables) (hk : k < 4096) :
    dirEntry t (windowAddr k) = t.pageDir 33 := by
  have h33 : Fin.ofNat 1024 ((windowAddr k).toNat / 2 ^ 22) = 33 := by
    rw [toNat_windowAddr hk]
    exact Fin.ext (by rw [Fin.val_ofNat]; omega)
  rw [dirEntry, h33]

/-- The entry that `vidmap_function` has filled. -/
theorem WindowEntry.walkEntry_vidmap (h : WindowEntry L t) (mem : Word → Byte) (hk : k < 4096) :
    walkEntry L (vidmapPaging t) mem (t.pageDir 33) (windowAddr k) =
      pteEntry 1 1 0xB8 (t.videoMappingPage 0) := by
  have hzero : Fin.ofNat 1024 ((windowAddr k).toNat / 2 ^ 12) = 0 := by
    rw [toNat_windowAddr hk]
    refine Fin.ext ?_
    rw [Fin.val_ofNat]
    show _ = 0
    omega
  have hkept := (WindowEntry.kept L).vidmap t h
  have hentry := hkept.walkEntry_eq mem (windowAddr k)
  rw [hzero] at hentry
  rw [vidmapPaging] at hentry ⊢
  simpa only [Function.update_self] using hentry

/-- The translation of an address of the window, in both modes. -/
theorem WindowEntry.walk_vidmap (h : WindowEntry L t) (mem : Word → Byte) (user : Bool)
    (hk : k < 4096) : walk L (vidmapPaging t) mem user (windowAddr k) =
      some (0xB8000 + BitVec.ofNat 32 k) := by
  have hdir : dirEntry (vidmapPaging t) (windowAddr k) = t.pageDir 33 :=
    dirEntry_windowAddr _ hk
  have haddr : ((0xB8 : BitVec 20) ++ (windowAddr k).setWidth 12 : Word) =
      0xB8000 + BitVec.ofNat 32 k := by
    have hbase : (0xB8 : BitVec 20).toNat = 0xB8 := rfl
    have hscreen : (0xB8000 : Word).toNat = 0xB8000 := rfl
    refine BitVec.eq_of_toNat_eq ?_
    rw [toNat_smallPage, hbase, toNat_windowAddr hk, BitVec.toNat_add, hscreen,
      BitVec.toNat_ofNat]
    omega
  have hbase : (0xB8 : Word).setWidth 20 = 0xB8 := by decide
  have hone : (1 : Word).setWidth 1 = 1 := by decide
  have hzero : ¬ (0 : BitVec 1) = 1 := by decide
  simp only [walk, hdir, h.p, h.us, h.ps, h.walkEntry_vidmap mem hk, pteEntry_p, pteEntry_us,
    pteEntry_pBase, hone, hbase, haddr, hzero, implies_true, and_self, if_true, if_false]

/-- After the assignments of `vidmap_function` the window is open. -/
theorem WindowEntry.windowOpen (h : WindowEntry L t) (mem : Word → Byte) :
    WindowOpen L (vidmapPaging t) mem := by
  refine ⟨fun k hk => h.walk_vidmap mem true hk, fun k hk => ?_⟩
  have hdir : dirEntry (vidmapPaging t) (windowAddr k) = t.pageDir 33 :=
    dirEntry_windowAddr _ hk
  rw [hdir, h.walkEntry_vidmap mem hk]
  exact ⟨h.rw, pteEntry_rw _ _ _ _⟩

end window

/-! ## The call -/

/-- One step of the kernel: a program is executed, a process halts, or what is left of
`halt` is done after the shell that replaced a base shell, `vidmap` is called, or the
terminal is switched; with any command and from any state. -/
inductive PagingStep (L : Link) (fs : FileSystem) (s : Kernel) : Kernel → Prop where
  | executes (cs : CallSite) (command : List Byte) :
      PagingStep L fs s (executeFunction L fs cs (some command) s).2
  | halts (cs : CallSite) (status : Byte) : PagingStep L fs s (haltFunction L fs cs status s).state
  | finishes (status : Byte) : PagingStep L fs s (haltRest L status s).state
  | vidmaps (screenStart : Word) : PagingStep L fs s (vidmapFunction L screenStart s).2
  | switches (cs : CallSite) (source target : Fin 3) :
      PagingStep L fs s (switchTerminal L fs cs source target s).2

/-- In every run from boot on. -/
theorem WindowEntry.run {mem : Word → Byte} {t : PageTables} {s : Kernel}
    (hrun : ReflTransGen (PagingStep L fs) (bootKernel L mem t) s) : WindowEntry L s.pages := by
  induction hrun with
  | refl => exact WindowEntry.init L t
  | tail _ hstep ih =>
    cases hstep with
    | executes cs command => exact (kept L).executes ih rfl
    | halts cs status => exact (kept L).halts ih fs cs status
    | finishes status => exact (kept L).finishes ih status
    | vidmaps screenStart => exact (kept L).vidmaps ih screenStart
    | switches cs source target => exact (kept L).switches ih fs cs source target

/-- The call returns 0: it accepts the pointer, and the store through it hits no missing
page, which would raise the page fault exception. -/
def VidmapReturns (L : Link) (screenStart : Word) (s : Kernel) : Prop :=
  (vidmapFunction L screenStart s).1 = 0 ∧ ∀ k < 4,
    (walk L (vidmapPaging s.pages) s.console.mem false (screenStart + BitVec.ofNat 32 k)).isSome

/-- What is expected of `vidmap_function`: a call that returns 0 stores inside the user
page and leaves the window open, and one that returns -1 changes nothing. -/
structure VidmapMeets (L : Link) (screenStart : Word) (s : Kernel) : Prop where
  inside : VidmapReturns L screenStart s → ∀ k < 4,
    0x8000000 ≤ (screenStart + BitVec.ofNat 32 k).toNat ∧
      (screenStart + BitVec.ofNat 32 k).toNat < 0x8400000
  opens : VidmapReturns L screenStart s → WindowOpen L (vidmapFunction L screenStart s).2.pages
    (vidmapFunction L screenStart s).2.console.mem
  refused : (vidmapFunction L screenStart s).1 = -1 → (vidmapFunction L screenStart s).2 = s

section call

variable {s : Kernel} {screenStart : Word}

theorem vidmapFunction_refused (h : screenStart.toNat < 0x8000000 ∨ 0x8400000 < screenStart.toNat)
    (L : Link) (s : Kernel) : vidmapFunction L screenStart s = (-1, s) := by
  by_cases hnull : screenStart = 0
  · rw [vidmapFunction, if_pos hnull]
  · rw [vidmapFunction, if_neg hnull, if_pos h]

theorem vidmapFunction_accepted (hlow : 0x8000000 ≤ screenStart.toNat)
    (hhigh : screenStart.toNat ≤ 0x8400000) (L : Link) (s : Kernel) :
    (vidmapFunction L screenStart s).1 = 0 ∧
      (vidmapFunction L screenStart s).2.pages = vidmapPaging s.pages := by
  have hne : screenStart ≠ 0 := by
    rintro rfl
    exact absurd hlow (by decide)
  rw [vidmapFunction, if_neg hne, if_neg (by omega)]
  exact ⟨rfl, rfl⟩

/-- The pointers that are accepted. -/
theorem vidmapFunction_accepts (hret : (vidmapFunction L screenStart s).1 = 0) :
    0x8000000 ≤ screenStart.toNat ∧ screenStart.toNat ≤ 0x8400000 := by
  by_contra hout
  have hrefused := vidmapFunction_refused (by omega : screenStart.toNat < 0x8000000 ∨
    0x8400000 < screenStart.toNat) L s
  rw [hrefused] at hret
  simp at hret

/-- A call that returns -1 changes nothing. -/
theorem vidmapFunction_state (hret : (vidmapFunction L screenStart s).1 = -1) :
    (vidmapFunction L screenStart s).2 = s := by
  by_cases hout : screenStart.toNat < 0x8000000 ∨ 0x8400000 < screenStart.toNat
  · rw [vidmapFunction_refused hout]
  · have hin := not_or.mp hout
    rw [(vidmapFunction_accepted (Nat.not_lt.mp hin.1) (Nat.not_lt.mp hin.2) L s).1] at hret
    simp at hret

theorem toNat_screenStart {k : ℕ} (h : screenStart.toNat ≤ 0x8400000) (hk : k < 4) :
    (screenStart + BitVec.ofNat 32 k).toNat = screenStart.toNat + k := by
  rw [BitVec.toNat_add, BitVec.toNat_ofNat]
  omega

/-- In the user page an address is translated exactly if the page is present. -/
theorem walk_userPage_isSome {t : PageTables} (h : WindowEntry L t) (mem : Word → Byte) {va : Word}
    (hlow : 0x8000000 ≤ va.toNat) (hhigh : va.toNat < 0x8400000) :
    (walk L (vidmapPaging t) mem false va).isSome ↔ Kb.p.get (t.pageDir 32) = 1 := by
  have h32 : Fin.ofNat 1024 (va.toNat / 2 ^ 22) = 32 :=
    Fin.ext (by rw [Fin.val_ofNat]; omega)
  have hdir : dirEntry (vidmapPaging t) va = t.pageDir 32 := by
    rw [dirEntry, h32]
    rfl
  simp only [walk, hdir, h.large, Bool.false_eq_true, false_imp_iff, and_true, if_true]
  split
  · next hp => exact iff_of_true rfl hp
  · next hp => exact iff_of_false (by simp) hp

/-- If the user page is present the four bytes in question are backed by pages. -/
theorem vidmapReturns_of_present (h : WindowEntry L s.pages) (hlow : 0x8000000 ≤ screenStart.toNat)
    (hhigh : screenStart.toNat ≤ 0x8400000)
    (hp : screenStart.toNat < 0x8400000 → Kb.p.get (s.pages.pageDir 32) = 1) :
    VidmapReturns L screenStart s := by
  refine ⟨(vidmapFunction_accepted hlow hhigh L s).1, fun k hk => ?_⟩
  have hnat := toNat_screenStart hhigh hk
  by_cases hin : (screenStart + BitVec.ofNat 32 k).toNat < 0x8400000
  · exact (walk_userPage_isSome h _ (by omega) hin).mpr (hp (by omega))
  · -- behind the user page the window follows
    have hwindow : screenStart + BitVec.ofNat 32 k =
        windowAddr ((screenStart + BitVec.ofNat 32 k).toNat - 0x8400000) := by
      refine BitVec.eq_of_toNat_eq ?_
      rw [toNat_windowAddr (by omega)]
      omega
    rw [hwindow, h.walk_vidmap _ _ (by omega)]
    rfl

namespace VidmapReturns

/-- A call that returns 0 leaves the window open. -/
theorem windowOpen (hreturns : VidmapReturns L screenStart s) (h : WindowEntry L s.pages) :
    WindowOpen L (vidmapFunction L screenStart s).2.pages
      (vidmapFunction L screenStart s).2.console.mem := by
  obtain ⟨hlow, hhigh⟩ := vidmapFunction_accepts hreturns.1
  rw [(vidmapFunction_accepted hlow hhigh L s).2]
  exact h.windowOpen _

/-- If its first byte is in the user page, the page is present. -/
theorem present (hreturns : VidmapReturns L screenStart s) (h : WindowEntry L s.pages)
    (hlt : screenStart.toNat < 0x8400000) : Kb.p.get (s.pages.pageDir 32) = 1 := by
  obtain ⟨hlow, hhigh⟩ := vidmapFunction_accepts hreturns.1
  have hnat := toNat_screenStart hhigh (by decide : 0 < 4)
  exact (walk_userPage_isSome h _ (by omega) (by omega)).mp (hreturns.2 0 (by decide))

end VidmapReturns

end call

/-- In every state that can be reached, a `vidmap` call does what is expected of it exactly
if the pointer is at least four bytes below the end of the user page, or is refused for
being above it, or no process has been started yet and the store faults in its first
byte. -/
theorem vidmap_meets_iff {mem : Word → Byte} {t : PageTables} {s : Kernel}
    (hrun : ReflTransGen (PagingStep L fs) (bootKernel L mem t) s) (screenStart : Word) :
    VidmapMeets L screenStart s ↔ screenStart.toNat + 4 ≤ 0x8400000 ∨
      0x8400000 < screenStart.toNat ∨
      screenStart.toNat < 0x8400000 ∧ Kb.p.get (s.pages.pageDir 32) ≠ 1 := by
  have h := WindowEntry.run hrun
  constructor
  · intro hmeets
    by_contra hcond
    obtain ⟨hlate, hcond⟩ := not_or.mp hcond
    obtain ⟨hle, hpresent⟩ := not_or.mp hcond
    have hreturns : VidmapReturns L screenStart s :=
      vidmapReturns_of_present h (by omega) (by omega)
        fun hlt => not_not.mp fun hp => hpresent ⟨hlt, hp⟩
    have hthird := (hmeets.inside hreturns 3 (by decide)).2
    rw [toNat_screenStart (by omega) (by decide)] at hthird
    omega
  · intro hcond
    refine ⟨fun hreturns k hk => ?_, fun hreturns => hreturns.windowOpen h, vidmapFunction_state⟩
    obtain ⟨hlow, hhigh⟩ := vidmapFunction_accepts hreturns.1
    rw [toNat_screenStart hhigh hk]
    rcases hcond with hearly | hlate | ⟨hlt, hmissing⟩
    · omega
    · omega
    · -- the first byte is not backed
      exact absurd (hreturns.present h hlt) hmissing

/-- The base shell passes an address in its page. -/
theorem vidmap_meets_sample : VidmapMeets Sample.link 0x8001000 Sample.running :=
  (vidmap_meets_iff (.single (.executes Sample.site shellCommand)) 0x8001000).mpr
    (Or.inl (by decide))

/-- The base shell passes the address right behind its page: the call succeeds and the
bytes are stored in the window, onto the screen. -/
theorem pointer_behind_page : ¬ VidmapMeets Sample.link 0x8400000 Sample.running := by
  intro h
  have hrun : ReflTransGen (PagingStep Sample.link Sample.files) Sample.atBoot Sample.running :=
    .single (.executes Sample.site shellCommand)
  have hreturns : VidmapReturns Sample.link 0x8400000 Sample.running :=
    vidmapReturns_of_present (WindowEntry.run hrun) (by decide) (by decide)
      fun hlt => absurd hlt (by decide)
  exact absurd (h.inside hreturns 0 (by decide)).2 (by decide)

end Os391
