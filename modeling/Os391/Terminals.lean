import Os391.Steps
import Os391.Lib.Copying

/-!
# Three screens on one page

`switch_terminal` saves the video page and the cursor of the terminal it leaves
and brings back those of the terminal it goes to. Seen from outside there are
three independent screens, of which one is shown: drawing changes the one that is
shown, switching changes only which one that is. `Kernel.screens` reads the three
screens off the state, the shown one from the video page and the others from the
backing pages; every run of the kernel is then a run of the three screens.
-/

namespace Os391

open Bytes Copying Relation

variable {L : Link} {fs : FileSystem} {cs : CallSite}

/-! ## Copying pages -/

/-- The 4096 bytes from an address on. -/
def pageAt (mem : Word → Byte) (a : Word) : Fin 4096 → Byte :=
  fun k => mem (a + BitVec.ofNat 32 k.val)

/-- The address of the live page and of the backing pages, by number: the backing page
of terminal `t` has number `t + 1`. -/
def pageBase (m : Fin 4) : Word := 0xB8000 + 0x1000 * BitVec.ofNat 32 m.val

theorem pageBase_zero : pageBase 0 = 0xB8000 := rfl

theorem terminalPage_eq (t : Fin 3) : terminalPage t = pageBase t.succ := by
  revert t
  decide

theorem toNat_pageBase (m : Fin 4) : (pageBase m).toNat = 0xB8000 + 0x1000 * m.val := by
  revert m
  decide

/-- Bytes of the four pages have different addresses. -/
theorem pageBase_add_inj {m n : Fin 4} {j k : ℕ} (hj : j < 4096) (hk : k < 4096)
    (h : pageBase m + BitVec.ofNat 32 j = pageBase n + BitVec.ofNat 32 k) : m = n ∧ j = k := by
  have hm := m.isLt
  have hn := n.isLt
  have hnat := congrArg BitVec.toNat h
  rw [BitVec.toNat_add, BitVec.toNat_add, BitVec.toNat_ofNat, BitVec.toNat_ofNat, toNat_pageBase,
    toNat_pageBase] at hnat
  exact ⟨Fin.ext (by omega), by omega⟩

/-- The turn of the loop in `memcpy`. -/
def copyStep (dest src : Word) (c : Console) (k : ℕ) : Console :=
  c.poke (dest + BitVec.ofNat 32 k) (c.mem (src + BitVec.ofNat 32 k))

theorem memcpy_eq_loop (c : Console) (dest src : Word) (n : ℕ) :
    c.memcpy dest src n = loop (copyStep dest src) n c := by
  induction n with
  | zero => rw [Console.memcpy, loop_zero]
  | succ n ih =>
    rw [Console.memcpy, loop_succ, ← ih]
    rfl

theorem stores_copyStep (dest src : Word) (n : ℕ) :
    StoresAt Console.mem (copyStep dest src) (fun k => dest + BitVec.ofNat 32 k)
      (fun k c => c.mem (src + BitVec.ofNat 32 k)) n := by
  refine ⟨fun c k _ => ?_, fun c k _ a ha => ?_⟩
  · rw [copyStep, Console.poke_mem, Function.update_self]
  · rw [copyStep, Console.poke_mem, Function.update_of_ne ha]

section pages

variable {m n q : Fin 4} (c : Console)

/-- The copied page. -/
theorem page_memcpy_self (h : m ≠ n) :
    pageAt (c.memcpy (pageBase m) (pageBase n) 4096).mem (pageBase m) =
      pageAt c.mem (pageBase n) := by
  funext k
  rw [pageAt, memcpy_eq_loop, pageAt]
  refine (stores_copyStep (pageBase m) (pageBase n) 4096).loop_self (s := c) ?_ ?_ k.isLt
  · intro i j hij hj heq
    exact absurd (pageBase_add_inj (hij.trans hj) hj heq).2 (Nat.ne_of_lt hij)
  · intro j hj d hd
    exact hd _ fun i hi heq => h (pageBase_add_inj hj (hi.trans hj) heq).1.symm

/-- The other pages. -/
theorem page_memcpy_other (h : q ≠ m) :
    pageAt (c.memcpy (pageBase m) (pageBase n) 4096).mem (pageBase q) =
      pageAt c.mem (pageBase q) := by
  funext k
  rw [pageAt, memcpy_eq_loop, pageAt]
  refine (stores_copyStep (pageBase m) (pageBase n) 4096).loop_other (fun j hj heq => ?_) c
  exact h (pageBase_add_inj k.isLt hj heq).1

end pages

/-! ## The three screens -/

/-- A page of video memory and a cursor. -/
structure Screen : Type where
  page : Fin 4096 → Byte
  x : Int
  y : Int

/-- Three screens, one of which is shown. -/
structure Screens : Type where
  current : Fin 3
  screen : Fin 3 → Screen

/-- What can be done with three screens. -/
inductive Screens.Op : Type where
  /-- the shown screen gets other contents -/
  | draw : Screen → Op
  /-- another screen is shown -/
  | switch : Fin 3 → Op

/-- Each operation on the three screens. -/
def Screens.apply (A : Screens) : Screens.Op → Screens
  | .draw v => { A with screen := Function.update A.screen A.current v }
  | .switch t => { A with current := t }

theorem Screens.apply_draw_screen (A : Screens) (v : Screen) :
    (A.apply (.draw v)).screen = Function.update A.screen A.current v := rfl

namespace Kernel

/-- What is on the video page. -/
def live (s : Kernel) : Screen := ⟨pageAt s.console.mem 0xB8000, s.console.screenX, s.console.screenY⟩

/-- What is saved for a terminal. -/
def saved (s : Kernel) (t : Fin 3) : Screen :=
  ⟨pageAt s.console.mem (terminalPage t), (s.terminals t).cursorX.toNat, (s.terminals t).cursorY.toNat⟩

/-- The three screens the state stands for. -/
def screens (s : Kernel) : Screens :=
  ⟨s.curTerminal, fun t => if t = s.curTerminal then s.live else s.saved t⟩

theorem screens_self (s : Kernel) : s.screens.screen s.curTerminal = s.live := if_pos rfl

theorem screens_of_ne (s : Kernel) {t : Fin 3} (h : t ≠ s.curTerminal) :
    s.screens.screen t = s.saved t := if_neg h

/-- The state stands for three given screens. -/
theorem screens_eq {s : Kernel} {A : Screens} (hcur : s.curTerminal = A.current)
    (hlive : s.live = A.screen s.curTerminal)
    (hsaved : ∀ t, t ≠ s.curTerminal → s.saved t = A.screen t) : s.screens = A := by
  obtain ⟨current, screen⟩ := A
  obtain rfl := hcur
  refine congrArg (Screens.mk s.curTerminal) (funext fun t => ?_)
  by_cases ht : t = s.curTerminal
  · rw [if_pos ht, hlive, ht]
  · rw [if_neg ht]
    exact hsaved t ht

end Kernel

/-- The cursor fits into the two words it is saved in. -/
structure CursorFits (s : Kernel) : Prop where
  x_nonneg : 0 ≤ s.console.screenX
  x_le : s.console.screenX ≤ 65535
  y_nonneg : 0 ≤ s.console.screenY
  y_le : s.console.screenY ≤ 65535

/-- The terminals other than 0 run already. -/
def OthersRunning (s : Kernel) : Prop := ∀ t, t ≠ 0 → (s.terminals t).running ≠ 0

/-- An update in the foreground: the video page, the cursor and `latest_pid` of the
current terminal may change in any way, and so may whatever `switch_terminal` does not
look at. -/
structure Foreground (s s' : Kernel) : Prop where
  curTerminal : s'.curTerminal = s.curTerminal
  others : ∀ t, t ≠ s.curTerminal → s'.terminals t = s.terminals t
  running : (s'.terminals s.curTerminal).running = (s.terminals s.curTerminal).running
  backing : ∀ t, t ≠ s.curTerminal →
    pageAt s'.console.mem (terminalPage t) = pageAt s.console.mem (terminalPage t)
  cursor : CursorFits s'

/-- One step, and what it does to the three screens: an update in the foreground, or a
switch away from the current terminal. -/
inductive ScreensStep (L : Link) (fs : FileSystem) (s : Kernel) : Screens.Op → Kernel → Prop where
  | draws {s' : Kernel} : Foreground s s' → ScreensStep L fs s (.draw s'.live) s'
  | switches (cs : CallSite) (t : Fin 3) :
      ScreensStep L fs s (.switch t) (switchTerminal L fs cs s.curTerminal t s).2

/-- A run, with what its steps do to the three screens. -/
inductive ScreensRun (L : Link) (fs : FileSystem) (s₀ : Kernel) : List Screens.Op → Kernel → Prop where
  | start : ScreensRun L fs s₀ [] s₀
  | step {ops : List Screens.Op} {op : Screens.Op} {s s' : Kernel} : ScreensRun L fs s₀ ops s →
      ScreensStep L fs s op s' → ScreensRun L fs s₀ (ops ++ [op]) s'

/-! ## One switch -/

section switch

variable {s : Kernel} {t : Fin 3}

/-- A coordinate comes back from the word it is saved in. -/
theorem toNat_ofInt_coordinate {x : Int} (h₀ : 0 ≤ x) (h : x ≤ 65535) :
    ((BitVec.ofInt 16 x).toNat : Int) = x := by
  rw [BitVec.toNat_ofInt]
  omega

/-- The two copies of a switch. -/
theorem showTerminal_mem (source target : Fin 3) (s : Kernel) :
    (showTerminal source target s).console.mem =
      ((s.console.memcpy (pageBase source.succ) (pageBase 0) 4096).memcpy (pageBase 0)
        (pageBase target.succ) 4096).mem := by
  rw [← terminalPage_eq, ← terminalPage_eq, pageBase_zero]
  rfl

/-- The words saved for the other terminals stay. -/
theorem showTerminal_terminals_of_ne {source target u : Fin 3} (h : u ≠ source) (s : Kernel) :
    (showTerminal source target s).terminals u = s.terminals u := by
  rw [showTerminal]
  exact Function.update_of_ne h _ _

/-- To another terminal: what was saved for it is shown. -/
theorem showTerminal_live (h : t ≠ s.curTerminal) :
    (showTerminal s.curTerminal t s).live = s.saved t := by
  have hpage : (0 : Fin 4) ≠ t.succ := (Fin.succ_ne_zero t).symm
  have hother : t.succ ≠ s.curTerminal.succ := fun heq => h (Fin.succ_inj.mp heq)
  have hmem : pageAt (showTerminal s.curTerminal t s).console.mem 0xB8000 =
      pageAt s.console.mem (terminalPage t) := by
    rw [showTerminal_mem, ← pageBase_zero, page_memcpy_self _ hpage, page_memcpy_other _ hother,
      terminalPage_eq]
  have hterm : (showTerminal s.curTerminal t s).terminals t = s.terminals t :=
    showTerminal_terminals_of_ne h s
  have hx : (showTerminal s.curTerminal t s).console.screenX =
      ((showTerminal s.curTerminal t s).terminals t).cursorX.toNat := rfl
  have hy : (showTerminal s.curTerminal t s).console.screenY =
      ((showTerminal s.curTerminal t s).terminals t).cursorY.toNat := rfl
  rw [Kernel.live, Kernel.saved, hmem, hx, hy, hterm]

/-- What was shown is saved for the terminal it was shown on. -/
theorem showTerminal_saved_self (hfits : CursorFits s) :
    (showTerminal s.curTerminal t s).saved s.curTerminal = s.live := by
  have hpage : s.curTerminal.succ ≠ 0 := Fin.succ_ne_zero _
  have hmem : pageAt (showTerminal s.curTerminal t s).console.mem (terminalPage s.curTerminal) =
      pageAt s.console.mem 0xB8000 := by
    rw [showTerminal_mem, terminalPage_eq, page_memcpy_other _ hpage, page_memcpy_self _ hpage,
      pageBase_zero]
  have hterm : (showTerminal s.curTerminal t s).terminals s.curTerminal =
      { s.terminals s.curTerminal with
        cursorY := BitVec.ofInt 16 s.console.screenY
        cursorX := BitVec.ofInt 16 s.console.screenX } := by
    rw [showTerminal]
    exact Function.update_self _ _ _
  rw [Kernel.live, Kernel.saved, hmem, hterm]
  dsimp only
  rw [toNat_ofInt_coordinate hfits.x_nonneg hfits.x_le,
    toNat_ofInt_coordinate hfits.y_nonneg hfits.y_le]

/-- What is saved for the other terminals stays. -/
theorem showTerminal_saved_other {u : Fin 3} (hu : u ≠ s.curTerminal) :
    (showTerminal s.curTerminal t s).saved u = s.saved u := by
  have hpage : u.succ ≠ 0 := Fin.succ_ne_zero _
  have hother : u.succ ≠ s.curTerminal.succ := fun heq => hu (Fin.succ_inj.mp heq)
  have hmem : pageAt (showTerminal s.curTerminal t s).console.mem (terminalPage u) =
      pageAt s.console.mem (terminalPage u) := by
    rw [showTerminal_mem, terminalPage_eq, page_memcpy_other _ hpage, page_memcpy_other _ hother]
  rw [Kernel.saved, Kernel.saved, hmem, showTerminal_terminals_of_ne hu]

/-- With the other terminals running, a switch is all that `switch_terminal` does. -/
theorem switchTerminal_running (hrunning : OthersRunning s) (h : t ≠ s.curTerminal) :
    switchTerminal L fs cs s.curTerminal t s = (none, showTerminal s.curTerminal t s) := by
  refine switchTerminal_shows h.symm fun hnew => ?_
  rw [showTerminal_running] at hnew
  exact hrunning t hnew.2 hnew.1

/-- A switch switches the three screens. -/
theorem screens_switchTerminal (hrunning : OthersRunning s) (hfits : CursorFits s) :
    (switchTerminal L fs cs s.curTerminal t s).2.screens = s.screens.apply (.switch t) := by
  by_cases h : t = s.curTerminal
  · subst h
    rw [switchTerminal_same rfl]
    rfl
  · rw [switchTerminal_running hrunning h]
    refine Kernel.screens_eq rfl ?_ fun u hu => ?_
    · rw [showTerminal_live h]
      exact (s.screens_of_ne h).symm
    · by_cases hus : u = s.curTerminal
      · subst hus
        rw [showTerminal_saved_self hfits]
        exact s.screens_self.symm
      · rw [showTerminal_saved_other hus]
        exact (s.screens_of_ne hus).symm

end switch

/-! ## Runs -/

section runs

variable {s s' : Kernel} {op : Screens.Op}

/-- Drawing draws on the shown screen. -/
theorem Foreground.screens (h : Foreground s s') :
    s'.screens = s.screens.apply (.draw s'.live) := by
  refine Kernel.screens_eq h.curTerminal ?_ fun u hu => ?_
  · have hself : Function.update s.screens.screen s.curTerminal s'.live s.curTerminal = s'.live :=
      Function.update_self _ _ _
    rw [h.curTerminal, Screens.apply_draw_screen]
    exact hself.symm
  · rw [h.curTerminal] at hu
    have hsaved : s'.saved u = s.saved u := by
      rw [Kernel.saved, Kernel.saved, h.others u hu, h.backing u hu]
    rw [hsaved, ← s.screens_of_ne hu, Screens.apply_draw_screen]
    exact (Function.update_of_ne hu _ _).symm

/-- Each step does to the three screens what it is labelled with, and keeps what the next
switch relies on. -/
theorem ScreensStep.screens (hstep : ScreensStep L fs s op s') (hrunning : OthersRunning s)
    (hfits : CursorFits s) :
    s'.screens = s.screens.apply op ∧ OthersRunning s' ∧ CursorFits s' := by
  cases hstep with
  | draws h =>
    refine ⟨h.screens, fun t ht => ?_, h.cursor⟩
    by_cases hcur : t = s.curTerminal
    · subst hcur
      rw [h.running]
      exact hrunning _ ht
    · rw [h.others t hcur]
      exact hrunning t ht
  | switches cs t =>
    refine ⟨screens_switchTerminal hrunning hfits, ?_⟩
    by_cases h : t = s.curTerminal
    · subst h
      rw [switchTerminal_same rfl]
      exact ⟨hrunning, hfits⟩
    · rw [switchTerminal_running hrunning h]
      refine ⟨fun u hu => ?_, ?_⟩
      · rw [showTerminal_running]
        exact hrunning u hu
      · -- the cursor now comes from two words of 16 bits
        have hx := (((showTerminal s.curTerminal t s).terminals t).cursorX).isLt
        have hy := (((showTerminal s.curTerminal t s).terminals t).cursorY).isLt
        exact ⟨Int.natCast_nonneg _, Int.ofNat_le.mpr (Nat.le_of_lt_succ hx), Int.natCast_nonneg _,
          Int.ofNat_le.mpr (Nat.le_of_lt_succ hy)⟩

end runs

/-- With the other terminals running, along every run of foreground updates and switches the
page, the backing pages and the cursors are three independent screens. In each state
reached a switch shows the target's screen as it was left, sets `pid` to its
`latest_pid`, and leaves what is saved for the third terminal alone. -/
theorem screens_run {s₀ s : Kernel} {ops : List Screens.Op} (hrunning : OthersRunning s₀)
    (hfits : CursorFits s₀) (hrun : ScreensRun L fs s₀ ops s) :
    s.screens = ops.foldl Screens.apply s₀.screens ∧
      ∀ cs t, let s' := (switchTerminal L fs cs s.curTerminal t s).2
        s'.curTerminal = t ∧ s'.live = s.screens.screen t ∧
          (t ≠ s.curTerminal → s'.pid = (s'.terminals t).latestPid) ∧
          ∀ u, u ≠ s.curTerminal → u ≠ t → s'.saved u = s.saved u := by
  have h : s.screens = ops.foldl Screens.apply s₀.screens ∧ OthersRunning s ∧ CursorFits s := by
    induction hrun with
    | start => exact ⟨rfl, hrunning, hfits⟩
    | step _ hstep ih =>
      obtain ⟨hscreens, hkept, hcursor⟩ := ih
      obtain ⟨hnext, hthen⟩ := hstep.screens hkept hcursor
      rw [List.foldl_append, ← hscreens]
      exact ⟨hnext, hthen⟩
  obtain ⟨hscreens, hkept, hcursor⟩ := h
  refine ⟨hscreens, fun cs t => ?_⟩
  by_cases ht : t = s.curTerminal
  · subst ht
    rw [switchTerminal_same rfl]
    exact ⟨rfl, s.screens_self.symm, fun hne => absurd rfl hne, fun u _ _ => rfl⟩
  · rw [switchTerminal_running hkept ht]
    refine ⟨rfl, ?_, fun _ => rfl, fun u hu _ => showTerminal_saved_other hu⟩
    rw [showTerminal_live ht, s.screens_of_ne ht]

/-- A kernel with all terminals running and the cursor in the second row. -/
def Sample.allRunning : Kernel :=
  { Sample.atBoot with console := ⟨fun _ => 0, 3, 1⟩, terminals := fun _ => ⟨0, 0, 1, 0⟩ }

/-- With a byte stored in the first cell, and the cursor moved. -/
def Sample.drawn : Kernel :=
  { Sample.allRunning with console := ⟨Function.update (fun _ => 0) 0xB8000 0x61, 4, 1⟩ }

theorem Sample.foreground_drawn : Foreground Sample.allRunning Sample.drawn := by
  refine ⟨rfl, fun _ _ => rfl, rfl, fun t _ => ?_, ⟨by decide, by decide, by decide, by decide⟩⟩
  rw [terminalPage_eq]
  funext k
  have hne : pageBase t.succ + BitVec.ofNat 32 k.val ≠ 0xB8000 := fun heq =>
    Fin.succ_ne_zero t (@pageBase_add_inj _ 0 _ 0 k.isLt (by decide) heq).1
  change Function.update (fun _ => (0 : Byte)) 0xB8000 0x61 _ = 0
  exact Function.update_of_ne hne _ _

/-- Something is drawn on terminal 0, and the terminal is switched to 1: the screen of 1 is as
it was. Switched back, what was drawn is shown again. -/
theorem screens_run_sample :
    let s := (switchTerminal Sample.link Sample.files Sample.site 0 1 Sample.drawn).2
    s.live = Sample.allRunning.screens.screen 1 ∧
      (switchTerminal Sample.link Sample.files Sample.site s.curTerminal 0 s).2.live =
        Sample.drawn.live := by
  have hrun : ScreensRun Sample.link Sample.files Sample.allRunning
      [.draw Sample.drawn.live, .switch 1]
      (switchTerminal Sample.link Sample.files Sample.site 0 1 Sample.drawn).2 :=
    (ScreensRun.start.step (.draws Sample.foreground_drawn)).step (.switches Sample.site 1)
  obtain ⟨hscreens, hswitch⟩ := screens_run
    (fun _ _ hzero => absurd hzero (by decide : (1 : Word) ≠ 0))
    ⟨by decide, by decide, by decide, by decide⟩ hrun
  constructor
  · rw [← Kernel.screens_self]
    exact congrArg (fun A => A.screen A.current) hscreens
  · exact (hswitch Sample.site 0).2.1.trans (congrArg (fun A => A.screen 0) hscreens)

end Os391
