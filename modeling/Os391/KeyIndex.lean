import Os391.Keyboard
import Os391.Lib.Runs

/-!
# The keyboard index

Every store into a keyboard buffer uses an index between 0 and 127, and the saved
indices stay there, exactly as long as Backspace is not pressed while `tab` is set
and nothing is in the line: the branch for a tab takes a byte off the line without
looking whether there is one, and `tab` outlives a `terminal_write` and a switch.
-/

namespace Os391

open Bytes Runs

/-- The index of a byte of the buffer. -/
def InBuffer (i : Int) : Prop := 0 ≤ i ∧ i ≤ 127

/-! ## One key press -/

namespace Keystroke

/-- All stores were into the buffer. -/
def StoresFit (k : Keystroke) : Prop := ∀ i ∈ k.stores, InBuffer i

/-- What a key press may leave: stores into the buffer, an index that can be copied back, and
the saved indices as they were. -/
structure PressFits (inds : Fin 3 → Int) (r : Bool × Keystroke) : Prop where
  stores : r.2.StoresFit
  index : r.1 = true → InBuffer r.2.keyboard.kbInd
  saved : r.2.keyboard.kbInds = inds

section press

variable {k : Keystroke} {ch : Byte}

theorem store_kbInds (ch : Byte) (kb : Keyboard) : (kb.store ch).kbInds = kb.kbInds := by
  rw [kb.store_eq]

/-- A byte appended at an index of the buffer. -/
theorem StoresFit.append (h : k.StoresFit) (hind : InBuffer k.keyboard.kbInd) (ch : Byte) :
    (k.append ch).StoresFit := by
  intro i hi
  rcases List.mem_append.mp hi with hold | hnew
  · exact h i hold
  · rw [List.mem_singleton.mp hnew]
    exact hind

/-- Ctrl+L leaves an index that was in the buffer there, and stores nothing. -/
theorem ctrlL_fits (h : InBuffer k.keyboard.kbInd) (ch : Byte) :
    InBuffer (k.ctrlL ch).keyboard.kbInd ∧ (k.ctrlL ch).stores = k.stores ∧
      (k.ctrlL ch).keyboard.kbInds = k.keyboard.kbInds := by
  rw [ctrlL]
  split
  · exact ⟨⟨le_rfl, (by decide : (0 : Int) ≤ 127)⟩, rfl, rfl⟩
  · exact ⟨h, rfl, rfl⟩

/-- Without copying the index back, only the stores matter. -/
theorem PressFits.early {inds : Fin 3 → Int} (hstores : k.StoresFit)
    (hsaved : k.keyboard.kbInds = inds) : PressFits inds (false, k) :=
  ⟨hstores, fun h => absurd h Bool.false_ne_true, hsaved⟩

/-- Without a store, and with an index in the buffer, nothing can go wrong. -/
theorem pressFits_of_same {inds : Fin 3 → Int} (hstores : k.StoresFit)
    (hind : InBuffer k.keyboard.kbInd) (hsaved : k.keyboard.kbInds = inds) :
    PressFits inds (if 127 ≤ k.keyboard.kbInd then (false, k) else (true, k)) := by
  split
  · exact PressFits.early hstores hsaved
  · exact ⟨hstores, fun _ => hind, hsaved⟩

/-- Backspace, unless `tab` is set and the line is empty. -/
theorem press_backspace_fits (hstores : k.StoresFit) (hind : InBuffer k.keyboard.kbInd)
    (hback : k.keyboard.tab ≠ 0 → k.keyboard.kbInd ≠ 0) :
    PressFits k.keyboard.kbInds (k.press chBackspace) := by
  obtain ⟨hlow, hhigh⟩ := hind
  have hless : k.keyboard.kbInd ≠ 0 → InBuffer (k.keyboard.kbInd - 1) := fun hne =>
    ⟨(by omega : 0 ≤ k.keyboard.kbInd - 1), (by omega : k.keyboard.kbInd - 1 ≤ 127)⟩
  rw [press_backspace]
  refine pressFits_of_same ?_ ?_ ?_ <;> rw [backspaceKey, if_pos rfl]
  · repeat' split
    all_goals exact hstores
  · split
    · rename_i htab
      exact hless (hback htab)
    · split
      · rename_i hne
        exact hless hne
      · exact ⟨hlow, hhigh⟩
  · repeat' split
    all_goals rfl

/-- A key that prints: Ctrl+L is looked for before and after its byte is stored. -/
theorem press_prints_fits (hstores : k.StoresFit) (hind : InBuffer k.keyboard.kbInd)
    (h : Prints ch) : PressFits k.keyboard.kbInds (k.press ch) := by
  rw [press_prints k h]
  obtain ⟨⟨hlow, hhigh⟩, hsame, hkept⟩ := ctrlL_fits (k := k.untab) hind ch
  have hfirst : (k.untab.ctrlL ch).StoresFit := by
    rw [StoresFit, hsame]
    exact hstores
  generalize k.untab.ctrlL ch = k' at *
  dsimp only
  split
  · exact PressFits.early hfirst hkept
  · have hprint : InBuffer (k'.printKey ch).keyboard.kbInd :=
      ⟨(by omega : 0 ≤ k'.keyboard.kbInd + 1), (by omega : k'.keyboard.kbInd + 1 ≤ 127)⟩
    obtain ⟨hlast, hstored, hsaved⟩ := ctrlL_fits hprint ch
    have hfit : (k'.printKey ch).StoresFit :=
      hfirst.append ⟨hlow, hhigh⟩ (shifted k'.keyboard.caps ch)
    refine ⟨fun i hi => hfit i (hstored ▸ hi), fun _ => hlast, hsaved.trans ?_⟩
    exact (store_kbInds (shifted k'.keyboard.caps ch) k'.keyboard).trans hkept

/-- Every key press that starts with an index in the buffer and is not the one Backspace. -/
theorem press_fits (hstores : k.StoresFit) (hind : InBuffer k.keyboard.kbInd) (ch : Byte)
    (hback : ch = chBackspace → k.keyboard.tab ≠ 0 → k.keyboard.kbInd ≠ 0) :
    PressFits k.keyboard.kbInds (k.press ch) := by
  rcases kind_cases ch with rfl | rfl | rfl | rfl | rfl | hprints
  · exact press_backspace_fits hstores hind (hback rfl)
  · rw [press_tab, tabKey, if_pos rfl]
    have hfit : (k.append chTab).StoresFit := hstores.append hind chTab
    have hkept := store_kbInds chTab k.keyboard
    obtain ⟨hlow, hhigh⟩ := hind
    dsimp only [append]
    split
    · exact PressFits.early hfit hkept
    · exact ⟨hfit, fun _ => ⟨(by omega : 0 ≤ k.keyboard.kbInd + 1),
        (by omega : k.keyboard.kbInd + 1 ≤ 127)⟩, hkept⟩
  · rw [press_newline]
    split
    · exact PressFits.early hstores rfl
    · have hfit : (k.untab.append (shifted k.keyboard.caps chNewline)).StoresFit :=
        StoresFit.append (k := k.untab) hstores hind _
      exact ⟨hfit, fun _ => ⟨le_rfl, (by decide : (0 : Int) ≤ 127)⟩,
        store_kbInds (shifted k.keyboard.caps chNewline) k.untab.keyboard⟩
  · rw [press_capsLock]
    split
    · exact PressFits.early hstores rfl
    · exact ⟨hstores, fun _ => hind, rfl⟩
  · rw [press_none]
    split
    · exact PressFits.early hstores rfl
    · exact ⟨hstores, fun _ => hind, rfl⟩
  · exact press_prints_fits hstores hind hprints

/-- Backspace behind a tab in an empty line: the index becomes -1 and is copied back. -/
theorem press_backspace_empty (htab : k.keyboard.tab ≠ 0) (hind : k.keyboard.kbInd = 0) :
    (k.press chBackspace).1 = true ∧ (k.press chBackspace).2.keyboard.kbInd = -1 := by
  have hdown : (k.backspaceKey chBackspace).untab.keyboard.kbInd = -1 := by
    rw [backspaceKey, if_pos rfl, if_pos htab]
    exact (congrArg (· - 1) hind).trans (by decide)
  rw [press_backspace]
  dsimp only
  rw [if_neg (by rw [hdown]; decide)]
  exact ⟨rfl, hdown⟩

end press

end Keystroke

/-! ## Runs -/

/-- What touches the indices: a scancode, and output of a program. -/
inductive IndexEvent : Type where
  | key : CallSite → Byte → IndexEvent
  | write : List Byte → IndexEvent

namespace IndexEvent

section

variable (L : Link) (fs : FileSystem)

/-- The event. -/
def run (s : Kernel) : IndexEvent → Kernel
  | key cs c => (keyboardHandler L fs cs c s).1
  | write bs => terminalWrite bs s

/-- The indices at which the event stores into a keyboard buffer. -/
def stores (s : Kernel) : IndexEvent → List Int
  | key cs c => (keyboardHandler L fs cs c s).2
  | write _ => []

/-- The event stores into the buffers only, and leaves the saved indices there. -/
def Safe (s : Kernel) (e : IndexEvent) : Prop :=
  (∀ i ∈ e.stores L fs s, InBuffer i) ∧ ∀ t, InBuffer ((e.run L fs s).keyboard.kbInds t)

end

/-- The event is not a Backspace that takes back a tab while the line is empty. -/
def Harmless (s : Kernel) : IndexEvent → Prop
  | key _ c => kbdus c = chBackspace → s.keyboard.tab ≠ 0 →
      s.keyboard.kbInds s.curTerminal ≠ 0
  | write _ => True

/-- The saved indices are in the buffers. -/
def Indexed (s : Kernel) : Prop := ∀ t, InBuffer (s.keyboard.kbInds t)

variable {L : Link} {fs : FileSystem} {s : Kernel} {e : IndexEvent}

/-- The index of one terminal replaced by one that is in the buffer. -/
theorem inBuffer_update {inds : Fin 3 → Int} {cur : Fin 3} {i : Int} (h : ∀ t, InBuffer (inds t))
    (hi : InBuffer i) (t : Fin 3) : InBuffer (Function.update inds cur i t) := by
  by_cases ht : t = cur
  · rw [ht, Function.update_self]
    exact hi
  · rw [Function.update_of_ne ht]
    exact h t

/-- What a harmless event does. -/
theorem safe_of_harmless (h : Indexed s) (he : Harmless s e) : Safe L fs s e := by
  cases e with
  | write bs =>
    refine ⟨fun i hi => absurd hi List.not_mem_nil, fun t => ?_⟩
    exact inBuffer_update h ⟨le_rfl, (by decide : (0 : Int) ≤ 127)⟩ t
  | key cs c =>
    have hinds := s.looked_kbInds c
    have hind := s.looked_kbInd c
    rw [Safe, stores, run]
    by_cases hc : c.toNat < 128
    · rcases htarget : switchTarget c (s.looked c) with _ | t
      · have hfits := Keystroke.press_fits (k := ⟨s.looked c, s.console, []⟩)
          (fun i hi => absurd hi List.not_mem_nil) (hind ▸ h s.curTerminal) (kbdus c)
          (fun hback htab => by
            have htab' : s.keyboard.tab ≠ 0 := fun h0 => htab ((s.looked_tab c).trans h0)
            exact fun h0 => he hback htab' (hind.symm.trans h0))
        rw [keyboardHandler_press hc htarget]
        refine ⟨hfits.stores, fun t => ?_⟩
        have hsaved := hfits.saved.trans hinds
        dsimp only
        split
        · rename_i hback
          rw [Keyboard.saveBack_kbInds, hsaved]
          exact inBuffer_update h (hfits.index hback) t
        · rw [hsaved]
          exact h t
      · rw [keyboardHandler_switch hc htarget]
        refine ⟨fun i hi => absurd hi List.not_mem_nil, fun t => ?_⟩
        rw [switchTerminal_keyboard, hinds]
        exact h t
    · rw [keyboardHandler_released (Nat.not_lt.mp hc)]
      refine ⟨fun i hi => absurd hi List.not_mem_nil, fun t => ?_⟩
      rw [Keyboard.saveBack_kbInds, hinds, hind]
      exact inBuffer_update h (h s.curTerminal) t

/-- The one Backspace leaves the index -1. -/
theorem not_safe_of_not_harmless (he : ¬ Harmless s e) : ¬ Safe L fs s e := by
  cases e with
  | write bs => exact absurd trivial he
  | key cs c =>
    simp only [Harmless, Classical.not_imp, not_not] at he
    obtain ⟨hback, htab, hind⟩ := he
    have hkey : kbdus c ≠ 0 := by
      rw [hback]
      decide
    obtain ⟨hcopied, hdown⟩ := Keystroke.press_backspace_empty
      (k := ⟨s.keyboard.select s.curTerminal, s.console, []⟩) htab hind
    rintro ⟨-, hsafe⟩
    have hcur := (hsafe s.curTerminal).1
    rw [run, keyboardHandler_kbdus hkey, hback] at hcur
    dsimp only at hcur
    rw [if_pos hcopied, Keyboard.saveBack_kbInds, Function.update_self, hdown] at hcur
    omega

/-- An event is safe exactly if it is harmless. -/
theorem safe_iff (h : Indexed s) : Safe L fs s e ↔ Harmless s e :=
  ⟨fun hsafe => by_contra fun he => not_safe_of_not_harmless he hsafe, safe_of_harmless h⟩

end IndexEvent

/-- From the keyboard as it is at boot, along every sequence of scancodes, terminal switches and
output: each event stores into the keyboard buffers only and leaves the three saved indices
there, if and only if no Backspace is pressed while `tab` is set and the current line is
empty. -/
theorem keyIndex_run_iff (L : Link) (fs : FileSystem) (s : Kernel) (es : List IndexEvent) :
    Along (IndexEvent.run L fs) (IndexEvent.Safe L fs) { s with keyboard := Keyboard.zero } es ↔
      Along (IndexEvent.run L fs) IndexEvent.Harmless { s with keyboard := Keyboard.zero } es :=
  along_iff (I := IndexEvent.Indexed) (fun _ _ h => IndexEvent.safe_iff h)
    (fun _ _ h he => (IndexEvent.safe_of_harmless h he).2)
    (fun _ => ⟨le_rfl, (by decide : (0 : Int) ≤ 127)⟩) es

/-- Tab, output of a program, Backspace: the index of terminal 0 is -1. -/
theorem backspace_after_output :
    ¬ Along (IndexEvent.run Sample.link Sample.files) (IndexEvent.Safe Sample.link Sample.files)
      { Sample.atBoot with console := ⟨fun _ => 0, 0, 0⟩ }
      [.key Sample.site 15, .write [0x24], .key Sample.site 14] := by
  rintro ⟨-, -, ⟨-, hsafe⟩, -⟩
  have hzero := (hsafe 0).1
  revert hzero
  decide

end Os391
