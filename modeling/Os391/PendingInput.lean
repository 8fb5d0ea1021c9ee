import Os391.LineInput

/-!
# The pending input

What has been typed on the current terminal and not been read yet: the bytes of its
buffer in front of its index. As long as no Tab, Enter, Ctrl or Alt is pressed it is the
text of a reference editor that appends, takes back, and drops what does not fit; the
handler leaves a full buffer early and without copying the index back, which then makes
no difference.

Enter has two paths, chosen by the row of the cursor. The one that scrolls neither stores
the newline nor copies the index back.
-/

namespace Os391

open Bytes Segment Keystroke

/-- What a scancode makes of a text that holds 127 bytes at most, with the given `caps`. -/
def editText (caps : Int) (c : Byte) (text : List Byte) : List Byte :=
  if kbdus c = chBackspace then text.dropLast
  else if kbdus c ≠ 0 ∧ kbdus c ≠ capsLock ∧ text.length < 127 then
    text ++ [shifted caps (kbdus c)]
  else text

/-- A scancode other than those of Tab, Enter, Ctrl and Alt. -/
structure Edits (c : Byte) : Prop where
  tab : kbdus c ≠ chTab
  enter : kbdus c ≠ chNewline
  ctrl : c ≠ ctrlP ∧ c ≠ ctrlR
  alt : c ≠ altP ∧ c ≠ altR

/-- A scancode is delivered to the handler and to the reference editor. -/
def typeKey (L : Link) (fs : FileSystem) (m : Kernel × List Byte) (x : CallSite × Byte) :
    Kernel × List Byte :=
  ((keyboardHandler L fs x.1 x.2 m.1).1, editText m.1.keyboard.caps x.2 m.2)

section keys

variable (L : Link) (fs : FileSystem) (cs : CallSite) {c : Byte} {s : Kernel}

/-- As a modifier such a code changes `caps` at most. -/
theorem Edits.modifiers (h : Edits c) (kb : Keyboard) :
    ∃ caps, kb.modifiers c = { kb with caps := caps } := by
  simp only [Keyboard.modifiers, h.ctrl.1, h.ctrl.2, h.alt.1, h.alt.2, if_false]
  repeat' split
  all_goals exact ⟨_, rfl⟩

/-- What is left of a saved index when it is selected and copied back. -/
theorem saveBack_select (t : Fin 3) (kb : Keyboard) (caps : Int) :
    ({ kb.select t with caps := caps } : Keyboard).saveBack t =
      { kb.select t with caps := caps } := by
  simp only [Keyboard.saveBack, Keyboard.select, Function.update_eq_self]

/-- A press without a character, not right after a tab, changes `caps` at most. -/
theorem press_quiet {ch : Byte} {k : Keystroke} (hquiet : ch = 0 ∨ ch = capsLock)
    (htab : k.keyboard.tab = 0) :
    ∃ caps, (k.press ch).2.keyboard = { k.keyboard with caps := caps } := by
  have huntab : k.untab.keyboard = k.keyboard := by
    rw [untab, ← htab]
  rcases hquiet with rfl | rfl
  · rw [press_none, apply_ite Prod.snd, ite_self]
    exact ⟨k.keyboard.caps, huntab⟩
  · rw [press_capsLock]
    split
    · exact ⟨k.keyboard.caps, huntab⟩
    · dsimp only
      rw [huntab]
      exact ⟨_, rfl⟩

/-- A key without a character, pressed or released, changes `caps` at most. -/
theorem keyboardHandler_quiet (h : Edits c) (hquiet : kbdus c = 0 ∨ kbdus c = capsLock)
    (halt : s.keyboard.alt = 0) (htab : s.keyboard.tab = 0) :
    ∃ caps, (keyboardHandler L fs cs c s).1.curTerminal = s.curTerminal ∧
      (keyboardHandler L fs cs c s).1.keyboard =
        { s.keyboard.select s.curTerminal with caps := caps } := by
  obtain ⟨caps, hlook⟩ := h.modifiers (s.keyboard.select s.curTerminal)
  change s.looked c = _ at hlook
  rcases Nat.lt_or_ge c.toNat 128 with hc | hc
  · have halt' : (s.looked c).alt = 0 := by
      rw [hlook]
      exact halt
    have htab' : (s.looked c).tab = 0 := (s.looked_tab c).trans htab
    have hstay : switchTarget c (s.looked c) = none := if_neg (not_not.mpr halt')
    obtain ⟨caps', hpress⟩ := press_quiet (k := ⟨s.looked c, s.console, []⟩) hquiet htab'
    rw [keyboardHandler_press hc hstay]
    refine ⟨caps', rfl, ?_⟩
    dsimp only
    rw [hpress, hlook, saveBack_select, ite_self]
  · rw [keyboardHandler_released hc, hlook]
    exact ⟨caps, rfl, saveBack_select _ _ _⟩

/-- A key that prints, at a full buffer: the handler returns early. -/
theorem keyboardHandler_full (h : Prints (kbdus c)) (hctrl : s.keyboard.ctrl = 0)
    (htab : s.keyboard.tab = 0) (hind : s.keyboard.kbInds s.curTerminal = 127) :
    (keyboardHandler L fs cs c s).1.keyboard = s.keyboard.select s.curTerminal := by
  have hpress : ∀ k : Keystroke, k.keyboard.ctrl = 0 → k.keyboard.tab = 0 → k.keyboard.kbInd = 127 →
      k.press (kbdus c) = (false, k) := by
    intro k hk htab hfull
    have huntab : k.untab = k := by
      rw [untab, ← htab]
    rw [press_prints k h, huntab, ctrlL_of_ctrl k hk]
    exact if_pos hfull.ge
  rw [keyboardHandler_kbdus h.1.1, hpress _ hctrl htab hind]
  rfl

end keys

/-! ## The handler keeps the text of the editor -/

/-- Terminal `t` holds the text, and the others hold what they held in `kb₀`. -/
structure Edited (t : Fin 3) (kb₀ : Keyboard) (s : Kernel) (text : List Byte) : Prop where
  terminal : s.curTerminal = t
  ind : s.keyboard.kbInds t = text.length
  fits : text.length ≤ 127
  holds : StartsWith (s.keyboard.kbBufs t) text
  tab : s.keyboard.tab = 0
  ctrl : s.keyboard.ctrl = 0
  alt : s.keyboard.alt = 0
  bufs : ∀ u, u ≠ t → s.keyboard.kbBufs u = kb₀.kbBufs u
  inds : ∀ u, u ≠ t → s.keyboard.kbInds u = kb₀.kbInds u

namespace Edited

variable {L : Link} {fs : FileSystem} {t : Fin 3} {kb₀ : Keyboard} {s : Kernel} {text : List Byte}
  {cs : CallSite} {c : Byte}

/-- Keys that leave the text and the saved index as they are. -/
theorem same (h : Edited t kb₀ s text) {s' : Kernel} (hcur : s'.curTerminal = s.curTerminal)
    {caps : Int}
    (hkb : s'.keyboard = { s.keyboard.select s.curTerminal with caps := caps }) :
    Edited t kb₀ s' text := by
  refine ⟨hcur.trans h.terminal, ?_, h.fits, ?_, ?_, ?_, ?_, ?_, ?_⟩ <;> rw [hkb]
  · exact h.ind
  · exact h.holds
  · exact h.tab
  · exact h.ctrl
  · exact h.alt
  · exact h.bufs
  · exact h.inds

theorem quiet (h : Edited t kb₀ s text) (hc : Edits c)
    (hquiet : kbdus c = 0 ∨ kbdus c = capsLock) :
    Edited t kb₀ (keyboardHandler L fs cs c s).1 (editText s.keyboard.caps c text) := by
  have htext : editText s.keyboard.caps c text = text := by
    rw [editText]
    rcases hquiet with hzero | hlock
    · rw [hzero, if_neg (by decide), if_neg fun hcond => hcond.1 rfl]
    · rw [hlock, if_neg (by decide), if_neg fun hcond => hcond.2.1 rfl]
  obtain ⟨caps, hcur, hkb⟩ := keyboardHandler_quiet L fs cs hc hquiet h.alt h.tab
  rw [htext]
  exact h.same hcur hkb

theorem prints (h : Edited t kb₀ s text) (hprints : Prints (kbdus c)) :
    Edited t kb₀ (keyboardHandler L fs cs c s).1 (editText s.keyboard.caps c text) := by
  have hcur := keyboardHandler_curTerminal L fs cs (s := s) hprints.1.1
  obtain ⟨⟨hzero, hlock, hback, -⟩, -⟩ := id hprints
  obtain rfl := h.terminal
  rw [editText, if_neg hback]
  rcases lt_or_eq_of_le h.fits with hroom | hfull
  · rw [if_pos ⟨hzero, hlock, hroom⟩]
    have hkb := keyboardHandler_prints L fs cs hprints h.ctrl h.ind hroom
    refine ⟨hcur, ?_, ?_, ?_, ?_, ?_, ?_, fun u hu => ?_, fun u hu => ?_⟩
    · rw [hkb, List.length_append, List.length_singleton]
      exact Function.update_self _ _ _
    · rw [List.length_append, List.length_singleton]
      exact hroom
    · rw [hkb]
      dsimp only
      rw [Function.update_self]
      exact h.holds.snoc (Nat.lt_succ_of_lt hroom) _
    · rw [hkb]
    · rw [hkb]
      exact h.ctrl
    · rw [hkb]
      exact h.alt
    · rw [hkb]
      exact (Function.update_of_ne hu _ _).trans (h.bufs u hu)
    · rw [hkb]
      exact (Function.update_of_ne hu _ _).trans (h.inds u hu)
  · rw [if_neg fun hcond => absurd hfull hcond.2.2.ne]
    have hind : s.keyboard.kbInds s.curTerminal = 127 := h.ind.trans (congrArg Nat.cast hfull)
    exact h.same hcur (keyboardHandler_full L fs cs hprints h.ctrl h.tab hind)

theorem backspace (h : Edited t kb₀ s text) (hback : kbdus c = chBackspace) :
    Edited t kb₀ (keyboardHandler L fs cs c s).1 (editText s.keyboard.caps c text) := by
  have hkey : kbdus c ≠ 0 := by
    rw [hback]
    decide
  have hcur := keyboardHandler_curTerminal L fs cs (s := s) hkey
  obtain rfl := h.terminal
  have hkb := keyboardHandler_backspace L fs cs hback h.tab h.ind h.fits
  rw [editText, if_pos hback]
  refine ⟨hcur, ?_, ?_, ?_, ?_, ?_, ?_, fun u hu => ?_, fun u hu => ?_⟩
  · rw [hkb, List.length_dropLast]
    exact Function.update_self _ _ _
  · rw [List.length_dropLast]
    exact (Nat.sub_le _ _).trans h.fits
  · rw [hkb]
    exact h.holds.dropLast
  · rw [hkb]
    exact h.tab
  · rw [hkb]
    exact h.ctrl
  · rw [hkb]
    exact h.alt
  · rw [hkb]
    exact h.bufs u hu
  · rw [hkb]
    exact (Function.update_of_ne hu _ _).trans (h.inds u hu)

/-- Every scancode that is allowed. -/
theorem step (h : Edited t kb₀ s text) (cs : CallSite) (hc : Edits c) :
    Edited t kb₀ (keyboardHandler L fs cs c s).1 (editText s.keyboard.caps c text) := by
  rcases kind_cases (kbdus c) with hback | htab | hline | hlock | hzero | hprints
  · exact h.backspace hback
  · exact absurd htab hc.tab
  · exact absurd hline hc.enter
  · exact h.quiet hc (Or.inr hlock)
  · exact h.quiet hc (Or.inl hzero)
  · exact h.prints hprints

/-- And every sequence of them. -/
theorem run (L : Link) (fs : FileSystem) {m : Kernel × List Byte} (h : Edited t kb₀ m.1 m.2)
    {keys : List (CallSite × Byte)} (hkeys : ∀ x ∈ keys, Edits x.2) :
    Edited t kb₀ (keys.foldl (typeKey L fs) m).1 (keys.foldl (typeKey L fs) m).2 := by
  induction keys generalizing m with
  | nil => exact h
  | cons x keys ih =>
    exact ih (h.step x.1 (hkeys x List.mem_cons_self)) fun y hy =>
      hkeys y (List.mem_cons_of_mem x hy)

end Edited

/-- A line of `n` bytes in the buffer `buf` of terminal `t` has been completed. -/
structure LineDone (t : Fin 3) (buf : Fin 128 → Byte) (n : ℕ) (kb : Keyboard) : Prop where
  flag : kb.kbFlag = 1
  kept : ∀ i < n, kb.kbBufs t (Fin.ofNat 128 i) = buf (Fin.ofNat 128 i)
  newline : kb.kbBufs t (Fin.ofNat 128 n) = chNewline
  readInd : kb.readInd = n + 1
  ind : kb.kbInds t = 0

section enter

variable (L : Link) (fs : FileSystem) (cs : CallSite) {c : Byte} {s : Kernel} {n : ℕ}

/-- Enter on the last row: the screen scrolls, no newline is stored, the line is said to have
`n` bytes, and the saved index stays. -/
theorem keyboardHandler_scrolls (h : kbdus c = chNewline) (hrow : s.console.screenY = 24)
    (hind : s.keyboard.kbInds s.curTerminal = n) :
    (keyboardHandler L fs cs c s).1.keyboard =
      { s.keyboard with
        kbBuf := some s.curTerminal, kbInd := 0, readInd := n, kbFlag := 1, tab := 0 } := by
  have hkey : kbdus c ≠ 0 := by
    rw [h]
    decide
  have hpress : ∀ k : Keystroke, k.console.screenY = 24 → k.press chNewline =
      (false, { k.untab with console := k.console.scrolldown.2 }.complete) := fun k hk => by
    rw [press_newline, if_pos hk]
  rw [keyboardHandler_kbdus hkey, h, hpress _ hrow]
  simp only [complete, untab, Keyboard.select, hind, Bool.false_eq_true, if_false]

/-- Enter with `n` pending bytes: it completes the line, with a newline behind it and an empty
line to go on with, exactly if the cursor is not on the last row. -/
theorem enter_done_iff (hline : kbdus c = chNewline)
    (hind : s.keyboard.kbInds s.curTerminal = n) (hn : n ≤ 127) :
    LineDone s.curTerminal (s.keyboard.kbBufs s.curTerminal) n
        (keyboardHandler L fs cs c s).1.keyboard ↔ s.console.screenY ≠ 24 := by
  constructor
  · intro h hrow
    have hread := h.readInd
    rw [keyboardHandler_scrolls L fs cs hline hrow hind] at hread
    exact absurd hread (by dsimp only; omega)
  · intro hrow
    have hkb := keyboardHandler_newline L fs cs hline hrow hind hn
    refine ⟨?_, fun i hi => ?_, ?_, ?_, ?_⟩ <;> rw [hkb]
    · dsimp only
      rw [Function.update_self, Function.update_of_ne (ofNat_ne_of_lt hi (Nat.lt_succ_of_le hn))]
    · dsimp only
      rw [Function.update_self, Function.update_self]
    · exact Function.update_self _ _ _

end enter

/-- The base shell with `a` typed on the first row. -/
theorem enter_done_iff_sample :
    let s := (keyboardHandler Sample.link Sample.files Sample.site 0x1E Sample.running).1
    LineDone 0 (s.keyboard.kbBufs 0) 1
      (keyboardHandler Sample.link Sample.files Sample.site 0x1C s).1.keyboard := by
  intro s
  have hind : s.keyboard.kbInds s.curTerminal = (1 : ℕ) := by decide
  have hrow : s.console.screenY ≠ 24 := by decide +kernel
  exact (enter_done_iff Sample.link Sample.files Sample.site (by decide) hind (by decide)).mpr hrow

/-- The base shell has printed 24 newlines. -/
def Sample.lastRow : Kernel := terminalWrite (List.replicate 24 0x0A) Sample.running

/-- There `a` and Enter are typed: the line is said to have one byte, and the next one starts
with an `a`. -/
theorem enter_on_last_row :
    let s := (keyboardHandler Sample.link Sample.files Sample.site 0x1E Sample.lastRow).1
    let s' := (keyboardHandler Sample.link Sample.files Sample.site 0x1C s).1
    s.keyboard.kbInds 0 = 1 ∧ s.console.screenY = 24 ∧ s'.keyboard.readInd = 1 ∧
      s'.keyboard.kbInds 0 = 1 ∧ ¬ LineDone 0 (s.keyboard.kbBufs 0) 1 s'.keyboard := by
  refine ⟨by decide +kernel, by decide +kernel, by decide +kernel, by decide +kernel, fun h => ?_⟩
  have hread := h.readInd
  revert hread
  decide +kernel

end Os391
