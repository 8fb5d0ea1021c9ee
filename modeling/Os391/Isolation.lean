import Os391.KeyIndex
import Os391.Terminals
import Os391.Screen
import Os391.Lib.Unwinding

/-!
# What is typed on one terminal and read on another

Buffers, indices and cursors are kept per terminal, but the ready flag, the length of the
ready line, the pointer `kb_buf` and the flag `tab` are shared. Two runs that differ in what
is typed on other terminals look the same to the readers of a terminal, as long as none of
the shared variables carries something over. `Alike` says when two kernels cannot be told
apart from a terminal; the ghost state of a `TypingSession` says who has pressed Enter since
the flag was last zero.
-/

namespace Os391

open Bytes Copying Runs Keystroke

/-! ## Cursors do not depend on what is on the screen -/

/-- Two consoles with the cursor at the same place. -/
structure SameCursor (c d : Console) : Prop where
  x : c.screenX = d.screenX
  y : c.screenY = d.screenY

namespace SameCursor

open Console

variable {c d : Console}

theorem newline (h : SameCursor c d) (ch : Byte) :
    SameCursor (newline ch c) (newline ch d) := by
  constructor <;> simp only [Console.newline, setCell_screenX, setCell_screenY, h.x, h.y]

theorem scrolldown (h : SameCursor c d) : SameCursor c.scrolldown.2 d.scrolldown.2 := by
  obtain ⟨hx, hy⟩ := scrolldown_cursor c
  obtain ⟨hx', hy'⟩ := scrolldown_cursor d
  constructor
  · rw [hx, hx', h.x, h.y]
  · rw [hy, hy', h.y]

theorem putc (h : SameCursor c d) (ch : Byte) : SameCursor (putc ch c) (putc ch d) := by
  by_cases hch : ch = 0x0A ∨ ch = 0x0D
  · rw [putc_newline hch, putc_newline hch]
    exact ⟨rfl, congrArg (· + 1) h.y⟩
  · by_cases hy : c.screenY = 25
    · have hmoved : SameCursor { c with screenY := 24 } { d with screenY := 24 } := ⟨h.x, rfl⟩
      rw [putc_scrolls hch hy, putc_scrolls hch (h.y.symm.trans hy)]
      exact hmoved.scrolldown.newline ch
    · rw [putc_eq_newline hch hy, putc_eq_newline hch fun heq => hy (h.y.trans heq)]
      exact h.newline ch

theorem puts (h : SameCursor c d) (text : List Byte) :
    SameCursor (c.puts text) (d.puts text) := by
  induction text generalizing c d with
  | nil => exact h
  | cons ch text ih => exact ih (h.putc ch)

theorem backspace (h : SameCursor c d) : SameCursor c.backspace d.backspace := by
  rw [Console.backspace, Console.backspace, h.x, h.y]
  split
  · exact h
  · constructor
    · simp only [setCell_screenX, h.x]
    · simp only [setCell_screenX, setCell_screenY, h.x, h.y]
      rfl

theorem clearscreen (c d : Console) : SameCursor c.clearscreen d.clearscreen := by
  rw [clearscreen_eq, clearscreen_eq]
  exact ⟨rfl, rfl⟩

end SameCursor

/-! ## A key on the terminal that is watched -/

/-- Two keystrokes at work on the same terminal, in the same state as far as its line goes. -/
structure SameLine (t : Fin 3) (k k' : Keystroke) : Prop where
  ptr : k.keyboard.kbBuf = some t
  ptr' : k'.keyboard.kbBuf = some t
  buf : k.keyboard.kbBufs t = k'.keyboard.kbBufs t
  ind : k.keyboard.kbInd = k'.keyboard.kbInd
  alt : k.keyboard.alt = k'.keyboard.alt
  caps : k.keyboard.caps = k'.keyboard.caps
  ctrl : k.keyboard.ctrl = k'.keyboard.ctrl
  cursor : SameCursor k.console k'.console

namespace SameLine

variable {t : Fin 3} {k k' : Keystroke} {ch : Byte}

theorem backspaceKey (h : SameLine t k k') (htab : ch = chBackspace → k.keyboard.tab = k'.keyboard.tab) :
    SameLine t (k.backspaceKey ch) (k'.backspaceKey ch) := by
  rw [Keystroke.backspaceKey, Keystroke.backspaceKey]
  by_cases hch : ch = chBackspace
  · have hdown : k.keyboard.kbInd - 1 = k'.keyboard.kbInd - 1 := by rw [h.ind]
    rw [if_pos hch, if_pos hch, htab hch, h.ind]
    split
    · exact ⟨h.ptr, h.ptr', h.buf, rfl, h.alt, h.caps, h.ctrl,
        h.cursor.backspace.backspace.backspace.backspace⟩
    · split
      · exact ⟨h.ptr, h.ptr', h.buf, rfl, h.alt, h.caps, h.ctrl, h.cursor.backspace⟩
      · exact h
  · rw [if_neg hch, if_neg hch]
    exact h

theorem append (h : SameLine t k k') (ch : Byte) : SameLine t (k.append ch) (k'.append ch) := by
  have hbuf : (k.keyboard.store ch).kbBufs t = (k'.keyboard.store ch).kbBufs t := by
    rw [Keyboard.store, Keyboard.store, h.ptr, h.ptr', h.ind]
    dsimp only
    split
    · dsimp only
      rw [Function.update_self, Function.update_self, h.buf]
    · exact h.buf
  rw [Keystroke.append, Keystroke.append, Keyboard.store_eq, Keyboard.store_eq ch k'.keyboard]
  exact ⟨h.ptr, h.ptr', hbuf, congrArg (· + 1) h.ind, h.alt, h.caps, h.ctrl, h.cursor⟩

theorem tabKey (h : SameLine t k k') (ch : Byte) :
    SameLine t (k.tabKey ch) (k'.tabKey ch) := by
  rw [Keystroke.tabKey, Keystroke.tabKey]
  split
  · obtain ⟨hptr, hptr', hbuf, hind, halt, hcaps, hctrl, -⟩ := h.append chTab
    exact ⟨hptr, hptr', hbuf, hind, halt, hcaps, hctrl, h.cursor.puts _⟩
  · exact ⟨h.ptr, h.ptr', h.buf, h.ind, h.alt, h.caps, h.ctrl, h.cursor⟩

theorem ctrlL (h : SameLine t k k') (ch : Byte) :
    SameLine t (k.ctrlL ch) (k'.ctrlL ch) := by
  rw [Keystroke.ctrlL, Keystroke.ctrlL, h.ctrl]
  split
  · exact ⟨h.ptr, h.ptr', h.buf, rfl, h.alt, h.caps, h.ctrl, SameCursor.clearscreen _ _⟩
  · exact h

theorem printKey (h : SameLine t k k') : SameLine t (k.printKey ch) (k'.printKey ch) := by
  obtain ⟨hptr, hptr', hbuf, hind, halt, hcaps, hctrl, -⟩ := h.append (shifted k.keyboard.caps ch)
  rw [Keystroke.printKey, Keystroke.printKey, ← h.caps]
  refine ⟨hptr, hptr', hbuf, hind, halt, hcaps, hctrl, ?_⟩
  dsimp only
  rw [hind]
  split
  · exact h.cursor.newline _
  · exact h.cursor.putc _

theorem complete (h : SameLine t k k') : SameLine t k.complete k'.complete ∧
    k.complete.keyboard.readInd = k'.complete.keyboard.readInd :=
  ⟨⟨h.ptr, h.ptr', h.buf, rfl, h.alt, h.caps, h.ctrl, h.cursor⟩, h.ind⟩

theorem finish (h : SameLine t k k') : SameLine t (k.finish ch) (k'.finish ch) ∧
    (ch = chNewline → (k.finish ch).keyboard.readInd = (k'.finish ch).keyboard.readInd) := by
  have hprinted : SameLine t (if IsCharacter ch then (k.printKey ch).ctrlL ch else k)
      (if IsCharacter ch then (k'.printKey ch).ctrlL ch else k') := by
    split
    · exact h.printKey.ctrlL ch
    · exact h
  rw [Keystroke.finish, Keystroke.finish]
  generalize (if IsCharacter ch then (k.printKey ch).ctrlL ch else k) = k₁ at hprinted ⊢
  generalize (if IsCharacter ch then (k'.printKey ch).ctrlL ch else k') = k₁' at hprinted ⊢
  dsimp only
  by_cases hline : ch = chNewline
  · have hcaps : ch ≠ capsLock := by
      rw [hline]
      decide
    rw [if_pos hline, if_pos hline, if_neg hcaps, if_neg hcaps]
    exact ⟨hprinted.complete.1, fun _ => hprinted.complete.2⟩
  · rw [if_neg hline, if_neg hline]
    refine ⟨?_, fun heq => absurd heq hline⟩
    split
    · exact ⟨hprinted.ptr, hprinted.ptr', hprinted.buf, hprinted.ind, hprinted.alt,
        congrArg flip hprinted.caps, hprinted.ctrl, hprinted.cursor⟩
    · exact hprinted

/-- The same key. -/
theorem press (h : SameLine t k k') (ch : Byte)
    (htab : ch = chBackspace → k.keyboard.tab = k'.keyboard.tab) :
    (k.press ch).1 = (k'.press ch).1 ∧ SameLine t (k.press ch).2 (k'.press ch).2 ∧
      (ch = chNewline → (k.press ch).2.keyboard.readInd = (k'.press ch).2.keyboard.readInd) := by
  have hfirst := ((h.backspaceKey htab).tabKey ch).ctrlL ch
  rw [Keystroke.press, Keystroke.press]
  generalize ((k.backspaceKey ch).tabKey ch).ctrlL ch = k₁ at hfirst ⊢
  generalize ((k'.backspaceKey ch).tabKey ch).ctrlL ch = k₁' at hfirst ⊢
  simp only [scrolldown_ne_zero, hfirst.cursor.y, hfirst.ind]
  by_cases hscroll : ch = chNewline ∧ k₁'.console.screenY = 24
  · rw [if_pos hscroll, if_pos hscroll]
    have hmoved : SameLine t { k₁ with console := k₁.console.scrolldown.2 }
        { k₁' with console := k₁'.console.scrolldown.2 } :=
      ⟨hfirst.ptr, hfirst.ptr', hfirst.buf, hfirst.ind, hfirst.alt, hfirst.caps, hfirst.ctrl,
        hfirst.cursor.scrolldown⟩
    exact ⟨rfl, hmoved.complete.1, fun _ => hmoved.complete.2⟩
  · rw [if_neg hscroll, if_neg hscroll]
    by_cases hfull : 127 ≤ k₁'.keyboard.kbInd ∧ ch ≠ chNewline
    · rw [if_pos hfull, if_pos hfull]
      exact ⟨rfl, hfirst, fun heq => absurd heq hfull.2⟩
    · rw [if_neg hfull, if_neg hfull]
      exact ⟨rfl, hfirst.finish⟩

end SameLine

/-! ## What can be told apart from a terminal -/

/-- Where the cursor of a terminal is: on the screen, or where it has been saved. -/
def Kernel.cursorOf (k : Kernel) (t : Fin 3) : Int × Int :=
  if k.curTerminal = t then (k.console.screenX, k.console.screenY)
  else ((k.terminals t).cursorX.toNat, (k.terminals t).cursorY.toNat)

/-- The same modifiers are in force. -/
structure SameModifiers (kb kb' : Keyboard) : Prop where
  alt : kb.alt = kb'.alt
  caps : kb.caps = kb'.caps
  ctrl : kb.ctrl = kb'.ctrl

namespace SameModifiers

variable {kb kb' : Keyboard}

theorem modifiers (h : SameModifiers kb kb') (c : Byte) :
    SameModifiers (kb.modifiers c) (kb'.modifiers c) := by
  rcases Keyboard.modifiers_cases c with hc | hc | hc | hc | hc <;> rw [hc, hc]
  · exact ⟨rfl, h.caps, h.ctrl⟩
  · exact ⟨rfl, h.caps, h.ctrl⟩
  · exact ⟨h.alt, congrArg flip h.caps, h.ctrl⟩
  · exact ⟨h.alt, h.caps, congrArg flip h.ctrl⟩
  · exact h

end SameModifiers

/-- Two kernels that look the same to what is typed on terminal `t`. -/
structure Alike (t : Fin 3) (k k' : Kernel) : Prop where
  cur : k.curTerminal = k'.curTerminal
  alt : k.keyboard.alt = k'.keyboard.alt
  caps : k.keyboard.caps = k'.keyboard.caps
  ctrl : k.keyboard.ctrl = k'.keyboard.ctrl
  buf : k.keyboard.kbBufs t = k'.keyboard.kbBufs t
  ind : k.keyboard.kbInds t = k'.keyboard.kbInds t
  cursor : k.cursorOf t = k'.cursorOf t

namespace Alike

variable {t : Fin 3} {k k' : Kernel} {c : Byte}

theorem refl (t : Fin 3) (k : Kernel) : Alike t k k := ⟨rfl, rfl, rfl, rfl, rfl, rfl, rfl⟩

theorem symm (h : Alike t k k') : Alike t k' k :=
  ⟨h.cur.symm, h.alt.symm, h.caps.symm, h.ctrl.symm, h.buf.symm, h.ind.symm, h.cursor.symm⟩

/-- What a look at the flag leaves behind cannot be seen. -/
theorem aside (h : Alike t k k') (buf buf' : Option (Fin 3)) (i i' flag flag' : Int) :
    Alike t { k with keyboard := { k.keyboard with kbBuf := buf, kbInd := i, kbFlag := flag } }
      { k' with keyboard := { k'.keyboard with kbBuf := buf', kbInd := i', kbFlag := flag' } } :=
  ⟨h.cur, h.alt, h.caps, h.ctrl, h.buf, h.ind, h.cursor⟩

/-- The modifier keys do the same. -/
theorem modifiers (h : Alike t k k') (c : Byte) : SameModifiers (k.looked c) (k'.looked c) :=
  have hsame : SameModifiers (k.keyboard.select k.curTerminal) (k'.keyboard.select k'.curTerminal) :=
    ⟨h.alt, h.caps, h.ctrl⟩
  hsame.modifiers c

/-- So does the choice of a terminal to switch to. -/
theorem switchTarget (h : Alike t k k') (c : Byte) :
    switchTarget c (k.looked c) = Os391.switchTarget c (k'.looked c) := by
  rw [Os391.switchTarget, Os391.switchTarget, (h.modifiers c).alt]

end Alike

/-- Showing another terminal saves the cursor of the one that is left, in words of 16 bits,
and brings back the one that was saved. -/
theorem showTerminal_cursorOf {k : Kernel} {u : Fin 3} (h : u ≠ k.curTerminal) (t : Fin 3) :
    (showTerminal k.curTerminal u k).cursorOf t =
      if k.curTerminal = t then
        (((BitVec.ofInt 16 (k.cursorOf t).1).toNat : Int), ((BitVec.ofInt 16 (k.cursorOf t).2).toNat : Int))
      else k.cursorOf t := by
  have hcur : (showTerminal k.curTerminal u k).curTerminal = u := rfl
  rw [Kernel.cursorOf, Kernel.cursorOf, hcur]
  by_cases ht : k.curTerminal = t
  · have hut : u ≠ t := fun hu => h (hu.trans ht.symm)
    have hsaved : (showTerminal k.curTerminal u k).terminals t =
        { k.terminals t with
          cursorY := BitVec.ofInt 16 k.console.screenY
          cursorX := BitVec.ofInt 16 k.console.screenX } := by
      rw [showTerminal, ht]
      exact Function.update_self _ _ _
    rw [if_neg hut, if_pos ht, if_pos ht, hsaved]
  · have hkept : (showTerminal k.curTerminal u k).terminals t = k.terminals t :=
      showTerminal_terminals_of_ne (Ne.symm ht) k
    rw [if_neg ht, if_neg ht]
    by_cases hut : u = t
    · have hx : (showTerminal k.curTerminal u k).console.screenX =
          ((showTerminal k.curTerminal u k).terminals u).cursorX.toNat := rfl
      have hy : (showTerminal k.curTerminal u k).console.screenY =
          ((showTerminal k.curTerminal u k).terminals u).cursorY.toNat := rfl
      rw [if_pos hut, hx, hy, congrArg (showTerminal k.curTerminal u k).terminals hut, hkept]
    · rw [if_neg hut, hkept]

/-! ## One scancode -/

/-- What a key that is pressed changes besides the line and the screen of its terminal. -/
structure Pressed (c : Byte) (k k₂ : Kernel) : Prop where
  cur : k₂.curTerminal = k.curTerminal
  terminals : k₂.terminals = k.terminals
  alt : k₂.keyboard.alt = (k.looked c).alt
  ctrl : k₂.keyboard.ctrl = (k.looked c).ctrl
  caps : k₂.keyboard.caps =
    if kbdus c = capsLock ∧ k.keyboard.kbInds k.curTerminal < 127 then flip (k.looked c).caps
    else (k.looked c).caps
  bufs : ∀ t, t ≠ k.curTerminal → k₂.keyboard.kbBufs t = k.keyboard.kbBufs t
  inds : ∀ t, t ≠ k.curTerminal → k₂.keyboard.kbInds t = k.keyboard.kbInds t
  tab : k₂.keyboard.tab = if kbdus c = chTab then 1 else 0
  flag : k₂.keyboard.kbFlag =
    if kbdus c = chNewline then 1 else if (k.looked c).ctrl ≠ 0 ∧ kbdus c = chL then 0
    else k.keyboard.kbFlag
  readInd : kbdus c ≠ chNewline → k₂.keyboard.readInd = k.keyboard.readInd

section keys

variable (L : Link) (fs : FileSystem) (cs : CallSite) {c : Byte} {k k' : Kernel} {t : Fin 3}

theorem keyboardHandler_pressed (hc : c.toNat < 128) (h : switchTarget c (k.looked c) = none) :
    Pressed c k (keyboardHandler L fs cs c k).1 := by
  have heffect :=
    Keystroke.press_effect (k := ⟨k.looked c, k.console, []⟩) (k.looked_kbBuf c) (kbdus c)
  rw [keyboardHandler_press hc h]
  generalize Keystroke.press (kbdus c) ⟨k.looked c, k.console, []⟩ = r at heffect ⊢
  obtain ⟨back, r⟩ := r
  -- copying the index back touches the current terminal's index only
  have hback : (if back = true then r.keyboard.saveBack k.curTerminal else r.keyboard) =
      { r.keyboard with kbInds := if back = true then (r.keyboard.saveBack k.curTerminal).kbInds
                                  else r.keyboard.kbInds } := by
    split <;> rfl
  dsimp only at heffect ⊢
  rw [hback]
  refine ⟨rfl, rfl, heffect.alt, heffect.ctrl, ?_, fun u hu => ?_, fun u hu => ?_, heffect.tab, ?_, ?_⟩
  · rw [← k.looked_kbInd c]
    exact heffect.caps
  · exact (heffect.bufs u hu).trans (congrFun (k.looked_kbBufs c) u)
  · have hkept : r.keyboard.kbInds u = k.keyboard.kbInds u :=
      congrFun (heffect.inds.trans (k.looked_kbInds c)) u
    dsimp only
    split
    · exact (Function.update_of_ne hu _ _).trans hkept
    · exact hkept
  · rw [← k.looked_kbFlag c]
    exact heffect.flag
  · exact fun hline => (heffect.readInd hline).trans (k.looked_readInd c)

/-- With the other terminals running, a key that switches changes the current terminal, and
nothing of the keyboard besides the modifiers. -/
theorem keyboardHandler_switched (hrun : OthersRunning k) {u : Fin 3} (hc : c.toNat < 128)
    (h : switchTarget c (k.looked c) = some u) :
    (keyboardHandler L fs cs c k).1.keyboard = k.looked c ∧
      (keyboardHandler L fs cs c k).1.curTerminal = u ∧
      OthersRunning (keyboardHandler L fs cs c k).1 := by
  rw [keyboardHandler_switch hc h]
  refine ⟨switchTerminal_keyboard _ _, ?_⟩
  by_cases hu : u = k.curTerminal
  · rw [switchTerminal_same hu.symm]
    exact ⟨hu.symm, hrun⟩
  · rw [switchTerminal_running (s := { k with keyboard := k.looked c }) hrun hu]
    refine ⟨rfl, fun v hv => ?_⟩
    rw [showTerminal_running]
    exact hrun v hv

namespace Alike

/-- A key that is released. -/
theorem released (h : Alike t k k') (hc : 128 ≤ c.toNat) :
    Alike t (keyboardHandler L fs cs c k).1 (keyboardHandler L fs cs c k').1 := by
  have hinds : ∀ s : Kernel, ((s.looked c).saveBack s.curTerminal).kbInds = s.keyboard.kbInds := by
    intro s
    have hind : (s.looked c).kbInd = s.keyboard.kbInds s.curTerminal := Keyboard.modifiers_kbInd _
    have hinds : (s.looked c).kbInds = s.keyboard.kbInds := Keyboard.modifiers_kbInds _
    have hsaved : ((s.looked c).saveBack s.curTerminal).kbInds =
        Function.update (s.looked c).kbInds s.curTerminal (s.looked c).kbInd := rfl
    rw [hsaved, hind, hinds, Function.update_eq_self]
  have hbufs : ∀ s : Kernel, ((s.looked c).saveBack s.curTerminal).kbBufs = s.keyboard.kbBufs :=
    fun s => Keyboard.modifiers_kbBufs _
  have hmods := h.modifiers c
  rw [keyboardHandler_released hc, keyboardHandler_released hc]
  refine ⟨h.cur, hmods.alt, hmods.caps, hmods.ctrl, ?_, ?_, h.cursor⟩
  · rw [hbufs, hbufs, h.buf]
  · rw [hinds, hinds, h.ind]

/-- A key pressed on another terminal: what can be told apart from `t` does not depend on
that terminal, if Caps Lock is not pressed there behind a full line. -/
theorem pressed_other (h : Alike t k k') {k₂ k₂' : Kernel} (hp : Pressed c k k₂)
    (hp' : Pressed c k' k₂') (hne : t ≠ k.curTerminal)
    (hroom : kbdus c = capsLock → k.keyboard.kbInds k.curTerminal < 127)
    (hroom' : kbdus c = capsLock → k'.keyboard.kbInds k'.curTerminal < 127) : Alike t k₂ k₂' := by
  have hne' : t ≠ k'.curTerminal := fun heq => hne (heq.trans h.cur.symm)
  have hmods := h.modifiers c
  have hcursor : ∀ {s s₂ : Kernel}, Pressed c s s₂ → t ≠ s.curTerminal →
      s₂.cursorOf t = s.cursorOf t := by
    intro s s₂ hs hst
    rw [Kernel.cursorOf, Kernel.cursorOf, hs.cur, if_neg (Ne.symm hst), if_neg (Ne.symm hst),
      hs.terminals]
  refine ⟨?_, ?_, ?_, ?_, ?_, ?_, ?_⟩
  · rw [hp.cur, hp'.cur, h.cur]
  · rw [hp.alt, hp'.alt, hmods.alt]
  · rw [hp.caps, hp'.caps, hmods.caps]
    by_cases hcaps : kbdus c = capsLock
    · rw [if_pos ⟨hcaps, hroom hcaps⟩, if_pos ⟨hcaps, hroom' hcaps⟩]
    · rw [if_neg fun hand => hcaps hand.1, if_neg fun hand => hcaps hand.1]
  · rw [hp.ctrl, hp'.ctrl, hmods.ctrl]
  · rw [hp.bufs t hne, hp'.bufs t hne', h.buf]
  · rw [hp.inds t hne, hp'.inds t hne', h.ind]
  · rw [hcursor hp hne, hcursor hp' hne', h.cursor]

/-- A key with a character pressed on another terminal in one of the two. -/
theorem pressed_hidden (h : Alike t k k') {k₂ : Kernel} (hp : Pressed c k k₂)
    (hkey : kbdus c ≠ 0) (hcaps : kbdus c ≠ capsLock) (hne : t ≠ k.curTerminal) : Alike t k₂ k' := by
  have hlook : k.looked c = k.keyboard.select k.curTerminal := modifiers_of_kbdus hkey _
  refine ⟨hp.cur.trans h.cur, ?_, ?_, ?_, (hp.bufs t hne).trans h.buf, (hp.inds t hne).trans h.ind, ?_⟩
  · rw [hp.alt, hlook]
    exact h.alt
  · rw [hp.caps, hlook, if_neg fun hand => hcaps hand.1]
    exact h.caps
  · rw [hp.ctrl, hlook]
    exact h.ctrl
  · rw [← h.cursor, Kernel.cursorOf, Kernel.cursorOf, hp.cur, if_neg (Ne.symm hne),
      if_neg (Ne.symm hne), hp.terminals]

/-- On `t` itself the line is the same when the key is looked at. -/
theorem sameLine (h : Alike t k k') (hcur : k.curTerminal = t) :
    SameLine t ⟨k.looked c, k.console, []⟩ ⟨k'.looked c, k'.console, []⟩ := by
  have hcur' : k'.curTerminal = t := h.cur.symm.trans hcur
  have hmods := h.modifiers c
  have hcursor := h.cursor
  rw [Kernel.cursorOf, Kernel.cursorOf, if_pos hcur, if_pos hcur'] at hcursor
  obtain ⟨hx, hy⟩ := Prod.mk.inj hcursor
  refine ⟨?_, ?_, ?_, ?_, hmods.alt, hmods.caps, hmods.ctrl, ⟨hx, hy⟩⟩
  · rw [Kernel.looked_kbBuf, hcur]
  · rw [Kernel.looked_kbBuf, hcur']
  · rw [Kernel.looked_kbBufs, Kernel.looked_kbBufs, h.buf]
  · rw [Kernel.looked_kbInd, Kernel.looked_kbInd, hcur, hcur', h.ind]

/-- The same key pressed on `t` itself. -/
theorem pressed_same (h : Alike t k k') (hcur : k.curTerminal = t) (hc : c.toNat < 128)
    (hstay : Os391.switchTarget c (k.looked c) = none)
    (htab : kbdus c = chBackspace → k.keyboard.tab = k'.keyboard.tab) :
    Alike t (keyboardHandler L fs cs c k).1 (keyboardHandler L fs cs c k').1 ∧
      (kbdus c = chNewline → (keyboardHandler L fs cs c k).1.keyboard.readInd =
        (keyboardHandler L fs cs c k').1.keyboard.readInd) := by
  have hcur' : k'.curTerminal = t := h.cur.symm.trans hcur
  have hstay' : Os391.switchTarget c (k'.looked c) = none := (h.switchTarget c).symm.trans hstay
  have hline : SameLine t ⟨k.looked c, k.console, []⟩ ⟨k'.looked c, k'.console, []⟩ :=
    h.sameLine hcur
  obtain ⟨hback, hsame, hread⟩ := hline.press (kbdus c) fun hb => by
    rw [Kernel.looked_tab, Kernel.looked_tab, htab hb]
  have hkept := (Keystroke.press_effect hline.ptr (kbdus c)).inds
  have hkept' := (Keystroke.press_effect hline.ptr' (kbdus c)).inds
  rw [keyboardHandler_press hc hstay, keyboardHandler_press hc hstay', hcur, hcur']
  generalize Keystroke.press (kbdus c) ⟨k.looked c, k.console, []⟩ = r at hback hsame hread hkept ⊢
  generalize Keystroke.press (kbdus c) ⟨k'.looked c, k'.console, []⟩ = r' at hback hsame hread hkept' ⊢
  obtain ⟨back, r⟩ := r
  obtain ⟨back', r'⟩ := r'
  obtain rfl : back = back' := hback
  have hind₂ : r.keyboard.kbInds t = r'.keyboard.kbInds t := by
    rw [hkept, hkept', Kernel.looked_kbInds, Kernel.looked_kbInds, h.ind]
  have hcursor₂ : ∀ {s s' : Kernel}, s.curTerminal = t → s'.curTerminal = t →
      SameCursor s.console s'.console → s.cursorOf t = s'.cursorOf t := by
    intro s s' hs hs' hsame
    rw [Kernel.cursorOf, Kernel.cursorOf, if_pos hs, if_pos hs', hsame.x, hsame.y]
  rcases back with _ | _
  · exact ⟨⟨rfl, hsame.alt, hsame.caps, hsame.ctrl, hsame.buf, hind₂, hcursor₂ rfl rfl hsame.cursor⟩,
      hread⟩
  · refine ⟨⟨rfl, hsame.alt, hsame.caps, hsame.ctrl, hsame.buf, ?_, hcursor₂ rfl rfl hsame.cursor⟩,
      hread⟩
    dsimp only
    rw [if_pos rfl, if_pos rfl, Keyboard.saveBack_kbInds, Keyboard.saveBack_kbInds,
      Function.update_self, Function.update_self, hsame.ind]

/-- A switch. -/
theorem switched (h : Alike t k k') (hrun : OthersRunning k) (hrun' : OthersRunning k') {u : Fin 3}
    (hc : c.toNat < 128) (hswitch : Os391.switchTarget c (k.looked c) = some u) :
    Alike t (keyboardHandler L fs cs c k).1 (keyboardHandler L fs cs c k').1 := by
  have hswitch' : Os391.switchTarget c (k'.looked c) = some u := (h.switchTarget c).symm.trans hswitch
  have hmods := h.modifiers c
  have hlooked : Alike t { k with keyboard := k.looked c } { k' with keyboard := k'.looked c } := by
    refine ⟨h.cur, hmods.alt, hmods.caps, hmods.ctrl, ?_, ?_, h.cursor⟩
    · rw [Kernel.looked, Kernel.looked, Keyboard.modifiers_kbBufs, Keyboard.modifiers_kbBufs]
      exact h.buf
    · rw [Kernel.looked, Kernel.looked, Keyboard.modifiers_kbInds, Keyboard.modifiers_kbInds]
      exact h.ind
  rw [keyboardHandler_switch hc hswitch, keyboardHandler_switch hc hswitch']
  have hcur : u = k.curTerminal ↔ u = k'.curTerminal := by rw [h.cur]
  by_cases hu : u = k.curTerminal
  · rw [switchTerminal_same hu.symm, switchTerminal_same (hcur.mp hu).symm]
    exact hlooked
  · have hu' : u ≠ k'.curTerminal := fun heq => hu (hcur.mpr heq)
    rw [switchTerminal_running (s := { k with keyboard := k.looked c }) hrun hu,
      switchTerminal_running (s := { k' with keyboard := k'.looked c }) hrun' hu']
    refine ⟨rfl, hmods.alt, hmods.caps, hmods.ctrl, hlooked.buf, hlooked.ind, ?_⟩
    rw [showTerminal_cursorOf (k := { k with keyboard := k.looked c }) hu,
      showTerminal_cursorOf (k := { k' with keyboard := k'.looked c }) hu', hlooked.cursor]
    simp only [h.cur]

end Alike

end keys

/-! ## Runs -/

/-- The kernel, the terminals on which Enter has been pressed since `kb_flag` was last 0, the
latest first, and whether a key has been pressed since the last switch. -/
structure TypingSession : Type where
  kernel : Kernel
  entered : List (Fin 3)
  settled : Bool

/-- A scancode, a `terminal_read` called on the current terminal, and a `terminal_read` called
earlier on a terminal and still waiting, which looks at the flag again. -/
inductive TypingEvent : Type where
  | key : Byte → TypingEvent
  | read : Int → TypingEvent
  | look : Fin 3 → Int → TypingEvent
  deriving DecidableEq

namespace TypingSession

/-- The list `entered` after a key. -/
def enteredAfter (c : Byte) (k : Kernel) (entered : List (Fin 3)) : List (Fin 3) :=
  if kbdus c = chNewline then k.curTerminal :: entered
  else if k.keyboard.ctrl ≠ 0 ∧ kbdus c = chL then [] else entered

/-- The flag `settled` after a key that leads from `k` to `k₂`. -/
def settledAfter (c : Byte) (k k₂ : Kernel) (settled : Bool) : Bool :=
  if k₂.curTerminal ≠ k.curTerminal then false
  else if c.toNat < 128 ∧ switchTarget c (k.looked c) = none then true
  else settled

section

variable (L : Link) (fs : FileSystem) (cs : CallSite)

/-- The event. After a read has looked at the flag, it is 0. -/
def run (s : TypingSession) : TypingEvent → TypingSession
  | .key c =>
    let k := (keyboardHandler L fs cs c s.kernel).1
    { kernel := k
      entered := enteredAfter c s.kernel s.entered
      settled := settledAfter c s.kernel k s.settled }
  | .read n => { s with kernel := (terminalRead n s.kernel).2, entered := [] }
  | .look _ n => { s with kernel := (terminalReadLook n s.kernel).2, entered := [] }

end

section

variable (t : Fin 3) (s : TypingSession)

/-- What a reader on terminal `t` receives: it goes on waiting, or gets a count and bytes. -/
def received : TypingEvent → Option (Option (Int × Stores))
  | .key _ => none
  | .read n => if s.kernel.curTerminal = t then some (terminalRead n s.kernel).1 else none
  | .look u n => if u = t then some (terminalReadLook n s.kernel).1 else none

/-- Printable keys and Enters on the other terminals, and looks of the readers that wait
there. -/
def Hidden : TypingEvent → Prop
  | .key c => s.kernel.curTerminal ≠ t ∧ (Prints (kbdus c) ∨ kbdus c = chNewline)
  | .read _ => False
  | .look u _ => u ≠ t

instance : ∀ e, Decidable (Hidden t s e)
  | .key c => inferInstanceAs (Decidable
      (s.kernel.curTerminal ≠ t ∧ (Prints (kbdus c) ∨ kbdus c = chNewline)))
  | .read _ => inferInstanceAs (Decidable False)
  | .look u _ => inferInstanceAs (Decidable (u ≠ t))

/-- What is pressed does not carry anything over between `t` and the other terminals:
Backspace is not pressed on an empty line while `tab` is set, and on `t` not as the first key
after a switch while it is set; on the others Caps Lock is not pressed behind a full line,
nor Ctrl+L while a line of `t` is ready. -/
@[mk_iff] structure KeyApart (c : Byte) : Prop where
  inBuffer : kbdus c = chBackspace → s.kernel.keyboard.tab ≠ 0 →
    s.kernel.keyboard.kbInds s.kernel.curTerminal ≠ 0
  tab : s.kernel.curTerminal = t → kbdus c = chBackspace → s.kernel.keyboard.tab ≠ 0 →
    s.settled = true
  caps : s.kernel.curTerminal ≠ t → kbdus c = capsLock →
    s.kernel.keyboard.kbInds s.kernel.curTerminal < 127
  clear : s.kernel.curTerminal ≠ t → s.kernel.keyboard.ctrl ≠ 0 → kbdus c = chL → t ∉ s.entered

set_option synthInstance.maxSize 256 in
instance (c : Byte) : Decidable (KeyApart t s c) := decidable_of_iff' _ (keyApart_iff t s c)

/-- Nothing is carried over between `t` and the other terminals. A reader of `t` looks at the
flag only while it is 0 or the last Enter was pressed on `t`, and, if it has been waiting, while
`kb_buf` points at the buffer of `t`; a reader that waits on another terminal does not look at
the flag while a line of `t` is ready. -/
def Apart : TypingEvent → Prop
  | .key c => KeyApart t s c
  | .read _ => s.kernel.curTerminal = t → ∀ u, s.entered.head? = some u → u = t
  | .look u _ =>
    (u = t → ∀ v, s.entered.head? = some v → v = t ∧ s.kernel.keyboard.kbBuf = some t) ∧
      (u ≠ t → t ∉ s.entered)

instance : ∀ e, Decidable (Apart t s e)
  | .key c => inferInstanceAs (Decidable (KeyApart t s c))
  | .read _ => inferInstanceAs (Decidable
      (s.kernel.curTerminal = t → ∀ u, s.entered.head? = some u → u = t))
  | .look u _ => inferInstanceAs (Decidable
      ((u = t → ∀ v, s.entered.head? = some v → v = t ∧ s.kernel.keyboard.kbBuf = some t) ∧
        (u ≠ t → t ∉ s.entered)))

end

/-- Two sessions that a reader on `t` cannot tell apart. -/
structure Indistinct (t : Fin 3) (s s' : TypingSession) : Prop where
  kernel : Alike t s.kernel s'.kernel
  running : OthersRunning s.kernel
  running' : OthersRunning s'.kernel
  flag : s.kernel.keyboard.kbFlag = 0 ↔ s.entered = []
  flag' : s'.kernel.keyboard.kbFlag = 0 ↔ s'.entered = []
  entered : t ∈ s.entered ↔ t ∈ s'.entered
  ready : s.entered.head? = some t → s'.entered.head? = some t →
    s.kernel.keyboard.readInd = s'.kernel.keyboard.readInd
  settled : s.kernel.curTerminal = t → s.settled = s'.settled
  tab : s.kernel.curTerminal = t → s.settled = true →
    s.kernel.keyboard.tab = s'.kernel.keyboard.tab

section ghost

variable {c : Byte} {k k' k₂ : Kernel} {l l' : List (Fin 3)} {t : Fin 3}

/-- Keys without an entry in `kbdus` complete nothing and clear nothing. -/
theorem enteredAfter_of_zero (h : kbdus c = 0) : enteredAfter c k l = l := by
  have hline : kbdus c ≠ chNewline := by
    rw [h]
    decide
  have hl : kbdus c ≠ chL := by
    rw [h]
    decide
  rw [enteredAfter, if_neg hline, if_neg fun hand => hl hand.2]

/-- The flag is 0 exactly while nothing has been entered. -/
theorem enteredAfter_eq_nil_iff (hp : Pressed c k k₂) (h : k.keyboard.kbFlag = 0 ↔ l = []) :
    k₂.keyboard.kbFlag = 0 ↔ enteredAfter c k l = [] := by
  rw [hp.flag, enteredAfter]
  by_cases hline : kbdus c = chNewline
  · rw [if_pos hline, if_pos hline]
    exact ⟨fun hone => absurd hone (by decide : (1 : Int) ≠ 0),
      fun hcons => absurd hcons (List.cons_ne_nil _ _)⟩
  · rw [if_neg hline, if_neg hline]
    by_cases hl : kbdus c = chL
    · have hkey : kbdus c ≠ 0 := by
        rw [hl]
        decide
      have hlook : k.looked c = k.keyboard.select k.curTerminal := modifiers_of_kbdus hkey _
      rw [hlook, Keyboard.select_ctrl]
      split
      · exact ⟨fun _ => rfl, fun _ => rfl⟩
      · exact h
    · rw [if_neg fun hand => hl hand.2, if_neg fun hand => hl hand.2]
      exact h

/-- The same key does the same to what has been entered. -/
theorem enteredAfter_cases (c : Byte) (l l' : List (Fin 3)) (hcur : k.curTerminal = k'.curTerminal)
    (hctrl : k.keyboard.ctrl = k'.keyboard.ctrl) :
    (kbdus c = chNewline ∧ enteredAfter c k l = k.curTerminal :: l ∧
        enteredAfter c k' l' = k.curTerminal :: l') ∨
      (enteredAfter c k l = [] ∧ enteredAfter c k' l' = []) ∨
      (kbdus c ≠ chNewline ∧ enteredAfter c k l = l ∧ enteredAfter c k' l' = l') := by
  rw [enteredAfter, enteredAfter, ← hcur, ← hctrl]
  by_cases hline : kbdus c = chNewline
  · rw [if_pos hline, if_pos hline]
    exact Or.inl ⟨hline, rfl, rfl⟩
  · rw [if_neg hline, if_neg hline]
    split
    · exact Or.inr (Or.inl ⟨rfl, rfl⟩)
    · exact Or.inr (Or.inr ⟨hline, rfl, rfl⟩)

end ghost

namespace Indistinct

variable (L : Link) (fs : FileSystem) (cs : CallSite) {t : Fin 3} {s s' : TypingSession}

theorem symm (h : Indistinct t s s') : Indistinct t s' s :=
  ⟨h.kernel.symm, h.running', h.running, h.flag', h.flag, h.entered.symm,
    fun hs' hs => (h.ready hs hs').symm, fun hcur => (h.settled (h.kernel.cur.trans hcur)).symm,
    fun hcur hset => (h.tab (h.kernel.cur.trans hcur)
      ((h.settled (h.kernel.cur.trans hcur)).trans hset)).symm⟩

/-- A key that is pressed on both sides and switches nothing. -/
theorem pressed (h : Indistinct t s s') {c : Byte} {k₂ k₂' : Kernel} {set set' : Bool}
    (hp : Pressed c s.kernel k₂) (hp' : Pressed c s'.kernel k₂') (hkernel : Alike t k₂ k₂')
    (hread : s.kernel.curTerminal = t → kbdus c = chNewline →
      k₂.keyboard.readInd = k₂'.keyboard.readInd)
    (hset : s.kernel.curTerminal = t → set = set') :
    Indistinct t ⟨k₂, enteredAfter c s.kernel s.entered, set⟩
      ⟨k₂', enteredAfter c s'.kernel s'.entered, set'⟩ := by
  have hrunning : ∀ {k₁ k₂ : Kernel}, Pressed c k₁ k₂ → OthersRunning k₁ → OthersRunning k₂ := by
    intro k₁ k₂ hp hk u hu
    rw [hp.terminals]
    exact hk u hu
  refine ⟨hkernel, hrunning hp h.running, hrunning hp' h.running',
    enteredAfter_eq_nil_iff hp h.flag, enteredAfter_eq_nil_iff hp' h.flag', ?_, fun hs hs' => ?_,
    fun hcur => hset (hp.cur.symm.trans hcur), fun _ _ => hp.tab.trans hp'.tab.symm⟩
  · rcases enteredAfter_cases c s.entered s'.entered h.kernel.cur h.kernel.ctrl
      with ⟨-, hl, hl'⟩ | ⟨hl, hl'⟩ | ⟨-, hl, hl'⟩
    · simp only [hl, hl', List.mem_cons, h.entered]
    · simp only [hl, hl']
    · simp only [hl, hl', h.entered]
  · rcases enteredAfter_cases c s.entered s'.entered h.kernel.cur h.kernel.ctrl
      with ⟨hline, hl, -⟩ | ⟨hl, -⟩ | ⟨hline, hl, hl'⟩
    · dsimp only at hs
      rw [hl] at hs
      exact hread (Option.some.inj hs) hline
    · dsimp only at hs
      rw [hl] at hs
      cases hs
    · dsimp only at hs hs'
      rw [hl] at hs
      rw [hl'] at hs'
      exact (hp.readInd hline).trans ((h.ready hs hs').trans (hp'.readInd hline).symm)

/-- A key that is released, or that switches terminals. -/
theorem quiet (h : Indistinct t s s') {k₂ k₂' : Kernel} {set set' : Bool} (hkernel : Alike t k₂ k₂')
    (hrunning : OthersRunning k₂) (hrunning' : OthersRunning k₂')
    (hflag : k₂.keyboard.kbFlag = s.kernel.keyboard.kbFlag)
    (hflag' : k₂'.keyboard.kbFlag = s'.kernel.keyboard.kbFlag)
    (hread : k₂.keyboard.readInd = s.kernel.keyboard.readInd)
    (hread' : k₂'.keyboard.readInd = s'.kernel.keyboard.readInd)
    (hset : k₂.curTerminal = t → set = set')
    (htab : k₂.curTerminal = t → set = true → k₂.keyboard.tab = k₂'.keyboard.tab) :
    Indistinct t ⟨k₂, s.entered, set⟩ ⟨k₂', s'.entered, set'⟩ := by
  refine ⟨hkernel, hrunning, hrunning', ?_, ?_, h.entered, fun hs hs' => ?_, hset, htab⟩
  · rw [hflag]
    exact h.flag
  · rw [hflag']
    exact h.flag'
  · rw [hread, hread']
    exact h.ready hs hs'

/-- A key that is pressed, on `t` or elsewhere. -/
theorem key_pressed (h : Indistinct t s s') {c : Byte} (hlt : c.toNat < 128)
    (hswitch : switchTarget c (s.kernel.looked c) = none) (hc : KeyApart t s c)
    (hc' : KeyApart t s' c) : Indistinct t (s.run L fs cs (.key c)) (s'.run L fs cs (.key c)) := by
  have hcur := h.kernel.cur
  have hswitch' : switchTarget c (s'.kernel.looked c) = none :=
    (h.kernel.switchTarget c).symm.trans hswitch
  have hp := keyboardHandler_pressed L fs cs hlt hswitch
  have hp' := keyboardHandler_pressed L fs cs hlt hswitch'
  have hset : settledAfter c s.kernel (keyboardHandler L fs cs c s.kernel).1 s.settled =
      settledAfter c s'.kernel (keyboardHandler L fs cs c s'.kernel).1 s'.settled := by
    rw [settledAfter, settledAfter, if_neg (not_not.mpr hp.cur), if_neg (not_not.mpr hp'.cur),
      if_pos ⟨hlt, hswitch⟩, if_pos ⟨hlt, hswitch'⟩]
  rw [run, run]
  by_cases ht : s.kernel.curTerminal = t
  · -- for Backspace the flag `tab` has to be the same: it is 0 on both sides or has settled
    have htab : kbdus c = chBackspace → s.kernel.keyboard.tab = s'.kernel.keyboard.tab := by
      intro hback
      by_cases hsettled : s.settled = true
      · exact h.tab ht hsettled
      · have hzero : s.kernel.keyboard.tab = 0 :=
          by_contra fun hne => hsettled (hc.tab ht hback hne)
        have hzero' : s'.kernel.keyboard.tab = 0 := by_contra fun hne =>
          hsettled ((h.settled ht).trans (hc'.tab (hcur.symm.trans ht) hback hne))
        rw [hzero, hzero']
    obtain ⟨hkernel, hready⟩ := h.kernel.pressed_same L fs cs ht hlt hswitch htab
    exact h.pressed hp hp' hkernel (fun _ => hready) fun _ => hset
  · have hkernel := h.kernel.pressed_other hp hp' (Ne.symm ht) (hc.caps ht)
      (hc'.caps fun heq => ht (hcur.trans heq))
    exact h.pressed hp hp' hkernel (fun heq => absurd heq ht) fun heq => absurd heq ht

/-- A key that switches terminals. -/
theorem key_switches (h : Indistinct t s s') {c : Byte} {u : Fin 3} (hlt : c.toNat < 128)
    (hswitch : switchTarget c (s.kernel.looked c) = some u) :
    Indistinct t (s.run L fs cs (.key c)) (s'.run L fs cs (.key c)) := by
  have hcur := h.kernel.cur
  have hswitch' : switchTarget c (s'.kernel.looked c) = some u :=
    (h.kernel.switchTarget c).symm.trans hswitch
  have hzero : kbdus c = 0 := by_contra fun hkey =>
    Option.some_ne_none u (hswitch.symm.trans (switchTarget_of_kbdus hkey _))
  obtain ⟨hkb, hcur₂, hrun₂⟩ := keyboardHandler_switched L fs cs h.running hlt hswitch
  obtain ⟨hkb', hcur₂', hrun₂'⟩ := keyboardHandler_switched L fs cs h.running' hlt hswitch'
  have hnone : ¬ (c.toNat < 128 ∧ switchTarget c (s.kernel.looked c) = none) := fun hand =>
    Option.some_ne_none u (hswitch.symm.trans hand.2)
  have hnone' : ¬ (c.toNat < 128 ∧ switchTarget c (s'.kernel.looked c) = none) := fun hand =>
    Option.some_ne_none u (hswitch'.symm.trans hand.2)
  rw [run, run, enteredAfter_of_zero hzero, enteredAfter_of_zero hzero, settledAfter, settledAfter,
    hcur₂, hcur₂', ← hcur, if_neg hnone, if_neg hnone']
  refine h.quiet (h.kernel.switched L fs cs h.running h.running' hlt hswitch) hrun₂ hrun₂'
    ?_ ?_ ?_ ?_ ?_ ?_
  · rw [hkb, Kernel.looked_kbFlag]
  · rw [hkb', Kernel.looked_kbFlag]
  · rw [hkb, Kernel.looked_readInd]
  · rw [hkb', Kernel.looked_readInd]
  · intro hut
    split
    · rfl
    · rename_i hsame
      exact h.settled ((not_not.mp hsame).symm.trans (hcur₂.symm.trans hut))
  · intro hut hset
    split at hset
    · cases hset
    · rename_i hsame
      rw [hkb, hkb', Kernel.looked_tab, Kernel.looked_tab]
      exact h.tab ((not_not.mp hsame).symm.trans (hcur₂.symm.trans hut)) hset

/-- A key that is released. -/
theorem key_released (h : Indistinct t s s') {c : Byte} (hge : 128 ≤ c.toNat) :
    Indistinct t (s.run L fs cs (.key c)) (s'.run L fs cs (.key c)) := by
  have hlt : ¬ c.toNat < 128 := Nat.not_lt.mpr hge
  have hzero : kbdus c = 0 := by_contra fun hkey => hlt (lt_of_kbdus hkey)
  have hkernel : Alike t (keyboardHandler L fs cs c s.kernel).1
      (keyboardHandler L fs cs c s'.kernel).1 := h.kernel.released L fs cs hge
  have hset : ∀ (k k₂ : Kernel) (b : Bool), k₂.curTerminal = k.curTerminal →
      settledAfter c k k₂ b = b := by
    intro k k₂ b hk
    rw [settledAfter, if_neg (not_not.mpr hk), if_neg fun hand => hlt hand.1]
  rw [run, run, enteredAfter_of_zero hzero, enteredAfter_of_zero hzero]
  rw [keyboardHandler_released hge, keyboardHandler_released hge] at hkernel ⊢
  dsimp only
  rw [hset, hset]
  · exact h.quiet hkernel h.running h.running' (Kernel.looked_kbFlag c _)
      (Kernel.looked_kbFlag c _) (Kernel.looked_readInd c _) (Kernel.looked_readInd c _) h.settled
      fun ht hset =>
        (Kernel.looked_tab c _).trans ((h.tab ht hset).trans (Kernel.looked_tab c _).symm)
  · rfl
  · rfl

/-- One scancode on both sides. -/
theorem key (h : Indistinct t s s') {c : Byte} (hc : KeyApart t s c) (hc' : KeyApart t s' c) :
    Indistinct t (s.run L fs cs (.key c)) (s'.run L fs cs (.key c)) := by
  rcases Nat.lt_or_ge c.toNat 128 with hlt | hge
  · rcases hswitch : switchTarget c (s.kernel.looked c) with _ | u
    · exact h.key_pressed L fs cs hlt hswitch hc hc'
    · exact h.key_switches L fs cs hlt hswitch
  · exact h.key_released L fs cs hge

/-- A key that is hidden, on one side. -/
theorem key_hidden (h : Indistinct t s s') {c : Byte} (hhidden : Hidden t s (.key c))
    (hc : KeyApart t s c) : Indistinct t (s.run L fs cs (.key c)) s' := by
  obtain ⟨hne, hkey⟩ := hhidden
  have hchar : kbdus c ≠ 0 ∧ kbdus c ≠ capsLock := by
    rcases hkey with hprints | hline
    · exact ⟨hprints.1.1, hprints.1.2.1⟩
    · rw [hline]
      decide
  have hp := keyboardHandler_pressed L fs cs (lt_of_kbdus hchar.1)
    (switchTarget_of_kbdus hchar.1 (s.kernel.looked c))
  have hcur₂ : (keyboardHandler L fs cs c s.kernel).1.curTerminal ≠ t := fun heq =>
    hne (hp.cur.symm.trans heq)
  refine ⟨h.kernel.pressed_hidden hp hchar.1 hchar.2 (Ne.symm hne), fun u hu => ?_, h.running',
    enteredAfter_eq_nil_iff hp h.flag, h.flag', ?_, fun hs hs' => ?_, fun heq => absurd heq hcur₂,
    fun heq => absurd heq hcur₂⟩
  · rw [run, hp.terminals]
    exact h.running u hu
  · rw [← h.entered, run]
    dsimp only
    rw [enteredAfter]
    split
    · simp only [List.mem_cons, Ne.symm hne, false_or]
    · split
      · rename_i hl
        simp only [List.not_mem_nil, hc.clear hne hl.1 hl.2]
      · exact Iff.rfl
  · rw [run] at hs ⊢
    dsimp only at hs ⊢
    by_cases hline : kbdus c = chNewline
    · rw [enteredAfter, if_pos hline] at hs
      exact absurd (Option.some.inj hs) hne
    · rw [enteredAfter, if_neg hline] at hs
      split at hs
      · cases hs
      · exact (hp.readInd hline).trans (h.ready hs hs')

/-- What a look at the flag leaves of a session: no line is ready any more. -/
theorem looked (h : Indistinct t s s') {k₂ k₂' : Kernel} (hcur : k₂.curTerminal = s.kernel.curTerminal)
    (hkernel : Alike t k₂ k₂') (hrunning : OthersRunning k₂) (hrunning' : OthersRunning k₂')
    (hflag : k₂.keyboard.kbFlag = 0) (hflag' : k₂'.keyboard.kbFlag = 0)
    (htab : k₂.keyboard.tab = s.kernel.keyboard.tab)
    (htab' : k₂'.keyboard.tab = s'.kernel.keyboard.tab) :
    Indistinct t { s with kernel := k₂, entered := [] } { s' with kernel := k₂', entered := [] } := by
  refine ⟨hkernel, hrunning, hrunning', ⟨fun _ => rfl, fun _ => hflag⟩, ⟨fun _ => rfl, fun _ => hflag'⟩,
    Iff.rfl, fun hs => (by cases hs), fun ht => h.settled (hcur.symm.trans ht), fun ht hset => ?_⟩
  rw [htab, htab']
  exact h.tab (hcur.symm.trans ht) hset

/-- A `terminal_read` called on both sides. -/
theorem read (h : Indistinct t s s') (n : Int) :
    Indistinct t (s.run L fs cs (.read n)) (s'.run L fs cs (.read n)) := by
  rw [run, run, terminalRead_eq, terminalRead_eq, terminalReadLook_state, terminalReadLook_state]
  exact h.looked rfl (h.kernel.aside _ _ _ _ _ _) h.running h.running' rfl rfl rfl rfl

/-- A look of a waiting reader on both sides. -/
theorem look (h : Indistinct t s s') (u : Fin 3) (n : Int) :
    Indistinct t (s.run L fs cs (.look u n)) (s'.run L fs cs (.look u n)) := by
  rw [run, run, terminalReadLook_state, terminalReadLook_state]
  exact h.looked rfl (h.kernel.aside _ _ _ _ _ _) h.running h.running' rfl rfl rfl rfl

/-- A look of a reader that waits elsewhere, on one side, while no line of `t` is ready. -/
theorem look_hidden (h : Indistinct t s s') (u : Fin 3) (n : Int) (hnone : t ∉ s.entered) :
    Indistinct t (s.run L fs cs (.look u n)) s' := by
  rw [run, terminalReadLook_state]
  refine ⟨h.kernel.aside _ _ _ _ _ _, h.running, h.running', ⟨fun _ => rfl, fun _ => rfl⟩,
    h.flag', ?_, fun hs => (by cases hs), h.settled, h.tab⟩
  rw [← h.entered]
  simp only [List.not_mem_nil, hnone]

/-- A reader of `t` that looks at the flag on both sides, while it is 0 or the last Enter was
pressed on `t`: it waits on both sides, or gets the same bytes. -/
theorem looks_same (h : Indistinct t s s') {k₂ k₂' : Kernel} (n : Int)
    (hflag : k₂.keyboard.kbFlag = s.kernel.keyboard.kbFlag)
    (hflag' : k₂'.keyboard.kbFlag = s'.kernel.keyboard.kbFlag)
    (hread : k₂.keyboard.readInd = s.kernel.keyboard.readInd)
    (hread' : k₂'.keyboard.readInd = s'.kernel.keyboard.readInd)
    (hbuf : k₂.keyboard.kbBufs t = k₂'.keyboard.kbBufs t)
    (hhead : ∀ u, s.entered.head? = some u → u = t ∧ k₂.keyboard.kbBuf = some t)
    (hhead' : ∀ u, s'.entered.head? = some u → u = t ∧ k₂'.keyboard.kbBuf = some t) :
    (terminalReadLook n k₂).1 = (terminalReadLook n k₂').1 := by
  have howner : ∀ {l : List (Fin 3)} {p : Prop}, l ≠ [] → (∀ u, l.head? = some u → u = t ∧ p) →
      l.head? = some t ∧ t ∈ l ∧ p := by
    intro l p hne hl
    obtain ⟨u, l, rfl⟩ := List.exists_cons_of_ne_nil hne
    obtain ⟨rfl, hp⟩ := hl u rfl
    exact ⟨rfl, List.mem_cons_self, hp⟩
  have hnil : s.entered = [] ↔ s'.entered = [] := by
    constructor
    · intro hs
      by_contra hne
      have hmem := h.entered.mpr (howner hne hhead').2.1
      rw [hs] at hmem
      cases hmem
    · intro hs'
      by_contra hne
      have hmem := h.entered.mp (howner hne hhead).2.1
      rw [hs'] at hmem
      cases hmem
  refine terminalReadLook_same n ?_ (fun hset => ?_) hbuf
  · rw [hflag, hflag', h.flag, h.flag', hnil]
  · have hne : s.entered ≠ [] := fun hs => hset (hflag.trans (h.flag.mpr hs))
    obtain ⟨hs, -, hptr⟩ := howner hne hhead
    obtain ⟨hs', -, hptr'⟩ := howner (fun hs' => hne (hnil.mpr hs')) hhead'
    exact ⟨hread.trans ((h.ready hs hs').trans hread'.symm), hptr, hptr'⟩

/-- What a reader of `t` receives is the same on both sides. -/
theorem received_eq (h : Indistinct t s s') {e : TypingEvent} (hseen : ¬ Hidden t s e)
    (he : Apart t s e) (he' : Apart t s' e) : received t s e = received t s' e := by
  cases e with
  | key c => rfl
  | read n =>
    rw [received, received, ← h.kernel.cur]
    by_cases hcur : s.kernel.curTerminal = t
    · have hcur' : s'.kernel.curTerminal = t := h.kernel.cur.symm.trans hcur
      rw [if_pos hcur, if_pos hcur, terminalRead_eq, terminalRead_eq]
      exact congrArg some (h.looks_same n rfl rfl rfl rfl h.kernel.buf
        (fun u hu => ⟨he hcur u hu, congrArg some hcur⟩)
        fun u hu => ⟨he' hcur' u hu, congrArg some hcur'⟩)
    · rw [if_neg hcur, if_neg hcur]
  | look u n =>
    obtain rfl : u = t := not_not.mp hseen
    rw [received, received, if_pos rfl, if_pos rfl]
    exact congrArg some (h.looks_same n rfl rfl rfl rfl h.kernel.buf (he.1 rfl) (he'.1 rfl))

end Indistinct

/-- Sessions a reader on `t` cannot tell apart stay so. -/
theorem unwinds (L : Link) (fs : FileSystem) (cs : CallSite) (t : Fin 3) :
    Unwinds (run L fs cs) (Hidden t) (Apart t) (received t) (Indistinct t) where
  symm := Indistinct.symm
  hidden := by
    intro s s' e h hhidden he
    cases e with
    | key c => exact h.key_hidden L fs cs hhidden he
    | read n => exact absurd hhidden id
    | look u n => exact h.look_hidden L fs cs u n (he.2 hhidden)
  unseen := by
    intro s e hhidden
    cases e with
    | key c => rfl
    | read n => exact absurd hhidden id
    | look u n => exact if_neg hhidden
  both := by
    intro s s' e h _ _ he he'
    cases e with
    | key c => exact h.key L fs cs he he'
    | read n => exact h.read L fs cs n
    | look u n => exact h.look L fs cs u n
  same := fun h hseen _ he he' => h.received_eq hseen he he'

end TypingSession

/-- With all terminals running, two runs from the same state whose events are equal except for
printable keys and Enters on other terminals (and the turns of readers that wait there): if in
both nothing is carried over between `t` and the other terminals, the readers of `t` wait in
both or receive the same bytes in both. -/
theorem isolated_runs {L : Link} {fs : FileSystem} {cs : CallSite} {t : Fin 3} {s : TypingSession}
    (hrunning : OthersRunning s.kernel) (hflag : s.kernel.keyboard.kbFlag = 0 ↔ s.entered = [])
    {es es' : List TypingEvent}
    (h : Along (TypingSession.run L fs cs) (TypingSession.Apart t) s es)
    (h' : Along (TypingSession.run L fs cs) (TypingSession.Apart t) s es')
    (hsame : visible (TypingSession.run L fs cs) (TypingSession.Hidden t) s es =
      visible (TypingSession.run L fs cs) (TypingSession.Hidden t) s es') :
    observed (TypingSession.run L fs cs) (TypingSession.received t) s es =
      observed (TypingSession.run L fs cs) (TypingSession.received t) s es' :=
  (TypingSession.unwinds L fs cs t).observed_eq
    ⟨Alike.refl t s.kernel, hrunning, hrunning, hflag, hflag, Iff.rfl, fun _ _ => rfl, fun _ => rfl,
      fun _ _ => rfl⟩ h h' hsame

/-- In such runs no store leaves the keyboard buffers, so no buffer is changed through the
pointer to another one. -/
theorem isolated_stores_fit {L : Link} {fs : FileSystem} {cs : CallSite} {t : Fin 3}
    {s : TypingSession} (hind : IndexEvent.Indexed s.kernel) {es : List TypingEvent}
    (h : Along (TypingSession.run L fs cs) (TypingSession.Apart t) s es) :
    Along (TypingSession.run L fs cs)
      (fun s e => ∀ c, e = .key c → ∀ i ∈ (keyboardHandler L fs cs c s.kernel).2, InBuffer i) s es := by
  have hkey : ∀ (s : TypingSession) (c : Byte), IndexEvent.Indexed s.kernel →
      TypingSession.KeyApart t s c → IndexEvent.Safe L fs s.kernel (.key cs c) :=
    fun s c hs hc => IndexEvent.safe_of_harmless hs hc.inBuffer
  refine h.imp (I := fun s => IndexEvent.Indexed s.kernel) ?_ ?_ hind
  · rintro s e hs he c rfl
    exact (hkey s c hs he).1
  · intro s e hs he
    cases e with
    | key c => exact (hkey s c hs he).2
    | read n =>
      rw [TypingSession.run, terminalRead_eq, terminalReadLook_state]
      exact hs
    | look u n =>
      rw [TypingSession.run, terminalReadLook_state]
      exact hs

/-- All terminals run, and nothing has been typed. -/
def Sample.quiet : TypingSession := ⟨Sample.allRunning, [], false⟩

/-- An `a` on terminal 0 or nothing; then Alt+F2, Enter, and a read on terminal 1. -/
theorem isolated_runs_sample :
    observed (TypingSession.run Sample.link Sample.files Sample.site) (TypingSession.received 1)
        Sample.quiet [.key 30, .key 0x38, .key 0x3C, .key 28, .read 128] =
      observed (TypingSession.run Sample.link Sample.files Sample.site) (TypingSession.received 1)
        Sample.quiet [.key 0x38, .key 0x3C, .key 28, .read 128] :=
  isolated_runs (fun _ _ hzero => absurd hzero (by decide : (1 : Word) ≠ 0))
    ⟨fun _ => rfl, fun _ => rfl⟩ (by decide) (by decide) (by decide)

/-- Enter on terminal 0 or nothing; then Alt+F2 and a read on terminal 1: the read returns a
byte in one run, and waits in the other. -/
theorem enter_elsewhere_wakes :
    let f := TypingSession.run Sample.link Sample.files Sample.site
    let es : List TypingEvent := [.key 28, .key 0x38, .key 0x3C, .read 128]
    let es' : List TypingEvent := [.key 0x38, .key 0x3C, .read 128]
    visible f (TypingSession.Hidden 1) Sample.quiet es =
        visible f (TypingSession.Hidden 1) Sample.quiet es' ∧
      observed f (TypingSession.received 1) Sample.quiet es ≠
        observed f (TypingSession.received 1) Sample.quiet es' := by
  decide

end Os391
