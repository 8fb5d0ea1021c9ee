import Os391.Steps

/-!
# The keyboard: `keyboard.c`

`keyboard_handler` reads a scancode, selects the buffer and the index of the
current terminal, and works on the globals `kb_buf` and `kb_ind` until it copies
the index back; on some of its paths it returns before it does. The handler is
one function with many consecutive `if`s, kept here as one definition for each
of them in the order of the source. Beside the state it returns the indices at
which it has stored into the buffer: a store outside the 128 bytes would hit
whatever the linker has placed there, which is not modelled.
-/

namespace Os391

open Bytes Segment

/-! ## Scancodes -/

/-- `kbdus`, up to the last entry that is not 0. -/
def kbdusTable : List Byte :=
  [0x30, 27, 0x31, 0x32, 0x33, 0x34, 0x35, 0x36, 0x37, 0x38, 0x39, 0x30, 0x2D, 0x3D, 0x08, 0x09,
    0x71, 0x77, 0x65, 0x72, 0x74, 0x79, 0x75, 0x69, 0x6F, 0x70, 0x5B, 0x5D, 0x0A, 0,
    0x61, 0x73, 0x64, 0x66, 0x67, 0x68, 0x6A, 0x6B, 0x6C, 0x3B, 0x27, 0x60, 0,
    0x5C, 0x7A, 0x78, 0x63, 0x76, 0x62, 0x6E, 0x6D, 0x2C, 0x2E, 0x2F, 0, 0x2A, 0, 0x20, 1,
    0, 0, 0, 0, 0, 0, 0, 0, 0, 0, 0, 0, 0, 0, 0, 0x2D, 0, 0, 0, 0x2B]

/-- `kbdus[c]`. -/
def kbdus (c : Byte) : Byte := kbdusTable.getD c.toNat 0

/-- `CAPS_LOCK`. -/
def capsLock : Byte := 1

/-- `'\b'`, `'\t'`, `'\n'` and `'l'`. -/
def chBackspace : Byte := 8

def chTab : Byte := 9

def chNewline : Byte := 10

def chL : Byte := 0x6C

/-- The scancodes of the modifier keys, pressed and released. -/
def lShiftP : Byte := 0x2A

def rShiftP : Byte := 0x36

def lShiftR : Byte := 0xAA

def rShiftR : Byte := 0xB6

def ctrlP : Byte := 0x1D

def ctrlR : Byte := 0x9D

def altP : Byte := 0x38

def altR : Byte := 0xB8

/-- The terminal a function key switches to. -/
def functionKey (c : Byte) : Option (Fin 3) :=
  if c = 0x3B then some 0 else if c = 0x3C then some 1 else if c = 0x3D then some 2 else none

/-! ## The globals -/

/-- Swap 0 and 1. -/
def flip (x : Int) : Int := if x = 0 then 1 else if x = 1 then 0 else x

namespace Keyboard

/-- The variables as they are initialised. -/
def zero : Keyboard := ⟨fun _ _ => 0, fun _ => 0, none, 0, 0, 0, 0, 0, 0, 0⟩

/-- They are so at boot. -/
theorem bootKernel_keyboard (L : Link) (mem : Word → Byte) (t : PageTables) :
    (bootKernel L mem t).keyboard = zero := rfl

/-- Point `kb_buf` and `kb_ind` at the current terminal. -/
@[simps] def select (t : Fin 3) (kb : Keyboard) : Keyboard :=
  { kb with kbBuf := some t, kbInd := kb.kbInds t }

/-- Copy `kb_ind` back to the current terminal. -/
@[simps] def saveBack (t : Fin 3) (kb : Keyboard) : Keyboard :=
  { kb with kbInds := Function.update kb.kbInds t kb.kbInd }

/-- The modifier keys. -/
def modifiers (c : Byte) (kb : Keyboard) : Keyboard :=
  let kb := if c = altP then { kb with alt := 1 } else kb
  let kb := if c = altR then { kb with alt := 0 } else kb
  let kb := if c = lShiftP ∨ c = rShiftP then { kb with caps := flip kb.caps } else kb
  let kb := if c = lShiftR ∨ c = rShiftR then { kb with caps := flip kb.caps } else kb
  let kb := if c = ctrlP then { kb with ctrl := flip kb.ctrl } else kb
  if c = ctrlR then { kb with ctrl := flip kb.ctrl } else kb

/-- `kb_buf[kb_ind] = ch`. -/
def store (ch : Byte) (kb : Keyboard) : Keyboard :=
  match kb.kbBuf with
  | some t =>
    if 0 ≤ kb.kbInd ∧ kb.kbInd < 128 then
      let buf := Function.update (kb.kbBufs t) (Fin.ofNat 128 kb.kbInd.toNat) ch
      { kb with kbBufs := Function.update kb.kbBufs t buf }
    else kb
  | none => kb

/-- The other variables are left alone by a store. -/
theorem store_eq (ch : Byte) (kb : Keyboard) :
    kb.store ch = { kb with kbBufs := (kb.store ch).kbBufs } := by
  rw [store]
  repeat' split
  all_goals rfl

/-- A store inside the buffer. -/
theorem store_kbBufs {kb : Keyboard} {t : Fin 3} (hbuf : kb.kbBuf = some t) (hlow : 0 ≤ kb.kbInd)
    (hhigh : kb.kbInd < 128) (ch : Byte) : (kb.store ch).kbBufs = Function.update kb.kbBufs t
      (Function.update (kb.kbBufs t) (Fin.ofNat 128 kb.kbInd.toNat) ch) := by
  rw [store, hbuf]
  dsimp only
  rw [if_pos ⟨hlow, hhigh⟩]

/-- A store leaves the other terminals' buffers alone. -/
theorem store_kbBufs_of_ne {kb : Keyboard} {t u : Fin 3} (hbuf : kb.kbBuf = some u) (h : t ≠ u)
    (ch : Byte) : (kb.store ch).kbBufs t = kb.kbBufs t := by
  rw [store, hbuf]
  dsimp only
  split
  · exact Function.update_of_ne h _ _
  · rfl

/-- The byte `kb_buf[i]`. -/
def bufferByte (kb : Keyboard) (i : ℕ) : Byte :=
  match kb.kbBuf with
  | some t => kb.kbBufs t (Fin.ofNat 128 i)
  | none => 0

end Keyboard

/-! ## `keyboard_handler` -/

/-- What a key press works on: the globals, the screen, and the indices stored at. -/
structure Keystroke : Type where
  keyboard : Keyboard
  console : Console
  stores : List Int

namespace Keystroke

/-- `kb_buf[kb_ind] = ch; kb_ind++;` -/
def append (ch : Byte) (k : Keystroke) : Keystroke where
  keyboard := { k.keyboard.store ch with kbInd := k.keyboard.kbInd + 1 }
  console := k.console
  stores := k.stores ++ [k.keyboard.kbInd]

/-- The backspace key: four cells after a tab, else one if there is one. -/
def backspaceKey (ch : Byte) (k : Keystroke) : Keystroke :=
  if ch = chBackspace then
    if k.keyboard.tab ≠ 0 then
      { k with
        console := k.console.backspace.backspace.backspace.backspace
        keyboard := { k.keyboard with kbInd := k.keyboard.kbInd - 1 } }
    else if k.keyboard.kbInd ≠ 0 then
      { k with
        console := k.console.backspace
        keyboard := { k.keyboard with kbInd := k.keyboard.kbInd - 1 } }
    else k
  else k

/-- The tab key, and `tab` for every other key. -/
def tabKey (ch : Byte) (k : Keystroke) : Keystroke :=
  if ch = chTab then
    let k := k.append chTab
    { k with
      console := Console.puts [0x20, 0x20, 0x20, 0x20] k.console
      keyboard := { k.keyboard with tab := 1 } }
  else { k with keyboard := { k.keyboard with tab := 0 } }

/-- Ctrl+L. -/
def ctrlL (ch : Byte) (k : Keystroke) : Keystroke :=
  if k.keyboard.ctrl ≠ 0 ∧ ch = chL then
    { k with
      console := k.console.clearscreen
      keyboard := { k.keyboard with kbInd := 0, kbFlag := 0 } }
  else k

/-- The line is complete: `kb_flag = 1; read_ind = kb_ind; kb_ind = 0;` -/
def complete (k : Keystroke) : Keystroke :=
  { k with keyboard := { k.keyboard with kbFlag := 1, readInd := k.keyboard.kbInd, kbInd := 0 } }

/-- The byte a key stores and prints: letters are capitals while `caps` is set. -/
def shifted (caps : Int) (ch : Byte) : Byte :=
  if caps ≠ 0 ∧ 97 ≤ ch.toNat ∧ ch.toNat ≤ 122 then ch - 32 else ch

/-- A key with a character: store it and print it. -/
def printKey (ch : Byte) (k : Keystroke) : Keystroke :=
  let out := shifted k.keyboard.caps ch
  let k := k.append out
  { k with console :=
      if k.keyboard.kbInd = 80 then Console.newline out k.console else Console.putc out k.console }

/-- The keys with a character, the newline among them. -/
def IsCharacter (ch : Byte) : Prop := ch ≠ 0 ∧ ch ≠ capsLock ∧ ch ≠ chBackspace ∧ ch ≠ chTab

instance (ch : Byte) : Decidable (IsCharacter ch) :=
  inferInstanceAs (Decidable (ch ≠ 0 ∧ ch ≠ capsLock ∧ ch ≠ chBackspace ∧ ch ≠ chTab))

/-- The last part, behind the check for a full buffer. -/
def finish (ch : Byte) (k : Keystroke) : Keystroke :=
  let k := if IsCharacter ch then (k.printKey ch).ctrlL ch else k
  let k := if ch = chNewline then k.complete else k
  if ch = capsLock then { k with keyboard := { k.keyboard with caps := flip k.keyboard.caps } } else k

/-- A key press, once it is known not to switch terminals; `false` if the handler returns
before it copies the index back. -/
def press (ch : Byte) (k : Keystroke) : Bool × Keystroke :=
  let k := ((k.backspaceKey ch).tabKey ch).ctrlL ch
  if ch = chNewline ∧ (Console.scrolldown k.console).1 ≠ 0 then
    (false, { k with console := (Console.scrolldown k.console).2 }.complete)
  else if 127 ≤ k.keyboard.kbInd ∧ ch ≠ chNewline then (false, k)
  else (true, k.finish ch)

end Keystroke

/-- The terminal a key switches to. -/
def switchTarget (c : Byte) (kb : Keyboard) : Option (Fin 3) :=
  if kb.alt ≠ 0 then functionKey c else none

/-- `keyboard_handler`: the state afterwards and the indices stored at. -/
def keyboardHandler (L : Link) (fs : FileSystem) (cs : CallSite) (c : Byte) (s : Kernel) :
    Kernel × List Int :=
  let kb := (s.keyboard.select s.curTerminal).modifiers c
  if c.toNat < 128 then
    match switchTarget c kb with
    | some t => ((switchTerminal L fs cs s.curTerminal t { s with keyboard := kb }).2, [])
    | none =>
      let r := Keystroke.press (kbdus c) ⟨kb, s.console, []⟩
      let kb := if r.1 then r.2.keyboard.saveBack s.curTerminal else r.2.keyboard
      ({ s with keyboard := kb, console := r.2.console }, r.2.stores)
  else ({ s with keyboard := kb.saveBack s.curTerminal }, [])

/-! ## `terminal_read`, once a line is ready -/

/-- `terminal_read` behind its waiting loop, with the buffer that `kb_buf` points at now. -/
def terminalReadRest (nbytes : Int) (s : Kernel) : (Int × Stores) × Kernel :=
  let n := (min (min s.keyboard.readInd 128) nbytes).toNat
  ((n, fill s.keyboard.bufferByte 0 0 n), { s with keyboard := { s.keyboard with kbFlag := 0 } })

/-- One look of the waiting loop at `kb_flag`; `none` while it goes on waiting. -/
def terminalReadLook (nbytes : Int) (s : Kernel) : Option (Int × Stores) × Kernel :=
  if s.keyboard.kbFlag = 0 then (none, s)
  else
    let r := terminalReadRest nbytes s
    (some r.1, r.2)

/-- `terminal_read` selects the buffer and looks at the flag. -/
theorem terminalRead_eq (nbytes : Int) (s : Kernel) : terminalRead nbytes s =
    terminalReadLook nbytes { s with keyboard := s.keyboard.select s.curTerminal } := by
  rw [terminalReadLook]
  split
  · rename_i hflag
    exact if_pos hflag
  · rename_i hflag
    exact if_neg hflag

/-- After a look the flag is 0, and nothing else has changed. -/
theorem terminalReadLook_state (nbytes : Int) (s : Kernel) : (terminalReadLook nbytes s).2 =
    { s with keyboard := { s.keyboard with kbFlag := 0 } } := by
  rw [terminalReadLook]
  split
  · rename_i hflag
    rw [← hflag]
  · rfl

/-- Two looks give the same if both or neither flag is set, and behind a set flag the length
is the same and `kb_buf` points at the same buffer. -/
theorem terminalReadLook_same {s s' : Kernel} {t : Fin 3} (nbytes : Int)
    (hflag : s.keyboard.kbFlag = 0 ↔ s'.keyboard.kbFlag = 0)
    (hset : s.keyboard.kbFlag ≠ 0 → s.keyboard.readInd = s'.keyboard.readInd ∧
      s.keyboard.kbBuf = some t ∧ s'.keyboard.kbBuf = some t)
    (hbuf : s.keyboard.kbBufs t = s'.keyboard.kbBufs t) :
    (terminalReadLook nbytes s).1 = (terminalReadLook nbytes s').1 := by
  rw [terminalReadLook, terminalReadLook]
  by_cases hzero : s.keyboard.kbFlag = 0
  · rw [if_pos hzero, if_pos (hflag.mp hzero)]
  · obtain ⟨hread, hptr, hptr'⟩ := hset hzero
    have hbyte : s.keyboard.bufferByte = s'.keyboard.bufferByte := by
      funext i
      rw [Keyboard.bufferByte, Keyboard.bufferByte, hptr, hptr']
      exact congrFun hbuf _
    rw [if_neg hzero, if_neg fun h => hzero (hflag.mpr h), terminalReadRest, terminalReadRest, hread,
      hbyte]

/-! ## One lemma for each kind of key -/

namespace Keystroke

/-- The keys with a character that does not end the line. -/
def Prints (ch : Byte) : Prop := IsCharacter ch ∧ ch ≠ chNewline

instance (ch : Byte) : Decidable (Prints ch) :=
  inferInstanceAs (Decidable (IsCharacter ch ∧ ch ≠ chNewline))

/-- Every key is of one of six kinds. -/
theorem kind_cases (ch : Byte) : ch = chBackspace ∨ ch = chTab ∨ ch = chNewline ∨ ch = capsLock ∨
    ch = 0 ∨ Prints ch := by
  by_cases hb : ch = chBackspace
  · exact Or.inl hb
  by_cases ht : ch = chTab
  · exact Or.inr (Or.inl ht)
  by_cases hn : ch = chNewline
  · exact Or.inr (Or.inr (Or.inl hn))
  by_cases hc : ch = capsLock
  · exact Or.inr (Or.inr (Or.inr (Or.inl hc)))
  by_cases h0 : ch = 0
  · exact Or.inr (Or.inr (Or.inr (Or.inr (Or.inl h0))))
  exact Or.inr (Or.inr (Or.inr (Or.inr (Or.inr ⟨⟨h0, hc, hb, ht⟩, hn⟩))))

/-- `scrolldown` scrolls on the last row, and says so. -/
theorem scrolldown_ne_zero (c : Console) : (Console.scrolldown c).1 ≠ 0 ↔ c.screenY = 24 := by
  rw [Console.scrolldown]
  by_cases hy : c.screenY = 24
  · rw [if_neg (not_not.mpr hy)]
    exact ⟨fun _ => hy, fun _ => (by decide : (1 : Int) ≠ 0)⟩
  · rw [if_pos hy]
    exact ⟨fun h => absurd rfl h, fun h => absurd h hy⟩

/-- Every key but the tab key clears `tab`. -/
def untab (k : Keystroke) : Keystroke := { k with keyboard := { k.keyboard with tab := 0 } }

section kinds

variable {ch : Byte} (k : Keystroke)

theorem backspaceKey_of_ne (h : ch ≠ chBackspace) : k.backspaceKey ch = k := if_neg h

theorem tabKey_of_ne (h : ch ≠ chTab) : k.tabKey ch = k.untab := if_neg h

theorem ctrlL_of_ctrl (h : k.keyboard.ctrl = 0) : k.ctrlL ch = k := if_neg fun hl => hl.1 h

theorem ctrlL_of_ne (h : ch ≠ chL) : k.ctrlL ch = k := if_neg fun hl => h hl.2

/-- Behind the newline check, a full buffer ends the handler. -/
theorem press_of_ne (h : ch ≠ chNewline) : k.press ch =
    let k := ((k.backspaceKey ch).tabKey ch).ctrlL ch
    if 127 ≤ k.keyboard.kbInd then (false, k) else (true, k.finish ch) := by
  rw [press, if_neg fun hn => h hn.1]
  simp only [h, ne_eq, not_false_eq_true, and_true]

/-- The backspace key. -/
theorem press_backspace : k.press chBackspace =
    let k := (k.backspaceKey chBackspace).untab
    if 127 ≤ k.keyboard.kbInd then (false, k) else (true, k) := by
  rw [press_of_ne k (by decide), tabKey_of_ne _ (by decide), ctrlL_of_ne _ (by decide)]
  rfl

/-- The tab key. -/
theorem press_tab : k.press chTab =
    let k := k.tabKey chTab
    if 127 ≤ k.keyboard.kbInd then (false, k) else (true, k) := by
  rw [press_of_ne k (by decide), backspaceKey_of_ne _ (by decide), ctrlL_of_ne _ (by decide)]
  rfl

/-- A key without a character. -/
theorem press_none : k.press 0 =
    if 127 ≤ k.keyboard.kbInd then (false, k.untab) else (true, k.untab) := by
  rw [press_of_ne k (by decide), backspaceKey_of_ne _ (by decide), tabKey_of_ne _ (by decide),
    ctrlL_of_ne _ (by decide)]
  rfl

/-- Caps lock. -/
theorem press_capsLock : k.press capsLock =
    if 127 ≤ k.keyboard.kbInd then (false, k.untab)
    else
      (true, { k.untab with keyboard := { k.untab.keyboard with caps := flip k.keyboard.caps } }) := by
  rw [press_of_ne k (by decide), backspaceKey_of_ne _ (by decide), tabKey_of_ne _ (by decide),
    ctrlL_of_ne _ (by decide)]
  rfl

/-- Enter: on the last row the line is complete without a newline in it. -/
theorem press_newline : k.press chNewline =
    if k.console.screenY = 24 then
      (false, { k.untab with console := k.console.scrolldown.2 }.complete)
    else (true, (k.untab.printKey chNewline).complete) := by
  have hstart : ((k.backspaceKey chNewline).tabKey chNewline).ctrlL chNewline = k.untab := by
    rw [backspaceKey_of_ne _ (by decide), tabKey_of_ne _ (by decide), ctrlL_of_ne _ (by decide)]
  rw [press, hstart]
  simp only [scrolldown_ne_zero, true_and]
  have huntab : k.untab.console = k.console := rfl
  rw [huntab]
  by_cases hy : k.console.screenY = 24
  · rw [if_pos hy, if_pos hy]
  · rw [if_neg hy, if_neg hy, if_neg fun hfull => hfull.2 rfl]
    have hchar : IsCharacter chNewline := by decide
    have hcaps : chNewline ≠ capsLock := by decide
    rw [finish]
    simp only [if_pos hchar, if_neg hcaps, if_true]
    rw [ctrlL_of_ne _ (by decide)]

/-- A key that prints. -/
theorem press_prints (h : Prints ch) : k.press ch =
    let k := k.untab.ctrlL ch
    if 127 ≤ k.keyboard.kbInd then (false, k) else (true, (k.printKey ch).ctrlL ch) := by
  obtain ⟨hchar, hn⟩ := h
  rw [press_of_ne k hn, backspaceKey_of_ne _ hchar.2.2.1, tabKey_of_ne _ hchar.2.2.2]
  dsimp only
  rw [finish, if_pos hchar]
  simp only [hn, hchar.2.1, if_false]

/-! ## What a key press changes besides the line -/

/-- What pressing `ch` on terminal `u` makes of everything that does not belong to the line
and the screen of that terminal. -/
structure Effect (u : Fin 3) (ch : Byte) (k k' : Keystroke) : Prop where
  kbBuf : k'.keyboard.kbBuf = k.keyboard.kbBuf
  bufs : ∀ t, t ≠ u → k'.keyboard.kbBufs t = k.keyboard.kbBufs t
  inds : k'.keyboard.kbInds = k.keyboard.kbInds
  alt : k'.keyboard.alt = k.keyboard.alt
  ctrl : k'.keyboard.ctrl = k.keyboard.ctrl
  caps : k'.keyboard.caps =
    if ch = capsLock ∧ k.keyboard.kbInd < 127 then flip k.keyboard.caps else k.keyboard.caps
  tab : k'.keyboard.tab = if ch = chTab then 1 else 0
  flag : k'.keyboard.kbFlag =
    if ch = chNewline then 1 else if k.keyboard.ctrl ≠ 0 ∧ ch = chL then 0 else k.keyboard.kbFlag
  readInd : ch ≠ chNewline → k'.keyboard.readInd = k.keyboard.readInd

variable {k}

/-- Ctrl+L clears the flag. -/
theorem ctrlL_effect (ch : Byte) : (k.ctrlL ch).keyboard =
    { k.keyboard with
      kbInd := (k.ctrlL ch).keyboard.kbInd
      kbFlag := if k.keyboard.ctrl ≠ 0 ∧ ch = chL then 0 else k.keyboard.kbFlag } := by
  rw [ctrlL]
  split
  · rfl
  · rfl

theorem append_keyboard (ch : Byte) : (k.append ch).keyboard =
    { k.keyboard with
      kbBufs := (k.keyboard.store ch).kbBufs, kbInd := k.keyboard.kbInd + 1 } := by
  rw [append, Keyboard.store_eq]

/-- Keys other than Enter and `l` leave the flag alone. -/
theorem flag_of_ne (hline : ch ≠ chNewline) (hl : ch ≠ chL) (flag ctrl : Int) :
    flag = if ch = chNewline then 1 else if ctrl ≠ 0 ∧ ch = chL then 0 else flag := by
  rw [if_neg hline, if_neg fun h => hl h.2]

/-- A key besides Tab, Enter and Caps Lock: of the keyboard it changes the line, and what
Ctrl+L clears. -/
theorem Effect.of_keyboard {u : Fin 3} {k' : Keystroke} (bufs : Fin 3 → Fin 128 → Byte)
    (i flag : Int) (hcaps : ch ≠ capsLock) (htab : ch ≠ chTab) (hline : ch ≠ chNewline)
    (hkeyboard : k'.keyboard =
      { k.keyboard with kbBufs := bufs, kbInd := i, kbFlag := flag, tab := 0 })
    (hbufs : ∀ t, t ≠ u → bufs t = k.keyboard.kbBufs t)
    (hflag : flag = if k.keyboard.ctrl ≠ 0 ∧ ch = chL then 0 else k.keyboard.kbFlag) :
    Effect u ch k k' := by
  obtain ⟨kb, c, st⟩ := k'
  subst hkeyboard
  exact ⟨rfl, hbufs, rfl, rfl, rfl, (if_neg fun h => hcaps h.1).symm, (if_neg htab).symm,
    hflag.trans (if_neg hline).symm, fun _ => rfl⟩

/-- A key that stores nothing and leaves `caps` and the flag alone. -/
theorem Effect.of_untab {u : Fin 3} (hcaps : ch ≠ capsLock) (htab : ch ≠ chTab)
    (hline : ch ≠ chNewline) (hl : ch ≠ chL) (i : Int) (c : Console) (st : List Int) :
    Effect u ch k ⟨{ k.untab.keyboard with kbInd := i }, c, st⟩ :=
  Effect.of_keyboard _ i _ hcaps htab hline rfl (fun _ _ => rfl) (if_neg fun h => hl h.2).symm

/-- The effect of a key that prints. -/
theorem effect_prints {u : Fin 3} (hbuf : k.keyboard.kbBuf = some u) (h : Prints ch) :
    Effect u ch k (k.press ch).2 := by
  obtain ⟨⟨-, hcaps, -, htab⟩, hline⟩ := id h
  have hfirst := ctrlL_effect (k := k.untab) ch
  rw [press_prints k h]
  generalize k.untab.ctrlL ch = k₁ at hfirst ⊢
  dsimp only
  split
  · exact Effect.of_keyboard _ _ _ hcaps htab hline hfirst (fun _ _ => rfl) rfl
  · have hbuf₁ : k₁.keyboard.kbBuf = some u := by
      rw [hfirst]
      exact hbuf
    have hprint : (k₁.printKey ch).keyboard =
        { k₁.keyboard with
          kbBufs := (k₁.keyboard.store (shifted k₁.keyboard.caps ch)).kbBufs
          kbInd := k₁.keyboard.kbInd + 1 } := append_keyboard _
    have hlast := ctrlL_effect (k := k₁.printKey ch) ch
    refine Effect.of_keyboard (k₁.keyboard.store (shifted k₁.keyboard.caps ch)).kbBufs
      ((k₁.printKey ch).ctrlL ch).keyboard.kbInd
      (if k₁.keyboard.ctrl ≠ 0 ∧ ch = chL then 0 else k₁.keyboard.kbFlag) hcaps htab hline ?_
      (fun t ht => ?_) ?_
    · rw [hlast, hprint, hfirst]
      rfl
    · rw [Keyboard.store_kbBufs_of_ne hbuf₁ ht, hfirst]
      rfl
    · -- Ctrl+L is looked for twice
      rw [hfirst]
      dsimp only [untab]
      by_cases hclear : k.keyboard.ctrl ≠ 0 ∧ ch = chL
      · exact (if_pos hclear).trans (if_pos hclear).symm
      · exact (if_neg hclear).trans ((if_neg hclear).trans (if_neg hclear).symm)

/-- The effect of a key press on terminal `u`. -/
theorem press_effect {u : Fin 3} (hbuf : k.keyboard.kbBuf = some u) (ch : Byte) :
    Effect u ch k (k.press ch).2 := by
  rcases kind_cases ch with rfl | rfl | rfl | rfl | rfl | hprints
  · rw [press_backspace]
    have hback : ∃ i c, (k.backspaceKey chBackspace).untab =
        ⟨{ k.untab.keyboard with kbInd := i }, c, k.stores⟩ := by
      rw [backspaceKey, if_pos rfl]
      repeat' split
      · exact ⟨_, _, rfl⟩
      · exact ⟨_, _, rfl⟩
      · exact ⟨k.keyboard.kbInd, k.console, rfl⟩
    obtain ⟨i, c, hback⟩ := hback
    dsimp only
    rw [apply_ite Prod.snd, ite_self, hback]
    exact Effect.of_untab (by decide) (by decide) (by decide) (by decide) i c k.stores
  · rw [press_tab]
    dsimp only
    rw [apply_ite Prod.snd, ite_self, tabKey, if_pos rfl]
    refine ⟨?_, fun t ht => ?_, ?_, ?_, ?_, ?_, rfl, ?_, fun _ => ?_⟩ <;> dsimp only <;>
      rw [append_keyboard]
    · exact Keyboard.store_kbBufs_of_ne hbuf ht _
    · exact (if_neg fun h => absurd h.1 (by decide)).symm
    · exact flag_of_ne (by decide) (by decide) _ _
  · rw [press_newline]
    split
    · exact ⟨rfl, fun _ _ => rfl, rfl, rfl, rfl, (if_neg fun h => absurd h.1 (by decide)).symm,
        rfl, rfl, fun h => absurd rfl h⟩
    · refine ⟨?_, fun t ht => ?_, ?_, ?_, ?_, ?_, ?_, rfl, fun h => absurd rfl h⟩ <;>
        dsimp only [complete, printKey] <;> rw [append_keyboard]
      · exact hbuf.trans hbuf.symm
      · have huntab : k.untab.keyboard.kbBuf = some u := hbuf
        exact Keyboard.store_kbBufs_of_ne huntab ht _
      · rfl
      · rfl
      · rfl
      · exact (if_neg fun h => absurd h.1 (by decide)).symm
      · rfl
  · rw [press_capsLock]
    split
    · rename_i hfull
      refine ⟨rfl, fun _ _ => rfl, rfl, rfl, rfl, (if_neg fun h => ?_).symm, rfl,
        flag_of_ne (by decide) (by decide) _ _, fun _ => rfl⟩
      omega
    · rename_i hroom
      exact ⟨rfl, fun _ _ => rfl, rfl, rfl, rfl, (if_pos ⟨rfl, not_le.mp hroom⟩).symm, rfl,
        flag_of_ne (by decide) (by decide) _ _, fun _ => rfl⟩
  · rw [press_none, apply_ite Prod.snd, ite_self]
    exact Effect.of_untab (by decide) (by decide) (by decide) (by decide) k.keyboard.kbInd
      k.console k.stores
  · exact effect_prints hbuf hprints

end kinds

end Keystroke

/-! ## The handler around a key press -/

section handler

variable {c : Byte} (kb : Keyboard)

namespace Keyboard

/-- What a key does as a modifier: it sets or clears `alt`, flips `caps` or `ctrl`, or it is
not a modifier. -/
theorem modifiers_cases (c : Byte) :
    (∀ kb : Keyboard, kb.modifiers c = { kb with alt := 1 }) ∨
      (∀ kb : Keyboard, kb.modifiers c = { kb with alt := 0 }) ∨
      (∀ kb : Keyboard, kb.modifiers c = { kb with caps := flip kb.caps }) ∨
      (∀ kb : Keyboard, kb.modifiers c = { kb with ctrl := flip kb.ctrl }) ∨
      ∀ kb : Keyboard, kb.modifiers c = kb := by
  by_cases h₁ : c = altP
  · subst h₁
    exact Or.inl fun kb => rfl
  by_cases h₂ : c = altR
  · subst h₂
    exact Or.inr (Or.inl fun kb => rfl)
  by_cases h₃ : c = lShiftP ∨ c = rShiftP
  · rcases h₃ with rfl | rfl <;> exact Or.inr (Or.inr (Or.inl fun kb => rfl))
  by_cases h₄ : c = lShiftR ∨ c = rShiftR
  · rcases h₄ with rfl | rfl <;> exact Or.inr (Or.inr (Or.inl fun kb => rfl))
  by_cases h₅ : c = ctrlP
  · subst h₅
    exact Or.inr (Or.inr (Or.inr (Or.inl fun kb => rfl)))
  by_cases h₆ : c = ctrlR
  · subst h₆
    exact Or.inr (Or.inr (Or.inr (Or.inl fun kb => rfl)))
  · exact Or.inr (Or.inr (Or.inr (Or.inr fun kb => by
      simp only [modifiers, h₁, h₂, h₃, h₄, h₅, h₆, if_false])))

/-- The modifier keys change three variables. -/
theorem modifiers_eq (c : Byte) : ∃ alt caps ctrl : Int,
    kb.modifiers c = { kb with alt := alt, caps := caps, ctrl := ctrl } := by
  rcases modifiers_cases c with h | h | h | h | h
  all_goals
    rw [h]
    exact ⟨_, _, _, rfl⟩

@[simp] theorem modifiers_kbBufs : (kb.modifiers c).kbBufs = kb.kbBufs := by
  obtain ⟨_, _, _, h⟩ := modifiers_eq kb c
  rw [h]

@[simp] theorem modifiers_kbInds : (kb.modifiers c).kbInds = kb.kbInds := by
  obtain ⟨_, _, _, h⟩ := modifiers_eq kb c
  rw [h]

@[simp] theorem modifiers_kbBuf : (kb.modifiers c).kbBuf = kb.kbBuf := by
  obtain ⟨_, _, _, h⟩ := modifiers_eq kb c
  rw [h]

@[simp] theorem modifiers_kbInd : (kb.modifiers c).kbInd = kb.kbInd := by
  obtain ⟨_, _, _, h⟩ := modifiers_eq kb c
  rw [h]

@[simp] theorem modifiers_readInd : (kb.modifiers c).readInd = kb.readInd := by
  obtain ⟨_, _, _, h⟩ := modifiers_eq kb c
  rw [h]

@[simp] theorem modifiers_kbFlag : (kb.modifiers c).kbFlag = kb.kbFlag := by
  obtain ⟨_, _, _, h⟩ := modifiers_eq kb c
  rw [h]

@[simp] theorem modifiers_tab : (kb.modifiers c).tab = kb.tab := by
  obtain ⟨_, _, _, h⟩ := modifiers_eq kb c
  rw [h]

end Keyboard

variable {L : Link} {fs : FileSystem} {cs : CallSite} {s : Kernel}

/-- Starting a program leaves the keyboard alone. -/
theorem executeFunction_keyboard (L : Link) (fs : FileSystem) (cs : CallSite) (s : Kernel)
    (command : Option (List Byte)) :
    (executeFunction L fs cs command s).2.keyboard = s.keyboard := by
  rcases command with _ | command
  · rfl
  rcases hname : fs.readDentryByName (commandName command) with _ | e
  · rw [executeFunction_unknown hname]
  rcases hfree : freeSlot s.processes with _ | i
  · rw [executeFunction_full hname hfree]
  · rw [executeFunction_found hname hfree, executeIn]
    dsimp only
    repeat' split
    all_goals rfl

/-- So does a switch of terminals. -/
theorem switchTerminal_keyboard (source target : Fin 3) :
    (switchTerminal L fs cs source target s).2.keyboard = s.keyboard := by
  rcases switchTerminal_cases (Prod.mk.eta (p := switchTerminal L fs cs source target s)).symm with
    ⟨-, h⟩ | ⟨-, h⟩ | ⟨r, -, h⟩
  · rw [h]
  · rw [h]
    rfl
  · have hkept := executeFunction_keyboard L fs cs ((showTerminal source target s).startingOn target)
      (some shellCommand)
    rw [h] at hkept
    exact hkept

/-- The state in which a key is looked at: the buffer and the index are selected, and the
modifier keys have been handled. -/
def Kernel.looked (c : Byte) (s : Kernel) : Keyboard :=
  (s.keyboard.select s.curTerminal).modifiers c

namespace Kernel

variable (c : Byte) (s : Kernel)

@[simp] theorem looked_kbBufs : (s.looked c).kbBufs = s.keyboard.kbBufs :=
  Keyboard.modifiers_kbBufs _

@[simp] theorem looked_kbInds : (s.looked c).kbInds = s.keyboard.kbInds :=
  Keyboard.modifiers_kbInds _

@[simp] theorem looked_kbBuf : (s.looked c).kbBuf = some s.curTerminal :=
  Keyboard.modifiers_kbBuf _

@[simp] theorem looked_kbInd : (s.looked c).kbInd = s.keyboard.kbInds s.curTerminal :=
  Keyboard.modifiers_kbInd _

@[simp] theorem looked_readInd : (s.looked c).readInd = s.keyboard.readInd :=
  Keyboard.modifiers_readInd _

@[simp] theorem looked_kbFlag : (s.looked c).kbFlag = s.keyboard.kbFlag :=
  Keyboard.modifiers_kbFlag _

@[simp] theorem looked_tab : (s.looked c).tab = s.keyboard.tab := Keyboard.modifiers_tab _

end Kernel

/-- A key that is released. -/
theorem keyboardHandler_released (h : 128 ≤ c.toNat) : keyboardHandler L fs cs c s =
    ({ s with keyboard := (s.looked c).saveBack s.curTerminal }, []) :=
  if_neg (Nat.not_lt.mpr h)

/-- A key that switches terminals. -/
theorem keyboardHandler_switch {t : Fin 3} (hc : c.toNat < 128)
    (h : switchTarget c (s.looked c) = some t) : keyboardHandler L fs cs c s =
      ((switchTerminal L fs cs s.curTerminal t { s with keyboard := s.looked c }).2, []) := by
  rw [Kernel.looked] at h
  rw [keyboardHandler, if_pos hc, h]
  rfl

/-- Any other key: what `press` makes of it, and the index copied back if it says so. -/
theorem keyboardHandler_press (hc : c.toNat < 128) (h : switchTarget c (s.looked c) = none) :
    keyboardHandler L fs cs c s =
      let r := Keystroke.press (kbdus c) ⟨s.looked c, s.console, []⟩
      let kb := if r.1 then r.2.keyboard.saveBack s.curTerminal else r.2.keyboard
      ({ s with keyboard := kb, console := r.2.console }, r.2.stores) := by
  rw [Kernel.looked] at h
  rw [keyboardHandler, if_pos hc, h]
  rfl

/-! Scancodes that `kbdus` maps to something are pressed keys, and none of them switches
terminals or is a modifier. -/

theorem lt_of_kbdus (h : kbdus c ≠ 0) : c.toNat < 128 := by
  by_contra hge
  have hlen : kbdusTable.length = 79 := rfl
  refine h ?_
  rw [kbdus, List.getD_eq_getElem?_getD, List.getElem?_eq_none (by omega)]
  rfl

theorem switchTarget_of_kbdus (h : kbdus c ≠ 0) (kb : Keyboard) : switchTarget c kb = none := by
  rw [switchTarget, functionKey]
  split
  · repeat' split
    all_goals first | rfl | (subst c; exact absurd rfl h)
  · rfl

theorem modifiers_of_kbdus (h : kbdus c ≠ 0) (kb : Keyboard) : kb.modifiers c = kb := by
  have hne : ∀ d : Byte, kbdus d = 0 → c ≠ d := fun d hd hc => h (hc ▸ hd)
  have hlt := lt_of_kbdus h
  have hhigh : ∀ d : Byte, 128 ≤ d.toNat → c ≠ d := fun d hd hc => by
    rw [hc] at hlt
    omega
  simp only [Keyboard.modifiers, hne altP rfl, hne lShiftP rfl, hne rShiftP rfl, hne ctrlP rfl,
    hhigh altR (by decide), hhigh lShiftR (by decide), hhigh rShiftR (by decide),
    hhigh ctrlR (by decide), or_self, if_false]

/-- A key with an entry in `kbdus`. -/
theorem keyboardHandler_kbdus (h : kbdus c ≠ 0) : keyboardHandler L fs cs c s =
    let r := Keystroke.press (kbdus c) ⟨s.keyboard.select s.curTerminal, s.console, []⟩
    let kb := if r.1 then r.2.keyboard.saveBack s.curTerminal else r.2.keyboard
    ({ s with keyboard := kb, console := r.2.console }, r.2.stores) := by
  have hlook : s.looked c = s.keyboard.select s.curTerminal := modifiers_of_kbdus h _
  rw [keyboardHandler_press (lt_of_kbdus h) (switchTarget_of_kbdus h _), hlook]

end handler

end Os391
