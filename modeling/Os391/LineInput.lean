import Os391.Keyboard
import Os391.Lib.Runs

/-!
# Lines from the keyboard to a program

An ideal line editor keeps the line that is being typed apart from the line that is
ready. `keyboard_handler`, `terminal_write` and `terminal_read` share one buffer and one
index for both. System calls run with interrupts enabled, so the two calls are taken
apart into steps (one character written, one look at `kb_flag`, one byte copied) and a key
can be pressed between any two of them. They deliver the lines of the editor as long as
nothing is typed over the part of a finished line that is still to be copied, and a
`terminal_write` ends with nothing in the line.
-/

namespace Os391

open Bytes Segment Runs Keystroke

/-! ## The ideal line editor -/

/-- The line being typed, and the line that is ready to be read. -/
structure Editor : Type where
  line : List Byte
  ready : Option (List Byte)

namespace Editor

/-- What a key does. -/
def key (caps : Int) (ch : Byte) (d : Editor) : Editor :=
  if Prints ch then { d with line := d.line ++ [shifted caps ch] }
  else if ch = chBackspace then { d with line := d.line.dropLast }
  else if ch = chNewline then ⟨[], some (d.line ++ [chNewline])⟩
  else d

/-- The line is handed over. -/
def take (d : Editor) : Editor := { d with ready := none }

theorem key_prints {ch : Byte} (h : Prints ch) (caps : Int) (d : Editor) :
    d.key caps ch = { d with line := d.line ++ [shifted caps ch] } := if_pos h

theorem key_backspace (caps : Int) (d : Editor) :
    d.key caps chBackspace = { d with line := d.line.dropLast } := by
  rw [key, if_neg (by decide), if_pos rfl]

theorem key_newline (caps : Int) (d : Editor) :
    d.key caps chNewline = ⟨[], some (d.line ++ [chNewline])⟩ := by
  rw [key, if_neg (by decide), if_neg (by decide), if_pos rfl]

end Editor

/-! ## A line in a buffer -/

/-- Different places of the buffer. -/
theorem ofNat_ne_of_lt {i n : ℕ} (hi : i < n) (hn : n < 128) :
    Fin.ofNat 128 i ≠ Fin.ofNat 128 n := fun heq => by
  have hval := congrArg Fin.val heq
  rw [Fin.val_ofNat, Fin.val_ofNat, Nat.mod_eq_of_lt (hi.trans hn), Nat.mod_eq_of_lt hn] at hval
  exact hi.ne hval

/-- The buffer starts with these bytes. -/
def StartsWith (buf : Fin 128 → Byte) (l : List Byte) : Prop :=
  ∀ i (h : i < l.length), buf (Fin.ofNat 128 i) = l[i]

namespace StartsWith

variable {buf : Fin 128 → Byte} {l : List Byte}

theorem nil (buf : Fin 128 → Byte) : StartsWith buf [] := fun _ h => absurd h (Nat.not_lt_zero _)

/-- A byte stored behind the line. -/
theorem snoc (h : StartsWith buf l) (hroom : l.length < 128) (ch : Byte) :
    StartsWith (Function.update buf (Fin.ofNat 128 l.length) ch) (l ++ [ch]) := by
  intro i hi
  rw [List.length_append, List.length_singleton] at hi
  by_cases hlast : i = l.length
  · subst hlast
    rw [Function.update_self, List.getElem_concat_length rfl]
  · have hlt : i < l.length := by omega
    rw [Function.update_of_ne (ofNat_ne_of_lt hlt hroom), h i hlt, List.getElem_append_left hlt]

/-- The line without its last byte. -/
theorem dropLast (h : StartsWith buf l) : StartsWith buf l.dropLast := by
  intro i hi
  have hlt : i < l.length := by
    rw [List.length_dropLast] at hi
    omega
  rw [List.getElem_dropLast, h i hlt]

end StartsWith

/-- From place `m` on the buffer holds the bytes of the line. -/
def HoldsFrom (buf : Fin 128 → Byte) (m : ℕ) (l : List Byte) : Prop :=
  ∀ i (h : i < l.length), m ≤ i → buf (Fin.ofNat 128 i) = l[i]

namespace HoldsFrom

variable {buf : Fin 128 → Byte} {m n : ℕ} {l : List Byte}

theorem of_startsWith (h : StartsWith buf l) : HoldsFrom buf m l := fun i hi _ => h i hi

/-- Less of the line. -/
theorem mono (h : HoldsFrom buf m l) (hmn : m ≤ n) : HoldsFrom buf n l :=
  fun i hi hn => h i hi (hmn.trans hn)

/-- A byte stored outside of this part of the line. -/
theorem update (h : HoldsFrom buf m l) (hl : l.length ≤ 128) (hn : n < 128)
    (hout : n < m ∨ l.length ≤ n) (ch : Byte) :
    HoldsFrom (Function.update buf (Fin.ofNat 128 n) ch) m l := by
  intro i hi hm
  have hne : Fin.ofNat 128 i ≠ Fin.ofNat 128 n := by
    rcases hout with hbefore | hbehind
    · exact (ofNat_ne_of_lt (hbefore.trans_le hm) (hi.trans_le hl)).symm
    · exact ofNat_ne_of_lt (hi.trans_le hbehind) hn
  rw [Function.update_of_ne hne]
  exact h i hi hm

end HoldsFrom

/-! ## The three kinds of keys -/

section keys

variable (L : Link) (fs : FileSystem) (cs : CallSite) {c : Byte} {s : Kernel}

/-- A key with an entry in `kbdus` stays on its terminal. -/
theorem keyboardHandler_curTerminal (h : kbdus c ≠ 0) :
    (keyboardHandler L fs cs c s).1.curTerminal = s.curTerminal := by
  rw [keyboardHandler_kbdus h]

/-- A key that prints stores its byte behind the line. -/
theorem keyboardHandler_prints {n : ℕ} (h : Prints (kbdus c)) (hctrl : s.keyboard.ctrl = 0)
    (hind : s.keyboard.kbInds s.curTerminal = n) (hn : n < 127) :
    (keyboardHandler L fs cs c s).1.keyboard =
      { s.keyboard with
        kbBufs := Function.update s.keyboard.kbBufs s.curTerminal
          (Function.update (s.keyboard.kbBufs s.curTerminal) (Fin.ofNat 128 n)
            (shifted s.keyboard.caps (kbdus c)))
        kbInds := Function.update s.keyboard.kbInds s.curTerminal (n + 1)
        kbBuf := some s.curTerminal
        kbInd := n + 1
        tab := 0 } := by
  have hstart : ∀ k : Keystroke, k.keyboard.ctrl = 0 → k.keyboard.kbInd = n →
      k.press (kbdus c) = (true, k.untab.printKey (kbdus c)) := by
    intro k hk hn'
    have hroom : ¬ 127 ≤ k.untab.keyboard.kbInd := by
      have hsame : k.untab.keyboard.kbInd = n := hn'
      omega
    have hprint : (k.untab.printKey (kbdus c)).keyboard.ctrl = 0 := by
      rw [printKey, append, Keyboard.store_eq]
      exact hk
    rw [press_prints k h, ctrlL_of_ctrl k.untab hk]
    dsimp only
    rw [if_neg hroom, ctrlL_of_ctrl _ hprint]
  rw [keyboardHandler_kbdus h.1.1, hstart _ hctrl hind]
  dsimp only [printKey, append]
  rw [Keyboard.store_eq, Keyboard.store_kbBufs (t := s.curTerminal) rfl]
  · simp only [untab, Keyboard.select, Keyboard.saveBack, hind, if_true, Int.toNat_natCast]
  all_goals
    simp only [untab, Keyboard.select, hind]
    omega

/-- Backspace, without a tab before it, takes a byte off the line. -/
theorem keyboardHandler_backspace {n : ℕ} (h : kbdus c = chBackspace) (htab : s.keyboard.tab = 0)
    (hind : s.keyboard.kbInds s.curTerminal = n) (hn : n ≤ 127) :
    (keyboardHandler L fs cs c s).1.keyboard =
      { s.keyboard with
        kbInds := Function.update s.keyboard.kbInds s.curTerminal (n - 1 : ℕ)
        kbBuf := some s.curTerminal
        kbInd := (n - 1 : ℕ) } := by
  have hpress : ∀ k : Keystroke, k.keyboard.tab = 0 → k.keyboard.kbInd = n →
      (k.press chBackspace).1 = true ∧ (k.press chBackspace).2.keyboard =
        { k.keyboard with kbInd := (n - 1 : ℕ), tab := 0 } := by
    intro k hk hn'
    have hback : (k.backspaceKey chBackspace).keyboard =
        { k.keyboard with kbInd := (n - 1 : ℕ) } := by
      rw [backspaceKey, if_pos rfl, if_neg (not_not.mpr hk)]
      split
      · have hdown : k.keyboard.kbInd - 1 = (n - 1 : ℕ) := by omega
        dsimp only
        rw [hdown]
      · have hstays : ((n - 1 : ℕ) : Int) = k.keyboard.kbInd := by omega
        rw [hstays]
    have hroom : ¬ 127 ≤ (k.backspaceKey chBackspace).untab.keyboard.kbInd := by
      simp only [untab, hback]
      omega
    rw [press_backspace]
    dsimp only
    rw [if_neg hroom]
    exact ⟨rfl, by rw [untab, hback]⟩
  have hkey : kbdus c ≠ 0 := by
    rw [h]
    decide
  obtain ⟨hcopied, hkeyboard⟩ := hpress ⟨s.keyboard.select s.curTerminal, s.console, []⟩ htab hind
  rw [keyboardHandler_kbdus hkey, h]
  dsimp only
  rw [if_pos hcopied, hkeyboard]
  simp only [Keyboard.select, Keyboard.saveBack, ← htab]

/-- Enter, not on the last row, completes the line with a newline. -/
theorem keyboardHandler_newline {n : ℕ} (h : kbdus c = chNewline) (hrow : s.console.screenY ≠ 24)
    (hind : s.keyboard.kbInds s.curTerminal = n) (hn : n ≤ 127) :
    (keyboardHandler L fs cs c s).1.keyboard =
      { s.keyboard with
        kbBufs := Function.update s.keyboard.kbBufs s.curTerminal
          (Function.update (s.keyboard.kbBufs s.curTerminal) (Fin.ofNat 128 n) chNewline)
        kbInds := Function.update s.keyboard.kbInds s.curTerminal 0
        kbBuf := some s.curTerminal
        kbInd := 0
        readInd := n + 1
        kbFlag := 1
        tab := 0 } := by
  have hpress : ∀ k : Keystroke, k.console.screenY ≠ 24 →
      k.press chNewline = (true, (k.untab.printKey chNewline).complete) := fun k hk => by
    rw [press_newline, if_neg hk]
  have hkey : kbdus c ≠ 0 := by
    rw [h]
    decide
  rw [keyboardHandler_kbdus hkey, h, hpress _ hrow]
  dsimp only [printKey, append, complete]
  rw [Keyboard.store_eq, Keyboard.store_kbBufs (t := s.curTerminal) rfl]
  · have hshift : ∀ caps, shifted caps chNewline = chNewline := fun caps =>
      if_neg fun hletter => absurd hletter.2.1 (by decide)
    simp only [untab, Keyboard.select, Keyboard.saveBack, hind, hshift, if_true, Int.toNat_natCast]
  all_goals
    simp only [untab, Keyboard.select, hind]
    omega

end keys

/-! ## System calls step by step -/

/-- What the program is doing: its own work, or a `terminal_write` of these bytes, or a
`terminal_read` that waits for the flag or has copied these bytes. -/
inductive Call : Type where
  | idle : Call
  | writing : List Byte → Call
  | waiting : Int → Call
  | copying : Int → List Byte → Call

namespace Call

/-- How many bytes of the line the call has copied. -/
def copied : Call → ℕ
  | copying _ got => got.length
  | _ => 0

/-- One step of the call: the state, what is left of the call, and the bytes that a
`terminal_read` has copied when it returns. -/
def advance (k : Kernel) : Call → Kernel × Call × Option (List Byte)
  | idle => (k, idle, none)
  | writing [] => (terminalWrite [] k, idle, none)
  | writing (b :: bs) => ({ k with console := Console.putc b k.console }, writing bs, none)
  | waiting n =>
    if k.keyboard.kbFlag = 0 then (k, waiting n, none)
    else ({ k with keyboard := { k.keyboard with kbFlag := 0 } }, copying n [], none)
  | copying n got =>
    if (got.length : Int) < k.keyboard.readInd ∧ ¬ (127 < got.length ∨ n ≤ got.length) then
      (k, copying n (got ++ [k.keyboard.bufferByte got.length]), none)
    else (k, idle, some got)

/-- The step, when no key is pressed before the next one. -/
def alone (m : Kernel × Call) : Kernel × Call := ((m.2.advance m.1).1, (m.2.advance m.1).2.1)

/-- Without a key in between, the steps of a write are `terminal_write`. -/
theorem alone_writing (bs : List Byte) (k : Kernel) :
    alone^[bs.length + 1] (k, writing bs) = (terminalWrite bs k, idle) := by
  induction bs generalizing k with
  | nil => rfl
  | cons b bs ih => exact ih { k with console := Console.putc b k.console }

/-- The copy loop runs to its end. -/
theorem alone_copying {k : Kernel} {n : Int} {m : ℕ}
    (hm : m ≤ (min (min k.keyboard.readInd 128) n).toNat) :
    alone^[m] (k, copying n []) = (k, copying n (segment k.keyboard.bufferByte 0 m)) := by
  induction m with
  | zero => rfl
  | succ m ih =>
    have hstep : (m : Int) < k.keyboard.readInd ∧ ¬ (127 < m ∨ n ≤ m) := by omega
    have hnext : segment k.keyboard.bufferByte 0 m ++ [k.keyboard.bufferByte m] =
        segment k.keyboard.bufferByte 0 (m + 1) := by
      rw [segment_add, Nat.zero_add]
      rfl
    rw [Function.iterate_succ_apply', ih (by omega), alone, advance, length_segment, if_pos hstep,
      hnext]

/-- Without a key in between, the steps of a read that finds the flag set are
`terminal_read`. -/
theorem alone_waiting {k : Kernel} (n : Int) (hflag : k.keyboard.kbFlag ≠ 0) :
    ∃ m got, alone^[m] (k, waiting n) = ((terminalReadLook n k).2, copying n got) ∧
      ((copying n got).advance (terminalReadLook n k).2).2.2 = some got ∧
      (terminalReadLook n k).1 = some ((got.length : Int), storesOf got) := by
  let k' : Kernel := { k with keyboard := { k.keyboard with kbFlag := 0 } }
  let m : ℕ := (min (min k.keyboard.readInd 128) n).toNat
  have hlook : terminalReadLook n k = (some ((m : Int), fill k.keyboard.bufferByte 0 0 m), k') := by
    rw [terminalReadLook, if_neg hflag]
    rfl
  have hfirst : alone (k, waiting n) = (k', copying n []) := by
    rw [alone, advance, if_neg hflag]
  have hdone : ¬ ((m : Int) < k.keyboard.readInd ∧ ¬ (127 < m ∨ n ≤ m)) := by
    rintro ⟨hread, hroom⟩
    rw [not_or] at hroom
    omega
  refine ⟨m + 1, segment k.keyboard.bufferByte 0 m, ?_, ?_, ?_⟩
  · rw [Function.iterate_succ_apply, hfirst, alone_copying (k := k') le_rfl, hlook]
    rfl
  · rw [hlook, advance, length_segment, if_neg hdone]
  · have hstores : storesOf (segment k.keyboard.bufferByte 0 m) =
        fill k.keyboard.bufferByte 0 0 m := by
      rw [storesOf, length_segment]
      refine fill_congr fun j hj => ?_
      have hlen : 0 + j < (segment k.keyboard.bufferByte 0 m).length := by
        rw [length_segment]
        omega
      rw [List.getD_eq_getElem?_getD, List.getElem?_eq_getElem hlen, getElem_segment, Nat.zero_add]
      rfl
    rw [hlook, hstores, length_segment]

end Call

/-! ## The globals hold the state of the editor -/

/-- The globals of the current terminal hold the state of the editor. -/
structure Mirrors (k : Kernel) (d : Editor) : Prop where
  tab : k.keyboard.tab = 0
  ctrl : k.keyboard.ctrl = 0
  index : k.keyboard.kbInds k.curTerminal = d.line.length
  room : d.line.length ≤ 127
  bytes : StartsWith (k.keyboard.kbBufs k.curTerminal) d.line
  ready : ∀ l, d.ready = some l → k.keyboard.readInd = l.length ∧ l.length ≤ 128

namespace Mirrors

variable {L : Link} {fs : FileSystem} {cs : CallSite} {c : Byte} {k : Kernel} {d : Editor}

/-- The screen, the pointer, the index it goes with and the flag are not looked at. -/
theorem aside (h : Mirrors k d) (console : Console) (buf : Option (Fin 3)) (i flag : Int) :
    Mirrors { k with
      console := console
      keyboard := { k.keyboard with kbBuf := buf, kbInd := i, kbFlag := flag } } d :=
  ⟨h.tab, h.ctrl, h.index, h.room, h.bytes, h.ready⟩

/-- A key that prints. -/
theorem prints (h : Mirrors k d) (hkey : Prints (kbdus c)) (hroom : d.line.length < 127) :
    Mirrors (keyboardHandler L fs cs c k).1 (d.key k.keyboard.caps (kbdus c)) := by
  have hkb := keyboardHandler_prints L fs cs hkey h.ctrl h.index hroom
  have hcur := keyboardHandler_curTerminal L fs cs (s := k) hkey.1.1
  rw [Editor.key_prints hkey]
  refine ⟨?_, ?_, ?_, ?_, ?_, fun l hl => ?_⟩
  · rw [hkb]
  · rw [hkb]
    exact h.ctrl
  · rw [hkb, hcur, List.length_append, List.length_singleton]
    exact Function.update_self _ _ _
  · rw [List.length_append, List.length_singleton]
    exact hroom
  · rw [hkb, hcur]
    dsimp only
    rw [Function.update_self]
    exact h.bytes.snoc (hroom.trans (by decide)) _
  · rw [hkb]
    exact h.ready l hl

/-- Backspace. -/
theorem backspace (h : Mirrors k d) (hkey : kbdus c = chBackspace) :
    Mirrors (keyboardHandler L fs cs c k).1 (d.key k.keyboard.caps (kbdus c)) := by
  have hkb := keyboardHandler_backspace L fs cs hkey h.tab h.index h.room
  have hcur := keyboardHandler_curTerminal L fs cs (c := c) (s := k)
    (by rw [hkey]; decide)
  rw [hkey, Editor.key_backspace]
  refine ⟨?_, ?_, ?_, ?_, ?_, fun l hl => ?_⟩
  · rw [hkb]
    exact h.tab
  · rw [hkb]
    exact h.ctrl
  · rw [hkb, hcur, List.length_dropLast]
    exact Function.update_self _ _ _
  · rw [List.length_dropLast]
    exact (Nat.sub_le _ _).trans h.room
  · rw [hkb, hcur]
    exact h.bytes.dropLast
  · rw [hkb]
    exact h.ready l hl

/-- Enter. -/
theorem newline (h : Mirrors k d) (hkey : kbdus c = chNewline) (hrow : k.console.screenY ≠ 24) :
    Mirrors (keyboardHandler L fs cs c k).1 (d.key k.keyboard.caps (kbdus c)) := by
  have hkb := keyboardHandler_newline L fs cs hkey hrow h.index h.room
  have hcur := keyboardHandler_curTerminal L fs cs (c := c) (s := k)
    (by rw [hkey]; decide)
  rw [hkey, Editor.key_newline]
  refine ⟨?_, ?_, ?_, Nat.zero_le _, StartsWith.nil _, fun l hl => ?_⟩
  · rw [hkb]
  · rw [hkb]
    exact h.ctrl
  · rw [hkb, hcur]
    exact Function.update_self _ _ _
  · obtain rfl := Option.some.inj hl
    rw [hkb, List.length_append, List.length_singleton]
    exact ⟨rfl, Nat.succ_le_succ h.room⟩

/-- The end of a write, while nothing is in the line. -/
theorem reset (h : Mirrors k d) (hline : d.line = []) : Mirrors (terminalWrite [] k) d := by
  refine ⟨h.tab, h.ctrl, ?_, h.room, h.bytes, h.ready⟩
  rw [hline]
  exact Function.update_self _ _ _

/-- The line that is ready is handed over. -/
theorem take (h : Mirrors k d) : Mirrors k d.take :=
  ⟨h.tab, h.ctrl, h.index, h.room, h.bytes, fun _ hl => (by cases hl)⟩

end Mirrors

/-! ## The call fits the globals -/

/-- What the flag and the pointer say, in each state of the call. -/
def Call.Fits (k : Kernel) (d : Editor) : Call → Prop
  | .waiting n => 128 ≤ n ∧ k.keyboard.kbBuf = some k.curTerminal ∧
      (k.keyboard.kbFlag = 0 ↔ d.ready = none)
  | .copying n got => 128 ≤ n ∧ k.keyboard.kbBuf = some k.curTerminal ∧ k.keyboard.kbFlag = 0 ∧
      ∃ l, d.ready = some l ∧ got <+: l
  | _ => k.keyboard.kbFlag = 0 ↔ d.ready = none

/-! ## Runs -/

/-- The kernel, the call the foreground program is in, and the editor. -/
structure LineSession : Type where
  kernel : Kernel
  call : Call
  editor : Editor

/-- What can happen: a key, a call of the program, a step of the call. -/
inductive LineEvent : Type where
  | key : CallSite → Byte → LineEvent
  | write : List Byte → LineEvent
  | read : Int → LineEvent
  | step : LineEvent

namespace LineSession

section

variable (L : Link) (fs : FileSystem)

/-- The event. -/
def run (s : LineSession) : LineEvent → LineSession
  | .key cs c =>
    { s with
      kernel := (keyboardHandler L fs cs c s.kernel).1
      editor := s.editor.key s.kernel.keyboard.caps (kbdus c) }
  | .write bs => { s with call := .writing bs }
  | .read n =>
    { s with
      kernel := { s.kernel with keyboard := s.kernel.keyboard.select s.kernel.curTerminal }
      call := .waiting n }
  | .step =>
    let r := s.call.advance s.kernel
    ⟨r.1, r.2.1, if r.2.2 = none then s.editor else s.editor.take⟩

end

/-- The runs the question is about. Keys print, erase or end the line; a line has at most
127 bytes; Enter is pressed above the last row, and only after the last line has been
read. The program is in one call at a time, and reads at least 128 bytes. -/
def Allowed (s : LineSession) : LineEvent → Prop
  | .key _ c =>
    (Prints (kbdus c) ∧ s.editor.line.length < 127) ∨ kbdus c = chBackspace ∨
      (kbdus c = chNewline ∧ s.kernel.console.screenY ≠ 24 ∧ s.editor.ready = none)
  | .write _ => s.call = .idle
  | .read n => s.call = .idle ∧ 128 ≤ n
  | .step => True

/-- Nothing is typed over the part of the ready line that is still to be copied, and a write
ends with nothing in the line. -/
def Undisturbed (s : LineSession) : LineEvent → Prop
  | .key _ c => Prints (kbdus c) → ∀ l, s.editor.ready = some l →
    s.editor.line.length < s.call.copied ∨ l.length ≤ s.editor.line.length
  | .step => s.call = .writing [] → s.editor.line = []
  | _ => True

/-- A read that returns has copied the line that is ready, and a read goes on waiting only
while none is. -/
def Delivers (s : LineSession) : LineEvent → Prop
  | .step =>
    (∀ got, (s.call.advance s.kernel).2.2 = some got → s.editor.ready = some got) ∧
      ∀ n, s.call = .waiting n →
        ((s.call.advance s.kernel).2.1 = .waiting n ↔ s.editor.ready = none)
  | _ => True

/-- The globals hold the editor's state, the call fits them, and what is to be copied of the
ready line is in the buffer. -/
structure Consistent (s : LineSession) : Prop where
  mirrors : Mirrors s.kernel s.editor
  call : s.call.Fits s.kernel s.editor
  left : ∀ l, s.editor.ready = some l →
    HoldsFrom (s.kernel.keyboard.kbBufs s.kernel.curTerminal) s.call.copied l

section invariant

variable {L : Link} {fs : FileSystem} {s : LineSession} {e : LineEvent}

/-- A key that leaves the flag and the ready line alone. -/
theorem Call.Fits.same {k k' : Kernel} {d d' : Editor} {call : Call} (h : call.Fits k d)
    (hbuf : k'.keyboard.kbBuf = some k'.curTerminal)
    (hflag : k'.keyboard.kbFlag = k.keyboard.kbFlag) (hready : d'.ready = d.ready) :
    call.Fits k' d' := by
  have hiff : (k'.keyboard.kbFlag = 0 ↔ d'.ready = none) ↔
      (k.keyboard.kbFlag = 0 ↔ d.ready = none) := by
    rw [hflag, hready]
  cases call with
  | waiting n =>
    obtain ⟨hn, -, hold⟩ := h
    exact ⟨hn, hbuf, hiff.mpr hold⟩
  | copying n got =>
    obtain ⟨hn, -, hzero, hline⟩ := h
    exact ⟨hn, hbuf, hflag.trans hzero, by rw [hready]; exact hline⟩
  | idle => exact hiff.mpr h
  | writing bs => exact hiff.mpr h

/-- A key that completes a line, while none is ready. -/
theorem Call.Fits.completes {k k' : Kernel} {d d' : Editor} {call : Call} (h : call.Fits k d)
    (hnone : d.ready = none) (hbuf : k'.keyboard.kbBuf = some k'.curTerminal)
    (hflag : k'.keyboard.kbFlag ≠ 0) (hready : d'.ready ≠ none) : call.Fits k' d' := by
  have hiff : k'.keyboard.kbFlag = 0 ↔ d'.ready = none :=
    ⟨fun hzero => absurd hzero hflag, fun hnone => absurd hnone hready⟩
  cases call with
  | waiting n =>
    obtain ⟨hn, -⟩ := h
    exact ⟨hn, hbuf, hiff⟩
  | copying n got =>
    obtain ⟨-, -, -, l, hl, -⟩ := h
    rw [hnone] at hl
    cases hl
  | idle => exact hiff
  | writing bs => exact hiff

/-- One key. -/
theorem Consistent.key (h : Consistent s) {cs : CallSite} {c : Byte}
    (hallowed : Allowed s (.key cs c)) (hcond : Undisturbed s (.key cs c)) :
    Consistent (s.run L fs (.key cs c)) := by
  obtain ⟨hmirrors, hcall, hleft⟩ := h
  rcases hallowed with ⟨hkey, hroom⟩ | hkey | ⟨hkey, hrow, hnone⟩
  · have hkb := keyboardHandler_prints L fs cs hkey hmirrors.ctrl
      hmirrors.index hroom
    have hcur := keyboardHandler_curTerminal L fs cs (s := s.kernel)
      hkey.1.1
    refine ⟨hmirrors.prints hkey hroom, Call.Fits.same hcall ?_ ?_ ?_, fun l hl => ?_⟩
    · simp only [run, hkb, hcur]
    · simp only [run, hkb]
    · simp only [run, Editor.key_prints hkey]
    · rw [run, Editor.key_prints hkey] at hl
      simp only [run, hkb, hcur, Function.update_self]
      exact (hleft l hl).update (hmirrors.ready l hl).2 (by omega) (hcond hkey l hl) _
  · have hkb := keyboardHandler_backspace L fs cs hkey hmirrors.tab
      hmirrors.index hmirrors.room
    have hcur := keyboardHandler_curTerminal L fs cs (c := c)
      (s := s.kernel) (by rw [hkey]; decide)
    refine ⟨hmirrors.backspace hkey, Call.Fits.same hcall ?_ ?_ ?_, fun l hl => ?_⟩
    · simp only [run, hkb, hcur]
    · simp only [run, hkb]
    · simp only [run, hkey, Editor.key_backspace]
    · rw [run, hkey, Editor.key_backspace] at hl
      simp only [run, hkb, hcur]
      exact hleft l hl
  · have hkb := keyboardHandler_newline L fs cs hkey hrow
      hmirrors.index hmirrors.room
    have hcur := keyboardHandler_curTerminal L fs cs (c := c)
      (s := s.kernel) (by rw [hkey]; decide)
    refine ⟨hmirrors.newline hkey hrow, Call.Fits.completes hcall hnone ?_ ?_ ?_, fun l hl => ?_⟩
    · simp only [run, hkb, hcur]
    · simp only [run, hkb, ne_eq, one_ne_zero, not_false_eq_true]
    · simp only [run, hkey, Editor.key_newline, ne_eq, reduceCtorEq, not_false_eq_true]
    · rw [run, hkey, Editor.key_newline] at hl
      obtain rfl := Option.some.inj hl
      simp only [run, hkb, hcur, Function.update_self]
      exact .of_startsWith (hmirrors.bytes.snoc (Nat.lt_succ_of_le hmirrors.room) _)

/-- One step of the copy loop: the next byte of the line, or its end. -/
theorem copying_step {k : Kernel} {d : Editor} {n : Int} {got l : List Byte} (hk : Mirrors k d)
    (hready : d.ready = some l) (hleft : HoldsFrom (k.keyboard.kbBufs k.curTerminal) got.length l)
    (hn : 128 ≤ n) (hbuf : k.keyboard.kbBuf = some k.curTerminal) (hstarts : got <+: l) :
    (Call.copying n got).advance k =
          (k, .copying n (got ++ [k.keyboard.bufferByte got.length]), none) ∧
        got ++ [k.keyboard.bufferByte got.length] <+: l ∨
      (Call.copying n got).advance k = (k, .idle, some l) := by
  obtain ⟨hlen, hle⟩ := hk.ready l hready
  rw [Call.advance]
  by_cases hmore : got.length < l.length
  · have hcond : (got.length : Int) < k.keyboard.readInd ∧
        ¬ (127 < got.length ∨ n ≤ got.length) := by
      omega
    have hbyte : k.keyboard.bufferByte got.length = l[got.length] := by
      rw [Keyboard.bufferByte, hbuf]
      exact hleft got.length hmore le_rfl
    rw [if_pos hcond]
    refine Or.inl ⟨rfl, ?_⟩
    have hnext : got ++ [l[got.length]] = l.take (got.length + 1) := by
      rw [List.take_succ_eq_append_getElem hmore, ← List.prefix_iff_eq_take.mp hstarts]
    rw [hbyte, hnext]
    exact List.take_prefix _ _
  · have hcond : ¬ ((got.length : Int) < k.keyboard.readInd ∧
        ¬ (127 < got.length ∨ n ≤ got.length)) := by
      omega
    rw [if_neg hcond, hstarts.eq_of_length_le (Nat.not_lt.mp hmore)]
    exact Or.inr rfl

/-- One step of the call. -/
theorem Consistent.step (h : Consistent s) (hcond : Undisturbed s .step) :
    Delivers s .step ∧ Consistent (s.run L fs .step) := by
  obtain ⟨k, call, d⟩ := s
  obtain ⟨hmirrors, hcall, hleft⟩ := h
  dsimp only at hmirrors hcall hleft hcond
  cases call with
  | idle =>
    exact ⟨⟨fun _ hgot => (by cases hgot), fun _ hn => (by cases hn)⟩, hmirrors, hcall, hleft⟩
  | writing bs =>
    refine ⟨⟨fun got hgot => ?_, fun _ hn => (by cases hn)⟩, ?_⟩
    · rcases bs with _ | ⟨b, bs⟩ <;> cases hgot
    · rcases bs with _ | ⟨b, bs⟩
      · exact ⟨hmirrors.reset (hcond rfl), hcall, hleft⟩
      · exact ⟨hmirrors.aside _ _ _ _, hcall, hleft⟩
  | waiting n =>
    obtain ⟨hn, hbuf, hiff⟩ := hcall
    rw [Delivers, run]
    by_cases hflag : k.keyboard.kbFlag = 0
    · have hadvance : (Call.waiting n).advance k = (k, .waiting n, none) := if_pos hflag
      simp only [hadvance]
      exact ⟨⟨fun _ hgot => (by cases hgot),
        fun _ hcall => ⟨fun _ => hiff.mp hflag, fun _ => hcall⟩⟩, hmirrors, ⟨hn, hbuf, hiff⟩, hleft⟩
    · obtain ⟨l, hready⟩ := Option.ne_none_iff_exists'.mp fun hnone => hflag (hiff.mpr hnone)
      have hadvance : (Call.waiting n).advance k =
          ({ k with keyboard := { k.keyboard with kbFlag := 0 } }, .copying n [], none) :=
        if_neg hflag
      simp only [hadvance]
      refine ⟨⟨fun _ hgot => (by cases hgot),
        fun m _ => ⟨fun hwait => (by cases hwait), fun hnone => ?_⟩⟩,
        hmirrors.aside _ _ _ _, ⟨hn, hbuf, rfl, l, hready, List.nil_prefix⟩, hleft⟩
      exact absurd (hready.symm.trans hnone) (Option.some_ne_none l)
  | copying n got =>
    obtain ⟨hn, hbuf, hflag, l, hready, hstarts⟩ := hcall
    rw [Delivers, run]
    rcases copying_step hmirrors hready (hleft l hready) hn hbuf hstarts with
      ⟨hadvance, hnext⟩ | hadvance
    · simp only [hadvance]
      refine ⟨⟨fun _ hgot => (by cases hgot), fun _ hn => (by cases hn)⟩, hmirrors,
        ⟨hn, hbuf, hflag, l, hready, hnext⟩, fun l' hl' => (hleft l' hl').mono ?_⟩
      rw [Call.copied, Call.copied, List.length_append]
      exact Nat.le_add_right _ _
    · simp only [hadvance]
      refine ⟨⟨fun got' hgot' => ?_, fun _ hn => (by cases hn)⟩, ?_⟩
      · rw [hready]
        exact hgot'
      · rw [if_neg (Option.some_ne_none l)]
        exact ⟨hmirrors.take, ⟨fun _ => rfl, fun _ => hflag⟩, fun _ hl => (by cases hl)⟩

/-- Every event of an allowed and undisturbed run. -/
theorem Consistent.event (L : Link) (fs : FileSystem) (h : Consistent s)
    (hallowed : Allowed s e) (hcond : Undisturbed s e) :
    Delivers s e ∧ Consistent (s.run L fs e) := by
  cases e with
  | key cs c => exact ⟨trivial, h.key hallowed hcond⟩
  | write bs =>
    obtain ⟨k, call, d⟩ := s
    obtain rfl := hallowed
    exact ⟨trivial, h.mirrors, h.call, h.left⟩
  | read n =>
    obtain ⟨k, call, d⟩ := s
    obtain ⟨rfl, hn⟩ := hallowed
    obtain ⟨hmirrors, hcall, hleft⟩ := h
    exact ⟨trivial, hmirrors.aside _ _ _ _, ⟨hn, rfl, hcall⟩, hleft⟩
  | step => exact h.step hcond

end invariant

/-- Before the first key of a line: nothing typed, nothing ready, no call. -/
def start (k : Kernel) : LineSession := ⟨k, .idle, ⟨[], none⟩⟩

end LineSession

/-- No line is ready, the current line is empty, and neither Tab nor Ctrl is down. -/
structure Fresh (k : Kernel) : Prop where
  tab : k.keyboard.tab = 0
  ctrl : k.keyboard.ctrl = 0
  index : k.keyboard.kbInds k.curTerminal = 0
  flag : k.keyboard.kbFlag = 0

/-- On one terminal, in every interleaving of keys with the steps of `terminal_write` and
`terminal_read`: if nothing is typed over the part of a completed line that is still to be
copied and every write ends with nothing in the line, each `terminal_read` that returns has
copied exactly the line that Enter completed, and a `terminal_read` waits only while there is
none. -/
theorem lines_run {L : Link} {fs : FileSystem} {k : Kernel} {es : List LineEvent} (hfresh : Fresh k)
    (hallowed : Along (LineSession.run L fs) LineSession.Allowed (LineSession.start k) es)
    (hcond : Along (LineSession.run L fs) LineSession.Undisturbed (LineSession.start k) es) :
    Along (LineSession.run L fs) LineSession.Delivers (LineSession.start k) es := by
  have hstart : LineSession.Consistent (LineSession.start k) :=
    ⟨⟨hfresh.tab, hfresh.ctrl, hfresh.index, Nat.zero_le _, StartsWith.nil _,
      fun l hl => (by cases hl)⟩, ⟨fun _ => rfl, fun _ => hfresh.flag⟩, fun l hl => (by cases hl)⟩
  exact Along.imp (I := LineSession.Consistent) (fun _ _ h he => (h.event L fs he.1 he.2).1)
    (fun _ _ h he => (h.event L fs he.1 he.2).2) hstart (hallowed.and hcond)

/-- A kernel at boot with an empty screen. -/
def Sample.typing : Kernel := { Sample.atBoot with console := ⟨fun _ => 0, 0, 0⟩ }

/-- An `a`, Enter, and a read that copies both bytes. When the first one is copied, the next
line is begun. -/
theorem lines_run_sample : Along (LineSession.run Sample.link Sample.files) LineSession.Delivers
    (LineSession.start Sample.typing)
    [.key Sample.site 30, .key Sample.site 28, .read 128, .step, .step, .key Sample.site 30, .step,
      .step] :=
  lines_run ⟨rfl, rfl, rfl, rfl⟩
    ⟨Or.inl ⟨by decide, by decide⟩, Or.inr (Or.inr ⟨by decide, by decide, rfl⟩), ⟨rfl, by decide⟩,
      trivial, trivial, Or.inl ⟨by decide, by decide⟩, trivial, trivial, trivial⟩
    ⟨fun _ _ hl => (by cases hl), fun hprints => absurd hprints (by decide), trivial,
      fun h => (by cases h), fun h => (by cases h), fun _ _ _ => Or.inl (by decide),
      fun h => (by cases h), fun h => (by cases h), trivial⟩

/-- An `a`, output of the program, Enter: the read gets a newline, and the `a` is lost. -/
theorem output_loses_byte :
    let es : List LineEvent := [.key Sample.site 30, .write [0x24], .step, .step, .key Sample.site 28,
      .read 128, .step, .step, .step]
    Along (LineSession.run Sample.link Sample.files) LineSession.Allowed
        (LineSession.start Sample.typing) es ∧
      ¬ Along (LineSession.run Sample.link Sample.files) LineSession.Delivers
        (LineSession.start Sample.typing) es := by
  refine ⟨⟨Or.inl ⟨by decide, by decide⟩, rfl, trivial, trivial,
    Or.inr (Or.inr ⟨by decide, by decide, rfl⟩), ⟨rfl, by decide⟩, trivial, trivial, trivial, trivial⟩,
    ?_⟩
  rintro ⟨-, -, -, -, -, -, -, -, ⟨hlast, -⟩, -⟩
  have hline := hlast [chNewline] (by decide)
  revert hline
  decide

end Os391
