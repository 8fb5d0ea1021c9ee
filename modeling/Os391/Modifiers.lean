import Mathlib.Algebra.Ring.Parity
import Mathlib.Tactic.Tauto
import Os391.Keyboard
import Os391.Lib.Runs

/-!
# The modifier keys

`keyboard_handler` does not record which modifier keys are down: it flips `ctrl` with each
Ctrl code and `caps` with each Shift code and each Caps Lock press. Against the codes seen so
far this comes out right as long as each Ctrl and Shift code changes whether a key of its kind
is down, which a repeated press does not, and as long as no Caps Lock press meets a full
buffer, which the handler leaves before it looks for Caps Lock.
-/

namespace Os391

open Bytes Runs Keystroke

/-! ## What the codes seen so far say -/

/-- Of the two codes of a key the press was seen last. The latest code comes first. -/
def Down (press release : Byte) (seen : List Byte) : Prop :=
  (seen.find? fun c => decide (c = press ∨ c = release)) = some press

/-- A Ctrl key is down; both have the same codes. -/
def CtrlDown (seen : List Byte) : Prop := Down ctrlP ctrlR seen

/-- A Shift key is down. -/
def ShiftDown (seen : List Byte) : Prop := Down lShiftP lShiftR seen ∨ Down rShiftP rShiftR seen

/-- The number of Caps Lock presses seen. -/
def capsLocks (seen : List Byte) : ℕ := seen.countP fun c => decide (kbdus c = capsLock)

def IsCtrl (c : Byte) : Prop := c = ctrlP ∨ c = ctrlR

def IsShift (c : Byte) : Prop := (c = lShiftP ∨ c = rShiftP) ∨ c = lShiftR ∨ c = rShiftR

instance (press release : Byte) (seen : List Byte) : Decidable (Down press release seen) :=
  inferInstanceAs (Decidable (_ = _))

instance (seen : List Byte) : Decidable (CtrlDown seen) :=
  inferInstanceAs (Decidable (Down ctrlP ctrlR seen))

instance (seen : List Byte) : Decidable (ShiftDown seen) :=
  inferInstanceAs (Decidable (Down lShiftP lShiftR seen ∨ Down rShiftP rShiftR seen))

instance (c : Byte) : Decidable (IsCtrl c) := inferInstanceAs (Decidable (c = ctrlP ∨ c = ctrlR))

instance (c : Byte) : Decidable (IsShift c) :=
  inferInstanceAs (Decidable ((c = lShiftP ∨ c = rShiftP) ∨ c = lShiftR ∨ c = rShiftR))

/-- The Shift keys have no character. -/
theorem IsShift.ne_capsLock {c : Byte} (h : IsShift c) : kbdus c ≠ capsLock := by
  rcases h with (rfl | rfl) | rfl | rfl <;> decide

section seen

variable {press release c : Byte} {seen : List Byte}

/-- A code of another key. -/
theorem down_cons_of_ne (hp : c ≠ press) (hr : c ≠ release) :
    Down press release (c :: seen) ↔ Down press release seen := by
  rw [Down, List.find?_cons_of_neg (by simp [hp, hr]), Down]

theorem ctrlDown_cons (h : ¬ IsCtrl c) : CtrlDown (c :: seen) ↔ CtrlDown seen :=
  down_cons_of_ne (fun hp => h (Or.inl hp)) fun hr => h (Or.inr hr)

theorem shiftDown_cons (h : ¬ IsShift c) : ShiftDown (c :: seen) ↔ ShiftDown seen := by
  obtain ⟨⟨hlp, hrp⟩, hlr, hrr⟩ : ((c ≠ lShiftP ∧ c ≠ rShiftP) ∧ c ≠ lShiftR ∧ c ≠ rShiftR) := by
    simpa only [IsShift, not_or] using h
  rw [ShiftDown, down_cons_of_ne hlp hlr, down_cons_of_ne hrp hrr, ShiftDown]

theorem capsLocks_cons_of_ne (h : kbdus c ≠ capsLock) : capsLocks (c :: seen) = capsLocks seen :=
  List.countP_cons_of_neg (by simpa using h)

theorem capsLocks_cons (h : kbdus c = capsLock) : capsLocks (c :: seen) = capsLocks seen + 1 :=
  List.countP_cons_of_pos (by simpa using h)

end seen

/-! ## What the handler makes of the flags -/

/-- 0 and 1 are swapped. -/
theorem flip_eq_one_iff {x : Int} (h : x = 0 ∨ x = 1) : flip x = 1 ↔ ¬ x = 1 := by
  rcases h with rfl | rfl <;> decide

/-- With the same first part, two exclusive disjunctions differ if the second parts do. -/
theorem not_xor_iff_xor {p q r : Prop} : (¬ Xor p q ↔ Xor p r) ↔ (r ↔ ¬ q) := by
  rw [xor_iff_not_iff, xor_iff_not_iff]
  tauto

theorem flip_bit {x : Int} (h : x = 0 ∨ x = 1) : flip x = 0 ∨ flip x = 1 := by
  rcases h with rfl | rfl <;> decide

namespace Keyboard

variable (kb : Keyboard) (c : Byte)

theorem modifiers_ctrl : (kb.modifiers c).ctrl = if IsCtrl c then flip kb.ctrl else kb.ctrl := by
  by_cases h : IsCtrl c
  · rw [if_pos h]
    rcases h with rfl | rfl <;> rfl
  · obtain ⟨hp, hr⟩ := not_or.mp h
    rw [if_neg h]
    simp only [modifiers, if_neg hp, if_neg hr]
    repeat' split
    all_goals rfl

theorem modifiers_caps : (kb.modifiers c).caps = if IsShift c then flip kb.caps else kb.caps := by
  by_cases h : IsShift c
  · rw [if_pos h]
    rcases h with (rfl | rfl) | rfl | rfl <;> rfl
  · obtain ⟨hp, hr⟩ := not_or.mp h
    rw [if_neg h]
    simp only [modifiers, if_neg hp, if_neg hr]
    repeat' split
    all_goals rfl

end Keyboard

section handler

variable (L : Link) (fs : FileSystem) (cs : CallSite) (c : Byte) (s : Kernel)

/-- Behind the modifier keys the handler leaves `ctrl` alone, and `caps` too unless Caps Lock is
pressed while there is room in the line. -/
theorem keyboardHandler_flags :
    (keyboardHandler L fs cs c s).1.keyboard.ctrl = (s.looked c).ctrl ∧
      (keyboardHandler L fs cs c s).1.keyboard.caps =
        if kbdus c = capsLock ∧ s.keyboard.kbInds s.curTerminal < 127 then flip (s.looked c).caps
        else (s.looked c).caps := by
  rcases Nat.lt_or_ge c.toNat 128 with hc | hc
  · rcases htarget : switchTarget c (s.looked c) with _ | t
    · have heffect := press_effect (k := ⟨s.looked c, s.console, []⟩) (s.looked_kbBuf c) (kbdus c)
      have hind := s.looked_kbInd c
      have hcaps := heffect.caps
      dsimp only at hcaps
      rw [hind] at hcaps
      rw [keyboardHandler_press hc htarget]
      dsimp only
      split
      · exact ⟨heffect.ctrl, hcaps⟩
      · exact ⟨heffect.ctrl, hcaps⟩
    · -- a function key
      have hnone : kbdus c ≠ capsLock := fun hlock => by
        have hstay := switchTarget_of_kbdus (c := c) (by rw [hlock]; decide) (s.looked c)
        rw [hstay] at htarget
        cases htarget
      rw [keyboardHandler_switch hc htarget, if_neg fun hcond => hnone hcond.1]
      dsimp only
      rw [switchTerminal_keyboard]
      exact ⟨rfl, rfl⟩
  · have hnone : kbdus c ≠ capsLock := fun hlock =>
      absurd (lt_of_kbdus (c := c) (by rw [hlock]; decide)) (not_lt.mpr hc)
    rw [keyboardHandler_released hc, if_neg fun hcond => hnone hcond.1]
    exact ⟨rfl, rfl⟩

/-- A Ctrl code flips `ctrl`. -/
theorem keyboardHandler_ctrl : (keyboardHandler L fs cs c s).1.keyboard.ctrl =
    if IsCtrl c then flip s.keyboard.ctrl else s.keyboard.ctrl :=
  (keyboardHandler_flags L fs cs c s).1.trans (Keyboard.modifiers_ctrl _ c)

/-- A Shift code flips `caps`, and so does Caps Lock if there is room in the line. -/
theorem keyboardHandler_caps : (keyboardHandler L fs cs c s).1.keyboard.caps =
    if IsShift c ∨ kbdus c = capsLock ∧ s.keyboard.kbInds s.curTerminal < 127 then
      flip s.keyboard.caps
    else s.keyboard.caps := by
  have hcaps : (s.looked c).caps = if IsShift c then flip s.keyboard.caps else s.keyboard.caps :=
    Keyboard.modifiers_caps _ c
  rw [(keyboardHandler_flags L fs cs c s).2, hcaps]
  by_cases hshift : IsShift c
  · rw [if_pos hshift, if_pos (Or.inl hshift), if_neg fun hcond => hshift.ne_capsLock hcond.1]
  · simp only [hshift, false_or, if_false]

end handler

/-! ## The flags along a run -/

/-- The flags are what the codes seen so far say. -/
structure FlagsAgree (m : Kernel × List Byte) : Prop where
  ctrl : m.1.keyboard.ctrl = 1 ↔ CtrlDown m.2
  caps : m.1.keyboard.caps = 1 ↔ Xor (Odd (capsLocks m.2)) (ShiftDown m.2)

/-- A code is delivered to the handler. -/
def seeKey (L : Link) (fs : FileSystem) (m : Kernel × List Byte) (x : CallSite × Byte) :
    Kernel × List Byte :=
  ((keyboardHandler L fs x.1 x.2 m.1).1, x.2 :: m.2)

/-- A Ctrl code changes whether Ctrl is down, a Shift code changes whether some Shift key is down,
and Caps Lock is pressed while there is room in the current line. -/
structure Regular (m : Kernel × List Byte) (x : CallSite × Byte) : Prop where
  ctrl : IsCtrl x.2 → (CtrlDown (x.2 :: m.2) ↔ ¬ CtrlDown m.2)
  shift : IsShift x.2 → (ShiftDown (x.2 :: m.2) ↔ ¬ ShiftDown m.2)
  lock : kbdus x.2 = capsLock → m.1.keyboard.kbInds m.1.curTerminal < 127

/-- The flags agree, and are 0 or 1. -/
structure FlagsInv (m : Kernel × List Byte) : Prop where
  agree : FlagsAgree m
  ctrl : m.1.keyboard.ctrl = 0 ∨ m.1.keyboard.ctrl = 1
  caps : m.1.keyboard.caps = 0 ∨ m.1.keyboard.caps = 1

namespace FlagsInv

variable {L : Link} {fs : FileSystem} {m : Kernel × List Byte} {x : CallSite × Byte}

theorem ctrl_iff (h : FlagsInv m) :
    ((seeKey L fs m x).1.keyboard.ctrl = 1 ↔ CtrlDown (x.2 :: m.2)) ↔
      (IsCtrl x.2 → (CtrlDown (x.2 :: m.2) ↔ ¬ CtrlDown m.2)) := by
  rw [seeKey, keyboardHandler_ctrl]
  by_cases hctrl : IsCtrl x.2
  · rw [if_pos hctrl, flip_eq_one_iff h.ctrl, h.agree.ctrl, forall_prop_of_true hctrl]
    exact Iff.comm
  · rw [if_neg hctrl, h.agree.ctrl, ctrlDown_cons hctrl]
    exact iff_of_true Iff.rfl fun hnot => absurd hnot hctrl

theorem caps_iff (h : FlagsInv m) :
    ((seeKey L fs m x).1.keyboard.caps = 1 ↔
        Xor (Odd (capsLocks (x.2 :: m.2))) (ShiftDown (x.2 :: m.2))) ↔
      (IsShift x.2 → (ShiftDown (x.2 :: m.2) ↔ ¬ ShiftDown m.2)) ∧
        (kbdus x.2 = capsLock → m.1.keyboard.kbInds m.1.curTerminal < 127) := by
  rw [seeKey, keyboardHandler_caps]
  by_cases hshift : IsShift x.2
  · -- `caps` is flipped, and the number of Caps Lock presses stays
    have hnone := hshift.ne_capsLock
    rw [if_pos (Or.inl hshift), flip_eq_one_iff h.caps, h.agree.caps, capsLocks_cons_of_ne hnone,
      not_xor_iff_xor, forall_prop_of_true hshift]
    exact (and_iff_left fun hlock => absurd hlock hnone).symm
  · rw [shiftDown_cons hshift]
    have hvacuous : IsShift x.2 → (ShiftDown m.2 ↔ ¬ ShiftDown m.2) := fun hnot =>
      absurd hnot hshift
    by_cases hlock : kbdus x.2 = capsLock
    · have hxor : Xor (¬ Odd (capsLocks m.2)) (ShiftDown m.2) ↔
          ¬ Xor (Odd (capsLocks m.2)) (ShiftDown m.2) := xor_not_left.trans (not_xor _ _).symm
      rw [capsLocks_cons hlock, Nat.odd_add_one, hxor]
      rcases lt_or_ge (m.1.keyboard.kbInds m.1.curTerminal) 127 with hroom | hfull
      · rw [if_pos (Or.inr ⟨hlock, hroom⟩), flip_eq_one_iff h.caps, h.agree.caps]
        exact iff_of_true Iff.rfl ⟨hvacuous, fun _ => hroom⟩
      · -- a full buffer: Caps Lock is not looked for
        have hstays : ¬ (IsShift x.2 ∨
            kbdus x.2 = capsLock ∧ m.1.keyboard.kbInds m.1.curTerminal < 127) :=
          not_or.mpr ⟨hshift, fun hcond => absurd hcond.2 (not_lt.mpr hfull)⟩
        rw [if_neg hstays, h.agree.caps]
        exact iff_of_false iff_not_self fun hcond => absurd (hcond.2 hlock) (not_lt.mpr hfull)
    · have hstays : ¬ (IsShift x.2 ∨
          kbdus x.2 = capsLock ∧ m.1.keyboard.kbInds m.1.curTerminal < 127) :=
        not_or.mpr ⟨hshift, fun hcond => hlock hcond.1⟩
      rw [if_neg hstays, h.agree.caps, capsLocks_cons_of_ne hlock]
      exact iff_of_true Iff.rfl ⟨hvacuous, fun hcond => absurd hcond hlock⟩

/-- The flags agree after a code exactly if the code is regular. -/
theorem agree_iff (h : FlagsInv m) (x : CallSite × Byte) :
    FlagsAgree (seeKey L fs m x) ↔ Regular m x := by
  constructor
  · intro hagree
    obtain ⟨hshift, hlock⟩ := h.caps_iff.mp hagree.caps
    exact ⟨h.ctrl_iff.mp hagree.ctrl, hshift, hlock⟩
  · intro hregular
    exact ⟨h.ctrl_iff.mpr hregular.ctrl, h.caps_iff.mpr ⟨hregular.shift, hregular.lock⟩⟩

theorem step (h : FlagsInv m) (hregular : Regular m x) : FlagsInv (seeKey L fs m x) := by
  refine ⟨(h.agree_iff x).mpr hregular, ?_, ?_⟩
  · rw [seeKey, keyboardHandler_ctrl]
    split
    · exact flip_bit h.ctrl
    · exact h.ctrl
  · rw [seeKey, keyboardHandler_caps]
    split
    · exact flip_bit h.caps
    · exact h.caps

end FlagsInv

end Os391
