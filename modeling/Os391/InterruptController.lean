import Os391.Lib.Bytes
import Mathlib.Data.List.Induction

/-!
# The interrupt controllers: `i8259.c`

Two chips of eight lines each, the second one behind line 2 of the first. The kernel
keeps a copy of each chip's mask and writes it to the chip whenever it changes. What a
chip does is decided by the byte last written to its mask port, so the ports are kept
as the list of what has been written, the latest first.
-/

namespace Os391

open Bytes

/-- `master_mask` and `slave_mask`, and the bytes written to ports, the latest first. -/
structure I8259 : Type where
  masterMask : Byte
  slaveMask : Byte
  written : List (BitVec 16 × Byte)

/-- A call of `enable_irq` or `disable_irq`. -/
inductive IrqCall : Type where
  | enableIrq : Word → IrqCall
  | disableIrq : Word → IrqCall
  deriving DecidableEq

/-- The line the call is about. -/
def IrqCall.line : IrqCall → Word
  | enableIrq irqNum => irqNum
  | disableIrq irqNum => irqNum

namespace I8259

/-- `MASTER_8259_PORT + 1`. -/
def masterData : BitVec 16 := 0x20 + 1

/-- `SLAVE_8259_PORT + 1`. -/
def slaveData : BitVec 16 := 0xA0 + 1

/-- `outb`: the low byte of `data` goes to `port`. -/
def outb (data : Word) (port : BitVec 16) (p : I8259) : I8259 :=
  { p with written := (port, data.setWidth 8) :: p.written }

/-- The byte last written to a port. -/
def lastWritten (p : I8259) (port : BitVec 16) : Option Byte :=
  (p.written.find? fun w => decide (w.1 = port)).map Prod.snd

/-- `mask & (~(0x1 << bit))`, computed in `int` and cut to a byte. -/
def clearBit (mask : Byte) (bit : Word) : Byte :=
  (mask.setWidth 32 &&& ~~~((0x1 : Word) <<< bit.toNat)).setWidth 8

/-- `mask | (0x1 << bit)`. -/
def setBit (mask : Byte) (bit : Word) : Byte :=
  (mask.setWidth 32 ||| ((0x1 : Word) <<< bit.toNat)).setWidth 8

/-- `enable_irq`; a line of the second chip needs line 2 of the first (`IRQ2_ENABLE`). -/
def enableIrq (irqNum : Word) (p : I8259) : I8259 :=
  if irqNum.toNat < 8 then
    let p := { p with masterMask := clearBit p.masterMask irqNum }
    p.outb (p.masterMask.setWidth 32) masterData
  else
    let p := { p with slaveMask := clearBit p.slaveMask (irqNum - 8) }
    let p := p.outb (p.slaveMask.setWidth 32) slaveData
    let p := { p with masterMask := p.masterMask &&& 0xFB }
    p.outb (p.masterMask.setWidth 32) masterData

/-- `disable_irq`. -/
def disableIrq (irqNum : Word) (p : I8259) : I8259 :=
  if irqNum.toNat < 8 then
    let p := { p with masterMask := setBit p.masterMask irqNum }
    p.outb (p.masterMask.setWidth 32) masterData
  else
    let p := { p with slaveMask := setBit p.slaveMask (irqNum - 8) }
    p.outb (p.slaveMask.setWidth 32) slaveData

/-- `i8259_init`: the four initialization words of each chip, the masks, and line 2. -/
def init (p : I8259) : I8259 :=
  let p := { p with masterMask := 0xFF, slaveMask := 0xFF }
  let p := (p.outb 0x11 0x20).outb 0x11 0xA0
  let p := (p.outb 0x20 masterData).outb 0x28 slaveData
  let p := (p.outb 0x04 masterData).outb 0x02 slaveData
  let p := (p.outb 0x01 masterData).outb 0x01 slaveData
  let p := (p.outb (p.masterMask.setWidth 32) masterData).outb (p.slaveMask.setWidth 32) slaveData
  p.enableIrq 2

/-- Carry out a call. -/
def call (p : I8259) : IrqCall → I8259
  | .enableIrq irqNum => p.enableIrq irqNum
  | .disableIrq irqNum => p.disableIrq irqNum

/-- The chips let an interrupt on line `n` through: its bit is clear in the byte last
written to the mask port of its chip, and for the second chip bit 2 is clear in the one
last written to the first. -/
def Deliverable (p : I8259) (n : ℕ) : Prop :=
  if n < 8 then ∃ b, p.lastWritten 0x21 = some b ∧ b.getLsbD n = false
  else (∃ b, p.lastWritten 0xA1 = some b ∧ b.getLsbD (n - 8) = false) ∧
    ∃ b, p.lastWritten 0x21 = some b ∧ b.getLsbD 2 = false

end I8259

/-- Whether the call masks its line. -/
def IrqCall.masks : IrqCall → Bool
  | enableIrq _ => false
  | disableIrq _ => true

theorem IrqCall.masks_eq_false_iff {c : IrqCall} {line : Word} (h : c.line = line) :
    c.masks = false ↔ c = .enableIrq line := by
  subst h
  cases c with
  | enableIrq irqNum => exact iff_of_true rfl rfl
  | disableIrq irqNum => exact iff_of_false (by simp [masks]) (by simp)

/-- The last of the calls on a line. -/
def lastCall (calls : List IrqCall) (line : Word) : Option IrqCall :=
  calls.reverse.find? fun c => decide (c.line = line)

theorem lastCall_concat (calls : List IrqCall) (c : IrqCall) (line : Word) :
    lastCall (calls ++ [c]) line = if c.line = line then some c else lastCall calls line := by
  rw [lastCall, List.reverse_concat, List.find?_cons]
  by_cases h : c.line = line
  · rw [if_pos h, decide_eq_true h]
  · rw [if_neg h, decide_eq_false h]
    rfl

namespace I8259

/-! ## Bits and ports -/

section bits

variable {m : ℕ}

theorem getLsbD_one_shiftLeft (k : ℕ) (hm : m < 32) :
    ((0x1 : Word) <<< k).getLsbD m = decide (m = k) := by
  rw [BitVec.getLsbD_shiftLeft, decide_eq_true hm, Bool.true_and]
  by_cases hlt : m < k
  · rw [decide_eq_true hlt, decide_eq_false (Nat.ne_of_lt hlt)]
    rfl
  · have hone : ((0x1 : Word)).getLsbD (m - k) = decide (m - k = 0) := BitVec.getLsbD_one
    rw [hone, decide_eq_false hlt, Bool.not_false, Bool.true_and]
    exact decide_eq_decide.mpr (by omega)

theorem getLsbD_clearBit (mask : Byte) (bit : Word) (hm : m < 8) :
    (clearBit mask bit).getLsbD m = if m = bit.toNat then false else mask.getLsbD m := by
  have hm' : m < 32 := by omega
  simp only [clearBit, BitVec.getLsbD_setWidth, BitVec.getLsbD_and, BitVec.getLsbD_not,
    getLsbD_one_shiftLeft _ hm', hm, hm', decide_true, Bool.true_and]
  split
  · next heq => rw [decide_eq_true heq, Bool.not_true, Bool.and_false]
  · next hne => rw [decide_eq_false hne, Bool.not_false, Bool.and_true]

theorem getLsbD_setBit (mask : Byte) (bit : Word) (hm : m < 8) :
    (setBit mask bit).getLsbD m = if m = bit.toNat then true else mask.getLsbD m := by
  have hm' : m < 32 := by omega
  simp only [setBit, BitVec.getLsbD_setWidth, BitVec.getLsbD_or,
    getLsbD_one_shiftLeft _ hm', hm, hm', decide_true, Bool.true_and]
  split
  · next heq => rw [decide_eq_true heq, Bool.or_true]
  · next hne => rw [decide_eq_false hne, Bool.or_false]

/-- `IRQ2_ENABLE` clears bit 2. -/
theorem getLsbD_irq2Enable (mask : Byte) (hm : m < 8) :
    (mask &&& 0xFB).getLsbD m = if m = 2 then false else mask.getLsbD m := by
  have hbits : ∀ m : Fin 8, (0xFB : Byte).getLsbD m.val = decide (m.val ≠ 2) := by decide
  rw [BitVec.getLsbD_and, hbits ⟨m, hm⟩]
  split
  · next heq => rw [decide_eq_false (not_not.mpr heq), Bool.and_false]
  · next hne => rw [decide_eq_true hne, Bool.and_true]

end bits

section ports

variable (p : I8259) (data : Word) {port port' : BitVec 16}

theorem lastWritten_outb_self : (p.outb data port).lastWritten port = some (data.setWidth 8) := by
  simp [lastWritten, outb]

theorem lastWritten_outb_of_ne (h : port' ≠ port) :
    (p.outb data port').lastWritten port = p.lastWritten port := by
  simp [lastWritten, outb, h]

/-- A new mask for the first chip. -/
def setMaster (mask : Byte) (p : I8259) : I8259 :=
  outb (mask.setWidth 32) masterData { p with masterMask := mask }

/-- A new mask for the second chip. -/
def setSlave (mask : Byte) (p : I8259) : I8259 :=
  outb (mask.setWidth 32) slaveData { p with slaveMask := mask }

variable (mask : Byte)

theorem lastWritten_setMaster : (setMaster mask p).lastWritten masterData = some mask := by
  rw [setMaster, lastWritten_outb_self, BitVec.setWidth_setWidth_of_le _ (by decide),
    BitVec.setWidth_eq]

theorem lastWritten_setSlave : (setSlave mask p).lastWritten slaveData = some mask := by
  rw [setSlave, lastWritten_outb_self, BitVec.setWidth_setWidth_of_le _ (by decide),
    BitVec.setWidth_eq]

theorem lastWritten_setMaster_slave :
    (setMaster mask p).lastWritten slaveData = p.lastWritten slaveData := by
  rw [setMaster, lastWritten_outb_of_ne _ _ (by decide)]
  rfl

theorem lastWritten_setSlave_master :
    (setSlave mask p).lastWritten masterData = p.lastWritten masterData := by
  rw [setSlave, lastWritten_outb_of_ne _ _ (by decide)]
  rfl

variable {irqNum : Word}

theorem enableIrq_low (h : irqNum.toNat < 8) :
    p.enableIrq irqNum = setMaster (clearBit p.masterMask irqNum) p := by
  rw [enableIrq, if_pos h]
  rfl

theorem enableIrq_high (h : ¬ irqNum.toNat < 8) : p.enableIrq irqNum =
    setMaster (p.masterMask &&& 0xFB) (setSlave (clearBit p.slaveMask (irqNum - 8)) p) := by
  rw [enableIrq, if_neg h]
  rfl

theorem disableIrq_low (h : irqNum.toNat < 8) :
    p.disableIrq irqNum = setMaster (setBit p.masterMask irqNum) p := by
  rw [disableIrq, if_pos h]
  rfl

theorem disableIrq_high (h : ¬ irqNum.toNat < 8) :
    p.disableIrq irqNum = setSlave (setBit p.slaveMask (irqNum - 8)) p := by
  rw [disableIrq, if_neg h]
  rfl

end ports

/-! ## What the chips are told -/

/-- The chips have been told the masks the kernel keeps, the second chip is let through,
and a line is unmasked exactly if the last call on it was `enable_irq`. -/
structure Tracks (calls : List IrqCall) (p : I8259) : Prop where
  master : p.lastWritten masterData = some p.masterMask
  slave : p.lastWritten slaveData = some p.slaveMask
  cascade : p.masterMask.getLsbD 2 = false
  low : ∀ line : Word, line.toNat < 8 → line ≠ 2 →
    (p.masterMask.getLsbD line.toNat = false ↔ lastCall calls line = some (.enableIrq line))
  high : ∀ line : Word, 8 ≤ line.toNat → line.toNat < 16 →
    (p.slaveMask.getLsbD (line.toNat - 8) = false ↔ lastCall calls line = some (.enableIrq line))

namespace Tracks

variable {calls : List IrqCall} {p : I8259}

theorem init (p : I8259) : Tracks [] p.init := by
  have hmask : clearBit 0xFF 2 = 0xFB := by decide
  have hinit : p.init.masterMask = 0xFB := hmask
  refine ⟨?_, rfl, ?_, fun line hline hne => ?_, fun line hlow hhigh => ?_⟩
  · exact lastWritten_setMaster _ _
  · rw [hinit]
    rfl
  · have hbits : ∀ m : Fin 8, m.val ≠ 2 → (0xFB : Byte).getLsbD m.val = true := by decide
    have hne' : line.toNat ≠ 2 := fun heq => hne (BitVec.eq_of_toNat_eq heq)
    rw [hinit, hbits ⟨line.toNat, hline⟩ hne']
    exact iff_of_false (by decide) (Option.some_ne_none _).symm
  · have hbits : ∀ m : Fin 8, (0xFF : Byte).getLsbD m.val = true := by decide
    have hslave : p.init.slaveMask = 0xFF := rfl
    rw [hslave, hbits ⟨line.toNat - 8, by omega⟩]
    exact iff_of_false (by decide) (Option.some_ne_none _).symm

/-- One more call: what it has to do to the bits. -/
theorem concat (h : Tracks calls p) {p' : I8259} {c : IrqCall}
    (hmaster : p'.lastWritten masterData = some p'.masterMask)
    (hslave : p'.lastWritten slaveData = some p'.slaveMask)
    (hcascade : p'.masterMask.getLsbD 2 = false)
    (hlow : ∀ line : Word, line.toNat < 8 → line ≠ 2 → p'.masterMask.getLsbD line.toNat =
      if c.line = line then c.masks else p.masterMask.getLsbD line.toNat)
    (hhigh : ∀ line : Word, 8 ≤ line.toNat → line.toNat < 16 →
      p'.slaveMask.getLsbD (line.toNat - 8) =
        if c.line = line then c.masks else p.slaveMask.getLsbD (line.toNat - 8)) :
    Tracks (calls ++ [c]) p' := by
  refine ⟨hmaster, hslave, hcascade, fun line hline hne => ?_, fun line hline hline' => ?_⟩
  · rw [lastCall_concat, hlow line hline hne]
    by_cases hc : c.line = line
    · rw [if_pos hc, if_pos hc, IrqCall.masks_eq_false_iff hc, Option.some.injEq]
    · rw [if_neg hc, if_neg hc]
      exact h.low line hline hne
  · rw [lastCall_concat, hhigh line hline hline']
    by_cases hc : c.line = line
    · rw [if_pos hc, if_pos hc, IrqCall.masks_eq_false_iff hc, Option.some.injEq]
    · rw [if_neg hc, if_neg hc]
      exact h.high line hline hline'

/-- A call on a line of the first chip changes its bit in the mask. -/
theorem call_eq_setMaster {c : IrqCall} (hline : c.line.toNat < 8) (p : I8259) :
    ∃ mask : Byte, p.call c = setMaster mask p ∧ ∀ m < 8, mask.getLsbD m =
      if m = c.line.toNat then c.masks else p.masterMask.getLsbD m := by
  cases c with
  | enableIrq irqNum =>
    exact ⟨_, enableIrq_low p hline, fun m hm => getLsbD_clearBit p.masterMask irqNum hm⟩
  | disableIrq irqNum =>
    exact ⟨_, disableIrq_low p hline, fun m hm => getLsbD_setBit p.masterMask irqNum hm⟩

/-- A call on a line of the first chip, other than line 2. -/
theorem call_low (h : Tracks calls p) {c : IrqCall} (hline : c.line.toNat < 8) (hne : c.line ≠ 2) :
    Tracks (calls ++ [c]) (p.call c) := by
  have htwo : (2 : ℕ) ≠ c.line.toNat := fun heq => hne (BitVec.eq_of_toNat_eq heq.symm)
  have hsame : ∀ line : Word, line.toNat = c.line.toNat ↔ c.line = line := fun line =>
    ⟨fun heq => BitVec.eq_of_toNat_eq heq.symm, fun heq => by rw [heq]⟩
  have hother : ∀ line : Word, 8 ≤ line.toNat → ¬ c.line = line := by
    rintro line hl rfl
    omega
  obtain ⟨mask, hcall, hbits⟩ := call_eq_setMaster hline p
  rw [hcall]
  refine h.concat (lastWritten_setMaster _ _) ?_ ?_ (fun line hl _ => ?_) fun line hl _ => ?_
  · rw [lastWritten_setMaster_slave]
    exact h.slave
  · exact (hbits 2 (by decide)).trans ((if_neg htwo).trans h.cascade)
  · refine (hbits _ hl).trans ?_
    simp only [← hsame line]
  · rw [if_neg (hother line hl)]
    rfl

/-- A call on a line of the second chip. -/
theorem call_high (h : Tracks calls p) {c : IrqCall} (hlow : 8 ≤ c.line.toNat)
    (hhigh : c.line.toNat < 16) : Tracks (calls ++ [c]) (p.call c) := by
  have hsub : (c.line - 8).toNat = c.line.toNat - 8 :=
    BitVec.toNat_sub_of_le (by rw [BitVec.le_def]; exact hlow)
  have hsame : ∀ line : Word, 8 ≤ line.toNat →
      (line.toNat - 8 = (c.line - 8).toNat ↔ c.line = line) := fun line hl =>
    ⟨fun heq => BitVec.eq_of_toNat_eq (by omega), fun heq => by rw [hsub, heq]⟩
  have hother : ∀ line : Word, line.toNat < 8 → ¬ c.line = line := by
    rintro line hl rfl
    omega
  cases c with
  | enableIrq irqNum =>
    have hlow' : ¬ irqNum.toNat < 8 := Nat.not_lt.mpr hlow
    rw [call, enableIrq_high p hlow']
    refine h.concat (lastWritten_setMaster _ _) ?_ ?_ (fun line hl hne => ?_)
      fun line hl hl' => ?_
    · rw [lastWritten_setMaster_slave]
      exact lastWritten_setSlave _ _
    · exact getLsbD_irq2Enable _ (by decide)
    · have hne' : line.toNat ≠ 2 := fun heq => hne (BitVec.eq_of_toNat_eq heq)
      rw [if_neg (hother line hl)]
      exact (getLsbD_irq2Enable _ hl).trans (if_neg hne')
    · refine (getLsbD_clearBit _ _ (by omega)).trans ?_
      simp only [← hsame line hl]
      rfl
  | disableIrq irqNum =>
    have hlow' : ¬ irqNum.toNat < 8 := Nat.not_lt.mpr hlow
    rw [call, disableIrq_high p hlow']
    refine h.concat ?_ (lastWritten_setSlave _ _) h.cascade (fun line hl hne => ?_)
      fun line hl hl' => ?_
    · rw [lastWritten_setSlave_master]
      exact h.master
    · rw [if_neg (hother line hl)]
      rfl
    · refine (getLsbD_setBit _ _ (by omega)).trans ?_
      simp only [← hsame line hl]
      rfl

theorem run (p : I8259) (h : ∀ c ∈ calls, c.line.toNat < 16 ∧ c.line ≠ 2) :
    Tracks calls (calls.foldl call p.init) := by
  induction calls using List.reverseRecOn with
  | nil => exact init p
  | append_singleton calls c ih =>
    have hbefore := ih fun d hd => h d (List.mem_append_left _ hd)
    obtain ⟨hline, hne⟩ := h c (List.mem_append_right _ List.mem_cons_self)
    rw [List.foldl_append]
    by_cases hlow : c.line.toNat < 8
    · exact hbefore.call_low hlow hne
    · exact hbefore.call_high (Nat.not_lt.mp hlow) hline

/-- A line is deliverable if its bit is clear. -/
theorem deliverable_iff (h : Tracks calls p) {line : Word} (hline : line.toNat < 16)
    (hne : line ≠ 2) :
    p.Deliverable line.toNat ↔ lastCall calls line = some (.enableIrq line) := by
  have hmaster : p.lastWritten 0x21 = some p.masterMask := h.master
  have hslave : p.lastWritten 0xA1 = some p.slaveMask := h.slave
  rw [Deliverable, hmaster, hslave]
  split
  · next hlow =>
    rw [← h.low line hlow hne]
    exact ⟨fun ⟨b, hb, hbit⟩ => Option.some.inj hb ▸ hbit, fun hbit => ⟨_, rfl, hbit⟩⟩
  · next hhigh =>
    rw [← h.high line (Nat.not_lt.mp hhigh) hline]
    exact ⟨fun ⟨⟨b, hb, hbit⟩, _⟩ => Option.some.inj hb ▸ hbit,
      fun hbit => ⟨⟨_, rfl, hbit⟩, _, rfl, h.cascade⟩⟩

end Tracks

end I8259

/-- After `i8259_init` and any calls on lines other than 2, a line other than 2 is
deliverable exactly if the last call on it was `enable_irq`, and the bytes last written
to the mask ports are the masks that the kernel keeps. -/
theorem deliverable_run (p : I8259) {calls : List IrqCall}
    (hcalls : ∀ c ∈ calls, c.line.toNat < 16 ∧ c.line ≠ 2) :
    let q := calls.foldl I8259.call p.init
    (∀ line : Word, line.toNat < 16 → line ≠ 2 →
      (q.Deliverable line.toNat ↔ lastCall calls line = some (.enableIrq line))) ∧
      q.lastWritten 0x21 = some q.masterMask ∧ q.lastWritten 0xA1 = some q.slaveMask := by
  have h := I8259.Tracks.run p hcalls
  exact ⟨fun line hline hne => h.deliverable_iff hline hne, h.master, h.slave⟩

/-- The keyboard and the clock are enabled, the keyboard is disabled again. -/
theorem deliverable_run_sample :
    let q := [IrqCall.enableIrq 1, .enableIrq 8, .disableIrq 1].foldl I8259.call
      (I8259.init ⟨0, 0, []⟩)
    q.Deliverable 8 ∧ ¬ q.Deliverable 1 := by
  obtain ⟨hiff, -⟩ :=
    @deliverable_run ⟨0, 0, []⟩ [.enableIrq 1, .enableIrq 8, .disableIrq 1] (by decide)
  exact ⟨(hiff 8 (by decide) (by decide)).mpr (by decide),
    fun hdeliverable => absurd ((hiff 1 (by decide) (by decide)).mp hdeliverable) (by decide)⟩

end Os391
