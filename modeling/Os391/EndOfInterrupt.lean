import Mathlib.Data.List.Sort
import Os391.InterruptController
import Os391.InterruptTable
import Os391.Keyboard
import Os391.Lib.Pic
import Os391.Lib.Runs

/-!
# The end of an interrupt

The gates of the devices leave interrupts enabled, so one handler can be interrupted by
another one. A line is in service from the interrupt on until `send_eoi`, and holds back the
lines of lower priority. A handler that switches terminals starts a shell before it returns,
which is why `keyboard_handler` sends the end of the interrupt first. `Devices` are the
two controllers, the devices, and what the processor is in the middle of.

`halt_function` returns from the `execute` of `processes[pid]`. That is the program running
innermost as long as the terminal is not switched back from a shell that was started inside a
handler: after such a switch the handlers around the shell are left behind unfinished. The runs
here are those in which the same process stays on top, so that `halt` ends the innermost
program.
-/

namespace Os391

open Bytes Runs Pic

/-- What the controllers and the devices see of a handler, and the call of `switch_terminal`.
With `read` the handler takes what the device waits to be rid of: the scancode at port 0x60,
or register C of the clock. -/
inductive HandlerAction : Type where
  | read : HandlerAction
  | sendEoi : Word → HandlerAction
  | switchTerminal : HandlerAction
  deriving DecidableEq

namespace HandlerAction

/-- `pit_handler`. -/
def pitHandler : List HandlerAction := [sendEoi 0]

/-- `rtc_handler`. -/
def rtcHandler : List HandlerAction := [read, sendEoi 8]

/-- `keyboard_handler`. All its other paths end with the same call of `send_eoi`. -/
def keyboardHandler (c : Byte) (s : Kernel) : List HandlerAction :=
  if c.toNat < 128 then
    match switchTarget c ((s.keyboard.select s.curTerminal).modifiers c) with
    | some _ => [read, sendEoi 1, switchTerminal]
    | none => [read, sendEoi 1]
  else [read, sendEoi 1]

/-- The handler behind the vector of line `n`; the vectors start at `ICW2_MASTER` and, for
the second chip, at `ICW2_SLAVE`. -/
def ofLine (c : Byte) (s : Kernel) (n : Fin 16) : List HandlerAction :=
  match InterruptTable.handlers.lookup (if n.val < 8 then 0x20 + n.val else 0x28 + (n.val - 8)) with
  | some .pitException => pitHandler
  | some .keyboardException => keyboardHandler c s
  | some .rtcException => rtcHandler
  | _ => []

/-- The handler has still to send the end of its interrupt. -/
def owes (as : List HandlerAction) : Bool :=
  as.any fun a => match a with
    | sendEoi _ => true
    | _ => false

end HandlerAction

/-- What the processor is in the middle of: a program with its system calls, or the rest of
the handler of line `n`. -/
inductive Activation : Type where
  | program : Activation
  | handler (n : Fin 16) (rest : List HandlerAction) : Activation
  deriving DecidableEq

/-- The line whose interrupt the activation has not ended. -/
def Activation.owed : Activation → Option (Fin 16)
  | program => none
  | handler n rest => if HandlerAction.owes rest then some n else none

/-- The controllers as the driver and as the chips know them, the devices that wait for a
`read`, and what the processor is in the middle of, the innermost first. -/
structure Devices : Type where
  driver : I8259
  pics : Pair
  unread : Finset (Fin 16)
  control : List Activation

/-- What can happen. The kernel variables and the scancode that a handler meets are any. The
program that halts is the innermost one. -/
inductive DeviceEvent : Type where
  | request (n : Fin 16) : DeviceEvent
  | interrupt (n : Fin 16) (c : Byte) (s : Kernel) : DeviceEvent
  | goOn (starts : Bool) : DeviceEvent
  | iret : DeviceEvent
  | execute : DeviceEvent
  | halt : DeviceEvent

namespace Devices

/-- `outb`, and what the chips do at their command ports. -/
def outb (data : Word) (port : BitVec 16) (m : Devices) : Devices :=
  { m with
    driver := m.driver.outb data port
    pics :=
      if port = 0x20 then { m.pics with master := command (data.setWidth 8) m.pics.master }
      else if port = 0xA0 then { m.pics with slave := command (data.setWidth 8) m.pics.slave }
      else m.pics }

/-- `send_eoi`. -/
def sendEoi (irqNum : Word) (m : Devices) : Devices :=
  if irqNum.toNat < 8 then m.outb (irqNum ||| 0x60) 0x20
  else (m.outb ((irqNum - 8) ||| 0x60) 0xA0).outb (0x02 ||| 0x60) 0x20

/-- The lines of the devices that wait for a `read`: the keyboard and the clock. -/
def needsRead (n : Fin 16) : Prop := n = 1 ∨ n = 8

instance (n : Fin 16) : Decidable (needsRead n) := inferInstanceAs (Decidable (n = 1 ∨ n = 8))

/-- The next action of the handler of line `n`. `starts` says whether `switch_terminal`
starts a program. -/
def act (starts : Bool) (n : Fin 16) (m : Devices) : HandlerAction → Devices
  | .read => { m with unread := m.unread.erase n }
  | .sendEoi irqNum => m.sendEoi irqNum
  | .switchTerminal => if starts then { m with control := .program :: m.control } else m

/-- A step. -/
def step (m : Devices) : DeviceEvent → Devices
  | .request n =>
    { m with
      pics := { m.pics with requests := insert n m.pics.requests }
      unread := if needsRead n then insert n m.unread else m.unread }
  | .interrupt n c s =>
    { m with
      pics := m.pics.accept n
      control := .handler n (HandlerAction.ofLine c s n) :: m.control }
  | .goOn starts =>
    match m.control with
    | .handler n (a :: rest) :: k => act starts n { m with control := .handler n rest :: k } a
    | _ => m
  | .iret =>
    match m.control with
    | .handler _ [] :: k => { m with control := k }
    | _ => m
  | .execute => { m with control := .program :: m.control }
  | .halt =>
    match m.control with
    | .program :: k => { m with control := k }
    | _ => m

/-- No handler is innermost: a program runs, or the kernel itself before the first one. -/
def AtProgram (m : Devices) : Prop :=
  match m.control with
  | .handler _ _ :: _ => False
  | _ => True

/-- The chips pass on the request of `n` next. -/
def Accepts (m : Devices) (n : Fin 16) : Prop :=
  m.pics.Accepts (fun k => m.driver.Deliverable k.val) n

/-- The events that are possible. A device that waits for a `read` does not ask again, and
line 2 belongs to the second chip. A program halts while it is innermost, which is when
`processes[pid]` is its process. -/
def Allowed (m : Devices) : DeviceEvent → Prop
  | .request n => n ≠ 2 ∧ n ∉ m.unread
  | .interrupt n _ _ => m.Accepts n
  | .goOn _ => ∃ n a rest k, m.control = .handler n (a :: rest) :: k
  | .iret => ∃ n k, m.control = .handler n [] :: k
  | .execute => m.AtProgram
  | .halt => ∃ k, m.control = .program :: k

/-- The calls in `rtc_init`, `pit_init` and `keyboard_init`. -/
def bootCalls : List IrqCall := [.disableIrq 8, .enableIrq 8, .enableIrq 0, .enableIrq 1]

/-- `entry` before its first program. -/
def boot (p : I8259) : Devices where
  driver := bootCalls.foldl I8259.call p.init
  pics := ⟨∅, ∅, ∅⟩
  unread := ∅
  control := []

/-- The lines whose interrupts have not been ended, the innermost first. -/
def unended (m : Devices) : List (Fin 16) := m.control.filterMap Activation.owed

variable {m : Devices} {n : Fin 16}

/-! ## `send_eoi` -/

theorem command_eoi {irqNum : Word} {k : Fin 8} (h : irqNum.toNat = k.val)
    (service : Finset (Fin 8)) :
    command ((irqNum ||| 0x60).setWidth 8) service = service.erase k := by
  have hbits : ∀ k : Fin 8, let b : Byte := (BitVec.ofNat 32 k.val ||| 0x60).setWidth 8
      b.getLsbD 4 = false ∧ b.extractLsb' 3 5 = 0b01100 ∧ (b.extractLsb' 0 3).toFin = k := by
    decide
  obtain rfl : irqNum = BitVec.ofNat 32 k.val := by
    rw [← h, BitVec.ofNat_toNat, BitVec.setWidth_eq]
  obtain ⟨hinit, hend, hline⟩ := hbits k
  rw [command, hinit, if_neg Bool.false_ne_true, if_pos hend, hline]

/-- Both chips are told. -/
theorem sendEoi_pics (m : Devices) (n : Fin 16) :
    (m.sendEoi (BitVec.ofNat 32 n.val)).pics = m.pics.ended n := by
  have hn := n.isLt
  have hval : (BitVec.ofNat 32 n.val).toNat = n.val := by
    rw [BitVec.toNat_ofNat]
    omega
  rw [sendEoi, hval]
  split
  · next hlow =>
    have hlevel : level n = ⟨n, hlow⟩ := dif_pos hlow
    simp only [outb, if_true, command_eoi (k := level n) (by rw [hval, hlevel])]
    have hfirst : ¬ 8 ≤ n := Nat.not_le.mpr hlow
    rw [Pair.ended, if_neg hfirst]
  · next hhigh =>
    have hsub : (BitVec.ofNat 32 n.val - 8).toNat = (own n).val := by
      rw [BitVec.toNat_sub_of_le (by rw [BitVec.le_def, hval]; exact Nat.not_lt.mp hhigh), hval]
      exact (by omega : n.val - 8 = n.val % 8)
    have hsecond : (0x02 : Word).toNat = (2 : Fin 8).val := rfl
    have hports : ¬ (0xA0 : BitVec 16) = 0x20 := by decide
    simp only [outb, if_true, if_neg hports, command_eoi hsub, command_eoi hsecond]
    have hbehind : 8 ≤ n := Nat.not_lt.mp hhigh
    rw [Pair.ended, if_pos hbehind, level_of_le hbehind]

theorem sendEoi_rest (m : Devices) (w : Word) :
    (m.sendEoi w).unread = m.unread ∧ (m.sendEoi w).control = m.control := by
  rw [sendEoi]
  split <;> exact ⟨rfl, rfl⟩

theorem deliverable_congr {p q : I8259} (hmaster : q.lastWritten 0x21 = p.lastWritten 0x21)
    (hslave : q.lastWritten 0xA1 = p.lastWritten 0xA1) (k : ℕ) :
    q.Deliverable k ↔ p.Deliverable k := by
  rw [I8259.Deliverable, I8259.Deliverable, hmaster, hslave]

/-- The masks stay. -/
theorem sendEoi_deliverable (m : Devices) (w : Word) (k : ℕ) :
    (m.sendEoi w).driver.Deliverable k ↔ m.driver.Deliverable k := by
  rw [sendEoi]
  split
  · exact deliverable_congr (I8259.lastWritten_outb_of_ne _ _ (by decide))
      (I8259.lastWritten_outb_of_ne _ _ (by decide)) k
  · refine deliverable_congr ?_ ?_ k
    · exact (I8259.lastWritten_outb_of_ne _ _ (by decide)).trans
        (I8259.lastWritten_outb_of_ne _ _ (by decide))
    · exact (I8259.lastWritten_outb_of_ne _ _ (by decide)).trans
        (I8259.lastWritten_outb_of_ne _ _ (by decide))

/-! ## Handlers on their way -/

/-- A line that is enabled and has a device. -/
def IsDevice (n : Fin 16) : Prop := n = 0 ∨ n = 1 ∨ n = 8

instance (n : Fin 16) : Decidable (IsDevice n) :=
  inferInstanceAs (Decidable (n = 0 ∨ n = 1 ∨ n = 8))

/-- The rest of the handler of line `n`: it ends its own interrupt, once, reads before that,
and only the one of the keyboard switches terminals, behind that. -/
def Proper (n : Fin 16) : List HandlerAction → Prop
  | [] => True
  | .read :: rest => HandlerAction.owes rest = true ∧ Proper n rest
  | .sendEoi w :: rest =>
    w = BitVec.ofNat 32 n.val ∧ HandlerAction.owes rest = false ∧ Proper n rest
  | .switchTerminal :: rest => n = 1 ∧ HandlerAction.owes rest = false ∧ Proper n rest

/-- Handlers have interrupted what is outside of them, and a program has at most interrupted
the handler of the clock. -/
def Nested : List Activation → Prop
  | [] => True
  | .program :: k => (∀ m ∈ k.filterMap Activation.owed, m = 8) ∧ Nested k
  | .handler n rest :: k => IsDevice n ∧ Proper n rest ∧
    (∀ m ∈ k.filterMap Activation.owed, level n < level m) ∧ Nested k

theorem owed_eq_none {rest : List HandlerAction} (h : HandlerAction.owes rest = false) :
    (Activation.handler n rest).owed = none :=
  if_neg (by rw [h]; exact Bool.false_ne_true)

theorem isDevice_of_owed {k : List Activation} (h : Nested k)
    (hn : n ∈ k.filterMap Activation.owed) : IsDevice n := by
  induction k with
  | nil => exact absurd hn List.not_mem_nil
  | cons a k ih =>
    obtain ⟨b, hb, howed⟩ := List.mem_filterMap.mp hn
    rcases List.mem_cons.mp hb with rfl | hb
    · cases b with
      | program => exact absurd howed (by simp [Activation.owed])
      | handler n' rest =>
        rw [Activation.owed] at howed
        split at howed
        · exact Option.some.inj howed ▸ h.1
        · exact absurd howed (by simp)
    · refine ih ?_ (List.mem_filterMap.mpr ⟨b, hb, howed⟩)
      cases a with
      | program => exact h.2
      | handler n' rest => exact h.2.2.2

/-- A handler reads before it ends the interrupt. -/
theorem Proper.owes {rest : List HandlerAction} (h : Proper n rest)
    (hread : HandlerAction.read ∈ rest) : HandlerAction.owes rest = true := by
  induction rest with
  | nil => exact absurd hread List.not_mem_nil
  | cons a rest ih =>
    cases a with
    | read => exact h.1
    | sendEoi w => rfl
    | switchTerminal =>
      obtain ⟨-, howes, hrest⟩ := h
      have hread' := (List.mem_cons.mp hread).resolve_left (by simp)
      exact absurd (ih hrest hread') (by rw [howes]; exact Bool.false_ne_true)

theorem mem_owed_of_read {k : List Activation} (h : Nested k) {rest : List HandlerAction}
    (hmem : .handler n rest ∈ k) (hread : HandlerAction.read ∈ rest) :
    n ∈ k.filterMap Activation.owed := by
  have hproper : Proper n rest := by
    induction k with
    | nil => exact absurd hmem List.not_mem_nil
    | cons a k ih =>
      cases a with
      | program => exact ih h.2 ((List.mem_cons.mp hmem).resolve_left (by simp))
      | handler n' rest' =>
        rcases List.mem_cons.mp hmem with heq | hmem
        · obtain ⟨rfl, rfl⟩ := Activation.handler.inj heq
          exact h.2.1
        · exact ih h.2.2.2 hmem
  exact List.mem_filterMap.mpr ⟨_, hmem, if_pos (hproper.owes hread)⟩

theorem ofLine_spec (hn : IsDevice n) (c : Byte) (s : Kernel) :
    Proper n (HandlerAction.ofLine c s n) ∧ HandlerAction.owes (HandlerAction.ofLine c s n) = true ∧
      (needsRead n → .read ∈ HandlerAction.ofLine c s n) := by
  obtain rfl | rfl | rfl := hn
  · exact ⟨⟨rfl, rfl, trivial⟩, rfl, fun h => absurd h (by decide)⟩
  · have hline : HandlerAction.ofLine c s 1 = HandlerAction.keyboardHandler c s := rfl
    rw [hline, HandlerAction.keyboardHandler]
    split
    · split
      · exact ⟨⟨rfl, rfl, rfl, rfl, rfl, trivial⟩, rfl, fun _ => List.mem_cons_self⟩
      · exact ⟨⟨rfl, rfl, rfl, trivial⟩, rfl, fun _ => List.mem_cons_self⟩
    · exact ⟨⟨rfl, rfl, rfl, trivial⟩, rfl, fun _ => List.mem_cons_self⟩
  · exact ⟨⟨rfl, rfl, rfl, trivial⟩, rfl, fun _ => List.mem_cons_self⟩

/-- What holds in every state. -/
structure Inv (m : Devices) : Prop where
  enabled : ∀ k : Fin 16, k ≠ 2 → (m.driver.Deliverable k.val ↔ IsDevice k)
  cascade : 2 ∉ m.pics.requests
  nested : Nested m.control
  serves : Serves m.pics m.unended
  reads : ∀ k ∈ m.unread, needsRead k ∧
    (k ∈ m.pics.requests ∨ ∃ rest, .handler k rest ∈ m.control ∧ .read ∈ rest)

namespace Inv

theorem boot (p : I8259) : Inv (boot p) := by
  refine ⟨fun k hk => ?_, Finset.notMem_empty _, trivial, .nil _,
    fun k hk => absurd hk (Finset.notMem_empty k)⟩
  have hk' := k.isLt
  have hval : (BitVec.ofNat 32 k.val).toNat = k.val := by
    rw [BitVec.toNat_ofNat]
    omega
  have hne : BitVec.ofNat 32 k.val ≠ 2 := by
    intro heq
    rw [heq] at hval
    exact hk (Fin.ext hval.symm)
  have hlast : ∀ k : Fin 16, lastCall bootCalls (BitVec.ofNat 32 k.val) =
      some (.enableIrq (BitVec.ofNat 32 k.val)) ↔ IsDevice k := by decide
  have hiff := (@I8259.Tracks.run bootCalls p (by decide)).deliverable_iff
    (by rw [hval]; exact hk') hne
  rw [hval] at hiff
  exact hiff.trans (hlast k)

theorem request (h : Inv m) (hn : n ≠ 2) : Inv (m.step (.request n)) := by
  refine ⟨h.enabled, ?_, h.nested, h.serves.requests _, fun k hk => ?_⟩
  · rw [step, Finset.mem_insert]
    exact fun hor => hor.elim (fun heq => hn heq.symm) h.cascade
  · rw [step] at hk ⊢
    by_cases heq : k = n
    · subst heq
      split at hk
      · next hneeds => exact ⟨hneeds, .inl (Finset.mem_insert_self _ _)⟩
      · exact ⟨(h.reads _ hk).1, .inl (Finset.mem_insert_self _ _)⟩
    · have hk' : k ∈ m.unread := by
        split at hk
        · exact (Finset.mem_insert.mp hk).resolve_left heq
        · exact hk
      obtain ⟨hneeds, hor⟩ := h.reads k hk'
      exact ⟨hneeds, hor.imp_left fun hreq => Finset.mem_insert_of_mem hreq⟩

theorem interrupt (h : Inv m) (c : Byte) (s : Kernel) (haccepts : m.Accepts n) :
    Inv (m.step (.interrupt n c s)) := by
  obtain ⟨hreq, hen, hfree, -⟩ := haccepts
  have hdevice : IsDevice n := (h.enabled n fun heq => h.cascade (heq ▸ hreq)).mp hen
  obtain ⟨hproper, howes, hreads⟩ := ofLine_spec hdevice c s
  have howed : (Activation.handler n (HandlerAction.ofLine c s n)).owed = some n := if_pos howes
  refine ⟨h.enabled, fun hmem => h.cascade (Finset.mem_of_mem_erase hmem),
    ⟨hdevice, hproper, h.serves.free_iff.mp hfree, h.nested⟩, ?_, fun k hk => ?_⟩
  · rw [step, unended, List.filterMap_cons_some howed]
    exact h.serves.accept hfree
  · obtain ⟨hneeds, hor⟩ := h.reads k hk
    refine ⟨hneeds, ?_⟩
    by_cases heq : k = n
    · subst heq
      exact .inr ⟨_, List.mem_cons_self, hreads hneeds⟩
    · refine hor.imp (fun hmem => Finset.mem_erase.mpr ⟨heq, hmem⟩) ?_
      rintro ⟨rest, hmem, hread⟩
      exact ⟨rest, List.mem_cons_of_mem _ hmem, hread⟩

/-- Something without a `read` ahead is left or entered. -/
theorem reads_of_control {k k' : List Activation} (h : ∀ l rest, .handler l rest ∈ k →
      HandlerAction.read ∈ rest → Activation.handler l rest ∈ k')
    {p : Pair} {l : Fin 16} (hor : l ∈ p.requests ∨ ∃ rest, .handler l rest ∈ k ∧ .read ∈ rest) :
    l ∈ p.requests ∨ ∃ rest, .handler l rest ∈ k' ∧ .read ∈ rest :=
  hor.imp_right fun ⟨rest, hmem, hread⟩ => ⟨rest, h l rest hmem hread, hread⟩

/-- An activation is left that owes nothing and has no `read` ahead. -/
theorem popped (h : Inv m) {a : Activation} {k : List Activation} (hcontrol : m.control = a :: k)
    (howed : a.owed = none) (hread : ∀ l rest, a = .handler l rest → .read ∉ rest)
    (hnested : Nested k) : Inv { m with control := k } := by
  have hserves := h.serves
  rw [unended, hcontrol, List.filterMap_cons_none howed] at hserves
  refine ⟨h.enabled, h.cascade, hnested, hserves, fun l hl => ?_⟩
  refine (h.reads l hl).imp_right (reads_of_control fun l rest hmem hmem' => ?_)
  rw [hcontrol] at hmem
  exact (List.mem_cons.mp hmem).resolve_left fun heq => hread l rest heq.symm hmem'

theorem iret (h : Inv m) {k : List Activation} (hcontrol : m.control = .handler n [] :: k) :
    Inv (m.step .iret) := by
  have hstep : m.step .iret = { m with control := k } := by rw [step, hcontrol]
  have hnested := h.nested
  rw [hcontrol] at hnested
  rw [hstep]
  refine h.popped hcontrol rfl (fun l rest heq => ?_) hnested.2.2.2
  obtain ⟨-, rfl⟩ := Activation.handler.inj heq
  exact List.not_mem_nil

theorem halt (h : Inv m) {k : List Activation} (hcontrol : m.control = .program :: k) :
    Inv (m.step .halt) := by
  have hstep : m.step .halt = { m with control := k } := by rw [step, hcontrol]
  have hnested := h.nested
  rw [hcontrol] at hnested
  rw [hstep]
  refine h.popped hcontrol rfl (fun l rest heq => ?_) hnested.2
  cases heq

/-- A program starts where at most the handler of the clock has been interrupted. -/
theorem start (h : Inv m) (howed : ∀ k ∈ m.unended, k = 8) :
    Inv { m with control := .program :: m.control } := by
  refine ⟨h.enabled, h.cascade, ⟨howed, h.nested⟩, h.serves, fun l hl => ?_⟩
  exact (h.reads l hl).imp_right
    (reads_of_control fun l rest hmem _ => List.mem_cons_of_mem _ hmem)

/-- Around a program, or with nothing going on. -/
theorem owed_atProgram (h : Inv m) (hat : m.AtProgram) : ∀ k ∈ m.unended, k = 8 := by
  have hnested := h.nested
  rw [AtProgram] at hat
  rw [unended]
  cases hcontrol : m.control with
  | nil => exact fun k hk => absurd hk List.not_mem_nil
  | cons a k =>
    rw [hcontrol] at hat hnested
    cases a with
    | program => exact hnested.1
    | handler n rest => exact absurd hat id

section goOn

variable {a : HandlerAction} {rest : List HandlerAction} {k : List Activation}

/-- The innermost handler has done its next action. -/
theorem advanced (h : Inv m) (hcontrol : m.control = .handler n (a :: rest) :: k) {m' : Devices}
    (hdriver : ∀ j, m'.driver.Deliverable j ↔ m.driver.Deliverable j)
    (hcontrol' : m'.control = .handler n rest :: k)
    (hrequests : m'.pics.requests = m.pics.requests)
    (hunread : ∀ l ∈ m'.unread, l ∈ m.unread ∧ (a = .read → l ≠ n))
    (hproper : Proper n rest) (hserves : Serves m'.pics m'.unended) : Inv m' := by
  have hnested := h.nested
  rw [hcontrol] at hnested
  refine ⟨fun j hj => (hdriver j).trans (h.enabled j hj), ?_, ?_, hserves, fun l hl => ?_⟩
  · rw [hrequests]
    exact h.cascade
  · rw [hcontrol']
    exact ⟨hnested.1, hproper, hnested.2.2⟩
  · obtain ⟨hl', hne⟩ := hunread l hl
    obtain ⟨hneeds, hreq | ⟨rest', hmem, hread⟩⟩ := h.reads l hl'
    · exact ⟨hneeds, .inl (hrequests ▸ hreq)⟩
    · refine ⟨hneeds, .inr ?_⟩
      rw [hcontrol] at hmem
      rw [hcontrol']
      rcases List.mem_cons.mp hmem with heq | hmem
      · obtain ⟨rfl, rfl⟩ := Activation.handler.inj heq
        -- the `read` is behind the action, which has been another one
        refine ⟨rest, List.mem_cons_self, (List.mem_cons.mp hread).resolve_left fun heq' => ?_⟩
        exact hne heq'.symm rfl
      · exact ⟨rest', List.mem_cons_of_mem _ hmem, hread⟩

theorem goOn (h : Inv m) (starts : Bool)
    (hcontrol : m.control = .handler n (a :: rest) :: k) : Inv (m.step (.goOn starts)) := by
  have hnested := h.nested
  have hserves := h.serves
  rw [hcontrol] at hnested
  rw [unended, hcontrol] at hserves
  obtain ⟨-, hproper, -, -⟩ := hnested
  have hstep : m.step (.goOn starts) = act starts n { m with control := .handler n rest :: k } a := by
    rw [step, hcontrol]
  rw [hstep]
  cases a with
  | read =>
    refine h.advanced hcontrol (fun _ => Iff.rfl) rfl rfl (fun l hl => ?_) hproper.2 hserves
    obtain ⟨hne, hl'⟩ := Finset.mem_erase.mp hl
    exact ⟨hl', fun _ => hne⟩
  | sendEoi w =>
    obtain ⟨rfl, howes, hrest⟩ := hproper
    have howed' : (Activation.handler n (.sendEoi (BitVec.ofNat 32 n.val) :: rest)).owed = some n :=
      rfl
    rw [List.filterMap_cons_some howed'] at hserves
    obtain ⟨hunread, hcontrol'⟩ :=
      sendEoi_rest { m with control := .handler n rest :: k } (BitVec.ofNat 32 n.val)
    have hpics := sendEoi_pics { m with control := .handler n rest :: k } n
    rw [act]
    refine h.advanced hcontrol (sendEoi_deliverable _ _) hcontrol' ?_ (fun l hl => ?_) hrest ?_
    · rw [hpics]
      rfl
    · exact ⟨hunread ▸ hl, fun heq => absurd heq (by simp)⟩
    · have hended := hserves.ended
      rw [← hpics] at hended
      rw [unended, hcontrol', List.filterMap_cons_none (owed_eq_none howes)]
      exact hended
  | switchTerminal =>
    obtain ⟨rfl, howes, hrest⟩ := hproper
    have hgone : Inv { m with control := .handler 1 rest :: k } :=
      h.advanced hcontrol (fun _ => Iff.rfl) rfl rfl
        (fun l hl => ⟨hl, fun heq => absurd heq (by simp)⟩) hrest hserves
    rw [act]
    split
    · refine hgone.start fun l hl => ?_
      rw [unended, List.filterMap_cons_none (owed_eq_none howes)] at hl
      -- the handler of the keyboard has interrupted `l`
      obtain ⟨-, -, houter, hnested'⟩ := hgone.nested
      have hlevel := houter l hl
      obtain rfl | rfl | rfl := isDevice_of_owed hnested' hl
      · exact absurd hlevel (by decide)
      · exact absurd hlevel (by decide)
      · rfl
    · exact hgone

end goOn

theorem step (h : Inv m) {e : DeviceEvent} (hallowed : m.Allowed e) : Inv (m.step e) := by
  cases e with
  | request n => exact h.request hallowed.1
  | interrupt n c s => exact h.interrupt c s hallowed
  | goOn starts =>
    obtain ⟨n, a, rest, k, hcontrol⟩ := hallowed
    exact h.goOn starts hcontrol
  | iret =>
    obtain ⟨n, k, hcontrol⟩ := hallowed
    exact h.iret hcontrol
  | execute => exact h.start (h.owed_atProgram hallowed)
  | halt =>
    obtain ⟨k, hcontrol⟩ := hallowed
    exact h.halt hcontrol

theorem run (p : I8259) {es : List DeviceEvent}
    (h : Along Devices.step Allowed (Devices.boot p) es) :
    Inv (es.foldl Devices.step (Devices.boot p)) :=
  h.invariant (fun _ _ hinv hallowed => hinv.step hallowed) (boot p)

/-- The interrupts that have not been ended, the innermost first. -/
theorem unended_sublist (h : Inv m) : m.unended.Sublist [0, 1, 8] := by
  have hdevice : ∀ n ∈ m.unended, IsDevice n := fun n hn => isDevice_of_owed h.nested hn
  have hlt : ∀ n k : Fin 16, IsDevice n → IsDevice k → level n < level k → n < k := by decide
  have hsorted : m.unended.Pairwise (· < ·) :=
    (List.pairwise_map.mp h.serves.nested).imp_of_mem fun hn hk =>
      hlt _ _ (hdevice _ hn) (hdevice _ hk)
  refine List.sublist_of_subperm_of_pairwise (hsorted.nodup.subperm fun n hn => ?_) hsorted
    (by decide)
  obtain rfl | rfl | rfl := hdevice n hn <;> decide

/-- The clock is in service as long as its handler has not ended the interrupt. -/
theorem free_iff (h : Inv m) (hat : m.AtProgram) :
    m.pics.Free 0 ∧ m.pics.Free 1 ∧ (m.pics.Free 8 ↔ m.unended = []) := by
  have howed := h.owed_atProgram hat
  have hlow : ∀ n : Fin 16, level n < 2 → m.pics.Free n := fun n hn => by
    refine h.serves.free_iff.mpr fun k hk => ?_
    rw [howed k hk]
    exact hn
  refine ⟨hlow 0 (by decide), hlow 1 (by decide), ?_⟩
  rw [h.serves.free_iff]
  constructor
  · intro hfree
    refine List.eq_nil_iff_forall_not_mem.mpr fun k hk => ?_
    have hlt := hfree k hk
    rw [howed k hk] at hlt
    exact absurd hlt (lt_irrefl _)
  · intro hnil k hk
    rw [hnil] at hk
    exact absurd hk List.not_mem_nil

/-- Which request is passed on. -/
theorem accepts_iff (h : Inv m) (hn : IsDevice n) :
    m.Accepts n ↔ n ∈ m.pics.requests ∧ m.pics.Free n ∧
      ∀ k, IsDevice k → k ∈ m.pics.requests → m.pics.Free k → n ≤ k := by
  have hne : ∀ k : Fin 16, IsDevice k → k ≠ 2 := by decide
  have hrank : ∀ n k : Fin 16, IsDevice n → IsDevice k → (rank n ≤ rank k ↔ n ≤ k) := by decide
  constructor
  · rintro ⟨hreq, -, hfree, hfirst⟩
    refine ⟨hreq, hfree, fun k hk hk' hk'' => (hrank n k hn hk).mp ?_⟩
    exact hfirst k hk' ((h.enabled k (hne k hk)).mpr hk) hk''
  · rintro ⟨hreq, hfree, hfirst⟩
    refine ⟨hreq, (h.enabled n (hne n hn)).mpr hn, hfree, fun k hk hk' hk'' => ?_⟩
    have hdevice : IsDevice k := (h.enabled k fun heq => h.cascade (heq ▸ hk)).mp hk'
    exact (hrank n k hn hdevice).mpr (hfirst k hdevice hk hk'')

theorem waits (h : Inv m) (hn : n ∈ m.unread) : n ∈ m.pics.requests ∨ n ∈ m.unended :=
  (h.reads n hn).2.imp_right fun ⟨_, hmem, hread⟩ => mem_owed_of_read h.nested hmem hread

/-- Only the handler of the clock can be around a program. -/
theorem unended_atProgram (h : Inv m) (hat : m.AtProgram) : m.unended = [] ∨ m.unended = [8] := by
  have howed := h.owed_atProgram hat
  have hsub := h.unended_sublist
  cases hlist : m.unended with
  | nil => exact .inl rfl
  | cons k ks =>
    rw [hlist] at howed hsub
    obtain rfl := howed k List.mem_cons_self
    have hks : ks = [] := by
      refine List.eq_nil_iff_forall_not_mem.mpr fun l hl => ?_
      obtain rfl := howed l (List.mem_cons_of_mem _ hl)
      have hnodup := hsub.nodup (by decide)
      exact (List.nodup_cons.mp hnodup).1 hl
    exact .inr (by rw [hks])

theorem accepts_timer (h : Inv m) (hat : m.AtProgram) :
    m.Accepts 0 ↔ 0 ∈ m.pics.requests := by
  obtain ⟨hfree, -, -⟩ := h.free_iff hat
  rw [h.accepts_iff (by decide)]
  exact ⟨fun hacc => hacc.1, fun hreq => ⟨hreq, hfree, fun k _ _ _ => Fin.zero_le k⟩⟩

theorem accepts_keyboard (h : Inv m) (hat : m.AtProgram) :
    m.Accepts 1 ↔ 1 ∈ m.pics.requests ∧ 0 ∉ m.pics.requests := by
  obtain ⟨hfree0, hfree, -⟩ := h.free_iff hat
  rw [h.accepts_iff (by decide)]
  constructor
  · rintro ⟨hreq, -, hfirst⟩
    exact ⟨hreq, fun hreq0 => absurd (hfirst 0 (by decide) hreq0 hfree0) (by decide)⟩
  · rintro ⟨hreq, hreq0⟩
    refine ⟨hreq, hfree, fun k hk hk' _ => ?_⟩
    obtain rfl | rfl | rfl := hk
    · exact absurd hk' hreq0
    · exact le_refl _
    · decide

theorem accepts_clock (h : Inv m) (hat : m.AtProgram) :
    m.Accepts 8 ↔ m.unended = [] ∧
      8 ∈ m.pics.requests ∧ 0 ∉ m.pics.requests ∧ 1 ∉ m.pics.requests := by
  obtain ⟨hfree0, hfree1, hfree⟩ := h.free_iff hat
  rw [h.accepts_iff (by decide), hfree]
  constructor
  · rintro ⟨hreq, hnil, hfirst⟩
    exact ⟨hnil, hreq, fun hreq0 => absurd (hfirst 0 (by decide) hreq0 hfree0) (by decide),
      fun hreq1 => absurd (hfirst 1 (by decide) hreq1 hfree1) (by decide)⟩
  · rintro ⟨hnil, hreq, hreq0, hreq1⟩
    refine ⟨hreq, hnil, fun k hk hk' _ => ?_⟩
    obtain rfl | rfl | rfl := hk
    · exact absurd hk' hreq0
    · exact absurd hk' hreq1
    · exact le_refl _

end Inv

/-! ## Over runs -/

namespace Sample

/-- The kernel with Alt down. -/
def altDown : Kernel :=
  { Os391.Sample.atBoot with keyboard := { Os391.Sample.atBoot.keyboard with alt := 1 } }

/-- F2 interrupts the handler of the clock before it has done anything, and `switch_terminal`
starts a shell. -/
def shellInClock : List DeviceEvent :=
  [.request 8, .interrupt 8 0 altDown, .request 1, .interrupt 1 0x3C altDown,
    .goOn false, .goOn false, .goOn true]

theorem shellInClock_allowed : Along step Allowed (boot ⟨0, 0, []⟩) shellInClock := by
  have hclock : Allowed (boot ⟨0, 0, []⟩) (.request 8) := ⟨by decide, by decide⟩
  have hinv := (Inv.boot ⟨0, 0, []⟩).step hclock
  have hentered : Allowed ((boot ⟨0, 0, []⟩).step (.request 8)) (.interrupt 8 0 altDown) :=
    (hinv.accepts_iff (by decide)).mpr (by decide)
  have hinv' := hinv.step hentered
  have hkey : Allowed (((boot ⟨0, 0, []⟩).step (.request 8)).step (.interrupt 8 0 altDown))
      (.request 1) := ⟨by decide, by decide⟩
  exact ⟨hclock, hentered, hkey, ((hinv'.step hkey).accepts_iff (by decide)).mpr (by decide),
    ⟨_, _, _, _, rfl⟩, ⟨_, _, _, _, rfl⟩, ⟨_, _, _, _, rfl⟩, trivial⟩

end Sample

/-- In every run in which each `halt` is one of the innermost program, the lines in service are
those of the handlers that have not sent their end of interrupt; these handlers are at most the
one of the timer inside the one of the keyboard inside the one of the clock. A device that waits
for a `read` has a request that is still to be accepted, or its handler has not ended the
interrupt. -/
theorem inService_run (p : I8259) {es : List DeviceEvent} (h : Along step Allowed (boot p) es) :
    let m := es.foldl step (boot p)
    (∀ k, k ∈ m.pics.master ↔ ∃ n ∈ m.unended, level n = k) ∧
      (∀ k, k ∈ m.pics.slave ↔ ∃ n ∈ m.unended, 8 ≤ n ∧ own n = k) ∧
      m.unended.Sublist [0, 1, 8] ∧ ∀ n ∈ m.unread, n ∈ m.pics.requests ∨ n ∈ m.unended := by
  have hinv := Inv.run p h
  exact ⟨hinv.serves.master, hinv.serves.slave, hinv.unended_sublist, fun n => hinv.waits⟩

/-- F2 in the handler of the clock. -/
theorem inService_run_sample :
    let m := Sample.shellInClock.foldl step (boot ⟨0, 0, []⟩)
    m.control = [.program, .handler 1 [], .handler 8 [.read, .sendEoi 8]] ∧
      ∀ k, k ∈ m.pics.master ↔ ∃ n ∈ m.unended, level n = k :=
  ⟨rfl, (inService_run ⟨0, 0, []⟩ Sample.shellInClock_allowed).1⟩

/-- In every run in which each `halt` is one of the innermost program, whenever a program is
running: the timer and the keyboard get through, and a keyboard with a scancode has asked for
it. The clock gets through unless its own handler has been interrupted before the end of the
interrupt, and is all that can be in service then. -/
theorem programs_interrupted (p : I8259) {es : List DeviceEvent}
    (h : Along step Allowed (boot p) es) (hat : (es.foldl step (boot p)).AtProgram) :
    let m := es.foldl step (boot p)
    (m.Accepts 0 ↔ 0 ∈ m.pics.requests) ∧
      (m.Accepts 1 ↔ 1 ∈ m.pics.requests ∧ 0 ∉ m.pics.requests) ∧
      (1 ∈ m.unread → 1 ∈ m.pics.requests) ∧
      (m.Accepts 8 ↔ m.unended = [] ∧
        8 ∈ m.pics.requests ∧ 0 ∉ m.pics.requests ∧ 1 ∉ m.pics.requests) ∧
      (m.unended = [] ∨ m.unended = [8]) := by
  have hinv := Inv.run p h
  have howed := hinv.owed_atProgram hat
  exact ⟨hinv.accepts_timer hat, hinv.accepts_keyboard hat,
    fun hunread => (hinv.waits hunread).resolve_right fun hmem => absurd (howed 1 hmem) (by decide),
    hinv.accepts_clock hat, hinv.unended_atProgram hat⟩

/-- The shell runs, and the line of the clock is still in service. -/
theorem programs_interrupted_sample :
    let m := Sample.shellInClock.foldl step (boot ⟨0, 0, []⟩)
    m.unended = [8] ∧ (m.Accepts 8 ↔ m.unended = [] ∧
      8 ∈ m.pics.requests ∧ 0 ∉ m.pics.requests ∧ 1 ∉ m.pics.requests) :=
  ⟨by decide, (programs_interrupted ⟨0, 0, []⟩ Sample.shellInClock_allowed trivial).2.2.2.1⟩

end Devices

end Os391
