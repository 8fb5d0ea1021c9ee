import Mathlib.Data.List.Nodup
import Os391.Lib.Copying
import Os391.Lib.X86

/-!
# The interrupt table

`init_idt` of `idt.c` on a table that is all zero at first. `gate_of_mem` and `gate_absent`
say what the processor makes of the entries: which vectors there are, where they lead and
who may use them. User programs enter the kernel through vector 0x80 and no other:
`int_user`.
-/

namespace Os391

open Bytes X86 Copying

/-- `idt_desc_t`. -/
structure IdtDesc : Type where
  offset15_00 : BitVec 16
  segSelector : BitVec 16
  reserved4 : Byte
  reserved3 : Bool
  reserved2 : Bool
  reserved1 : Bool
  size : Bool
  reserved0 : Bool
  dpl : BitVec 2
  present : Bool
  offset31_16 : BitVec 16

/-- The routines of `exceptionASM.S` that are in the table, and `system_call`. -/
inductive Stub : Type where
  | divide | debugException | nmi | breakpoint | overflow | boundRange | invalidOp
  | deviceNotAvailable | doubleFault | coprocessorSegment | invalidTss | segmentNotPresent
  | stackSegment | generalProtection | page | fpuFloatingPointError | alignmentCheck
  | machineCheck | simdFloatingPointException
  | rtcException | keyboardException | systemCall | pitException
  deriving DecidableEq

namespace InterruptTable

/-- `SET_IDT_ENTRY`. -/
def setIdtEntry (str : IdtDesc) (handler : Word) : IdtDesc :=
  { str with
    offset31_16 := ((handler &&& 0xFFFF0000) >>> 16).setWidth 16
    offset15_00 := (handler &&& 0xFFFF).setWidth 16 }

/-- The assignments of the first loop. -/
def exceptionDesc (str : IdtDesc) : IdtDesc :=
  { str with
    segSelector := 0x10
    reserved4 := 0
    reserved3 := false
    reserved2 := true
    reserved1 := true
    size := true
    reserved0 := false
    dpl := 0
    present := true }

/-- Those of the second. -/
def otherDesc (i : ℕ) (str : IdtDesc) : IdtDesc :=
  let str := { str with
    segSelector := 0x10
    reserved4 := 0
    reserved3 := true
    reserved2 := true
    reserved1 := true
    size := true
    reserved0 := false
    dpl := 0
    present := false }
  if i = 0x80 then { str with dpl := 3, present := true }
  else if i = 40 ∨ i = 33 ∨ i = 32 then { str with present := true }
  else str

/-- The calls of `SET_IDT_ENTRY`. -/
def handlers : List (ℕ × Stub) :=
  [(0, .divide), (1, .debugException), (2, .nmi), (3, .breakpoint), (4, .overflow),
    (5, .boundRange), (6, .invalidOp), (7, .deviceNotAvailable), (8, .doubleFault),
    (9, .coprocessorSegment), (10, .invalidTss), (11, .segmentNotPresent), (12, .stackSegment),
    (13, .generalProtection), (14, .page), (16, .fpuFloatingPointError), (17, .alignmentCheck),
    (18, .machineCheck), (19, .simdFloatingPointException), (40, .rtcException),
    (33, .keyboardException), (0x80, .systemCall), (32, .pitException)]

/-- `init_idt`. -/
def initIdt (addr : Stub → Word) (idt : ℕ → IdtDesc) : ℕ → IdtDesc :=
  let idt := (List.range 20).foldl
    (fun idt i => if i = 15 then idt else Function.update idt i (exceptionDesc (idt i))) idt
  let idt := (List.range' 32 224).foldl
    (fun idt i => Function.update idt i (otherDesc i (idt i))) idt
  handlers.foldl (fun idt h => Function.update idt h.1 (setIdtEntry (idt h.1) (addr h.2))) idt

/-- The table before, in zero-initialised memory. -/
def zeroIdt : ℕ → IdtDesc :=
  fun _ => ⟨0, 0, 0, false, false, false, false, false, 0, false, 0⟩

/-- An entry as the processor reads it. -/
def gate (d : IdtDesc) : Gate where
  offset := d.offset31_16 ++ d.offset15_00
  selector := d.segSelector.setWidth 32
  trap := d.reserved3
  dpl := d.dpl.toNat
  present := d.present

/-- The table that the processor works with. -/
def table (addr : Stub → Word) : ℕ → Gate := fun n => gate (initIdt addr zeroIdt n)

/-- A program at the user level, in an empty memory. -/
def Sample.program : Cpu where
  regs r := if r = .esp then 0x83FFF00 else if r = .eax then 11 else 0
  eip := 0x8048100
  eflags := 0x200
  cs := 0x23
  ss := 0x2B
  mem := fun _ => 0

/-! ## What is in it -/

theorem offset_setIdtEntry (d : IdtDesc) (handler : Word) :
    (gate (setIdtEntry d handler)).offset = handler := by
  have hlow : ∀ i < 16, (0xFFFF : Word).getLsbD i = true := by decide
  have hhigh : ∀ i < 16, (0xFFFF0000 : Word).getLsbD (16 + i) = true := by decide
  apply BitVec.eq_of_getLsbD_eq
  intro i hi
  simp only [gate, setIdtEntry, BitVec.getLsbD_append, BitVec.getLsbD_setWidth,
    BitVec.getLsbD_ushiftRight, BitVec.getLsbD_and]
  split
  · next hi' =>
    rw [hlow i hi']
    simp [hi']
  · next hi' =>
    have hsum : 16 + (i - 16) = i := by omega
    rw [hhigh (i - 16) (by omega), hsum]
    simp [show i - 16 < 16 by omega]

/-- A loop over some of the vectors. -/
theorem foldl_descs (g : ℕ → IdtDesc → IdtDesc) {xs : List ℕ} (hdiff : xs.Nodup)
    (idt : ℕ → IdtDesc) (n : ℕ) :
    xs.foldl (fun idt i => Function.update idt i (g i (idt i))) idt n =
      if n ∈ xs then g n (idt n) else idt n := by
  have hloop := foldl_update id g (by rwa [List.map_id]) idt n
  refine hloop.trans ?_
  rcases hfind : xs.find? fun x => decide (id x = n) with _ | x
  · have hnot : n ∉ xs := fun hmem => List.find?_eq_none.mp hfind n hmem (decide_eq_true rfl)
    rw [if_neg hnot]
    rfl
  · have hx := List.find?_some hfind
    obtain rfl : x = n := of_decide_eq_true hx
    rw [if_pos (List.mem_of_find?_eq_some hfind)]
    rfl

/-- The entry for a vector after both loops. -/
theorem initIdt_apply (addr : Stub → Word) (idt : ℕ → IdtDesc) (n : ℕ) :
    initIdt addr idt n =
      let d := if n < 20 ∧ n ≠ 15 then exceptionDesc (idt n)
        else if 32 ≤ n ∧ n < 256 then otherDesc n (idt n) else idt n
      (handlers.find? fun h => decide (h.1 = n)).elim d fun h => setIdtEntry d (addr h.2) := by
  have hskip : ∀ idt : ℕ → IdtDesc, (List.range 20).foldl
      (fun idt i => if i = 15 then idt else Function.update idt i (exceptionDesc (idt i))) idt =
      ((List.range 20).filter (· ≠ 15)).foldl
        (fun idt i => Function.update idt i (exceptionDesc (idt i))) idt := by
    intro idt
    rw [List.foldl_filter]
    simp
  have hloops : ∀ idt : ℕ → IdtDesc, (List.range' 32 224).foldl
      (fun idt i => Function.update idt i (otherDesc i (idt i)))
        (((List.range 20).filter (· ≠ 15)).foldl
          (fun idt i => Function.update idt i (exceptionDesc (idt i))) idt) n =
      if n < 20 ∧ n ≠ 15 then exceptionDesc (idt n)
        else if 32 ≤ n ∧ n < 256 then otherDesc n (idt n) else idt n := by
    intro idt
    rw [foldl_descs otherDesc List.nodup_range',
      foldl_descs (fun _ => exceptionDesc) (List.nodup_range.filter _)]
    simp only [List.mem_range'_1, List.mem_filter, List.mem_range, decide_eq_true_eq]
    by_cases hlow : n < 20
    · rw [if_neg (by omega)]
      simp only [hlow, true_and]
      split
      · rfl
      · rw [if_neg (by omega)]
    · simp only [hlow, false_and, if_false]
  rw [initIdt, hskip]
  dsimp only
  rw [foldl_update Prod.fst (fun h d => setIdtEntry d (addr h.2)) (by decide), hloops]

/-- A vector with a routine: the gate leads to it, and only the one for system calls is open
to user programs. Exceptions disable interrupts, the others do not. -/
theorem gate_of_mem (addr : Stub → Word) {n : ℕ} {s : Stub} (h : (n, s) ∈ handlers) :
    table addr n = ⟨addr s, 0x10, decide (32 ≤ n), if n = 0x80 then 3 else 0, true⟩ := by
  have hall : ∀ x ∈ handlers, (handlers.find? fun h => decide (h.1 = x.1)) = some x ∧
      (x.1 < 20 ∧ x.1 ≠ 15 ∨ x.1 = 32 ∨ x.1 = 33 ∨ x.1 = 40 ∨ x.1 = 0x80) := by decide
  obtain ⟨hfind, hcase⟩ := hall (n, s) h
  have hentry := initIdt_apply addr zeroIdt n
  dsimp only at hentry hfind hcase
  rw [hfind, Option.elim_some] at hentry
  have hoffset : (table addr n).offset = addr s := by
    rw [table, hentry, offset_setIdtEntry]
  have hrest : table addr n = ⟨(table addr n).offset, 0x10, decide (32 ≤ n),
      if n = 0x80 then 3 else 0, true⟩ := by
    rw [table, hentry]
    rcases hcase with hlow | rfl | rfl | rfl | rfl
    · have hne : n ≠ 0x80 := by omega
      have hge : ¬ 32 ≤ n := by omega
      simp [hlow, exceptionDesc, setIdtEntry, gate, hne, hge]
    all_goals simp [otherDesc, setIdtEntry, gate]
  rw [hrest, hoffset]

/-- The other vectors have no gate, and none is open to user programs. -/
theorem gate_absent (addr : Stub → Word) {n : ℕ} (h : ∀ s, (n, s) ∉ handlers) (hn : n < 256) :
    (table addr n).present = false ∧ (table addr n).dpl = 0 := by
  have hfind : (handlers.find? fun h => decide (h.1 = n)) = none := by
    refine List.find?_eq_none.mpr fun x hx heq => h x.2 ?_
    rwa [← of_decide_eq_true heq]
  have hentry := initIdt_apply addr zeroIdt n
  dsimp only at hentry
  rw [hfind, Option.elim_none] at hentry
  have hlow : ¬ (n < 20 ∧ n ≠ 15) := by
    intro hlow
    have hall : ∀ m < 20, m ≠ 15 → ∃ x ∈ handlers, x.1 = m := by decide
    obtain ⟨x, hx, rfl⟩ := hall n hlow.1 hlow.2
    exact h x.2 hx
  have hdevices : n ≠ 0x80 ∧ ¬ (n = 40 ∨ n = 33 ∨ n = 32) := by
    refine ⟨?_, ?_⟩
    · rintro rfl
      exact h .systemCall (by decide)
    · rintro (rfl | rfl | rfl)
      · exact h .rtcException (by decide)
      · exact h .keyboardException (by decide)
      · exact h .pitException (by decide)
  rw [table, hentry, if_neg hlow]
  split
  · simp [otherDesc, hdevices.1, hdevices.2, gate]
  · simp [zeroIdt, gate]

/-- The gate of `system_call`. -/
def systemCallGate (addr : Stub → Word) : Gate := ⟨addr .systemCall, 0x10, true, 3, true⟩

/-- It leads to the level of the kernel. -/
theorem level_systemCallGate (addr : Stub → Word) :
    (systemCallGate addr).selector.toNat % 4 = 0 := by
  simp [systemCallGate]

theorem table_systemCall (addr : Stub → Word) : table addr 0x80 = systemCallGate addr :=
  gate_of_mem addr (by decide : (0x80, Stub.systemCall) ∈ handlers)

/-- System calls are open to every level. -/
theorem int_systemCall (addr : Stub → Word) (c : Cpu) (t : TaskState) (next : Word) :
    c.int (table addr) t 0x80 next = .ok (c.enter t (systemCallGate addr) next) := by
  have hcpl : c.cpl < 4 := Nat.mod_lt _ (by decide)
  rw [Cpu.int, table_systemCall]
  exact (if_neg (Nat.not_lt_of_le (Nat.le_of_lt_succ hcpl))).trans (if_pos rfl)

/-- `int n` in a user program: vector 0x80 leads to `system_call`, any other raises a general
protection exception. -/
theorem int_user (addr : Stub → Word) {c : Cpu} (hc : c.cpl = 3) (t : TaskState) {n : ℕ} (hn : n < 256)
    (next : Word) : c.int (table addr) t n next =
      if n = 0x80 then .ok (c.enter t (systemCallGate addr) next) else .error 13 := by
  by_cases hcall : n = 0x80
  · subst hcall
    rw [if_pos rfl, int_systemCall]
  · have hdpl : (table addr n).dpl = 0 := by
      by_cases hmem : ∃ s, (n, s) ∈ handlers
      · obtain ⟨s, hs⟩ := hmem
        rw [gate_of_mem addr hs]
        exact if_neg hcall
      · exact (gate_absent addr (not_exists.mp hmem) hn).2
    rw [Cpu.int, hc, hdpl, if_pos (by decide), if_neg hcall]

theorem int_user_sample :
    Sample.program.int (table fun _ => 0) ⟨0x7FFFFC, 0x18⟩ 0x21 0x8048102 = .error 13 :=
  (int_user _ (by decide) _ (by decide) _).trans (if_neg (by decide))

end InterruptTable

end Os391
