import Os391.Console
import Os391.Lib.Copying
import Os391.Lib.Runs
import Mathlib.Algebra.Order.Ring.Int

/-!
# The text page and the cursor

The 2000 cells of the screen seen as characters and attributes, what the loops of
`scrolldown`, `clear` and `clearscreen` leave in them, and which cells each call
stores to. The cursor stays in its range, and the stores on the page, exactly as
long as no newline is printed below the last row and nothing is erased at the
start of a row.
-/

namespace Os391

open Bytes Copying Runs

namespace Console

/-! ## Cells -/

/-- The character in a cell. -/
def text (c : Console) (i : Fin 2000) : Byte := c.mem (cellAddr i.val)

/-- The attribute of a cell. -/
def attr (c : Console) (i : Fin 2000) : Byte := c.mem (cellAddr i.val + 1)

/-- Character bytes lie at even addresses, attribute bytes at odd ones. -/
theorem cellAddr_toNat_mod (i : Int) : (cellAddr i).toNat % 2 = 0 := by
  rw [cellAddr, BitVec.toNat_add, BitVec.toNat_ofInt]
  have hbase : (0xB8000 : Word).toNat = 0xB8000 := rfl
  rw [hbase]
  omega

theorem toNat_cellAddr (i : Fin 2000) : (cellAddr i.val).toNat = 0xB8000 + 2 * i.val := by
  have hi := i.isLt
  rw [cellAddr, BitVec.toNat_add, BitVec.toNat_ofInt]
  have hbase : (0xB8000 : Word).toNat = 0xB8000 := rfl
  rw [hbase]
  omega

theorem toNat_cellAddr_succ (i : Int) : (cellAddr i + 1).toNat = (cellAddr i).toNat + 1 := by
  have heven := cellAddr_toNat_mod i
  have hlt := (cellAddr i).isLt
  have hone : (1 : Word).toNat = 1 := rfl
  rw [BitVec.toNat_add, hone]
  omega

theorem cellAddr_ne_succ (i j : Int) : cellAddr i ≠ cellAddr j + 1 := by
  intro heq
  have hi := cellAddr_toNat_mod i
  have hj := cellAddr_toNat_mod j
  rw [heq, toNat_cellAddr_succ] at hi
  omega

theorem cellAddr_inj {i j : Fin 2000} : cellAddr i.val = cellAddr j.val ↔ i = j := by
  constructor
  · intro heq
    have hnat := congrArg BitVec.toNat heq
    rw [toNat_cellAddr, toNat_cellAddr] at hnat
    exact Fin.ext (by omega)
  · rintro rfl
    rfl

section setCell

variable (c : Console) (i : Int) (ch : Byte)

@[simp] theorem setCell_screenX : (c.setCell i ch).screenX = c.screenX := rfl

@[simp] theorem setCell_screenY : (c.setCell i ch).screenY = c.screenY := rfl

/-- The two bytes of a cell. -/
theorem setCell_mem (a : Word) : (c.setCell i ch).mem a =
    if a = cellAddr i + 1 then attrib else if a = cellAddr i then ch else c.mem a := by
  rw [setCell, poke_mem, Function.update_apply, poke_mem, Function.update_apply]

theorem setCell_text (i j : Fin 2000) :
    (c.setCell i.val ch).text j = if j = i then ch else c.text j := by
  rw [text, setCell_mem, if_neg (cellAddr_ne_succ _ _), text]
  simp only [cellAddr_inj]

theorem setCell_attr (i j : Fin 2000) :
    (c.setCell i.val ch).attr j = if j = i then attrib else c.attr j := by
  rw [attr, setCell_mem, if_neg (Ne.symm (cellAddr_ne_succ _ _)), attr]
  have hsucc : cellAddr j.val + 1 = cellAddr i.val + 1 ↔ j = i := by
    rw [← cellAddr_inj]
    exact BitVec.add_left_inj 1
  simp only [hsucc]

end setCell

/-! ## Loops over the cells -/

/-- The turn of a loop that stores `v k c` in cell `k`. -/
def cellStep (v : ℕ → Console → Byte) (c : Console) (k : ℕ) : Console := c.setCell k (v k c)

section loops

variable {v : ℕ → Console → Byte} (c : Console)

/-- The number of a cell, as a cell. -/
theorem ofNat_val {k : ℕ} (hk : k < 2000) : (Fin.ofNat 2000 k).val = k := Nat.mod_eq_of_lt hk

theorem ofNat_ne {j k : ℕ} (hj : j < 2000) (hk : k < 2000) (h : j ≠ k) :
    Fin.ofNat 2000 j ≠ Fin.ofNat 2000 k := by
  intro heq
  have hval := congrArg Fin.val heq
  rw [ofNat_val hj, ofNat_val hk] at hval
  exact h hval

theorem stores_text (v : ℕ → Console → Byte) :
    StoresAt text (cellStep v) (Fin.ofNat 2000) v 2000 := by
  have hstep : ∀ c k, k < 2000 → ∀ i, (cellStep v c k).text i =
      if i = Fin.ofNat 2000 k then v k c else c.text i := by
    intro c k hk i
    have hcell := setCell_text c (v k c) (Fin.ofNat 2000 k) i
    rwa [ofNat_val hk] at hcell
  exact ⟨fun c k hk => by rw [hstep c k hk, if_pos rfl],
    fun c k hk i hi => by rw [hstep c k hk, if_neg hi]⟩

theorem stores_attr (v : ℕ → Console → Byte) :
    StoresAt attr (cellStep v) (Fin.ofNat 2000) (fun _ _ => attrib) 2000 := by
  have hstep : ∀ c k, k < 2000 → ∀ i, (cellStep v c k).attr i =
      if i = Fin.ofNat 2000 k then attrib else c.attr i := by
    intro c k hk i
    have hcell := setCell_attr c (v k c) (Fin.ofNat 2000 k) i
    rwa [ofNat_val hk] at hcell
  exact ⟨fun c k hk => by rw [hstep c k hk, if_pos rfl],
    fun c k hk i hi => by rw [hstep c k hk, if_neg hi]⟩

theorem loop_cursor (n : ℕ) : (loop (cellStep v) n c).screenX = c.screenX ∧
    (loop (cellStep v) n c).screenY = c.screenY := by
  refine loop_induction (P := fun d : Console => d.screenX = c.screenX ∧ d.screenY = c.screenY)
    (fun d k _ hd => ?_) ⟨rfl, rfl⟩
  exact hd

/-- The loop over the whole page writes the attribute everywhere. -/
theorem loop_attr (i : Fin 2000) : (loop (cellStep v) 2000 c).attr i = attrib := by
  have hself := (stores_attr v).loop_self (s := c)
    (fun j k hjk hk => ofNat_ne (hjk.trans hk) hk (Nat.ne_of_lt hjk)) (fun _ _ _ _ => rfl) i.isLt
  have hi : Fin.ofNat 2000 i.val = i := Fin.ext (ofNat_val i.isLt)
  rw [hi] at hself
  exact hself

/-- It leaves in each cell what is stored there in the original state, if what is stored
does not depend on the cells before. -/
theorem loop_text (hsrc : ∀ k < 2000, ∀ d : Console,
    (∀ i : Fin 2000, k ≤ i.val → d.text i = c.text i) → v k d = v k c) (i : Fin 2000) :
    (loop (cellStep v) 2000 c).text i = v i.val c := by
  have hself := (stores_text v).loop_self (s := c)
    (fun j k hjk hk => ofNat_ne (hjk.trans hk) hk (Nat.ne_of_lt hjk)) ?_ i.isLt
  · have hi : Fin.ofNat 2000 i.val = i := Fin.ext (ofNat_val i.isLt)
    rw [hi] at hself
    exact hself
  · intro k hk d hd
    refine hsrc k hk d fun i hi => hd i fun j hj heq => ?_
    rw [heq, ofNat_val (hj.trans hk)] at hi
    omega

/-- Nothing outside the cells changes. -/
theorem loop_mem_of_ne {n : ℕ} {a : Word}
    (h : ∀ k < n, a ≠ cellAddr (k : ℕ) ∧ a ≠ cellAddr (k : ℕ) + 1) :
    (loop (cellStep v) n c).mem a = c.mem a := by
  refine loop_induction (P := fun d : Console => d.mem a = c.mem a) (fun d k hk hd => ?_) rfl
  rw [cellStep, setCell_mem, if_neg (h k hk).2, if_neg (h k hk).1]
  exact hd

end loops

/-- What `scrolldown` stores in cell `k`. -/
def scrolled (k : ℕ) (c : Console) : Byte := if k / 80 = 24 then 0 else c.mem (cellAddr (k + 80))

theorem foldl_scrollCell (c : Console) :
    (List.range 2000).foldl scrollCell c = loop (cellStep scrolled) 2000 c := by
  have hstep : scrollCell = cellStep scrolled := by
    funext c k
    rw [scrollCell, cellStep, scrolled]
    split <;> rfl
  rw [hstep, loop]

/-- On the last row the screen moves up. -/
theorem scrolldown_last {c : Console} (hy : c.screenY = 24) :
    c.scrolldown = (1, { loop (cellStep scrolled) 2000 c with screenX := 0 }) := by
  rw [scrolldown, if_neg (fun h => h hy), foldl_scrollCell]

theorem scrolldown_above {c : Console} (hy : c.screenY ≠ 24) : c.scrolldown = (0, c) := by
  rw [scrolldown, if_pos hy]

theorem clearscreen_eq (c : Console) : c.clearscreen =
    { loop (cellStep fun _ _ => 0) 2000 c with screenX := 0, screenY := 0 } := by
  rw [clearscreen, loop]
  rfl

/-- `scrolldown` moves every row up and blanks the last one. -/
theorem loop_scrolled_text (c : Console) (i : Fin 2000) :
    (loop (cellStep scrolled) 2000 c).text i =
      if h : i.val < 1920 then c.text ⟨i.val + 80, by omega⟩ else 0 := by
  rw [loop_text c]
  · have hi := i.isLt
    rw [scrolled]
    split
    · rw [dif_neg (by omega)]
    · rw [dif_pos (by omega)]
      rfl
  · intro k hk d hd
    rw [scrolled, scrolled]
    split
    · rfl
    · exact hd ⟨k + 80, by omega⟩ (Nat.le_add_right k 80)

/-! ## The cursor -/

/-- The cursor is on the screen, or at the start of the row below it. -/
structure CursorInRange (c : Console) : Prop where
  x_nonneg : 0 ≤ c.screenX
  x_lt : c.screenX < 80
  y_nonneg : 0 ≤ c.screenY
  y_le : c.screenY ≤ 25

/-- A column of the screen does not carry into the next row. -/
theorem row_eq {x y : Int} (hx₀ : 0 ≤ x) (hx : x < 80) (hy₀ : 0 ≤ y) (hy : y < 25) :
    (y + x.tdiv 80).tmod 25 = y := by
  rw [Int.tdiv_eq_ediv_of_nonneg hx₀, Int.ediv_eq_zero_of_lt hx₀ hx, Int.add_zero,
    Int.tmod_eq_emod_of_nonneg hy₀, Int.emod_eq_of_lt hy₀ hy]

/-- The column behind the last one is the first one. -/
theorem col_eq {x : Int} (hx₀ : 0 ≤ x) (hx : x < 80) :
    (x + 1).tmod 80 = if x = 79 then 0 else x + 1 := by
  rw [Int.tmod_eq_emod_of_nonneg (by omega)]
  split <;> omega

section cursor

variable {c : Console}

/-- `newline` on the screen: the next column of the same row. -/
theorem newline_cursor (h : c.CursorInRange) (hy : c.screenY < 25) (ch : Byte) :
    (newline ch c).screenX = (if c.screenX = 79 then 0 else c.screenX + 1) ∧
      (newline ch c).screenY = c.screenY := by
  have hx₀ := h.x_nonneg
  have hx := h.x_lt
  have hcol := col_eq hx₀ hx
  simp only [newline, setCell_screenX, setCell_screenY]
  refine ⟨hcol, row_eq ?_ ?_ h.y_nonneg hy⟩ <;> rw [hcol] <;> split <;> omega

/-- On the screen `putc` is `newline`, whichever branch it takes. -/
theorem putc_eq_newline {ch : Byte} (hch : ¬ (ch = 0x0A ∨ ch = 0x0D)) (hy : c.screenY ≠ 25) :
    putc ch c = newline ch c := by
  rw [putc, if_neg hch, if_neg hy]
  split <;> rfl

/-- Behind the last row `putc` is `newline` on the scrolled screen. -/
theorem putc_scrolls {ch : Byte} (hch : ¬ (ch = 0x0A ∨ ch = 0x0D)) (hy : c.screenY = 25) :
    putc ch c = newline ch (scrolldown { c with screenY := 24 }).2 := by
  rw [putc, if_neg hch, if_pos hy]

/-- The same with the loop of `scrolldown` written out. -/
theorem putc_below {ch : Byte} (hch : ¬ (ch = 0x0A ∨ ch = 0x0D)) (hy : c.screenY = 25) :
    putc ch c = newline ch { loop (cellStep scrolled) 2000 { c with screenY := 24 } with
      screenX := 0 } := by
  rw [putc_scrolls hch hy, scrolldown_last rfl]

/-- Scrolling takes the cursor to the start of the row. -/
theorem scrolldown_cursor (c : Console) :
    c.scrolldown.2.screenX = (if c.screenY = 24 then 0 else c.screenX) ∧
      c.scrolldown.2.screenY = c.screenY := by
  by_cases hy : c.screenY = 24
  · rw [scrolldown_last hy, if_pos hy]
    exact ⟨rfl, (loop_cursor c 2000).2⟩
  · rw [scrolldown_above hy, if_neg hy]
    exact ⟨rfl, rfl⟩

theorem putc_newline {ch : Byte} (hch : ch = 0x0A ∨ ch = 0x0D) :
    putc ch c = { c with screenY := c.screenY + 1, screenX := 0 } := by
  rw [putc, if_pos hch]

/-- `backspace` inside a row. -/
theorem backspace_cursor (h : c.CursorInRange) (hx : c.screenX ≠ 0) (hy : c.screenY < 25) :
    c.backspace.screenX = c.screenX - 1 ∧ c.backspace.screenY = c.screenY := by
  have hx₀ := h.x_nonneg
  have hlt := h.x_lt
  have hcol : (c.screenX - 1).tmod 80 = c.screenX - 1 := by
    rw [Int.tmod_eq_emod_of_nonneg (by omega)]
    omega
  have hrow := row_eq (x := c.screenX - 1) (by omega) (by omega) h.y_nonneg hy
  rw [backspace, if_neg fun hzero => hx hzero.1]
  simp only [setCell_screenX, setCell_screenY, hcol, hrow]
  exact ⟨trivial, if_neg (by omega)⟩

/-- At the start of a row the column becomes -1: `%` truncates. -/
theorem backspace_cursor_zero (hx : c.screenX = 0) (hy : c.screenY ≠ 0) :
    c.backspace.screenX = -1 := by
  rw [backspace, if_neg fun hzero => hy hzero.2]
  simp only [setCell_screenX, hx]
  rfl

end cursor

end Console

/-! ## The cells a call stores to -/

/-- The calls that draw. -/
inductive ScreenOp : Type where
  | putc : Byte → ScreenOp
  | backspace : ScreenOp
  | clearscreen : ScreenOp

namespace ScreenOp

open Console

/-- The call. -/
def run (c : Console) : ScreenOp → Console
  | putc ch => Console.putc ch c
  | backspace => c.backspace
  | clearscreen => c.clearscreen

/-- The numbers of the cells the call stores to, in order. -/
def cells (c : Console) : ScreenOp → List Int
  | putc ch =>
    if ch = 0x0A ∨ ch = 0x0D then []
    else if c.screenY = 25 then (List.range 2000).map Int.ofNat ++ [80 * 24]
    else [c.cursor]
  | backspace => if c.screenX = 0 ∧ c.screenY = 0 then [] else [c.cursor - 1]
  | clearscreen => (List.range 2000).map Int.ofNat

/-- No other byte of memory changes. -/
theorem run_mem_of_notMem {c : Console} {op : ScreenOp} {a : Word}
    (h : ∀ i ∈ op.cells c, a ≠ cellAddr i ∧ a ≠ cellAddr i + 1) : (op.run c).mem a = c.mem a := by
  have hset : ∀ (d : Console) (i : Int) (ch : Byte), a ≠ cellAddr i → a ≠ cellAddr i + 1 →
      (d.setCell i ch).mem a = d.mem a := by
    intro d i ch h₀ h₁
    rw [setCell_mem, if_neg h₁, if_neg h₀]
  have hmem : ∀ k < 2000, Int.ofNat k ∈ (List.range 2000).map Int.ofNat := fun k hk =>
    List.mem_map_of_mem (List.mem_range.mpr hk)
  cases op with
  | putc ch =>
    by_cases hch : ch = 0x0A ∨ ch = 0x0D
    · rw [run, putc_newline hch]
    · by_cases hy : c.screenY = 25
      · simp only [cells, if_neg hch, if_pos hy] at h
        have hlast := h (80 * 24) (List.mem_append_right _ List.mem_cons_self)
        rw [run, putc_below hch hy]
        refine (hset _ _ ch ?_ ?_).trans (loop_mem_of_ne _ fun k hk =>
          h k (List.mem_append_left _ (hmem k hk)))
        · rw [cursor, (loop_cursor _ 2000).2]
          exact hlast.1
        · rw [cursor, (loop_cursor _ 2000).2]
          exact hlast.2
      · simp only [cells, if_neg hch, if_neg hy] at h
        rw [run, putc_eq_newline hch hy]
        exact hset c c.cursor ch (h _ List.mem_cons_self).1 (h _ List.mem_cons_self).2
  | backspace =>
    rw [run, Console.backspace]
    by_cases hzero : c.screenX = 0 ∧ c.screenY = 0
    · rw [if_pos hzero]
    · simp only [cells, if_neg hzero] at h
      rw [if_neg hzero]
      exact hset c (c.cursor - 1) 0 (h _ List.mem_cons_self).1 (h _ List.mem_cons_self).2
  | clearscreen =>
    rw [run, clearscreen_eq]
    exact loop_mem_of_ne c fun k hk => h k (hmem k hk)

/-- Each of the cells is stored to: its attribute has been written. -/
theorem run_attrib_of_mem {c : Console} {op : ScreenOp} {i : Int} (h : i ∈ op.cells c) :
    (op.run c).mem (cellAddr i + 1) = attrib := by
  have hset : ∀ (d : Console) (j : Int) (ch : Byte), d.mem (cellAddr i + 1) = attrib ∨ j = i →
      (d.setCell j ch).mem (cellAddr i + 1) = attrib := by
    intro d j ch hor
    rw [setCell_mem, if_neg (Ne.symm (cellAddr_ne_succ _ _))]
    split
    · rfl
    · rcases hor with hd | rfl
      · exact hd
      · contradiction
  have hloop : ∀ (d : Console) (v : ℕ → Console → Byte), i ∈ (List.range 2000).map Int.ofNat →
      (loop (cellStep v) 2000 d).mem (cellAddr i + 1) = attrib := by
    intro d v hi
    obtain ⟨k, hk, rfl⟩ := List.mem_map.mp hi
    exact loop_attr d ⟨k, List.mem_range.mp hk⟩
  cases op with
  | putc ch =>
    by_cases hch : ch = 0x0A ∨ ch = 0x0D
    · simp only [cells, if_pos hch] at h
      cases h
    · by_cases hy : c.screenY = 25
      · simp only [cells, if_neg hch, if_pos hy] at h
        rw [run, putc_below hch hy]
        refine hset _ _ ch ((List.mem_append.mp h).imp (hloop _ _) fun hlast => ?_)
        rw [cursor, (loop_cursor _ 2000).2, List.mem_singleton.mp hlast]
        rfl
      · simp only [cells, if_neg hch, if_neg hy] at h
        rw [run, putc_eq_newline hch hy]
        exact hset c c.cursor ch (Or.inr (List.mem_singleton.mp h).symm)
  | backspace =>
    rw [run, Console.backspace]
    by_cases hzero : c.screenX = 0 ∧ c.screenY = 0
    · simp only [cells, if_pos hzero] at h
      cases h
    · simp only [cells, if_neg hzero] at h
      rw [if_neg hzero]
      exact hset c _ 0 (Or.inr (List.mem_singleton.mp h).symm)
  | clearscreen =>
    rw [run, clearscreen_eq]
    exact hloop c _ h

/-! ## Staying on the page -/

/-- The call stores to cells of the page only and leaves the cursor in its range. -/
structure Safe (c : Console) (op : ScreenOp) : Prop where
  cells : ∀ i ∈ op.cells c, 0 ≤ i ∧ i < 2000
  cursor : (op.run c).CursorInRange

/-- No newline or carriage return below the last row, and no backspace at the start of
a row other than the first. -/
def Harmless (c : Console) : ScreenOp → Prop
  | putc ch => (ch = 0x0A ∨ ch = 0x0D) → c.screenY ≠ 25
  | backspace => c.screenX = 0 → c.screenY = 0
  | clearscreen => True

/-- The cursor is in range, and below the last row it is at the start. -/
structure Settled (c : Console) : Prop where
  range : c.CursorInRange
  below : c.screenY = 25 → c.screenX = 0

theorem settled_clearscreen (c : Console) : Settled c.clearscreen :=
  ⟨⟨le_rfl, (by decide : (0 : Int) < 80), le_rfl, (by decide : (0 : Int) ≤ 25)⟩, fun _ => rfl⟩

/-- The cells of the loops lie on the page. -/
theorem mem_page {i : Int} (h : i ∈ (List.range 2000).map Int.ofNat) : 0 ≤ i ∧ i < 2000 := by
  obtain ⟨k, hk, rfl⟩ := List.mem_map.mp h
  have hlt := List.mem_range.mp hk
  simp only [Int.ofNat_eq_natCast]
  omega

namespace Settled

variable {c : Console} {op : ScreenOp}

/-- On the screen the cell of the cursor is one of the page. -/
theorem cursor_page (h : Settled c) (hy : c.screenY ≠ 25) : 0 ≤ c.cursor ∧ c.cursor < 2000 := by
  have hx₀ := h.range.x_nonneg
  have hx := h.range.x_lt
  have hy₀ := h.range.y_nonneg
  have hle := h.range.y_le
  rw [cursor]
  omega

/-- After a character the cursor is on the screen. -/
theorem newline (h : Settled c) (hy : c.screenY ≠ 25) (ch : Byte) : Settled (newline ch c) := by
  have hx₀ := h.range.x_nonneg
  have hx := h.range.x_lt
  have hlt : c.screenY < 25 := lt_of_le_of_ne h.range.y_le hy
  obtain ⟨hcol, hrow⟩ := newline_cursor h.range hlt ch
  refine ⟨⟨?_, ?_, ?_, ?_⟩, fun heq => absurd (hrow.symm.trans heq) hy⟩
  · rw [hcol]
    split <;> omega
  · rw [hcol]
    split <;> omega
  · rw [hrow]
    exact h.range.y_nonneg
  · rw [hrow]
    exact h.range.y_le

/-- What `putc` does on a settled screen, a newline or carriage return below the last row
apart: a character there scrolls first. -/
theorem putc_harmless (h : Settled c) {ch : Byte} (hop : Harmless c (putc ch)) :
    (∀ i ∈ (putc ch).cells c, 0 ≤ i ∧ i < 2000) ∧ Settled ((putc ch).run c) := by
  by_cases hch : ch = 0x0A ∨ ch = 0x0D
  · have hy := hop hch
    have hle := h.range.y_le
    rw [run, putc_newline hch, ScreenOp.cells, if_pos hch]
    refine ⟨fun i hi => absurd hi List.not_mem_nil,
      ⟨⟨le_rfl, (by decide : (0 : Int) < 80), ?_, ?_⟩, fun _ => rfl⟩⟩
    · exact Int.add_nonneg h.range.y_nonneg (by decide)
    · exact Int.add_one_le_of_lt (lt_of_le_of_ne hle hy)
  · by_cases hy : c.screenY = 25
    · rw [run, putc_below hch hy, ScreenOp.cells, if_neg hch, if_pos hy]
      refine ⟨fun i hi => ?_, Settled.newline
        ⟨⟨le_rfl, (by decide : (0 : Int) < 80), ?_, ?_⟩, fun _ => rfl⟩ ?_ ch⟩
      · rcases List.mem_append.mp hi with hloop | hlast
        · exact mem_page hloop
        · rw [List.mem_singleton.mp hlast]
          decide
      all_goals
        simp only [(loop_cursor _ 2000).2]
        decide
    · rw [run, putc_eq_newline hch hy, ScreenOp.cells, if_neg hch, if_neg hy]
      refine ⟨fun i hi => ?_, h.newline hy ch⟩
      rw [List.mem_singleton.mp hi]
      exact h.cursor_page hy

/-- Backspace inside a row, or at the start of the page where it does nothing. -/
theorem backspace_harmless (h : Settled c) (hop : Harmless c backspace) :
    (∀ i ∈ backspace.cells c, 0 ≤ i ∧ i < 2000) ∧ Settled (backspace.run c) := by
  rw [run, ScreenOp.cells]
  by_cases hzero : c.screenX = 0 ∧ c.screenY = 0
  · rw [if_pos hzero, Console.backspace, if_pos hzero]
    exact ⟨fun i hi => absurd hi List.not_mem_nil, h⟩
  · -- the cursor is inside a row, and the row is on the screen
    have hx : c.screenX ≠ 0 := fun hx => hzero ⟨hx, hop hx⟩
    have hy : c.screenY ≠ 25 := fun hy => hx (h.below hy)
    have hx₀ := h.range.x_nonneg
    have hlt := h.range.x_lt
    have hy₀ := h.range.y_nonneg
    have hcursor := h.cursor_page hy
    obtain ⟨hcol, hrow⟩ := backspace_cursor h.range hx (lt_of_le_of_ne h.range.y_le hy)
    rw [if_neg hzero]
    refine ⟨fun i hi => ?_, ⟨⟨?_, ?_, ?_, ?_⟩, fun heq => absurd (hrow.symm.trans heq) hy⟩⟩
    · rw [List.mem_singleton.mp hi]
      rw [cursor] at hcursor ⊢
      omega
    all_goals first | rw [hcol] | rw [hrow]
    · omega
    · omega
    · exact hy₀
    · exact h.range.y_le

/-- What a harmless call does: it stays on the page and leaves the cursor settled. -/
theorem harmless (h : Settled c) (hop : Harmless c op) :
    (∀ i ∈ op.cells c, 0 ≤ i ∧ i < 2000) ∧ Settled (op.run c) := by
  cases op with
  | putc ch => exact putc_harmless h hop
  | backspace => exact backspace_harmless h hop
  | clearscreen => exact ⟨fun i hi => mem_page hi, settled_clearscreen c⟩

/-- A call is safe exactly if it is harmless. -/
theorem safe_iff (h : Settled c) : Safe c op ↔ Harmless c op := by
  constructor
  · intro hsafe
    cases op with
    | putc ch =>
      intro hch hy
      have hle := hsafe.cursor.y_le
      rw [run, putc_newline hch] at hle
      simp only [hy] at hle
      omega
    | backspace =>
      intro hx
      by_contra hy
      have hnonneg := hsafe.cursor.x_nonneg
      rw [run, backspace_cursor_zero hx hy] at hnonneg
      omega
    | clearscreen => trivial
  · intro hop
    obtain ⟨hcells, hsettled⟩ := h.harmless hop
    exact ⟨hcells, hsettled.range⟩

end Settled

end ScreenOp

/-- From a cleared screen on, along every sequence of calls: each call stores to cells of
the page only and leaves the cursor in range, if and only if each call is harmless. -/
theorem screen_run_iff (c : Console) (ops : List ScreenOp) :
    Along ScreenOp.run ScreenOp.Safe c.clearscreen ops ↔
      Along ScreenOp.run ScreenOp.Harmless c.clearscreen ops :=
  along_iff (I := ScreenOp.Settled) (fun _ _ h => h.safe_iff) (fun _ _ h hop => (h.harmless hop).2)
    (ScreenOp.settled_clearscreen c) ops

/-- A newline and a backspace: the cursor is in column -1. -/
theorem backspace_after_newline : ¬ Along ScreenOp.run ScreenOp.Safe
    (Console.clearscreen ⟨fun _ => 0, 0, 0⟩) [.putc 0x0A, .backspace] := by
  rintro ⟨-, hsafe, -⟩
  have hnonneg := hsafe.cursor.x_nonneg
  revert hnonneg
  decide

end Os391
