import Os391.Screen
import Os391.System

/-!
# Text on the screen

An ideal terminal shows the last 25 lines of what has been written. The driver
gets there one character at a time: a newline below the last row is remembered by
a cursor in row 25, and the next character moves all rows up first. `Ended` and
`Typing` describe the screen after a finished line and inside an unfinished one;
every character leads from one to the other, so it does not matter how the text
is cut into `terminal_write` calls.
-/

namespace Os391

open Bytes Copying Runs Console

/-- The character an ideal 80x25 terminal shows in cell `i`: the rows hold the last 25
lines, padded with zeros. -/
def idealCell (lines : List (List Byte)) (i : Fin 2000) : Byte :=
  ((lines.drop (lines.length - 25)).getD (i.val / 80) []).getD (i.val % 80) 0

/-! ## The ideal terminal -/

section ideal

variable (done : List (List Byte)) (i : Fin 2000)

theorem idealCell_eq (lines : List (List Byte)) :
    idealCell lines i = ((lines[lines.length - 25 + i.val / 80]?).getD []).getD (i.val % 80) 0 := by
  rw [idealCell, List.getD_eq_getElem?_getD (l := lines.drop _), List.getElem?_drop]

/-- A change of the last line is seen in one row. -/
theorem idealCell_append_last (l : List Byte) : idealCell (done ++ [l]) i =
    if i.val / 80 = min done.length 24 then l.getD (i.val % 80) 0
    else idealCell (done ++ [[]]) i := by
  have hi := i.isLt
  rw [idealCell_eq, idealCell_eq]
  simp only [List.length_append, List.length_singleton, List.getElem?_append]
  split
  · rw [if_neg (by omega)]
  · by_cases hrow : i.val / 80 = min done.length 24
    · have hlast : done.length + 1 - 25 + i.val / 80 - done.length = 0 := by omega
      rw [if_pos hrow, hlast]
      rfl
    · have hbeyond : ¬ done.length + 1 - 25 + i.val / 80 - done.length = 0 := by omega
      rw [if_neg hrow, List.getElem?_eq_none (by rw [List.length_singleton]; omega),
        List.getElem?_eq_none (by rw [List.length_singleton]; omega)]

/-- While there is room, an empty last line is not seen. -/
theorem idealCell_append_nil (h : done.length < 25) :
    idealCell (done ++ [[]]) i = idealCell done i := by
  have hi := i.isLt
  rw [idealCell_eq, idealCell_eq]
  have h₀ : done.length - 25 + i.val / 80 = i.val / 80 := by omega
  have h₁ : (done ++ [[]]).length - 25 + i.val / 80 = i.val / 80 := by
    rw [List.length_append, List.length_singleton]
    omega
  rw [h₀, h₁, List.getElem?_append]
  split
  · rfl
  · rename_i hge
    rw [List.getElem?_eq_none (l := done) (Nat.not_lt.mp hge)]
    rcases i.val / 80 - done.length with _ | k <;> rfl

/-- Without room, an empty last line moves the others up. -/
theorem idealCell_append_nil_full (h : 25 ≤ done.length) : idealCell (done ++ [[]]) i =
    if h : i.val < 1920 then idealCell done ⟨i.val + 80, by omega⟩ else 0 := by
  have hi := i.isLt
  have hlen : (done ++ [[]]).length - 25 + i.val / 80 = done.length - 24 + i.val / 80 := by
    rw [List.length_append, List.length_singleton]
    omega
  rw [idealCell_eq, hlen, List.getElem?_append]
  by_cases hrow : i.val < 1920
  · have hbelow : done.length - 25 + (i.val + 80) / 80 = done.length - 24 + i.val / 80 := by omega
    have hcol : (i.val + 80) % 80 = i.val % 80 := by omega
    rw [if_pos (by omega), dif_pos hrow, idealCell_eq]
    simp only [hbelow, hcol]
  · have hlast : done.length - 24 + i.val / 80 - done.length = 0 := by omega
    rw [if_neg (by omega), dif_neg hrow, hlast]
    rfl

end ideal

/-! ## The screen while text is written -/

/-- A byte that does not end the line. -/
def Printable (ch : Byte) : Prop := ¬ (ch = 0x0A ∨ ch = 0x0D)

instance (ch : Byte) : Decidable (Printable ch) :=
  inferInstanceAs (Decidable (¬ (ch = 0x0A ∨ ch = 0x0D)))

/-- The cursor stands behind the unfinished line `cur`, which follows the lines `done`. -/
structure Typing (done : List (List Byte)) (cur : List Byte) (c : Console) : Prop where
  row : c.screenY = (min done.length 24 : ℕ)
  col : c.screenX = (cur.length % 80 : ℕ)
  text : ∀ i, c.text i = idealCell (done ++ [cur]) i
  attr : ∀ i, c.attr i = attrib

/-- The lines `done` have been finished; the next one has not begun. -/
structure Ended (done : List (List Byte)) (c : Console) : Prop where
  row : c.screenY = (min done.length 25 : ℕ)
  col : c.screenX = 0
  text : ∀ i, c.text i = idealCell done i
  attr : ∀ i, c.attr i = attrib

/-- A cleared screen. -/
theorem ended_clearscreen (c : Console) : Ended [] c.clearscreen := by
  rw [clearscreen_eq]
  exact ⟨rfl, rfl, fun i => loop_text c (fun _ _ _ _ => rfl) i, loop_attr c⟩

namespace Typing

variable {done : List (List Byte)} {cur : List Byte} {c : Console} {ch : Byte}

theorem settled (h : Typing done cur c) : ScreenOp.Settled c := by
  have hrow := h.row
  have hcol := h.col
  refine ⟨⟨?_, ?_, ?_, ?_⟩, fun hy => absurd hy ?_⟩ <;> omega

theorem row_ne (h : Typing done cur c) : c.screenY ≠ 25 := by
  have hrow := h.row
  omega

/-- One more character in the line, written by `newline`. -/
theorem step (h : Typing done cur c) (hlen : cur.length < 80) :
    Typing done (cur ++ [ch]) (newline ch c) := by
  have hrow := h.row
  have hcol := h.col
  rw [Nat.mod_eq_of_lt hlen] at hcol
  obtain ⟨hx, hy⟩ := newline_cursor h.settled.range (by omega) ch
  -- the cell of the cursor
  have hcell : 80 * min done.length 24 + cur.length < 2000 := by omega
  have hcursor : c.cursor = ((⟨80 * min done.length 24 + cur.length, hcell⟩ : Fin 2000).val : Int) := by
    rw [cursor, hrow, hcol]
    simp only [Nat.cast_add, Nat.cast_mul, Nat.cast_ofNat]
  refine ⟨hy.trans hrow, ?_, fun i => ?_, fun i => ?_⟩
  · rw [hx, hcol, List.length_append, List.length_singleton]
    split <;> omega
  · have hset := setCell_text c ch ⟨80 * min done.length 24 + cur.length, hcell⟩ i
    rw [← hcursor] at hset
    have hi := i.isLt
    refine hset.trans ?_
    rw [idealCell_append_last, h.text, idealCell_append_last done i cur]
    simp only [List.getD_eq_getElem?_getD, List.getElem?_append, Fin.ext_iff]
    by_cases hline : i.val / 80 = min done.length 24
    · rw [if_pos hline, if_pos hline]
      by_cases hhere : i.val % 80 = cur.length
      · rw [if_pos (by omega), if_neg (by omega), hhere, Nat.sub_self]
        rfl
      · rw [if_neg (by omega)]
        split
        · rfl
        · rw [List.getElem?_eq_none (l := cur) (by omega),
            List.getElem?_eq_none (by rw [List.length_singleton]; omega)]
    · rw [if_neg hline, if_neg hline, if_neg (by omega)]
  · have hset := setCell_attr c ch ⟨80 * min done.length 24 + cur.length, hcell⟩ i
    rw [← hcursor] at hset
    refine hset.trans ?_
    split
    · rfl
    · exact h.attr i

/-- One more character in the line. -/
theorem putc (h : Typing done cur c) (hlen : cur.length < 80) (hch : Printable ch) :
    Typing done (cur ++ [ch]) (putc ch c) := by
  rw [putc_eq_newline hch h.row_ne]
  exact h.step hlen

/-- The end of the line. -/
theorem ended (h : Typing done cur c) : Ended (done ++ [cur]) (Console.putc 0x0A c) := by
  rw [putc_newline (Or.inl rfl)]
  refine ⟨?_, rfl, h.text, h.attr⟩
  simp only [h.row, List.length_append, List.length_singleton]
  omega

end Typing

namespace Ended

variable {done : List (List Byte)} {c : Console} {ch : Byte}

theorem settled (h : Ended done c) : ScreenOp.Settled c := by
  have hrow := h.row
  have hcol := h.col
  refine ⟨⟨?_, ?_, ?_, ?_⟩, fun _ => hcol⟩ <;> omega

/-- The first character of a line: below the last row the screen moves up first. -/
theorem putc (h : Ended done c) (hch : Printable ch) : Typing done [ch] (Console.putc ch c) := by
  have hrow := h.row
  by_cases hroom : done.length < 25
  · have hbefore : Typing done [] c := by
      refine ⟨by omega, h.col, fun i => ?_, h.attr⟩
      rw [idealCell_append_nil done i hroom]
      exact h.text i
    exact hbefore.putc (by decide) hch
  · rw [putc_below hch (by omega)]
    refine Typing.step (?_ : Typing done [] _) (by decide)
    refine ⟨?_, rfl, fun i => ?_, fun i => ?_⟩
    · rw [(loop_cursor _ 2000).2]
      simp only
      omega
    · rw [idealCell_append_nil_full done i (Nat.not_lt.mp hroom)]
      refine (loop_scrolled_text _ i).trans ?_
      split
      · exact h.text _
      · rfl
    · exact loop_attr _ i

end Ended

/-! ## Whole texts -/

/-- A line of text: it fits into a row, and it is not empty. -/
structure Line (line : List Byte) : Prop where
  nonempty : line ≠ []
  length : line.length ≤ 80
  printable : ∀ ch ∈ line, Printable ch

/-- Lines separated by single newlines. -/
def textOf (lines : List (List Byte)) : List Byte := [0x0A].intercalate lines

theorem puts_append (l l' : List Byte) (c : Console) : puts (l ++ l') c = puts l' (puts l c) :=
  List.foldl_append

/-- Writing a string is a run of `putc` calls. -/
theorem foldl_putc (l : List Byte) (c : Console) :
    (l.map ScreenOp.putc).foldl ScreenOp.run c = puts l c := List.foldl_map

/-- The rest of a line. -/
theorem Typing.puts {done : List (List Byte)} {cur : List Byte} {c : Console}
    (h : Typing done cur c) {rest : List Byte} (hlen : (cur ++ rest).length ≤ 80)
    (hprint : ∀ ch ∈ rest, Printable ch) : Typing done (cur ++ rest) (puts rest c) := by
  induction rest generalizing cur c with
  | nil =>
    rw [List.append_nil]
    exact h
  | cons ch rest ih =>
    rw [List.length_append, List.length_cons] at hlen
    have hnext := h.putc (by omega) (hprint ch List.mem_cons_self)
    rw [List.append_cons]
    refine ih hnext ?_ fun d hd => hprint d (List.mem_cons_of_mem ch hd)
    simp only [List.length_append, List.length_singleton]
    omega

/-- A line. -/
theorem Ended.puts_line {done : List (List Byte)} {c : Console} (h : Ended done c)
    {line : List Byte} (hline : Line line) : Typing done line (puts line c) := by
  rcases line with _ | ⟨ch, rest⟩
  · exact absurd rfl hline.nonempty
  · exact (h.putc (hline.printable ch List.mem_cons_self)).puts hline.length
      fun d hd => hline.printable d (List.mem_cons_of_mem ch hd)

/-- No byte of a line is harmful. -/
theorem Line.harmless {line : List Byte} (hline : Line line) (c : Console) :
    Along ScreenOp.run ScreenOp.Harmless c (line.map ScreenOp.putc) := by
  have hprint := hline.printable
  clear hline
  induction line generalizing c with
  | nil => trivial
  | cons ch rest ih =>
    exact ⟨fun hch => absurd hch (hprint ch List.mem_cons_self),
      ih _ fun d hd => hprint d (List.mem_cons_of_mem ch hd)⟩

/-- A text leaves the cursor behind its last line and all lines before it finished, and
every byte of it is harmless. -/
theorem Ended.puts_text {lines : List (List Byte)} (hne : lines ≠ [])
    (hlines : ∀ l ∈ lines, Line l) {done : List (List Byte)} {c : Console} (h : Ended done c) :
    Typing (done ++ lines.dropLast) (lines.getLast hne) (puts (textOf lines) c) ∧
      Along ScreenOp.run ScreenOp.Harmless c ((textOf lines).map ScreenOp.putc) := by
  induction lines generalizing done c with
  | nil => exact absurd rfl hne
  | cons l rest ih =>
    have hl := hlines l List.mem_cons_self
    have htyping := h.puts_line hl
    by_cases hrest : rest = []
    · subst hrest
      rw [textOf, List.intercalate_singleton, List.dropLast_singleton, List.append_nil]
      exact ⟨htyping, hl.harmless c⟩
    · -- the newline behind the line, then the rest
      have htext : textOf (l :: rest) = l ++ (0x0A :: textOf rest) := by
        rw [textOf, List.intercalate_cons_of_ne_nil hrest, List.append_assoc]
        rfl
      obtain ⟨hthen, halong⟩ := ih hrest (fun m hm => hlines m (List.mem_cons_of_mem l hm))
        htyping.ended
      rw [htext, puts_append, List.map_append, along_append, foldl_putc,
        List.dropLast_cons_of_ne_nil hrest, List.append_cons, List.getLast_cons hrest]
      exact ⟨hthen, hl.harmless c, fun _ => htyping.row_ne, halong⟩

/-- Consecutive `terminal_write` calls write their strings one after the other. -/
theorem foldl_terminalWrite_console (chunks : List (List Byte)) (s : Kernel) :
    (chunks.foldl (fun s bs => terminalWrite bs s) s).console = puts chunks.flatten s.console := by
  induction chunks generalizing s with
  | nil => rfl
  | cons bs chunks ih =>
    rw [List.foldl_cons, ih, List.flatten_cons, puts_append]
    rfl

/-- Starting from `clearscreen`, a text of lines of 1 to 80 bytes, cut in any way into
`terminal_write` calls, is shown as on the ideal terminal: the characters, the
attributes, the stores and the cursor. -/
theorem terminalWrite_shows {lines : List (List Byte)} (hne : lines ≠ [])
    (hlines : ∀ l ∈ lines, Line l) {chunks : List (List Byte)}
    (hcut : chunks.flatten = textOf lines) (s : Kernel) :
    let start := { s with console := s.console.clearscreen }
    let c := (chunks.foldl (fun s bs => terminalWrite bs s) start).console
    (∀ i, c.text i = idealCell lines i) ∧ (∀ i, c.attr i = 7) ∧
      Along ScreenOp.run (fun c op => ∀ i ∈ op.cells c, 0 ≤ i ∧ i < 2000) start.console
        (chunks.flatten.map ScreenOp.putc) ∧
      c.screenY = (min lines.length 25 - 1 : ℕ) ∧
      c.screenX = ((lines.getLast hne).length % 80 : ℕ) := by
  dsimp only
  obtain ⟨h, halong⟩ := (ended_clearscreen s.console).puts_text hne hlines
  rw [List.nil_append] at h
  have hsplit := List.dropLast_append_getLast hne
  rw [foldl_terminalWrite_console, hcut]
  refine ⟨fun i => ?_, h.attr, ?_, ?_, h.col⟩
  · rw [h.text, hsplit]
  · exact Along.imp (I := ScreenOp.Settled) (C := ScreenOp.Harmless)
      (fun _ _ hc hop => (hc.harmless hop).1) (fun _ _ hc hop => (hc.harmless hop).2)
      (ScreenOp.settled_clearscreen s.console) halong
  · rw [h.row, List.length_dropLast]
    have hpos := List.length_pos_of_ne_nil hne
    omega

/-- Two lines in three calls. -/
theorem terminalWrite_shows_sample :
    let start := { Sample.atBoot with console := Sample.atBoot.console.clearscreen }
    let c := ([[0x61, 0x62], [0x0A, 0x63], [0x64]].foldl (fun s bs => terminalWrite bs s) start).console
    c.screenY = 1 ∧ c.screenX = 2 := by
  have hlines : ∀ l ∈ ([[0x61, 0x62], [0x63, 0x64]] : List (List Byte)), Line l := by
    intro l hl
    rcases List.mem_pair.mp hl with rfl | rfl <;> exact ⟨by decide, by decide, by decide⟩
  exact (@terminalWrite_shows _ (by decide) hlines [[0x61, 0x62], [0x0A, 0x63], [0x64]] (by decide)
    Sample.atBoot).2.2.2

end Os391
