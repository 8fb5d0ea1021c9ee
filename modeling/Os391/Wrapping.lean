import Os391.Scrolling
import Mathlib.Data.List.Induction

/-!
# Text that passes the last column

`putc` computes the row from a column that it has reduced modulo 80 before, so the row
never advances: a string that passes the last column goes on at the start of its own
row. `backspace` reduces column -1 to -1 and never goes back to the row above. The
exact conditions under which a string is nevertheless shown, and erased, as it should
be are conditions on where it begins, on its length and, beyond the last column, on
what the screen holds already.
-/

namespace Os391

open Bytes Console

variable {c d : Console} {s : List Byte} {ch : Byte} {x y : ℕ}

/-! ## One character after the other -/

/-- A cell named by its number. -/
theorem setCell_nat_text (c : Console) (ch : Byte) {k : ℕ} (hk : k < 2000) (i : Fin 2000) :
    (c.setCell (k : Int) ch).text i = if i.val = k then ch else c.text i := by
  rw [setCell_text c ch ⟨k, hk⟩ i]
  simp only [Fin.ext_iff]

theorem setCell_nat_attr (c : Console) (ch : Byte) {k : ℕ} (hk : k < 2000) (i : Fin 2000) :
    (c.setCell (k : Int) ch).attr i = if i.val = k then attrib else c.attr i := by
  rw [setCell_attr c ch ⟨k, hk⟩ i]
  simp only [Fin.ext_iff]

/-- The cursor is in column `x` of row `y` of the screen. -/
structure CursorAt (x y : ℕ) (c : Console) : Prop where
  col : c.screenX = x
  row : c.screenY = y
  x_lt : x < 80
  y_lt : y < 25

namespace CursorAt

theorem range (h : CursorAt x y c) : c.CursorInRange := by
  have hx := h.x_lt
  have hy := h.y_lt
  refine ⟨?_, ?_, ?_, ?_⟩
  · rw [h.col]
    omega
  · rw [h.col]
    omega
  · rw [h.row]
    omega
  · rw [h.row]
    omega

theorem row_lt (h : CursorAt x y c) : c.screenY < 25 := by
  have hy := h.y_lt
  rw [h.row]
  omega

/-- The cell of the cursor. -/
theorem cursor_eq (h : CursorAt x y c) : c.cursor = ((80 * y + x : ℕ) : Int) := by
  rw [cursor, h.col, h.row]
  omega

/-- The cursor moves on in its row, around the end. -/
theorem putc (h : CursorAt x y c) (hch : Printable ch) :
    CursorAt ((x + 1) % 80) y (putc ch c) := by
  have hx := h.x_lt
  obtain ⟨hcol, hrow⟩ := newline_cursor h.range h.row_lt ch
  rw [putc_eq_newline hch (ne_of_lt h.row_lt)]
  refine ⟨?_, hrow.trans h.row, Nat.mod_lt _ (by decide), h.y_lt⟩
  rw [hcol, h.col]
  split <;> omega

theorem cell_lt (h : CursorAt x y c) : 80 * y + x < 2000 := by
  have hx := h.x_lt
  have hy := h.y_lt
  omega

theorem putc_text (h : CursorAt x y c) (hch : Printable ch) (i : Fin 2000) :
    (Console.putc ch c).text i = if i.val = 80 * y + x then ch else c.text i := by
  rw [putc_eq_newline hch (ne_of_lt h.row_lt), ← setCell_nat_text c ch h.cell_lt, ← h.cursor_eq]
  rfl

theorem putc_attr (h : CursorAt x y c) (hch : Printable ch) (i : Fin 2000) :
    (Console.putc ch c).attr i = if i.val = 80 * y + x then attrib else c.attr i := by
  rw [putc_eq_newline hch (ne_of_lt h.row_lt), ← setCell_nat_attr c ch h.cell_lt, ← h.cursor_eq]
  rfl

end CursorAt

/-- What a string leaves that is printed from column `x` of row `y` on: it goes round in
its row, so of the bytes that share a cell the last one stands there. -/
structure Printed (x y : ℕ) (s : List Byte) (c d : Console) : Prop where
  cursor : CursorAt ((x + s.length) % 80) y d
  last : ∀ (j : ℕ) (hj : j < s.length), s.length ≤ j + 80 → ∀ i : Fin 2000,
    i.val = 80 * y + (x + j) % 80 → d.text i = s[j] ∧ d.attr i = attrib
  other : ∀ i : Fin 2000, (∀ j < s.length, i.val ≠ 80 * y + (x + j) % 80) →
    d.text i = c.text i ∧ d.attr i = c.attr i

namespace Printed

/-- One more byte. -/
theorem snoc (h : Printed x y s c d) (hch : Printable ch) :
    Printed x y (s ++ [ch]) c (Console.putc ch d) := by
  have hlen : (s ++ [ch]).length = s.length + 1 := List.length_append
  refine ⟨?_, fun j hj hlast i hi => ?_, fun i hi => ?_⟩
  · have hnext := h.cursor.putc hch
    rwa [Nat.mod_add_mod, Nat.add_assoc, ← hlen] at hnext
  · rw [hlen] at hj hlast
    rw [h.cursor.putc_text hch, h.cursor.putc_attr hch]
    by_cases hnew : j = s.length
    · subst hnew
      rw [if_pos hi, if_pos hi]
      exact ⟨(List.getElem_concat_length rfl _).symm, rfl⟩
    · -- a byte less than 80 places before the new one is in another cell
      have hold : j < s.length := by omega
      rw [if_neg (by omega), if_neg (by omega), List.getElem_append_left hold]
      exact h.last j hold (by omega) i hi
  · rw [hlen] at hi
    have hnew := hi s.length (Nat.lt_succ_self _)
    rw [h.cursor.putc_text hch, h.cursor.putc_attr hch, if_neg hnew, if_neg hnew]
    exact h.other i fun j hj => hi j (Nat.lt_succ_of_lt hj)

end Printed

/-- A string without newline and carriage return. -/
theorem CursorAt.puts (h : CursorAt x y c) (hs : ∀ ch ∈ s, Printable ch) :
    Printed x y s c (puts s c) := by
  induction s using List.reverseRecOn with
  | nil =>
    refine ⟨?_, fun j hj => absurd hj (Nat.not_lt_zero j), fun i _ => ⟨rfl, rfl⟩⟩
    rw [List.length_nil, Nat.add_zero, Nat.mod_eq_of_lt h.x_lt]
    exact h
  | append_singleton s ch ih =>
    rw [puts_append]
    exact (ih fun d hd => hs d (List.mem_append_left _ hd)).snoc
      (hs ch (List.mem_append_right _ List.mem_cons_self))

/-! ## Where a string stands -/

/-- The string stands in the cells from number `start` on, and no other cell has changed. -/
structure Shows (start : ℕ) (s : List Byte) (c d : Console) : Prop where
  text : ∀ (j : ℕ) (hj : j < s.length), ∀ i : Fin 2000, i.val = start + j → d.text i = s[j]
  other : ∀ i : Fin 2000, i.val < start ∨ start + s.length ≤ i.val →
    d.text i = c.text i ∧ d.attr i = c.attr i

/-- By accident it does not matter that the string goes round in its row: what passes the
last column stands on the screen already, where it belongs, and the bytes it is printed
over are equal ones, of the string itself or of the screen. -/
structure Overprints (x y : ℕ) (s : List Byte) (c : Console) : Prop where
  beyond : ∀ (j : ℕ) (hj : j < s.length), 80 ≤ x + j → ∀ i : Fin 2000,
    i.val = 80 * y + x + j → c.text i = s[j]
  within : ∀ (j k : ℕ) (hj : j < s.length) (hk : k < s.length), 80 ≤ x + k → s.length ≤ k + 80 →
    x + j = (x + k) % 80 → s[j] = s[k]
  before : ∀ (k : ℕ) (hk : k < s.length), 80 ≤ x + k → s.length ≤ k + 80 → ∀ i : Fin 2000,
    i.val = 80 * y + (x + k) % 80 → i.val < 80 * y + x → c.text i = s[k] ∧ c.attr i = attrib

/-- Of the bytes that share a cell with byte `j` there is a last one. -/
theorem exists_last {j n : ℕ} (hj : j < n) :
    ∃ k < n, n ≤ k + 80 ∧ (x + k) % 80 = (x + j) % 80 ∧ (k = j ∨ 80 ≤ k) := by
  refine ⟨j + 80 * ((n - 1 - j) / 80), ?_, ?_, ?_, ?_⟩ <;> omega

namespace Printed

/-- The cells behind the row are not printed to. -/
theorem behind (h : Printed x y s c d) {i : Fin 2000} (hi : 80 * y + 80 ≤ i.val) :
    d.text i = c.text i ∧ d.attr i = c.attr i :=
  h.other i fun j _ => by omega

theorem shows_of_fits (h : Printed x y s c d) (hfits : x + s.length ≤ 80) :
    Shows (80 * y + x) s c d := by
  have hcol : ∀ j < s.length, (x + j) % 80 = x + j := fun j hj => Nat.mod_eq_of_lt (by omega)
  refine ⟨fun j hj i hi => ?_, fun i hi => ?_⟩
  · exact (h.last j hj (by omega) i (by rw [hcol j hj]; omega)).1
  · refine h.other i fun j hj => ?_
    rw [hcol j hj]
    omega

/-- What must be the case if a string that passes the last column stands where it belongs. -/
theorem overprints (h : Printed x y s c d) (hy : y < 25) (hshows : Shows (80 * y + x) s c d) :
    Overprints x y s c := by
  refine ⟨fun j hj hpass i hi => ?_, fun j k hj hk _ hlast heq => ?_,
    fun k hk _ hlast i hi hbefore => ?_⟩
  · rw [← hshows.text j hj i hi]
    exact (h.behind (by omega)).1.symm
  · have hcell : 80 * y + x + j < 2000 := by omega
    rw [← hshows.text j hj ⟨_, hcell⟩ rfl]
    refine (h.last k hk hlast _ ?_).1
    rw [← heq]
    exact Nat.add_assoc _ _ _
  · obtain ⟨htext, hattr⟩ := h.last k hk hlast i hi
    obtain ⟨hkeep, hkeep'⟩ := hshows.other i (Or.inl hbefore)
    exact ⟨hkeep.symm.trans htext, hkeep'.symm.trans hattr⟩

theorem shows_of_overprints (h : Printed x y s c d) (hx : x < 80) (hover : Overprints x y s c) :
    Shows (80 * y + x) s c d := by
  refine ⟨fun j hj i hi => ?_, fun i hi => ?_⟩
  · by_cases hpass : 80 ≤ x + j
    · rw [(h.behind (by omega)).1]
      exact hover.beyond j hj hpass i hi
    · obtain ⟨k, hk, hlast, hcol, hor⟩ := exists_last (x := x) hj
      have hcol' : (x + j) % 80 = x + j := Nat.mod_eq_of_lt (by omega)
      rw [(h.last k hk hlast i (by omega)).1]
      rcases hor with rfl | hlate
      · rfl
      · exact (hover.within j k hj hk (by omega) hlast (by omega)).symm
  · by_cases hwritten : ∃ j < s.length, i.val = 80 * y + (x + j) % 80
    · -- a cell of the row that the string comes back to
      obtain ⟨j, hj, hcell⟩ := hwritten
      obtain ⟨k, hk, hlast, hcol, hor⟩ := exists_last (x := x) hj
      rw [← hcol] at hcell
      obtain ⟨htext, hattr⟩ := h.last k hk hlast i hcell
      obtain ⟨hold, hold'⟩ := hover.before k hk (by omega) hlast i hcell (by omega)
      exact ⟨htext.trans hold.symm, hattr.trans hold'.symm⟩
    · exact h.other i fun j hj heq => hwritten ⟨j, hj, heq⟩

end Printed

/-- A string is shown where it belongs exactly if it does not pass the last column, or if
by accident that does not matter. -/
theorem puts_shows_iff (h : CursorAt x y c) (hs : ∀ ch ∈ s, Printable ch) :
    Shows (80 * y + x) s c (puts s c) ↔ x + s.length ≤ 80 ∨ Overprints x y s c := by
  have hp := h.puts hs
  constructor
  · intro hshows
    exact Or.inr (hp.overprints h.y_lt hshows)
  · rintro (hfits | hover)
    · exact hp.shows_of_fits hfits
    · exact hp.shows_of_overprints h.x_lt hover

/-- Two letters in the last columns. -/
theorem puts_shows_sample : CursorAt 78 0 ⟨fun _ => 0, 78, 0⟩ ∧
    Shows (80 * 0 + 78) [0x61, 0x62] ⟨fun _ => 0, 78, 0⟩
      (puts [0x61, 0x62] ⟨fun _ => 0, 78, 0⟩) := by
  have h : CursorAt 78 0 ⟨fun _ => 0, 78, 0⟩ := ⟨rfl, rfl, by decide, by decide⟩
  exact ⟨h, (puts_shows_iff h (by decide)).mpr (Or.inl (by decide))⟩

/-- The second of two letters printed from the last column on is not in the next row. -/
theorem letter_stays_in_row : CursorAt 79 0 ⟨fun _ => 0, 79, 0⟩ ∧
    ¬ Shows (80 * 0 + 79) [0x61, 0x62] ⟨fun _ => 0, 79, 0⟩
      (puts [0x61, 0x62] ⟨fun _ => 0, 79, 0⟩) := by
  refine ⟨⟨rfl, rfl, by decide, by decide⟩, fun hshows => ?_⟩
  have htext := hshows.text 1 (by decide) 80 rfl
  revert htext
  decide

/-! ## Erasing -/

/-- The cells `p` have been blanked, the others are as they were. -/
structure Blanked (p : ℕ → Prop) (c d : Console) : Prop where
  blank : ∀ i : Fin 2000, p i.val → d.text i = 0 ∧ d.attr i = attrib
  other : ∀ i : Fin 2000, ¬ p i.val → d.text i = c.text i ∧ d.attr i = c.attr i

namespace Blanked

variable {p q : ℕ → Prop} {e : Console}

theorem none (c : Console) (hp : ∀ i, ¬ p i) : Blanked p c c :=
  ⟨fun i hi => absurd hi (hp i.val), fun _ _ => ⟨rfl, rfl⟩⟩

/-- One more `backspace`, which blanks the cell before the cursor. -/
theorem backspace (h : Blanked p c d) (hne : ¬ (d.screenX = 0 ∧ d.screenY = 0)) {k : ℕ}
    (hk : d.cursor - 1 = (k : Int)) (hlt : k < 2000) (hq : ∀ i, q i ↔ i = k ∨ p i) :
    Blanked q c d.backspace := by
  have htext : ∀ i, d.backspace.text i = if i.val = k then 0 else d.text i := fun i => by
    rw [Console.backspace, if_neg hne, ← setCell_nat_text d 0 hlt i, ← hk]
    rfl
  have hattr : ∀ i, d.backspace.attr i = if i.val = k then attrib else d.attr i := fun i => by
    rw [Console.backspace, if_neg hne, ← setCell_nat_attr d 0 hlt i, ← hk]
    rfl
  refine ⟨fun i hi => ?_, fun i hi => ?_⟩
  · rw [htext, hattr]
    rcases (hq i.val).mp hi with heq | hold
    · rw [if_pos heq, if_pos heq]
      exact ⟨rfl, rfl⟩
    · rw [(h.blank i hold).1, (h.blank i hold).2, ite_self, ite_self]
      exact ⟨rfl, rfl⟩
  · have hnot := not_or.mp (mt (hq i.val).mpr hi)
    rw [htext, hattr, if_neg hnot.1, if_neg hnot.1]
    exact h.other i hnot.2

/-- What is blanked first and what is blanked then. -/
theorem trans (h : Blanked p c d) (h' : Blanked q d e) : Blanked (fun i => p i ∨ q i) c e := by
  refine ⟨fun i hi => ?_, fun i hi => ?_⟩
  · by_cases hlate : q i.val
    · exact h'.blank i hlate
    · rw [(h'.other i hlate).1, (h'.other i hlate).2]
      exact h.blank i (hi.resolve_right hlate)
  · have hnot := not_or.mp hi
    rw [(h'.other i hnot.2).1, (h'.other i hnot.2).2]
    exact h.other i hnot.1

end Blanked

/-- Erasing inside a row: the cursor goes back, and the cells behind it are blank. -/
theorem CursorAt.backspaces (h : CursorAt x y c) {m : ℕ} (hm : m ≤ x) :
    CursorAt (x - m) y (backspace^[m] c) ∧
      Blanked (fun i => 80 * y + (x - m) ≤ i ∧ i < 80 * y + x) c (backspace^[m] c) := by
  induction m with
  | zero => exact ⟨h, Blanked.none c fun i hi => by omega⟩
  | succ m ih =>
    obtain ⟨hcursor, hblank⟩ := ih (Nat.le_of_succ_le hm)
    have hcol := hcursor.col
    have hx : (backspace^[m] c).screenX ≠ 0 := by omega
    obtain ⟨hcol', hrow'⟩ := backspace_cursor hcursor.range hx hcursor.row_lt
    have hlt := hcursor.cell_lt
    have hx₀ := h.x_lt
    rw [Function.iterate_succ_apply']
    refine ⟨⟨?_, hrow'.trans hcursor.row, by omega, h.y_lt⟩,
      hblank.backspace (fun hzero => hx hzero.1) (k := 80 * y + (x - (m + 1))) ?_ (by omega)
        fun i => by omega⟩
    · rw [hcol', hcol]
      omega
    · rw [hcursor.cursor_eq]
      omega

/-- Erasing from the start of a row other than the first: the cursor stays in the row, at
columns 0 to -79, and the row above is blanked from its end on, over and over. -/
theorem CursorAt.backspaces_behind (h : CursorAt 0 (y + 1) c) (m : ℕ) :
    (backspace^[m] c).screenX = -((m % 80 : ℕ) : Int) ∧
      (backspace^[m] c).screenY = ((y + 1 : ℕ) : Int) ∧
      Blanked (fun i => 80 * y ≤ i ∧ i < 80 * y + 80 ∧ 80 * y + 80 ≤ i + m) c
        (backspace^[m] c) := by
  induction m with
  | zero => exact ⟨h.col, h.row, Blanked.none c fun i hi => by omega⟩
  | succ m ih =>
    obtain ⟨hcol, hrow, hblank⟩ := ih
    have hy := h.y_lt
    have hne : ¬ ((backspace^[m] c).screenX = 0 ∧ (backspace^[m] c).screenY = 0) := by
      rw [hrow]
      omega
    -- column -80 is reduced to 0, and no column carries into the row
    have hnext : (-((m % 80 : ℕ) : Int) - 1).tmod 80 = -(((m + 1) % 80 : ℕ) : Int) := by
      have hneg : -((m % 80 : ℕ) : Int) - 1 = -((m % 80 + 1 : ℕ) : Int) := by omega
      rw [hneg, Int.neg_tmod, Int.tmod_eq_emod_of_nonneg (by omega)]
      omega
    have hcarry : (-(((m + 1) % 80 : ℕ) : Int)).tdiv 80 = 0 := by
      rw [Int.neg_tdiv, Int.tdiv_eq_ediv_of_nonneg (by omega)]
      omega
    have hkeep : (((y + 1 : ℕ) : Int) + 0).tmod 25 = ((y + 1 : ℕ) : Int) := by
      rw [Int.tmod_eq_emod_of_nonneg (by omega)]
      omega
    have hx79 : ¬ -(((m + 1) % 80 : ℕ) : Int) = 79 := by omega
    rw [Function.iterate_succ_apply']
    refine ⟨?_, ?_, hblank.backspace hne (k := 80 * y + 79 - m % 80) ?_ (by omega)
      fun i => by omega⟩
    · rw [backspace, if_neg hne]
      simp only [setCell_screenX, hcol, hnext]
    · rw [backspace, if_neg hne]
      simp only [setCell_screenX, setCell_screenY, hcol, hrow, hnext, hcarry, hkeep,
        if_neg hx79]
    · rw [cursor, hcol, hrow]
      omega

/-- At the start of the page nothing is erased. -/
theorem CursorAt.backspaces_first (h : CursorAt 0 0 c) (m : ℕ) : backspace^[m] c = c := by
  refine Function.iterate_fixed ?_ m
  rw [backspace, if_pos ⟨h.col, h.row⟩]

/-- The cursor is where it was, the cells of the string hold 0, and no other cell has
changed. -/
structure Erased (start n : ℕ) (c d : Console) : Prop where
  col : d.screenX = c.screenX
  row : d.screenY = c.screenY
  blank : ∀ i : Fin 2000, start ≤ i.val → i.val < start + n → d.text i = 0
  other : ∀ i : Fin 2000, i.val < start ∨ start + n ≤ i.val →
    d.text i = c.text i ∧ d.attr i = c.attr i

/-- By accident a string from the start of row `y` on seems erased: the bytes of it that
stay in the row are zeros, and so are the cells it should have been printed to further
down and the row above, which is blanked in its place. -/
structure SeemsErased (y : ℕ) (s : List Byte) (c : Console) : Prop where
  typed : ∀ (k : ℕ) (hk : k < s.length), s.length ≤ k + 80 → s.length % 80 ≤ k % 80 → s[k] = 0
  beyond : ∀ i : Fin 2000, 80 * y + 80 ≤ i.val → i.val < 80 * y + s.length → c.text i = 0
  above : ∀ i : Fin 2000, i.val < 80 * y → 80 * y ≤ i.val + 80 → c.text i = 0 ∧ c.attr i = attrib

/-- What is left after erasing a string that has gone round in its row: the cursor is back
only if it was in column 0, and blank are the part of the row that the string came back to
and what has been erased of the row above. -/
structure ErasedRound (x y : ℕ) (s : List Byte) (d e : Console) : Prop where
  long : 80 ≤ x + s.length
  col : e.screenX = x ↔ x = 0
  row : e.screenY = y
  blanked : Blanked (fun i => 80 * y ≤ i ∧ i < 80 * y + (x + s.length) % 80 ∨
    i < 80 * y ∧ 80 * y ≤ i + 80 ∧ 80 * y + (x + s.length) % 80 ≤ i + s.length) d e

namespace Printed

/-- First the part of the row is erased that the string came back to, then, for ever, the
row above. -/
theorem backspaces (h : Printed x y s c d) (hx : x < 80) (hlong : 80 ≤ x + s.length) :
    ErasedRound x y s d (backspace^[s.length] d) := by
  obtain ⟨m, hm⟩ : ∃ m, s.length = m + (x + s.length) % 80 :=
    ⟨s.length - (x + s.length) % 80, by omega⟩
  obtain ⟨hcursor, hrow⟩ := h.cursor.backspaces le_rfl
  have hiter : backspace^[s.length] d = backspace^[m] (backspace^[(x + s.length) % 80] d) := by
    rw [← Function.iterate_add_apply, ← hm]
  rw [Nat.sub_self] at hcursor hrow
  rw [hiter]
  rcases y with _ | y
  · rw [hcursor.backspaces_first]
    refine ⟨hlong, ?_, hcursor.row, ?_⟩
    · rw [hcursor.col]
      omega
    · exact ⟨fun i hi => hrow.blank i (by omega), fun i hi => hrow.other i (by omega)⟩
  · obtain ⟨hcol, hrow', habove⟩ := hcursor.backspaces_behind m
    refine ⟨hlong, ?_, hrow', ?_⟩
    · rw [hcol]
      omega
    · have hboth := hrow.trans habove
      exact ⟨fun i hi => hboth.blank i (by omega), fun i hi => hboth.other i (by omega)⟩

/-- A string that stands in its row, with the cursor behind it, is erased. -/
theorem erased_of_fits (h : Printed x y s c d) (hcursor : CursorAt x y c)
    (hfits : x + s.length < 80) :
    Erased (80 * y + x) s.length c (backspace^[s.length] d) := by
  have hbehind := h.cursor
  rw [Nat.mod_eq_of_lt hfits] at hbehind
  obtain ⟨hback, hblank⟩ := hbehind.backspaces (Nat.le_add_left _ _)
  rw [Nat.add_sub_cancel] at hback hblank
  refine ⟨hback.col.trans hcursor.col.symm, hback.row.trans hcursor.row.symm,
    fun i hi hi' => (hblank.blank i (by omega)).1, fun i hi => ?_⟩
  have hkept := hblank.other i (by omega)
  rw [hkept.1, hkept.2]
  exact h.other i fun j hj => by omega

section round

variable {e : Console}

/-- The cells behind the row are as before. -/
theorem round_behind (h : Printed x y s c d) (he : ErasedRound x y s d e) {i : Fin 2000}
    (hi : 80 * y + 80 ≤ i.val) : e.text i = c.text i := by
  rw [(he.blanked.other i (by omega)).1]
  exact (h.behind hi).1

theorem seemsErased (h : Printed 0 y s c d) (hy : y < 25) (he : ErasedRound 0 y s d e)
    (herased : Erased (80 * y + 0) s.length c e) : SeemsErased y s c := by
  have hlong := he.long
  refine ⟨fun k hk hlast hlate => ?_, fun i hi hi' => ?_, fun i hi hi' => ?_⟩
  · have hcell : 80 * y + k % 80 < 2000 := by omega
    have hprinted := (h.last k hk hlast ⟨_, hcell⟩ (by rw [Nat.zero_add])).1
    rw [← hprinted, ← (he.blanked.other ⟨_, hcell⟩ (by dsimp only; omega)).1]
    exact herased.blank _ (Nat.le_add_right _ _) (by dsimp only; omega)
  · rw [← h.round_behind he hi]
    exact herased.blank i (by omega) (by omega)
  · obtain ⟨htext, hattr⟩ := herased.other i (Or.inl hi)
    rw [← htext, ← hattr]
    exact he.blanked.blank i (Or.inr (by omega))

theorem erased_of_seems (h : Printed 0 y s c d) (hcursor : CursorAt 0 y c)
    (he : ErasedRound 0 y s d e) (hseems : SeemsErased y s c) :
    Erased (80 * y + 0) s.length c e := by
  have hlong := he.long
  refine ⟨(he.col.mpr rfl).trans hcursor.col.symm, he.row.trans hcursor.row.symm,
    fun i hi hi' => ?_, fun i hi => ?_⟩
  · by_cases hback : i.val < 80 * y + (0 + s.length) % 80
    · exact (he.blanked.blank i (Or.inl (by omega))).1
    · by_cases hin : i.val < 80 * y + 80
      · -- a cell of the row that is not erased
        obtain ⟨k, hk, hlast, hcell, -⟩ :=
          exists_last (x := 0) (j := i.val - 80 * y) (n := s.length) (by omega)
        rw [(he.blanked.other i (by omega)).1, (h.last k hk hlast i (by omega)).1]
        exact hseems.typed k hk hlast (by omega)
      · rw [h.round_behind he (by omega)]
        exact hseems.beyond i (by omega) (by omega)
  · by_cases habove : i.val < 80 * y ∧ 80 * y ≤ i.val + 80
    · rw [(hseems.above i habove.1 habove.2).1, (hseems.above i habove.1 habove.2).2]
      exact he.blanked.blank i (Or.inr (by omega))
    · rw [(he.blanked.other i (by omega)).1, (he.blanked.other i (by omega)).2]
      exact h.other i fun j _ => by omega

end round

end Printed

/-- As many calls of `backspace` as a string has bytes erase it exactly if it does not
reach the last column, or if by accident that does not show. -/
theorem backspaces_erase_iff (h : CursorAt x y c) (hs : ∀ ch ∈ s, Printable ch) :
    Erased (80 * y + x) s.length c (backspace^[s.length] (puts s c)) ↔
      x + s.length < 80 ∨ x = 0 ∧ SeemsErased y s c := by
  have hp := h.puts hs
  by_cases hfits : x + s.length < 80
  · exact iff_of_true (hp.erased_of_fits h hfits) (Or.inl hfits)
  · have hround := hp.backspaces h.x_lt (Nat.not_lt.mp hfits)
    constructor
    · intro herased
      have hzero : x = 0 := hround.col.mp (herased.col.trans h.col)
      subst hzero
      exact Or.inr ⟨rfl, hp.seemsErased h.y_lt hround herased⟩
    · rintro (hshort | ⟨hzero, hseems⟩)
      · exact absurd hshort hfits
      · subst hzero
        exact hp.erased_of_seems h hround hseems

/-- A letter printed before the last column. -/
theorem backspaces_erase_sample : CursorAt 78 0 ⟨fun _ => 0, 78, 0⟩ ∧
    Erased (80 * 0 + 78) 1 ⟨fun _ => 0, 78, 0⟩
      (backspace^[1] (puts [0x61] ⟨fun _ => 0, 78, 0⟩)) := by
  have h : CursorAt 78 0 ⟨fun _ => 0, 78, 0⟩ := ⟨rfl, rfl, by decide, by decide⟩
  exact ⟨h, (backspaces_erase_iff h (s := [0x61]) (by decide)).mpr (Or.inl (by decide))⟩

/-- A letter printed in the last column of the first row: `backspace` does nothing. -/
theorem last_letter_not_erased : CursorAt 79 0 ⟨fun _ => 0, 79, 0⟩ ∧
    ¬ Erased (80 * 0 + 79) 1 ⟨fun _ => 0, 79, 0⟩
      (backspace^[1] (puts [0x61] ⟨fun _ => 0, 79, 0⟩)) := by
  refine ⟨⟨rfl, rfl, by decide, by decide⟩, fun herased => ?_⟩
  have hcol := herased.col
  revert hcol
  decide

end Os391
