import Mathlib.Data.List.GetD
import Os391.Grep

/-!
# What `grep` prints for a file

A buffer of `grep` begins where a line, or a piece of a line too long for it, begins. Of a
full buffer the lines that end in it are searched, and the rest is moved to the front. At
the end of the file the kernel has filled the buffer with the bytes behind the file, which
the program takes for text: `strcpy` moves the last line up to the first NUL only, and what
stood there before is searched with it.
-/

namespace Os391

open Bytes Segment Lines Itoa Support

namespace Grep

/-! ## The text of a file -/

/-- The lines of a text, those that are too long for a buffer in pieces. -/
def cuts (text : List Byte) : List (List Byte) :=
  (text.splitOn newlineChar).flatMap (pieces 1024)

/-- What is kept of a full buffer. -/
def kept (buffer : List Byte) : List Byte :=
  if newlineChar ∈ buffer then (buffer.splitOn newlineChar).getLastD [] else []

section kept

variable {ls : List (List Byte)} {t : List Byte}

theorem mem_terminated (hne : ls ≠ []) (t : List Byte) :
    newlineChar ∈ terminated newlineChar ls ++ t := by
  obtain ⟨l, ls, rfl⟩ := List.exists_cons_of_ne_nil hne
  simp [terminated_cons]

theorem kept_terminated (hls : ∀ l ∈ ls, newlineChar ∉ l) (ht : newlineChar ∉ t) (hne : ls ≠ []) :
    kept (terminated newlineChar ls ++ t) = t := by
  rw [kept, if_pos (mem_terminated hne t), splitOn_terminated hls, splitOn_of_notMem ht]
  simp

theorem length_kept_le (buffer : List Byte) : (kept buffer).length ≤ buffer.length - 1 := by
  obtain ⟨ls, t, hls, ht, rfl⟩ := exists_terminated newlineChar buffer
  by_cases hne : ls = []
  · subst hne
    have hnone : kept (terminated newlineChar [] ++ t) = [] := if_neg ht
    rw [hnone]
    exact Nat.zero_le _
  · rw [kept_terminated hls ht hne]
    obtain ⟨l, ls, rfl⟩ := List.exists_cons_of_ne_nil hne
    simp only [terminated_cons, List.append_assoc, List.cons_append, List.length_append,
      List.length_cons]
    omega

theorem mem_of_mem_kept {buffer : List Byte} {b : Byte} (h : b ∈ kept buffer) : b ∈ buffer := by
  obtain ⟨ls, t, hls, ht, rfl⟩ := exists_terminated newlineChar buffer
  by_cases hne : ls = []
  · subst hne
    have hnone : kept (terminated newlineChar [] ++ t) = [] := if_neg ht
    rw [hnone] at h
    exact absurd h List.not_mem_nil
  · rw [kept_terminated hls ht hne] at h
    exact List.mem_append_right _ h

end kept

/-- The text from where the last buffer begins. -/
def lastBuffer (text : List Byte) : List Byte :=
  if text.length ≤ 1024 then text
  else lastBuffer (kept (text.take 1024) ++ text.drop 1024)
termination_by text.length
decreasing_by
  have hkept := length_kept_le (text.take 1024)
  rw [List.length_take] at hkept
  rw [List.length_append, List.length_drop]
  omega

/-- A newline is overwritten with a NUL. -/
def ended (b : Byte) : Byte := if b = newlineChar then 0 else b

/-- What has stayed in the last buffer behind the last line and its NUL, as far as the
program takes it for text. -/
def leftover (buffer : List Byte) : List Byte :=
  ((buffer.map ended ++ List.replicate (1024 - buffer.length) 0).drop
    ((kept buffer).length + 1)).take (1024 - buffer.length - 1)

/-- The last line is printed, although it does not contain the string, if what has stayed in
the buffer does. -/
def stray (f p buffer : List Byte) : List Byte :=
  if newlineChar ∈ buffer ∧ ¬ p <:+: kept buffer ∧ p <:+: leftover buffer then
    report f (kept buffer)
  else []

/-- What is printed for a text. -/
def output (f p text : List Byte) : List Byte :=
  (cuts text).flatMap (shown f p) ++ stray f p (lastBuffer text)

section text

variable {f p : List Byte}

theorem shown_nil (hp : p ≠ []) : shown f p [] = [] := by
  rw [shown, if_neg]
  rwa [List.infix_nil]

/-- A line that fits is not cut. -/
theorem shown_pieces (hp : p ≠ []) {l : List Byte} (h : l.length ≤ 1024) :
    (pieces 1024 l).flatMap (shown f p) = shown f p l := by
  by_cases hne : l = []
  · subst hne
    rw [pieces_nil, shown_nil hp]
    rfl
  · rw [pieces_of_length_le hne h]
    simp

theorem cuts_cons {l : List Byte} (hl : newlineChar ∉ l) (text : List Byte) :
    cuts (l ++ newlineChar :: text) = pieces 1024 l ++ cuts text := by
  rw [cuts, splitOn_append_sep hl, List.flatMap_cons]
  rfl

/-- Lines that fit, and what comes after them. -/
theorem cuts_terminated (hp : p ≠ []) {ls : List (List Byte)}
    (hls : ∀ l ∈ ls, newlineChar ∉ l) (hshort : (terminated newlineChar ls).length ≤ 1024)
    (text : List Byte) :
    (cuts (terminated newlineChar ls ++ text)).flatMap (shown f p) =
      ls.flatMap (shown f p) ++ (cuts text).flatMap (shown f p) := by
  induction ls with
  | nil => rfl
  | cons l ls ih =>
    rw [terminated_cons, List.length_append, List.length_cons] at hshort
    rw [terminated_cons, List.append_assoc, List.cons_append, cuts_cons (hls l List.mem_cons_self),
      List.flatMap_append, ih (fun l hl => hls l (List.mem_cons_of_mem _ hl)) (by omega),
      shown_pieces hp (by omega), List.flatMap_cons, List.append_assoc]

/-- A line by itself. -/
theorem cuts_line (hp : p ≠ []) {t : List Byte} (ht : newlineChar ∉ t) (hshort : t.length ≤ 1024) :
    (cuts t).flatMap (shown f p) = shown f p t := by
  rw [cuts, splitOn_of_notMem ht, List.flatMap_singleton, shown_pieces hp hshort]

/-- A buffer without a newline. -/
theorem cuts_piece {t : List Byte} (ht : newlineChar ∉ t) (hfull : t.length = 1024)
    (text : List Byte) : cuts (t ++ text) = t :: cuts text := by
  obtain ⟨l, ls, hlines⟩ := exists_splitOn newlineChar text
  rw [cuts, splitOn_append ht hlines, List.flatMap_cons, pieces_append (by decide) hfull, cuts,
    hlines, List.flatMap_cons, List.cons_append]

theorem lastBuffer_short {text : List Byte} (h : text.length ≤ 1024) : lastBuffer text = text := by
  rw [lastBuffer, if_pos h]

theorem lastBuffer_append {buffer : List Byte} (hfull : buffer.length = 1024) {text : List Byte}
    (hmore : text ≠ []) : lastBuffer (buffer ++ text) = lastBuffer (kept buffer ++ text) := by
  have hpos := List.length_pos_of_ne_nil hmore
  rw [lastBuffer, if_neg (by rw [List.length_append]; omega), List.take_left' hfull,
    List.drop_left' hfull]

end text

/-! ## One buffer -/

section buffer

variable {data s fname : ℕ → Byte} {p f t : List Byte} {ls : List (List Byte)} {cnt : Int} {z : ℕ}

theorem holds_put {mem : ℕ → Byte} {u buffer : List Byte} (h : Holds mem 0 buffer)
    (hle : u.length ≤ buffer.length) : Holds (put mem 0 u) 0 (u ++ buffer.drop u.length) := by
  refine holds_append_iff.mpr ⟨fun k hk => put_add 0 hk, fun k hk => ?_⟩
  rw [List.length_drop] at hk
  have hbuffer := h (u.length + k) (by omega)
  rw [Nat.zero_add] at hbuffer
  rw [put_of_le (by omega), Nat.zero_add, List.getElem_drop, hbuffer]

/-- The buffer after the last line has been moved to the front, up to `last`. -/
def moved (ls : List (List Byte)) (t : List Byte) (z : ℕ) : List Byte :=
  let front := t ++ [(0 : Byte)]
  (front ++ (terminated 0 ls ++ (t ++ List.replicate z 0)).drop front.length).take (t.length + z)

/-- A full buffer with a newline in it. -/
theorem linesLoop_keep (h : Strings s fname p f) (hls : ∀ l ∈ ls, newlineChar ∉ l ∧ 0 ∉ l)
    (ht : newlineChar ∉ t) (hnul : 0 ∉ t) (hne : ls ≠ [])
    (hfull : (terminated newlineChar ls ++ t).length + z = 1024)
    (hdata : Holds data 0 (terminated newlineChar ls ++ (t ++ List.replicate z 0)))
    (hbeyond : data 1024 ≠ newlineChar) (hcnt : cnt ≠ 0) :
    ∃ n data', (∀ fuel, n ≤ fuel → linesLoop s fname cnt 1024 fuel 0 data =
        some ⟨ls.flatMap (shown f p), data', t.length + z⟩) ∧
      data' 1024 ≠ newlineChar ∧ Holds data' 0 (moved ls t z) := by
  have hlength : (t ++ List.replicate z (0 : Byte)).length = t.length + z := by
    rw [List.length_append, List.length_replicate]
  rw [List.length_append] at hfull
  by_cases hrest : t ++ List.replicate z (0 : Byte) = []
  · -- the newline is the last byte of the buffer
    obtain ⟨ls, l, rfl⟩ := (List.eq_nil_or_concat' ls).resolve_left hne
    have hz : t.length + z = 0 := by rw [← hlength, hrest, List.length_nil]
    obtain ⟨hnot, hnul'⟩ := hls l (List.mem_append_right _ List.mem_cons_self)
    rw [hrest, List.append_nil, terminated_concat] at hdata
    have hlast : (terminated newlineChar ls ++ (l ++ [newlineChar])).length = 1024 := by
      rw [← terminated_concat]
      omega
    obtain ⟨data', hdata', hout, hloop⟩ := linesLoop_lines h
      (fun l hl => hls l (List.mem_append_left _ hl)) (by simp) hdata
      ((Nat.zero_add _).trans hlast) (by decide) cnt
    rw [List.length_append, List.length_append, List.length_singleton] at hlast
    have hl := (holds_append_iff.mp hdata').2
    rw [length_terminated newlineChar] at hl
    refine ⟨1 + ls.length, Function.update data' (0 + (terminated newlineChar ls).length + l.length) 0,
      fun fuel hfuel => ?_, ?_, ?_⟩
    · obtain ⟨m, rfl⟩ := Nat.exists_eq_add_of_le hfuel
      have hfits : 0 + (terminated newlineChar ls).length + l.length < 1024 := by omega
      have hline := linesLoop_line h hl hnot hnul' hfits (by decide) cnt m
      have hfuel' : 1 + ls.length + m = m + 1 + ls.length := by omega
      rw [hfuel', hloop, hline]
      rw [if_pos (by omega), Option.map_some, hz, Pass.after, List.flatMap_append,
        List.flatMap_singleton]
    · rw [Function.update_of_ne (by omega), hout 1024 (Or.inr (Nat.le_refl _))]
      exact hbeyond
    · rw [moved, hz, List.take_zero]
      exact holds_nil
  · have hlast : 0 + (terminated newlineChar ls ++ (t ++ List.replicate z 0)).length = 1024 := by
      rw [List.length_append]
      omega
    obtain ⟨data', hdata', hout, hloop⟩ := linesLoop_lines h hls hrest hdata hlast (by decide) cnt
    obtain ⟨l, ls', hcons⟩ := List.exists_cons_of_ne_nil hne
    have hstart : 0 < (terminated newlineChar ls).length := by
      rw [hcons, terminated_cons, List.length_append, List.length_cons]
      omega
    have hl := (holds_append_iff.mp hdata').2
    rw [length_terminated newlineChar] at hl
    have hnot : newlineChar ∉ t ++ List.replicate z 0 := by
      rw [List.mem_append, not_or]
      exact ⟨ht, fun hmem => absurd (List.eq_of_mem_replicate hmem) (by decide)⟩
    have hmid : data' 1024 ≠ newlineChar := by
      rw [hout 1024 (Or.inr (Nat.le_refl _))]
      exact hbeyond
    have hput : (t ++ [(0 : Byte)]).length ≤ 1024 := by
      rw [List.length_append, List.length_singleton]
      omega
    refine ⟨1 + (t.length + z + 1) + ls.length,
      put (Function.update data' 1024 0) 0 (t ++ [0]), fun fuel hfuel => ?_, ?_, ?_⟩
    · obtain ⟨m, rfl⟩ := Nat.exists_eq_add_of_le hfuel
      have hend : 0 + (terminated newlineChar ls).length + (t ++ List.replicate z 0).length = 1024 := by
        omega
      have hcarry : linesLoop s fname cnt 1024 (t.length + z + 1 + m + 1)
          (0 + (terminated newlineChar ls).length) data' = _ :=
        linesLoop_carry hl hnot hend hmid hcnt (by omega) (by omega)
      rw [textOf_append_zeros hnul, hlength] at hcarry
      have hfuel' : 1 + (t.length + z + 1) + ls.length + m = t.length + z + 1 + m + 1 + ls.length := by
        omega
      rw [hfuel', hloop, hcarry, Option.map_some, Pass.after, List.append_nil]
    · rw [put_of_le (by omega), Function.update_self]
      decide
    · refine (holds_put ?_ ?_).take _
      · refine hdata'.congr fun k _ hk => Function.update_of_ne ?_ _ _
        rw [List.length_append, length_terminated newlineChar, hlength] at hk
        omega
      · rw [List.length_append, List.length_append, List.length_singleton,
          length_terminated newlineChar, hlength]
        omega

/-- A full buffer without a newline. -/
theorem linesLoop_piece (h : Strings s fname p f) (ht : newlineChar ∉ t) (hnul : 0 ∉ t)
    (hfull : t.length + z = 1024) (hdata : Holds data 0 (t ++ List.replicate z 0))
    (cnt : Int) :
    ∃ data', (∀ fuel, 1 ≤ fuel → linesLoop s fname cnt 1024 fuel 0 data =
        some ⟨shown f p t, data', 0⟩) ∧ data' 1024 ≠ newlineChar := by
  have hnot : newlineChar ∉ t ++ List.replicate z 0 := by
    rw [List.mem_append, not_or]
    exact ⟨ht, fun hmem => absurd (List.eq_of_mem_replicate hmem) (by decide)⟩
  have hlength : 0 + (t ++ List.replicate z (0 : Byte)).length = 1024 := by
    rw [List.length_append, List.length_replicate]
    omega
  refine ⟨Function.update data 1024 0, fun fuel hfuel => ?_, ?_⟩
  · obtain ⟨m, rfl⟩ := Nat.exists_eq_add_of_le' hfuel
    have hlast := linesLoop_last h hdata hnot hlength (by decide)
      (Or.inr rfl : cnt = 0 ∨ 0 = 0) m
    rw [textOf_append_zeros hnul] at hlast
    rw [hlast, shown]
    simp only [infix_append_replicate_iff h.search.nonzero h.nonempty]
  · rw [Function.update_self]
    decide

/-- What has been moved to the front is the line, and what the leftovers are. -/
theorem moved_eq (hls : ∀ l ∈ ls, newlineChar ∉ l) (ht : newlineChar ∉ t) (hne : ls ≠ [])
    (hfull : (terminated newlineChar ls ++ t).length + z = 1024) :
    moved ls t z =
      if z = 0 then t else t ++ 0 :: leftover (terminated newlineChar ls ++ t) := by
  have hmap : (terminated newlineChar ls ++ t).map ended = terminated 0 ls ++ t := by
    have hsame : ∀ l : List Byte, newlineChar ∉ l → l.map ended = l := by
      intro l hl
      refine (List.map_congr_left fun b hb => if_neg ?_).trans (List.map_id l)
      rintro rfl
      exact hl hb
    rw [List.map_append, map_terminated, hsame t ht]
    congr 1
    exact congrArg _ ((List.map_congr_left fun l hl => hsame l (hls l hl)).trans (List.map_id ls))
  have hz : 1024 - (terminated newlineChar ls ++ t).length = z := by omega
  rw [moved, leftover, kept_terminated hls ht hne, hmap, hz, List.append_assoc (terminated 0 ls)]
  rw [List.length_append, List.length_singleton, List.append_assoc]
  cases z with
  | zero =>
    rw [if_pos rfl, Nat.add_zero, List.take_left' rfl]
  | succ z =>
    rw [if_neg (Nat.succ_ne_zero z), List.take_length_add_append, List.singleton_append,
      List.take_succ_cons, Nat.add_sub_cancel]

theorem length_leftover {buffer : List Byte} (h : buffer.length ≤ 1024) :
    (leftover buffer).length = 1024 - buffer.length - 1 := by
  have hkept := length_kept_le buffer
  simp only [leftover, List.length_take, List.length_drop, List.length_append, List.length_map,
    List.length_replicate]
  omega

theorem notMem_leftover (buffer : List Byte) : newlineChar ∉ leftover buffer := by
  intro hmem
  rcases List.mem_append.mp (List.mem_of_mem_drop (List.mem_of_mem_take hmem)) with hmem | hmem
  · obtain ⟨b, -, hb⟩ := List.mem_map.mp hmem
    rw [ended] at hb
    split at hb
    · exact absurd hb (by decide)
    · next hne => exact hne hb
  · exact absurd (List.eq_of_mem_replicate hmem) (by decide)

/-- What is left of the buffer when the inner loop has ended with `r`: `carry` is at the front.
Of a full buffer it is what belongs to the next one; if there is no next one it is searched as
it is. -/
structure Emptied (f p buffer : List Byte) (r : Pass) (carry : List Byte) : Prop where
  beyond : r.data 1024 ≠ newlineChar
  holds : Holds r.data 0 carry
  last : r.last = carry.length
  notMem : newlineChar ∉ carry
  short : carry.length ≤ 1024
  full : buffer.length = 1024 → carry = kept buffer ∧ ∀ text,
    (cuts (buffer ++ text)).flatMap (shown f p) =
      r.printed ++ (cuts (carry ++ text)).flatMap (shown f p)
  final : r.printed ++ (if p <:+: carry then report f (textOf carry) else []) = output f p buffer

theorem output_line (hp : p ≠ []) (ht : newlineChar ∉ t) (hshort : t.length ≤ 1024) :
    output f p t = shown f p t := by
  rw [output, lastBuffer_short hshort, cuts_line hp ht hshort, stray,
    if_neg fun hstray => ht hstray.1, List.append_nil]

theorem output_lines (hp : p ≠ []) (hls : ∀ l ∈ ls, newlineChar ∉ l) (ht : newlineChar ∉ t)
    (hne : ls ≠ []) (hshort : (terminated newlineChar ls ++ t).length ≤ 1024) :
    output f p (terminated newlineChar ls ++ t) = ls.flatMap (shown f p) ++
      if p <:+: t ∨ p <:+: leftover (terminated newlineChar ls ++ t) then report f t else [] := by
  have hlength := hshort
  rw [List.length_append] at hlength
  rw [output, lastBuffer_short hshort, cuts_terminated hp hls (by omega),
    cuts_line hp ht (by omega), List.append_assoc, stray, kept_terminated hls ht hne]
  congr 1
  by_cases hin : p <:+: t
  · rw [if_pos (Or.inl hin), if_neg fun hstray => hstray.2.1 hin, List.append_nil]
    exact if_pos hin
  · have hshown : shown f p t = [] := if_neg hin
    rw [hshown, List.nil_append]
    simp only [mem_terminated hne t, hin, true_and, not_false_eq_true, false_or]

/-- A buffer without a newline. -/
theorem emptied_piece (hp : p ≠ []) (ht : newlineChar ∉ t) (hshort : t.length ≤ 1024)
    (hbeyond : data 1024 ≠ newlineChar) : Emptied f p t ⟨shown f p t, data, 0⟩ [] := by
  refine ⟨hbeyond, holds_nil, rfl, List.not_mem_nil, Nat.zero_le _, fun hfull => ⟨?_, fun text => ?_⟩,
    ?_⟩
  · exact (if_neg ht).symm
  · rw [cuts_piece ht hfull, List.flatMap_cons]
    rfl
  · have hnone : ¬ p <:+: [] := by rwa [List.infix_nil]
    rw [output_line hp ht hshort, if_neg hnone, List.append_nil]

/-- A buffer with a newline. -/
theorem emptied_lines (h : Strings s fname p f) (hls : ∀ l ∈ ls, newlineChar ∉ l)
    (ht : newlineChar ∉ t) (hnul : 0 ∉ t) (hne : ls ≠ [])
    (hfull : (terminated newlineChar ls ++ t).length + z = 1024)
    (hbeyond : data 1024 ≠ newlineChar) (hdata : Holds data 0 (moved ls t z)) :
    Emptied f p (terminated newlineChar ls ++ t) ⟨ls.flatMap (shown f p), data, t.length + z⟩
      (moved ls t z) := by
  have hmoved := moved_eq hls ht hne hfull
  have hleft := @length_leftover (terminated newlineChar ls ++ t) (by omega)
  have hlength := hfull
  rw [List.length_append] at hlength
  refine ⟨hbeyond, hdata, ?_, ?_, ?_, fun hlen => ⟨?_, fun text => ?_⟩, ?_⟩
  · change t.length + z = (moved ls t z).length
    rw [hmoved]
    split
    · next hz => rw [hz, Nat.add_zero]
    · rw [List.length_append, List.length_cons]
      omega
  · rw [hmoved]
    split
    · exact ht
    · rw [List.mem_append, List.mem_cons, not_or, not_or]
      exact ⟨ht, by decide, notMem_leftover _⟩
  · rw [hmoved]
    split
    · omega
    · rw [List.length_append, List.length_cons]
      omega
  · rw [hmoved, if_pos (by omega), kept_terminated hls ht hne]
  · rw [hmoved, if_pos (by omega), List.append_assoc,
      cuts_terminated h.nonempty hls (by omega)]
  · rw [output_lines h.nonempty hls ht hne (by omega), hmoved]
    congr 1
    split
    · next hz =>
      -- the line has ended with the buffer
      have hnone : ¬ p <:+: leftover (terminated newlineChar ls ++ t) := by
        rw [List.eq_nil_of_length_eq_zero (l := leftover _) (by omega), List.infix_nil]
        exact h.nonempty
      rw [textOf_eq hnul]
      simp only [hnone, or_false]
    · rw [textOf_append hnul rfl]
      simp only [infix_append_sep_iff h.search.nonzero]

/-- One buffer, from its beginning to the call of `read` after it. -/
theorem exists_emptied (h : Strings s fname p f) {buffer : List Byte} (hshort : buffer.length ≤ 1024)
    (hnul : 0 ∉ buffer)
    (hdata : Holds data 0 (buffer ++ List.replicate (1024 - buffer.length) 0))
    (hbeyond : data 1024 ≠ newlineChar) (hcnt : cnt ≠ 0) :
    ∃ n r carry, (∀ fuel, n ≤ fuel → linesLoop s fname cnt 1024 fuel 0 data = some r) ∧
      Emptied f p buffer r carry := by
  obtain ⟨ls, t, hls, ht, rfl⟩ := exists_terminated newlineChar buffer
  by_cases hne : ls = []
  · subst hne
    obtain ⟨data', hloop, hbeyond'⟩ := linesLoop_piece (t := t) h ht hnul
      (Nat.add_sub_cancel' hshort) hdata cnt
    exact ⟨1, _, _, hloop, emptied_piece h.nonempty ht hshort hbeyond'⟩
  · have hfull := Nat.add_sub_cancel' hshort
    have hnot : ∀ l ∈ ls, 0 ∉ l := fun l hl hmem =>
      hnul (List.mem_append_left _ (List.mem_flatMap.mpr ⟨l, hl, List.mem_append_left _ hmem⟩))
    rw [List.append_assoc] at hdata
    obtain ⟨n, data', hloop, hbeyond', hdata'⟩ := linesLoop_keep h
      (fun l hl => ⟨hls l hl, hnot l hl⟩) ht (fun hmem => hnul (List.mem_append_right _ hmem)) hne
      hfull hdata hbeyond hcnt
    exact ⟨n, _, _, hloop, emptied_lines h hls ht (fun hmem => hnul (List.mem_append_right _ hmem))
      hne hfull hbeyond' hdata'⟩

end buffer

/-! ## The whole file -/

section file

variable {fs : FileSystem} {i : Fin 6} {fd : Fin 8} {inode pos : ℕ} {s fname : ℕ → Byte}
  {p f : List Byte} {data : ℕ → Byte} {k : Kernel}

/-- A text file of the image: its length fits its blocks, there are no NULs in it, and the
1024 bytes that `read_data` finds behind its end through `data_block[]` are NULs. -/
structure TextFile (fs : FileSystem) (inode : ℕ) : Prop where
  sized : fs.Sized inode
  text : 0 ∉ segment (fs.fileByte inode) 0 (fs.inodeLength inode)
  padding : ∀ k, fs.inodeLength inode ≤ k → k < fs.inodeLength inode + 1024 →
    fs.fileByte inode k = 0

/-- What descriptor `fd` has still to deliver. -/
def ahead (fs : FileSystem) (inode pos : ℕ) : List Byte :=
  segment (fs.fileByte inode) pos (fs.inodeLength inode - pos)

theorem TextFile.zero_notMem (h : TextFile fs inode) (hpos : pos ≤ fs.inodeLength inode) :
    0 ∉ ahead fs inode pos := by
  intro hmem
  refine h.text ?_
  have hsplit : fs.inodeLength inode = pos + (fs.inodeLength inode - pos) := by omega
  rw [hsplit, segment_add, Nat.zero_add]
  exact List.mem_append_right _ hmem

/-- A read delivers what is ahead, and the NULs behind the file. -/
theorem TextFile.segment_eq (h : TextFile fs inode) (hpos : pos < fs.inodeLength inode) {n : ℕ}
    (hn : n ≤ 1024) : segment (fs.fileByte inode) pos n =
      (ahead fs inode pos).take n ++ List.replicate (n - (fs.inodeLength inode - pos)) 0 := by
  have hlength : (ahead fs inode pos).length = fs.inodeLength inode - pos := length_segment _ _ _
  rcases Nat.lt_or_ge (fs.inodeLength inode - pos) n with hlt | hge
  · have hsplit : n = (fs.inodeLength inode - pos) + (n - (fs.inodeLength inode - pos)) := by omega
    rw [List.take_of_length_le (by omega)]
    conv_lhs => rw [hsplit, segment_add]
    congr 1
    refine List.eq_replicate_iff.mpr ⟨length_segment _ _ _, fun b hb => ?_⟩
    obtain ⟨j, hj, rfl⟩ := List.mem_map.mp hb
    have hj' := List.mem_range.mp hj
    exact h.padding _ (by omega) (by omega)
  · have hsplit : fs.inodeLength inode - pos = n + (fs.inodeLength inode - pos - n) := by omega
    rw [Nat.sub_eq_zero_of_le hge, List.replicate_zero, List.append_nil, ahead, hsplit,
      segment_add, List.take_left' (length_segment _ _ _)]

theorem drop_ahead (n : ℕ) : (ahead fs inode pos).drop n = ahead fs inode (pos + n) := by
  rcases Nat.lt_or_ge (fs.inodeLength inode - pos) n with hlt | hge
  · have hlength : (ahead fs inode pos).length = fs.inodeLength inode - pos := length_segment _ _ _
    rw [List.drop_of_length_le (by omega), ahead, Nat.sub_eq_zero_of_le (by omega)]
    rfl
  · have hsplit : fs.inodeLength inode - pos = n + (fs.inodeLength inode - (pos + n)) := by omega
    rw [ahead, hsplit, segment_add, List.drop_left' (length_segment _ _ _)]
    rfl

theorem holds_received {carry : List Byte} (h : Holds data 0 carry) (g : ℕ → Byte) (n : ℕ) :
    Holds (received data carry.length (fill g pos 0 n)) 0 (carry ++ segment g pos n) := by
  refine holds_append_iff.mpr ⟨fun j hj => ?_, fun j hj => ?_⟩
  · rw [Nat.zero_add, received, if_pos hj]
    exact (congrArg data (Nat.zero_add j)).symm.trans (h j hj)
  · rw [length_segment] at hj
    have hlast := lastStore_fill g (p := pos) (d := 0) hj
    rw [Nat.zero_add] at hlast
    rw [Nat.zero_add, received, if_neg (by omega), Nat.add_sub_cancel_left, hlast, getElem_segment]
    rfl

theorem received_beyond {m n j : ℕ} (g : ℕ → Byte) (h : m + n ≤ j) :
    received data m (fill g pos 0 n) j = data j := by
  rw [received, if_neg (by omega), lastStore_fill_of_not g (Or.inr (by omega))]
  rfl

/-- Where the program stands when it is about to read. -/
structure Stands (fs : FileSystem) (i : Fin 6) (fd : Fin 8) (inode pos : ℕ) (carry : List Byte)
    (data : ℕ → Byte) (k : Kernel) : Prop where
  pid : k.pid = i.val
  taken : ((k.processes i).fdArr fd).avail = 0
  place : At k i fd inode pos
  holds : Holds data 0 carry
  beyond : data 1024 ≠ newlineChar
  notMem : newlineChar ∉ carry

variable {carry : List Byte}

/-- At the end of the file what is in the buffer is searched as one line. -/
theorem readsLoop_end (h : Strings s fname p f) (hs : Stands fs i fd inode pos carry data k)
    (hend : fs.inodeLength inode ≤ pos) (hshort : carry.length < 2 ^ 32) {fuel : ℕ}
    (hfuel : 2 ≤ fuel) :
    readsLoop fs s fname fd.val fuel carry.length data k =
      some (true, if p <:+: carry then report f (textOf carry) else [], k) := by
  obtain ⟨m, rfl⟩ := Nat.exists_eq_add_of_le' hfuel
  have hsame : received data carry.length [] = data := by
    funext j
    rw [received, lastStore_eq_none fun x hx => absurd hx List.not_mem_nil]
    exact ite_self _
  have hlast := linesLoop_last h hs.holds hs.notMem (Nat.zero_add _) hshort
    (Or.inl rfl : (0 : Int) = 0 ∨ 0 = 0) m
  have hread := filesystemRead_end hs.pid hs.place hend (1024 - carry.length : ℕ)
  rw [readsLoop, hread]
  dsimp only
  rw [if_neg (by decide), hsame]
  have hlength : carry.length + (0 : Int).toNat = carry.length := Nat.add_zero _
  rw [hlength, hlast]
  rfl

/-- One turn of the outer loop before the end of the file. -/
theorem readsLoop_turn (hfile : TextFile fs inode) (hs : Stands fs i fd inode pos carry data k)
    (hpos : pos < fs.inodeLength inode) (hshort : carry.length < 1024) :
    let text := carry ++ ahead fs inode pos
    let n := 1024 - carry.length
    ∃ data', Holds data' 0 (text.take 1024 ++ List.replicate (1024 - (text.take 1024).length) 0) ∧
      data' 1024 ≠ newlineChar ∧
      ∀ fuel, readsLoop fs s fname fd.val (fuel + 1) carry.length data k =
        (linesLoop s fname n 1024 fuel 0 data').bind fun r =>
          (readsLoop fs s fname fd.val fuel r.last r.data (k.advance i fd n)).map fun t =>
            (t.1, r.printed ++ t.2.1, t.2.2) := by
  have hread := filesystemRead_inside (n := 1024 - carry.length) hs.pid hs.place hfile.sized hpos
    (by omega)
  have hlength : (ahead fs inode pos).length = fs.inodeLength inode - pos := length_segment _ _ _
  refine ⟨received data carry.length (fill (fs.fileByte inode) pos 0 (1024 - carry.length)),
    ?_, ?_, fun fuel => ?_⟩
  · have hdata : Holds _ 0 (carry ++ segment (fs.fileByte inode) pos (1024 - carry.length)) :=
      holds_received hs.holds (fs.fileByte inode) (1024 - carry.length)
    rw [hfile.segment_eq hpos (Nat.sub_le _ _), ← List.append_assoc] at hdata
    have htake : (carry ++ ahead fs inode pos).take 1024 =
        carry ++ (ahead fs inode pos).take (1024 - carry.length) := by
      rw [List.take_append, List.take_of_length_le (Nat.le_of_lt hshort)]
    rw [List.length_take, List.length_append, htake, hlength]
    have hzeros : 1024 - carry.length - (fs.inodeLength inode - pos) =
        1024 - min 1024 (carry.length + (fs.inodeLength inode - pos)) := by omega
    rwa [hzeros] at hdata
  · rw [received_beyond _ (by omega)]
    exact hs.beyond
  · rw [readsLoop, hread]
    dsimp only
    have hlast : carry.length + ((1024 - carry.length : ℕ) : Int).toNat = 1024 := by omega
    have hcnt : ((1024 - carry.length : ℕ) : Int) ≠ 0 := by omega
    rw [if_neg (by omega), hlast]
    simp only [if_neg hcnt]

theorem Stands.advance (hfile : TextFile fs inode) (hs : Stands fs i fd inode pos carry data k)
    {carry' : List Byte} {data' : ℕ → Byte} (hpos : pos < fs.inodeLength inode) {n : ℕ}
    (hn : n ≤ 1024) (hdata : Holds data' 0 carry') (hbeyond : data' 1024 ≠ newlineChar)
    (hnot : newlineChar ∉ carry') :
    Stands fs i fd inode (pos + n) carry' data' (k.advance i fd n) := by
  have hlength := hfile.sized.length_le
  refine ⟨hs.pid, ?_, hs.place.advance (by omega), hdata, hbeyond, hnot⟩
  simpa [FileDescriptor.advance] using hs.taken

/-- What the outer loop prints before the end of the file. -/
theorem readsLoop_eq (h : Strings s fname p f) (hfile : TextFile fs inode)
    (hs : Stands fs i fd inode pos carry data k) (hpos : pos < fs.inodeLength inode)
    (hshort : carry.length < 1024) (hnul : 0 ∉ carry) :
    ∃ (n : ℕ) (k' : Kernel), k'.pid = i.val ∧ ((k'.processes i).fdArr fd).avail = 0 ∧ ∀ fuel, n ≤ fuel →
      readsLoop fs s fname fd.val fuel carry.length data k =
        some (true, output f p (carry ++ ahead fs inode pos), k') := by
  -- by induction on what is still to be read
  generalize hm : fs.inodeLength inode - pos = m
  induction m using Nat.strong_induction_on generalizing pos carry data k with
  | _ m ih =>
    subst hm
    have hlength : (ahead fs inode pos).length = fs.inodeLength inode - pos := length_segment _ _ _
    obtain ⟨data', hdata', hbeyond', hturn⟩ := @readsLoop_turn _ _ _ _ _ s fname _ _ _ hfile hs
      hpos hshort
    have hzero : 0 ∉ (carry ++ ahead fs inode pos).take 1024 := by
      intro hmem
      rcases List.mem_append.mp (List.mem_of_mem_take hmem) with hmem | hmem
      · exact hnul hmem
      · exact hfile.zero_notMem (Nat.le_of_lt hpos) hmem
    have hcnt : ((1024 - carry.length : ℕ) : Int) ≠ 0 := by omega
    obtain ⟨n, r, carry', hloop, he⟩ := exists_emptied h (List.length_take_le _ _) hzero hdata'
      hbeyond' hcnt
    have hs' := hs.advance hfile hpos (Nat.sub_le 1024 carry.length) he.holds he.beyond he.notMem
    rcases Nat.lt_or_ge (pos + (1024 - carry.length)) (fs.inodeLength inode) with hmore | hend
    · -- another buffer: it begins with what is kept of this one
      have hfull : ((carry ++ ahead fs inode pos).take 1024).length = 1024 := by
        rw [List.length_take, List.length_append, hlength]
        omega
      have htext : carry ++ ahead fs inode pos = (carry ++ ahead fs inode pos).take 1024 ++
          ahead fs inode (pos + (1024 - carry.length)) := by
        conv_lhs => rw [← List.take_append_drop 1024 (carry ++ ahead fs inode pos)]
        rw [List.drop_append, List.drop_of_length_le (Nat.le_of_lt hshort), List.nil_append,
          drop_ahead]
      have hne : ahead fs inode (pos + (1024 - carry.length)) ≠ [] := by
        refine List.ne_nil_of_length_pos ?_
        rw [ahead, length_segment]
        omega
      obtain ⟨hkept, hcuts⟩ := he.full hfull
      have hkept_le := length_kept_le ((carry ++ ahead fs inode pos).take 1024)
      obtain ⟨m, k', hpid, htaken, hrest⟩ := ih _ (by omega) hs' hmore
        (by rw [hkept]; omega) (by rw [hkept]; exact fun hmem => hzero (mem_of_mem_kept hmem)) rfl
      refine ⟨n + m + 1, k', hpid, htaken, fun fuel hfuel => ?_⟩
      obtain ⟨fuel, rfl⟩ : ∃ m, fuel = m + 1 := ⟨fuel - 1, by omega⟩
      rw [hturn, hloop fuel (by omega), Option.bind_some, he.last, hrest fuel (by omega),
        Option.map_some, output, output, ← List.append_assoc, ← hcuts, ← htext, htext,
        lastBuffer_append hfull hne, ← hkept]
    · have hall : (carry ++ ahead fs inode pos).take 1024 = carry ++ ahead fs inode pos := by
        refine List.take_of_length_le ?_
        rw [List.length_append, hlength]
        omega
      refine ⟨n + 3, k.advance i fd (1024 - carry.length), hs'.pid, hs'.taken, fun fuel hfuel => ?_⟩
      obtain ⟨fuel, rfl⟩ : ∃ m, fuel = m + 1 := ⟨fuel - 1, by omega⟩
      have hsize := he.short
      rw [hturn, hloop fuel (by omega), Option.bind_some, he.last,
        readsLoop_end h hs' hend (by omega) (by omega), Option.map_some, he.final, hall]

end file

/-- A string as it is passed. -/
theorem holdsText_cstr {t : List Byte} (h : 0 ∉ t) : HoldsText (cstr t) t :=
  ⟨fun _ hk => List.getD_eq_getElem t 0 hk, List.getD_eq_default t 0 (Nat.le_refl _), h⟩

/-- A text file with NULs behind its end (`TextFile`) is searched to its end for a string that
is not empty, if the byte behind the buffer is not a newline. What is printed are the lines that
contain the string, and the last line of the file also if the string occurs only in what has
stayed in the buffer behind it. -/
theorem doOneFile_eq {L : Link} {fs : FileSystem} (hfs : fs.WellFormed) {table : FileOpTable}
    {i : Fin 6} {fd : Fin 8} {s₀ s₁ : Kernel} {fname p : List Byte} {e : DirectoryEntry}
    (hpid : s₀.pid = i.val) (hname : fs.lookup (some fname) = some e) (htype : e.filetype = 2)
    (hopen : openFunction L fs table (some fname) s₀ = .ok (fd.val : Int) s₁)
    (hfile : TextFile fs e.inodeNum.toNat) (hp : p ≠ []) (hp0 : 0 ∉ p) (hplength : p.length < 2 ^ 32)
    (hfname : 0 ∉ fname) (hflength : fname.length < 2 ^ 32) (data : ℕ → Byte)
    (hdata : data 1024 ≠ newlineChar) :
    ∃ n s, ∀ fuel, n ≤ fuel → doOneFile L fs table p fname data fuel s₀ =
      some (0, (cuts (contents fs e)).flatMap (shown fname p) ++
        stray fname p (lastBuffer (contents fs e)), s) := by
  have hopened := opened_of_open hfs hpid hname htype hopen
  have h : Strings (cstr p) (cstr fname) p fname :=
    ⟨holdsText_cstr hp0, hp, hplength, holdsText_cstr hfname, hflength⟩
  have hs : Stands fs i fd e.inodeNum.toNat 0 [] data s₁ :=
    ⟨hopened.pid, hopened.taken, (openFunction_at hpid hname htype hopen).2, holds_nil, hdata,
      List.not_mem_nil⟩
  have hloop : ∃ (n : ℕ) (k' : Kernel), k'.pid = i.val ∧ ((k'.processes i).fdArr fd).avail = 0 ∧
      ∀ fuel, n ≤ fuel → readsLoop fs (cstr p) (cstr fname) fd.val fuel 0 data s₁ =
        some (true, output fname p (contents fs e), k') := by
    rcases Nat.eq_zero_or_pos (fs.inodeLength e.inodeNum.toNat) with hempty | hpos
    · refine ⟨2, s₁, hs.pid, hs.taken, fun fuel hfuel => ?_⟩
      have hnone : ¬ p <:+: [] := by rwa [List.infix_nil]
      have hend := readsLoop_end h hs (Nat.le_of_eq hempty) (by decide) hfuel
      have hcontents : contents fs e = [] := by
        rw [contents, hempty]
        rfl
      rw [if_neg hnone] at hend
      rw [hcontents, output_line hp List.not_mem_nil (by decide), shown_nil hp]
      exact hend
    · exact readsLoop_eq h hfile hs hpos (by decide) List.not_mem_nil
  obtain ⟨n, k', hpid', htaken, hloop⟩ := hloop
  refine ⟨n, k'.setPcb i ((k'.processes i).setFd fd ((k'.processes i).fdArr fd).freed),
    fun fuel hfuel => ?_⟩
  have hfd : ¬ ((fd.val : Int) = -1) := by omega
  have hfree : ((k'.processes i).fdArr fd).avail ≠ 1 := by
    rw [htaken]
    decide
  rw [doOneFile, hopen]
  dsimp only
  rw [if_neg hfd, hloop fuel hfuel, Option.bind_some, if_pos rfl,
    closeFunction_frees hpid' hopened.two_le hfree]
  rfl

/-- The image with a newline at the end of `notes`. -/
def Sample.lineImage (a : ℕ) : Byte :=
  if a = 8192 then 6 else if a = 16389 then newlineChar else Os391.Sample.image a

/-- The file system on it. -/
def Sample.lineFiles : FileSystem := FileSystem.initFileSystem Sample.lineImage

theorem Sample.lineImage_zero {a : ℕ} (h : 16390 ≤ a) : Sample.lineImage a = 0 := by
  have hparts : ∀ x ∈ Os391.Sample.parts, x.1 + x.2.length ≤ 16390 := by decide
  have hnone : (Os391.Sample.parts.find? fun x => decide (x.1 ≤ a ∧ a < x.1 + x.2.length)) = none := by
    refine List.find?_eq_none.mpr fun x hx => ?_
    have hx' := hparts x hx
    simp only [decide_eq_true_eq]
    omega
  rw [Sample.lineImage, if_neg (by omega), if_neg (by omega), Os391.Sample.image, hnone]

theorem Sample.lineFiles_wellFormed : Sample.lineFiles.WellFormed := by
  refine ⟨by decide, by decide, fun k hk htype idx hidx => ?_⟩
  have hsmall : ∀ k < Sample.lineFiles.dirCount, (Sample.lineFiles.entry k).filetype = 2 →
      Sample.lineFiles.inodeLength (Sample.lineFiles.entry k).inodeNum.toNat ≤ 4096 := by decide
  have hlen := hsmall k hk htype
  obtain rfl : idx = 0 := by omega
  exact (by decide : ∀ k < Sample.lineFiles.dirCount, (Sample.lineFiles.entry k).filetype = 2 →
    Sample.lineFiles.dataBlock (Sample.lineFiles.entry k).inodeNum.toNat 0 <
      Sample.lineFiles.dataCount) k hk htype

theorem Sample.notes_textFile : TextFile Sample.lineFiles 1 := by
  refine ⟨⟨by decide, by decide⟩, by decide, fun k hlow hhigh => ?_⟩
  have hlength : Sample.lineFiles.inodeLength 1 = 6 := by decide
  have hblock : Sample.lineFiles.blockPtr 1 0 = 16384 := by decide
  rw [hlength] at hlow hhigh
  have hk : k / 4096 = 0 := Nat.div_eq_of_lt (by omega)
  have hmod : k % 4096 = k := Nat.mod_eq_of_lt (by omega)
  rw [FileSystem.fileByte, hk, hblock, hmod]
  exact Sample.lineImage_zero (by omega)

/-- `grep ell` prints the line `hello` of `notes`, and an empty line after it. -/
theorem doOneFile_eq_sample : ∃ n s, ∀ fuel, n ≤ fuel →
    doOneFile Os391.Sample.link Sample.lineFiles ⟨0, 0, 0, 0⟩ [0x65, 0x6C, 0x6C] Os391.Sample.notes
      (fun _ => 0) fuel Os391.Sample.running =
      some (0, report Os391.Sample.notes [0x68, 0x65, 0x6C, 0x6C, 0x6F] ++
        report Os391.Sample.notes [], s) := by
  have hopen : openFunction Os391.Sample.link Sample.lineFiles ⟨0, 0, 0, 0⟩
      (some Os391.Sample.notes) Os391.Sample.running = .ok (2 : Fin 8).val
        (Os391.Sample.running.openAt Os391.Sample.link ⟨0, 0, 0, 0⟩ (Sample.lineFiles.entry 1) 0 2) :=
    openFunction_found (by decide) (by decide) (by decide)
  obtain ⟨n, s, hgrep⟩ := doOneFile_eq (p := [0x65, 0x6C, 0x6C]) Sample.lineFiles_wellFormed
    (i := 0) (e := Sample.lineFiles.entry 1) (by decide) (by decide) (by decide) hopen
    Sample.notes_textFile (by decide) (by decide) (by decide) (by decide) (by decide)
    (fun _ => 0) (by decide)
  refine ⟨n, s, fun fuel hfuel => (hgrep fuel hfuel).trans ?_⟩
  have hcontents : contents Sample.lineFiles (Sample.lineFiles.entry 1) =
      [0x68, 0x65, 0x6C, 0x6C, 0x6F, newlineChar] := by decide
  have houtput : output Os391.Sample.notes [0x65, 0x6C, 0x6C]
      (terminated newlineChar [[0x68, 0x65, 0x6C, 0x6C, 0x6F]] ++ []) = _ :=
    output_lines (by decide) (by decide) (by decide) (by decide) (by decide)
  rw [hcontents]
  refine congrArg (fun x => some ((0 : Int), x, s)) (houtput.trans ?_)
  decide

end Grep

end Os391
