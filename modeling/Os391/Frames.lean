import Mathlib.Order.Interval.Finset.Nat
import Os391.Blinking
import Os391.FileStreams
import Os391.Lib.Lines
import Os391.Lib.SideBySide

/-!
# Two pictures in one: `add_frames` of `fish.c`

`add_frames` reads two text files side by side, a byte at a time, and asks for one
blinking character for every place where one of the two pictures is not blank. The loops
run on the kernel's `filesystem_read`. `requests_eq` says which characters are asked for,
for any two files; with the law of the blinking characters it follows that the screen
shows the two pictures in turn: `frames_alternate`.
-/

namespace Os391

open Bytes Segment Lines SideBySide

/-- `' '`. -/
def blank : Byte := 0x20

/-- A line starts with a character that is no newline. -/
theorem digit_ne_newlineChar : (0x30 : Byte) ≠ newlineChar := by decide

/-- The variables of `add_frames` that its loops change. -/
structure FrameState : Type where
  c0 : Byte
  c1 : Byte
  eof0 : Bool
  eof1 : Bool
  kernel : Kernel

namespace Frames

/-- Read the next character of a line, unless the line is over. `none` is a fault. -/
def nextChar (fs : FileSystem) (fd : Fin 8) (c : Byte) (eof : Bool) (s : Kernel) :
    Option (Byte × Bool × Kernel) :=
  if c = newlineChar then some (c, eof, s)
  else
    match filesystemRead fs fd.val 1 s with
    | .ok (numBytes, st) s =>
      if numBytes = 0 then some (newlineChar, true, s) else some ((st.lookup 0).getD c, eof, s)
    | .fault _ _ => none

/-- A character as it is displayed. -/
def shown (c : Byte) : Byte := if c = newlineChar then blank else c

/-- `blink_struct` for the characters of one place; the rest of it is what is there. -/
def request (junk : BlinkStruct) (row col : ℕ) (a b : Byte) : BlinkStruct :=
  { junk with
    location := BitVec.ofNat 16 (row * 80 + col + 40)
    onChar := a
    offChar := b
    onLength := 15
    offLength := 15 }

/-- The inner loop: one row of the two pictures. -/
def rowLoop (fs : FileSystem) (fd0 fd1 : Fin 8) (junk : BlinkStruct) (row : ℕ) :
    ℕ → ℕ → FrameState → Option (FrameState × List BlinkStruct)
  | 0, _, _ => none
  | fuel + 1, col, t =>
    (nextChar fs fd0 t.c0 t.eof0 t.kernel).bind fun r0 =>
    (nextChar fs fd1 t.c1 t.eof1 r0.2.2).bind fun r1 =>
    let t : FrameState := ⟨r0.1, r1.1, r0.2.1, r1.2.1, r1.2.2⟩
    if t.c0 = newlineChar ∧ t.c1 = newlineChar then some (t, [])
    else
      let here :=
        if (t.c0 ≠ blank ∧ t.c0 ≠ newlineChar) ∨ (t.c1 ≠ blank ∧ t.c1 ≠ newlineChar) then
          [request junk row col (shown t.c0) (shown t.c1)]
        else []
      (rowLoop fs fd0 fd1 junk row fuel (col + 1) t).map fun r => (r.1, here ++ r.2)

/-- After a row: a file at its end is closed, and has only empty lines from then on. -/
def endLine (fd : Fin 8) (eof : Bool) (s : Kernel) : Byte × Kernel :=
  if eof then (newlineChar, close fd s) else (0x30, s)

/-- What stands between two rows. -/
def endRow (fd0 fd1 : Fin 8) (t : FrameState) : FrameState :=
  let r0 := endLine fd0 t.eof0 t.kernel
  let r1 := endLine fd1 t.eof1 r0.2
  ⟨r0.1, r1.1, t.eof0, t.eof1, r1.2⟩

/-- The outer loop of `add_frames`: the structs with which `mp1_ioctl` is called. -/
def framesLoop (fs : FileSystem) (fd0 fd1 : Fin 8) (junk : BlinkStruct) :
    ℕ → ℕ → FrameState → Option (FrameState × List BlinkStruct)
  | 0, _, _ => none
  | fuel + 1, row, t =>
    if t.eof0 ∧ t.eof1 then some (t, [])
    else
      (rowLoop fs fd0 fd1 junk row fuel 0 t).bind fun r =>
        (framesLoop fs fd0 fd1 junk fuel (row + 1) (endRow fd0 fd1 r.1)).map fun r' =>
          (r'.1, r.2 ++ r'.2)

/-- `add_frames` with both files open. -/
def addFrames (fs : FileSystem) (fd0 fd1 : Fin 8) (junk : BlinkStruct) (fuel : ℕ) (s : Kernel) :
    Option (FrameState × List BlinkStruct) :=
  framesLoop fs fd0 fd1 junk fuel 0 ⟨0x30, 0x30, false, false, s⟩

/-! ## What is asked for -/

/-- The character of a picture at a place, blank outside the picture. -/
def charAt (picture : List (List Byte)) (row col : ℕ) : Byte :=
  (picture.getD row []).getD col blank

/-- The request for one place of the two pictures, if one of them is not blank there. -/
def cell (junk : BlinkStruct) (row col : ℕ) (a b : Byte) : List BlinkStruct :=
  if a = blank ∧ b = blank then [] else [request junk row col a b]

/-- The requests for one row. -/
def rowOf (junk : BlinkStruct) (row : ℕ) (l0 l1 : List Byte) : List BlinkStruct :=
  sideBySide blank (cell junk row) 0 l0 l1

/-- The requests for two pictures, row by row. -/
def requestsOf (junk : BlinkStruct) (f0 f1 : List (List Byte)) : List BlinkStruct :=
  sideBySide [] (rowOf junk) 0 f0 f1

/-! ## A picture read line by line -/

/-- Where the reading of a picture stands: `cur` is what is left of the line, `later` are
the lines after it. The last character read is a newline when the line is over. -/
inductive Pending (fs : FileSystem) (s : Kernel) (i : Fin 6) (fd : Fin 8) :
    Byte → Bool → List Byte → List (List Byte) → Prop where
  | ended : Pending fs s i fd newlineChar true [] []
  | finished {bs : List Byte} : Remaining fs s i fd bs →
      Pending fs s i fd newlineChar false [] (bs.splitOn newlineChar)
  | inside {c : Byte} {bs cur : List Byte} {later : List (List Byte)} : c ≠ newlineChar →
      Remaining fs s i fd bs → bs.splitOn newlineChar = cur :: later →
      Pending fs s i fd c false cur later

section pending

variable {fs : FileSystem} {s s' : Kernel} {i : Fin 6} {fd k : Fin 8} {c : Byte} {eof : Bool}
  {cur : List Byte} {later : List (List Byte)}

theorem Pending.frame (h : Pending fs s i k c eof cur later) (ht : Touches i fd s s')
    (hne : k ≠ fd) : Pending fs s' i k c eof cur later := by
  cases h with
  | ended => exact .ended
  | finished hrest => exact .finished (hrest.frame ht hne)
  | inside hc hrest hlines => exact .inside hc (hrest.frame ht hne) hlines

/-- There are no newlines within a line. -/
theorem Pending.notMem (h : Pending fs s i fd c eof cur later) : newlineChar ∉ cur := by
  cases h with
  | ended => exact List.not_mem_nil
  | finished hrest => exact List.not_mem_nil
  | inside hc hrest hlines => exact notMem_of_mem_splitOn (hlines ▸ List.mem_cons_self)

/-- The next character is the next one of the line, or a newline if there is none. -/
theorem Pending.next (hpid : s.pid = i.val) (h : Pending fs s i fd c eof cur later) :
    ∃ eof' s', nextChar fs fd c eof s = some (cur.headD newlineChar, eof', s') ∧
      Touches i fd s s' ∧ Pending fs s' i fd (cur.headD newlineChar) eof' cur.tail later := by
  cases h with
  | ended => exact ⟨true, s, if_pos rfl, .refl i fd s, .ended⟩
  | finished hrest => exact ⟨false, s, if_pos rfl, .refl i fd s, .finished hrest⟩
  | @inside c bs cur later hc hrest hlines =>
    rw [nextChar, if_neg hc]
    rcases bs with _ | ⟨b, bs⟩
    · -- the end of the file ends the last line
      rw [List.splitOn_nil] at hlines
      obtain ⟨rfl, rfl⟩ := List.cons.inj hlines
      rw [hrest.read_end hpid]
      exact ⟨true, s, rfl, .refl i fd s, .ended⟩
    · obtain ⟨hread, hnext⟩ := hrest.read_next hpid
      rw [hread]
      by_cases hb : b = newlineChar
      · subst hb
        rw [splitOn_sep] at hlines
        obtain ⟨rfl, rfl⟩ := List.cons.inj hlines
        exact ⟨false, _, rfl, touches_advance 1, .finished hnext⟩
      · obtain ⟨l, ls, hls⟩ := exists_splitOn newlineChar bs
        rw [splitOn_cons hb hls] at hlines
        obtain ⟨rfl, rfl⟩ := List.cons.inj hlines
        exact ⟨false, _, rfl, touches_advance 1, .inside hb hnext hls⟩

end pending

/-- Where the reading of both pictures stands. -/
structure Reading (fs : FileSystem) (i : Fin 6) (fd0 fd1 : Fin 8) (t : FrameState)
    (cur0 : List Byte) (later0 : List (List Byte)) (cur1 : List Byte)
    (later1 : List (List Byte)) : Prop where
  pid : t.kernel.pid = i.val
  file0 : Pending fs t.kernel i fd0 t.c0 t.eof0 cur0 later0
  file1 : Pending fs t.kernel i fd1 t.c1 t.eof1 cur1 later1

/-! ## One row -/

section row

variable {fs : FileSystem} {i : Fin 6} {fd0 fd1 : Fin 8}

/-- The next character as it is displayed. -/
theorem shown_headD {l : List Byte} (h : newlineChar ∉ l) :
    shown (l.headD newlineChar) = l.headD blank := by
  cases l with
  | nil => rfl
  | cons a l =>
    have ha : a ≠ newlineChar := fun ha => h (ha ▸ List.mem_cons_self)
    exact if_neg ha

/-- Only at the end of a line the next character is a newline. -/
theorem headD_eq_newlineChar_iff {l : List Byte} (h : newlineChar ∉ l) :
    l.headD newlineChar = newlineChar ↔ l = [] := by
  cases l with
  | nil => exact iff_of_true rfl rfl
  | cons a l =>
    have ha : a ≠ newlineChar := fun ha => h (ha ▸ List.mem_cons_self)
    exact iff_of_false ha (List.cons_ne_nil a l)

/-- A place is asked for if one of the characters is not blank. -/
theorem cell_shown (junk : BlinkStruct) (row col : ℕ) (a b : Byte) :
    cell junk row col (shown a) (shown b) =
      if (a ≠ blank ∧ a ≠ newlineChar) ∨ (b ≠ blank ∧ b ≠ newlineChar) then
        [request junk row col (shown a) (shown b)] else [] := by
  have hshown : ∀ c : Byte, shown c = blank ↔ ¬ (c ≠ blank ∧ c ≠ newlineChar) := by
    intro c
    rw [shown]
    split
    · next hc => simp [hc]
    · next hc => simp [hc]
  by_cases hvisible : (a ≠ blank ∧ a ≠ newlineChar) ∨ (b ≠ blank ∧ b ≠ newlineChar)
  · rw [if_pos hvisible, cell, if_neg]
    rw [hshown, hshown, ← not_or, not_not]
    exact hvisible
  · rw [if_neg hvisible, cell, if_pos]
    rw [hshown, hshown, ← not_or]
    exact hvisible

/-- One turn of the inner loop. -/
theorem rowLoop_turn (hne : fd0 ≠ fd1) (junk : BlinkStruct) (row col : ℕ) {t : FrameState}
    {cur0 cur1 : List Byte} {later0 later1 : List (List Byte)}
    (h : Reading fs i fd0 fd1 t cur0 later0 cur1 later1) :
    ∃ t', Reading fs i fd0 fd1 t' cur0.tail later0 cur1.tail later1 ∧
      t'.c0 = cur0.headD newlineChar ∧ t'.c1 = cur1.headD newlineChar ∧
      ∀ fuel, rowLoop fs fd0 fd1 junk row (fuel + 1) col t =
        if cur0 = [] ∧ cur1 = [] then some (t', [])
        else (rowLoop fs fd0 fd1 junk row fuel (col + 1) t').map fun r =>
          (r.1, cell junk row col (cur0.headD blank) (cur1.headD blank) ++ r.2) := by
  obtain ⟨eof0, s0, hnext0, htouch0, hpending0⟩ := h.file0.next h.pid
  have hpid0 : s0.pid = i.val := htouch0.pid.trans h.pid
  -- the read of the second file leaves the first one where it is
  obtain ⟨eof1, s1, hnext1, htouch1, hpending1⟩ := (h.file1.frame htouch0 hne.symm).next hpid0
  refine ⟨⟨cur0.headD newlineChar, cur1.headD newlineChar, eof0, eof1, s1⟩,
    ⟨htouch1.pid.trans hpid0, hpending0.frame htouch1 hne, hpending1⟩, rfl, rfl, fun fuel => ?_⟩
  have hover0 := headD_eq_newlineChar_iff h.file0.notMem
  have hover1 := headD_eq_newlineChar_iff h.file1.notMem
  rw [rowLoop, hnext0, Option.bind_some, hnext1, Option.bind_some]
  dsimp only
  rw [← shown_headD h.file0.notMem, ← shown_headD h.file1.notMem, cell_shown]
  by_cases hover : cur0 = [] ∧ cur1 = []
  · rw [if_pos hover, if_pos ⟨hover0.mpr hover.1, hover1.mpr hover.2⟩]
  · rw [if_neg hover, if_neg fun hboth => hover ⟨hover0.mp hboth.1, hover1.mp hboth.2⟩]

/-- The inner loop asks for the rest of the row and stops when both lines are over. -/
theorem rowLoop_eq (hne : fd0 ≠ fd1) (junk : BlinkStruct) (row col : ℕ) {t : FrameState}
    {cur0 cur1 : List Byte} {later0 later1 : List (List Byte)}
    (h : Reading fs i fd0 fd1 t cur0 later0 cur1 later1) :
    ∃ t', Reading fs i fd0 fd1 t' [] later0 [] later1 ∧
      t'.c0 = newlineChar ∧ t'.c1 = newlineChar ∧
      ∀ fuel, max cur0.length cur1.length < fuel →
        rowLoop fs fd0 fd1 junk row fuel col t =
          some (t', sideBySide blank (cell junk row) col cur0 cur1) := by
  generalize hn : max cur0.length cur1.length = n
  induction n generalizing t cur0 cur1 col with
  | zero =>
    obtain rfl : cur0 = [] := List.length_eq_zero_iff.mp (by omega)
    obtain rfl : cur1 = [] := List.length_eq_zero_iff.mp (by omega)
    obtain ⟨t', hreading, hc0, hc1, hturn⟩ := rowLoop_turn hne junk row col h
    refine ⟨t', hreading, hc0, hc1, fun fuel hfuel => ?_⟩
    obtain ⟨m, rfl⟩ := Nat.exists_eq_add_of_lt hfuel
    exact (hturn _).trans (if_pos ⟨rfl, rfl⟩)
  | succ n ih =>
    have hmore : ¬ (cur0 = [] ∧ cur1 = []) := by
      rintro ⟨rfl, rfl⟩
      cases hn
    have hrest := max_length_succ hmore
    obtain ⟨t₁, hreading₁, -, -, hturn⟩ := rowLoop_turn hne junk row col h
    obtain ⟨t', hreading, hc0, hc1, hloop⟩ := ih (col + 1) hreading₁ (by omega)
    refine ⟨t', hreading, hc0, hc1, fun fuel hfuel => ?_⟩
    obtain ⟨m, rfl⟩ : ∃ m, fuel = m + 1 := ⟨fuel - 1, by omega⟩
    rw [hturn, if_neg hmore, hloop m (by omega), sideBySide_step hmore]
    rfl

end row

/-! ## All rows -/

section rows

variable {fs : FileSystem} {i : Fin 6} {fd0 fd1 : Fin 8}

/-- Between two rows: the lines still to be read. -/
structure Between (fs : FileSystem) (i : Fin 6) (fd0 fd1 : Fin 8) (t : FrameState)
    (f0 f1 : List (List Byte)) : Prop where
  reading : Reading fs i fd0 fd1 t (f0.headD []) f0.tail (f1.headD []) f1.tail
  eof0 : t.eof0 = true ↔ f0 = []
  eof1 : t.eof1 = true ↔ f1 = []

section pending

variable {s : Kernel} {fd : Fin 8} {c : Byte} {eof : Bool} {later : List (List Byte)}

/-- A picture whose line is over has ended exactly if no line is left. -/
theorem Pending.eof_iff (h : Pending fs s i fd c eof [] later) (hc : c = newlineChar) :
    eof = true ↔ later = [] := by
  cases h with
  | ended => exact iff_of_true rfl rfl
  | finished hrest => exact iff_of_false Bool.false_ne_true (List.splitOn_ne_nil _ _)
  | inside hne hrest hlines => exact absurd hc hne

/-- The next line begins. -/
theorem Pending.nextLine (hpid : s.pid = i.val) (h : Pending fs s i fd c eof [] later)
    (hc : c = newlineChar) :
    Touches i fd s (endLine fd eof s).2 ∧
      Pending fs (endLine fd eof s).2 i fd (endLine fd eof s).1 eof (later.headD [])
        later.tail := by
  cases h with
  | ended => exact ⟨touches_close hpid, .ended⟩
  | @finished bs hrest =>
    obtain ⟨l, ls, hlines⟩ := exists_splitOn newlineChar bs
    rw [hlines]
    exact ⟨.refl i fd s, .inside digit_ne_newlineChar hrest hlines⟩
  | inside hne hrest hlines => exact absurd hc hne

end pending

theorem Reading.between (hne : fd0 ≠ fd1) {t : FrameState} {f0 f1 : List (List Byte)}
    (h : Reading fs i fd0 fd1 t [] f0 [] f1) (hc0 : t.c0 = newlineChar)
    (hc1 : t.c1 = newlineChar) : Between fs i fd0 fd1 (endRow fd0 fd1 t) f0 f1 := by
  obtain ⟨htouch0, hnext0⟩ := h.file0.nextLine h.pid hc0
  have hpid0 := htouch0.pid.trans h.pid
  obtain ⟨htouch1, hnext1⟩ := (h.file1.frame htouch0 hne.symm).nextLine hpid0 hc1
  exact ⟨⟨htouch1.pid.trans hpid0, hnext0.frame htouch1 hne, hnext1⟩, h.file0.eof_iff hc0,
    h.file1.eof_iff hc1⟩

/-- The outer loop asks for the rest of the two pictures and ends. -/
theorem framesLoop_eq (hne : fd0 ≠ fd1) (junk : BlinkStruct) (row : ℕ) {t : FrameState}
    {f0 f1 : List (List Byte)} (h : Between fs i fd0 fd1 t f0 f1) :
    ∃ t' n, ∀ fuel, n ≤ fuel →
      framesLoop fs fd0 fd1 junk fuel row t =
        some (t', sideBySide [] (rowOf junk) row f0 f1) := by
  generalize hn : max f0.length f1.length = n
  induction n generalizing t f0 f1 row with
  | zero =>
    obtain rfl : f0 = [] := List.length_eq_zero_iff.mp (by omega)
    obtain rfl : f1 = [] := List.length_eq_zero_iff.mp (by omega)
    refine ⟨t, 1, fun fuel hfuel => ?_⟩
    obtain ⟨m, rfl⟩ : ∃ m, fuel = m + 1 := ⟨fuel - 1, by omega⟩
    rw [framesLoop, if_pos ⟨h.eof0.mpr rfl, h.eof1.mpr rfl⟩]
    rfl
  | succ n ih =>
    have hmore : ¬ (f0 = [] ∧ f1 = []) := by
      rintro ⟨rfl, rfl⟩
      cases hn
    have hlength := max_length_succ hmore
    obtain ⟨t₁, hreading, hc0, hc1, hrow⟩ := rowLoop_eq hne junk row 0 h.reading
    obtain ⟨t', m, hrest⟩ := ih (row + 1) (hreading.between hne hc0 hc1) (by omega)
    refine ⟨t', max m (max (f0.headD []).length (f1.headD []).length + 1) + 1,
      fun fuel hfuel => ?_⟩
    obtain ⟨k, rfl⟩ : ∃ k, fuel = k + 1 := ⟨fuel - 1, by omega⟩
    rw [framesLoop, if_neg fun hend => hmore ⟨h.eof0.mp hend.1, h.eof1.mp hend.2⟩,
      hrow k (by omega), Option.bind_some, hrest k (by omega), sideBySide_step hmore]
    rfl

end rows

/-- `add_frames` ends and asks for the places of the two pictures. -/
theorem addFrames_eq {fs : FileSystem} {i : Fin 6} {fd0 fd1 : Fin 8} (hne : fd0 ≠ fd1)
    (junk : BlinkStruct) {s : Kernel} (hpid : s.pid = i.val) {bytes0 bytes1 : List Byte}
    (h0 : Remaining fs s i fd0 bytes0) (h1 : Remaining fs s i fd1 bytes1) :
    ∃ t n, ∀ fuel, n ≤ fuel → addFrames fs fd0 fd1 junk fuel s =
      some (t, requestsOf junk (bytes0.splitOn newlineChar) (bytes1.splitOn newlineChar)) := by
  obtain ⟨l0, ls0, hlines0⟩ := exists_splitOn newlineChar bytes0
  obtain ⟨l1, ls1, hlines1⟩ := exists_splitOn newlineChar bytes1
  rw [hlines0, hlines1]
  refine framesLoop_eq hne junk 0 ⟨⟨hpid,
    .inside digit_ne_newlineChar h0 hlines0, .inside digit_ne_newlineChar h1 hlines1⟩, ?_, ?_⟩
  · exact iff_of_false Bool.false_ne_true (List.cons_ne_nil l0 ls0)
  · exact iff_of_false Bool.false_ne_true (List.cons_ne_nil l1 ls1)

/-- On any two regular files, opened one after the other, `add_frames` ends, and it asks
for exactly the places where one of the two pictures is not blank, row by row, each with
the characters the two files have there. -/
theorem requests_eq {L : Link} {fs : FileSystem} (hfs : fs.WellFormed) {table : FileOpTable}
    {i : Fin 6} {fd0 fd1 : Fin 8} {s₀ s₁ s : Kernel} {name0 name1 : Option (List Byte)}
    {e0 e1 : DirectoryEntry} (hpid : s₀.pid = i.val) (hname0 : fs.lookup name0 = some e0)
    (hname1 : fs.lookup name1 = some e1) (htype0 : e0.filetype = 2) (htype1 : e1.filetype = 2)
    (hopen0 : openFunction L fs table name0 s₀ = .ok (fd0.val : Int) s₁)
    (hopen1 : openFunction L fs table name1 s₁ = .ok (fd1.val : Int) s) (junk : BlinkStruct) :
    ∃ t n, ∀ fuel, n ≤ fuel → addFrames fs fd0 fd1 junk fuel s =
      some (t, requestsOf junk ((contents fs e0).splitOn newlineChar)
        ((contents fs e1).splitOn newlineChar)) := by
  have h0 := opened_of_open hfs hpid hname0 htype0 hopen0
  have h1 := opened_of_open hfs h0.pid hname1 htype1 hopen1
  obtain ⟨hne, hrest0⟩ := h0.both h1
  exact addFrames_eq hne junk h1.pid hrest0 h1.remaining

/-- The file `hello` as both pictures. -/
theorem requests_eq_sample : ∃ t n, ∀ fuel, n ≤ fuel →
    addFrames Sample.files 2 3 BlinkStruct.zero fuel Sample.readingTwice =
      some (t, requestsOf BlinkStruct.zero [[0x68, 0x65, 0x6C, 0x6C, 0x6F]]
        [[0x68, 0x65, 0x6C, 0x6C, 0x6F]]) := by
  have hlines : (contents Sample.files (Sample.files.entry 1)).splitOn newlineChar =
      [[0x68, 0x65, 0x6C, 0x6C, 0x6F]] := by decide
  have hname : Sample.files.lookup (some Sample.notes) = some (Sample.files.entry 1) := by decide
  have hloop := requests_eq Sample.wellFormed (i := 0) (by decide) hname hname (by decide)
    (by decide) Sample.open_notes Sample.open_again BlinkStruct.zero
  rwa [hlines] at hloop

/-! ## On the screen -/

/-- The picture fits into the right half of the screen. -/
structure Fits (picture : List (List Byte)) : Prop where
  rows : ∀ row, 25 ≤ row → picture.getD row [] = []
  columns : ∀ row, (picture.getD row []).length ≤ 40

/-- The right half of the screen: the place is in it, and the request is for it. -/
structure Placed (row col : ℕ) (x : BlinkStruct) : Prop where
  row_lt : row < 25
  col_lt : col < 40
  location : x.location.toNat = row * 80 + col + 40

section places

variable {junk x : BlinkStruct} {f0 f1 : List (List Byte)} {row col : ℕ}

theorem toNat_location (hrow : row < 25) (hcol : col < 40) (a b : Byte) :
    (request junk row col a b).location.toNat = row * 80 + col + 40 := by
  rw [request, BitVec.toNat_ofNat]
  omega

theorem mem_cell {a b : Byte} :
    x ∈ cell junk row col a b ↔ ¬ (a = blank ∧ b = blank) ∧ x = request junk row col a b := by
  rw [cell]
  split
  · next h => simp [h]
  · next h => simp [h]

theorem mem_rowOf {l0 l1 : List Byte} : x ∈ rowOf junk row l0 l1 ↔
    ∃ col, ¬ (l0.getD col blank = blank ∧ l1.getD col blank = blank) ∧
      x = request junk row col (l0.getD col blank) (l1.getD col blank) := by
  have hblank : ∀ col, cell junk row col blank blank = [] := fun col => if_pos ⟨rfl, rfl⟩
  rw [rowOf, mem_sideBySide_of_default hblank]
  simp only [mem_cell, Nat.zero_add]

/-- The requests are for the places of the pictures that are not blank. -/
theorem mem_requestsOf : x ∈ requestsOf junk f0 f1 ↔
    ∃ row col, ¬ (charAt f0 row col = blank ∧ charAt f1 row col = blank) ∧
      x = request junk row col (charAt f0 row col) (charAt f1 row col) := by
  rw [requestsOf, mem_sideBySide_of_default fun row => rfl]
  simp only [mem_rowOf, Nat.zero_add]
  rfl

/-- Outside its part of the screen a picture that fits is blank. -/
theorem Fits.charAt_eq_blank (h : Fits f0) (hout : ¬ (row < 25 ∧ col < 40)) :
    charAt f0 row col = blank := by
  rw [charAt]
  by_cases hrow : row < 25
  · have hlength := h.columns row
    exact List.getD_eq_default _ _ (by omega)
  · rw [h.rows row (by omega)]
    rfl

variable (hfit0 : Fits f0) (hfit1 : Fits f1)

include hfit0 hfit1

/-- What is not blank is in the right half of the screen. -/
theorem placed_of_visible (hvisible : ¬ (charAt f0 row col = blank ∧ charAt f1 row col = blank)) :
    Placed row col (request junk row col (charAt f0 row col) (charAt f1 row col)) := by
  have hin : row < 25 ∧ col < 40 := by
    by_contra hout
    exact hvisible ⟨hfit0.charAt_eq_blank hout, hfit1.charAt_eq_blank hout⟩
  exact ⟨hin.1, hin.2, toNat_location hin.1 hin.2 _ _⟩

/-- Each request is for a place in the right half of the screen. -/
theorem exists_place (hx : x ∈ requestsOf junk f0 f1) : ∃ row < 25, ∃ col < 40,
    ¬ (charAt f0 row col = blank ∧ charAt f1 row col = blank) ∧
      x = request junk row col (charAt f0 row col) (charAt f1 row col) := by
  obtain ⟨row, col, hvisible, rfl⟩ := mem_requestsOf.mp hx
  obtain ⟨hrow, hcol, -⟩ := @placed_of_visible junk f0 f1 row col hfit0 hfit1 hvisible
  exact ⟨row, hrow, col, hcol, hvisible, rfl⟩

/-- Of two places the one further on has the larger location. -/
theorem location_lt {row' col' : ℕ} {y : BlinkStruct}
    (hx : x ∈ cell junk row col (charAt f0 row col) (charAt f1 row col))
    (hy : y ∈ cell junk row' col' (charAt f0 row' col') (charAt f1 row' col'))
    (hlt : row < row' ∨ row = row' ∧ col < col') : x.location.toNat < y.location.toNat := by
  have hplaced : ∀ {r c : ℕ} {z : BlinkStruct},
      z ∈ cell junk r c (charAt f0 r c) (charAt f1 r c) → Placed r c z := by
    intro r c z hz
    obtain ⟨hvisible, rfl⟩ := mem_cell.mp hz
    exact placed_of_visible hfit0 hfit1 hvisible
  obtain ⟨-, hcol, hlocation⟩ := hplaced hx
  obtain ⟨-, hcol', hlocation'⟩ := hplaced hy
  omega

/-- The places are asked for from the top left to the bottom right. -/
theorem requestsOf_pairwise : (requestsOf junk f0 f1).Pairwise fun x y =>
    x.location.toNat < y.location.toNat := by
  refine pairwise_sideBySide (fun row _ => ?_) fun row row' hlt _ x hx y hy => ?_
  · refine pairwise_sideBySide (fun col _ => ?_) fun col col' hlt _ x hx y hy => ?_
    · rw [cell]
      split
      · exact List.Pairwise.nil
      · exact List.pairwise_singleton _ _
    · rw [Nat.zero_add, Nat.zero_add] at hx hy
      exact location_lt hfit0 hfit1 hx hy (Or.inr ⟨rfl, hlt⟩)
  · obtain ⟨col, -, hx⟩ := mem_sideBySide.mp hx
    obtain ⟨col', -, hy⟩ := mem_sideBySide.mp hy
    rw [Nat.zero_add, Nat.zero_add] at hx hy
    exact location_lt hfit0 hfit1 hx hy (Or.inl hlt)

/-- Their locations lie in the right half of the screen. -/
theorem location_mem (hx : x ∈ requestsOf junk f0 f1) :
    40 ≤ x.location.toNat ∧ x.location.toNat < slots := by
  obtain ⟨row, hrow, col, hcol, -, rfl⟩ := exists_place hfit0 hfit1 hx
  rw [toNat_location hrow hcol, slots]
  omega

/-- There is a slot for each of them. -/
theorem length_requestsOf_lt : (requestsOf junk f0 f1).length < slots := by
  have hnodup : ((requestsOf junk f0 f1).map fun x => x.location.toNat).Nodup := by
    rw [List.nodup_iff_pairwise_ne, List.pairwise_map]
    exact (requestsOf_pairwise hfit0 hfit1).imp fun h => Nat.ne_of_lt h
  have hsub : ((requestsOf junk f0 f1).map fun x => x.location.toNat).toFinset ⊆
      Finset.Ico 40 slots := by
    intro n hn
    obtain ⟨x, hx, rfl⟩ := List.mem_map.mp (List.mem_toFinset.mp hn)
    exact Finset.mem_Ico.mpr (location_mem hfit0 hfit1 hx)
  have hcard := Finset.card_le_card hsub
  rw [List.toFinset_card_of_nodup hnodup, List.length_map, Nat.card_Ico] at hcard
  rw [slots] at hcard ⊢
  omega

end places

section display

variable {xs : List BlinkStruct}

/-- Items that are added one after the other. -/
theorem items_adds {d : Display} (hvalid : ∀ x ∈ xs, x.location.toNat < slots)
    (hroom : d.items.length + xs.length ≤ slots) :
    (d.calls (xs.map .rtcAdd)).1.items = (xs.map fun x => x.start).reverse ++ d.items := by
  induction xs generalizing d with
  | nil => rfl
  | cons x xs ih =>
    have hx := hvalid x List.mem_cons_self
    rw [List.length_cons] at hroom
    have hadd : (d.call (.rtcAdd x)).1.items = x.start :: d.items := by
      rw [Display.call, Display.add, if_neg (by omega)]
    rw [List.map_cons, Display.calls]
    dsimp only
    rw [ih (fun y hy => hvalid y (List.mem_cons_of_mem x hy)) (by
      rw [hadd, List.length_cons]
      omega), hadd, List.map_cons, List.reverse_cons, List.append_assoc]
    rfl

/-- The calls with which the items are added and then tick. -/
def showing (xs : List BlinkStruct) (k : ℕ) : List BlinkCall :=
  xs.map .rtcAdd ++ List.replicate k .rtcTasklet

/-- The calls spare every location that no item has. -/
theorem spares_showing {location : BitVec 16} (h : ∀ x ∈ xs, x.location ≠ location) (k : ℕ) :
    ∀ c ∈ showing xs k, c.Spares location := by
  intro c hc
  rcases List.mem_append.mp hc with hc | hc
  · obtain ⟨x, hx, rfl⟩ := List.mem_map.mp hc
    exact h x hx
  · rw [List.eq_of_mem_replicate hc]
    trivial

/-- Every item of a list with different locations is shown according to its lengths. -/
theorem video_showing (video : ℕ → Byte) (hvalid : ∀ x ∈ xs, x.location.toNat < slots)
    (hroom : xs.length < slots)
    (hdiff : xs.Pairwise fun x y => x.location.toNat < y.location.toNat) {x : BlinkStruct}
    (hx : x ∈ xs) (k : ℕ) :
    ((Display.atStart video).calls (showing xs k)).1.video (2 * x.location.toNat) =
      if k % (BlinkItem.ticks x.onLength + BlinkItem.ticks x.offLength) <
        BlinkItem.ticks x.onLength then x.onChar else x.offChar := by
  obtain ⟨pre, post, rfl⟩ := List.append_of_mem hx
  obtain ⟨-, hpost, hpre⟩ := List.pairwise_append.mp hdiff
  have hafter := (List.pairwise_cons.mp hpost).1
  have hcalls : showing (pre ++ x :: post) k =
      pre.map .rtcAdd ++ .rtcAdd x :: showing post k := by
    rw [showing, showing, List.map_append, List.map_cons, List.append_assoc, List.cons_append]
  rw [List.length_append, List.length_cons] at hroom
  have hitems : ((Display.atStart video).calls (pre.map .rtcAdd)).1.items =
      (pre.map fun y => y.start).reverse ++ [] :=
    items_adds (fun y hy => hvalid y (List.mem_append_left _ hy)) (by
      change 0 + pre.length ≤ slots
      omega)
  rw [List.append_nil] at hitems
  rw [hcalls, Display.calls_append]
  generalize ((Display.atStart video).calls (pre.map .rtcAdd)).1 = d at hitems
  -- before `x` there is no item at its location, and after it none is added there
  have hnone : Display.placed x.location d.items = [] := by
    rw [Display.placed, hitems, List.filter_eq_nil_iff]
    intro z hz
    obtain ⟨y, hy, rfl⟩ := List.mem_map.mp (List.mem_reverse.mp hz)
    have hlt := hpre y hy x List.mem_cons_self
    rw [decide_eq_true_eq]
    exact fun hloc => absurd (congrArg BitVec.toNat hloc) (Nat.ne_of_lt hlt)
  have hlength : d.items.length ≠ slots := by
    rw [hitems, List.length_reverse, List.length_map]
    omega
  have hshows := Display.shows_add hnone (hvalid x hx) hlength
  have hlater := hshows.calls (spares_showing (fun y hy hloc =>
    absurd (congrArg BitVec.toNat hloc) (Nat.ne_of_gt (hafter y hy))) k)
  have hcount : (showing post k).count .rtcTasklet = k := by
    rw [showing, List.count_append, List.count_replicate_self,
      List.count_eq_zero_of_not_mem (by simp), Nat.zero_add]
  rw [hcount, Nat.zero_add] at hlater
  exact hlater.video_start

end display

/-- The two pictures are shown in turn, each for 15 ticks: after `add_frames` and `k` ticks
the right half of the screen has the characters of the first or the second picture at every
place where one of them is not blank, and what was there before at the others. -/
theorem frames_alternate {L : Link} {fs : FileSystem} (hfs : fs.WellFormed) {table : FileOpTable}
    {i : Fin 6} {fd0 fd1 : Fin 8} {s₀ s₁ s : Kernel} {name0 name1 : Option (List Byte)}
    {e0 e1 : DirectoryEntry} (hpid : s₀.pid = i.val) (hname0 : fs.lookup name0 = some e0)
    (hname1 : fs.lookup name1 = some e1) (htype0 : e0.filetype = 2) (htype1 : e1.filetype = 2)
    (hopen0 : openFunction L fs table name0 s₀ = .ok (fd0.val : Int) s₁)
    (hopen1 : openFunction L fs table name1 s₁ = .ok (fd1.val : Int) s)
    (hfit0 : Fits ((contents fs e0).splitOn newlineChar))
    (hfit1 : Fits ((contents fs e1).splitOn newlineChar)) (junk : BlinkStruct)
    (video : ℕ → Byte) :
    ∃ t n requests, (∀ fuel, n ≤ fuel → addFrames fs fd0 fd1 junk fuel s = some (t, requests)) ∧
      ∀ k, ∃ b replies, (Blinker.atStart video).calls (showing requests k) = some (b, replies) ∧
        ∀ row < 25, ∀ col < 40,
          b.video (2 * (row * 80 + col + 40)) =
            let a0 := charAt ((contents fs e0).splitOn newlineChar) row col
            let a1 := charAt ((contents fs e1).splitOn newlineChar) row col
            if a0 = blank ∧ a1 = blank then video (2 * (row * 80 + col + 40))
            else if k % 30 < 15 then a0 else a1 := by
  have h0 := opened_of_open hfs hpid hname0 htype0 hopen0
  have h1 := opened_of_open hfs h0.pid hname1 htype1 hopen1
  obtain ⟨hne, hrest0⟩ := h0.both h1
  obtain ⟨t, n, hloop⟩ := addFrames_eq hne junk h1.pid hrest0 h1.remaining
  generalize (contents fs e0).splitOn newlineChar = f0 at hloop hfit0
  generalize (contents fs e1).splitOn newlineChar = f1 at hloop hfit1
  refine ⟨t, n, _, hloop, fun k => ?_⟩
  have hlocated : ∀ c ∈ showing (requestsOf junk f0 f1) k, c.Located := by
    intro c hc
    rcases List.mem_append.mp hc with hc | hc
    · obtain ⟨x, hx, rfl⟩ := List.mem_map.mp hc
      intro hzero
      have hplace := (location_mem hfit0 hfit1 hx).1
      rw [hzero] at hplace
      exact absurd hplace (by decide)
    · rw [List.eq_of_mem_replicate hc]
      trivial
  obtain ⟨b, replies, l, hcalls, -, hvideo, -⟩ := Blinker.calls_refine video _ hlocated
  refine ⟨b, replies, hcalls, fun row hrow col hcol => ?_⟩
  rw [hvideo]
  dsimp only
  split
  · next hblank =>
    -- nothing is asked for at this place
    have hplace : (BitVec.ofNat 16 (row * 80 + col + 40)).toNat = row * 80 + col + 40 := by
      rw [BitVec.toNat_ofNat]
      omega
    have hother : ∀ x ∈ requestsOf junk f0 f1,
        x.location ≠ BitVec.ofNat 16 (row * 80 + col + 40) := by
      intro x hx hloc
      obtain ⟨row', hrow', col', hcol', hvisible, rfl⟩ := exists_place hfit0 hfit1 hx
      have heq := (toNat_location hrow' hcol' _ _).symm.trans ((congrArg BitVec.toNat hloc).trans hplace)
      obtain ⟨rfl, rfl⟩ : row' = row ∧ col' = col := by omega
      exact hvisible hblank
    have hkept := (Display.calls_elsewhere (d := Display.atStart video) rfl
      (spares_showing hother k)).2
    rwa [hplace] at hkept
  · next hvisible =>
    have hx : request junk row col (charAt f0 row col) (charAt f1 row col) ∈
        requestsOf junk f0 f1 := mem_requestsOf.mpr ⟨row, col, hvisible, rfl⟩
    have hshown := video_showing video (fun y hy => (location_mem hfit0 hfit1 hy).2)
      (length_requestsOf_lt hfit0 hfit1) (requestsOf_pairwise hfit0 hfit1) hx k
    rw [toNat_location hrow hcol] at hshown
    exact hshown

/-- The first character of `hello` on the screen. -/
theorem frames_alternate_sample : ∃ t n requests, (∀ fuel, n ≤ fuel →
    addFrames Sample.files 2 3 BlinkStruct.zero fuel Sample.readingTwice = some (t, requests)) ∧
      ∃ b replies, (Blinker.atStart fun _ => 0).calls (showing requests 20) = some (b, replies) ∧
        b.video 80 = 0x68 := by
  have hlines : (contents Sample.files (Sample.files.entry 1)).splitOn newlineChar =
      [[0x68, 0x65, 0x6C, 0x6C, 0x6F]] := by decide
  have hname : Sample.files.lookup (some Sample.notes) = some (Sample.files.entry 1) := by decide
  have hfits : Fits ((contents Sample.files (Sample.files.entry 1)).splitOn newlineChar) := by
    rw [hlines]
    refine ⟨fun row hrow => List.getD_eq_default _ _ (by simp only [List.length_singleton]; omega),
      fun row => ?_⟩
    rcases row with _ | row
    · decide
    · exact Nat.zero_le _
  obtain ⟨t, n, requests, hloop, hshow⟩ := frames_alternate Sample.wellFormed (i := 0) (by decide)
    hname hname (by decide) (by decide) Sample.open_notes Sample.open_again hfits hfits
    BlinkStruct.zero fun _ => 0
  obtain ⟨b, replies, hcalls, hvideo⟩ := hshow 20
  refine ⟨t, n, requests, hloop, b, replies, hcalls, ?_⟩
  have hplace := hvideo 0 (by decide) 0 (by decide)
  rw [hlines] at hplace
  exact hplace

end Frames

end Os391
