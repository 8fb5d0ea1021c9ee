import Os391.Blocks
import Os391.FileStreams
import Os391.Lib.Lines
import Os391.UserStrings

/-!
# `grep`

`do_one_file` of `ece391grep.c` on the kernel's `filesystem_read`. The program keeps the
last, unfinished line of a buffer for the next one; the kernel reads past the end of the
file. What comes out for a text file with NULs behind its end is `doOneFile_eq`: the lines
that contain the string, and sometimes the last line of the file although it does not.
-/

namespace Os391

open Bytes Segment Lines Itoa Support

namespace Grep

/-- What `ece391_fdputs` writes. -/
def fdputs (s : ℕ → Byte) : List Byte := segment s 0 (ece391Strlen s)

/-- The loop for `line_end`. -/
def lineEndFrom (data : ℕ → Byte) (last : ℕ) : (fuel lineEnd : ℕ) → ℕ
  | 0, lineEnd => lineEnd
  | fuel + 1, lineEnd =>
    if lineEnd < last ∧ data lineEnd ≠ newlineChar then lineEndFrom data last fuel (lineEnd + 1)
    else lineEnd

/-- The loop over `check`. -/
def found (s data : ℕ → Byte) (lineStart lineEnd : ℕ) : Bool :=
  (List.range' lineStart (lineEnd - lineStart)).any fun check =>
    decide (s 0 = data check ∧
      ece391Strncmp (ece391Strlen s) (fun k => data (check + k)) s = 0)

/-- The four calls that print a line. -/
def printLine (fname data : ℕ → Byte) (lineStart : ℕ) : List Byte :=
  fdputs fname ++ [char ':'] ++ fdputs (fun k => data (lineStart + k)) ++ [newlineChar]

/-- What the inner loop leaves: what it has printed, the buffer and `last`. -/
structure Pass : Type where
  printed : List Byte
  data : ℕ → Byte
  last : ℕ

/-- After other output. -/
def Pass.after (bs : List Byte) (r : Pass) : Pass := { r with printed := bs ++ r.printed }

/-- The inner loop. `none` is not enough fuel. -/
def linesLoop (s fname : ℕ → Byte) (cnt : Int) (last : ℕ) :
    (fuel lineStart : ℕ) → (ℕ → Byte) → Option Pass
  | 0, _, _ => none
  | fuel + 1, lineStart, data =>
    let lineEnd := lineEndFrom data last (last - lineStart) lineStart
    if data lineEnd ≠ newlineChar ∧ 0 ≠ cnt ∧ lineStart ≠ 0 then
      (ece391Strcpy fuel 0 lineStart (Function.update data lineEnd 0)).map fun data =>
        ⟨[], data, last - lineStart⟩
    else
      let data := Function.update data lineEnd 0
      let printed := if found s data lineStart lineEnd then printLine fname data lineStart else []
      if last ≤ lineEnd + 1 then some ⟨printed, data, 0⟩
      else (linesLoop s fname cnt last fuel (lineEnd + 1) data).map (Pass.after printed)

/-- The buffer after a read to `data + last`. -/
def received (data : ℕ → Byte) (last : ℕ) (st : Stores) : ℕ → Byte :=
  fun k => if k < last then data k else (lastStore st (k - last)).getD (data k)

/-- The outer loop. The reads are those of a regular file. What it gives is whether it has
ended without an error, what it has printed and the kernel. -/
def readsLoop (fs : FileSystem) (s fname : ℕ → Byte) (fd : Int) :
    (fuel last : ℕ) → (ℕ → Byte) → Kernel → Option (Bool × List Byte × Kernel)
  | 0, _, _, _ => none
  | fuel + 1, last, data, k =>
    match filesystemRead fs fd (1024 - last : ℕ) k with
    | .fault _ _ => none
    | .ok (cnt, st) k =>
      if cnt = -1 then some (false, List.map char "file read failed\n".toList, k)
      else
        (linesLoop s fname cnt (last + cnt.toNat) fuel 0 (received data last st)).bind fun r =>
          if cnt = 0 then some (true, r.printed, k)
          else (readsLoop fs s fname fd fuel r.last r.data k).map fun t =>
            (t.1, r.printed ++ t.2.1, t.2.2)

/-- `do_one_file`: what it returns, what it prints and the kernel. `data` is what is on the
stack. -/
def doOneFile (L : Link) (fs : FileSystem) (junk : FileOpTable) (s fname : List Byte)
    (data : ℕ → Byte) (fuel : ℕ) (k : Kernel) : Option (Int × List Byte × Kernel) :=
  match openFunction L fs junk (some fname) k with
  | .fault _ _ => none
  | .ok fd k =>
    if fd = -1 then some (-1, List.map char "file open failed\n".toList, k)
    else
      (readsLoop fs (cstr s) (cstr fname) fd fuel 0 data k).bind fun t =>
        if t.1 then
          match closeFunction fd t.2.2 with
          | .fault _ _ => none
          | .ok r k =>
            if r = -1 then some (-1, t.2.1 ++ List.map char "file close failed\n".toList, k)
            else some (0, t.2.1, k)
        else some (-1, t.2)

/-! ## One line -/

section line

variable {data s fname : ℕ → Byte} {a : ℕ} {l p : List Byte}

/-- The line ends at a newline or where the buffer ends. -/
theorem lineEndFrom_eq {last : ℕ} (h : Holds data a l) (hl : newlineChar ∉ l)
    (hend : a + l.length = last ∨ data (a + l.length) = newlineChar)
    {fuel : ℕ} (hfuel : a + fuel = last) (hlast : a + l.length ≤ last) :
    lineEndFrom data last fuel a = a + l.length := by
  induction l generalizing a fuel with
  | nil =>
    rw [List.length_nil, Nat.add_zero] at hend ⊢
    cases fuel with
    | zero => rfl
    | succ fuel =>
      refine if_neg fun hgo => hgo.2 ?_
      exact hend.resolve_left (by omega)
  | cons b l ih =>
    rw [List.length_cons] at hend hlast ⊢
    rw [List.mem_cons, not_or] at hl
    obtain ⟨hb, hrest⟩ := holds_cons_iff.mp h
    obtain ⟨n, rfl⟩ : ∃ n, fuel = n + 1 := ⟨fuel - 1, by omega⟩
    rw [lineEndFrom, if_pos ⟨by omega, by rw [hb]; exact Ne.symm hl.1⟩]
    have hnext : a + (l.length + 1) = a + 1 + l.length := by omega
    rw [hnext] at hend hlast ⊢
    exact ih hrest hl.2 hend (by omega) hlast

/-- A string starts at a NUL or where the text starts. -/
theorem holdsText_takeWhile (h : Holds data a l) (hzero : data (a + l.length) = 0) :
    HoldsText (fun k => data (a + k)) (l.takeWhile fun b => decide (b ≠ 0)) := by
  induction l generalizing a with
  | nil => exact holdsText_nil_iff.mpr hzero
  | cons b l ih =>
    obtain ⟨hb, hrest⟩ := holds_cons_iff.mp h
    by_cases hb0 : b = 0
    · rw [List.takeWhile_cons_of_neg (by simpa using hb0)]
      exact holdsText_nil_iff.mpr (hb.trans hb0)
    · rw [List.takeWhile_cons_of_pos (by simpa using hb0)]
      refine holdsText_cons_iff.mpr ⟨hb, hb0, ?_⟩
      have hnext : next (fun k => data (a + k)) = fun k => data (a + 1 + k) := by
        funext k
        rw [next, Nat.add_comm k 1, Nat.add_assoc]
      rw [hnext]
      refine ih hrest ?_
      rw [List.length_cons] at hzero
      rwa [Nat.add_assoc, Nat.add_comm 1]

theorem fdputs_eq (h : HoldsText s p) (hlength : p.length < 2 ^ 32) : fdputs s = p :=
  h.stringAt hlength

/-- Comparing with a string that is not shorter. -/
theorem ece391Strncmp_eq_zero_iff {t : ℕ → Byte} {n : ℕ} (h : ∀ k < n, s k ≠ 0) :
    ece391Strncmp n t s = 0 ↔ ∀ k < n, t k = s k := by
  induction n generalizing s t with
  | zero => exact iff_of_true rfl fun k hk => absurd hk (Nat.not_lt_zero k)
  | succ n ih =>
    rw [ece391Strncmp, Nat.forall_lt_succ_left']
    by_cases heq : t 0 = s 0
    · rw [if_pos heq]
      have hrest := ih (s := next s) (t := next t) fun k hk => h (k + 1) (Nat.succ_lt_succ hk)
      rw [and_iff_right heq]
      split
      · next hor =>
        obtain rfl := hor.resolve_left (heq ▸ h 0 (Nat.zero_lt_succ n))
        exact iff_of_true rfl fun k hk => absurd hk (Nat.not_lt_zero k)
      · exact hrest
    · rw [if_neg heq]
      refine iff_of_false ?_ fun hall => heq hall.1
      have hne : (t 0).toNat ≠ (s 0).toNat := fun hnat => heq (BitVec.eq_of_toNat_eq hnat)
      omega

/-- The search finds what occurs in the line. -/
theorem found_iff (hs : HoldsText s p) (hp : p ≠ []) (hlength : p.length < 2 ^ 32)
    (h : Holds data a l) (hzero : data (a + l.length) = 0) :
    found s data a (a + l.length) = true ↔ p <:+: l := by
  have hlen : ece391Strlen s = p.length := hs.strlen hlength
  have hpos := List.length_pos_of_ne_nil hp
  rw [found, List.any_eq_true, List.infix_iff_getElem?, Nat.add_sub_cancel_left, hlen]
  constructor
  · rintro ⟨check, hcheck, hhit⟩
    rw [decide_eq_true_eq, ece391Strncmp_eq_zero_iff fun k hk => hs.byte_ne_zero hk] at hhit
    obtain ⟨hlow, hhigh⟩ := List.mem_range'_1.mp hcheck
    obtain ⟨c, rfl⟩ := Nat.exists_eq_add_of_le hlow
    -- the NUL at the end is not part of a match
    have hfit : p.length + c ≤ l.length := by
      by_contra hover
      have hk : l.length - c < p.length := by omega
      refine hs.byte_ne_zero hk ?_
      rw [← hhit.2 _ hk, ← hzero]
      congr 1
      omega
    refine ⟨c, hfit, fun k hk => ?_⟩
    rw [List.getElem?_eq_getElem (by omega), ← h (k + c) (by omega), ← hs.text k hk,
      ← hhit.2 k hk, Nat.add_assoc, Nat.add_comm c]
  · rintro ⟨c, hfit, hall⟩
    have hsame : ∀ k < p.length, data (a + c + k) = s k := by
      intro k hk
      have hk' := hall k hk
      rw [List.getElem?_eq_getElem (by omega), Option.some_inj] at hk'
      rw [hs.text k hk, ← hk', ← h (k + c) (by omega), Nat.add_assoc, Nat.add_comm c]
    refine ⟨a + c, List.mem_range'_1.mpr ⟨Nat.le_add_right a c, by omega⟩, ?_⟩
    rw [decide_eq_true_eq, ece391Strncmp_eq_zero_iff fun k hk => hs.byte_ne_zero hk]
    exact ⟨(hsame 0 hpos).symm, hsame⟩

end line

/-! ## What is printed -/

/-- A line as it is printed. -/
def report (f l : List Byte) : List Byte := f ++ [char ':'] ++ l ++ [newlineChar]

/-- What is printed for a line. -/
def shown (f p l : List Byte) : List Byte := if p <:+: l then report f l else []

/-- The string that a part of the buffer holds. -/
def textOf (l : List Byte) : List Byte := l.takeWhile fun b => decide (b ≠ 0)

theorem textOf_append {l rest : List Byte} (h : 0 ∉ l) (hrest : rest.headD 0 = 0) :
    textOf (l ++ rest) = l := by
  induction l with
  | nil =>
    cases rest with
    | nil => rfl
    | cons b rest => exact List.takeWhile_cons_of_neg (by simpa using hrest)
  | cons b l ih =>
    rw [List.mem_cons, not_or] at h
    rw [List.cons_append, textOf, List.takeWhile_cons_of_pos (by simpa using Ne.symm h.1)]
    exact congrArg _ (ih h.2)

theorem textOf_append_zeros {l : List Byte} (h : 0 ∉ l) (n : ℕ) :
    textOf (l ++ List.replicate n 0) = l := by
  refine textOf_append h ?_
  cases n with
  | zero => rfl
  | succ n => rfl

theorem textOf_eq {l : List Byte} (h : 0 ∉ l) : textOf l = l := by
  have hall := textOf_append_zeros h 0
  rwa [List.replicate_zero, List.append_nil] at hall

/-- The strings that `grep` works with. -/
structure Strings (s fname : ℕ → Byte) (p f : List Byte) : Prop where
  search : HoldsText s p
  nonempty : p ≠ []
  search_lt : p.length < 2 ^ 32
  file : HoldsText fname f
  file_lt : f.length < 2 ^ 32

section lines

variable {data s fname : ℕ → Byte} {p f l : List Byte} {a last : ℕ}

/-- The search of one line, and the calls that print it. -/
theorem printLine_eq (h : Strings s fname p f) (hl : Holds data a l)
    (hlength : l.length < 2 ^ 32) :
    let data' := Function.update data (a + l.length) 0
    (if found s data' a (a + l.length) then printLine fname data' a else []) =
      if p <:+: l then report f (textOf l) else [] := by
  have hl' : Holds (Function.update data (a + l.length) 0) a l :=
    hl.congr fun k hlow hhigh => Function.update_of_ne (by omega) _ _
  have hzero : Function.update data (a + l.length) 0 (a + l.length) = 0 := Function.update_self _ _ _
  have htext : (textOf l).length < 2 ^ 32 :=
    Nat.lt_of_le_of_lt (List.takeWhile_sublist _).length_le hlength
  dsimp only
  rw [printLine, fdputs_eq h.file h.file_lt, fdputs_eq (holdsText_takeWhile hl' hzero) htext]
  have hiff := found_iff h.search h.nonempty h.search_lt hl' hzero
  by_cases hin : p <:+: l
  · rw [if_pos (hiff.mpr hin), if_pos hin]
    rfl
  · rw [if_neg fun hfound => hin (hiff.mp hfound), if_neg hin]

/-- A line that ends with a newline. -/
theorem linesLoop_line (h : Strings s fname p f) (hl : Holds data a (l ++ [newlineChar]))
    (hnot : newlineChar ∉ l) (hnul : 0 ∉ l) (hlast : a + l.length < last) (hsize : last < 2 ^ 32)
    (cnt : Int) (fuel : ℕ) :
    let data' := Function.update data (a + l.length) 0
    linesLoop s fname cnt last (fuel + 1) a data =
      if last ≤ a + l.length + 1 then some ⟨shown f p l, data', 0⟩
      else (linesLoop s fname cnt last fuel (a + l.length + 1) data').map
        (Pass.after (shown f p l)) := by
  obtain ⟨hline, hend⟩ := holds_append_iff.mp hl
  have hnewline : data (a + l.length) = newlineChar := hend 0 Nat.zero_lt_one
  have hlineEnd : lineEndFrom data last (last - a) a = a + l.length :=
    lineEndFrom_eq hline hnot (Or.inr hnewline) (by omega) (by omega)
  have hprinted := printLine_eq h hline (by omega)
  rw [textOf_eq hnul] at hprinted
  rw [linesLoop, hlineEnd]
  dsimp only at hprinted ⊢
  rw [hprinted, if_neg fun hcarry => hcarry.1 hnewline]
  rfl

/-- The end of the buffer without a newline, when the line has to wait for the rest. -/
theorem linesLoop_carry (hl : Holds data a l) (hnot : newlineChar ∉ l) (hlast : a + l.length = last)
    (hbeyond : data last ≠ newlineChar) {cnt : Int} (hcnt : cnt ≠ 0) (ha : a ≠ 0) {fuel : ℕ}
    (hfuel : l.length < fuel) :
    linesLoop s fname cnt last (fuel + 1) a data =
      some ⟨[], put (Function.update data last 0) 0 (textOf l ++ [0]), l.length⟩ := by
  subst hlast
  have hlineEnd : lineEndFrom data (a + l.length) (a + l.length - a) a = a + l.length :=
    lineEndFrom_eq hl hnot (Or.inl rfl) (by omega) (Nat.le_refl _)
  have hl' : Holds (Function.update data (a + l.length) 0) a l :=
    hl.congr fun k hlow hhigh => Function.update_of_ne (by omega) _ _
  have htext := holdsText_takeWhile hl' (Function.update_self _ _ _)
  rw [linesLoop, hlineEnd]
  dsimp only
  have hshort : (textOf l).length < fuel :=
    Nat.lt_of_le_of_lt (List.takeWhile_sublist _).length_le hfuel
  rw [if_pos ⟨hbeyond, Ne.symm hcnt, ha⟩, ece391Strcpy_eq (Nat.pos_of_ne_zero ha) htext hshort,
    Option.map_some, Nat.add_sub_cancel_left]
  rfl

/-- The end of the buffer without a newline, when the line is searched as it is. -/
theorem linesLoop_last (h : Strings s fname p f) (hl : Holds data a l) (hnot : newlineChar ∉ l)
    (hlast : a + l.length = last) (hsize : last < 2 ^ 32) {cnt : Int} (hcnt : cnt = 0 ∨ a = 0)
    (fuel : ℕ) :
    linesLoop s fname cnt last (fuel + 1) a data =
      some ⟨if p <:+: l then report f (textOf l) else [], Function.update data last 0, 0⟩ := by
  subst hlast
  have hlineEnd : lineEndFrom data (a + l.length) (a + l.length - a) a = a + l.length :=
    lineEndFrom_eq hl hnot (Or.inl rfl) (by omega) (Nat.le_refl _)
  have hprinted := printLine_eq h hl (by omega)
  rw [linesLoop, hlineEnd]
  dsimp only at hprinted ⊢
  rw [hprinted, if_neg, if_pos (Nat.le_succ _)]
  rintro ⟨-, hcnt', ha⟩
  exact hcnt.elim (fun hzero => hcnt' hzero.symm) ha

/-- Lines that end with newlines: they are searched, the newlines become NULs, and the loop
goes on behind them. -/
theorem linesLoop_lines (h : Strings s fname p f) {ls : List (List Byte)} {t : List Byte}
    (hls : ∀ l ∈ ls, newlineChar ∉ l ∧ 0 ∉ l) (ht : t ≠ [])
    (hdata : Holds data a (terminated newlineChar ls ++ t))
    (hlast : a + (terminated newlineChar ls ++ t).length = last) (hsize : last < 2 ^ 32)
    (cnt : Int) :
    ∃ data', Holds data' a (terminated 0 ls ++ t) ∧ (∀ k, k < a ∨ last ≤ k → data' k = data k) ∧
      ∀ fuel, linesLoop s fname cnt last (fuel + ls.length) a data =
        (linesLoop s fname cnt last fuel (a + (terminated newlineChar ls).length) data').map
          (Pass.after (ls.flatMap (shown f p))) := by
  induction ls generalizing a data with
  | nil =>
    refine ⟨data, hdata, fun _ _ => rfl, fun fuel => ?_⟩
    have hid : Pass.after [] = id := by
      funext r
      rfl
    rw [List.flatMap_nil, hid, Option.map_id]
    rfl
  | cons l ls ih =>
    obtain ⟨hnot, hnul⟩ := hls l List.mem_cons_self
    have hpos := List.length_pos_of_ne_nil ht
    rw [terminated_cons] at hdata hlast
    simp only [List.append_assoc, List.cons_append, List.length_append, List.length_cons] at hlast
    rw [List.append_cons, List.append_assoc, holds_append_iff] at hdata
    have hlen : (l ++ [newlineChar]).length = l.length + 1 := List.length_append
    have hfirst := linesLoop_line h hdata.1 hnot hnul (by omega) hsize cnt
    -- the newline overwritten does not belong to the rest
    have hkept : ∀ k, k ≠ a + l.length → Function.update data (a + l.length) 0 k = data k :=
      fun k hk => Function.update_of_ne hk _ _
    have hrest : Holds (Function.update data (a + l.length) 0) (a + l.length + 1)
        (terminated newlineChar ls ++ t) := by
      refine Holds.congr ?_ fun k hlow hhigh => hkept k (by omega)
      rw [hlen] at hdata
      exact hdata.2
    obtain ⟨data', hdata', hout, hloop⟩ := ih (fun l hl => hls l (List.mem_cons_of_mem _ hl)) hrest
      (by rw [List.length_append]; omega)
    refine ⟨data', ?_, fun k hk => ?_, fun fuel => ?_⟩
    · rw [terminated_cons, List.append_assoc, List.cons_append]
      refine holds_append_iff.mpr ⟨?_, holds_cons_iff.mpr ⟨?_, hdata'⟩⟩
      · refine (holds_append_iff.mp hdata.1).1.congr fun k hlow hhigh => ?_
        rw [hout k (Or.inl (by omega)), hkept k (by omega)]
      · rw [hout _ (Or.inl (by omega)), Function.update_self]
    · rw [hout k (by omega), hkept k (by omega)]
    · have hmore : ¬ last ≤ a + l.length + 1 := by omega
      rw [List.length_cons, ← Nat.add_assoc, hfirst]
      rw [if_neg hmore, hloop, Option.map_map, terminated_cons, List.length_append,
        List.length_cons]
      have hplace : a + l.length + 1 + (terminated newlineChar ls).length =
          a + (l.length + ((terminated newlineChar ls).length + 1)) := by omega
      rw [hplace]
      congr 1
      funext r
      simp [Pass.after]

end lines

end Grep

end Os391
