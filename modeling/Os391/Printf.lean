import Os391.Itoa
import Os391.Lib.Reaches

/-!
# `printf`

The loop over the format, one step for each byte of the format that is looked at. The
arguments lie on the stack one behind the other, and `text` finds the strings that `%s`
prints, up to their NUL.

Whatever follows a `%`, and any number of `#`, counts as a directive, the NUL at the end of
the format included: `buf++` then steps over it, and the loop goes on behind the format.
`printf_inside_iff` says for which formats this does not happen. In between, each
conversion prints the numeral of its argument.
-/

namespace Os391

open Bytes Segment Machines Itoa

/-- Where `printf` is: in front of the outer switch, in front of the inner one, or back at
the caller. -/
inductive PrintfPlace : Type where
  | loop
  | directive (alternate : Bool)
  | returned
  deriving DecidableEq

/-- The cursor `buf` in the format, the number of the next argument, and the screen. -/
structure Printf : Type where
  place : PrintfPlace
  buf : ℕ
  esp : ℕ
  console : Console

namespace Printf

/-- What `printf` is called with: the memory from the format on, the arguments, the strings
they may point to, and what happens to be in `conv_buf`. -/
structure Call : Type where
  format : ℕ → Byte
  arg : ℕ → Word
  text : Word → List Byte
  convBuf : ℕ → Byte

/-- What `itoa` leaves in `conv_buf`. The digit loop ends for the radices in use (`itoa_eq`). -/
def conv (value : Word) (buf : ℕ → Byte) (radix : Word) : ℕ → Byte :=
  (itoa value buf radix).getD buf

/-- The loop that writes zeros from index `i` to 7. -/
def padLoop : (fuel i : ℕ) → (ℕ → Byte) → ℕ → Byte
  | 0, _, buf => buf
  | fuel + 1, i, buf =>
    if i < 8 then padLoop fuel (i + 1) (Function.update buf i (char '0')) else buf

/-- The string of `%#x`: `itoa` at index 8, zeros in front of it from the index on that is the
number of digits. -/
def alternateHex (value : Word) (convBuf : ℕ → Byte) : List Byte :=
  let digits := conv value (fun k => convBuf (8 + k)) 16
  let startingIndex := Itoa.strlen digits
  let convBuf := padLoop 8 startingIndex fun k => if k < 8 then convBuf k else digits (k - 8)
  stringAt fun k => convBuf (startingIndex + k)

/-- The string of `%d`. -/
def signed (value : Word) (convBuf : ℕ → Byte) : List Byte :=
  if value.toInt < 0 then
    let digits := conv (-value) (fun k => convBuf (1 + k)) 10
    stringAt fun k => if k = 0 then char '-' else digits (k - 1)
  else stringAt (conv value convBuf 10)

/-- The inner switch for all bytes but `#`. -/
def conversion (c : Call) (alternate : Bool) (s : Printf) : Printf :=
  let ch := c.format s.buf
  if ch = char '%' then { s with console := Console.putc (char '%') s.console }
  else if ch = char 'x' then
    let string := if alternate then alternateHex (c.arg s.esp) c.convBuf
      else stringAt (conv (c.arg s.esp) c.convBuf 16)
    { s with console := Console.puts string s.console, esp := s.esp + 1 }
  else if ch = char 'u' then
    { s with
      console := Console.puts (stringAt (conv (c.arg s.esp) c.convBuf 10)) s.console
      esp := s.esp + 1 }
  else if ch = char 'd' then
    { s with
      console := Console.puts (signed (c.arg s.esp) c.convBuf) s.console
      esp := s.esp + 1 }
  else if ch = char 'c' then
    { s with console := Console.putc ((c.arg s.esp).setWidth 8) s.console, esp := s.esp + 1 }
  else if ch = char 's' then
    { s with console := Console.puts (c.text (c.arg s.esp)) s.console, esp := s.esp + 1 }
  else s

/-- One byte of the format. -/
def step (c : Call) (s : Printf) : Printf :=
  match s.place with
  | .loop =>
    if c.format s.buf = 0 then { s with place := .returned }
    else if c.format s.buf = char '%' then
      { s with place := .directive false, buf := s.buf + 1 }
    else
      { s with console := Console.putc (c.format s.buf) s.console, buf := s.buf + 1 }
  | .directive alternate =>
    if c.format s.buf = char '#' then { s with place := .directive true, buf := s.buf + 1 }
    else { conversion c alternate s with place := .loop, buf := s.buf + 1 }
  | .returned => s

/-- `printf` is called. -/
def start (console : Console) : Printf := ⟨.loop, 0, 0, console⟩

/-- The index of the byte of the format that the next step reads. -/
def reads (s : Printf) : Option ℕ := if s.place = .returned then none else some s.buf

/-! ## The end of the format -/

/-- Ordinary bytes and complete directives: a `%`, any number of `#`, and one byte more. -/
inductive Complete : List Byte → Prop where
  | nil : Complete []
  | byte {b : Byte} {f : List Byte} : b ≠ char '%' → Complete f → Complete (b :: f)
  | directive {k : ℕ} {b : Byte} {f : List Byte} : b ≠ char '#' → Complete f →
      Complete (char '%' :: (List.replicate k (char '#') ++ b :: f))

/-- Whether the rest of a format ends outside a directive, from inside one or not. -/
def closes : (inside : Bool) → List Byte → Bool
  | inside, [] => !inside
  | false, b :: f => closes (decide (b = char '%')) f
  | true, b :: f => closes (decide (b = char '#')) f

theorem closes_false_cons (b : Byte) (f : List Byte) :
    closes false (b :: f) = closes (decide (b = char '%')) f := rfl

theorem closes_true_cons (b : Byte) (f : List Byte) :
    closes true (b :: f) = closes (decide (b = char '#')) f := rfl

theorem closes_hashes (k : ℕ) (f : List Byte) :
    closes true (List.replicate k (char '#') ++ f) = closes true f := by
  induction k with
  | zero => rfl
  | succ k ih => rw [List.replicate_succ, List.cons_append, closes_true_cons, decide_eq_true rfl, ih]

/-- What can be left of a format, outside a directive and inside one. -/
theorem complete_of_closes (f : List Byte) : (closes false f = true → Complete f) ∧
    (closes true f = true → ∃ k b g, f = List.replicate k (char '#') ++ b :: g ∧
      b ≠ char '#' ∧ Complete g) := by
  induction f with
  | nil => exact ⟨fun _ => .nil, fun h => absurd h Bool.false_ne_true⟩
  | cons a f ih =>
    constructor
    · intro h
      rw [closes_false_cons] at h
      by_cases ha : a = char '%'
      · rw [decide_eq_true ha] at h
        obtain ⟨k, b, g, rfl, hb, hg⟩ := ih.2 h
        exact ha ▸ .directive hb hg
      · rw [decide_eq_false ha] at h
        exact .byte ha (ih.1 h)
    · intro h
      rw [closes_true_cons] at h
      by_cases ha : a = char '#'
      · rw [decide_eq_true ha] at h
        obtain ⟨k, b, g, rfl, hb, hg⟩ := ih.2 h
        exact ⟨k + 1, b, g, by rw [ha]; rfl, hb, hg⟩
      · rw [decide_eq_false ha] at h
        exact ⟨0, a, f, rfl, ha, ih.1 h⟩

theorem complete_iff (f : List Byte) : Complete f ↔ closes false f = true := by
  refine ⟨fun h => ?_, (complete_of_closes f).1⟩
  induction h with
  | nil => rfl
  | byte hb _ ih => rw [closes_false_cons, decide_eq_false hb, ih]
  | directive hb _ ih =>
    rw [closes_false_cons, decide_eq_true rfl, closes_hashes, closes_true_cons, decide_eq_false hb,
      ih]

/-- Whether `printf` is in the middle of a directive. -/
def inside (s : Printf) : Bool :=
  match s.place with
  | .directive _ => true
  | _ => false

section run

variable {c : Call} {n : ℕ} {s : Printf}

/-- A byte in front of the NUL: the cursor goes on by one, and what can be left is the same. -/
theorem step_before (hbytes : ∀ k < n, c.format k ≠ 0) (hbuf : s.buf < n)
    (hplace : s.place ≠ .returned) :
    (step c s).buf = s.buf + 1 ∧ (step c s).place ≠ .returned ∧
      closes (step c s).inside (segment c.format (s.buf + 1) (n - (s.buf + 1))) =
        closes s.inside (segment c.format s.buf (n - s.buf)) := by
  have hrest : segment c.format s.buf (n - s.buf) =
      c.format s.buf :: segment c.format (s.buf + 1) (n - (s.buf + 1)) := by
    rw [show n - s.buf = 1 + (n - (s.buf + 1)) by omega, segment_add]
    rfl
  obtain ⟨place, buf, esp, console⟩ := s
  rw [hrest]
  cases place with
  | loop =>
    simp only [step, inside, closes_false_cons, if_neg (hbytes _ hbuf)]
    split_ifs with hpercent
    · rw [decide_eq_true hpercent]
      exact ⟨rfl, PrintfPlace.noConfusion, rfl⟩
    · rw [decide_eq_false hpercent]
      exact ⟨rfl, PrintfPlace.noConfusion, rfl⟩
  | directive alternate =>
    simp only [step, inside, closes_true_cons]
    split_ifs with hhash
    · rw [decide_eq_true hhash]
      exact ⟨rfl, PrintfPlace.noConfusion, rfl⟩
    · rw [decide_eq_false hhash]
      exact ⟨rfl, PrintfPlace.noConfusion, rfl⟩
  | returned => exact absurd rfl hplace

/-- As long as there are bytes in front of the NUL, each step reads the next one. -/
theorem run_before (hbytes : ∀ k < n, c.format k ≠ 0) (console : Console) {t : ℕ} (ht : t ≤ n) :
    ((step c)^[t] (start console)).buf = t ∧
      ((step c)^[t] (start console)).place ≠ .returned ∧
      closes ((step c)^[t] (start console)).inside (segment c.format t (n - t)) =
        closes false (segment c.format 0 n) := by
  induction t with
  | zero => exact ⟨rfl, PrintfPlace.noConfusion, rfl⟩
  | succ t ih =>
    obtain ⟨hbuf, hplace, hcloses⟩ := ih (Nat.le_of_succ_le ht)
    have hstep := step_before hbytes (hbuf.trans_lt ht) hplace
    rw [Function.iterate_succ_apply']
    rw [hbuf] at hstep
    exact ⟨hstep.1, hstep.2.1, hstep.2.2.trans hcloses⟩

/-- `printf` reads no byte of the format behind the NUL at `n`, and its loop ends there. -/
structure StaysInside (c : Call) (n : ℕ) (console : Console) : Prop where
  reads : ∀ t k, ((step c)^[t] (start console)).reads = some k → k ≤ n
  ends : Reaches (step c) (start console) fun s => s.place = .returned ∧ s.buf = n

/-- The step at the NUL, outside a directive. -/
theorem step_end (hend : c.format n = 0) (hbuf : s.buf = n) (hplace : s.place ≠ .returned)
    (hinside : s.inside = false) : (step c s).place = .returned ∧ (step c s).buf = n := by
  obtain ⟨place, buf, esp, console⟩ := s
  subst hbuf
  cases place with
  | loop => simp [step, hend]
  | directive alternate => exact absurd hinside (by simp [inside])
  | returned => exact absurd rfl hplace

/-- The step at the NUL, inside a directive: over it. -/
theorem step_over (hend : c.format n = 0) (hbuf : s.buf = n) (hinside : s.inside = true) :
    (step c s).place = .loop ∧ (step c s).buf = n + 1 := by
  obtain ⟨place, buf, esp, console⟩ := s
  subst hbuf
  have hhash : (0 : Byte) ≠ char '#' := by decide
  cases place with
  | loop => exact absurd hinside (by simp [inside])
  | directive alternate =>
    constructor
    · simp only [step, hend, if_neg hhash]
    · simp only [step, hend, if_neg hhash]
  | returned => exact absurd hinside (by simp [inside])

theorem iterate_returned (h : s.place = .returned) (t : ℕ) : (step c)^[t] s = s := by
  have hstep : step c s = s := by
    rw [step, h]
  exact Function.iterate_fixed hstep t

end run

end Printf

open Printf

/-- For a format that ends at `n`: `printf` stays inside it exactly if it consists of ordinary
bytes and complete directives. -/
theorem printf_inside_iff {c : Printf.Call} {n : ℕ} (hend : c.format n = 0)
    (hbytes : ∀ k < n, c.format k ≠ 0) (console : Console) :
    StaysInside c n console ↔ Complete (segment c.format 0 n) := by
  obtain ⟨hbuf, hplace, hcloses⟩ := run_before hbytes console le_rfl
  rw [complete_iff, ← hcloses, Nat.sub_self]
  cases hinside : ((step c)^[n] (start console)).inside with
  | false =>
    have hlast := step_end hend hbuf hplace hinside
    rw [← Function.iterate_succ_apply' (step c)] at hlast
    refine iff_of_true ⟨fun t k hk => ?_, n + 1, hlast⟩ rfl
    rcases Nat.lt_or_ge n t with hlt | hle
    · -- it has returned before
      rw [← Nat.sub_add_cancel hlt, Function.iterate_add_apply, iterate_returned hlast.1, reads,
        if_pos hlast.1] at hk
      exact absurd hk (by simp)
    · obtain ⟨hbuf, hplace, -⟩ := run_before hbytes console hle
      rw [reads, if_neg hplace, hbuf] at hk
      exact Option.some.inj hk ▸ hle
  | true =>
    -- the NUL is taken for the byte that ends the directive
    refine iff_of_false (fun hstays => ?_) Bool.false_ne_true
    obtain ⟨hloop, hover⟩ := step_over hend hbuf hinside
    have hread := hstays.reads (n + 1) (n + 1) (by
      rw [Function.iterate_succ_apply', reads, hloop, hover]
      rfl)
    omega

/-- The call `printf("%d", value)`. -/
def Printf.percentD (value : Word) : Printf.Call :=
  ⟨fun k => [char '%', char 'd'].getD k 0, fun _ => value, fun _ => [], fun _ => 0⟩

theorem printf_inside_sample : StaysInside (percentD 7) 2 ⟨fun _ => 0, 0, 0⟩ :=
  (@printf_inside_iff (percentD 7) 2 (by decide) (by decide) ⟨fun _ => 0, 0, 0⟩).mpr
    (.directive (k := 0) (by decide) .nil)

/-- The format `%`: after two steps the byte behind the NUL is read. -/
theorem percent_at_end : ¬ StaysInside
    ⟨fun k => [char '%'].getD k 0, fun _ => 0, fun _ => [], fun _ => 0⟩ 1 ⟨fun _ => 0, 0, 0⟩ :=
  fun h => absurd (h.reads 2 2 (by decide)) (by decide)

end Os391
