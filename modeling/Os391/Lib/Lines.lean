import Mathlib.Data.List.Basic

/-!
# Lines

A text cut at its separators. The first line of a text grows character by character, and a
separator starts a new one; a line has no separator in it. A line that is too long for a
buffer is cut into pieces.
-/

namespace Lines

universe u

variable {α : Type u}

section separators

variable [DecidableEq α] {sep : α} {text : List α}

/-- A separator ends an empty line. -/
theorem splitOn_sep (sep : α) (text : List α) :
    (sep :: text).splitOn sep = [] :: text.splitOn sep := by
  rw [List.splitOn_cons_eq_if_modifyHead, if_pos (beq_self_eq_true sep)]

/-- Another character belongs to the first line. -/
theorem splitOn_cons {x : α} (h : x ≠ sep) {l : List α} {ls : List (List α)}
    (hlines : text.splitOn sep = l :: ls) : (x :: text).splitOn sep = (x :: l) :: ls := by
  rw [List.splitOn_cons_eq_if_modifyHead, if_neg (by simpa using h), hlines]
  rfl

/-- There is always a first line. -/
theorem exists_splitOn (sep : α) (text : List α) : ∃ l ls, text.splitOn sep = l :: ls :=
  List.exists_cons_of_ne_nil (List.splitOn_ne_nil sep text)

/-- A text without separators is one line. -/
theorem splitOn_append_sep {l : List α} (h : sep ∉ l) (text : List α) :
    (l ++ sep :: text).splitOn sep = l :: text.splitOn sep := by
  induction l with
  | nil => exact splitOn_sep sep text
  | cons x l ih =>
    rw [List.mem_cons, not_or] at h
    exact splitOn_cons (Ne.symm h.1) (ih h.2)

/-- The first line is what comes before the first separator. -/
theorem splitOn_append {l : List α} (h : sep ∉ l) {text first : List α} {ls : List (List α)}
    (hlines : text.splitOn sep = first :: ls) : (l ++ text).splitOn sep = (l ++ first) :: ls := by
  induction l with
  | nil => exact hlines
  | cons x l ih =>
    rw [List.mem_cons, not_or] at h
    exact splitOn_cons (Ne.symm h.1) (ih h.2)

theorem notMem_of_mem_splitOn {l : List α} (h : l ∈ text.splitOn sep) : sep ∉ l := by
  induction text generalizing l with
  | nil =>
    rw [List.splitOn_nil, List.mem_singleton] at h
    rw [h]
    exact List.not_mem_nil
  | cons x text ih =>
    by_cases hx : x = sep
    · subst hx
      rw [splitOn_sep] at h
      rcases List.mem_cons.mp h with rfl | h
      · exact List.not_mem_nil
      · exact ih h
    · obtain ⟨first, ls, hlines⟩ := exists_splitOn sep text
      rw [splitOn_cons hx hlines] at h
      rw [hlines] at ih
      rcases List.mem_cons.mp h with rfl | h
      · rw [List.mem_cons, not_or]
        exact ⟨Ne.symm hx, ih List.mem_cons_self⟩
      · exact ih (List.mem_cons_of_mem first h)

/-- Lines with a separator after each. -/
def terminated (sep : α) (ls : List (List α)) : List α := ls.flatMap (· ++ [sep])

omit [DecidableEq α] in
theorem terminated_cons (l : List α) (ls : List (List α)) :
    terminated sep (l :: ls) = l ++ sep :: terminated sep ls := by
  simp [terminated]

omit [DecidableEq α] in
theorem terminated_concat (l : List α) (ls : List (List α)) :
    terminated sep (ls ++ [l]) = terminated sep ls ++ (l ++ [sep]) := by
  simp [terminated]

omit [DecidableEq α] in
/-- The separator does not matter for the length. -/
theorem length_terminated (sep' : α) (ls : List (List α)) :
    (terminated sep ls).length = (terminated sep' ls).length := by
  induction ls with
  | nil => rfl
  | cons l ls ih => simp [terminated_cons, ih]

theorem splitOn_terminated {ls : List (List α)} (h : ∀ l ∈ ls, sep ∉ l) (text : List α) :
    (terminated sep ls ++ text).splitOn sep = ls ++ text.splitOn sep := by
  induction ls with
  | nil => rfl
  | cons l ls ih =>
    rw [terminated_cons, List.append_assoc, List.cons_append,
      splitOn_append_sep (h l List.mem_cons_self),
      ih fun l hl => h l (List.mem_cons_of_mem _ hl), List.cons_append]

/-- A text is its terminated lines and a last one. -/
theorem exists_terminated (sep : α) (text : List α) : ∃ ls t, (∀ l ∈ ls, sep ∉ l) ∧ sep ∉ t ∧
    text = terminated sep ls ++ t := by
  induction text with
  | nil => exact ⟨[], [], by simp, List.not_mem_nil, rfl⟩
  | cons x text ih =>
    obtain ⟨ls, t, hls, ht, rfl⟩ := ih
    by_cases hx : x = sep
    · refine ⟨[] :: ls, t, fun l hl => ?_, ht, by rw [hx, terminated_cons]; rfl⟩
      rcases List.mem_cons.mp hl with rfl | hl
      · exact List.not_mem_nil
      · exact hls l hl
    · cases ls with
      | nil => exact ⟨[], x :: t, by simp, by simp [Ne.symm hx, ht], rfl⟩
      | cons l ls =>
        refine ⟨(x :: l) :: ls, t, fun l' hl' => ?_, ht, by simp [terminated_cons]⟩
        rcases List.mem_cons.mp hl' with rfl | hl'
        · rw [List.mem_cons, not_or]
          exact ⟨Ne.symm hx, hls l List.mem_cons_self⟩
        · exact hls l' (List.mem_cons_of_mem _ hl')

omit [DecidableEq α] in
theorem map_terminated {β : Type u} (g : α → β) (ls : List (List α)) :
    (terminated sep ls).map g = terminated (g sep) (ls.map (List.map g)) := by
  induction ls with
  | nil => rfl
  | cons l ls ih => simp [terminated_cons, ih]

/-- A text without separators. -/
theorem splitOn_of_notMem {t : List α} (h : sep ∉ t) : t.splitOn sep = [t] := by
  have hone : (t ++ []).splitOn sep = [t ++ []] := splitOn_append h (List.splitOn_nil sep)
  rwa [List.append_nil] at hone

/-! ### Occurrences -/

section occurrences

variable {p y : List α} (hp : sep ∉ p)
include hp

omit [DecidableEq α] in
theorem prefix_append_sep_iff (x : List α) : p <+: x ++ sep :: y ↔ p <+: x := by
  induction x generalizing p with
  | nil =>
    rw [List.nil_append, List.prefix_nil, List.prefix_cons_iff]
    refine ⟨fun h => h.resolve_right ?_, Or.inl⟩
    rintro ⟨t, rfl, -⟩
    exact hp List.mem_cons_self
  | cons a x ih =>
    cases p with
    | nil => simp
    | cons b p =>
      rw [List.mem_cons, not_or] at hp
      rw [List.cons_append, List.cons_prefix_cons, List.cons_prefix_cons, ih hp.2]

omit [DecidableEq α] in
/-- What has no separator in it does not reach over one. -/
theorem infix_append_sep_iff (x : List α) : p <:+: x ++ sep :: y ↔ p <:+: x ∨ p <:+: y := by
  induction x with
  | nil =>
    rw [List.nil_append, List.infix_cons_iff, List.infix_nil]
    have hstart := prefix_append_sep_iff hp (y := y) []
    rw [List.nil_append, List.prefix_nil] at hstart
    rw [hstart]
  | cons a x ih =>
    rw [List.cons_append, List.infix_cons_iff, List.infix_cons_iff, ih, or_assoc,
      ← List.cons_append, prefix_append_sep_iff hp]

omit [DecidableEq α] in
/-- Nor does it occur among separators only. -/
theorem infix_append_replicate_iff (hne : p ≠ []) (x : List α) (n : ℕ) :
    p <:+: x ++ List.replicate n sep ↔ p <:+: x := by
  cases n with
  | zero => rw [List.replicate_zero, List.append_nil]
  | succ n =>
    rw [List.replicate_succ, infix_append_sep_iff hp, or_iff_left]
    intro hin
    obtain ⟨b, hb⟩ := List.exists_mem_of_ne_nil p hne
    exact hp (List.eq_of_mem_replicate (hin.subset hb) ▸ hb)

end occurrences

end separators

/-! ## Long lines in pieces -/

/-- A list cut into pieces of `n` elements, the last one shorter. -/
def pieces (n : ℕ) (l : List α) : List (List α) :=
  if _h : l = [] ∨ n = 0 then [] else l.take n :: pieces n (l.drop n)
termination_by l.length
decreasing_by
  have hpos := List.length_pos_of_ne_nil (not_or.mp _h).1
  have hn := (not_or.mp _h).2
  rw [List.length_drop]
  omega

theorem pieces_nil (n : ℕ) : pieces n ([] : List α) = [] := by
  rw [pieces]
  simp

/-- A list that is not too long is one piece. -/
theorem pieces_of_length_le {n : ℕ} {l : List α} (hne : l ≠ []) (h : l.length ≤ n) :
    pieces n l = [l] := by
  have hpos := List.length_pos_of_ne_nil hne
  rw [pieces, dif_neg (by simp only [hne, false_or]; omega), List.take_of_length_le h,
    List.drop_of_length_le h, pieces_nil]

/-- A full piece and the rest. -/
theorem pieces_append {n : ℕ} (hn : 0 < n) {l l' : List α} (h : l.length = n) :
    pieces n (l ++ l') = l :: pieces n l' := by
  have hne : l ++ l' ≠ [] := by
    intro hnil
    have hlength := congrArg List.length hnil
    rw [List.length_append, List.length_nil] at hlength
    omega
  rw [pieces, dif_neg (by simp only [hne, false_or]; omega), List.take_left' h, List.drop_left' h]

end Lines
