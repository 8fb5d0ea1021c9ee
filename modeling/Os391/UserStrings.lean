import Os391.Itoa

/-!
# The strings of user programs: `ece391support.c`

The user programs have string functions of their own. Where they do the same as those of
the kernel they are the same definition; `strcpy` works inside one buffer, which is how
`grep` uses it, and the comparisons are of unsigned bytes.
-/

namespace Os391

open Bytes Itoa

namespace Support

/-- `ece391_strlen`. -/
def ece391Strlen (s : ℕ → Byte) : ℕ := strlenFrom s (2 ^ 32) 0

/-- `ece391_strcpy` from `src` to `dst` in one memory. `none` if no NUL has been copied
after `fuel` bytes. -/
def ece391Strcpy : (fuel dst src : ℕ) → (ℕ → Byte) → Option (ℕ → Byte)
  | 0, _, _, _ => none
  | fuel + 1, dst, src, mem =>
    let c := mem src
    let mem := Function.update mem dst c
    if c = 0 then some mem else ece391Strcpy fuel (dst + 1) (src + 1) mem

/-- The string one byte further on. -/
def next (s : ℕ → Byte) : ℕ → Byte := fun k => s (k + 1)

/-- `ece391_strcmp`, and `none` if it has not ended after `fuel` bytes. -/
def ece391Strcmp : ℕ → (ℕ → Byte) → (ℕ → Byte) → Option Int
  | 0, _, _ => none
  | fuel + 1, s1, s2 =>
    if s1 0 = s2 0 then
      if s1 0 = 0 then some 0 else ece391Strcmp fuel (next s1) (next s2)
    else some ((s1 0).toNat - (s2 0).toNat)

/-- `ece391_strncmp`. -/
def ece391Strncmp : ℕ → (ℕ → Byte) → (ℕ → Byte) → Int
  | 0, _, _ => 0
  | n + 1, s1, s2 =>
    if s1 0 = s2 0 then
      if s1 0 = 0 ∨ n = 0 then 0 else ece391Strncmp n (next s1) (next s2)
    else (s1 0).toNat - (s2 0).toNat

/-- `ece391_strrev`, which does not start its loop for less than two bytes. -/
def ece391Strrev (s : ℕ → Byte) : ℕ → Byte :=
  let last : Int := ece391Strlen s - 1
  if last ≤ 0 then s else strrevLoop (ece391Strlen s) 0 last s

/-- `ece391_itoa`. -/
def ece391Itoa (value : Word) (buf : ℕ → Byte) (radix : Word) : Option (ℕ → Byte) :=
  if value = 0 then some (Function.update (Function.update buf 0 (char '0')) 1 0)
  else (digitLoop radix value.toNat value 0 buf).map fun t =>
    ece391Strrev (Function.update t.2 t.1 0)

/-! ## One byte further on -/

section next

variable {s : ℕ → Byte} {t : List Byte} {b : Byte}

theorem holdsText_nil_iff : HoldsText s [] ↔ s 0 = 0 :=
  ⟨fun h => h.ends, fun h => ⟨fun k hk => absurd hk (Nat.not_lt_zero k), h, List.not_mem_nil⟩⟩

theorem holdsText_cons_iff : HoldsText s (b :: t) ↔ s 0 = b ∧ b ≠ 0 ∧ HoldsText (next s) t := by
  constructor
  · intro h
    have hb : s 0 = b := h.text 0 (Nat.zero_lt_succ _)
    obtain ⟨hne, hnot⟩ := not_or.mp (fun hor => h.nonzero (List.mem_cons.mpr hor))
    exact ⟨hb, Ne.symm hne, fun k hk => h.text (k + 1) (Nat.succ_lt_succ hk), h.ends, hnot⟩
  · rintro ⟨rfl, hne, h⟩
    refine ⟨fun k hk => ?_, h.ends, ?_⟩
    · rcases k with _ | k
      · rfl
      · exact h.text k (Nat.lt_of_succ_lt_succ hk)
    · rw [List.mem_cons, not_or]
      exact ⟨Ne.symm hne, h.nonzero⟩

end next

/-! ## Comparing -/

section compare

variable {s1 s2 : ℕ → Byte} {t1 t2 : List Byte}

/-- The sign of `r` is the order of the two texts, by unsigned bytes. -/
structure Orders (r : Int) (t1 t2 : List Byte) : Prop where
  eq_iff : r = 0 ↔ t1 = t2
  lt_iff : r < 0 ↔ t1 < t2

theorem orders_nil : Orders 0 [] [] := ⟨iff_of_true rfl rfl, by simp⟩

/-- Two texts that begin with the same byte. -/
theorem Orders.cons {r : Int} (h : Orders r t1 t2) (b : Byte) : Orders r (b :: t1) (b :: t2) := by
  refine ⟨h.eq_iff.trans (by simp), h.lt_iff.trans ?_⟩
  rw [List.cons_lt_cons_iff]
  simp

/-- The first byte, if there is one, else NUL. -/
theorem holdsText_head (h : HoldsText s1 t1) : s1 0 = t1.headD 0 := by
  cases t1 with
  | nil => exact h.ends
  | cons b t => exact h.text 0 (Nat.zero_lt_succ _)

/-- The difference of two different first bytes. -/
theorem orders_of_ne (h1 : 0 ∉ t1) (h2 : 0 ∉ t2) (hne : t1.headD 0 ≠ t2.headD 0) :
    Orders ((t1.headD 0).toNat - (t2.headD 0).toNat) t1 t2 := by
  have hnat : (t1.headD 0).toNat ≠ (t2.headD 0).toNat := fun h => hne (BitVec.eq_of_toNat_eq h)
  have hdiff : ((t1.headD 0).toNat : Int) - (t2.headD 0).toNat < 0 ↔
      (t1.headD 0).toNat < (t2.headD 0).toNat := by omega
  refine ⟨iff_of_false (by omega) fun h => hne (h ▸ rfl), hdiff.trans ?_⟩
  cases t1 with
  | nil =>
    cases t2 with
    | nil => exact absurd rfl hne
    | cons c t2 =>
      have hc : c ≠ 0 := fun hc => h2 (hc ▸ List.mem_cons_self)
      refine iff_of_true ?_ (List.nil_lt_cons c t2)
      exact Nat.pos_of_ne_zero fun hz => hc (BitVec.eq_of_toNat_eq hz)
  | cons b t1 =>
    cases t2 with
    | nil => exact iff_of_false (Nat.not_lt_zero _) (List.not_lt_nil _)
    | cons c t2 =>
      have hbc : b ≠ c := hne
      rw [List.cons_lt_cons_iff]
      simp [hbc, BitVec.lt_def]

/-- Two strings that begin with the same byte: both are empty, or both go on. -/
theorem holdsText_same (h1 : HoldsText s1 t1) (h2 : HoldsText s2 t2) (heq : s1 0 = s2 0) :
    s1 0 = 0 ∧ t1 = [] ∧ t2 = [] ∨
      s1 0 ≠ 0 ∧ ∃ b u1 u2, t1 = b :: u1 ∧ t2 = b :: u2 ∧ HoldsText (next s1) u1 ∧
        HoldsText (next s2) u2 := by
  cases t1 with
  | nil =>
    cases t2 with
    | nil => exact Or.inl ⟨h1.ends, rfl, rfl⟩
    | cons c u2 =>
      obtain ⟨hc, hne, -⟩ := holdsText_cons_iff.mp h2
      exact absurd (hc.symm.trans (heq.symm.trans h1.ends)) hne
  | cons b u1 =>
    obtain ⟨hb, hne, hu1⟩ := holdsText_cons_iff.mp h1
    cases t2 with
    | nil => exact absurd (hb.symm.trans (heq.trans h2.ends)) hne
    | cons c u2 =>
      obtain ⟨hc, -, hu2⟩ := holdsText_cons_iff.mp h2
      obtain rfl : b = c := hb.symm.trans (heq.trans hc)
      exact Or.inr ⟨hb ▸ hne, b, u1, u2, rfl, rfl, hu1, hu2⟩

/-- `ece391_strcmp` ends and orders the two strings. -/
theorem ece391Strcmp_orders (h1 : HoldsText s1 t1) (h2 : HoldsText s2 t2) {fuel : ℕ}
    (hfuel : t1.length < fuel) : ∃ r, ece391Strcmp fuel s1 s2 = some r ∧ Orders r t1 t2 := by
  induction fuel generalizing s1 s2 t1 t2 with
  | zero => exact absurd hfuel (Nat.not_lt_zero _)
  | succ fuel ih =>
    rw [ece391Strcmp]
    by_cases heq : s1 0 = s2 0
    · rw [if_pos heq]
      rcases holdsText_same h1 h2 heq with ⟨hzero, rfl, rfl⟩ | ⟨hne, b, u1, u2, rfl, rfl, hu1, hu2⟩
      · rw [if_pos hzero]
        exact ⟨0, rfl, orders_nil⟩
      · obtain ⟨r, hr, hu⟩ := ih hu1 hu2 (Nat.lt_of_succ_lt_succ hfuel)
        rw [if_neg hne]
        exact ⟨r, hr, hu.cons b⟩
    · rw [if_neg heq]
      refine ⟨_, rfl, ?_⟩
      rw [holdsText_head h1, holdsText_head h2] at heq ⊢
      exact orders_of_ne h1.nonzero h2.nonzero heq

/-- `ece391_strncmp` orders the first `n` bytes of the two strings. -/
theorem ece391Strncmp_orders (h1 : HoldsText s1 t1) (h2 : HoldsText s2 t2) (n : ℕ) :
    Orders (ece391Strncmp n s1 s2) (t1.take n) (t2.take n) := by
  induction n generalizing s1 s2 t1 t2 with
  | zero =>
    rw [List.take_zero, List.take_zero]
    exact orders_nil
  | succ n ih =>
    rw [ece391Strncmp]
    by_cases heq : s1 0 = s2 0
    · rw [if_pos heq]
      rcases holdsText_same h1 h2 heq with ⟨hzero, rfl, rfl⟩ | ⟨hne, b, u1, u2, rfl, rfl, hu1, hu2⟩
      · rw [if_pos (Or.inl hzero), List.take_nil]
        exact orders_nil
      · rw [List.take_succ_cons, List.take_succ_cons]
        split
        · next hor =>
          -- the last of the `n` bytes
          obtain rfl := hor.resolve_left hne
          exact orders_nil.cons b
        · exact (ih hu1 hu2).cons b
    · rw [if_neg heq]
      have hhead : ∀ t : List Byte, (t.take (n + 1)).headD 0 = t.headD 0 := by
        intro t
        cases t with
        | nil => rfl
        | cons b t => rfl
      rw [holdsText_head h1, holdsText_head h2, ← hhead t1, ← hhead t2] at heq ⊢
      exact orders_of_ne (fun h => h1.nonzero (List.mem_of_mem_take h))
        (fun h => h2.nonzero (List.mem_of_mem_take h)) heq

end compare

/-! ## Copying -/

/-- `ece391_strcpy` downwards in one memory: the string arrives as it was, although its
place may overlap with the new one. -/
theorem ece391Strcpy_eq {mem : ℕ → Byte} {dst src : ℕ} {t : List Byte} (hlt : dst < src)
    (h : HoldsText (fun k => mem (src + k)) t) {fuel : ℕ} (hfuel : t.length < fuel) :
    ece391Strcpy fuel dst src mem = some (put mem dst (t ++ [0])) := by
  induction t generalizing mem dst src fuel with
  | nil =>
    obtain ⟨n, rfl⟩ : ∃ n, fuel = n + 1 := ⟨fuel - 1, by rw [List.length_nil] at hfuel; omega⟩
    have hzero : mem src = 0 := holdsText_nil_iff.mp h
    rw [ece391Strcpy, hzero, List.nil_append, ← put_cons, put_nil]
    exact if_pos rfl
  | cons b t ih =>
    obtain ⟨n, rfl⟩ : ∃ n, fuel = n + 1 := ⟨fuel - 1, by omega⟩
    obtain ⟨hb, hne, hrest⟩ := holdsText_cons_iff.mp h
    have hsrc : mem src = b := hb
    -- the byte stored lies before everything that is still to be copied
    have hlater : HoldsText (fun k => Function.update mem dst b (src + 1 + k)) t := by
      have hsame : (fun k => Function.update mem dst b (src + 1 + k)) =
          next fun k => mem (src + k) := by
        funext k
        rw [Function.update_of_ne (by omega), next, Nat.add_assoc, Nat.add_comm 1 k]
      rwa [hsame]
    rw [ece391Strcpy, hsrc]
    refine (if_neg hne).trans ?_
    rw [ih (by omega) hlater (Nat.lt_of_succ_lt_succ hfuel), put_cons, List.cons_append]

/-! ## Numerals -/

/-- `ece391_strrev` does what `strrev` does. -/
theorem ece391Strrev_eq (s : ℕ → Byte) : ece391Strrev s = strrev s := by
  rw [ece391Strrev, strrev]
  change (if (Itoa.strlen s : Int) - 1 ≤ 0 then s else _) = _
  split
  · next hshort =>
    rcases hlen : Itoa.strlen s with _ | n
    · rfl
    · rw [hlen] at hshort
      obtain rfl : n = 0 := by omega
      rfl
  · rfl

/-- `ece391_itoa` does what `itoa` does. -/
theorem ece391Itoa_eq (value : Word) (buf : ℕ → Byte) (radix : Word) :
    ece391Itoa value buf radix = itoa value buf radix := by
  rw [ece391Itoa, itoa]
  simp only [ece391Strrev_eq]

end Support

end Os391
