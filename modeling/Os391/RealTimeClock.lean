import Os391.System
import Mathlib.Algebra.Order.Ring.Int
import Mathlib.Order.Bounds.Defs

/-!
# The virtual real-time clock: `rtc.c`

Every interrupt counts `virtual_counter` up, and a waiting `rtc_read` returns once the
counter has reached `virtual_frequency`; it then starts the counter anew. The counter is
an `int` and wraps around. It never shows more interrupts than have arrived since the
last completed read (`Counted`), whatever frequencies are set in between, and that is
all that the accounting of interrupts to reads rests on.
-/

namespace Os391

open Bytes

/-! ## The handler and the calls -/

/-- `rtc_handler`, without its accesses to the ports. -/
def rtcHandler (s : Kernel) : Kernel :=
  { s with rtc := { s.rtc with
      flag := 1, virtualCounter := (s.rtc.virtualCounter + 1).bmod (2 ^ 32) } }

/-- `rtc_open`; the rate that `rtc_change_rate` programs leaves no trace here. -/
def rtcOpen (s : Kernel) : Int × Kernel := (0, { s with rtc := { s.rtc with virtualFrequency := 1 } })

@[simp] theorem rtcHandler_virtualCounter (s : Kernel) :
    (rtcHandler s).rtc.virtualCounter = (s.rtc.virtualCounter + 1).bmod (2 ^ 32) := rfl

@[simp] theorem rtcHandler_virtualFrequency (s : Kernel) :
    (rtcHandler s).rtc.virtualFrequency = s.rtc.virtualFrequency := rfl

/-- What happens to the clock. -/
inductive RtcEvent : Type where
  /-- an interrupt arrives -/
  | interrupt : RtcEvent
  /-- `rtc_write` of a frequency -/
  | write : Word → RtcEvent
  /-- `rtc_open` -/
  | open : RtcEvent
  /-- an `rtc_read` completes -/
  | read : RtcEvent
  deriving DecidableEq

/-- The state after an event; a read can only complete once it does not wait any more. -/
def rtcStep (s : Kernel) : RtcEvent → Option Kernel
  | .interrupt => some (rtcHandler s)
  | .write frequency => some (rtcWrite frequency s).2
  | .open => some (rtcOpen s).2
  | .read => if (rtcRead s).1 = true then some (rtcRead s).2 else none

/-- The state after a sequence of events, if it can happen. -/
def rtcRun (s : Kernel) (es : List RtcEvent) : Option Kernel := es.foldlM rtcStep s

/-- The value of `virtual_frequency` at each completed read of a run. -/
def frequencies : Kernel → List RtcEvent → List Int
  | _, [] => []
  | s, e :: es =>
    match rtcStep s e with
    | none => []
    | some t => if e = .read then s.rtc.virtualFrequency :: frequencies t es else frequencies t es

/-! ## One step -/

section step

variable {s t : Kernel} {e : RtcEvent} {es : List RtcEvent}

theorem rtcRead_completes_iff : (rtcRead s).1 = true ↔
    s.rtc.virtualFrequency ≤ s.rtc.virtualCounter := by
  rw [rtcRead]
  split
  · next hlt => exact iff_of_false Bool.false_ne_true (not_le.mpr hlt)
  · next hge => exact iff_of_true rfl (not_lt.mp hge)

theorem rtcRead_restarts (h : (rtcRead s).1 = true) :
    (rtcRead s).2 = { s with rtc := { s.rtc with flag := 0, virtualCounter := 0 } } := by
  rw [rtcRead] at h ⊢
  split at h
  · cases h
  · next hge => rw [if_neg hge]

/-- A completed read. -/
theorem rtcStep_read (h : rtcStep s .read = some t) :
    s.rtc.virtualFrequency ≤ s.rtc.virtualCounter ∧
      t = { s with rtc := { s.rtc with flag := 0, virtualCounter := 0 } } := by
  rw [rtcStep] at h
  split at h
  · next hdone =>
    rw [← Option.some.inj h]
    exact ⟨rtcRead_completes_iff.mp hdone, rtcRead_restarts hdone⟩
  · cases h

/-- Neither `rtc_write` nor `rtc_open` touches the counter. -/
theorem rtcWrite_virtualCounter (f : Word) (s : Kernel) :
    (rtcWrite f s).2.rtc.virtualCounter = s.rtc.virtualCounter := by
  rw [rtcWrite]
  split
  · split <;> rfl
  · rfl

theorem rtcRun_append (es es' : List RtcEvent) :
    rtcRun s (es ++ es') = (rtcRun s es).bind fun t => rtcRun t es' := List.foldlM_append

end step

/-! ## The accounting -/

/-- The number of interrupts since the last completed read, after one more event. -/
def tally (k : ℕ) : RtcEvent → ℕ
  | .interrupt => k + 1
  | .write _ => k
  | .open => k
  | .read => 0

/-- The counter shows at most `k` interrupts; it may have wrapped around. -/
structure Counted (k : ℕ) (s : Kernel) : Prop where
  low : -2 ^ 31 ≤ s.rtc.virtualCounter
  le : s.rtc.virtualCounter ≤ k

/-- Wrapping around upwards makes a number smaller. -/
theorem bmod_le_self {x : Int} (h : -2 ^ 31 ≤ x) : x.bmod (2 ^ 32) ≤ x := by
  by_cases hlt : x < 2 ^ 31
  · rw [Int.bmod_eq_of_le (by omega) (by omega)]
  · have hmax := Int.bmod_lt (x := x) (m := 2 ^ 32) (by decide)
    omega

namespace Counted

variable {k : ℕ} {s t : Kernel} {e : RtcEvent} {es : List RtcEvent}

theorem step (h : Counted k s) (hstep : rtcStep s e = some t) : Counted (tally k e) t := by
  have hlow := h.low
  have hle := h.le
  cases e with
  | interrupt =>
    obtain rfl := Option.some.inj hstep
    have hwrap := bmod_le_self (x := s.rtc.virtualCounter + 1) (by omega)
    have hmin := Int.le_bmod (x := s.rtc.virtualCounter + 1) (m := 2 ^ 32) (by decide)
    refine ⟨?_, ?_⟩
    · rw [rtcHandler_virtualCounter]
      omega
    · rw [rtcHandler_virtualCounter, tally, Nat.cast_add_one]
      exact hwrap.trans (Int.add_le_add_right hle 1)
  | write f =>
    obtain rfl := Option.some.inj hstep
    refine ⟨?_, ?_⟩
    · rw [rtcWrite_virtualCounter]
      exact hlow
    · rw [rtcWrite_virtualCounter]
      exact hle
  | «open» =>
    obtain rfl := Option.some.inj hstep
    exact ⟨hlow, hle⟩
  | read =>
    obtain ⟨-, rfl⟩ := rtcStep_read hstep
    exact ⟨(by decide : (-2 ^ 31 : Int) ≤ 0), le_rfl⟩

theorem run (h : Counted k s) (hrun : rtcRun s es = some t) : Counted (es.foldl tally k) t := by
  induction es generalizing k s with
  | nil =>
    obtain rfl := Option.some.inj hrun
    exact h
  | cons e es ih =>
    obtain ⟨u, hstep, hrest⟩ := Option.bind_eq_some_iff.mp hrun
    exact ih (h.step hstep) hrest

/-- A completed read uses up interrupts that have been counted, and no event but an
interrupt adds one. -/
theorem pays (h : Counted k s) (hstep : rtcStep s e = some t) :
    (tally k e : Int) + (if e = .read then s.rtc.virtualFrequency else 0) ≤
      k + if e = .interrupt then 1 else 0 := by
  have hle := h.le
  cases e with
  | interrupt => exact le_rfl
  | write f => exact le_rfl
  | «open» => exact le_rfl
  | read =>
    obtain ⟨hdone, -⟩ := rtcStep_read hstep
    simp only [tally, if_true, reduceCtorEq, if_false]
    omega

/-- What the reads of a run ask for has arrived, or had been counted before. -/
theorem frequencies_sum_le (h : Counted k s) :
    (frequencies s es).sum ≤ k + es.count .interrupt := by
  induction es generalizing k s with
  | nil => exact Int.natCast_nonneg k
  | cons e es ih =>
    rw [frequencies]
    rcases hstep : rtcStep s e with _ | u
    · exact Int.add_nonneg (Int.natCast_nonneg k) (Int.natCast_nonneg _)
    · have hrest := ih (h.step hstep)
      have hpays := h.pays hstep
      have hsum : (if e = .read then s.rtc.virtualFrequency :: frequencies u es
          else frequencies u es).sum =
          (if e = .read then s.rtc.virtualFrequency else 0) + (frequencies u es).sum := by
        split
        · exact List.sum_cons
        · exact (Int.zero_add _).symm
      have hcount : ((e :: es).count .interrupt : Int) =
          es.count .interrupt + if e = .interrupt then 1 else 0 := by
        rw [List.count_cons]
        by_cases hint : e = .interrupt
        · subst hint
          rfl
        · rw [if_neg hint, if_neg (by simpa using hint)]
          rfl
      simp only [hsum, hcount]
      omega

end Counted

/-- Without a completed read, every interrupt is counted. -/
theorem tally_of_not_read {es : List RtcEvent} (h : .read ∉ es) (k : ℕ) :
    es.foldl tally k = k + es.count .interrupt := by
  induction es generalizing k with
  | nil => rfl
  | cons e es ih =>
    have hrest := ih fun hmem => h (List.mem_cons_of_mem e hmem)
    rw [List.foldl_cons, hrest]
    cases e with
    | interrupt =>
      rw [List.count_cons_self, tally]
      omega
    | write f => rw [List.count_cons_of_ne (by simp), tally]
    | «open» => rw [List.count_cons_of_ne (by simp), tally]
    | read => exact absurd List.mem_cons_self h

/-- From boot on, in every order of interrupts, `rtc_write`, `rtc_open` and completed
reads: up to each completed read at least as many interrupts have arrived as the
virtual frequencies in force at the completed reads add up to, and between two
consecutive ones at least as many as the frequency in force at the second. -/
theorem interrupts_cover_reads (L : Link) (mem : Word → Byte) (tables : PageTables)
    {es : List RtcEvent} {s : Kernel} (hrun : rtcRun (bootKernel L mem tables) es = some s) :
    (frequencies (bootKernel L mem tables) es).sum ≤ es.count .interrupt ∧
      ∀ before between, es = before ++ .read :: (between ++ [.read]) → .read ∉ between →
        ∃ t, rtcRun (bootKernel L mem tables) (before ++ .read :: between) = some t ∧
          t.rtc.virtualFrequency ≤ between.count .interrupt := by
  have hboot : Counted 0 (bootKernel L mem tables) :=
    ⟨(by decide : (-2 ^ 31 : Int) ≤ 0), le_rfl⟩
  refine ⟨?_, fun before between hes hnone => ?_⟩
  · have hsum := @Counted.frequencies_sum_le _ _ es hboot
    rwa [Nat.cast_zero, Int.zero_add] at hsum
  · have hsplit : es = (before ++ .read :: between) ++ [.read] := by
      rw [hes, List.append_assoc, List.cons_append]
    rw [hsplit, rtcRun_append] at hrun
    obtain ⟨t, ht, hlast⟩ := Option.bind_eq_some_iff.mp hrun
    obtain ⟨u, hstep, -⟩ := Option.bind_eq_some_iff.mp hlast
    refine ⟨t, ht, (rtcStep_read hstep).1.trans ?_⟩
    -- the first of the two reads has started the count anew
    have hcounted := (hboot.run ht).le
    rwa [List.foldl_append, List.foldl_cons, tally_of_not_read hnone, tally, Nat.zero_add]
      at hcounted

/-- Two reads at the highest frequency. -/
theorem interrupts_cover_reads_sample :
    let es : List RtcEvent := [.write 1024, .interrupt, .read, .interrupt, .read]
    frequencies Sample.atBoot es = [1, 1] ∧
      (frequencies Sample.atBoot es).sum ≤ es.count .interrupt :=
  ⟨by decide, (@interrupts_cover_reads Sample.link (fun _ => 0)
    ⟨fun _ => 0, fun _ => 0, fun _ => 0⟩
    [.write 1024, .interrupt, .read, .interrupt, .read] _ rfl).1⟩

/-! ## What a write changes -/

/-- The clock when `c` interrupts have arrived since the last completed read. -/
def counting (c : ℕ) (s : Kernel) : Kernel := { s with rtc := { s.rtc with virtualCounter := c } }

/-- A read needs `k` interrupts after the last completed one: if `c` of them have arrived,
it returns with the `k - c`-th from now on. -/
def Needs (s : Kernel) (k : ℕ) : Prop :=
  ∀ c < 2 ^ 31, IsLeast {m : ℕ | (rtcRead (rtcHandler^[m] (counting c s))).1 = true} (k - c)

/-- A frequency of the clock: a power of two from 2 to 1024. -/
def IsRate (f : Word) : Prop := f.toNat.isPowerOfTwo ∧ 2 ≤ f.toNat ∧ f.toNat ≤ 1024

/-- A later state, with interrupts and completed reads in between. -/
def Following (s t : Kernel) : Prop :=
  ∃ es, (∀ e ∈ es, e = .interrupt ∨ e = .read) ∧ rtcRun s es = some t

/-- What is expected of `rtc_write`: it accepts the frequencies and sets them, and
rejects everything else without an effect on the reads that follow. -/
structure WriteMeets (f : Word) (s : Kernel) : Prop where
  zero_iff : (rtcWrite f s).1 = 0 ↔ IsRate f
  rate : IsRate f → ∀ t, Following (rtcWrite f s).2 t → Needs t (1024 / f.toNat)
  error : ¬ IsRate f → (rtcWrite f s).1 = -1
  unchanged : ¬ IsRate f → ∀ t, Following (rtcWrite f s).2 t → ∀ k, Needs t k ↔ Needs s k

section write

variable {s t : Kernel} {f : Word} {c m k : ℕ}

theorem handlers_virtualCounter (hc : c < 2 ^ 31) (m : ℕ) :
    (rtcHandler^[m] (counting c s)).rtc.virtualCounter = ((c + m : ℕ) : Int).bmod (2 ^ 32) := by
  induction m with
  | zero =>
    rw [Nat.add_zero, Int.bmod_eq_of_le (by omega) (by omega)]
    rfl
  | succ m ih =>
    rw [Function.iterate_succ_apply', rtcHandler_virtualCounter, ih, Int.bmod_add_bmod]
    rfl

theorem handlers_virtualFrequency (m : ℕ) :
    (rtcHandler^[m] s).rtc.virtualFrequency = s.rtc.virtualFrequency := by
  induction m with
  | zero => rfl
  | succ m ih => rw [Function.iterate_succ_apply', rtcHandler_virtualFrequency, ih]

/-- Of the state, only the virtual frequency matters for what reads need. -/
theorem returns_iff (hc : c < 2 ^ 31) (m : ℕ) :
    (rtcRead (rtcHandler^[m] (counting c s))).1 = true ↔
      s.rtc.virtualFrequency ≤ ((c + m : ℕ) : Int).bmod (2 ^ 32) := by
  rw [rtcRead_completes_iff, handlers_virtualCounter hc, handlers_virtualFrequency]
  rfl

theorem needs_congr (h : t.rtc.virtualFrequency = s.rtc.virtualFrequency) :
    Needs t k ↔ Needs s k := by
  refine forall₂_congr fun c hc => ?_
  simp only [returns_iff hc, h]

theorem needs_virtualFrequency (hv : s.rtc.virtualFrequency = (k : Int)) (hk : k < 2 ^ 31) :
    Needs s k := by
  intro c hc
  refine ⟨?_, fun m hm => ?_⟩
  · rw [Set.mem_ofPred_eq, returns_iff hc, hv, Int.bmod_eq_of_le (by omega) (by omega)]
    omega
  · rw [Set.mem_ofPred_eq, returns_iff hc, hv] at hm
    have hle := hm.trans (bmod_le_self (by omega))
    omega

/-- A read that needs one interrupt. -/
theorem virtualFrequency_of_needs_one (h : Needs s 1) : s.rtc.virtualFrequency = 1 := by
  obtain ⟨hone, hleast⟩ := h 0 (by decide)
  rw [Set.mem_ofPred_eq, returns_iff (by decide)] at hone
  have hzero : ¬ s.rtc.virtualFrequency ≤ 0 := fun hle =>
    absurd (hleast ((returns_iff (by decide) 0).mpr hle)) (by decide)
  exact le_antisymm hone (not_le.mp hzero)

theorem Following.virtualFrequency (h : Following s t) :
    t.rtc.virtualFrequency = s.rtc.virtualFrequency := by
  obtain ⟨es, hes, hrun⟩ := h
  induction es generalizing s with
  | nil =>
    obtain rfl := Option.some.inj hrun
    rfl
  | cons e es ih =>
    obtain ⟨u, hstep, hrest⟩ := Option.bind_eq_some_iff.mp hrun
    rw [ih (fun d hd => hes d (List.mem_cons_of_mem e hd)) hrest]
    rcases hes e List.mem_cons_self with rfl | rfl
    · obtain rfl := Option.some.inj hstep
      rfl
    · obtain ⟨-, rfl⟩ := rtcStep_read hstep
      rfl

/-- The table of `rtc_write` lists frequencies with their divisors, -/
theorem rtcDivisors_rate : ∀ e ∈ rtcDivisors, IsRate e.1 ∧ e.2 = (1024 / e.1.toNat : ℕ) := by
  have htable : ∀ e ∈ rtcDivisors, (∃ k : Fin 11, e.1.toNat = 2 ^ k.val) ∧
      (2 ≤ e.1.toNat ∧ e.1.toNat ≤ 1024) ∧ e.2 = (1024 / e.1.toNat : ℕ) := by
    decide
  intro e he
  obtain ⟨⟨k, hk⟩, hrange, hdiv⟩ := htable e he
  exact ⟨⟨⟨k.val, hk⟩, hrange⟩, hdiv⟩

/-- and all of them. -/
theorem exists_divisor (h : IsRate f) : ∃ e ∈ rtcDivisors, e.1 = f := by
  have htable : ∀ k : Fin 11, 1 ≤ k.val → ∃ e ∈ rtcDivisors, e.1.toNat = 2 ^ k.val := by decide
  obtain ⟨⟨k, hk⟩, hlow, hhigh⟩ := h
  have hle : k ≤ 10 := (Nat.pow_le_pow_iff_right (a := 2) (by decide)).mp (hk ▸ hhigh)
  have hpos : 1 ≤ k := by
    rcases k with _ | k
    · rw [hk] at hlow
      exact absurd hlow (by decide)
    · exact Nat.succ_pos k
  obtain ⟨e, he, heq⟩ := htable ⟨k, by omega⟩ hpos
  exact ⟨e, he, BitVec.eq_of_toNat_eq (heq.trans hk.symm)⟩

theorem rtcWrite_accepts (h : IsRate f) (s : Kernel) : (rtcWrite f s).1 = 0 ∧
    (rtcWrite f s).2.rtc.virtualFrequency = (1024 / f.toNat : ℕ) := by
  rw [rtcWrite, if_pos ⟨h.2.2, h.2.1⟩]
  split
  · next e hfind =>
    have heq : e.1 = f := by simpa using List.find?_some hfind
    have hdiv := (rtcDivisors_rate e (List.mem_of_find?_eq_some hfind)).2
    rw [heq] at hdiv
    exact ⟨rfl, hdiv⟩
  · next hfind =>
    obtain ⟨e, he, heq⟩ := exists_divisor h
    exact absurd heq (by simpa using List.find?_eq_none.mp hfind e he)

/-- A frequency in range that is none of the ten resets the divider to 1; one out of range
leaves it alone. -/
theorem rtcWrite_rejects (h : ¬ IsRate f) (s : Kernel) : (rtcWrite f s).1 = -1 ∧
    (rtcWrite f s).2.rtc.virtualFrequency =
      if 2 ≤ f.toNat ∧ f.toNat ≤ 1024 then 1 else s.rtc.virtualFrequency := by
  rw [rtcWrite]
  by_cases hrange : 2 ≤ f.toNat ∧ f.toNat ≤ 1024
  · rw [if_pos ⟨hrange.2, hrange.1⟩, if_pos hrange]
    split
    · next e hfind =>
      have heq : e.1 = f := by simpa using List.find?_some hfind
      exact absurd (heq ▸ (rtcDivisors_rate e (List.mem_of_find?_eq_some hfind)).1) h
    · exact ⟨rfl, rfl⟩
  · rw [if_neg fun hboth => hrange ⟨hboth.2, hboth.1⟩, if_neg hrange]
    exact ⟨rfl, rfl⟩

end write

/-- `rtc_write` does what is expected of it exactly if the frequency is accepted, or out of
range, or the reads need one interrupt each anyway. -/
theorem rtcWrite_meets_iff (f : Word) (s : Kernel) : WriteMeets f s ↔
    IsRate f ∨ ¬ (2 ≤ f.toNat ∧ f.toNat ≤ 1024) ∨ s.rtc.virtualFrequency = 1 := by
  by_cases hrate : IsRate f
  · refine iff_of_true ⟨?_, fun _ t ht => ?_, fun h => absurd hrate h, fun h => absurd hrate h⟩
      (Or.inl hrate)
    · exact iff_of_true (rtcWrite_accepts hrate s).1 hrate
    · have hdiv := Nat.div_le_self 1024 f.toNat
      exact needs_virtualFrequency (ht.virtualFrequency.trans (rtcWrite_accepts hrate s).2)
        (by omega)
  · obtain ⟨hret, hfreq⟩ := rtcWrite_rejects hrate s
    constructor
    · intro hmeets
      refine Or.inr (or_iff_not_imp_left.mpr fun hrange => ?_)
      rw [if_pos (not_not.mp hrange)] at hfreq
      -- the next read needs one interrupt, so the reads before needed one too
      have hone : Needs (rtcWrite f s).2 1 := needs_virtualFrequency hfreq (by decide)
      exact virtualFrequency_of_needs_one
        ((hmeets.unchanged hrate _ ⟨[], List.forall_mem_nil _, rfl⟩ 1).mp hone)
    · intro hcond
      have hsame : (rtcWrite f s).2.rtc.virtualFrequency = s.rtc.virtualFrequency := by
        rw [hfreq]
        split
        · next hrange =>
          exact (((hcond.resolve_left hrate).resolve_left (not_not.mpr hrange))).symm
        · rfl
      refine ⟨?_, fun h => absurd h hrate, fun _ => hret, fun _ t ht k => ?_⟩
      · exact iff_of_false (by rw [hret]; decide) hrate
      · exact needs_congr (ht.virtualFrequency.trans hsame)

/-- A rejected frequency speeds the reads up: at 2 Hz, where a read needs 512 interrupts,
it needs 1 after the attempt to set 3 Hz. -/
theorem rejected_write_resets :
    ¬ WriteMeets 3 (rtcWrite 2 Sample.running).2 := by
  intro hmeets
  have hrate : ¬ IsRate 3 := by
    intro h
    have herror := (rtcWrite_accepts h Sample.running).1
    revert herror
    decide
  have hone : Needs (rtcWrite 3 (rtcWrite 2 Sample.running).2).2 1 :=
    needs_virtualFrequency (by decide) (by decide)
  have hbefore := virtualFrequency_of_needs_one
    ((hmeets.unchanged hrate _ ⟨[], List.forall_mem_nil _, rfl⟩ 1).mp hone)
  revert hbefore
  decide

end Os391
