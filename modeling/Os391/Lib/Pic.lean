import Mathlib.Data.Finset.Basic
import Mathlib.Order.Fin.Basic

/-!
# Cascaded interrupt controllers

Two chips of eight lines each, the second one behind line 2 of the first, in the mode in
which a line that is in service holds back all lines from itself on. A request that is
accepted puts its line in service, and a command has to end it. `Serves` connects the lines
in service with the interrupts that have not been ended, the innermost first: the list grows
when a request is accepted and shrinks when the innermost interrupt is ended.
-/

namespace Pic

/-- The lines of one chip can be written as numbers. -/
scoped instance chipLines : @NeZero ℕ (@Zero.ofOfNat0 ℕ (instOfNatNat 0)) 8 := Nat.instNeZeroSucc

/-- And those of both. -/
scoped instance allLines : @NeZero ℕ (@Zero.ofOfNat0 ℕ (instOfNatNat 0)) 16 := Nat.instNeZeroSucc

/-- The line of the first chip by which a line reaches the processor. -/
def level (n : Fin 16) : Fin 8 := if h : n.val < 8 then ⟨n, h⟩ else 2

/-- The line at its own chip. -/
def own (n : Fin 16) : Fin 8 := ⟨n % 8, Nat.mod_lt _ (by decide)⟩

/-- The place in the order of priority. -/
def rank (n : Fin 16) : ℕ := 16 * level n + n

/-- A byte at the command port of a chip whose lines `service` are in service: the start of
an initialization, or the end of an interrupt of a line. The other commands are left out. -/
def command (b : BitVec 8) (service : Finset (Fin 8)) : Finset (Fin 8) :=
  if b.getLsbD 4 then ∅
  else if b.extractLsb' 3 5 = 0b01100 then service.erase (b.extractLsb' 0 3).toFin
  else service

/-- The requests that wait, and the lines in service of each chip. -/
structure Pair : Type where
  requests : Finset (Fin 16)
  master : Finset (Fin 8)
  slave : Finset (Fin 8)

namespace Pair

/-- No line in service holds back `n`. -/
def Free (p : Pair) (n : Fin 16) : Prop :=
  (∀ m ∈ p.master, level n < m) ∧ (8 ≤ n → ∀ m ∈ p.slave, own n < m)

instance (p : Pair) (n : Fin 16) : Decidable (p.Free n) :=
  inferInstanceAs (Decidable ((∀ m ∈ p.master, level n < m) ∧ (8 ≤ n → ∀ m ∈ p.slave, own n < m)))

/-- The chips pass on the request of `n` before all others. -/
def Accepts (enabled : Fin 16 → Prop) (p : Pair) (n : Fin 16) : Prop :=
  n ∈ p.requests ∧ enabled n ∧ p.Free n ∧
    ∀ m ∈ p.requests, enabled m → p.Free m → rank n ≤ rank m

/-- The request of `n` is accepted. -/
def accept (n : Fin 16) (p : Pair) : Pair where
  requests := p.requests.erase n
  master := insert (level n) p.master
  slave := if 8 ≤ n then insert (own n) p.slave else p.slave

/-- Both chips are told the end of an interrupt on `n`. -/
def ended (n : Fin 16) (p : Pair) : Pair :=
  { p with
    master := p.master.erase (level n)
    slave := if 8 ≤ n then p.slave.erase (own n) else p.slave }

end Pair

/-! ## What has not been ended -/

theorem level_of_le {n : Fin 16} (h : 8 ≤ n) : level n = 2 :=
  dif_neg (Nat.not_lt.mpr h)

/-- The lines in service are those of the interrupts `ns`. Each of these has interrupted only
interrupts of lower priority. -/
structure Serves (p : Pair) (ns : List (Fin 16)) : Prop where
  nested : (ns.map level).Pairwise (· < ·)
  master : ∀ m, m ∈ p.master ↔ ∃ n ∈ ns, level n = m
  slave : ∀ m, m ∈ p.slave ↔ ∃ n ∈ ns, 8 ≤ n ∧ own n = m

namespace Serves

variable {p : Pair} {ns : List (Fin 16)} {n : Fin 16}

theorem nil (requests : Finset (Fin 16)) : Serves ⟨requests, ∅, ∅⟩ [] :=
  ⟨List.Pairwise.nil, fun m => by simp, fun m => by simp⟩

/-- Requests come and go. -/
theorem requests (h : Serves p ns) (waiting : Finset (Fin 16)) :
    Serves { p with requests := waiting } ns := ⟨h.nested, h.master, h.slave⟩

theorem free_iff (h : Serves p ns) : p.Free n ↔ ∀ m ∈ ns, level n < level m := by
  constructor
  · exact fun hfree m hm => hfree.1 _ ((h.master _).mpr ⟨m, hm, rfl⟩)
  · intro hbefore
    refine ⟨fun m hm => ?_, fun hn m hm => ?_⟩
    · obtain ⟨k, hk, rfl⟩ := (h.master m).mp hm
      exact hbefore k hk
    · -- two lines of the second chip come by one line of the first
      obtain ⟨k, hk, hk8, -⟩ := (h.slave m).mp hm
      have hlt := hbefore k hk
      rw [level_of_le hn, level_of_le hk8] at hlt
      exact absurd hlt (lt_irrefl _)

theorem accept (h : Serves p ns) (hfree : p.Free n) : Serves (p.accept n) (n :: ns) := by
  refine ⟨?_, fun m => ?_, fun m => ?_⟩
  · rw [List.map_cons, List.pairwise_cons]
    refine ⟨fun k hk => ?_, h.nested⟩
    obtain ⟨m, hm, rfl⟩ := List.mem_map.mp hk
    exact h.free_iff.mp hfree m hm
  · rw [Pair.accept, Finset.mem_insert, h.master, List.exists_mem_cons_iff, eq_comm]
  · rw [Pair.accept, List.exists_mem_cons_iff]
    by_cases hn : 8 ≤ n
    · rw [if_pos hn, Finset.mem_insert, h.slave, eq_comm, and_iff_right hn]
    · rw [if_neg hn, h.slave]
      exact ⟨Or.inr, fun hor => hor.resolve_left fun hand => hn hand.1⟩

/-- The innermost interrupt is ended. -/
theorem ended (h : Serves p (n :: ns)) : Serves (p.ended n) ns := by
  have hcons := h.nested
  rw [List.map_cons, List.pairwise_cons] at hcons
  have hne : ∀ m ∈ ns, level m ≠ level n := fun m hm =>
    (hcons.1 (level m) (List.mem_map_of_mem hm)).ne'
  refine ⟨hcons.2, fun m => ?_, fun m => ?_⟩
  · rw [Pair.ended, Finset.mem_erase, h.master, List.exists_mem_cons_iff]
    constructor
    · rintro ⟨hm, rfl | hex⟩
      · exact absurd rfl hm
      · exact hex
    · rintro ⟨k, hk, rfl⟩
      exact ⟨hne k hk, .inr ⟨k, hk, rfl⟩⟩
  · have hslave := h.slave m
    rw [List.exists_mem_cons_iff] at hslave
    rw [Pair.ended]
    by_cases hn : 8 ≤ n
    · -- there is no other one of the second chip
      have hnone : ¬ ∃ k ∈ ns, 8 ≤ k ∧ own k = m := fun ⟨k, hk, hk8, _⟩ =>
        hne k hk (by rw [level_of_le hk8, level_of_le hn])
      rw [if_pos hn, Finset.mem_erase, hslave]
      refine ⟨fun ⟨hm, hor⟩ => hor.resolve_left fun hand => hm hand.2.symm, fun hex => ?_⟩
      exact absurd hex hnone
    · rw [if_neg hn, hslave]
      exact ⟨fun hor => hor.resolve_left fun hand => hn hand.1, Or.inr⟩

end Serves

end Pic
