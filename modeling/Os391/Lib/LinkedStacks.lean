import Mathlib.Logic.Function.Basic
import Mathlib.Logic.Relation
import Mathlib.Data.List.Basic

/-!
# Linked stacks

Several owners each keep a stack of nodes; every node points at the node below
it, and the bottom nodes of all stacks point at one common root. With parent
links alone this is a tree in which every node but the root lies on the chain of
exactly one owner. `Forest` is the invariant, `push` and `pop` keep it.
-/

namespace LinkedStacks

universe u v

variable {ι : Type u} {α : Type v} {parent : α → Option α} {root : α}

/-! ## One stack -/

/-- The links of the stack, top first: each node points at the one below it. -/
def Linked (parent : α → Option α) (root : α) : List α → Prop
  | [] => True
  | x :: l => parent x = some (l.headD root) ∧ Linked parent root l

/-- Following parent links any number of times. -/
def Chain (parent : α → Option α) : α → α → Prop :=
  Relation.ReflTransGen fun x y => parent x = some y

/-- Following parent links at least once. -/
def ProperChain (parent : α → Option α) : α → α → Prop :=
  Relation.TransGen fun x y => parent x = some y

/-- The first link, if there is one. -/
theorem chain_iff_of_parent {x p y : α} (h : parent x = some p) :
    Chain parent x y ↔ y = x ∨ Chain parent p y := by
  constructor
  · intro hc
    rcases Relation.ReflTransGen.cases_head hc with rfl | ⟨z, hz, hzy⟩
    · exact Or.inl rfl
    · obtain rfl := Option.some.inj (h.symm.trans hz)
      exact Or.inr hzy
  · rintro (rfl | hc)
    · exact Relation.ReflTransGen.refl
    · exact Relation.ReflTransGen.head h hc

theorem chain_iff_of_no_parent {x y : α} (h : parent x = none) : Chain parent x y ↔ y = x := by
  constructor
  · intro hc
    rcases Relation.ReflTransGen.cases_head hc with rfl | ⟨z, hz, -⟩
    · rfl
    · rw [h] at hz
      cases hz
  · rintro rfl
    exact Relation.ReflTransGen.refl

namespace Linked

variable {l : List α}

/-- The chain of the top is the stack and the root. -/
theorem chain_iff (hroot : parent root = none) (h : Linked parent root l) {y : α} :
    Chain parent (l.headD root) y ↔ y ∈ l ∨ y = root := by
  induction l with
  | nil => simp [chain_iff_of_no_parent hroot]
  | cons x l ih => rw [List.headD_cons, chain_iff_of_parent h.1, ih h.2, List.mem_cons, or_assoc]

theorem append_right {l₁ l₂ : List α} (h : Linked parent root (l₁ ++ l₂)) :
    Linked parent root l₂ := by
  induction l₁ with
  | nil => exact h
  | cons x l₁ ih => exact ih h.2

/-- The links of a stack depend only on the parents of its members. -/
theorem congr {parent' : α → Option α} (h : Linked parent root l)
    (hsame : ∀ a ∈ l, parent' a = parent a) : Linked parent' root l := by
  induction l with
  | nil => trivial
  | cons x l ih =>
    refine ⟨?_, ih h.2 fun a ha => hsame a (List.mem_cons_of_mem x ha)⟩
    rw [hsame x List.mem_cons_self]
    exact h.1

end Linked

/-! ## All stacks -/

/-- The stacks of all owners: linked, without repetition, sharing no node. -/
structure Forest (parent : α → Option α) (root : α) (S : ι → List α) : Prop where
  root_parent : parent root = none
  linked : ∀ t, Linked parent root (S t)
  nodup : ∀ t, (S t).Nodup
  disjoint : ∀ t u a, a ∈ S t → a ∈ S u → t = u
  root_notMem : ∀ t, root ∉ S t

namespace Forest

variable {S : ι → List α} {t u : ι} {a x : α} {l : List α}

theorem ne_root (h : Forest parent root S) (ha : a ∈ S t) : a ≠ root := by
  rintro rfl
  exact h.root_notMem t ha

/-- A node and what lies below it in its stack. -/
theorem below (h : Forest parent root S) (ha : a ∈ S t) :
    ∃ below, parent a = some (below.headD root) ∧ Linked parent root below ∧ a ∉ below ∧
      ∀ b ∈ below, b ∈ S t := by
  -- cut the stack at the node
  obtain ⟨above, below, heq⟩ := List.append_of_mem ha
  have hlinked := h.linked t
  have hnodup := h.nodup t
  rw [heq] at hlinked hnodup
  have hthis := hlinked.append_right
  refine ⟨below, hthis.1, hthis.2, ?_, fun b hb => ?_⟩
  · exact (List.nodup_cons.mp (List.nodup_append.mp hnodup).2.1).1
  · rw [heq]
    simp [hb]

/-- The parent of a node is the root or lies in the same stack. -/
theorem parent_mem (h : Forest parent root S) (ha : a ∈ S t) :
    ∃ p, parent a = some p ∧ (p = root ∨ p ∈ S t) := by
  obtain ⟨below, hp, -, -, hmem⟩ := h.below ha
  refine ⟨_, hp, ?_⟩
  rcases below with _ | ⟨b, below⟩
  · exact Or.inl rfl
  · exact Or.inr (hmem b List.mem_cons_self)

/-- The links of a node reach the root. -/
theorem chain_root (h : Forest parent root S) (ha : a ∈ S t) : Chain parent a root := by
  obtain ⟨below, hp, hlinked, -, -⟩ := h.below ha
  rw [chain_iff_of_parent hp, hlinked.chain_iff h.root_parent]
  exact Or.inr (Or.inr rfl)

/-- They do not come back to the node. -/
theorem not_cyclic (h : Forest parent root S) (ha : a ∈ S t) : ¬ ProperChain parent a a := by
  intro hcycle
  obtain ⟨below, hp, hlinked, hnot, -⟩ := h.below ha
  obtain ⟨z, hz, hback⟩ := Relation.TransGen.head'_iff.mp hcycle
  obtain rfl := Option.some.inj (hp.symm.trans hz)
  rcases (hlinked.chain_iff h.root_parent).mp hback with hmem | hroot
  · exact hnot hmem
  · exact h.ne_root ha hroot

/-- The nodes on the chain of an owner are its stack and the root. -/
theorem chain_iff (h : Forest parent root S) (t : ι) {y : α} :
    Chain parent ((S t).headD root) y ↔ y ∈ S t ∨ y = root :=
  (h.linked t).chain_iff h.root_parent

/-- A node lies on the chain of exactly one owner. -/
theorem existsUnique_chain (h : Forest parent root S) (ha : a ∈ S t) :
    ∃! u, Chain parent ((S u).headD root) a := by
  refine ⟨t, (h.chain_iff t).mpr (Or.inl ha), fun u hu => ?_⟩
  rcases (h.chain_iff u).mp hu with hmem | hroot
  · exact h.disjoint u t a hmem ha
  · exact absurd hroot (h.ne_root ha)

/-- The top of a stack is nobody's parent. -/
theorem top_not_parent (h : Forest parent root S) (htop : S t = x :: l) (ha : a ∈ S u) :
    parent a ≠ some x := by
  intro hp
  have hx : x ∈ S t := by rw [htop]; exact List.mem_cons_self
  obtain ⟨above, below, heq⟩ := List.append_of_mem ha
  have hlinked := h.linked u
  rw [heq] at hlinked
  have hhead : below.headD root = x :=
    Option.some.inj (hlinked.append_right.1.symm.trans hp)
  rcases below with _ | ⟨b, below⟩
  · exact h.ne_root hx hhead.symm
  · -- `x` lies below `a` in the same stack, so it is not its top
    obtain rfl : b = x := hhead
    have htail : b ∈ (S u).tail := by
      rw [heq]
      cases above <;> simp
    obtain rfl := h.disjoint t u b hx (List.mem_of_mem_tail htail)
    have hnodup := h.nodup t
    rw [htop] at htail hnodup
    exact (List.nodup_cons.mp hnodup).1 htail

variable [DecidableEq ι]

/-- The members of the stacks after a push. -/
theorem mem_push {u : ι} {b : α} :
    b ∈ Function.update S t (a :: S t) u ↔ (u = t ∧ b = a) ∨ b ∈ S u := by
  by_cases hu : u = t
  · subst hu
    simp
  · simp [hu]

/-- Pushing a new node that points at the old top. -/
theorem push (h : Forest parent root S) {parent' : α → Option α} (hfresh : ∀ u, a ∉ S u)
    (hroot : a ≠ root) (hparent : parent' a = some ((S t).headD root))
    (hsame : ∀ b, b ≠ a → parent' b = parent b) :
    Forest parent' root (Function.update S t (a :: S t)) := by
  -- the stacks as they were do not contain the node whose link changes
  have hkept : ∀ u, Linked parent' root (S u) := fun u =>
    (h.linked u).congr fun b hb => hsame b fun hba => hfresh u (hba ▸ hb)
  refine ⟨(hsame root hroot.symm).trans h.root_parent, fun u => ?_, fun u => ?_, ?_, fun u => ?_⟩
  · by_cases hu : u = t
    · subst hu
      rw [Function.update_self]
      exact ⟨hparent, hkept u⟩
    · rw [Function.update_of_ne hu]
      exact hkept u
  · by_cases hu : u = t
    · subst hu
      rw [Function.update_self]
      exact List.nodup_cons.mpr ⟨hfresh u, h.nodup u⟩
    · rw [Function.update_of_ne hu]
      exact h.nodup u
  · intro u w b hb hb'
    rcases mem_push.mp hb with ⟨rfl, rfl⟩ | hbu
    · rcases mem_push.mp hb' with ⟨rfl, -⟩ | hbw
      · rfl
      · exact absurd hbw (hfresh w)
    · rcases mem_push.mp hb' with ⟨-, rfl⟩ | hbw
      · exact absurd hbu (hfresh u)
      · exact h.disjoint u w b hbu hbw
  · intro hr
    rcases mem_push.mp hr with ⟨-, hra⟩ | hru
    · exact hroot hra.symm
    · exact h.root_notMem u hru

/-- The members of the stacks after a pop. -/
theorem mem_pop (h : Forest parent root S) (htop : S t = x :: l) {u : ι} {b : α} :
    b ∈ Function.update S t l u ↔ b ≠ x ∧ b ∈ S u := by
  have hnodup := h.nodup t
  rw [htop] at hnodup
  have hxl : x ∉ l := (List.nodup_cons.mp hnodup).1
  by_cases hu : u = t
  · subst hu
    rw [Function.update_self, htop, List.mem_cons]
    exact ⟨fun hb => ⟨fun hbx => hxl (hbx ▸ hb), Or.inr hb⟩, fun hb => hb.2.resolve_left hb.1⟩
  · -- the other stacks do not contain the old top anyway
    rw [Function.update_of_ne hu]
    refine ⟨fun hb => ⟨fun hbx => hu (h.disjoint u t b hb ?_), hb⟩, fun hb => hb.2⟩
    rw [htop, hbx]
    exact List.mem_cons_self

/-- Popping the top of a stack. -/
theorem pop (h : Forest parent root S) (htop : S t = x :: l) :
    Forest parent root (Function.update S t l) := by
  have hsub : ∀ u, (Function.update S t l u).Sublist (S u) := by
    intro u
    by_cases hu : u = t
    · subst hu
      rw [Function.update_self, htop]
      exact List.sublist_cons_self x l
    · rw [Function.update_of_ne hu]
  refine ⟨h.root_parent, fun u => ?_, fun u => (h.nodup u).sublist (hsub u), ?_, fun u hr => ?_⟩
  · by_cases hu : u = t
    · subst hu
      have hlinked := h.linked u
      rw [htop] at hlinked
      rw [Function.update_self]
      exact hlinked.2
    · rw [Function.update_of_ne hu]
      exact h.linked u
  · intro u w b hb hb'
    exact h.disjoint u w b ((hsub u).subset hb) ((hsub w).subset hb')
  · exact h.root_notMem u ((hsub u).subset hr)

end Forest

end LinkedStacks
