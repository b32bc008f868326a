/-
# Ome.Theory.Forest — sums over what lies below a node

A parent graph is graded when every node is one level below its parent.  Then it
has no cycles, what lies below a node is the node and, apart from each other, what
lies below its children (`below_eq`, `disjoint_below`), and a sum over it is a sum
over the children (`sum_below`).  `Graded.induction` is the induction from the
leaves up.
-/
import Ome.Theory.ParentGraph
import Mathlib.Algebra.BigOperators.Group.Finset.Basic

namespace Ome.Theory.ParentGraph

open Relation.ReflTransGen

set_option autoImplicit false

open Classical in
/-- The nodes at or below `n`. -/
noncomputable def below {α : Type} (nodes : List α) (parent : α → Option α) (n : α) : Finset α :=
  nodes.toFinset.filter fun a => OnChain parent a n

/-- Every node is one level below its parent. -/
def Graded {α : Type} (parent : α → Option α) (depth : α → Int) : Prop :=
  ∀ a b, parent a = some b → depth a = depth b + 1

variable {α : Type} {parent : α → Option α} {depth : α → Int} {nodes : List α}
  {children : α → List α}

theorem mem_below {a n : α} : a ∈ below nodes parent n ↔ a ∈ nodes ∧ OnChain parent a n := by
  classical
  simp [below]

namespace Graded

variable (graded : Graded parent depth)

include graded

theorem le_of_onChain {a b : α} (chain : OnChain parent a b) : depth b ≤ depth a := by
  induction chain using head_induction_on with
  | refl => exact Int.le_refl _
  | head up _ ih =>
    have := graded _ _ up
    omega

theorem eq_of_onChain {a b : α} (chain : OnChain parent a b) (level : depth a = depth b) :
    a = b := by
  cases cases_head chain with
  | inl same => exact same
  | inr first =>
    obtain ⟨c, up, rest⟩ := first
    have := graded _ _ up
    have := graded.le_of_onChain rest
    omega

omit graded in
/-- Two nodes on one chain are above each other. -/
theorem onChain_linear {a b c : α} (first : OnChain parent a b) (second : OnChain parent a c) :
    OnChain parent b c ∨ OnChain parent c b := by
  induction first using head_induction_on with
  | refl => exact .inl second
  | @head a m up _ ih =>
    cases cases_head second with
    | inl same => exact .inr (same ▸ .head up ‹_›)
    | inr first =>
      obtain ⟨n, up', rest⟩ := first
      cases up.symm.trans up'
      exact ih rest

variable (link : ∀ a p, a ∈ children p ↔ parent a = some p)

include link

theorem disjoint_below {n c d : α} (left : c ∈ children n) (right : d ∈ children n)
    (apart : c ≠ d) : Disjoint (below nodes parent c) (below nodes parent d) := by
  have level : depth c = depth d := by
    rw [graded _ _ ((link c n).mp left), graded _ _ ((link d n).mp right)]
  rw [Finset.disjoint_left]
  intro a underC underD
  rcases onChain_linear (mem_below.mp underC).2 (mem_below.mp underD).2 with up | up
  · exact apart (graded.eq_of_onChain up level)
  · exact apart (graded.eq_of_onChain up level.symm).symm

theorem not_mem_below {n c : α} (child : c ∈ children n) : n ∉ below nodes parent c := by
  intro under
  have := graded.le_of_onChain (mem_below.mp under).2
  have := graded _ _ ((link c n).mp child)
  omega

omit graded in
theorem below_eq [DecidableEq α] {n : α} (node : n ∈ nodes) :
    below nodes parent n = insert n ((children n).toFinset.biUnion (below nodes parent)) := by
  ext a
  simp only [Finset.mem_insert, Finset.mem_biUnion, List.mem_toFinset, mem_below]
  constructor
  · rintro ⟨known, chain⟩
    cases cases_tail chain with
    | inl same => exact .inl same.symm
    | inr last =>
      obtain ⟨c, rest, up⟩ := last
      exact .inr ⟨c, (link c n).mpr up, known, rest⟩
  · rintro (rfl | ⟨c, child, known, chain⟩)
    · exact ⟨node, .refl⟩
    · exact ⟨known, chain.tail ((link c n).mp child)⟩

/-- **The sum rule**: a node, and what lies below each of its children. -/
theorem sum_below {M : Type} [AddCommMonoid M] {n : α} (node : n ∈ nodes)
    (distinct : (children n).Nodup) (f : α → M) :
    ∑ a ∈ below nodes parent n, f a =
      f n + ((children n).map fun c => ∑ a ∈ below nodes parent c, f a).sum := by
  classical
  rw [below_eq link node, Finset.sum_insert, Finset.sum_biUnion]
  · rw [List.sum_toFinset _ distinct]
  · intro c left d right apart
    exact graded.disjoint_below link (by simpa using left) (by simpa using right) apart
  · simp only [Finset.mem_biUnion, List.mem_toFinset, not_exists, not_and]
    exact fun c child => graded.not_mem_below link child

/-- **The induction from the leaves up.** -/
theorem induction {motive : α → Prop} (closed : ∀ n, children n ⊆ nodes)
    (step : ∀ n ∈ nodes, (∀ c ∈ children n, motive c) → motive n) : ∀ n ∈ nodes, motive n := by
  classical
  have run : ∀ (size : Nat) (n : α), n ∈ nodes → (below nodes parent n).card ≤ size →
      motive n := by
    intro size
    induction size with
    | zero =>
      intro n node small
      have here : n ∈ below nodes parent n := mem_below.mpr ⟨node, .refl⟩
      rw [Finset.card_eq_zero.mp (Nat.le_zero.mp small)] at here
      cases here
    | succ size ih =>
      intro n node small
      refine step n node fun c child => ih c (closed n child) ?_
      have smaller : below nodes parent c ⊂ below nodes parent n := by
        refine Finset.ssubset_iff_subset_ne.mpr ⟨fun a under => ?_, fun same => ?_⟩
        · obtain ⟨known, chain⟩ := mem_below.mp under
          exact mem_below.mpr ⟨known, chain.tail ((link c n).mp child)⟩
        · have outside : n ∉ below nodes parent c := graded.not_mem_below link child
          rw [same] at outside
          exact outside (mem_below.mpr ⟨node, .refl⟩)
      have := Finset.card_lt_card smaller
      omega
  exact fun n node => run _ n node (Nat.le_refl _)

end Graded

end Ome.Theory.ParentGraph
