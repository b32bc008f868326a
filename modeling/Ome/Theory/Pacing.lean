/-
# Ome.Theory.Pacing — counters held to each other's share of the way

Each member of a family of counters has a mark to reach, and its share is the part
of the way it has come.  A member that is not ahead of any unfinished one by more
than a slack may take a step of at most one unit.

* `Course.InStep.advance`: such steps keep every member within the slack and one
  unit of its own of every unfinished member;
* `Course.exists_least`: as long as somebody is unfinished, some unfinished member
  has the least share, and it is not ahead of anybody.
-/
import Mathlib.Algebra.Order.Field.Basic
import Mathlib.Data.Finset.Max
import Mathlib.Tactic.Linarith

namespace Ome.Theory

set_option autoImplicit false

/-- Members with the marks they move toward, and the lead one may have. -/
structure Course (ι K : Type) [Field K] [LinearOrder K] where
  members : Finset ι
  mark : ι → K
  slack : K
  mark_pos : ∀ i ∈ members, 0 < mark i
  slack_nonneg : 0 ≤ slack

namespace Course

variable {ι K : Type} [Field K] [LinearOrder K] (c : Course ι K) (count : ι → K)

/-- The part of its way that a member has come. -/
def share (i : ι) : K := count i / c.mark i

/-- The member is not ahead of any unfinished one by more than the slack. -/
def NotAhead (i : ι) : Prop :=
  ∀ p ∈ c.members, count p < c.mark p → c.share count i - c.share count p ≤ c.slack

/-- No member leads an unfinished one by more than the slack and one unit of its own. -/
def InStep : Prop :=
  ∀ i ∈ c.members, ∀ p ∈ c.members, count p < c.mark p →
    c.share count i - c.share count p ≤ c.slack + 1 / c.mark i

/-- The unfinished member has the least share of all that are unfinished. -/
structure Least (i : ι) : Prop where
  member : i ∈ c.members
  unfinished : count i < c.mark i
  least : ∀ p ∈ c.members, count p < c.mark p → c.share count i ≤ c.share count p

variable {c count}

/-- **Somebody is always free to go on.** -/
theorem exists_least {i : ι} (member : i ∈ c.members) (unfinished : count i < c.mark i) :
    ∃ p, c.Least count p := by
  obtain ⟨p, isMember, least⟩ := Finset.exists_min_image
    (c.members.filter fun p => count p < c.mark p) (c.share count)
    ⟨i, Finset.mem_filter.mpr ⟨member, unfinished⟩⟩
  obtain ⟨member, unfinished⟩ := Finset.mem_filter.mp isMember
  refine ⟨p, member, unfinished, ?_⟩
  intro q peer behind
  exact least q (Finset.mem_filter.mpr ⟨peer, behind⟩)

variable [IsStrictOrderedRing K]

theorem inStep_of_zero (none : ∀ i ∈ c.members, count i = 0) : c.InStep count := by
  intro i member p peer _
  have unit : 0 ≤ 1 / c.mark i := div_nonneg zero_le_one (c.mark_pos i member).le
  have slack := c.slack_nonneg
  simp only [share, none i member, none p peer, zero_div, sub_zero]
  linarith

/-- **A step of a member that is not ahead keeps the family in step.** -/
theorem InStep.advance {count' : ι → K} {i : ι} (inStep : c.InStep count)
    (held : c.NotAhead count i) (rises : count i ≤ count' i) (adds : count' i ≤ count i + 1)
    (others : ∀ p, p ≠ i → count' p = count p) : c.InStep count' := by
  have same (p : ι) (other : p ≠ i) : c.share count' p = c.share count p := by
    rw [share, share, others p other]
  intro a member p peer unfinished
  have pos := c.mark_pos a member
  by_cases acting : a = i
  · subst acting
    by_cases self : p = a
    · subst self
      have unit : 0 ≤ 1 / c.mark p := div_nonneg zero_le_one pos.le
      have slack := c.slack_nonneg
      linarith
    · -- The lead was within the slack, and the member gained one unit at most.
      rw [others p self] at unfinished
      have before := held p peer unfinished
      have gain : c.share count' a ≤ c.share count a + 1 / c.mark a := by
        rw [share, share, ← add_div]
        exact div_le_div_of_nonneg_right adds pos.le
      rw [same p self]
      linarith
  · rw [same a acting]
    by_cases behind : p = i
    · -- The member that moved is the one behind: it only came closer.
      subst behind
      have before := inStep a member p peer (rises.trans_lt unfinished)
      have closer : c.share count p ≤ c.share count' p :=
        div_le_div_of_nonneg_right rises (c.mark_pos p peer).le
      linarith
    · rw [others p behind] at unfinished
      rw [same p behind]
      exact inStep a member p peer unfinished

theorem Least.notAhead {i : ι} (least : c.Least count i) : c.NotAhead count i := by
  intro p peer unfinished
  have behind := least.least p peer unfinished
  have slack := c.slack_nonneg
  linarith

end Course

end Ome.Theory
