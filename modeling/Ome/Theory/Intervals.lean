/-
# Ome.Theory.Intervals — finite sets of integers as lists of intervals

A list of inclusive intervals is canonical when its intervals are not empty, ascend,
and leave a gap between any two.  `members` lists the integers in it, ascending.

* `Canonical.ext`: one canonical list for each set of integers;
* `Canonical.concat`, `Canonical.extend`: how the list grows at its end;
* `Canonical.subset_iff`: a set is inside another if each of its intervals is inside one;
* `nodup_members_iff`: intervals in the order of their first integers are disjoint if
  neighbours are.
-/
import Mathlib.Data.List.Nodup
import Mathlib.Data.List.Chain
import Mathlib.Algebra.Order.Group.Int

namespace Ome.Theory

open List

set_option autoImplicit false

/-- The integers from `first` to `last`. -/
structure Interval where
  first : Int
  last : Int
  deriving DecidableEq

namespace Interval

variable (i : Interval)

def width : Nat := (i.last - i.first + 1).toNat

def values : List Int := (range i.width).map fun k : Nat => i.first + (k : Int)

variable {i}

@[simp] theorem mem_values {x : Int} : x ∈ i.values ↔ i.first ≤ x ∧ x ≤ i.last := by
  simp only [values, width, mem_map, mem_range]
  constructor
  · rintro ⟨k, small, rfl⟩
    omega
  · rintro ⟨low, high⟩
    exact ⟨(x - i.first).toNat, by omega, by omega⟩

@[simp] theorem length_values : i.values.length = i.width := by simp [values]

theorem pairwise_values : i.values.Pairwise (· < ·) := by
  rw [values, pairwise_map]
  apply pairwise_lt_range.imp
  intro a b less
  omega

end Interval

namespace Intervals

/-- The integers of the intervals, one interval after the other. -/
def members (l : List Interval) : List Int := l.flatMap Interval.values

/-- Intervals that are not empty, ascend and leave gaps. -/
structure Canonical (l : List Interval) : Prop where
  proper : ∀ i ∈ l, i.first ≤ i.last
  apart : l.Pairwise fun a b => a.last + 1 < b.first

variable {l l' : List Interval} {i p : Interval} {x : Int}

@[simp] theorem members_nil : members [] = [] := rfl

@[simp] theorem members_cons : members (i :: l) = i.values ++ members l := rfl

@[simp] theorem members_append : members (l ++ l') = members l ++ members l' :=
  flatMap_append

theorem mem_members : x ∈ members l ↔ ∃ i ∈ l, i.first ≤ x ∧ x ≤ i.last := by
  simp [members]

theorem canonical_nil : Canonical [] := ⟨by simp, Pairwise.nil⟩

theorem canonical_cons :
    Canonical (i :: l) ↔
      i.first ≤ i.last ∧ (∀ j ∈ l, i.last + 1 < j.first) ∧ Canonical l := by
  constructor
  · rintro ⟨proper, apart⟩
    rw [pairwise_cons] at apart
    exact ⟨proper i (by simp), apart.1, fun j member => proper j (by simp [member]), apart.2⟩
  · rintro ⟨proper, gap, rest⟩
    refine ⟨?_, pairwise_cons.mpr ⟨gap, rest.apart⟩⟩
    intro j member
    rcases mem_cons.mp member with rfl | later
    · exact proper
    · exact rest.proper j later

theorem canonical_append_singleton :
    Canonical (l ++ [i]) ↔
      Canonical l ∧ i.first ≤ i.last ∧ ∀ j ∈ l, j.last + 1 < i.first := by
  constructor
  · rintro ⟨proper, apart⟩
    rw [pairwise_append] at apart
    exact ⟨⟨fun j member => proper j (by simp [member]), apart.1⟩, proper i (by simp),
      fun j member => apart.2.2 j member i (by simp)⟩
  · rintro ⟨front, proper, gap⟩
    refine ⟨?_, pairwise_append.mpr ⟨front.apart, pairwise_singleton _ _, ?_⟩⟩
    · intro j member
      rcases mem_append.mp member with earlier | last
      · exact front.proper j earlier
      · rw [mem_singleton.mp last]
        exact proper
    · intro j member k last
      rw [mem_singleton.mp last]
      exact gap j member

/-! ## What a canonical list stands for -/

theorem Canonical.pairwise_members (canonical : Canonical l) : (members l).Pairwise (· < ·) := by
  induction l with
  | nil => exact Pairwise.nil
  | cons i l ih =>
    obtain ⟨_, gap, rest⟩ := canonical_cons.mp canonical
    rw [members_cons, pairwise_append]
    refine ⟨Interval.pairwise_values, ih rest, ?_⟩
    intro x inside y outside
    obtain ⟨j, member, low, _⟩ := mem_members.mp outside
    have := gap j member
    have := (Interval.mem_values.mp inside).2
    omega

theorem Canonical.separate (canonical : Canonical l) {a b : Interval} (first : a ∈ l)
    (second : b ∈ l) : a = b ∨ a.last + 1 < b.first ∨ b.last + 1 < a.first := by
  induction l with
  | nil => cases first
  | cons i l ih =>
    obtain ⟨_, gap, rest⟩ := canonical_cons.mp canonical
    rcases mem_cons.mp first with rfl | laterFirst
    · rcases mem_cons.mp second with rfl | laterSecond
      · exact Or.inl rfl
      · exact Or.inr (Or.inl (gap b laterSecond))
    · rcases mem_cons.mp second with rfl | laterSecond
      · exact Or.inr (Or.inr (gap a laterFirst))
      · exact ih rest laterFirst laterSecond

theorem Canonical.head_values (canonical : Canonical (i :: l)) :
    i.values = i.first :: (i.values.tail) := by
  have proper := (canonical_cons.mp canonical).1
  rw [Interval.values, Interval.width, show (i.last - i.first + 1).toNat =
    (i.last - i.first).toNat + 1 by omega, range_succ_eq_map]
  simp

/-- The first interval of a canonical list ends before the next integer that is not
in the list. -/
theorem Canonical.next_not_mem (canonical : Canonical (i :: l)) :
    i.last + 1 ∉ members (i :: l) := by
  obtain ⟨_, gap, _⟩ := canonical_cons.mp canonical
  intro member
  obtain ⟨j, isMember, low, high⟩ := mem_members.mp member
  rcases mem_cons.mp isMember with rfl | later
  · omega
  · have := gap j later
    omega

/-- **A canonical list is determined by its members.** -/
theorem Canonical.ext (canonical : Canonical l) (canonical' : Canonical l')
    (same : members l = members l') : l = l' := by
  induction l generalizing l' with
  | nil =>
    cases l' with
    | nil => rfl
    | cons j l' =>
      rw [members_cons, canonical'.head_values] at same
      cases same
  | cons i l ih =>
    cases l' with
    | nil =>
      rw [members_cons, canonical.head_values] at same
      cases same
    | cons j l' =>
      have proper := (canonical_cons.mp canonical).1
      have proper' := (canonical_cons.mp canonical').1
      have firsts : i.first = j.first := by
        have heads := same
        rw [members_cons, members_cons, canonical.head_values, canonical'.head_values] at heads
        exact (cons.inj heads).1
      -- Were one interval longer, it would hold the gap behind the other.
      have lasts : i.last = j.last := by
        by_contra differ
        rcases lt_or_gt_of_ne differ with shorter | longer
        · apply canonical.next_not_mem
          rw [same]
          exact mem_members.mpr ⟨j, by simp, by omega, by omega⟩
        · apply canonical'.next_not_mem
          rw [← same]
          exact mem_members.mpr ⟨i, by simp, by omega, by omega⟩
      have heads : i = j := by
        cases i
        cases j
        simp_all
      subst heads
      rw [members_cons, members_cons] at same
      rw [ih (canonical_cons.mp canonical).2.2 (canonical_cons.mp canonical').2.2
        (append_cancel_left same)]

/-! ## Growing at the end -/

theorem Canonical.le_last (canonical : Canonical (l ++ [p])) (member : x ∈ members (l ++ [p])) :
    x ≤ p.last := by
  obtain ⟨_, proper, gap⟩ := canonical_append_singleton.mp canonical
  obtain ⟨j, isMember, _, high⟩ := mem_members.mp member
  rcases mem_append.mp isMember with earlier | last
  · have := gap j earlier
    omega
  · rw [mem_singleton.mp last] at high
    exact high

theorem Canonical.concat (canonical : Canonical (l ++ [p])) (proper : i.first ≤ i.last)
    (gap : p.last + 1 < i.first) : Canonical (l ++ [p] ++ [i]) := by
  refine canonical_append_singleton.mpr ⟨canonical, proper, ?_⟩
  intro j member
  have inside : j.last ∈ members (l ++ [p]) :=
    mem_members.mpr ⟨j, member, canonical.proper j member, le_refl _⟩
  have := canonical.le_last inside
  omega

theorem Canonical.extend (canonical : Canonical (l ++ [p])) :
    Canonical (l ++ [⟨p.first, p.last + 1⟩]) ∧
      members (l ++ [⟨p.first, p.last + 1⟩]) = members (l ++ [p]) ++ [p.last + 1] := by
  obtain ⟨front, proper, gap⟩ := canonical_append_singleton.mp canonical
  constructor
  · exact canonical_append_singleton.mpr ⟨front, by simp only; omega, gap⟩
  · have width : (⟨p.first, p.last + 1⟩ : Interval).width = p.width + 1 := by
      simp only [Interval.width]
      omega
    have next : p.first + (p.width : Int) = p.last + 1 := by
      simp only [Interval.width]
      omega
    simp [Interval.values, width, range_succ, next]

/-! ## Subsets and disjoint sets -/

/-- **A set is inside a canonical one if each of its intervals is inside one.** -/
theorem Canonical.subset_iff (canonical : Canonical l') (proper : ∀ i ∈ l, i.first ≤ i.last) :
    (∀ x ∈ members l, x ∈ members l') ↔
      ∀ i ∈ l, ∃ o ∈ l', o.first ≤ i.first ∧ i.last ≤ o.last := by
  constructor
  · intro subset i member
    have nonempty := proper i member
    obtain ⟨o, isOuter, low, high⟩ :=
      mem_members.mp (subset i.first (mem_members.mpr ⟨i, member, le_refl _, nonempty⟩))
    refine ⟨o, isOuter, low, ?_⟩
    by_contra longer
    -- The integer behind `o` is in the set, hence in another interval without a gap.
    obtain ⟨o', isOuter', low', high'⟩ :=
      mem_members.mp (subset (o.last + 1) (mem_members.mpr ⟨i, member, by omega, by omega⟩))
    rcases canonical.separate isOuter isOuter' with rfl | before | behind
    · omega
    · omega
    · omega
  · intro inside x member
    obtain ⟨i, isMember, low, high⟩ := mem_members.mp member
    obtain ⟨o, isOuter, outerLow, outerHigh⟩ := inside i isMember
    exact mem_members.mpr ⟨o, isOuter, by omega, by omega⟩

/-- **Intervals in the order of their first integers are disjoint if neighbours are.** -/
theorem nodup_members_iff (proper : ∀ i ∈ l, i.first ≤ i.last)
    (sorted : l.Pairwise fun a b => a.first ≤ b.first) :
    (members l).Nodup ↔ l.IsChain fun a b => a.last < b.first := by
  constructor
  · intro nodup
    apply Pairwise.isChain
    induction l with
    | nil => exact Pairwise.nil
    | cons i l ih =>
      rw [pairwise_cons] at sorted
      rw [members_cons, nodup_append] at nodup
      refine pairwise_cons.mpr ⟨?_, ih (fun j member => proper j (by simp [member]))
        sorted.2 nodup.2.1⟩
      intro j member
      by_contra overlap
      have first : j.first ∈ i.values :=
        Interval.mem_values.mpr ⟨sorted.1 j member, by omega⟩
      have second : j.first ∈ members l :=
        mem_members.mpr ⟨j, member, le_refl _, proper j (by simp [member])⟩
      exact nodup.2.2 _ first _ second rfl
  · intro chain
    induction l with
    | nil => exact nodup_nil
    | cons i l ih =>
      have rest := ih (fun j member => proper j (by simp [member])) sorted.of_cons chain.tail
      rw [members_cons, nodup_append]
      refine ⟨Interval.pairwise_values.imp fun less => less.ne, rest, ?_⟩
      intro x inside y outside same
      obtain ⟨j, member, low, _⟩ := mem_members.mp outside
      obtain ⟨_, high⟩ := Interval.mem_values.mp inside
      cases l with
      | nil => cases member
      | cons n l =>
        have gap := (isChain_cons_cons.mp chain).1
        have order : n.first ≤ j.first := by
          rcases mem_cons.mp member with rfl | later
          · exact le_refl _
          · exact (pairwise_cons.mp sorted.of_cons).1 j later
        omega

end Intervals

end Ome.Theory
