/-
# Ome.Theory.StableSort — sorting keeps the order of a part of the list

Insertion sort by a relation that is total and transitive, but need not tell different
elements apart, keeps elements that it does not tell apart in the order they came in.  So
sorting a list and picking out the elements of a class is picking them out and sorting
those (`filter_insertionSort`); and where the class comes first in the order, the sorted
list is the sorted class followed by the rest (`insertionSort_eq_append`).  A relation
that compares keys is total and transitive (`order_of_key`).
-/
import Mathlib.Data.List.Sort
import Mathlib.Data.Prod.Lex

namespace Ome.Theory

open List

set_option autoImplicit false

section Keys

variable {α β : Type} [LinearOrder β] {r : α → α → Prop} (key : α → β)

/-- Not coming later in an order by one key, and by another within it. -/
theorem not_lexLess_iff {x y : β} {p : Prop} :
    ¬ (if y ≠ x then y < x else p) ↔ x < y ∨ x = y ∧ ¬ p := by
  by_cases same : y = x
  · simp [same]
  · rw [if_pos same, not_lt]
    exact ⟨fun le => .inl (lt_of_le_of_ne le (Ne.symm same)), fun lex => lex.elim le_of_lt
      fun eq => absurd eq.1.symm same⟩

variable (reads : ∀ a b, r a b ↔ key a ≤ key b)
include reads

theorem order_of_key : IsTrans α r ∧ Std.Total r := by
  refine ⟨⟨fun a b c first second => ?_⟩, ⟨fun a b => ?_⟩⟩
  · rw [reads] at first second ⊢
    exact first.trans second
  · rw [reads, reads]
    exact le_total _ _

theorem pairwise_sort_of_key [DecidableRel r] (l : List α) : (l.insertionSort r).Pairwise r := by
  have ⟨_, _⟩ := order_of_key key reads
  exact pairwise_insertionSort r l

end Keys

variable {α : Type} (r : α → α → Prop) [DecidableRel r] (p : α → Bool)

theorem orderedInsert_of_first {a : α} {l : List α} (first : ∀ b ∈ l, r a b) :
    l.orderedInsert r a = a :: l := by
  cases l with
  | nil => rfl
  | cons b rest => exact if_pos (first b mem_cons_self)

theorem filter_orderedInsert [IsTrans α r] {a : α} {l : List α} (sorted : l.Pairwise r) :
    (l.orderedInsert r a).filter p =
      if p a then (l.filter p).orderedInsert r a else l.filter p := by
  induction l with
  | nil => cases h : p a <;> simp [h]
  | cons b rest ih =>
    obtain ⟨first, sorted⟩ := pairwise_cons.mp sorted
    by_cases before : r a b
    · rw [List.orderedInsert, if_pos before]
      cases chosen : p a with
      | false => simp [chosen]
      | true =>
        have all : ∀ c ∈ (b :: rest).filter p, r a c := by
          intro c member
          rcases mem_cons.mp (mem_filter.mp member).1 with rfl | later
          · exact before
          · exact IsTrans.trans a b c before (first c later)
        rw [if_pos rfl, orderedInsert_of_first r all, filter_cons_of_pos chosen]
    · rw [List.orderedInsert, if_neg before]
      cases kept : p b with
      | false => simpa [kept] using ih sorted
      | true =>
        rw [filter_cons_of_pos kept, ih sorted, filter_cons_of_pos kept]
        cases chosen : p a with
        | false => rfl
        | true => simp [List.orderedInsert, before]

/-- **Sorting and picking out a class commute.** -/
theorem filter_insertionSort [IsTrans α r] [Std.Total r] (l : List α) :
    (l.insertionSort r).filter p = (l.filter p).insertionSort r := by
  induction l with
  | nil => rfl
  | cons a rest ih =>
    have sorted := pairwise_insertionSort r rest
    rw [insertionSort_cons, filter_orderedInsert r p sorted, ih]
    cases chosen : p a <;> simp [chosen]

omit [DecidableRel r] in
/-- A sorted list in which the class comes first is the class followed by the rest. -/
theorem eq_filter_append {l : List α} (sorted : l.Pairwise r)
    (first : ∀ a b, p a = false → p b = true → ¬ r a b) :
    l = l.filter p ++ l.filter (fun a => !p a) := by
  induction l with
  | nil => rfl
  | cons a rest ih =>
    obtain ⟨before, sorted⟩ := pairwise_cons.mp sorted
    cases chosen : p a with
    | true =>
      rw [filter_cons_of_pos chosen, filter_cons_of_neg (by simp [chosen]),
        cons_append, ← ih sorted]
    | false =>
      have none : ∀ b ∈ rest, p b = false := by
        intro b member
        by_contra isChosen
        exact first a b chosen (by simpa using isChosen) (before b member)
      have noneChosen : rest.filter p = [] :=
        filter_eq_nil_iff.mpr fun b member => by simp [none b member]
      have allLeft : rest.filter (fun a => !p a) = rest :=
        filter_eq_self.mpr fun b member => by simp [none b member]
      simp [chosen, noneChosen, allLeft]

theorem insertionSort_eq_append [IsTrans α r] [Std.Total r]
    (first : ∀ a b, p a = false → p b = true → ¬ r a b) (l : List α) :
    l.insertionSort r =
      (l.filter p).insertionSort r ++ (l.filter fun a => !p a).insertionSort r := by
  rw [← filter_insertionSort, ← filter_insertionSort]
  exact eq_filter_append r p (pairwise_insertionSort r l) first

end Ome.Theory
