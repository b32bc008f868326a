/-
# Ome.Theory.Rank — order statistics of a list

`nthSmallest l i` is the member at index `i` of `l` in ascending order.  At least
`i + 1` members are no larger and at least `l.length - i` no smaller
(`lt_countP_le`, `le_countP_ge`).  So a part of the list that leaves out few enough
members has one on either side of it, whatever the members left out are.
-/
import Mathlib.Data.List.Sort

namespace Ome.Theory

open List

set_option autoImplicit false

variable {α : Type} [LinearOrder α]

theorem pairwise_lt_insertionSort {l : List α} (nodup : l.Nodup) :
    (l.insertionSort (· ≤ ·)).Pairwise (· < ·) := by
  have sorted := pairwise_insertionSort (· ≤ ·) l
  have distinct := (perm_insertionSort (· ≤ ·) l).nodup_iff.mpr nodup
  exact sorted.imp₂ (fun a b below apart => lt_of_le_of_ne below apart) distinct

def nthSmallest (l : List α) (i : Nat) : Option α := (l.insertionSort (· ≤ ·))[i]?

theorem nthSmallest_some {l : List α} {i : Nat} (inside : i < l.length) :
    ∃ v, nthSmallest l i = some v := by
  have inside : i < (l.insertionSort (· ≤ ·)).length := by rwa [length_insertionSort]
  exact ⟨_, List.getElem?_eq_getElem inside⟩

section Bounds

variable {l : List α} {i : Nat} {v : α} (rank : nthSmallest l i = some v)

include rank

theorem lt_countP_le : i < l.countP (· ≤ v) := by
  obtain ⟨inside, rfl⟩ := List.getElem?_eq_some_iff.mp rank
  have sorted := pairwise_insertionSort (· ≤ ·) l
  rw [← (perm_insertionSort (· ≤ ·) l).countP_eq]
  generalize l.insertionSort (· ≤ ·) = s at inside sorted
  have below : ∀ x ∈ s.take (i + 1), decide (x ≤ s[i]) = true := by
    intro x member
    obtain ⟨j, low, rfl⟩ := mem_take_iff_getElem.mp member
    have order : j ≤ i := by omega
    rcases order.lt_or_eq with less | rfl
    · exact decide_eq_true (pairwise_iff_getElem.mp sorted j i (by omega) inside less)
    · exact decide_eq_true (le_refl _)
  have all := countP_eq_length.mpr below
  rw [length_take] at all
  have part := (take_sublist (i + 1) s).countP_le (p := fun x => decide (x ≤ s[i]))
  omega

theorem le_countP_ge : l.length - i ≤ l.countP (v ≤ ·) := by
  obtain ⟨inside, rfl⟩ := List.getElem?_eq_some_iff.mp rank
  have sorted := pairwise_insertionSort (· ≤ ·) l
  rw [← (perm_insertionSort (· ≤ ·) l).countP_eq, ← length_insertionSort (· ≤ ·) l]
  generalize l.insertionSort (· ≤ ·) = s at inside sorted
  have above : ∀ x ∈ s.drop i, decide (s[i] ≤ x) = true := by
    intro x member
    obtain ⟨j, low, rfl⟩ := mem_drop_iff_getElem.mp member
    rcases Nat.eq_zero_or_pos j with rfl | later
    · exact decide_eq_true (le_refl _)
    · exact decide_eq_true
        (pairwise_iff_getElem.mp sorted i (i + j) inside (by omega) (by omega))
  have all := countP_eq_length.mpr above
  rw [length_drop] at all
  have part := (drop_sublist i s).countP_le (p := fun x => decide (s[i] ≤ x))
  omega

omit rank

variable {kept rest : List α} (split : (kept ++ rest).Perm l)

include split

omit [LinearOrder α] in
theorem exists_of_countP {p : α → Bool} (many : rest.length < l.countP p) :
    ∃ r ∈ kept, p r = true := by
  rw [← split.countP_eq, countP_append] at many
  have bound : rest.countP p ≤ rest.length := countP_le_length
  exact countP_pos_iff.mp (by omega)

include rank

/-- A part that leaves out at most as many members as the index has one no larger. -/
theorem exists_le_nthSmallest (few : rest.length ≤ i) : ∃ r ∈ kept, r ≤ v := by
  simpa using exists_of_countP split (few.trans_lt (lt_countP_le rank))

theorem exists_ge_nthSmallest (few : rest.length < l.length - i) : ∃ r ∈ kept, v ≤ r := by
  simpa using exists_of_countP split (few.trans_le (le_countP_ge rank))

end Bounds

end Ome.Theory
