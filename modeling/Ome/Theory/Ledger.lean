/-
# Ome.Theory.Ledger — an index kept in step with the entries it sums up

A store of entries is often read through an index: for each position, the sum of what
the entries weigh there.  The index is not summed again on every change; the change is
booked as a difference, and a position that falls to zero is dropped.

* `weigh` is the sum over the entries of a map, and says how assignment and deletion
  change it;
* `bump` books a difference at one position, down to zero and no further;
* `Balanced` says that an index is the sum over the entries.  With weights that are not
  negative, an entry never weighs more than the index holds (`Balanced.weight_le`), so
  the floor of `bump` cuts nothing off; and where the index is zero no entry weighs
  anything (`Balanced.weightless`).
-/
import Ome.Theory.GoMap

namespace Ome.Theory

open Finset

set_option autoImplicit false

namespace GoMap

variable {K V X : Type} [DecidableEq K] [Inhabited V] [DecidableEq X]

/-! ## What the entries weigh -/

variable (f : V → Int)

variable (m : GoMap K V)

/-- The sum over the entries. -/
def weigh : Int := (m.keys.map fun k => f (m.get k)).sum

/-- What one entry weighs, if it is there. -/
def held (k : K) : Int := if k ∈ m.keys then f (m.get k) else 0

/-- The sum, read off a set of keys that misses none of the map. -/
theorem weigh_eq_sum_held (names : Finset K) (covers : ∀ k ∈ m.keys, k ∈ names) :
    m.weigh f = ∑ k ∈ names, m.held f k := by
  have inside : ∑ k ∈ m.keys.toFinset, m.held f k = ∑ k ∈ names, m.held f k := by
    apply sum_subset
    · intro k member
      exact covers k (List.mem_toFinset.mp member)
    · intro k _ absent
      exact if_neg fun member => absent (List.mem_toFinset.mpr member)
  have reads : m.keys.map (fun k => f (m.get k)) = m.keys.map (m.held f) :=
    List.map_congr_left fun k member => (if_pos member).symm
  rw [weigh, reads, ← inside, List.sum_toFinset _ m.nodup]

theorem held_nonneg {f : V → Int} (nonneg : ∀ v, 0 ≤ f v) (m : GoMap K V) (k : K) :
    0 ≤ m.held f k := by
  unfold held
  split
  · exact nonneg _
  · exact le_refl 0

/-- No entry weighs more than the sum. -/
theorem held_le_weigh {f : V → Int} (nonneg : ∀ v, 0 ≤ f v) (m : GoMap K V) (k : K) :
    m.held f k ≤ m.weigh f := by
  rw [m.weigh_eq_sum_held f (insert k m.keys.toFinset) (by simp; tauto)]
  exact single_le_sum (fun j _ => m.held_nonneg nonneg j) (mem_insert_self k _)

theorem weigh_of_update {m m' : GoMap K V} {k : K} (same : ∀ j, j ≠ k → m'.held f j = m.held f j) :
    m'.weigh f = m.weigh f - m.held f k + m'.held f k := by
  let names := insert k (m.keys.toFinset ∪ m'.keys.toFinset)
  have here : k ∈ names := mem_insert_self k _
  have before : m.weigh f = ∑ j ∈ names, m.held f j :=
    m.weigh_eq_sum_held f names (by simp [names]; tauto)
  have after : m'.weigh f = ∑ j ∈ names, m'.held f j :=
    m'.weigh_eq_sum_held f names (by simp [names]; tauto)
  have rest : ∑ j ∈ names.erase k, m'.held f j = ∑ j ∈ names.erase k, m.held f j :=
    sum_congr rfl fun j member => same j (ne_of_mem_erase member)
  rw [← add_sum_erase _ _ here] at before after
  omega

theorem weigh_set (k : K) (v : V) : (m.set k v).weigh f = m.weigh f - m.held f k + f v := by
  rw [weigh_of_update f (m := m) (k := k)]
  · simp [held]
  · intro j other
    simp [held, other, get_set_ne m v other]

theorem weigh_erase (k : K) : (m.erase k).weigh f = m.weigh f - m.held f k := by
  rw [weigh_of_update f (m := m) (k := k)]
  · simp [held]
  · intro j other
    simp [held, other, get_erase]

omit [DecidableEq K] in
/-- Where each entry weighs one or nothing, the sum counts. -/
theorem weigh_indicator (holds : V → Prop) [DecidablePred holds] (m : GoMap K V) :
    m.weigh (fun v => if holds v then 1 else 0) =
      (m.keys.filter fun k => holds (m.get k)).length := by
  unfold weigh
  induction m.keys with
  | nil => rfl
  | cons k rest ih =>
    rw [List.map_cons, List.sum_cons, ih]
    by_cases here : holds (m.get k)
    · simp [here, add_comm]
    · simp [here]

/-! ## Booking a difference -/

/-- Book a difference; a position that falls to zero is dropped. -/
def bump (index : GoMap X Int) (x : X) (delta : Int) : GoMap X Int :=
  let next := index.set x (index.get x + delta)
  if next.get x ≤ 0 then next.erase x else next

theorem get_bump (index : GoMap X Int) (x y : X) (delta : Int) :
    (index.bump x delta).get y =
      if y = x then max 0 (index.get x + delta) else index.get y := by
  have zero : (default : Int) = 0 := rfl
  unfold bump
  by_cases same : y = x
  · subst same
    simp only [get_set_self, if_true]
    by_cases falls : index.get y + delta ≤ 0
    · rw [if_pos falls, get_erase, if_pos rfl, max_eq_left falls, zero]
    · rw [if_neg falls, get_set_self, max_eq_right (not_le.mp falls).le]
  · simp only [get_set_self, if_neg same]
    split
    · rw [get_erase, if_neg same, get_set_ne _ _ same]
    · rw [get_set_ne _ _ same]

end GoMap

/-! ## An index in balance -/

open GoMap

variable {K V X : Type} [DecidableEq K] [Inhabited V]

/-- The index holds, at each position, the sum of what the entries weigh there. -/
def Balanced (weight : X → V → Int) (entries : GoMap K V) (index : GoMap X Int) : Prop :=
  ∀ x, index.get x = entries.weigh (weight x)

namespace Balanced

variable {weight : X → V → Int} {entries : GoMap K V} {index : GoMap X Int}
  (nonneg : ∀ x v, 0 ≤ weight x v) (balanced : Balanced weight entries index)

include nonneg balanced

omit [DecidableEq K] in
theorem index_nonneg (x : X) : 0 ≤ index.get x := by
  rw [balanced x]
  exact sum_map_nonneg fun k _ => nonneg x (entries.get k)

theorem weight_le {k : K} (member : k ∈ entries.keys) (x : X) :
    weight x (entries.get k) ≤ index.get x := by
  have bound := held_le_weigh (nonneg x) entries k
  rw [held, if_pos member] at bound
  rw [balanced x]
  exact bound

theorem weightless {x : X} (empty : index.get x ≤ 0) {k : K} (member : k ∈ entries.keys) :
    weight x (entries.get k) = 0 :=
  le_antisymm ((balanced.weight_le nonneg member x).trans empty) (nonneg x _)

end Balanced

end Ome.Theory
