/-
# Ome.Theory.FirstFit — blocks into the first target that has room

Blocks are taken in order; each goes to the first target, in the order of the targets, with
as much free as the block is large, and uses it up there.

* `choose` is the walk: the target of each block, or nothing if some block finds none;
* `load` is what goes to a target;
* `load_le`: no target that is used gets more than it had free.
-/
import Mathlib.Algebra.Order.BigOperators.Group.List
import Mathlib.Algebra.Order.Ring.Int
import Mathlib.Data.List.Find

namespace Ome.Theory.FirstFit

open Function List

set_option autoImplicit false

variable {N : Type} [DecidableEq N]

def choose (targets : List N) : (N → Int) → List Int → Option (List N)
  | _, [] => some []
  | free, size :: rest =>
    match targets.find? (fun n => decide (size ≤ free n)) with
    | none => none
    | some n => (choose targets (Function.update free n (free n - size)) rest).map (n :: ·)

/-- What the blocks that go to a target sum up to. -/
def load : List Int → List N → N → Int
  | size :: sizes, m :: chosen, n => (if m = n then size else 0) + load sizes chosen n
  | _, _, _ => 0

variable {targets : List N}

/-- One block, and then the others with less free. -/
theorem choose_cons {free : N → Int} {size : Int} {rest : List Int} {chosen : List N} :
    choose targets free (size :: rest) = some chosen ↔
      ∃ n others, targets.find? (fun n => decide (size ≤ free n)) = some n ∧
        choose targets (update free n (free n - size)) rest = some others ∧
        chosen = n :: others := by
  rw [choose]
  cases found : targets.find? (fun n => decide (size ≤ free n)) with
  | none => simp
  | some n =>
    simp only [Option.map_eq_some_iff, Option.some.injEq]
    constructor
    · rintro ⟨others, walk, rfl⟩
      exact ⟨n, others, rfl, walk, rfl⟩
    · rintro ⟨_, others, rfl, walk, rfl⟩
      exact ⟨others, walk, rfl⟩

theorem choose_congr : ∀ {sizes : List Int} {free free' : N → Int},
    (∀ n ∈ targets, free n = free' n) → choose targets free sizes = choose targets free' sizes := by
  intro sizes
  induction sizes with
  | nil => intro free free' _; rfl
  | cons size rest ih =>
    intro free free' same
    have finds : targets.find? (fun n => decide (size ≤ free n)) =
        targets.find? (fun n => decide (size ≤ free' n)) :=
      find?_congr fun n member => by rw [same n member]
    rw [choose, choose, finds]
    cases found : targets.find? (fun n => decide (size ≤ free' n)) with
    | none => rfl
    | some m =>
      have later := @ih (update free m (free m - size))
        (update free' m (free' m - size)) fun n member => by
          by_cases here : n = m
          · subst here
            rw [update_self, update_self, same n member]
          · rw [update_of_ne here, update_of_ne here, same n member]
      show (choose targets _ rest).map _ = (choose targets _ rest).map _
      rw [later]

theorem length_choose : ∀ {sizes : List Int} {free : N → Int} {chosen : List N},
    choose targets free sizes = some chosen → chosen.length = sizes.length
  | [], _, _, rfl => rfl
  | _ :: _, _, _, walk => by
    obtain ⟨n, others, _, later, rfl⟩ := choose_cons.mp walk
    simp [length_choose later]

theorem mem_targets : ∀ {sizes : List Int} {free : N → Int} {chosen : List N},
    choose targets free sizes = some chosen → ∀ n ∈ chosen, n ∈ targets
  | [], _, _, rfl, n, member => absurd member not_mem_nil
  | _ :: _, _, _, walk, n, member => by
    obtain ⟨m, others, found, later, rfl⟩ := choose_cons.mp walk
    rcases mem_cons.mp member with rfl | member
    · exact mem_of_find?_eq_some found
    · exact mem_targets later n member

theorem load_eq_zero : ∀ (sizes : List Int) (chosen : List N) {n : N}, n ∉ chosen →
    load sizes chosen n = 0 := by
  intro sizes
  induction sizes with
  | nil => intro chosen n _; rfl
  | cons size rest ih =>
    intro chosen n absent
    cases chosen with
    | nil => rfl
    | cons m others =>
      rw [mem_cons, not_or] at absent
      show (if m = n then size else 0) + load rest others n = 0
      rw [if_neg fun same => absent.1 same.symm, ih others absent.2]
      rfl

/-- The load of a target, read off the pairs of items and their targets. -/
theorem load_map {α : Type} (size : α → Int) : ∀ (items : List α) (chosen : List N) (n : N),
    load (items.map size) chosen n =
      (((items.zip chosen).filter (·.2 = n)).map fun pair => size pair.1).sum := by
  intro items
  induction items with
  | nil => intro chosen n; rfl
  | cons a rest ih =>
    intro chosen n
    cases chosen with
    | nil => rfl
    | cons m others =>
      show (if m = n then size a else 0) + load (rest.map size) others n = _
      rw [ih others n, zip_cons_cons]
      by_cases same : m = n <;> simp [same]

/-- **No target gets more than it had free.** -/
theorem load_le : ∀ {sizes : List Int} {free : N → Int} {chosen : List N},
    choose targets free sizes = some chosen → ∀ n ∈ chosen, load sizes chosen n ≤ free n
  | [], _, _, rfl, n, member => absurd member not_mem_nil
  | size :: rest, free, _, walk, n, member => by
    obtain ⟨m, others, found, later, rfl⟩ := choose_cons.mp walk
    have enough : size ≤ free m := by simpa using find?_some found
    show (if m = n then size else 0) + load rest others n ≤ free n
    by_cases same : m = n
    · subst same
      rw [if_pos rfl]
      by_cases again : m ∈ others
      · have left := load_le later m again
        rw [update_self] at left
        omega
      · rw [load_eq_zero rest others again]
        omega
    · rw [if_neg same]
      have isLater := (mem_cons.mp member).resolve_left fun isFirst => same isFirst.symm
      have left := load_le later n isLater
      rw [update_of_ne fun isHere => same isHere.symm] at left
      omega

end Ome.Theory.FirstFit
