/-
# Ome.Placement.Allocation.Apportion — a floor split by weight

The model of `allocation/apportion.go`: the desired replicas are distributed over
clusters by largest remainder, ties by cluster name, and a target above the
per-cluster limit rejects the whole plan.

`none` is a panic of the loops (`Remainders`).  `apportion_split` says that a
plan without a limit, for weights that can be split by, is their `Split`.
-/
import Ome.Placement.Allocation.Transition
import Ome.Placement.Remainders

namespace Ome.Placement.Allocation

open Ome.Theory

set_option autoImplicit false

inductive ApportionError where
  | negativeDesired
  | negativeLimit
  | unnamedCluster
  | negativeWeight (cluster : String)
  | weightsOverflow
  | targetLimit (cluster : String) (target limit : Int)
  deriving DecidableEq

/-- The loop over the names that checks and sums the weights. -/
def sumWeights (weight : String → Int) : List String → Int → Except ApportionError Int
  | [], total => .ok total
  | name :: rest, total =>
    if name = "" then .error .unnamedCluster
    else if weight name < 0 then .error (.negativeWeight name)
    else if weight name > maxInt64 - total then .error .weightsOverflow
    else sumWeights weight rest (total + weight name)

/-- The first target above the limit, in name order. -/
def overLimit (targets : GoMap String Int) (limit : Int) (names : List String) :
    Option ApportionError :=
  names.findSome? fun name =>
    if limit > 0 && targets.get name > limit then
      some (.targetLimit name (targets.get name) limit)
    else none

def apportion (desired : Int) (weights : GoMap String Int) (maxPerCluster : Int) :
    Option (Except ApportionError Plan) :=
  if desired < 0 then some (.error .negativeDesired)
  else if maxPerCluster < 0 then some (.error .negativeLimit)
  else
    let names := weights.sortedKeys
    match sumWeights weights.get names 0 with
    | .error e => some (.error e)
    | .ok total =>
      let targets := names.foldl (fun targets name => targets.set name 0) .empty
      if total = 0 then some (.ok { targets, unassigned := desired })
      else match splitByRemainder wrap32 desired total weights targets with
        | none => none
        | some targets =>
          match overLimit targets maxPerCluster names with
          | some e => some (.error e)
          | none => some (.ok { targets, unassigned := 0 })

/-! ## Plans without a limit -/

theorem sumWeights_eq {weight : String → Int} (nonneg : ∀ name, 0 ≤ weight name) :
    ∀ (names : List String) (total : Int), "" ∉ names →
      total + (names.map weight).sum ≤ maxInt64 →
      sumWeights weight names total = .ok (total + (names.map weight).sum)
  | [], total, _, _ => by simp [sumWeights]
  | name :: rest, total, named, fits => by
    rw [List.map_cons, List.sum_cons] at fits ⊢
    have here := nonneg name
    have later : 0 ≤ (rest.map weight).sum := GoMap.sum_map_nonneg fun name _ => nonneg name
    have entry : name ≠ "" := fun unnamed => named (unnamed ▸ List.mem_cons_self)
    rw [sumWeights, if_neg entry, if_neg (by omega), if_neg (by omega),
      sumWeights_eq nonneg rest _ (fun member => named (List.mem_cons_of_mem _ member))
        (by omega), add_assoc]

theorem apportion_split {weights : GoMap String Int} (weighted : Weighted weights)
    (named : "" ∉ weights.keys) {desired : Int} (low : 0 ≤ desired) (high : desired < 2 ^ 31) :
    ∃ plan, apportion desired weights 0 = some (.ok plan) ∧ plan.unassigned = 0 ∧
      (∀ name, name ∈ plan.targets.keys ↔ name ∈ weights.keys) ∧
      ∀ name, plan.targets.get name = ((weighted.split desired).share name : Int) := by
  have fits := weighted.fits
  have summed := sumWeights_eq weighted.nonneg weights.sortedKeys 0
    (mt (weights.mem_sortedKeys "").mp named) (by
      rw [← weights.total_eq_sum_sorted, maxInt64]
      omega)
  rw [← weights.total_eq_sum_sorted, zero_add] at summed
  obtain ⟨shares, run, keys, gets⟩ := splitByRemainder_eq (fun _ => wrap32_of_fits) weighted low
    high _ (fun name => (zeros_spec weights name).1) fun name => (zeros_spec weights name).2
  have positive := weighted.pos
  refine ⟨{ targets := shares, unassigned := 0 }, ?_, rfl, keys, gets⟩
  rw [apportion, if_neg (by omega), if_neg (by omega)]
  simp only [summed]
  rw [if_neg (by omega), run]
  simp only [show overLimit shares 0 weights.sortedKeys = none by simp [overLimit]]

end Ome.Placement.Allocation
