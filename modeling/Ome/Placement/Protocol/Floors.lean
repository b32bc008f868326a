/-
# Ome.Placement.Protocol.Floors — the floors of a Split source

The model of the apportionment in `placement/protocol/floors.go`.  A source
declares a minimum for its primary component, whose replicas are the placement
unit, and minimums for its secondary components.  `apportionReplicaFloors` spreads
every secondary minimum over the homes in proportion to their primary targets:
the total follows the targets in the ratio of the minimums, rounded up
(`ratioTotal`), largest remainders split it (`largestRemainder`), and every home
with a positive target is lifted to at least one replica (`liftZeroShares`).

`none` is a panic of the loops (`Remainders`).

* `ratioTotal_eq`: what the 128-bit arithmetic computes;
* `largestRemainder_split`: the split of a positive total;
* `apportionReplicaFloors_ok`: when floors exist for every secondary component.
-/
import Ome.Component
import Ome.Placement.Remainders

namespace Ome.Placement.Protocol

open Ome.Theory List

set_option autoImplicit false

def maxInt32 : Int := 2 ^ 31 - 1

/-! ## The model -/

inductive RatioError where
  | exceedsInt64
  | exceedsInt32
  deriving DecidableEq

/-- A minimum scaled from the fleet's primary minimum to the targeted primaries,
rounded up. -/
def ratioTotal (targets minimum primaryMinimum : Int) : Except RatioError Int :=
  if targets = primaryMinimum ∨ minimum = 0 then .ok minimum
  else
    let product := mul64 (uint64 targets) (uint64 minimum)
    -- The high word is compared with the divisor before the division, which is
    -- the case in which the division has no result.
    match div64 product.1 product.2 (uint64 primaryMinimum) with
    | none => .error .exceedsInt64
    | some (quotient, rest) =>
      let quotient := if 0 < rest then (quotient + 1) % 2 ^ 64 else quotient
      if maxInt32 < quotient then .error .exceedsInt32 else .ok (wrap32 quotient)

def largestRemainder (total : Int) (weights : GoMap String Int) : Option (GoMap String Int) :=
  let names := weights.sortedKeys
  let shares := names.foldl (fun shares name => shares.set name 0) .empty
  let sum := names.foldl (fun sum name => wrap64 (sum + weights.get name)) 0
  if sum = 0 ∨ total = 0 then some shares
  else splitByRemainder wrap32 total sum weights shares

/-- The name of the largest share above one, the first in name order; empty when
there is none. -/
def largestShare (shares : GoMap String Int) (names : List String) : String :=
  names.foldl (fun largest candidate =>
    if 1 < shares.get candidate ∧ (largest = "" ∨ shares.get largest < shares.get candidate)
    then candidate else largest) ""

/-- The loop of `liftZeroShares` over the remaining names. -/
def liftNames (weights : GoMap String Int) (names : List String) :
    List String → GoMap String Int → GoMap String Int
  | [], shares => shares
  | name :: rest, shares =>
    if weights.get name ≤ 0 ∨ 0 < shares.get name then liftNames weights names rest shares
    else
      let largest := largestShare shares names
      if largest = "" then shares
      else
        let lowered := shares.set largest (shares.get largest - 1)
        liftNames weights names rest (lowered.set name (lowered.get name + 1))

/-- At least one replica for every home of positive weight, taken one by one from
the largest share. -/
def liftZeroShares (shares weights : GoMap String Int) : GoMap String Int :=
  liftNames weights shares.sortedKeys shares.sortedKeys shares

structure ComponentFloor where
  component : Component
  replicas : Int
  deriving DecidableEq

inductive FloorError where
  | primaryComponent
  | primaryMinimum (primary : Component)
  | unnamedHome
  | negativeTarget (primary : Component)
  | primaryApportioned (primary : Component)
  | unknownComponent (component : Component)
  | negativeMinimum (component : Component)
  | total (component : Component) (cause : RatioError)
  | tooFewReplicas (component : Component) (total : Int) (homes : Nat) (primary : Component)
  deriving DecidableEq

/-- The loop over the homes that checks their names and targets. -/
def checkHomes (primary : Component) (targets : GoMap String Int) :
    List String → Option FloorError
  | [] => none
  | name :: rest =>
    if name = "" then some .unnamedHome
    else if targets.get name < 0 then some (.negativeTarget primary)
    else checkHomes primary targets rest

/-- The homes with a positive target. -/
def positiveHomes (targets : GoMap String Int) : Nat :=
  (targets.sortedKeys.filter fun name => 0 < targets.get name).length

/-- The shares of one secondary component. -/
def secondaryShares (primary : Component) (primaryMinimum : Int) (targets : GoMap String Int)
    (component : Component) (minimum : Int) : Option (Except FloorError (GoMap String Int)) :=
  if component = primary then some (.error (.primaryApportioned primary))
  else if component ≠ .engine ∧ component ≠ .decoder ∧ component ≠ .router then
    some (.error (.unknownComponent component))
  else if minimum < 0 then some (.error (.negativeMinimum component))
  else match ratioTotal targets.total minimum primaryMinimum with
    | .error cause => some (.error (.total component cause))
    | .ok total =>
      if 0 < total ∧ total < positiveHomes targets then
        some (.error (.tooFewReplicas component total (positiveHomes targets) primary))
      else match largestRemainder total targets with
        | none => none
        | some shares => some (.ok (if 0 < total then liftZeroShares shares targets else shares))

/-- One more component on every home. -/
def appendFloors (component : Component) (shares : GoMap String Int) (names : List String)
    (out : GoMap String (List ComponentFloor)) : GoMap String (List ComponentFloor) :=
  names.foldl (fun out name => out.set name (out.get name ++ [⟨component, shares.get name⟩])) out

/-- The loop over the secondary components. -/
def apportionSecondaries (primary : Component) (primaryMinimum : Int) (targets : GoMap String Int)
    (minimum : Component → Int) : List Component → GoMap String (List ComponentFloor) →
    Option (Except FloorError (GoMap String (List ComponentFloor)))
  | [], out => some (.ok out)
  | component :: rest, out =>
    match secondaryShares primary primaryMinimum targets component (minimum component) with
    | none => none
    | some (.error e) => some (.error e)
    | some (.ok shares) => apportionSecondaries primary primaryMinimum targets minimum rest
        (appendFloors component shares targets.sortedKeys out)

/-- The floors of every home: its target of the primary component, and a share of
every secondary minimum. -/
def apportionReplicaFloors (primary : Component) (primaryMinimum : Int)
    (targets : GoMap String Int) (minimums : GoMap Component Int) :
    Option (Except FloorError (GoMap String (List ComponentFloor))) :=
  if primary ≠ .engine ∧ primary ≠ .decoder then some (.error .primaryComponent)
  else if primaryMinimum ≤ 0 then some (.error (.primaryMinimum primary))
  else
    let names := targets.sortedKeys
    match checkHomes primary targets names with
    | some e => some (.error e)
    | none =>
      let out := names.foldl (fun out name =>
        out.set name [(⟨primary, targets.get name⟩ : ComponentFloor)]) GoMap.empty
      match apportionSecondaries primary primaryMinimum targets minimums.get
          minimums.sortedKeys out with
      | some (.ok out) => some (.ok (names.foldl (fun sorted name => sorted.set name
          ((out.get name).insertionSort fun a b => a.component ≤ b.component)) GoMap.empty))
      | other => other

/-! ## The scaled total -/

/-- `targets * minimum / primaryMinimum`, rounded up. -/
def scaledMinimum (targets minimum primaryMinimum : Int) : Int :=
  (targets * minimum + primaryMinimum - 1) / primaryMinimum

theorem le_scaledMinimum {targets minimum primaryMinimum : Int} (positive : 0 < primaryMinimum)
    {n : Int} :
    n ≤ scaledMinimum targets minimum primaryMinimum ↔
      (n - 1) * primaryMinimum < targets * minimum := by
  rw [scaledMinimum, Int.le_ediv_iff_mul_le positive, sub_mul, one_mul]
  omega

theorem scaledMinimum_le {targets minimum primaryMinimum : Int} (positive : 0 < primaryMinimum)
    {n : Int} :
    scaledMinimum targets minimum primaryMinimum ≤ n ↔
      targets * minimum ≤ n * primaryMinimum := by
  rw [← Int.lt_add_one_iff, ← not_le, le_scaledMinimum positive, not_lt, add_sub_cancel_right]

theorem scaledMinimum_eq_div (targets minimum : Nat) {primaryMinimum : Nat}
    (positive : 0 < primaryMinimum) :
    scaledMinimum targets minimum primaryMinimum =
      ((targets * minimum / primaryMinimum : Nat) : Int) +
        if 0 < targets * minimum % primaryMinimum then 1 else 0 := by
  have wide : (0 : Int) < primaryMinimum := by omega
  have small := Nat.mod_lt (targets * minimum) positive
  have parts : (primaryMinimum : Int) * ((targets * minimum / primaryMinimum : Nat) : Int) +
      ((targets * minimum % primaryMinimum : Nat) : Int) = targets * minimum := by
    exact_mod_cast Nat.div_add_mod (targets * minimum) primaryMinimum
  generalize targets * minimum / primaryMinimum = quotient at parts ⊢
  generalize targets * minimum % primaryMinimum = rest at parts small ⊢
  apply le_antisymm
  · rw [scaledMinimum_le wide, ← parts, add_mul, mul_comm]
    split <;> omega
  · rw [le_scaledMinimum wide, ← parts, sub_mul, add_mul, mul_comm]
    split <;> omega

/-- The 128-bit arithmetic rounds up, when the result is an `int32`. -/
theorem ratioTotal_eq {targets minimum primaryMinimum : Int} (targets_nonneg : 0 ≤ targets)
    (targets_fits : targets < 2 ^ 63) (minimum_nonneg : 0 ≤ minimum)
    (minimum_fits : minimum ≤ maxInt32) (positive : 0 < primaryMinimum)
    (primary_fits : primaryMinimum ≤ maxInt32)
    (fits : scaledMinimum targets minimum primaryMinimum ≤ maxInt32) :
    ratioTotal targets minimum primaryMinimum =
      .ok (scaledMinimum targets minimum primaryMinimum) := by
  by_cases direct : targets = primaryMinimum ∨ minimum = 0
  -- the shortcuts return the minimum itself
  · have same : scaledMinimum targets minimum primaryMinimum = minimum := by
      apply le_antisymm
      · rw [scaledMinimum_le positive]
        rcases direct with rfl | rfl
        · rw [mul_comm]
        · simp
      · rw [le_scaledMinimum positive]
        rcases direct with rfl | rfl
        · rw [mul_comm targets]
          exact mul_lt_mul_of_pos_right (sub_one_lt minimum) positive
        · simpa using positive
    rw [ratioTotal, if_pos direct, same]
  · obtain ⟨t, rfl⟩ := Int.eq_ofNat_of_zero_le targets_nonneg
    obtain ⟨m, rfl⟩ := Int.eq_ofNat_of_zero_le minimum_nonneg
    obtain ⟨p, rfl⟩ := Int.eq_ofNat_of_zero_le positive.le
    rw [maxInt32] at minimum_fits primary_fits
    have divisor : 0 < p := by omega
    have rounded := scaledMinimum_eq_div t m divisor
    -- the quotient fits a word, so the 128-bit division does not panic
    have word : t * m < p * 2 ^ 64 := by
      have bounded := (scaledMinimum_le positive).mp fits
      have bounded : t * m ≤ (2 ^ 31 - 1) * p := by
        have : ((2 ^ 31 - 1 : Nat) : Int) = maxInt32 := by rfl
        rw [← this] at bounded
        exact_mod_cast bounded
      calc t * m ≤ (2 ^ 31 - 1) * p := bounded
        _ < 2 ^ 64 * p := Nat.mul_lt_mul_of_pos_right (by omega) divisor
        _ = p * 2 ^ 64 := Nat.mul_comm _ _
    have counted : (if 0 < t * m % p then (t * m / p + 1) % 2 ^ 64 else t * m / p : Nat) =
        scaledMinimum t m p := by
      rw [rounded] at fits ⊢
      rw [maxInt32] at fits
      split
      · rename_i inexact
        rw [if_pos inexact] at fits
        rw [Nat.mod_eq_of_lt (by omega)]
        push_cast
        rfl
      · simp
    rw [ratioTotal, if_neg direct]
    simp only [uint64_of_fits targets_nonneg (by omega), uint64_of_fits minimum_nonneg (by omega),
      uint64_of_fits positive.le (by omega), Int.toNat_natCast, div64_mul64 word, counted]
    rw [if_neg (not_lt.mpr fits)]
    rw [maxInt32] at fits
    rw [wrap32_of_fits (by omega) (by omega)]

/-! ## The split of a total -/

theorem foldl_wrap64_sum {weight : String → Int} (nonneg : ∀ name, 0 ≤ weight name) :
    ∀ (names : List String) (start : Int), 0 ≤ start →
      start + (names.map weight).sum < 2 ^ 63 →
      names.foldl (fun sum name => wrap64 (sum + weight name)) start =
        start + (names.map weight).sum
  | [], start, _, _ => by simp
  | name :: rest, start, low, fits => by
    rw [map_cons, sum_cons] at fits ⊢
    have here := nonneg name
    have later : 0 ≤ (rest.map weight).sum := GoMap.sum_map_nonneg fun name _ => nonneg name
    rw [foldl_cons, wrap64_of_fits (by omega) (by omega),
      foldl_wrap64_sum nonneg rest _ (by omega) (by omega), add_assoc]

section Remainder

variable {weights : GoMap String Int} {total : Int}

theorem sum_eq_total (nonneg : ∀ name, 0 ≤ weights.get name) (fits : weights.total < 2 ^ 63) :
    weights.sortedKeys.foldl (fun sum name => wrap64 (sum + weights.get name)) 0 =
      weights.total := by
  rw [weights.total_eq_sum_sorted] at fits ⊢
  rw [foldl_wrap64_sum nonneg _ 0 le_rfl (by omega), zero_add]

theorem largestRemainder_split (weighted : Weighted weights) (low : 0 ≤ total)
    (high : total < 2 ^ 31) :
    ∃ shares, largestRemainder total weights = some shares ∧
      (∀ name, name ∈ shares.keys ↔ name ∈ weights.keys) ∧
      ∀ name, shares.get name = ((weighted.split total).share name : Int) := by
  have zeros := zeros_spec weights
  rw [largestRemainder]
  simp only [sum_eq_total weighted.nonneg weighted.fits]
  by_cases nothing : total = 0
  · refine ⟨_, by rw [if_pos (.inr nothing)], fun name => (zeros name).2, fun name => ?_⟩
    have below := (weighted.split total).share_lt name
    have none : (weighted.split total).total = 0 := by simp [Weighted.split, nothing]
    rw [none, Nat.zero_mul, Nat.zero_add] at below
    have idle : (weighted.split total).share name = 0 :=
      Nat.lt_one_iff.mp (Nat.lt_of_mul_lt_mul_left (by rwa [Nat.mul_one]))
    rw [(zeros name).1, idle]
    rfl
  · have := weighted.pos
    rw [if_neg (by omega)]
    exact splitByRemainder_eq (fun _ => wrap32_of_fits) weighted low high _
      (fun name => (zeros name).1) fun name => (zeros name).2

theorem largestRemainder_isSome (nonneg : ∀ name, 0 ≤ weights.get name)
    (fits : weights.total < 2 ^ 63) (low : 0 ≤ total) (high : total < 2 ^ 31) :
    ∃ shares, largestRemainder total weights = some shares := by
  by_cases positive : 0 < weights.total
  · obtain ⟨shares, run, -⟩ := largestRemainder_split ⟨nonneg, positive, fits⟩ low high
    exact ⟨shares, run⟩
  · have sum : 0 ≤ weights.total := weights.total_nonneg nonneg
    rw [largestRemainder]
    simp only [sum_eq_total nonneg fits]
    rw [if_pos (.inl (by omega))]
    exact ⟨_, rfl⟩

end Remainder

/-! ## Floors for every component -/

/-- The homes of `targets` are named and their targets are counts. -/
structure Homes (targets : GoMap String Int) : Prop where
  named : "" ∉ targets.keys
  nonneg : ∀ name, 0 ≤ targets.get name
  fits : targets.total < 2 ^ 63

/-- A secondary component a source may declare a minimum for. -/
structure Secondary (primary component : Component) (minimum : Int) : Prop where
  other : component ≠ primary
  scaled : component = .engine ∨ component = .decoder ∨ component = .router
  nonneg : 0 ≤ minimum
  fits : minimum ≤ maxInt32

/-- The total of a secondary component fits and covers the homes. -/
structure Covers (primaryMinimum : Int) (targets : GoMap String Int) (minimum : Int) : Prop where
  fits : scaledMinimum targets.total minimum primaryMinimum ≤ maxInt32
  homes : 0 < scaledMinimum targets.total minimum primaryMinimum →
    positiveHomes targets ≤ scaledMinimum targets.total minimum primaryMinimum

section Floors

variable {primary : Component} {primaryMinimum : Int} {targets : GoMap String Int}
variable (positive : 0 < primaryMinimum) (primary_fits : primaryMinimum ≤ maxInt32)
variable (homes : Homes targets)

theorem checkHomes_eq_none (homes : Homes targets) :
    checkHomes primary targets targets.sortedKeys = none := by
  have named : ∀ name ∈ targets.sortedKeys, name ≠ "" := by
    rintro name member rfl
    exact homes.named ((targets.mem_sortedKeys "").mp member)
  generalize targets.sortedKeys = names at named ⊢
  induction names with
  | nil => rfl
  | cons name rest ih =>
    rw [checkHomes, if_neg (named name mem_cons_self),
      if_neg (not_lt.mpr (homes.nonneg name))]
    exact ih fun name member => named name (mem_cons_of_mem _ member)

include positive primary_fits homes

theorem secondaryShares_ok {component : Component} {minimum : Int}
    (secondary : Secondary primary component minimum)
    (covers : Covers primaryMinimum targets minimum) :
    ∃ shares, secondaryShares primary primaryMinimum targets component minimum =
      some (.ok shares) := by
  have sum : 0 ≤ targets.total := targets.total_nonneg homes.nonneg
  have scaled := ratioTotal_eq sum homes.fits secondary.nonneg secondary.fits positive primary_fits
    covers.fits
  have low : 0 ≤ scaledMinimum targets.total minimum primaryMinimum := by
    rw [le_scaledMinimum positive]
    have := mul_nonneg sum secondary.nonneg
    omega
  have high := covers.fits
  rw [maxInt32] at high
  obtain ⟨shares, run⟩ := largestRemainder_isSome homes.nonneg homes.fits low (by omega)
  have known : ¬ (component ≠ .engine ∧ component ≠ .decoder ∧ component ≠ .router) := by
    rintro ⟨engine, decoder, router⟩
    rcases secondary.scaled with same | same | same
    · exact engine same
    · exact decoder same
    · exact router same
  have enough : ¬ (0 < scaledMinimum targets.total minimum primaryMinimum ∧
      scaledMinimum targets.total minimum primaryMinimum < positiveHomes targets) := by
    rintro ⟨some, short⟩
    exact absurd (covers.homes some) (not_le.mpr short)
  rw [secondaryShares, if_neg secondary.other, if_neg known,
    if_neg (not_lt.mpr secondary.nonneg), scaled]
  simp only [if_neg enough, run]
  exact ⟨_, rfl⟩

theorem apportionSecondaries_ok {minimum : Component → Int} :
    ∀ (components : List Component) (out : GoMap String (List ComponentFloor)),
      (∀ component ∈ components, Secondary primary component (minimum component) ∧
        Covers primaryMinimum targets (minimum component)) →
      ∃ floors, apportionSecondaries primary primaryMinimum targets minimum components out =
        some (.ok floors)
  | [], out, _ => ⟨out, rfl⟩
  | component :: rest, out, covered => by
    obtain ⟨secondary, covers⟩ := covered component mem_cons_self
    obtain ⟨shares, run⟩ := secondaryShares_ok positive primary_fits homes secondary covers
    obtain ⟨floors, later⟩ := apportionSecondaries_ok rest
      (appendFloors component shares targets.sortedKeys out)
      fun component member => covered component (mem_cons_of_mem _ member)
    exact ⟨floors, by rw [apportionSecondaries, run]; exact later⟩

/-- **Floors exist** when every secondary total fits and covers the homes. -/
theorem apportionReplicaFloors_ok (scaled : primary = .engine ∨ primary = .decoder)
    {minimums : GoMap Component Int}
    (covered : ∀ component ∈ minimums.keys, Secondary primary component (minimums.get component) ∧
      Covers primaryMinimum targets (minimums.get component)) :
    ∃ floors, apportionReplicaFloors primary primaryMinimum targets minimums =
      some (.ok floors) := by
  have known : ¬ (primary ≠ .engine ∧ primary ≠ .decoder) := by
    rintro ⟨engine, decoder⟩
    exact scaled.elim engine decoder
  obtain ⟨floors, run⟩ := apportionSecondaries_ok positive primary_fits homes minimums.sortedKeys
    (targets.sortedKeys.foldl (fun out name =>
      out.set name [(⟨primary, targets.get name⟩ : ComponentFloor)]) .empty)
    fun component member => covered component ((minimums.mem_sortedKeys component).mp member)
  rw [apportionReplicaFloors, if_neg known, if_neg (not_le.mpr positive)]
  simp only [checkHomes_eq_none homes, run]
  exact ⟨_, rfl⟩

end Floors

end Ome.Placement.Protocol
