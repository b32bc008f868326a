/-
# Ome.Placement.Remainders — the loops of a largest-remainder split

`allocation.Apportion` and `protocol.largestRemainder` split a count with the same
three loops: each name, in name order, is assigned the quotient of a 128-bit
product (`assignFloors`), the remainders are sorted stably, largest first
(`byRemainder`), and the units left are handed out one by one (`handOut`).

Go's panics are `none`: a quotient that needs more than one word (`exactPart`),
and an index past the remainders (`handOut`).  The loops take the function that
reads the result of an `int32` operation; the code's is `wrap32`.
`splitByRemainder_eq` says that for a count below `2 ^ 31` and weights whose sum
fits in `int64` they compute the shares of the `Split` of the same total and
weights, whatever is read for a result that does not fit: no such result occurs.
-/
import Ome.Theory.GoMap
import Ome.Theory.LargestRemainder
import Ome.Theory.MachineInt

namespace Ome.Placement

open Ome.Theory List GoMap

set_option autoImplicit false

/-! ## The loops -/

structure Remainder where
  name : String
  value : Nat
  deriving DecidableEq

/-- What the first loop has assigned so far. -/
structure Assigned where
  shares : GoMap String Int
  unassigned : Int
  remainders : List Remainder

/-- The quotient of `total * weight` by `sum` as an `int32`, and the remainder. -/
def exactPart (int32 : Int → Int) (total weight sum : Int) : Option (Int × Nat) :=
  let product := mul64 (uint64 total) (uint64 weight)
  (div64 product.1 product.2 (uint64 sum)).map fun parts => (int32 parts.1, parts.2)

def assignFloors (int32 : Int → Int) (total sum : Int) (weights : GoMap String Int) :
    List String → Assigned → Option Assigned
  | [], a => some a
  | name :: rest, a =>
    match exactPart int32 total (weights.get name) sum with
    | none => none
    | some (quotient, value) => assignFloors int32 total sum weights rest
        { shares := a.shares.set name quotient
          unassigned := int32 (a.unassigned - quotient)
          remainders := a.remainders ++ [⟨name, value⟩] }

/-- Largest remainder first, equal ones as they were. -/
def byRemainder (remainders : List Remainder) : List Remainder :=
  remainders.insertionSort fun a b => b.value ≤ a.value

/-- One unit to each of the first `units` remainders. -/
def handOut (int32 : Int → Int) :
    Nat → List Remainder → GoMap String Int → Option (GoMap String Int)
  | 0, _, shares => some shares
  | _ + 1, [], _ => none
  | units + 1, r :: rest, shares =>
    handOut int32 units rest (shares.set r.name (int32 (shares.get r.name + 1)))

/-- The three loops, from shares of zero for every name. -/
def splitByRemainder (int32 : Int → Int) (total sum : Int) (weights shares : GoMap String Int) :
    Option (GoMap String Int) :=
  match assignFloors int32 total sum weights weights.sortedKeys
      { shares, unassigned := total, remainders := [] } with
  | none => none
  | some a => handOut int32 a.unassigned.toNat (byRemainder a.remainders) a.shares

/-! ## The split they compute -/

/-- Weights a split can be made by: none negative, with a positive `int64` sum. -/
structure Weighted (weights : GoMap String Int) : Prop where
  nonneg : ∀ name, 0 ≤ weights.get name
  pos : 0 < weights.total
  fits : weights.total < 2 ^ 63

namespace Weighted

variable {weights : GoMap String Int} (weighted : Weighted weights)

include weighted

theorem sum_toNat :
    (((weights.sortedKeys.map fun name => (weights.get name).toNat).sum : Nat) : Int) =
      weights.total := by
  rw [weights.total_eq_sum_sorted]
  induction weights.sortedKeys with
  | nil => rfl
  | cons name rest ih =>
    rw [map_cons, map_cons, sum_cons, sum_cons, Nat.cast_add, ih,
      Int.toNat_of_nonneg (weighted.nonneg name)]

omit weighted in
/-- The split of `total` by these weights. -/
def split (weighted : Weighted weights) (total : Int) : Split String where
  total := total.toNat
  names := weights.sortedKeys
  weight := fun name => (weights.get name).toNat
  nodup := weights.nodup_sortedKeys
  basis_pos := by
    have sum := weighted.sum_toNat
    have := weighted.pos
    omega

theorem basis_eq (total : Int) : ((weighted.split total).basis : Int) = weights.total :=
  weighted.sum_toNat

theorem weight_le (total : Int) (name : String) :
    (weighted.split total).weight name ≤ (weighted.split total).basis := by
  by_cases listed : name ∈ weights.sortedKeys
  · exact single_le_sum (fun _ _ => Nat.zero_le _) _
      (mem_map_of_mem (f := (weighted.split total).weight) listed)
  · rw [weights.mem_sortedKeys] at listed
    simp [split, weights.get_int_absent listed]

theorem share_absent (total : Int) {name : String} (absent : name ∉ weights.keys) :
    (weighted.split total).share name = 0 :=
  (weighted.split total).share_zero (by simp [split, weights.get_int_absent absent])

theorem floor_le (total : Int) (name : String) :
    (weighted.split total).floor name ≤ total.toNat := by
  refine Nat.div_le_of_le_mul ?_
  rw [Nat.mul_comm]
  exact Nat.mul_le_mul_right _ (weighted.weight_le total name)

variable {int32 : Int → Int} (reads : ∀ x, -2 ^ 31 ≤ x → x < 2 ^ 31 → int32 x = x)
variable {total : Int} (low : 0 ≤ total) (high : total < 2 ^ 31)

include reads low high

/-- The 128-bit division does not overflow and its quotient is an `int32`. -/
theorem exactPart_eq (name : String) :
    exactPart int32 total (weights.get name) weights.total =
      some (((weighted.split total).floor name : Int), (weighted.split total).rest name) := by
  have basis := weighted.basis_eq total
  have below := weighted.weight_le total name
  have fits := weighted.fits
  change (weights.get name).toNat ≤ _ at below
  have bounded : total.toNat * (weights.get name).toNat <
      (weighted.split total).basis * 2 ^ 64 := by
    have positive : 0 < (weighted.split total).basis := (weighted.split total).basis_pos
    calc total.toNat * (weights.get name).toNat
        ≤ total.toNat * (weighted.split total).basis := Nat.mul_le_mul_left _ below
      _ < 2 ^ 64 * (weighted.split total).basis :=
          Nat.mul_lt_mul_of_pos_right (by omega) positive
      _ = (weighted.split total).basis * 2 ^ 64 := Nat.mul_comm _ _
  have registers : uint64 total = total.toNat ∧
      uint64 (weights.get name) = (weights.get name).toNat ∧
      uint64 weights.total = (weighted.split total).basis := by
    refine ⟨uint64_of_fits low (by omega), uint64_of_fits (weighted.nonneg name) (by omega), ?_⟩
    rw [uint64_of_fits weighted.pos.le (by omega)]
    omega
  have quotient : int32 ((weighted.split total).floor name : Int) =
      (weighted.split total).floor name := by
    have := weighted.floor_le total name
    exact reads _ (by omega) (by omega)
  simp only [exactPart, registers, div64_mul64 bounded, Option.map_some]
  change some (int32 ((weighted.split total).floor name : Int), _) = _
  rw [quotient]
  rfl

/-- The first loop assigns the floors and keeps the remainders, in name order.  It
never assigns more than is left, so that the count does not wrap. -/
theorem assignFloors_eq : ∀ (names : List String) (shares : GoMap String Int) (left : Nat)
    (remainders : List Remainder),
    (names.map (weighted.split total).floor).sum ≤ left → left ≤ total.toNat →
    assignFloors int32 total weights.total weights names ⟨shares, left, remainders⟩ =
      some ⟨names.foldl
          (fun m name => m.set name ((weighted.split total).floor name : Int)) shares,
        (left - (names.map (weighted.split total).floor).sum : Nat),
        remainders ++ names.map fun name => ⟨name, (weighted.split total).rest name⟩⟩
  | [], shares, left, remainders, _, _ => by simp [assignFloors]
  | name :: rest, shares, left, remainders, enough, within => by
    rw [map_cons, sum_cons] at enough
    have next : int32 ((left : Int) - (weighted.split total).floor name) =
        ((left - (weighted.split total).floor name : Nat) : Int) := by
      rw [reads _ (by omega) (by omega)]
      omega
    rw [assignFloors, weighted.exactPart_eq reads low high]
    simp only [next]
    rw [assignFloors_eq rest _ (left - (weighted.split total).floor name) _ (by omega)
      (by omega)]
    simp only [foldl_cons, map_cons, sum_cons, append_assoc,
      singleton_append, Nat.sub_sub]

omit reads low high in
/-- The remainders sorted stably are in the order units are handed out in. -/
theorem byRemainder_names (total : Int) :
    (byRemainder (weights.sortedKeys.map fun name =>
      ⟨name, (weighted.split total).rest name⟩)).map Remainder.name =
      (weighted.split total).order := by
  have names : (weights.sortedKeys.map fun name =>
      (⟨name, (weighted.split total).rest name⟩ : Remainder)).map Remainder.name =
      weights.sortedKeys := by
    rw [map_map]
    exact map_id _
  refine ((weighted.split total).insertionSort_stable Remainder.name Remainder.value _
    (names.symm ▸ weights.strict_sortedKeys) ?_).trans ?_
  · intro r member
    obtain ⟨name, -, rfl⟩ := mem_map.mp member
    rfl
  · rw [names]
    rfl

end Weighted

/-- Shares of zero for every name, as the callers start from. -/
theorem zeros_spec (weights : GoMap String Int) (name : String) :
    let zeros : GoMap String Int :=
      weights.sortedKeys.foldl (fun shares name => shares.set name 0) .empty
    zeros.get name = 0 ∧ (name ∈ zeros.keys ↔ name ∈ weights.keys) := by
  refine ⟨?_, by simp [mem_keys_foldl_set (fun _ => (0 : Int))]⟩
  rw [get_foldl_set (fun _ => (0 : Int))]
  split <;> rfl

section Loops

variable {int32 : Int → Int} (reads : ∀ x, -2 ^ 31 ≤ x → x < 2 ^ 31 → int32 x = x)

include reads

theorem handOut_eq : ∀ (units : Nat) (remainders : List Remainder) (shares : GoMap String Int),
    units ≤ remainders.length → (remainders.map Remainder.name).Nodup →
    (∀ r ∈ remainders.take units, 0 ≤ shares.get r.name ∧ shares.get r.name + 1 < 2 ^ 31) →
    ∃ handed, handOut int32 units remainders shares = some handed ∧
      (∀ name, name ∈ handed.keys ↔
        name ∈ shares.keys ∨ name ∈ (remainders.map Remainder.name).take units) ∧
      ∀ name, handed.get name =
        shares.get name + if name ∈ (remainders.map Remainder.name).take units then 1 else 0
  | 0, remainders, shares, _, _, _ => ⟨shares, rfl, by simp, by simp⟩
  | units + 1, [], shares, enough, _, _ => absurd enough (by simp)
  | units + 1, r :: rest, shares, enough, distinct, range => by
    rw [map_cons, nodup_cons] at distinct
    rw [take_succ_cons] at range
    have first := range r mem_cons_self
    have raised : int32 (shares.get r.name + 1) = shares.get r.name + 1 :=
      reads _ (by omega) (by omega)
    have apart {r' : Remainder} (member : r' ∈ rest.take units) : r'.name ≠ r.name :=
      fun same => distinct.1 (same ▸ mem_map_of_mem (mem_of_mem_take member))
    obtain ⟨handed, run, keys, gets⟩ := handOut_eq units rest
      (shares.set r.name (shares.get r.name + 1)) (by simpa using enough) distinct.2
      (fun r' member => by
        rw [get_set_ne _ _ (apart member)]
        exact range r' (mem_cons_of_mem _ member))
    refine ⟨handed, by rw [handOut, raised, run], ?_, ?_⟩
    · intro name
      rw [keys, mem_keys_set, map_cons, take_succ_cons, mem_cons, or_assoc]
    · intro name
      rw [gets, map_cons, take_succ_cons]
      by_cases same : name = r.name
      · subst same
        have later : r.name ∉ (rest.map Remainder.name).take units := fun member =>
          distinct.1 (mem_of_mem_take member)
        simp [later]
      · simp [get_set_ne _ _ same, same]

/-- **The loops compute the split**, without a panic and without an overflow. -/
theorem splitByRemainder_eq {weights : GoMap String Int} (weighted : Weighted weights)
    {total : Int} (low : 0 ≤ total) (high : total < 2 ^ 31) (zeros : GoMap String Int)
    (zero : ∀ name, zeros.get name = 0) (named : ∀ name, name ∈ zeros.keys ↔ name ∈ weights.keys) :
    ∃ shares, splitByRemainder int32 total weights.total weights zeros = some shares ∧
      (∀ name, name ∈ shares.keys ↔ name ∈ weights.keys) ∧
      ∀ name, shares.get name = ((weighted.split total).share name : Int) := by
  have sorted := weighted.byRemainder_names total
  have assigned := weighted.assignFloors_eq reads low high weights.sortedKeys zeros total.toNat []
    (weighted.split total).sum_floor_le le_rfl
  rw [Int.toNat_of_nonneg low, nil_append] at assigned
  -- after the first loop every name has its floor
  have floors (name : String) : (weights.sortedKeys.foldl
      (fun m name => m.set name ((weighted.split total).floor name : Int)) zeros).get name =
      ((weighted.split total).floor name : Int) := by
    rw [get_foldl_set]
    split
    · rfl
    · rename_i absent
      have idle := weighted.share_absent total (mt (weights.mem_sortedKeys name).mpr absent)
      have := (weighted.split total).floor_le_share name
      rw [zero]
      omega
  -- the second loop hands one each to the largest remainders
  obtain ⟨shares, handed, keys, gets⟩ := handOut_eq reads (weighted.split total).leftover
    (byRemainder (weights.sortedKeys.map fun name => ⟨name, (weighted.split total).rest name⟩))
    (weights.sortedKeys.foldl
      (fun m name => m.set name ((weighted.split total).floor name : Int)) zeros)
    (by
      have := (weighted.split total).leftover_le_length
      rwa [byRemainder, length_insertionSort, length_map])
    (by
      rw [sorted]
      exact (weighted.split total).order_nodup)
    (by
      intro r member
      have served : r.name ∈ (weighted.split total).served := by
        rw [Split.served, ← sorted, ← map_take]
        exact mem_map_of_mem member
      have raised : (weighted.split total).share r.name = (weighted.split total).floor r.name + 1 :=
        congrArg _ (if_pos served)
      have := (weighted.split total).share_le_total
        ((weighted.split total).mem_names_of_served served)
      change _ ≤ total.toNat at this
      rw [floors]
      omega)
  refine ⟨shares, ?_, ?_, ?_⟩
  · rw [splitByRemainder, assigned]
    exact handed
  · intro name
    rw [keys, mem_keys_foldl_set, weights.mem_sortedKeys, named, or_self, sorted]
    refine or_iff_left_of_imp fun member => ?_
    exact (weights.mem_sortedKeys name).mp
      ((weighted.split total).mem_names_of_served member)
  · intro name
    rw [gets, floors, sorted, Split.share, Split.served]
    split <;> simp

end Loops

end Ome.Placement
