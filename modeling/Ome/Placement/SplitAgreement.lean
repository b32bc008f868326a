/-
# Ome.Placement.SplitAgreement — three splits, one function

`allocation.Apportion`, `protocol.largestRemainder` and `shares.Proportional`
each split a total by largest remainder.  The first two multiply and divide in
128 bits and sort stably over names already in order; the third works in big
integers and breaks ties in its comparator.

Each is a `Split` (`apportion_split`, `largestRemainder_split`,
`proportional_eq`), and the splits are of one total by one set of weights, so
that `splits_agree` follows from the properties of `Split.share` alone.
-/
import Ome.Placement.Allocation.Apportion
import Ome.Placement.Protocol.Floors
import Ome.Quota.Shares
import Mathlib.Algebra.BigOperators.Ring.Finset

namespace Ome.Placement

open Ome.Theory Ome.Quota List

set_option autoImplicit false

/-- The clusters report the weights as whole numbers, in any order. -/
structure Reports (weights : GoMap String Int) (reported : List Weight) : Prop where
  names : (reported.map Weight.cluster).Perm weights.keys
  capacity : ∀ w ∈ reported, w.capacity.dec = ⟨weights.get w.cluster, 0⟩

namespace Reports

variable {weights : GoMap String Int} {reported : List Weight}
variable (reports : Reports weights reported)

include reports

theorem value {w : Weight} (member : w ∈ reported) :
    w.capacity.dec.value = (weights.get w.cluster : ℚ) := by
  rw [reports.capacity w member, Decimal.value, Decimal.unit]
  simp

theorem sum_eq :
    (reported.map fun w => w.capacity.dec.value).sum = ((weights.total : Int) : ℚ) := by
  have sum : weights.total = ((reported.map Weight.cluster).map weights.get).sum :=
    ((reports.names.map _).sum_eq).symm
  rw [sum, map_map, Int.cast_list_sum, map_map]
  exact congrArg List.sum (map_congr_left fun _ member => reports.value member)

theorem splittable (weighted : Weighted weights) (named : "" ∉ weights.keys) :
    Splittable reported where
  named := by
    intro w member unnamed
    exact named (reports.names.mem_iff.mp (unnamed ▸ mem_map_of_mem member))
  distinct := reports.names.nodup_iff.mpr weights.nodup
  nonneg := by
    intro w member
    rw [reports.value member]
    exact_mod_cast weighted.nonneg w.cluster
  pos := by
    rw [reports.sum_eq]
    exact_mod_cast weighted.pos

theorem weightScale_eq : weightScale reported = 0 := by
  have scales : ∀ w ∈ reported, decScale w.capacity = 0 := by
    intro w member
    rw [decScale, reports.capacity w member]
  rw [weightScale]
  clear reports
  induction reported with
  | nil => rfl
  | cons w rest ih =>
    rw [forall_mem_cons] at scales
    rw [foldl_cons, scales.1, if_neg (by decide)]
    exact ih scales.2

theorem weightOf_eq (weighted : Weighted weights) (named : "" ∉ weights.keys) {w : Weight}
    (member : w ∈ reported) : weightOf reported w.cluster = (weights.get w.cluster).toNat := by
  have read := (reports.splittable weighted named).weightOf_cluster member
  have scale : decScale w.capacity = 0 := by rw [decScale, reports.capacity w member]
  rw [reports.weightScale_eq, ← scale, unitsAt_decScale, reports.capacity w member] at read
  change _ = weights.get w.cluster at read
  omega

theorem alike (weighted : Weighted weights) (named : "" ∉ weights.keys) (total : Int) :
    Split.Alike (weighted.split total)
      ((reports.splittable weighted named).split total.toNat) 1 1 where
  total_eq := rfl
  names_perm := reports.names.trans weights.sortedKeys_perm.symm
  pos := Nat.one_pos
  pos' := Nat.one_pos
  weights := by
    intro name listed
    obtain ⟨w, member, rfl⟩ := mem_map.mp
      (reports.names.mem_iff.mpr ((weights.mem_sortedKeys _).mp listed))
    rw [Nat.one_mul, Nat.one_mul]
    exact (reports.weightOf_eq weighted named member).symm

theorem clusters_eq : Quota.clusters reported = weights.sortedKeys :=
  List.Perm.eq_of_pairwise (fun _ _ _ _ => le_antisymm) (pairwise_insertionSort _ _)
    weights.pairwise_sortedKeys
    ((clusters_perm reported).trans (reports.names.trans weights.sortedKeys_perm.symm))

theorem proportional_split (weighted : Weighted weights) (named : "" ∉ weights.keys)
    {total : Int} (low : 0 ≤ total) (format : Format) :
    proportional ⟨⟨total, 0⟩, format⟩ reported = some (.ok (weights.sortedKeys.map fun name =>
      ⟨name, ⟨⟨(weighted.split total).share name, 0⟩, format⟩⟩)) := by
  rw [proportional_eq (reports.splittable weighted named)
    ((Decimal.value_nonneg _).mpr low), reports.clusters_eq]
  refine congrArg (some ∘ Except.ok) (map_congr_left fun name listed => ?_)
  change (⟨name, quantityAt (((reports.splittable weighted named).split total.toNat).share name)
    0 format⟩ : Share) = _
  rw [(reports.alike weighted named total).share_eq listed]
  rfl

end Reports

namespace Weighted

variable {weights targets : GoMap String Int} (weighted : Weighted weights) {total : Int}

theorem total_of_shares (low : 0 ≤ total) (keys : ∀ name, name ∈ targets.keys ↔ name ∈ weights.keys)
    (gets : ∀ name, targets.get name = ((weighted.split total).share name : Int)) :
    targets.total = total := by
  have sum := (weighted.split total).sum_share
  change (weights.sortedKeys.map _).sum = total.toNat at sum
  have named (name : String) (member : name ∈ targets.keys) : name ∈ weights.sortedKeys :=
    (weights.mem_sortedKeys name).mpr ((keys name).mp member)
  calc targets.total
      = (weights.sortedKeys.map targets.get).sum :=
        targets.total_eq_sum_map weights.nodup_sortedKeys named
    _ = (weights.sortedKeys.map (Nat.cast ∘ (weighted.split total).share)).sum :=
        congrArg List.sum (map_congr_left fun name _ => gets name)
    _ = ((weights.sortedKeys.map (weighted.split total).share).sum : Nat) := by
        rw [Nat.cast_list_sum, map_map]
    _ = total := by rw [sum, Int.toNat_of_nonneg low]

theorem floor_cast (low : 0 ≤ total) (name : String) :
    (((weighted.split total).floor name : Nat) : Int) =
      total * weights.get name / weights.total := by
  rw [← weighted.basis_eq total, Split.floor, Int.natCast_div, Nat.cast_mul]
  change (total.toNat : Int) * ((weights.get name).toNat : Int) / _ = _
  rw [Int.toNat_of_nonneg low, Int.toNat_of_nonneg (weighted.nonneg name)]

theorem share_mono (total : Int) {a b : String} (less : weights.get a < weights.get b) :
    (weighted.split total).share a ≤ (weighted.split total).share b := by
  have nonneg := weighted.nonneg a
  have held : b ∈ weights.keys := weights.mem_keys_of_pos (by omega)
  refine (weighted.split total).share_mono ((weights.mem_sortedKeys b).mpr held) ?_
  change (weights.get a).toNat < (weights.get b).toNat
  omega

theorem share_le_total (total : Int) (name : String) :
    (weighted.split total).share name ≤ total.toNat := by
  by_cases held : name ∈ weights.keys
  · exact (weighted.split total).share_le_total ((weights.mem_sortedKeys name).mpr held)
  · rw [weighted.share_absent total held]
    exact Nat.zero_le _

end Weighted

/-- **The three splits are one function**, and no call of them panics.  The last
part says that no `int32` operation of the shared loops overflows: they return the
same targets whatever is read for a result that does not fit. -/
theorem splits_agree {weights : GoMap String Int} (weighted : Weighted weights)
    (named : "" ∉ weights.keys) {total : Int} (low : 0 ≤ total) (high : total < 2 ^ 31)
    {reported : List Weight} (reports : Reports weights reported) (format : Format) :
    ∃ targets : GoMap String Int,
      Allocation.apportion total weights 0 = some (.ok { targets, unassigned := 0 }) ∧
      (∃ shares, Protocol.largestRemainder total weights = some shares ∧
        ∀ name, (name ∈ shares.keys ↔ name ∈ targets.keys) ∧
          shares.get name = targets.get name) ∧
      proportional ⟨⟨total, 0⟩, format⟩ reported = some (.ok (weights.sortedKeys.map fun name =>
        ⟨name, ⟨⟨targets.get name, 0⟩, format⟩⟩)) ∧
      (∀ name, name ∈ targets.keys ↔ name ∈ weights.keys) ∧
      targets.total = total ∧
      (∀ name, targets.get name = total * weights.get name / weights.total ∨
        targets.get name = total * weights.get name / weights.total + 1) ∧
      (∀ name, weights.get name = 0 → targets.get name = 0) ∧
      (∀ a b, weights.get a < weights.get b → targets.get a ≤ targets.get b) ∧
      (∀ name, 0 ≤ targets.get name ∧ targets.get name ≤ total) ∧
      ∀ int32 : Int → Int, (∀ x, -2 ^ 31 ≤ x → x < 2 ^ 31 → int32 x = x) →
        ∀ zeros : GoMap String Int, (∀ name, zeros.get name = 0) →
          (∀ name, name ∈ zeros.keys ↔ name ∈ weights.keys) →
          ∃ shares, splitByRemainder int32 total weights.total weights zeros = some shares ∧
            ∀ name, shares.get name = targets.get name := by
  obtain ⟨⟨targets, unassigned⟩, planned, none, keys, gets⟩ :=
    Allocation.apportion_split weighted named low high
  obtain ⟨shares, split, keys', gets'⟩ := Protocol.largestRemainder_split weighted low high
  simp only at none gets keys
  subst none
  refine ⟨targets, planned, ⟨shares, split, fun name => ⟨?_, ?_⟩⟩, ?_, keys, ?_, ?_, ?_, ?_, ?_, ?_⟩
  · rw [keys, keys']
  · rw [gets, gets']
  · rw [reports.proportional_split weighted named low format]
    simp only [gets]
  · exact weighted.total_of_shares low keys gets
  · intro name
    have := (weighted.split total).floor_le_share name
    have := (weighted.split total).share_le name
    rw [gets, ← weighted.floor_cast low]
    omega
  · intro name idle
    rw [gets, (weighted.split total).share_zero (by simp [Weighted.split, idle])]
    rfl
  · intro a b less
    rw [gets, gets]
    exact_mod_cast weighted.share_mono total less
  · intro name
    have := weighted.share_le_total total name
    rw [gets]
    omega
  · intro int32 reads zeros zero listed
    obtain ⟨shares, run, -, same⟩ := splitByRemainder_eq reads weighted low high zeros zero listed
    exact ⟨shares, run, fun name => (same name).trans (gets name).symm⟩

/-- Three clusters of one weight. -/
def threeEqual : GoMap String Int where
  keys := ["c", "a", "b"]
  nodup := by decide
  get := fun name => if name ∈ ["c", "a", "b"] then 1 else 0
  get_absent := fun _ absent => if_neg absent

def threeReports : List Weight :=
  ["b", "c", "a"].map fun name => ⟨name, ⟨⟨1, 0⟩, .decimalSI⟩⟩

/-- Four over three equal clusters: the first name is given the unit left. -/
theorem threeEqual_agree : ∃ targets : GoMap String Int,
    Allocation.apportion 4 threeEqual 0 = some (.ok { targets, unassigned := 0 }) ∧
      targets.total = 4 ∧ targets.get "a" = 2 ∧ targets.get "b" = 1 ∧ targets.get "c" = 1 := by
  have weighted : Weighted threeEqual := by
    refine ⟨fun name => ?_, by decide, by decide⟩
    change (0 : Int) ≤ if _ then 1 else 0
    split <;> decide
  have reports : Reports threeEqual threeReports := ⟨by decide, by decide⟩
  obtain ⟨targets, planned, -, shared, -, sum, -⟩ :=
    splits_agree weighted (by decide) (by decide : (0 : Int) ≤ 4) (by decide) reports .decimalSI
  have split : proportional ⟨⟨4, 0⟩, .decimalSI⟩ threeReports =
      some (.ok (["a", "b", "c"].zipWith (fun name units => ⟨name, ⟨⟨units, 0⟩, .decimalSI⟩⟩)
        [2, 1, 1])) := by decide
  have names : threeEqual.sortedKeys = ["a", "b", "c"] := by decide
  rw [split, names] at shared
  simp only [List.zipWith, List.map, Option.some.injEq, Except.ok.injEq, List.cons.injEq,
    Share.mk.injEq, Quantity.mk.injEq, Decimal.mk.injEq, true_and, and_true] at shared
  exact ⟨targets, planned, sum, shared.1.symm, shared.2.1.symm, shared.2.2.symm⟩

end Ome.Placement
