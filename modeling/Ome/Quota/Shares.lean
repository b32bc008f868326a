/-
# Ome.Quota.Shares — a fleet total split into cluster shares

The model of `quota/shares/shares.go`.  `proportional` splits a total over
clusters by their capacities: the total is read in its own unit, the capacities
in the finest unit any of them is written in, every cluster is assigned the
floor of its part, and the units left are handed out by largest remainder.

A quantity is its `inf.Dec`, which is exact, and its format; `AsDec` and
`NewDecimalQuantity` go between the two.  `Quantity.Add` keeps the other operand's
scale where one is zero; here a sum has the finer scale and the same value.  The
scales are `int32` and their difference in `unitsAt` wraps.  `none` is the panic of
the hand-out loop when it has no portion left.
-/
import Ome.Theory.Decimal
import Ome.Theory.GoMap
import Ome.Theory.LargestRemainder

namespace Ome.Quota

open Ome.Theory List

set_option autoImplicit false

/-! ## Quantities -/

inductive Format where
  | decimalExponent
  | binarySI
  | decimalSI
  deriving DecidableEq

structure Quantity where
  dec : Decimal
  format : Format
  deriving DecidableEq

structure Weight where
  cluster : String
  capacity : Quantity
  deriving DecidableEq

structure Share where
  cluster : String
  nominal : Quantity
  deriving DecidableEq

def decScale (q : Quantity) : Int32 := q.dec.scale

/-- A quantity in units of `10 ^ (-scale)`; the shift is an `int32`. -/
def unitsAt (q : Quantity) (scale : Int32) : Int :=
  if 0 < scale - decScale q then q.dec.unscaled * 10 ^ (scale - decScale q).toInt.toNat
  else q.dec.unscaled

def quantityAt (units : Int) (scale : Int32) (format : Format) : Quantity :=
  { dec := ⟨units, scale⟩, format }

/-! ## The split -/

inductive SharesError where
  | noClusters
  | negativeTotal (total : Quantity)
  | unnamedCluster
  | repeatedCluster (cluster : String)
  | negativeCapacity (cluster : String) (capacity : Quantity)
  | zeroBasis
  deriving DecidableEq

/-- The loop that checks the weights, with the clusters seen so far. -/
def checkWeights : List Weight → List String → Option SharesError
  | [], _ => none
  | w :: rest, seen =>
    if w.cluster = "" then some .unnamedCluster
    else if w.cluster ∈ seen then some (.repeatedCluster w.cluster)
    else if w.capacity.dec.unscaled < 0 then some (.negativeCapacity w.cluster w.capacity)
    else checkWeights rest (w.cluster :: seen)

/-- The finest scale of the capacities, at least zero. -/
def weightScale (weights : List Weight) : Int32 :=
  weights.foldl
    (fun scale w => if scale < decScale w.capacity then decScale w.capacity else scale) 0

structure Portion where
  index : Nat
  remainder : Int
  deriving DecidableEq

/-- The quotients of the first loop. -/
def floors (units basis : Int) (weighted : List Int) : List Int :=
  weighted.map fun w => (units * w).tdiv basis

/-- The remainders of the first loop. -/
def portions (units basis : Int) (weighted : List Int) : List Portion :=
  weighted.mapIdx fun i w => { index := i, remainder := (units * w).tmod basis }

def clusterAt (weights : List Weight) (i : Nat) : String :=
  (weights[i]?.map Weight.cluster).getD ""

/-- `a` comes no later than `b`: the larger remainder, the first cluster in a tie. -/
def Precedes (weights : List Weight) (a b : Portion) : Prop :=
  b.remainder < a.remainder ∨
    a.remainder = b.remainder ∧ clusterAt weights a.index ≤ clusterAt weights b.index

instance (weights : List Weight) : DecidableRel (Precedes weights) :=
  fun _ _ => inferInstanceAs (Decidable (_ ∨ _))

/-- The loop that hands out the units left. -/
def handOutLeftover : Nat → List Portion → List Int → Option (List Int)
  | 0, _, assigned => some assigned
  | _ + 1, [], _ => none
  | leftover + 1, p :: rest, assigned =>
    handOutLeftover leftover rest (assigned.modify p.index (· + 1))

def proportional (total : Quantity) (weights : List Weight) :
    Option (Except SharesError (List Share)) :=
  if weights = [] then some (.error .noClusters)
  else if total.dec.unscaled < 0 then some (.error (.negativeTotal total))
  else match checkWeights weights [] with
  | some e => some (.error e)
  | none =>
    let scale := decScale total
    let units := unitsAt total scale
    let weighted := weights.map fun w => unitsAt w.capacity (weightScale weights)
    let basis := weighted.sum
    if basis = 0 then some (.error .zeroBasis)
    else
      let assigned := floors units basis weighted
      let sorted := (portions units basis weighted).insertionSort (Precedes weights)
      match handOutLeftover (units - assigned.sum).toNat sorted assigned with
      | none => none
      | some assigned =>
        let out := weights.zipWith
          (fun w units => { cluster := w.cluster, nominal := quantityAt units scale total.format })
          assigned
        some (.ok (out.insertionSort fun a b => a.cluster ≤ b.cluster))

/-! ## The split it computes -/

/-- Weights a total can be split by: named and distinct clusters, no negative
capacity and a positive sum. -/
structure Splittable (weights : List Weight) : Prop where
  named : ∀ w ∈ weights, w.cluster ≠ ""
  distinct : (weights.map Weight.cluster).Nodup
  nonneg : ∀ w ∈ weights, 0 ≤ w.capacity.dec.value
  pos : 0 < (weights.map fun w => w.capacity.dec.value).sum

theorem unitsAt_nonneg {q : Quantity} (nonneg : 0 ≤ q.dec.unscaled) (scale : Int32) :
    0 ≤ unitsAt q scale := by
  rw [unitsAt]
  split
  · exact mul_nonneg nonneg (by positivity)
  · exact nonneg

theorem unitsAt_eq_zero {q : Quantity} (scale : Int32) :
    unitsAt q scale = 0 ↔ q.dec.unscaled = 0 := by
  rw [unitsAt]
  split
  · rw [mul_eq_zero, or_iff_left (by positivity)]
  · rfl

@[simp] theorem unitsAt_decScale (q : Quantity) : unitsAt q (decScale q) = q.dec.unscaled := by
  rw [unitsAt, Int32.sub_self, if_neg (by decide)]

theorem checkWeights_eq_none : ∀ (weights : List Weight) (seen : List String),
    checkWeights weights seen = none ↔ (∀ w ∈ weights, w.cluster ≠ "") ∧
      (weights.map Weight.cluster).Nodup ∧ (∀ w ∈ weights, 0 ≤ w.capacity.dec.unscaled) ∧
      ∀ w ∈ weights, w.cluster ∉ seen
  | [], _ => by simp [checkWeights]
  | w :: rest, seen => by
    have fresh : (∀ v ∈ rest, v.cluster ∉ w.cluster :: seen) ↔
        w.cluster ∉ rest.map Weight.cluster ∧ ∀ v ∈ rest, v.cluster ∉ seen := by
      simp only [mem_cons, not_or, mem_map, not_exists, not_and, forall_and]
    simp only [checkWeights, map_cons, nodup_cons, forall_mem_cons]
    split
    · simp_all
    split
    · simp_all
    split
    · rename_i negative
      simp only [reduceCtorEq, false_iff]
      exact fun all => absurd all.2.2.1.1 (not_le.mpr negative)
    · rename_i named unseen nonneg
      rw [checkWeights_eq_none rest, fresh]
      have := not_lt.mp nonneg
      tauto

/-- The capacity the split reads under a name. -/
def weightOf (weights : List Weight) (name : String) : Nat :=
  ((weights.find? (·.cluster = name)).map fun w =>
    (unitsAt w.capacity (weightScale weights)).toNat).getD 0

theorem sum_clusters (f : String → Nat) (weights : List Weight) :
    (weights.map fun w => (f w.cluster : Int)).sum =
      (((weights.map Weight.cluster).map f).sum : Nat) := by
  induction weights with
  | nil => rfl
  | cons w rest ih => simp [ih]

namespace Splittable

variable {weights : List Weight} (splittable : Splittable weights)

include splittable

theorem unscaled_nonneg {w : Weight} (member : w ∈ weights) : 0 ≤ w.capacity.dec.unscaled :=
  w.capacity.dec.value_nonneg.mp (splittable.nonneg w member)

theorem weightOf_cluster {w : Weight} (member : w ∈ weights) :
    (weightOf weights w.cluster : Int) = unitsAt w.capacity (weightScale weights) := by
  rw [weightOf, find?_key splittable.distinct member]
  exact Int.toNat_of_nonneg (unitsAt_nonneg (splittable.unscaled_nonneg member) _)

theorem exists_capacity : ∃ w ∈ weights, w.capacity.dec.unscaled ≠ 0 := by
  by_contra idle
  push Not at idle
  have none : (weights.map fun w => w.capacity.dec.value).sum = 0 :=
    sum_eq_zero fun x member => by
      obtain ⟨w, listed, rfl⟩ := mem_map.mp member
      exact w.capacity.dec.value_eq_zero.mpr (idle w listed)
  exact splittable.pos.ne' none

omit splittable in
/-- The split of a number of units by the capacities as they are read. -/
def split (splittable : Splittable weights) (units : Nat) : Split String where
  total := units
  names := weights.map Weight.cluster
  weight := weightOf weights
  nodup := splittable.distinct
  basis_pos := by
    obtain ⟨w, member, positive⟩ := splittable.exists_capacity
    have read := splittable.weightOf_cluster member
    have nonzero := mt (unitsAt_eq_zero (weightScale weights)).mp positive
    have single : weightOf weights w.cluster ≤ ((weights.map Weight.cluster).map
        (weightOf weights)).sum :=
      single_le_sum (fun _ _ => Nat.zero_le _) _
        (mem_map_of_mem (mem_map_of_mem member))
    omega

variable (units : Nat)

theorem weighted_eq : (weights.map fun w => unitsAt w.capacity (weightScale weights)) =
    weights.map fun w => ((splittable.split units).weight w.cluster : Int) :=
  map_congr_left fun _ member => (splittable.weightOf_cluster member).symm

theorem basis_eq : (weights.map fun w => unitsAt w.capacity (weightScale weights)).sum =
    ((splittable.split units).basis : Int) := by
  rw [splittable.weighted_eq units]
  exact sum_clusters _ weights

theorem floors_eq : floors units (splittable.split units).basis
    (weights.map fun w => unitsAt w.capacity (weightScale weights)) =
    weights.map fun w => ((splittable.split units).floor w.cluster : Int) := by
  rw [splittable.weighted_eq units, floors, map_map]
  refine map_congr_left fun w _ => ?_
  rw [Function.comp_apply, ← Nat.cast_mul, ← Int.ofNat_tdiv]
  rfl

theorem sum_floors : (weights.map fun w => ((splittable.split units).floor w.cluster : Int)).sum =
    (((splittable.split units).names.map (splittable.split units).floor).sum : Nat) :=
  sum_clusters _ weights

theorem portions_eq : portions units (splittable.split units).basis
    (weights.map fun w => unitsAt w.capacity (weightScale weights)) =
    weights.mapIdx fun i w => ⟨i, ((splittable.split units).rest w.cluster : Int)⟩ := by
  rw [splittable.weighted_eq units, portions]
  refine ext_getElem (by simp) fun i low high => ?_
  simp only [getElem_mapIdx, getElem_map, ← Nat.cast_mul, ← Int.ofNat_tmod]
  rfl

end Splittable

theorem clusterAt_getElem {weights : List Weight} {i : Nat} (low : i < weights.length) :
    clusterAt weights i = weights[i].cluster := by
  rw [clusterAt, List.getElem?_eq_getElem low]
  rfl

/-- Units handed out raise what is assigned at the indices at the head by one. -/
theorem handOutLeftover_eq : ∀ (leftover : Nat) (ps : List Portion) (assigned : List Int),
    leftover ≤ ps.length → (ps.map Portion.index).Nodup →
    handOutLeftover leftover ps assigned = some (assigned.mapIdx fun i units =>
      units + if i ∈ (ps.map Portion.index).take leftover then 1 else 0)
  | 0, ps, assigned, _, _ => congrArg some (ext_getElem (by simp) (by simp))
  | leftover + 1, [], assigned, enough, _ => absurd enough (by simp)
  | leftover + 1, p :: rest, assigned, enough, distinct => by
    rw [map_cons, nodup_cons] at distinct
    rw [handOutLeftover, handOutLeftover_eq leftover rest _ (by simpa using enough) distinct.2]
    refine congrArg some (ext_getElem (by simp) fun i low high => ?_)
    have later : p.index ∉ (rest.map Portion.index).take leftover := fun member =>
      distinct.1 (mem_of_mem_take member)
    simp only [getElem_mapIdx, getElem_modify, map_cons, take_succ_cons,
      mem_cons]
    by_cases here : p.index = i
    · subst here
      simp [later]
    · simp [here, Ne.symm here]

/-- The clusters in the order the shares come back in. -/
def clusters (weights : List Weight) : List String :=
  (weights.map Weight.cluster).insertionSort (· ≤ ·)

theorem clusters_perm (weights : List Weight) :
    (clusters weights).Perm (weights.map Weight.cluster) :=
  perm_insertionSort _ _

namespace Splittable

variable {weights : List Weight} (splittable : Splittable weights) (units : Nat)

include splittable

/-- The portions in the order units are handed out in. -/
def sorted (splittable : Splittable weights) (units : Nat) : List Portion :=
  (portions units (splittable.split units).basis
    (weights.map fun w => unitsAt w.capacity (weightScale weights))).insertionSort
    (Precedes weights)

theorem mem_sorted {p : Portion} (member : p ∈ splittable.sorted units) :
    ∃ low : p.index < weights.length,
      p.remainder = ((splittable.split units).rest weights[p.index].cluster : Int) := by
  rw [sorted, mem_insertionSort, splittable.portions_eq units, mem_mapIdx] at member
  obtain ⟨i, low, rfl⟩ := member
  exact ⟨low, rfl⟩

theorem sorted_indices : ((splittable.sorted units).map Portion.index).Perm
    (List.range weights.length) := by
  refine ((perm_insertionSort _ _).map _).trans (.of_eq ?_)
  rw [splittable.portions_eq units]
  exact ext_getElem (by simp) (by simp)

theorem sorted_clusters : ((splittable.sorted units).map Portion.index).map (clusterAt weights) =
    (splittable.split units).order := by
  have names : (portions units (splittable.split units).basis
      (weights.map fun w => unitsAt w.capacity (weightScale weights))).map
      (fun p => clusterAt weights p.index) = weights.map Weight.cluster := by
    rw [splittable.portions_eq units]
    refine ext_getElem (by simp) fun i _ high => ?_
    have low : i < weights.length := by simpa using high
    simp [clusterAt_getElem low]
  rw [map_map, Split.order]
  change _ = (weights.map Weight.cluster).insertionSort _
  rw [← names]
  refine map_insertionSort _ _ _ _ fun a first b second => ?_
  obtain ⟨low, remainder⟩ := splittable.mem_sorted units
    ((mem_insertionSort (Precedes weights)).mpr first)
  obtain ⟨low', remainder'⟩ := splittable.mem_sorted units
    ((mem_insertionSort (Precedes weights)).mpr second)
  simp only [Function.comp_apply, Precedes, Split.Ahead, clusterAt_getElem low,
    clusterAt_getElem low', remainder, remainder', Nat.cast_lt, Nat.cast_inj]

theorem served_iff {i : Nat} (low : i < weights.length) :
    i ∈ ((splittable.sorted units).map Portion.index).take (splittable.split units).leftover ↔
      weights[i].cluster ∈ (splittable.split units).served := by
  have served : (splittable.split units).served = (((splittable.sorted units).map
      Portion.index).take (splittable.split units).leftover).map (clusterAt weights) := by
    rw [Split.served, ← splittable.sorted_clusters units, map_take]
  rw [served, mem_map]
  constructor
  · intro member
    exact ⟨i, member, clusterAt_getElem low⟩
  · rintro ⟨j, member, same⟩
    have low' : j < weights.length := mem_range.mp
      ((splittable.sorted_indices units).mem_iff.mp (mem_of_mem_take member))
    rw [clusterAt_getElem low'] at same
    have listed : i < (weights.map Weight.cluster).length := by simpa
    have listed' : j < (weights.map Weight.cluster).length := by simpa
    have named : (weights.map Weight.cluster)[j] = (weights.map Weight.cluster)[i] := by
      simpa using same
    exact splittable.distinct.getElem_inj_iff.mp named ▸ member

/-- **The loop finds a portion for every unit left**, and ends with the shares. -/
theorem handOutLeftover_share :
    handOutLeftover (splittable.split units).leftover (splittable.sorted units)
      (weights.map fun w => ((splittable.split units).floor w.cluster : Int)) =
      some (weights.map fun w => ((splittable.split units).share w.cluster : Int)) := by
  have indices := splittable.sorted_indices units
  rw [handOutLeftover_eq _ _ _ ?enough ?distinct]
  case enough =>
    have enough := (splittable.split units).leftover_le_length
    have length := indices.length_eq
    rw [length_map, length_range] at length
    rw [length]
    exact enough.trans_eq (length_map _)
  case distinct => exact indices.nodup_iff.mpr nodup_range
  refine congrArg some (ext_getElem (by simp) fun i _ high => ?_)
  have low : i < weights.length := by simpa using high
  simp only [getElem_mapIdx, getElem_map, splittable.served_iff units low, Split.share,
    Nat.cast_add, Nat.cast_ite, Nat.cast_one, Nat.cast_zero]

end Splittable

/-- **The result of a split**: the shares of the `Split`, by cluster name. -/
theorem proportional_eq {weights : List Weight} (splittable : Splittable weights)
    {total : Quantity} (nonneg : 0 ≤ total.dec.value) :
    proportional total weights = some (.ok ((clusters weights).map fun name =>
      ⟨name, quantityAt ((splittable.split total.dec.unscaled.toNat).share name)
        (decScale total) total.format⟩)) := by
  have whole := total.dec.value_nonneg.mp nonneg
  obtain ⟨w, member, -⟩ := splittable.exists_capacity
  have units : total.dec.unscaled = (total.dec.unscaled.toNat : Int) :=
    (Int.toNat_of_nonneg whole).symm
  have basis := splittable.basis_eq total.dec.unscaled.toNat
  have positive := (splittable.split total.dec.unscaled.toNat).basis_pos
  change 0 < (splittable.split total.dec.unscaled.toNat).basis at positive
  have left : (total.dec.unscaled - (weights.map fun w =>
      ((splittable.split total.dec.unscaled.toNat).floor w.cluster : Int)).sum).toNat =
      (splittable.split total.dec.unscaled.toNat).leftover := by
    rw [splittable.sum_floors, Split.leftover]
    change _ = total.dec.unscaled.toNat - _
    omega
  have run := splittable.handOutLeftover_share total.dec.unscaled.toNat
  have first := splittable.floors_eq total.dec.unscaled.toNat
  rw [← units] at first
  rw [Splittable.sorted, ← units] at run
  rw [proportional, if_neg (ne_nil_of_mem member), if_neg (not_lt.mpr whole),
    (checkWeights_eq_none weights []).mpr ⟨splittable.named, splittable.distinct,
      fun w => splittable.unscaled_nonneg, by simp⟩]
  simp only [unitsAt_decScale, basis, first, left, run]
  rw [if_neg (by omega)]
  refine congrArg (some ∘ Except.ok) ?_
  rw [clusters, map_insertionSort _ (fun a b : Share => a.cluster ≤ b.cluster) _ _
    (fun _ _ _ _ => Iff.rfl), map_map]
  congr 1
  exact ext_getElem (by simp) (by simp)

/-- **A split is refused, or there is something to split by.** -/
theorem proportional_cases (total : Quantity) (weights : List Weight) :
    (∃ e, proportional total weights = some (.error e)) ∨
      Splittable weights ∧ 0 ≤ total.dec.value := by
  rw [proportional]
  split
  · exact .inl ⟨_, rfl⟩
  split
  · exact .inl ⟨_, rfl⟩
  rename_i whole
  split
  · exact .inl ⟨_, rfl⟩
  rename_i checked
  obtain ⟨named, distinct, unscaled, -⟩ := (checkWeights_eq_none weights []).mp checked
  dsimp only
  split
  · exact .inl ⟨_, rfl⟩
  rename_i basis
  have nonneg (w : Weight) (member : w ∈ weights) : 0 ≤ w.capacity.dec.value :=
    w.capacity.dec.value_nonneg.mpr (unscaled w member)
  refine .inr ⟨⟨named, distinct, nonneg, ?_⟩, total.dec.value_nonneg.mpr (not_lt.mp whole)⟩
  obtain ⟨w, member, some⟩ : ∃ w ∈ weights, w.capacity.dec.unscaled ≠ 0 := by
    by_contra idle
    push Not at idle
    refine basis (sum_eq_zero fun units listed => ?_)
    obtain ⟨w, member, rfl⟩ := mem_map.mp listed
    exact (unitsAt_eq_zero _).mpr (idle w member)
  have positive : 0 < w.capacity.dec.value :=
    lt_of_le_of_ne (nonneg w member) (Ne.symm (mt w.capacity.dec.value_eq_zero.mp some))
  refine positive.trans_le (single_le_sum (fun x listed => ?_) _
    (mem_map_of_mem member))
  obtain ⟨v, other, rfl⟩ := mem_map.mp listed
  exact nonneg v other

end Ome.Quota
