/-
# Ome.Quota.Conservation — a proportional split conserves the budget

What `proportional` returns, against the rational values of the quantities: the
shares add up to the total, each is a whole number of the total's own unit and
less than one unit from its exact part, and the result depends on neither the
order of the clusters nor a common factor of the capacities.

The capacities are brought to one scale by `unitsAt`, whose shift is an `int32`.
A capacity more than `2 ^ 31 - 1` digits coarser than the finest one is not
shifted at all (`value_wraps`), so the split is by other proportions than the
capacities have.  `Aligned` says when this does not happen or does not matter, and
`aligned_iff` that it is exactly when the numbers the code reads are the
capacities times one factor.

* `near_exact_iff`: the split of every total is near exact iff the list is aligned;
* `proportional_perm`: the result does not depend on the order of the list;
* `proportional_rescaled`: nor, between aligned lists, on a common factor;
* `proportional_follows_unit`: it depends on the value of the total and on the unit it
  is written in, so a thousand written `1k` is not split (`thousand_not_split`).
-/
import Ome.Quota.Shares
import Mathlib.Algebra.BigOperators.Ring.Finset
import Mathlib.Algebra.Order.Archimedean.Basic

namespace Ome.Quota

open Ome.Theory Decimal Weight List

set_option autoImplicit false

variable {w : Weight} {total : Quantity}
variable {weights' : List Weight} {factor : ℚ}

/-! ## The scale of the capacities -/

theorem foldl_scale : ∀ (weights : List Weight) (scale : Int32),
    let largest := weights.foldl
      (fun scale w => if scale < decScale w.capacity then decScale w.capacity else scale) scale
    scale.toInt ≤ largest.toInt ∧
      (∀ w ∈ weights, (decScale w.capacity).toInt ≤ largest.toInt) ∧
      (largest = scale ∨ ∃ w ∈ weights, largest = decScale w.capacity)
  | [], scale => by simp
  | w :: rest, scale => by
    obtain ⟨above, bound, attained⟩ := foldl_scale rest
      (if scale < decScale w.capacity then decScale w.capacity else scale)
    simp only [foldl_cons, forall_mem_cons, exists_mem_cons_iff]
    generalize rest.foldl _ _ = largest at above bound attained ⊢
    by_cases finer : scale < decScale w.capacity
    · rw [if_pos finer] at above attained
      have := Int32.lt_iff_toInt_lt.mp finer
      exact ⟨by omega, ⟨above, bound⟩, .inr attained⟩
    · rw [if_neg finer] at above attained
      have := mt Int32.lt_iff_toInt_lt.mpr finer
      exact ⟨above, ⟨by omega, bound⟩, attained.imp_right .inr⟩

theorem le_weightScale {weights : List Weight} (member : w ∈ weights) :
    (decScale w.capacity).toInt ≤ (weightScale weights).toInt :=
  (foldl_scale weights 0).2.1 w member

theorem weightScale_mono {weights : List Weight} (subset : weights ⊆ weights') :
    (weightScale weights).toInt ≤ (weightScale weights').toInt := by
  obtain ⟨-, -, zero | ⟨w, member, attained⟩⟩ := foldl_scale weights 0
  · rw [weightScale, zero]
    exact (foldl_scale weights' 0).1
  · rw [weightScale, attained]
    exact le_weightScale (subset member)

theorem weightScale_perm {weights : List Weight} (perm : weights'.Perm weights) :
    weightScale weights' = weightScale weights :=
  Int32.toInt_inj.mp
    (le_antisymm (weightScale_mono perm.subset) (weightScale_mono perm.symm.subset))

/-! ## Units -/

/-- The digits a capacity is coarser than the finest one. -/
def shiftOf (weights : List Weight) (w : Weight) : Int :=
  (weightScale weights).toInt - (decScale w.capacity).toInt

theorem shiftOf_nonneg {weights : List Weight} (member : w ∈ weights) : 0 ≤ shiftOf weights w :=
  Int.sub_nonneg_of_le (le_weightScale member)

theorem toInt_shift (weights : List Weight) (w : Weight) :
    (weightScale weights - decScale w.capacity).toInt = (shiftOf weights w).bmod (2 ^ 32) :=
  Int32.toInt_sub _ _

theorem value_unitsAt {weights : List Weight} (member : w ∈ weights)
    (fits : shiftOf weights w < 2 ^ 31) :
    w.capacity.dec.value =
      unit (weightScale weights) * unitsAt w.capacity (weightScale weights) := by
  have nonneg := shiftOf_nonneg member
  have register : (weightScale weights - decScale w.capacity).toInt = shiftOf weights w := by
    rw [toInt_shift]
    exact Int.bmod_eq_of_le (by omega) (by omega)
  have sign : 0 < weightScale weights - decScale w.capacity ↔ 0 < shiftOf weights w := by
    rw [Int32.lt_iff_toInt_lt, register, Int32.toInt_zero]
  have units : unitsAt w.capacity (weightScale weights) =
      w.capacity.dec.unscaled * 10 ^ (shiftOf weights w).toNat := by
    rw [unitsAt]
    by_cases coarser : 0 < shiftOf weights w
    · rw [if_pos (sign.mpr coarser), register]
    · have level : (shiftOf weights w).toNat = 0 := by omega
      rw [if_neg (mt sign.mp coarser), level, pow_zero, mul_one]
  rw [units, mul_comm]
  refine w.capacity.dec.value_finer ?_
  rw [Int.toNat_of_nonneg nonneg, shiftOf, decScale]
  omega

/-- A shift that does not fit is negative in the register, and nothing is shifted. -/
theorem value_wraps {weights : List Weight} (wide : 2 ^ 31 ≤ shiftOf weights w) :
    w.capacity.dec.value =
      unit (decScale w.capacity) * unitsAt w.capacity (weightScale weights) := by
  have bound : shiftOf weights w < 2 ^ 32 := by
    have low := (decScale w.capacity).le_toInt
    have high := (weightScale weights).toInt_lt
    rw [shiftOf]
    omega
  have register : (weightScale weights - decScale w.capacity).toInt =
      shiftOf weights w - (2 ^ 32 : Nat) := by
    rw [toInt_shift, ← Int.sub_bmod_right]
    exact Int.bmod_eq_of_le (by omega) (by omega)
  rw [unitsAt, if_neg, mul_comm]
  · rfl
  · rw [Int32.lt_iff_toInt_lt, register, Int32.toInt_zero]
    omega

/-! ## Alignment -/

/-- No capacity is too coarse for its shift, or all capacities have one scale. -/
def Aligned (weights : List Weight) : Prop :=
  (∀ w ∈ weights, w.capacity.dec.unscaled ≠ 0 → shiftOf weights w < 2 ^ 31) ∨
    ∀ w ∈ weights, ∀ v ∈ weights, w.capacity.dec.unscaled ≠ 0 → v.capacity.dec.unscaled ≠ 0 →
      decScale w.capacity = decScale v.capacity

/-- The capacities are the numbers the split reads, times one factor. -/
def InProportion (weights : List Weight) (factor : ℚ) : Prop :=
  0 < factor ∧ ∀ w ∈ weights,
    w.capacity.dec.value = factor * unitsAt w.capacity (weightScale weights)

variable {weights : List Weight}

theorem inProportion_of_nonzero (positive : 0 < factor)
    (nonzero : ∀ w ∈ weights, w.capacity.dec.unscaled ≠ 0 →
      w.capacity.dec.value = factor * unitsAt w.capacity (weightScale weights)) :
    InProportion weights factor := by
  refine ⟨positive, fun w member => ?_⟩
  by_cases idle : w.capacity.dec.unscaled = 0
  · rw [(w.capacity.dec.value_eq_zero).mpr idle, (unitsAt_eq_zero _).mpr idle, Int.cast_zero,
      mul_zero]
  · exact nonzero w member idle

/-- **A list is aligned exactly when its capacities are read in proportion.** -/
theorem aligned_iff : Aligned weights ↔ ∃ factor, InProportion weights factor := by
  have narrow (fits : ∀ w ∈ weights, w.capacity.dec.unscaled ≠ 0 → shiftOf weights w < 2 ^ 31) :
      InProportion weights (unit (weightScale weights)) :=
    inProportion_of_nonzero (unit_pos _) fun w member nonzero =>
      value_unitsAt member (fits w member nonzero)
  by_cases fits : ∀ w ∈ weights, w.capacity.dec.unscaled ≠ 0 → shiftOf weights w < 2 ^ 31
  · exact iff_of_true (.inl fits) ⟨_, narrow fits⟩
  push Not at fits
  obtain ⟨w, member, nonzero, wide⟩ := fits
  constructor
  · rintro (fits | level)
    · exact absurd (fits w member nonzero) (not_lt.mpr wide)
    · refine ⟨_, inProportion_of_nonzero (unit_pos (decScale w.capacity)) ?_⟩
      intro v listed nonzero'
      have same := level w member v listed nonzero nonzero'
      rw [same]
      exact value_wraps (by rwa [shiftOf, ← same])
  · rintro ⟨factor, positive, inProportion⟩
    have read {v : Weight} (listed : v ∈ weights) (nonzero' : v.capacity.dec.unscaled ≠ 0)
        {unit : ℚ} (value : v.capacity.dec.value = unit *
          unitsAt v.capacity (weightScale weights)) : factor = unit := by
      have units : (unitsAt v.capacity (weightScale weights) : ℚ) ≠ 0 := by
        exact_mod_cast mt (unitsAt_eq_zero _).mp nonzero'
      exact mul_right_cancel₀ units ((inProportion v listed).symm.trans value)
    have here := read member nonzero (value_wraps wide)
    -- Another capacity has this factor only at this scale.
    have level : ∀ v ∈ weights, v.capacity.dec.unscaled ≠ 0 →
        decScale v.capacity = decScale w.capacity := by
      intro v listed nonzero'
      rcases lt_or_ge (shiftOf weights v) (2 ^ 31) with narrow | wide'
      · have same := unit_inj.mp
          (here.symm.trans (read listed nonzero' (value_unitsAt listed narrow)))
        rw [shiftOf, same] at wide
        omega
      · have same := read listed nonzero' (value_wraps wide')
        exact (unit_inj.mp (here.symm.trans same)).symm
    exact .inr fun v listed u listed' nonzero' nonzero'' =>
      (level v listed nonzero').trans (level u listed' nonzero'').symm

/-! ## Shares and exact parts -/

def capacitySum (weights : List Weight) : ℚ := (weights.map fun w => w.capacity.dec.value).sum

/-- The fraction of a total that a capacity earns. -/
def fraction (weights : List Weight) (w : Weight) : ℚ :=
  w.capacity.dec.value / capacitySum weights

namespace Splittable

variable (splittable : Splittable weights) (units : Nat)

include splittable

theorem share_near (member : w ∈ weights) :
    |((splittable.split units).share w.cluster : ℚ) -
      units * (unitsAt w.capacity (weightScale weights) / (splittable.split units).basis)| < 1 := by
  have read : (unitsAt w.capacity (weightScale weights) : ℚ) =
      (splittable.split units).weight w.cluster := by
    exact_mod_cast (splittable.weightOf_cluster member).symm
  rw [read]
  exact (splittable.split units).share_near w.cluster

theorem cast_basis : ((splittable.split units).basis : ℚ) =
    (weights.map fun w => (unitsAt w.capacity (weightScale weights) : ℚ)).sum := by
  have sum := congrArg (Int.cast : Int → ℚ) (splittable.basis_eq units)
  rw [Int.cast_list_sum, map_map] at sum
  exact_mod_cast sum.symm

/-- Capacities read in proportion earn the fractions that the split reads. -/
theorem fraction_eq (inProportion : InProportion weights factor)
    (member : w ∈ weights) : fraction weights w =
      unitsAt w.capacity (weightScale weights) / (splittable.split units).basis := by
  have sum : capacitySum weights = factor * (splittable.split units).basis := by
    rw [capacitySum, splittable.cast_basis, ← sum_map_mul_left]
    exact congrArg List.sum (map_congr_left inProportion.2)
  rw [fraction, sum, inProportion.2 w member, mul_div_mul_left _ _ inProportion.1.ne']

/-- The fractions of a list determine its proportions. -/
theorem inProportion_of_fraction (equal : ∀ w ∈ weights, fraction weights w =
      unitsAt w.capacity (weightScale weights) / (splittable.split units).basis) :
    ∃ factor, InProportion weights factor := by
  have positive : (0 : ℚ) < (splittable.split units).basis := by
    exact_mod_cast (splittable.split units).basis_pos
  have sum : 0 < capacitySum weights := splittable.pos
  refine ⟨capacitySum weights / (splittable.split units).basis, div_pos sum positive, ?_⟩
  intro w member
  have here := equal w member
  rw [fraction, div_eq_iff sum.ne'] at here
  rw [here]
  ring

end Splittable

/-- What a caller may expect of the shares of a total. -/
structure Conserves (total : Quantity) (weights : List Weight) (shares : List Share) : Prop where
  names : shares.map Share.cluster = clusters weights
  /-- They add up to the total. -/
  sum : (shares.map fun s => s.nominal.dec.value).sum = total.dec.value
  /-- Each is a whole number of the total's own unit. -/
  unit : ∀ s ∈ shares, decScale s.nominal = decScale total ∧ s.nominal.format = total.format
  /-- Each is less than one such unit from its exact part. -/
  near : ∀ s ∈ shares, ∀ w ∈ weights, w.cluster = s.cluster →
    |s.nominal.dec.value - total.dec.value * w.capacity.dec.value / capacitySum weights| <
      Decimal.unit (decScale total)
  zero : ∀ s ∈ shares, ∀ w ∈ weights, w.cluster = s.cluster → w.capacity.dec.value = 0 →
    s.nominal.dec.value = 0

theorem near_iff (nonneg : 0 ≤ total.dec.value) (units : Nat) (w : Weight) :
    |(quantityAt units (decScale total) total.format).dec.value -
        total.dec.value * w.capacity.dec.value / capacitySum weights| <
      unit (decScale total) ↔
    |(units : ℚ) - total.dec.unscaled.toNat * fraction weights w| < 1 := by
  have positive := unit_pos (decScale total)
  have whole : ((total.dec.unscaled.toNat : Nat) : ℚ) = (total.dec.unscaled : ℚ) := by
    exact_mod_cast Int.toNat_of_nonneg (total.dec.value_nonneg.mp nonneg)
  have scaled : (quantityAt units (decScale total) total.format).dec.value -
      total.dec.value * w.capacity.dec.value / capacitySum weights =
      ((units : ℚ) - total.dec.unscaled.toNat * fraction weights w) *
        unit (decScale total) := by
    rw [quantityAt, value, value, whole, fraction, decScale, Int.cast_natCast]
    ring
  rw [scaled, abs_mul, abs_of_pos positive, mul_lt_iff_lt_one_left positive]

/-- Two fractions that no number of units tells apart are equal. -/
theorem eq_of_near {x y : ℚ} (near : ∀ n : Nat, ∃ k : ℚ, |k - n * x| < 1 ∧ |k - n * y| < 1) :
    x = y := by
  by_contra apart
  have distance : 0 < |x - y| := abs_pos.mpr (sub_ne_zero.mpr apart)
  obtain ⟨n, large⟩ := exists_nat_gt (2 / |x - y|)
  rw [div_lt_iff₀ distance] at large
  obtain ⟨k, first, second⟩ := near n
  have bound : (n : ℚ) * |x - y| < 2 :=
    calc (n : ℚ) * |x - y|
        = |(k - n * y) - (k - n * x)| := by
          rw [← Nat.abs_cast, ← abs_mul, Nat.abs_cast]
          congr 1
          ring
      _ ≤ |k - n * y| + |k - n * x| := abs_sub _ _
      _ < 2 := by linarith
  linarith

namespace Splittable

variable (splittable : Splittable weights)

include splittable

theorem sum_nominal (nonneg : 0 ≤ total.dec.value) :
    ((clusters weights).map fun name => (quantityAt
      ((splittable.split total.dec.unscaled.toNat).share name)
        (decScale total) total.format).dec.value).sum = total.dec.value := by
  have sum : (((weights.map cluster).map
      (splittable.split total.dec.unscaled.toNat).share).sum : ℚ) = total.dec.unscaled := by
    have whole := (splittable.split total.dec.unscaled.toNat).sum_share
    change ((weights.map cluster).map _).sum = total.dec.unscaled.toNat at whole
    rw [whole]
    exact_mod_cast Int.toNat_of_nonneg (total.dec.value_nonneg.mp nonneg)
  calc ((clusters weights).map fun name => (quantityAt
        ((splittable.split total.dec.unscaled.toNat).share name)
          (decScale total) total.format).dec.value).sum
      = ((clusters weights).map fun name =>
          ((splittable.split total.dec.unscaled.toNat).share name : ℚ) *
            unit (decScale total)).sum := by
        simp only [quantityAt, value, Int.cast_natCast]
    _ = ((weights.map cluster).map fun name =>
          ((splittable.split total.dec.unscaled.toNat).share name : ℚ)).sum *
            unit (decScale total) := by
        rw [sum_map_mul_right, ((clusters_perm weights).map _).sum_eq]
    _ = total.dec.value := by
        rw [value, ← sum, Nat.cast_list_sum]
        simp only [map_map]
        rfl

/-- What the split gives whatever the scales are. -/
theorem conserves (nonneg : 0 ≤ total.dec.value)
    (near : ∀ w ∈ weights, |((splittable.split total.dec.unscaled.toNat).share w.cluster : ℚ) -
      total.dec.unscaled.toNat * fraction weights w| < 1) :
    Conserves total weights ((clusters weights).map fun name =>
      ⟨name, quantityAt ((splittable.split total.dec.unscaled.toNat).share name)
        (decScale total) total.format⟩) where
  names := by
    rw [map_map]
    exact map_id _
  sum := by
    rw [map_map]
    exact splittable.sum_nominal nonneg
  unit := by
    intro s member
    obtain ⟨name, -, rfl⟩ := mem_map.mp member
    exact ⟨rfl, rfl⟩
  near := by
    intro s member w listed same
    obtain ⟨name, -, rfl⟩ := mem_map.mp member
    subst same
    exact (near_iff nonneg _ w).mpr (near w listed)
  zero := by
    intro s member w listed same idle
    obtain ⟨name, -, rfl⟩ := mem_map.mp member
    subst same
    have none : weightOf weights w.cluster = 0 := by
      have read := splittable.weightOf_cluster listed
      rw [(unitsAt_eq_zero _).mpr (w.capacity.dec.value_eq_zero.mp idle)] at read
      exact_mod_cast read
    have earned := (splittable.split total.dec.unscaled.toNat).share_zero none
    simp [quantityAt, value, earned]

/-- **The split of every total is near exact iff the list is aligned.** -/
theorem near_exact_iff :
    (∀ total : Quantity, 0 ≤ total.dec.value → ∃ shares,
      proportional total weights = some (.ok shares) ∧ Conserves total weights shares) ↔
    Aligned weights := by
  rw [aligned_iff]
  constructor
  · intro conserves
    -- Whole totals alone tell the fractions of any two lists apart.
    refine splittable.inProportion_of_fraction 0 fun w member => ?_
    refine eq_of_near fun n => ?_
    have nonneg : 0 ≤ (quantityAt n 0 .decimalSI).dec.value :=
      (value_nonneg _).mpr (Int.natCast_nonneg n)
    obtain ⟨shares, run, conserved⟩ := conserves (quantityAt n 0 .decimalSI) nonneg
    rw [proportional_eq splittable nonneg, Option.some.injEq, Except.ok.injEq] at run
    subst run
    have listed : w.cluster ∈ clusters weights :=
      (clusters_perm weights).mem_iff.mpr (mem_map_of_mem member)
    have near := conserved.near _ (mem_map_of_mem listed) w member rfl
    exact ⟨_, (near_iff nonneg _ w).mp near, splittable.share_near n member⟩
  · rintro ⟨factor, inProportion⟩ total nonneg
    refine ⟨_, proportional_eq splittable nonneg, splittable.conserves nonneg fun w member => ?_⟩
    rw [splittable.fraction_eq total.dec.unscaled.toNat inProportion member]
    exact splittable.share_near _ member

end Splittable

/-! ## Order and common factors -/

theorem clusters_eq_of_perm (perm : (weights'.map cluster).Perm (weights.map cluster)) :
    clusters weights' = clusters weights :=
  List.Perm.eq_of_pairwise (fun _ _ _ _ => le_antisymm) (pairwise_insertionSort _ _)
    (pairwise_insertionSort _ _)
    ((clusters_perm weights').trans (perm.trans (clusters_perm weights).symm))

theorem proportional_alike (splittable : Splittable weights)
    (splittable' : Splittable weights') {c c' : Nat}
    (alike : ∀ units, Split.Alike (splittable.split units) (splittable'.split units) c c')
    (nonneg : 0 ≤ total.dec.value) :
    proportional total weights' = proportional total weights := by
  have names : clusters weights' = clusters weights := clusters_eq_of_perm (alike 0).names_perm
  rw [proportional_eq splittable nonneg, proportional_eq splittable' nonneg, names]
  refine congrArg (some ∘ Except.ok) (map_congr_left fun name member => ?_)
  rw [(alike _).share_eq ((clusters_perm weights).mem_iff.mp member)]

theorem Splittable.perm (splittable : Splittable weights)
    (perm : weights'.Perm weights) : Splittable weights' where
  named := fun w member => splittable.named w (perm.mem_iff.mp member)
  distinct := (perm.map _).nodup_iff.mpr splittable.distinct
  nonneg := fun w member => splittable.nonneg w (perm.mem_iff.mp member)
  pos := by
    rw [(perm.map _).sum_eq]
    exact splittable.pos

/-- **The result does not depend on the order of the list.** -/
theorem proportional_perm (splittable : Splittable weights) (perm : weights'.Perm weights)
    (nonneg : 0 ≤ total.dec.value) : proportional total weights' = proportional total weights := by
  have alike (units : Nat) :
      Split.Alike (splittable.split units) ((splittable.perm perm).split units) 1 1 := by
    refine ⟨rfl, perm.map _, Nat.one_pos, Nat.one_pos, fun name listed => ?_⟩
    obtain ⟨w, member, rfl⟩ := mem_map.mp listed
    have read := splittable.weightOf_cluster member
    have read' := (splittable.perm perm).weightOf_cluster (perm.mem_iff.mpr member)
    rw [weightScale_perm perm] at read'
    change 1 * weightOf weights w.cluster = 1 * weightOf weights' w.cluster
    omega
  exact proportional_alike splittable (splittable.perm perm) alike nonneg

/-- The same clusters with capacities times one factor. -/
structure Rescaled (weights weights' : List Weight) (factor : ℚ) : Prop where
  pos : 0 < factor
  each : List.Forall₂ (fun w w' => w'.cluster = w.cluster ∧
    w'.capacity.dec.value = factor * w.capacity.dec.value) weights weights'

namespace Rescaled

variable (rescaled : Rescaled weights weights' factor)

include rescaled

theorem names : weights'.map cluster = weights.map cluster := by
  obtain ⟨-, each⟩ := rescaled
  induction each with
  | nil => rfl
  | cons here _ ih => rw [map_cons, map_cons, here.1, ih]

theorem sum : capacitySum weights' = factor * capacitySum weights := by
  obtain ⟨-, each⟩ := rescaled
  simp only [capacitySum]
  induction each with
  | nil => simp
  | cons here _ ih =>
    rw [map_cons, map_cons, sum_cons, sum_cons, here.2, ih, mul_add]

theorem before {w' : Weight} (member : w' ∈ weights') : ∃ w ∈ weights,
    w'.cluster = w.cluster ∧ w'.capacity.dec.value = factor * w.capacity.dec.value := by
  obtain ⟨-, each⟩ := rescaled
  induction each with
  | nil => cases member
  | cons here _ ih =>
    rcases mem_cons.mp member with rfl | later
    · exact ⟨_, mem_cons_self, here⟩
    · obtain ⟨w, listed, same⟩ := ih later
      exact ⟨w, mem_cons_of_mem _ listed, same⟩

theorem fraction_eq {w' : Weight} (value : w'.capacity.dec.value = factor * w.capacity.dec.value) :
    fraction weights' w' = fraction weights w := by
  rw [fraction, fraction, rescaled.sum, value, mul_div_mul_left _ _ rescaled.pos.ne']

theorem splittable (splittable : Splittable weights) : Splittable weights' where
  named := by
    intro w' member
    obtain ⟨w, listed, same, -⟩ := rescaled.before member
    exact same ▸ splittable.named w listed
  distinct := rescaled.names ▸ splittable.distinct
  nonneg := by
    intro w' member
    obtain ⟨w, listed, -, value⟩ := rescaled.before member
    rw [value]
    exact mul_nonneg rescaled.pos.le (splittable.nonneg w listed)
  pos := by
    change 0 < capacitySum weights'
    rw [rescaled.sum]
    exact mul_pos rescaled.pos splittable.pos

/-- What is expected of the shares does not depend on the factor. -/
theorem conserves {shares : List Share}
    (conserves : Conserves total weights shares) : Conserves total weights' shares where
  names := by rw [conserves.names, clusters, clusters, rescaled.names]
  sum := conserves.sum
  unit := conserves.unit
  near := by
    intro s member w' listed named
    obtain ⟨w, listed', same, value⟩ := rescaled.before listed
    have near := conserves.near s member w listed' (same ▸ named)
    rw [mul_div_assoc] at near ⊢
    change |_ - _ * fraction weights' w'| < _
    rwa [rescaled.fraction_eq value]
  zero := by
    intro s member w' listed named idle
    obtain ⟨w, listed', same, value⟩ := rescaled.before listed
    rw [value] at idle
    exact conserves.zero s member w listed' (same ▸ named)
      ((mul_eq_zero.mp idle).resolve_left rescaled.pos.ne')

theorem alike (fleet : Splittable weights) (fleet' : Splittable weights') {scale scale' r : ℚ}
    (reads : InProportion weights scale) (reads' : InProportion weights' scale')
    (isRatio : r = factor * scale / scale') (units : Nat) :
    Split.Alike (fleet.split units) (fleet'.split units) r.num.toNat r.den := by
  have positive : 0 < r := isRatio ▸ div_pos (mul_pos rescaled.pos reads.1) reads'.1
  have numerator : 0 < r.num := Rat.num_pos.mpr positive
  refine ⟨rfl, .of_eq rescaled.names, by omega, Rat.den_pos _, fun name listed => ?_⟩
  have listed' : name ∈ weights'.map cluster := rescaled.names ▸ listed
  obtain ⟨w', member', rfl⟩ := mem_map.mp listed'
  obtain ⟨w, member, same, value⟩ := rescaled.before member'
  have read : (unitsAt w.capacity (weightScale weights) : ℚ) = weightOf weights w.cluster := by
    exact_mod_cast (fleet.weightOf_cluster member).symm
  have read' : (unitsAt w'.capacity (weightScale weights') : ℚ) =
      weightOf weights' w'.cluster := by
    exact_mod_cast (fleet'.weightOf_cluster member').symm
  have ratio : (weightOf weights' w'.cluster : ℚ) = r * weightOf weights w.cluster := by
    rw [isRatio, ← read, ← read', div_mul_eq_mul_div, eq_div_iff reads'.1.ne', mul_comm, mul_assoc,
      ← reads'.2 w' member', ← reads.2 w member, value]
  have whole : (r.num : ℚ) * weightOf weights w.cluster =
      r.den * weightOf weights' w'.cluster := by
    rw [ratio, ← mul_assoc, Rat.den_mul_eq_num]
  change _ * weightOf weights w'.cluster = _ * weightOf weights' w'.cluster
  rw [same] at whole ⊢
  have lifted : ((r.num.toNat : Int) : ℚ) = (r.num : ℚ) := by
    rw [Int.toNat_of_nonneg numerator.le]
  rw [← lifted] at whole
  exact_mod_cast whole

end Rescaled

/-- **Between aligned lists the result does not depend on a common factor**, and an
aligned list shares its result with no other. -/
theorem proportional_rescaled (splittable : Splittable weights) (aligned : Aligned weights)
    (rescaled : Rescaled weights weights' factor) :
    (∀ total : Quantity, 0 ≤ total.dec.value →
      proportional total weights' = proportional total weights) ↔ Aligned weights' := by
  have splittable' := rescaled.splittable splittable
  constructor
  · intro same
    refine splittable'.near_exact_iff.mp fun total nonneg => ?_
    obtain ⟨shares, run, conserves⟩ := splittable.near_exact_iff.mpr aligned total nonneg
    exact ⟨shares, (same total nonneg).trans run, rescaled.conserves conserves⟩
  · intro aligned' total nonneg
    obtain ⟨scale, reads⟩ := aligned_iff.mp aligned
    obtain ⟨scale', reads'⟩ := aligned_iff.mp aligned'
    exact proportional_alike splittable splittable'
      (rescaled.alike splittable splittable' reads reads' rfl) nonneg

/-! ## The contract -/

/-- **The budget is conserved exactly for aligned capacities.**  For named and
distinct clusters whose capacities are not negative and have a positive sum, every
total is split as `Conserves` says iff the list is aligned.  The result does not
depend on the order of the list, and between aligned lists not on a factor. -/
theorem proportional_conserves_iff (weights : List Weight) (splittable : Splittable weights) :
    ((∀ total : Quantity, 0 ≤ total.dec.value → ∃ shares,
        proportional total weights = some (.ok shares) ∧ Conserves total weights shares) ↔
      Aligned weights) ∧
    (∀ permuted : List Weight, permuted.Perm weights → ∀ total : Quantity, 0 ≤ total.dec.value →
      proportional total permuted = proportional total weights) ∧
    (Aligned weights → ∀ (multiplied : List Weight) (factor : ℚ),
      Rescaled weights multiplied factor →
      ((∀ total : Quantity, 0 ≤ total.dec.value →
        proportional total multiplied = proportional total weights) ↔ Aligned multiplied)) :=
  ⟨splittable.near_exact_iff,
    fun _ perm _ nonneg => proportional_perm splittable perm nonneg,
    fun aligned _ _ rescaled => proportional_rescaled splittable aligned rescaled⟩

theorem splittable_of_unscaled (named : ∀ w ∈ weights, w.cluster ≠ "")
    (distinct : (weights.map cluster).Nodup) (nonneg : ∀ w ∈ weights, 0 ≤ w.capacity.dec.unscaled)
    (positive : ∃ w ∈ weights, w.capacity.dec.unscaled ≠ 0) : Splittable weights where
  named := named
  distinct := distinct
  nonneg := fun w member => w.capacity.dec.value_nonneg.mpr (nonneg w member)
  pos := by
    obtain ⟨w, member, nonzero⟩ := positive
    have values : ∀ x ∈ weights.map fun w => w.capacity.dec.value, 0 ≤ x := by
      intro x listed
      obtain ⟨v, held, rfl⟩ := mem_map.mp listed
      exact v.capacity.dec.value_nonneg.mpr (nonneg v held)
    have here : 0 < w.capacity.dec.value :=
      lt_of_le_of_ne (w.capacity.dec.value_nonneg.mpr (nonneg w member))
        (Ne.symm (mt w.capacity.dec.value_eq_zero.mp nonzero))
    exact here.trans_le (single_le_sum values _ (mem_map_of_mem member))

/-- One and a half, ten and nothing, at three scales. -/
def mixedScales : List Weight :=
  [⟨"b", ⟨⟨15, 1⟩, .decimalSI⟩⟩, ⟨"a", ⟨⟨1, -1⟩, .decimalExponent⟩⟩, ⟨"c", ⟨⟨0, 3⟩, .binarySI⟩⟩]

/-- Four thousand thousandths over clusters that report at three scales. -/
theorem mixedScales_conserves : Aligned mixedScales ∧ ∃ shares,
    proportional (quantityAt 4000 3 .decimalSI) mixedScales = some (.ok shares) ∧
      Conserves (quantityAt 4000 3 .decimalSI) mixedScales shares := by
  have aligned : Aligned mixedScales := .inl (by decide)
  have splittable : Splittable mixedScales :=
    splittable_of_unscaled (by decide) (by decide) (by decide) (by decide)
  exact ⟨aligned, (proportional_conserves_iff mixedScales splittable).1.mpr aligned _
    ((value_nonneg _).mpr (by decide))⟩

/-- A tenth, and a one at another scale. -/
def tenthAndOne (scale : Int32) : List Weight :=
  [⟨"a", ⟨⟨1, 1⟩, .decimalSI⟩⟩, ⟨"b", ⟨⟨1, scale⟩, .decimalExponent⟩⟩]

/-- A tenth against one or more does not earn two of four. -/
theorem evenSplit_not_conserves {scale : Int32} (coarse : scale.toInt ≤ 0) :
    ¬ Conserves (quantityAt 4 0 .decimalSI) (tenthAndOne scale)
      [⟨"a", quantityAt 2 0 .decimalSI⟩, ⟨"b", quantityAt 2 0 .decimalSI⟩] := by
  intro conserves
  have near := conserves.near ⟨"a", quantityAt 2 0 .decimalSI⟩ mem_cons_self
    ⟨"a", ⟨⟨1, 1⟩, .decimalSI⟩⟩ mem_cons_self rfl
  have tenth : unit 1 = 1 / 10 := by
    rw [unit, show (1 : Int32).toInt = 1 from rfl]
    norm_num
  have one : unit 0 = 1 := by
    rw [unit, Int32.toInt_zero, neg_zero, zpow_zero]
  have large := one_le_unit coarse
  have sum : capacitySum (tenthAndOne scale) = 1 / 10 + unit scale := by
    simp [capacitySum, tenthAndOne, value, tenth]
  have earned : 4 * (1 / 10) / capacitySum (tenthAndOne scale) < 1 := by
    rw [sum, div_lt_one (by linarith)]
    linarith
  simp only [quantityAt, decScale, value, one, tenth, Int.cast_ofNat, Int.cast_one,
    mul_one, one_mul] at near
  rw [abs_sub_lt_iff] at near
  linarith

/-- **Capacities too far apart are split evenly.**  One with 2147483647 zeros is 2 ^ 31
digits coarser than a tenth: its shift wraps, both are read as one, and the cluster
that earns less than a unit of four is given two. -/
theorem farApart_splits_evenly : Splittable (tenthAndOne (-2147483647)) ∧
    proportional (quantityAt 4 0 .decimalSI) (tenthAndOne (-2147483647)) =
      some (.ok [⟨"a", quantityAt 2 0 .decimalSI⟩, ⟨"b", quantityAt 2 0 .decimalSI⟩]) ∧
    ¬ Conserves (quantityAt 4 0 .decimalSI) (tenthAndOne (-2147483647))
      [⟨"a", quantityAt 2 0 .decimalSI⟩, ⟨"b", quantityAt 2 0 .decimalSI⟩] :=
  ⟨splittable_of_unscaled (by decide) (by decide) (by decide) (by decide), by decide,
    evenSplit_not_conserves (by decide)⟩

/-! ## The unit a total is written in -/

theorem unit_le_one {scale : Int32} (fine : 0 ≤ scale.toInt) : unit scale ≤ 1 :=
  zpow_le_one_of_nonpos₀ (by norm_num) (by omega)

/-- Totals of one value, written in one unit, are one number of units. -/
theorem dec_eq_of_value {other : Quantity} (value : other.dec.value = total.dec.value)
    (unit : decScale other = decScale total) : other.dec = total.dec := by
  obtain ⟨⟨units, scale⟩, _⟩ := total
  obtain ⟨⟨units', scale'⟩, _⟩ := other
  obtain rfl : scale' = scale := unit
  have units_eq : (units' : ℚ) = units := mul_right_cancel₀ (unit_pos scale').ne' value
  rw [Int.cast_inj.mp units_eq]

/-- **A split follows the value of the total within the unit it is written in.**  Each
share is less than one such unit from its exact part, so less than one whole when
the unit is no coarser, and totals of equal value in one unit give equal shares. -/
theorem proportional_follows_unit (splittable : Splittable weights) (aligned : Aligned weights)
    (nonneg : 0 ≤ total.dec.value) :
    ∃ shares, proportional total weights = some (.ok shares) ∧
      (∀ s ∈ shares, ∀ w ∈ weights, w.cluster = s.cluster →
        let part := total.dec.value * w.capacity.dec.value / capacitySum weights
        |s.nominal.dec.value - part| < Decimal.unit (decScale total) ∧
          (0 ≤ (decScale total).toInt → |s.nominal.dec.value - part| < 1)) ∧
      ∀ other : Quantity, other.dec.value = total.dec.value → decScale other = decScale total →
        proportional other weights = some (.ok (shares.map fun s =>
          { s with nominal := { s.nominal with format := other.format } })) := by
  obtain ⟨shares, run, conserves⟩ := splittable.near_exact_iff.mpr aligned total nonneg
  refine ⟨shares, run, fun s member w listed same => ?_, fun other value unit => ?_⟩
  · have near := conserves.near s member w listed same
    exact ⟨near, fun fine => near.trans_le (unit_le_one fine)⟩
  · have dec := dec_eq_of_value value unit
    rw [proportional_eq splittable nonneg, Option.some.injEq, Except.ok.injEq] at run
    rw [proportional_eq splittable (value ▸ nonneg), dec, unit, ← run, map_map]
    rfl

/-- Two clusters of equal capacity. -/
def evenPair : List Weight :=
  [⟨"a", quantityAt 1 0 .decimalSI⟩, ⟨"b", quantityAt 1 0 .decimalSI⟩]

theorem evenPair_splittable : Splittable evenPair :=
  splittable_of_unscaled (by decide) (by decide) (by decide) (by decide)

theorem evenPair_follows_unit : ∃ shares,
    proportional (quantityAt 1000 0 .decimalSI) evenPair = some (.ok shares) ∧
      proportional (quantityAt 1000 0 .binarySI) evenPair = some (.ok (shares.map fun s =>
        { s with nominal := { s.nominal with format := .binarySI } })) := by
  obtain ⟨shares, run, -, alike⟩ := proportional_follows_unit evenPair_splittable
    (.inl (by decide)) ((value_nonneg (quantityAt 1000 0 .decimalSI).dec).mpr (by decide))
  exact ⟨shares, run, alike (quantityAt 1000 0 .binarySI) rfl rfl⟩

/-- **A thousand written `1k` is not split.**  It is one unit of a thousand, which the
first of two equal clusters is given, while `1000` is split into halves. -/
theorem thousand_not_split :
    (quantityAt 1 (-3) .decimalSI).dec.value = (quantityAt 1000 0 .decimalSI).dec.value ∧
    Splittable evenPair ∧ Aligned evenPair ∧
    proportional (quantityAt 1 (-3) .decimalSI) evenPair =
      some (.ok [⟨"a", quantityAt 1 (-3) .decimalSI⟩, ⟨"b", quantityAt 0 (-3) .decimalSI⟩]) ∧
    proportional (quantityAt 1000 0 .decimalSI) evenPair =
      some (.ok [⟨"a", quantityAt 500 0 .decimalSI⟩, ⟨"b", quantityAt 500 0 .decimalSI⟩]) ∧
    (quantityAt 1 (-3) .decimalSI).dec.value - (quantityAt 1 (-3) .decimalSI).dec.value *
      (quantityAt 1 0 .decimalSI).dec.value / capacitySum evenPair = 500 := by
  have thousand : (quantityAt 1 (-3) .decimalSI).dec.value = 1000 := by
    norm_num [quantityAt, value, unit, show (-3 : Int32).toInt = -3 by decide]
  have whole (units : Int) : (quantityAt units 0 .decimalSI).dec.value = units := by
    simp [quantityAt, value, unit]
  refine ⟨by rw [thousand, whole]; rfl, evenPair_splittable, .inl (by decide), by decide,
    by decide, ?_⟩
  rw [thousand, whole, capacitySum, evenPair, map_cons, map_cons, whole]
  norm_num

end Ome.Quota
