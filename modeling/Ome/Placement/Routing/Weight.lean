/-
# Ome.Placement.Routing.Weight — traffic weights

The model of `placement/routing/weight.go`.  The capacity of a cluster is what it
reports, or its routable replicas times a factor in thousandths; a conclusively
failed probe gates it to zero.  `weights` reduces the capacities to their smallest
whole-number ratio, and scales a ratio that exceeds what gateways accept.

The values are the exact rationals of `big.Rat`; a quantity is its decimal.  A
weight is read back from a `big.Int` through 64 and 32 bits.
-/
import Mathlib.Data.Rat.Floor
import Ome.Theory.Decimal
import Ome.Theory.MachineInt
import Ome.Theory.WholeRatio

namespace Ome.Placement.Routing

open Ome.Theory List

set_option autoImplicit false

def maxTrafficMapWeight : Nat := 1000000

inductive RoutingCapacityMode where
  | ceiling
  | reported
  | other (text : String)
  deriving DecidableEq

inductive AllFailedPolicy where
  | preserveTraffic
  | drain
  deriving DecidableEq

/-- The capacity inputs of one cluster. -/
structure ClusterCapacity where
  mode : RoutingCapacityMode
  reportedWeight : Option Decimal
  allocated : Int
  ready : Int
  factor : Option Decimal
  reported : Option Int
  reachable : Option Bool
  deriving DecidableEq

def ceilPositiveQuotient (numerator denominator : Int) : Int :=
  if 0 < numerator.tmod denominator then numerator.tdiv denominator + 1
  else numerator.tdiv denominator

/-- The factor in thousandths, rounded up; one for a missing or malformed factor. -/
def factorMilli : Option Decimal → Int
  | none => 1000
  | some q =>
    if q.unscaled ≤ 0 then 1000
    else if 0 ≤ 3 - q.scale.toInt then q.unscaled * 10 ^ (3 - q.scale.toInt).toNat
    else ceilPositiveQuotient q.unscaled (10 ^ (q.scale.toInt - 3).toNat)

def quantityRatio (q : Decimal) : ℚ :=
  if q.scale.toInt < 0 then ((q.unscaled * 10 ^ (-q.scale.toInt).toNat : Int) : ℚ)
  else (q.unscaled : ℚ) / ((10 ^ q.scale.toInt.toNat : Int) : ℚ)

namespace ClusterCapacity

variable (h : ClusterCapacity)

/-- The allocation under the reported ceiling; a negative report is malformed. -/
def effectiveAllocated : Int :=
  match h.reported with
  | none => h.allocated
  | some reported =>
    if h.allocated ≤ reported then h.allocated
    else if reported < 0 then h.allocated
    else reported

def routableReplicas : Int :=
  if h.ready < 0 then 0
  else if h.ready < h.effectiveAllocated then h.ready
  else h.effectiveAllocated

def usesReportedWeight : Bool := h.mode = .reported ∧ h.reportedWeight.isSome

def capacityValue : ℚ :=
  if h.usesReportedWeight then
    let weight := h.reportedWeight.getD ⟨0, 0⟩
    if weight.unscaled ≤ 0 then 0 else quantityRatio weight
  else if 0 < h.routableReplicas then
    ((h.routableReplicas * factorMilli h.factor : Int) : ℚ) / 1000
  else 0

/-- The probe conclusively failed, and counts. -/
def gated (ignoreProbeGates : Bool) : Bool := !ignoreProbeGates && h.reachable == some false

def gatedValue (ignoreProbeGates : Bool) : ℚ :=
  if h.gated ignoreProbeGates then 0 else h.capacityValue

end ClusterCapacity

variable (clusters : List ClusterCapacity)

def allProbesFailed : Bool :=
  clusters ≠ [] ∧ ∀ h ∈ clusters, h.reachable = some false

/-- The capacities as whole numbers of one unit, and what they have in common. -/
def rawWeights (ignoreProbeGates : Bool) : List Int × Nat :=
  let values := clusters.map (·.gatedValue ignoreProbeGates)
  let denominator := commonDenominator
    ((clusters.filter fun h => !h.gated ignoreProbeGates).map ClusterCapacity.capacityValue)
  let raw := overDenominator values denominator
  (raw, gcdAll raw)

def normalizeRawWeights (raw : List Int) (gcd : Nat) : List Int :=
  let raw : List Int := raw.map fun r => r.tdiv gcd
  let max := raw.foldl (fun max r => if max < r then r else max) 0
  raw.map fun r =>
    if r = 0 then 0
    else if max ≤ (maxTrafficMapWeight : Int) then wrap32 (wrap64 r)
    else wrap32 (wrap64 (ceilPositiveQuotient (r * maxTrafficMapWeight) max))

def weights (allFailedPolicy : AllFailedPolicy) : List Int :=
  if clusters = [] then []
  else
    let (raw, gcd) := rawWeights clusters false
    if gcd ≠ 0 then normalizeRawWeights raw gcd
    else if allFailedPolicy ≠ .preserveTraffic ∨ ¬ allProbesFailed clusters then
      List.replicate clusters.length 0
    else
      let (raw, gcd) := rawWeights clusters true
      if gcd = 0 then List.replicate clusters.length 0 else normalizeRawWeights raw gcd

/-! ## Capacities -/

theorem ceilPositiveQuotient_eq (numerator : Nat) {denominator : Nat} (positive : 0 < denominator) :
    ceilPositiveQuotient numerator denominator = ⌈(numerator : ℚ) / denominator⌉ := by
  have divisor : (0 : ℚ) < denominator := Nat.cast_pos.mpr positive
  have whole : (numerator : ℚ) = denominator * (numerator / denominator : Nat) +
      (numerator % denominator : Nat) := by exact_mod_cast (Nat.div_add_mod _ _).symm
  have small : ((numerator % denominator : Nat) : ℚ) < denominator :=
    Nat.cast_lt.mpr (Nat.mod_lt _ positive)
  rw [ceilPositiveQuotient, ← Int.ofNat_tmod, ← Int.ofNat_tdiv, eq_comm, Int.ceil_eq_iff,
    div_le_iff₀ divisor, lt_div_iff₀ divisor, whole]
  generalize numerator / denominator = quotient
  generalize numerator % denominator = rest at small
  split
  · rename_i some
    have some : (0 : ℚ) < rest := by exact_mod_cast some
    push_cast
    constructor <;> nlinarith
  · rename_i none
    have none : rest = 0 := by omega
    subst none
    push_cast
    constructor <;> nlinarith

theorem ceilPositiveQuotient_pos {numerator denominator : Nat} (some : 0 < numerator)
    (positive : 0 < denominator) : 0 < ceilPositiveQuotient numerator denominator := by
  rw [ceilPositiveQuotient_eq numerator positive, Int.ceil_pos]
  exact div_pos (Nat.cast_pos.mpr some) (Nat.cast_pos.mpr positive)

theorem factorMilli_pos (q : Option Decimal) : 0 < factorMilli q := by
  cases q with
  | none => decide
  | some q =>
    rw [factorMilli]
    split
    · decide
    rename_i positive
    have positive := Int.not_le.mp positive
    split
    · exact Int.mul_pos positive (Int.pow_pos (by decide))
    · have natural : q.unscaled = (q.unscaled.toNat : Int) :=
        (Int.toNat_of_nonneg positive.le).symm
      rw [natural]
      have divisor : 0 < 10 ^ (q.scale.toInt - 3).toNat := Nat.pow_pos (by decide : 0 < 10)
      exact_mod_cast ceilPositiveQuotient_pos (by omega) divisor

theorem quantityRatio_pos {q : Decimal} (positive : 0 < q.unscaled) : 0 < quantityRatio q := by
  rw [quantityRatio]
  split
  · push_cast
    positivity
  · push_cast
    positivity

theorem ClusterCapacity.capacityValue_nonneg (h : ClusterCapacity) : 0 ≤ h.capacityValue := by
  rw [capacityValue]
  split
  · dsimp only
    split
    · exact le_refl 0
    · rename_i positive
      exact (quantityRatio_pos (Int.not_le.mp positive)).le
  · split
    · rename_i some
      have product := Int.mul_pos some (factorMilli_pos h.factor)
      exact div_nonneg (by exact_mod_cast product.le) (by norm_num)
    · exact le_refl 0

theorem ClusterCapacity.gatedValue_nonneg (h : ClusterCapacity) (ignore : Bool) :
    0 ≤ h.gatedValue ignore := by
  rw [gatedValue]
  split
  · exact le_refl 0
  · exact h.capacityValue_nonneg

/-! ## Normalization -/

/-- The largest of some whole numbers. -/
def largest (ns : List Nat) : Nat := ns.foldl max 0

theorem foldl_max_mono : ∀ (ns : List Nat) (m : Nat),
    m ≤ ns.foldl max m ∧ (∀ n ∈ ns, n ≤ ns.foldl max m) ∧
      (ns.foldl max m = m ∨ ns.foldl max m ∈ ns)
  | [], m => by simp
  | n :: rest, m => by
    obtain ⟨above, all, attained⟩ := foldl_max_mono rest (max m n)
    rw [foldl_cons, forall_mem_cons, mem_cons]
    refine ⟨(le_max_left m n).trans above, ⟨(le_max_right m n).trans above, all⟩, ?_⟩
    rcases attained with start | later
    · rcases max_choice m n with left | right
      · exact .inl (start.trans left)
      · exact .inr (.inl (start.trans right))
    · exact .inr (.inr later)

theorem le_largest {ns : List Nat} {n : Nat} (member : n ∈ ns) : n ≤ largest ns :=
  (foldl_max_mono ns 0).2.1 n member

theorem largest_mem {ns : List Nat} (some : 0 < largest ns) : largest ns ∈ ns :=
  (foldl_max_mono ns 0).2.2.resolve_left some.ne'

/-- What is published for a whole number of a ratio, given the largest one. -/
def published (top n : Nat) : Int :=
  if top ≤ maxTrafficMapWeight then n else ⌈(n * maxTrafficMapWeight : ℚ) / top⌉

section Published

variable (top n : Nat)

theorem published_pos : 0 < published top n ↔ 0 < n := by
  rw [published]
  split
  · exact Int.natCast_pos
  · rename_i wide
    have positive : (0 : ℚ) < top := by exact_mod_cast (Nat.zero_le _).trans_lt (not_le.mp wide)
    rw [Int.ceil_pos, div_pos_iff_of_pos_right positive,
      mul_pos_iff_of_pos_right (by norm_num [maxTrafficMapWeight]), Nat.cast_pos]

theorem published_nonneg : 0 ≤ published top n := by
  rw [published]
  split
  · exact Int.natCast_nonneg n
  · exact Int.ceil_nonneg (by positivity)

theorem published_zero : published top 0 = 0 := by
  have silent := mt (published_pos top 0).mp (Nat.lt_irrefl 0)
  exact le_antisymm (not_lt.mp silent) (published_nonneg top 0)

variable {top n}

theorem published_mono {m : Nat} (le : n ≤ m) : published top n ≤ published top m := by
  rw [published, published]
  split
  · exact_mod_cast le
  · have le : (n : ℚ) ≤ m := Nat.cast_le.mpr le
    exact Int.ceil_mono (by gcongr)

/-- A ratio that does not fit has its largest arm at the limit. -/
theorem published_top (wide : maxTrafficMapWeight < top) :
    published top top = maxTrafficMapWeight := by
  have nonzero : (top : ℚ) ≠ 0 := by exact_mod_cast ((Nat.zero_le _).trans_lt wide).ne'
  rw [published, if_neg (not_le.mpr wide), mul_div_cancel_left₀ _ nonzero, Int.ceil_natCast]

theorem published_le (le : n ≤ top) : published top n ≤ maxTrafficMapWeight := by
  by_cases fits : top ≤ maxTrafficMapWeight
  · rw [published, if_pos fits]
    exact_mod_cast le.trans fits
  · exact (published_mono le).trans_eq (published_top (not_le.mp fits))

end Published

theorem register_of_bounds {w : Int} (low : 0 ≤ w) (high : w ≤ maxTrafficMapWeight) :
    wrap32 (wrap64 w) = w := by
  have high : w ≤ 1000000 := high
  rw [wrap64_of_fits (by omega) (by omega), wrap32_of_fits (by omega) (by omega)]

theorem normalizeRawWeights_eq {raw : List Int} {gcd : Nat} {ns : List Nat}
    (reduced : raw.map (fun r => r.tdiv gcd) = ns.map fun n : Nat => (n : Int)) :
    normalizeRawWeights raw gcd = ns.map (published (largest ns)) := by
  have top : (ns.map fun n : Nat => (n : Int)).foldl (fun max r => if max < r then r else max) 0 =
      (largest ns : Int) := by
    rw [foldl_map]
    refine foldl_hom (fun m : Nat => (m : Int)) fun m n => ?_
    split <;> omega
  rw [normalizeRawWeights, reduced, top, map_map]
  refine map_congr_left fun n member => ?_
  have below := le_largest member
  have register := register_of_bounds (published_nonneg (largest ns) n) (published_le below)
  rw [Function.comp_apply]
  split
  · rename_i zero
    rw [Int.natCast_eq_zero.mp zero, published_zero]
  · split
    · rename_i fits
      rw [published, if_pos (by exact_mod_cast fits)] at register ⊢
      exact register
    · rename_i wide
      have positive : 0 < largest ns := by omega
      have quotient := ceilPositiveQuotient_eq (n * maxTrafficMapWeight) positive
      rw [published, if_neg (by exact_mod_cast wide)] at register ⊢
      push_cast at quotient
      rw [quotient]
      exact register

/-! ## The weights -/

/-- The largest value. -/
def largestValue (vs : List ℚ) : ℚ := vs.foldl max 0

theorem largestValue_eq {unit : ℚ} (positive : 0 < unit) (ns : List Nat) :
    largestValue (ns.map fun n : Nat => unit * (n : ℚ)) = unit * largest ns := by
  have run : ns.foldl (fun most (n : Nat) => max most (unit * (n : ℚ))) (unit * (0 : Nat)) =
      unit * largest ns := by
    refine foldl_hom (fun m : Nat => unit * (m : ℚ)) fun m n => ?_
    rw [← mul_max_of_nonneg _ _ positive.le, Nat.cast_max]
  rw [Nat.cast_zero, mul_zero] at run
  rw [largestValue, foldl_map]
  exact run

/-- The values traffic follows: the capacities behind the probe gates, or without
them where the policy preserves traffic, every probe failed and nothing is left. -/
def routedValues (policy : AllFailedPolicy) : List ℚ :=
  if policy = .preserveTraffic ∧ allProbesFailed clusters ∧
      ∀ h ∈ clusters, h.gatedValue false = 0 then
    clusters.map ClusterCapacity.capacityValue
  else clusters.map (·.gatedValue false)

theorem length_routedValues (policy : AllFailedPolicy) :
    (routedValues clusters policy).length = clusters.length := by
  rw [routedValues]
  split <;> exact length_map _

theorem rawWeights_spec (ignore : Bool) :
    ((rawWeights clusters ignore).2 = 0 ↔ ∀ h ∈ clusters, h.gatedValue ignore = 0) ∧
    ((rawWeights clusters ignore).2 ≠ 0 → ∃ ns,
      SmallestRatio (clusters.map (·.gatedValue ignore)) ns ∧
      normalizeRawWeights (rawWeights clusters ignore).1 (rawWeights clusters ignore).2 =
        ns.map (published (largest ns))) := by
  obtain ⟨positive, divides⟩ := commonDenominator_spec
    ((clusters.filter fun h => !h.gated ignore).map ClusterCapacity.capacityValue)
  have whole : ∀ v ∈ clusters.map (·.gatedValue ignore), v.den ∣ commonDenominator
      ((clusters.filter fun h => !h.gated ignore).map ClusterCapacity.capacityValue) := by
    rw [forall_mem_map]
    intro h member
    rw [ClusterCapacity.gatedValue]
    split
    · exact Nat.one_dvd _
    · rename_i counts
      exact divides _ (mem_map_of_mem (mem_filter.mpr ⟨member, by simpa using counts⟩))
  have nonneg : ∀ v ∈ clusters.map (·.gatedValue ignore), 0 ≤ v :=
    forall_mem_map.mpr fun h _ => h.gatedValue_nonneg ignore
  refine ⟨(gcdAll_eq_zero positive whole).trans forall_mem_map, fun some => ?_⟩
  refine ⟨_, smallestRatio_reduced nonneg positive whole some, normalizeRawWeights_eq ?_⟩
  rw [map_map]
  refine map_congr_left fun r member => ?_
  exact (Int.toNat_of_nonneg (Int.tdiv_nonneg (overDenominator_nonneg nonneg _ r member)
    (Int.natCast_nonneg _))).symm

theorem smallestRatio_silent {vs : List ℚ} (zero : ∀ v ∈ vs, v = 0) {length : Nat}
    (same : vs.length = length) : ∃ ns, SmallestRatio vs ns ∧
      List.replicate length 0 = ns.map (published (largest ns)) := by
  refine ⟨_, smallestRatio_zero zero, ?_⟩
  rw [map_map, ← same, eq_comm, eq_replicate_iff]
  refine ⟨length_map _, forall_mem_map.mpr fun v _ => published_zero _⟩

theorem weights_eq (policy : AllFailedPolicy) :
    ∃ ns, SmallestRatio (routedValues clusters policy) ns ∧
      weights clusters policy = ns.map (published (largest ns)) := by
  have length := length_routedValues clusters policy
  rw [weights]
  split
  · rename_i none
    subst none
    exact smallestRatio_silent (by simp [routedValues]) length
  dsimp only
  split
  · rename_i some
    have open' : ¬ ∀ h ∈ clusters, h.gatedValue false = 0 :=
      mt (rawWeights_spec clusters false).1.mpr some
    rw [routedValues, if_neg fun all => open' all.2.2]
    exact (rawWeights_spec clusters false).2 some
  rename_i closed
  have closed := (rawWeights_spec clusters false).1.mp (not_not.mp closed)
  split
  · rename_i kept
    have values : routedValues clusters policy = clusters.map (·.gatedValue false) :=
      if_neg fun all => kept.elim (absurd all.1) (absurd all.2.1)
    refine smallestRatio_silent ?_ length
    rw [values]
    exact forall_mem_map.mpr closed
  rename_i failed
  have values : routedValues clusters policy = clusters.map (·.gatedValue true) := by
    rw [not_or, not_not, not_not] at failed
    exact if_pos ⟨failed.1, failed.2, closed⟩
  split
  · rename_i none
    refine smallestRatio_silent ?_ length
    rw [values]
    exact forall_mem_map.mpr ((rawWeights_spec clusters true).1.mp none)
  · rename_i some
    rw [values]
    exact (rawWeights_spec clusters true).2 some

/-- **Traffic weights represent capacity.**  For every list of clusters and either
policy: the weights are between zero and the limit, and positive exactly where there
is capacity, in its order.  They are the smallest whole-number ratio of the capacities
where that fits the limit, and otherwise the capacities scaled so that the largest
is at the limit, rounded up.  The unit of the capacities decides nothing. -/
theorem weights_represent_capacity (clusters : List ClusterCapacity) (policy : AllFailedPolicy) :
    (weights clusters policy).length = clusters.length ∧
    (routedValues clusters policy).length = clusters.length ∧
    (∀ w ∈ weights clusters policy, 0 ≤ w ∧ w ≤ 1000000) ∧
    (∀ a ∈ (weights clusters policy).zip (routedValues clusters policy), 0 < a.1 ↔ 0 < a.2) ∧
    (∀ a ∈ (weights clusters policy).zip (routedValues clusters policy),
      ∀ b ∈ (weights clusters policy).zip (routedValues clusters policy),
        a.2 ≤ b.2 → a.1 ≤ b.1) ∧
    (∃ ns, SmallestRatio (routedValues clusters policy) ns ∧
      ((∀ n ∈ ns, n ≤ 1000000) → weights clusters policy = ns.map fun n : Nat => (n : Int)) ∧
      ((∃ n ∈ ns, 1000000 < n) →
        weights clusters policy = (routedValues clusters policy).map
          (fun v => ⌈v * 1000000 / largestValue (routedValues clusters policy)⌉) ∧
        ∀ a ∈ (weights clusters policy).zip (routedValues clusters policy),
          a.2 = largestValue (routedValues clusters policy) → a.1 = 1000000)) ∧
    ∀ clusters' policy' (factor : ℚ), 0 < factor →
      routedValues clusters' policy' = (routedValues clusters policy).map (factor * ·) →
      weights clusters' policy' = weights clusters policy := by
  have length := length_routedValues clusters policy
  -- the smallest ratio and its unit: every part is a statement about the ratio
  obtain ⟨ns, smallest, eq⟩ := weights_eq clusters policy
  obtain ⟨unit, positive, values⟩ := smallest.inRatio
  have arms : (weights clusters policy).zip (routedValues clusters policy) =
      ns.map fun n : Nat => (published (largest ns) n, unit * (n : ℚ)) := by
    rw [eq, values, zip_map']
  have top : largestValue (routedValues clusters policy) = unit * largest ns := by
    rw [values, largestValue_eq positive]
  have exceeds (wide : ∃ n ∈ ns, 1000000 < n) : ¬ largest ns ≤ maxTrafficMapWeight := by
    obtain ⟨n, member, above⟩ := wide
    exact not_le.mpr (above.trans_le (le_largest member))
  simp only [arms, forall_mem_map]
  refine ⟨?_, length, ?_, fun n _ => ?_, fun n _ m _ le => ?_, ⟨ns, smallest, fun fits => ?_,
    fun wide => ⟨?_, fun n member same => ?_⟩⟩, fun clusters' policy' factor above scaled => ?_⟩
  · rw [eq, length_map, ← length, values, length_map]
  · rw [eq, forall_mem_map]
    exact fun n member => ⟨published_nonneg _ n, published_le (le_largest member)⟩
  · rw [published_pos, mul_pos_iff_of_pos_left positive, Nat.cast_pos]
  · exact published_mono (Nat.cast_le.mp (le_of_mul_le_mul_left le positive))
  · have small : largest ns ≤ maxTrafficMapWeight := by
      rcases Nat.eq_zero_or_pos (largest ns) with none | some
      · rw [none]
        exact Nat.zero_le _
      · exact fits _ (largest_mem some)
    rw [eq]
    exact map_congr_left fun n _ => if_pos small
  · rw [eq, top, values, map_map]
    refine map_congr_left fun n _ => ?_
    rw [published, if_neg (exceeds wide), Function.comp_apply, mul_assoc,
      mul_div_mul_left _ _ positive.ne']
    rfl
  · rw [top, mul_right_inj' positive.ne', Nat.cast_inj] at same
    rw [same]
    exact published_top (not_le.mp (exceeds wide))
  · obtain ⟨ns', smallest', eq'⟩ := weights_eq clusters' policy'
    rw [scaled] at smallest'
    rw [eq', eq, smallest'.unique (smallest.scale above)]

-- Two ready replicas of factor 1.5 beside a report of 4.5.
example : weights
    [⟨.ceiling, none, 3, 2, some ⟨15, 1⟩, none, none⟩,
      ⟨.reported, some ⟨45, 1⟩, 0, 0, none, none, some true⟩] .drain = [2, 3] := by
  decide +kernel

end Ome.Placement.Routing
