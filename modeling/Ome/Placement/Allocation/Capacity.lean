/-
# Ome.Placement.Allocation.Capacity — a step never spends serving capacity it lacks

The routable ready capacity of a fleet is what its known routable members serve:
up to the target of a member whose positive target is applied, and everything of
a member that still serves without a target.  A step takes capacity away when it
drains a member or lowers a target.

The reduction pass pays for every such loss out of three allowances.  One visit
(`Reduction.spends`) costs at most what it takes out of `servingAboveMinimum`,
out of the positive part of `retirementAllowance` and, for a member without a
target, out of `readyAboveDesired`.  `planReductions_spends` sums the visits with
the spending rule, and `capacity_reduced` does the arithmetic: whatever the order of
the visits and however the three are mixed, what is left covers the smaller of
what served before and what the desired plan asks for.
-/
import Ome.Placement.Allocation.Moves

namespace Ome.Placement.Allocation

open Ome.Theory Transition MemberState List

set_option autoImplicit false

/-! ## Capacity of one member, before and after a step -/

namespace MemberView

variable (m : MemberView)

/-- The ready replicas a known routable member serves under its target. -/
def capacity : Int :=
  if m.state.known && m.state.routable then
    if m.current = 0 then m.state.ready
    else if m.state.applied then min m.state.ready m.current
    else 0
  else 0

/-- What is left of it: nothing of a drained member, and `min ready target` of a
member whose target fell. -/
def capacityAfter (entry : Int × Bool) : Int :=
  if entry.2 then 0
  else if entry.1 < m.current then
    if m.state.known && m.state.routable then min m.state.ready entry.1 else 0
  else m.capacity

/-- The part of the capacity held under an applied target. -/
def appliedCapacity : Int := if 0 < m.current && m.state.applied then m.capacity else 0

def appliedCapacityAfter (entry : Int × Bool) : Int :=
  if 0 < m.current && m.state.applied then m.capacityAfter entry else 0

/-- The serving share a visit takes away. -/
def servingLoss (entry : Int × Bool) : Int :=
  if m.state.serving then
    min m.state.ready m.current - (if entry.2 then 0 else min m.state.ready (min m.current entry.1))
  else 0

/-- The untargeted share a visit takes away. -/
def untargetedLoss (entry : Int × Bool) : Int :=
  if m.routableWithoutTarget && entry.2 then m.state.ready else 0

end MemberView

namespace MemberView.Sound

variable {m : MemberView} (sound : m.Sound)
include sound

theorem capacity_eq : m.capacity = m.servingShare + m.untargetedShare := by
  have ready := sound.ready_nonneg
  simp only [capacity, servingShare, untargetedShare, routableWithoutTarget, serving]
  by_cases current : m.current = 0 <;> by_cases known : m.state.known <;>
    by_cases routed : m.state.routable <;> by_cases applied : m.state.applied <;>
    simp [current, known, routed, applied, ready]

theorem appliedCapacity_eq : m.appliedCapacity = m.servingShare := by
  have ready := sound.ready_nonneg
  have current := sound.current_nonneg
  simp only [appliedCapacity, capacity, servingShare, serving]
  rcases current.lt_or_eq with positive | zero
  · have nonzero : m.current ≠ 0 := by omega
    by_cases known : m.state.known <;> by_cases routed : m.state.routable <;>
      by_cases applied : m.state.applied <;> simp [positive, nonzero, known, routed, applied]
  · simp [← zero, ready]

section

variable {entry : Int × Bool} (target : 0 ≤ entry.1)
  (lowered : entry.1 < m.current → m.state.applied = true ∨ m.state.ready = 0)
include target lowered

/-- A step that lowers only applied or empty members costs a member exactly its
two losses. -/
theorem capacityAfter_eq :
    m.capacityAfter entry =
      m.capacity - m.servingLoss entry - m.untargetedLoss entry := by
  have ready := sound.ready_nonneg
  have current := sound.current_nonneg
  obtain ⟨count, drained⟩ := entry
  simp only at target lowered
  simp only [capacityAfter, capacity, servingLoss, untargetedLoss, routableWithoutTarget,
    serving]
  by_cases routed : m.state.known = true ∧ m.state.routable = true
  · obtain ⟨known, routed⟩ := routed
    by_cases zero : m.current = 0
    · have stays : ¬ count < 0 := by omega
      cases drained <;> simp [zero, known, routed, ready, stays, target]
    · by_cases falls : count < m.current
      · have least : min m.current count = count := by omega
        rcases lowered falls with applied | empty
        · cases drained <;> simp [zero, known, routed, applied, falls, least]
        · cases drained <;> simp [zero, known, routed, empty, falls, least, target, current]
      · have stays : min m.current count = m.current := by omega
        by_cases applied : m.state.applied <;> cases drained <;>
          simp [zero, known, routed, applied, falls, stays]
  · have unrouted : (m.state.known && m.state.routable) = false := by
      simpa only [Bool.and_eq_false_iff, not_and_or, Bool.not_eq_true] using routed
    have idle : (m.state.known && m.state.applied && m.state.routable) = false := by
      rw [Bool.and_right_comm, unrouted, Bool.false_and]
    simp [Bool.and_assoc, unrouted, idle]

theorem appliedCapacityAfter_eq :
    m.appliedCapacityAfter entry = m.appliedCapacity - m.servingLoss entry := by
  simp only [appliedCapacityAfter, appliedCapacity]
  split
  · rename_i targeted
    simp only [Bool.and_eq_true, decide_eq_true_eq] at targeted
    have nonzero : m.current ≠ 0 := by omega
    have untargeted : m.untargetedLoss entry = 0 := by
      simp [untargetedLoss, routableWithoutTarget, nonzero]
    rw [sound.capacityAfter_eq target lowered, untargeted, Int.sub_zero]
  · rename_i untargeted
    have ready := sound.ready_nonneg
    have current := sound.current_nonneg
    simp only [Bool.and_eq_true, decide_eq_true_eq, not_and, Bool.not_eq_true] at untargeted
    simp only [servingLoss, serving]
    by_cases positive : 0 < m.current
    · simp [untargeted positive]
    · have zero : m.current = 0 := by omega
      have least : min 0 entry.1 = 0 := by omega
      cases entry.2 <;> simp [zero, ready, least]

end

end MemberView.Sound

/-! ## The cost of one visit -/

namespace TransitionCall

/-- A visit pays for a member's losses out of the allowances. -/
structure Pays (t t' : TransitionCall) (m : MemberView) (entry : Int × Bool) : Prop where
  serving : m.servingLoss entry ≤ t.servingAboveMinimum - t'.servingAboveMinimum
  retired : m.servingLoss entry ≤ max 0 t.retirementAllowance - max 0 t'.retirementAllowance
  untargeted : m.untargetedLoss entry ≤ t.readyAboveDesired - t'.readyAboveDesired

/-- A reduction by at most the three caps costs what it pays. -/
theorem paidReduction_spends (t : TransitionCall) {m : MemberView} (sound : m.Sound)
    {entry : Int × Bool} (reducible : m.reducible = true) (solvent : t.Solvent)
    (recorded : (entry.2 = true ∧ m.current = t.fundedReduction m) ∨
      entry = (m.current - t.fundedReduction m, false)) :
    Pays t (t.paidReduction m (t.fundedReduction m)) m entry := by
  obtain ⟨above, -⟩ := reducible_above reducible
  obtain ⟨nonneg, toGoal, retired, served⟩ := t.fundedReduction_bounds sound reducible solvent.1
  obtain ⟨unbacked, -, backed⟩ := t.unbackedReplicas_bounds sound
  have goal := sound.goal_nonneg
  have targeted : m.current ≠ 0 := by omega
  have untargeted : m.untargetedLoss entry = 0 := by
    simp [MemberView.untargetedLoss, MemberView.routableWithoutTarget, targeted]
  -- A routable member loses exactly the ready replicas below the ones it gives up.
  have loss : m.servingLoss entry ≤
      if m.state.routable then
        max 0 (t.fundedReduction m - max 0 (m.current - m.state.ready))
      else 0 := by
    simp only [MemberView.servingLoss, serving]
    by_cases routed : m.state.routable
    · rcases recorded with ⟨drained, all⟩ | rfl
      · simp only [drained, routed, if_true]
        split <;> omega
      · simp only [routed, if_true, Bool.false_eq_true, if_false]
        split <;> omega
    · simp [routed]
  refine ⟨?_, ?_, by simp [untargeted, paidReduction]⟩
  · simp only [paidReduction]
    omega
  · simp only [paidReduction]
    split at loss
    · rename_i routed
      have := backed routed
      omega
    · omega

/-- **The cost of one visit.**  What a visit takes from the capacity it takes
from the allowances. -/
theorem Reduction.spends {t t' : TransitionCall} {m : MemberView} (visit : Reduction t m t')
    (sound : m.Sound) (solvent : t.Solvent) (start : t.entry m.name = (m.current, false)) :
    Pays t t' m (t'.entry m.name) := by
  obtain ⟨target, undrained⟩ := Prod.mk.inj start
  have ready := sound.ready_nonneg
  cases visit with
  | kept =>
    rw [start]
    refine ⟨?_, ?_, ?_⟩ <;>
      simp [MemberView.servingLoss, MemberView.untargetedLoss]
  | drainedUnrouted untargeted unrouted =>
    rw [entry_addDrain_self]
    refine ⟨?_, ?_, ?_⟩ <;>
      simp [MemberView.servingLoss, MemberView.untargetedLoss, serving,
        MemberView.routableWithoutTarget, unrouted, addDrain]
  | drainedFunded untargeted routed funded =>
    -- no target is lost here: the ready capacity above the desired total pays
    simp only [MemberView.occupiedWithoutTarget, Bool.and_eq_true, beq_iff_eq] at untargeted
    have zero : m.current = 0 := untargeted.1.1.1
    have least : min m.state.ready 0 = 0 := by omega
    rw [entry_addDrain_self]
    refine ⟨?_, ?_, ?_⟩
    · simp [MemberView.servingLoss, zero, least, addDrain]
    · simp [MemberView.servingLoss, zero, least, addDrain]
    · simp only [MemberView.untargetedLoss, addDrain]
      split <;> omega
  | absent gone above =>
    obtain ⟨-, empty⟩ := sound.absent_empty gone
    have ready_le := sound.ready_le
    have zero : m.state.ready = 0 := by omega
    have goal := sound.goal_nonneg
    have current := sound.current_nonneg
    have least : min 0 (min m.current m.goal) = 0 := by omega
    rw [entry_setTarget_self]
    refine ⟨?_, ?_, ?_⟩ <;>
      simp [MemberView.servingLoss, MemberView.untargetedLoss, setTarget, zero, least, current,
        undrained]
  | emptied reducible nonzero whole all unmarked =>
    rw [entry_addDrain_self]
    have paid : Pays t _ m (t.step.targets.get m.name, true) :=
      t.paidReduction_spends sound reducible solvent (Or.inl ⟨rfl, all⟩)
    exact { paid with }
  | lowered reducible nonzero whole partly =>
    rw [entry_setTarget_self]
    have recorded : (t.step.targets.get m.name - t.fundedReduction m,
        Decidable.decide (m.name ∈ t.step.drain)) =
        (m.current - t.fundedReduction m, false) := by
      rw [target, undrained]
    exact { t.paidReduction_spends sound reducible solvent (Or.inr recorded) with }

end TransitionCall

/-! ## Whole passes -/

namespace Reading

variable {input : Transition} {wholeMembers : Bool} {t : TransitionCall}
variable (reading : Reading input wholeMembers t)
include reading

/-- **The reduction pass spends what it has**: all losses together are covered by
each of the allowances they are charged to. -/
theorem planReductions_spends :
    (t.members.map fun m => m.servingLoss (t.reduced.entry m.name)).sum ≤
        t.servingAboveMinimum ∧
      (t.members.map fun m => m.servingLoss (t.reduced.entry m.name)).sum ≤
        max 0 t.retirementAllowance ∧
      (t.members.map fun m => m.untargetedLoss (t.reduced.entry m.name)).sum ≤
        t.readyAboveDesired := by
  obtain ⟨solvent, serving⟩ :=
    reading.reductions_spend (fun s => s.servingAboveMinimum) MemberView.servingLoss
      fun s m hm inv start =>
        ((s.planReduction_cases m).spends (reading.sound hm) inv start).serving
  obtain ⟨-, retired⟩ :=
    reading.reductions_spend (fun s => max 0 s.retirementAllowance) MemberView.servingLoss
      fun s m hm inv start =>
        ((s.planReduction_cases m).spends (reading.sound hm) inv start).retired
  obtain ⟨-, untargeted⟩ :=
    reading.reductions_spend (fun s => s.readyAboveDesired) MemberView.untargetedLoss
      fun s m hm inv start =>
        ((s.planReduction_cases m).spends (reading.sound hm) inv start).untargeted
  obtain ⟨servingLeft, readyLeft⟩ := solvent
  simp only [TransitionCall.resumeDrainedMembers] at serving retired untargeted
  exact ⟨by omega, by omega, by omega⟩

end Reading

/-! ## The fleet -/

namespace Transition

variable (input : Transition)

/-- The routable ready capacity of the fleet. -/
def capacity : Int := (input.clusters.map fun name => (input.view name).capacity).sum

def capacityAfter (step : Step) : Int :=
  (input.clusters.map fun name => (input.view name).capacityAfter (step.entry name)).sum

/-- The part of it held by members with an applied target. -/
def appliedCapacity : Int := (input.clusters.map fun name => (input.view name).appliedCapacity).sum

def appliedCapacityAfter (step : Step) : Int :=
  (input.clusters.map fun name => (input.view name).appliedCapacityAfter (step.entry name)).sum

end Transition

namespace Reading

variable {input : Transition} {wholeMembers : Bool} {t : TransitionCall}
variable (reading : Reading input wholeMembers t)
include reading

theorem capacity_sum : input.capacity = t.servingReady + t.readyWithoutTarget := by
  rw [reading.servingReady_eq, reading.readyWithoutTarget_eq, reading.members_eq, map_map,
    map_map, ← sum_map_add, capacity]
  congr 1
  apply map_congr_left
  intro name member
  exact (reading.sound (reading.view_mem member)).capacity_eq

theorem appliedCapacity_sum : input.appliedCapacity = t.servingReady := by
  rw [reading.servingReady_eq, reading.members_eq, map_map, appliedCapacity]
  congr 1
  apply map_congr_left
  intro name member
  exact (reading.sound (reading.view_mem member)).appliedCapacity_eq

/-- A step that drains nobody and lowers no target takes no capacity away. -/
theorem capacity_kept {step : Step}
    (kept : ∀ m ∈ t.members, (step.entry m.name).2 = false ∧ m.current ≤ (step.entry m.name).1) :
    input.capacityAfter step = input.capacity ∧
      input.appliedCapacityAfter step = input.appliedCapacity := by
  have same : ∀ name ∈ input.clusters,
      (input.view name).capacityAfter (step.entry name) = (input.view name).capacity := by
    intro name member
    obtain ⟨undrained, target⟩ := kept _ (reading.view_mem member)
    simp only [view] at undrained target
    have stays : ¬ (step.entry name).1 < input.current.get name := by omega
    simp [MemberView.capacityAfter, undrained, stays, view]
  constructor
  · exact congrArg sum (map_congr_left same)
  · apply congrArg sum
    apply map_congr_left
    intro name member
    simp only [MemberView.appliedCapacityAfter, MemberView.appliedCapacity, same name member]

/-- What the reductions of a step leave of the capacity. -/
theorem capacity_reduced {step : Step} (recorded : step.entry = t.reduced.entry) :
    min input.capacity input.desired.total ≤ input.capacityAfter step ∧
      min input.appliedCapacity (min input.fromPlan.total input.desired.total) ≤
        input.appliedCapacityAfter step := by
  obtain ⟨serving, retired, untargeted⟩ := reading.planReductions_spends
  -- a visit lowers a target only where it is applied or nothing is ready
  have visit : ∀ m ∈ t.members, 0 ≤ (t.reduced.entry m.name).1 ∧
      ((t.reduced.entry m.name).1 < m.current → m.state.applied = true ∨ m.state.ready = 0) := by
    intro m member
    have sound := reading.sound member
    have current := sound.current_nonneg
    have goal := sound.goal_nonneg
    obtain ⟨u, solvent, start, visited⟩ := reading.reduction_visit member
    rw [visited]
    rcases (u.planReduction_cases m).target sound solvent start with same | ⟨least, -, held, -⟩
    · rw [same]
      exact ⟨current, fun falls => absurd falls (lt_irrefl _)⟩
    · refine ⟨by omega, fun _ => held.imp id fun gone => ?_⟩
      have empty := (sound.absent_empty gone).2
      have ready := sound.ready_nonneg
      have ready_le := sound.ready_le
      omega
  -- what is left and what is lost add up to the capacity before
  have left : input.capacity = input.capacityAfter step
      + (t.members.map fun m => m.servingLoss (t.reduced.entry m.name)).sum
      + (t.members.map fun m => m.untargetedLoss (t.reduced.entry m.name)).sum := by
    rw [reading.members_eq, map_map, map_map, capacityAfter,
      ← sum_map_add, ← sum_map_add, capacity, recorded]
    apply congrArg sum
    apply map_congr_left
    intro name member
    obtain ⟨target, lowered⟩ := visit _ (reading.view_mem member)
    have split := (reading.sound (reading.view_mem member)).capacityAfter_eq target lowered
    simp only [Function.comp_apply]
    exact (by omega : ∀ {a b c d : Int}, a = b - c - d → b = a + c + d) split
  have appliedLeft : input.appliedCapacity = input.appliedCapacityAfter step
      + (t.members.map fun m => m.servingLoss (t.reduced.entry m.name)).sum := by
    rw [reading.members_eq, map_map, appliedCapacityAfter,
      ← sum_map_add, appliedCapacity, recorded]
    apply congrArg sum
    apply map_congr_left
    intro name member
    obtain ⟨target, lowered⟩ := visit _ (reading.view_mem member)
    have split := (reading.sound (reading.view_mem member)).appliedCapacityAfter_eq target lowered
    exact (by omega : ∀ {a b c : Int}, a = b - c → b = a + c) split
  have drainedLe : (t.members.map fun m => m.untargetedLoss (t.reduced.entry m.name)).sum ≤
      t.readyWithoutTarget := by
    rw [reading.readyWithoutTarget_eq]
    apply sum_le_sum
    intro m member
    have ready := (reading.sound member).ready_nonneg
    simp only [MemberView.untargetedLoss, MemberView.untargetedShare]
    cases (t.reduced.entry m.name).2 <;> simp
    split <;> omega
  have unassigned := reading.from_wellFormed.unassigned_nonneg
  rw [reading.capacity_sum] at left ⊢
  rw [reading.appliedCapacity_sum] at appliedLeft ⊢
  rw [reading.servingAboveMinimum_eq, reading.from_eq, reading.desired_eq] at serving
  rw [reading.readyAboveDesired_eq, reading.desired_eq] at untargeted
  refine ⟨?_, by omega⟩
  -- a move that adds replicas retires only what serves above the desired total
  by_cases raised : input.fromPlan.total - input.fromPlan.unassigned < input.desired.total
  · have capped : t.retirementAllowance ≤ max 0 (t.servingReady - input.desired.total) := by
      rw [reading.retirement_eq, reading.from_eq, reading.desired_eq]
      simp only [raised, if_true]
      exact min_le_right _ _
    omega
  · omega

end Reading

/-- **A step never takes serving capacity below what the move needs.** -/
theorem advance_keeps_serving_capacity {input : Transition} {step : Step}
    (accepted : advance input = .ok step ∨ advanceWholeMembers input = .ok step) :
    min input.capacity input.desired.total ≤ input.capacityAfter step ∧
      min input.appliedCapacity (min input.fromPlan.total input.desired.total) ≤
        input.appliedCapacityAfter step := by
  obtain ⟨wholeMembers, returned⟩ : ∃ whole, advanceTransition input whole = .ok step :=
    accepted.elim (fun h => ⟨false, h⟩) (fun h => ⟨true, h⟩)
  obtain ⟨t, reading, outcome⟩ := advance_outcome returned
  -- A step that rests or grows takes nothing away, so only the reduction pass is left.
  have keeps (kept : ∀ m ∈ t.members,
      (step.entry m.name).2 = false ∧ m.current ≤ (step.entry m.name).1) :
      min input.capacity input.desired.total ≤ input.capacityAfter step ∧
        min input.appliedCapacity (min input.fromPlan.total input.desired.total) ≤
          input.appliedCapacityAfter step := by
    obtain ⟨all, applied⟩ := reading.capacity_kept kept
    rw [all, applied]
    exact ⟨min_le_left _ _, min_le_left _ _⟩
  cases outcome with
  | rests drain targets =>
    apply keeps
    intro m member
    rw [reading.members_eq, mem_map] at member
    obtain ⟨name, -, rfl⟩ := member
    exact ⟨by simp [Step.entry, drain], (targets name).ge⟩
  | reduces recorded => exact reading.capacity_reduced recorded
  | grows still g grown recorded =>
    apply keeps
    intro m member
    obtain ⟨u, allowed, start, visited⟩ := reading.growth_visit still grown member
    obtain ⟨-, undrained, target⟩ := (u.growMember_cases m).target allowed start
    rw [recorded, visited]
    exact ⟨undrained, target.elim ge_of_eq And.left⟩

/-- One of the two replicas of `a` has a ready replacement on `b`. -/
def replacementReady : Transition where
  fromPlan := { targets := .ofList [("a", 2)], unassigned := 0 }
  current := .ofList [("a", 2), ("b", 1)]
  desired := { targets := .ofList [("a", 1), ("b", 1)], unassigned := 0 }
  members := .ofList
    [("a", { known := true, eligible := true, applied := true, routable := true,
             ready := 2, occupied := 2 }),
     ("b", { known := true, eligible := true, applied := true, routable := true,
             ready := 1, occupied := 1 })]
  surge := 1
  rolloutReserved := 0

theorem replacementReady_keeps_capacity :
    ∃ step, advance replacementReady = .ok step ∧
      (step.targets.get "a", step.targets.get "b", step.drain) = (1, 1, []) ∧
      min replacementReady.capacity replacementReady.desired.total ≤
        replacementReady.capacityAfter step ∧
      min replacementReady.appliedCapacity
          (min replacementReady.fromPlan.total replacementReady.desired.total) ≤
        replacementReady.appliedCapacityAfter step := by
  have read : (advance replacementReady).map
      (fun step => (step.targets.get "a", step.targets.get "b", step.drain)) = .ok (1, 1, []) := by
    decide
  obtain ⟨step, accepted, recorded⟩ := returned_of_map read
  exact ⟨step, accepted, recorded, advance_keeps_serving_capacity (Or.inl accepted)⟩

end Ome.Placement.Allocation
