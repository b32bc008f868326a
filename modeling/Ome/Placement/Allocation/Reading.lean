/-
# Ome.Placement.Allocation.Reading — what an accepted input says

`readTransition` folds its input into a budget, one member at a time.  This
module gives every field of the result a closed form (`Reading`): the plan
totals are exact sums, every count is nonnegative, and each counter of the
budget is a sum over the members in name order.  Every later result about a step
starts from a `Reading` and never unfolds the read again.

`readTransition_accepts` is the other direction: an input whose totals fit and
whose observations are consistent is not refused.
-/
import Ome.Placement.Allocation.Transition

namespace Ome.Placement.Allocation

open Ome.Theory MemberView TransitionCall List Transition

set_option autoImplicit false

variable {input : Transition} {wholeMembers : Bool}
variable {count : String → Int} {t : TransitionCall}

/-! ## Plan totals -/

def Plan.total (plan : Plan) : Int := plan.unassigned + plan.targets.total

/-- A plan the code can total: named clusters, nothing negative. -/
structure Plan.WellFormed (plan : Plan) : Prop where
  unassigned_nonneg : 0 ≤ plan.unassigned
  named : "" ∉ plan.targets.keys
  targets_nonneg : ∀ name, 0 ≤ plan.targets.get name

theorem addTargets_ok :
    ∀ {names : List String} {start total : Int}, addTargets count names start = .ok total →
      total = start + (names.map count).sum ∧ "" ∉ names ∧ ∀ name ∈ names, 0 ≤ count name
  | [], start, total, h => by
    cases h
    simp
  | name :: rest, start, total, h => by
    simp only [addTargets] at h
    split at h
    · cases h
    · rename_i valid
      split at h
      · cases h
      · obtain ⟨sum, named, nonneg⟩ := addTargets_ok h
        simp only [not_or, Int.not_lt] at valid
        refine ⟨?_, ?_, ?_⟩
        · rw [sum, map_cons, sum_cons]
          omega
        · simp only [mem_cons, not_or]
          exact ⟨fun h => valid.1 h.symm, named⟩
        · intro other member
          rcases mem_cons.mp member with rfl | later
          · exact valid.2
          · exact nonneg other later

theorem addTargets_accepts :
    ∀ {names : List String} {start : Int}, "" ∉ names → (∀ name ∈ names, 0 ≤ count name) →
      start + (names.map count).sum ≤ maxInt64 →
      addTargets count names start = .ok (start + (names.map count).sum)
  | [], start, _, _, _ => by simp [addTargets]
  | name :: rest, start, named, nonneg, fits => by
    simp only [mem_cons, not_or] at named
    have restNonneg : ∀ other ∈ rest, 0 ≤ count other :=
      fun other member => nonneg other (mem_cons_of_mem name member)
    have headNonneg := nonneg name mem_cons_self
    have tailNonneg : 0 ≤ (rest.map count).sum := GoMap.sum_map_nonneg restNonneg
    simp only [map_cons, sum_cons] at fits ⊢
    have tailFits : start + count name + (rest.map count).sum ≤ maxInt64 := by omega
    have tail := addTargets_accepts named.2 restNonneg tailFits
    simp only [addTargets]
    rw [if_neg, if_neg (by omega), tail, Int.add_assoc]
    rintro (empty | negative)
    · exact named.1 empty.symm
    · omega

theorem planTotal_ok {plan : Plan} {total : Int} (h : planTotal plan = .ok total) :
    total = plan.total ∧ plan.WellFormed := by
  simp only [planTotal] at h
  split at h
  · cases h
  · rename_i nonneg
    obtain ⟨sum, named, counts⟩ := addTargets_ok h
    refine ⟨sum, ⟨by omega, named, fun name => ?_⟩⟩
    by_cases member : name ∈ plan.targets.keys
    · exact counts name member
    · rw [plan.targets.get_int_absent member]

theorem planTotal_accepts {plan : Plan} (wellFormed : plan.WellFormed)
    (fits : plan.total ≤ maxInt64) : planTotal plan = .ok plan.total := by
  have nonneg := wellFormed.unassigned_nonneg
  simp only [planTotal]
  rw [if_neg (by omega)]
  exact addTargets_accepts wellFormed.named (fun name _ => wellFormed.targets_nonneg name) fits

/-! ## What each member adds to the budget -/

namespace MemberView

variable (m : MemberView)

/-- The replicas a member holds or is targeted for. -/
def held : Int := max m.current m.state.occupied

/-- The ready replicas a member serves under its applied target. -/
def servingShare : Int := if m.state.serving then min m.state.ready m.current else 0

/-- The ready replicas a routable member serves without a target. -/
def untargetedShare : Int := if m.routableWithoutTarget then m.state.ready else 0

/-- What a member takes out of the retirement allowance or puts into it. -/
def retirementShare : Int :=
  - max 0 (m.original - m.current) - (if m.state.drained then min m.original m.current else 0)
    + (if m.state.serving then max 0 (min m.state.ready m.current - m.original) else 0)

end MemberView

namespace TransitionCall

/-- `countMember` without its overflow check. -/
def absorb (t : TransitionCall) (m : MemberView) : TransitionCall :=
  { t with
    targetsGrow := t.targetsGrow || m.goal > m.current
    targetsShrink := t.targetsShrink || m.goal < m.current
    inUse := t.inUse + m.held
    retirementAllowance := t.retirementAllowance + m.retirementShare
    servingReady := t.servingReady + m.servingShare
    readyWithoutTarget := t.readyWithoutTarget + m.untargetedShare }

theorem countMember_eq (t : TransitionCall) (m : MemberView) :
    t.countMember m =
      if m.held > maxInt64 - t.inUse then .error .occupiedOverflow else .ok (t.absorb m) := by
  have share : t.retirementAllowance + m.retirementShare =
      t.retirementAllowance - max 0 (m.original - m.current)
      - (if m.state.drained then min m.original m.current else 0)
      + (if m.state.serving then max 0 (min m.state.ready m.current - m.original) else 0) := by
    simp only [retirementShare]
    omega
  simp only [countMember, absorb, share, held, servingShare,
    untargetedShare]

theorem countMembers_ok :
    ∀ {members : List MemberView} {t t' : TransitionCall}, countMembers members t = .ok t' →
      t' = members.foldl absorb t ∧ ∀ m ∈ members, m.state.inconsistent = false
  | [], t, t', h => by
    cases h
    simp
  | m :: rest, t, t', h => by
    simp only [countMembers, countMember_eq] at h
    split at h
    · cases h
    · rename_i consistent
      split at h
      · cases h
      · rename_i counted
        split at counted
        · cases counted
        · cases counted
          obtain ⟨rest, others⟩ := countMembers_ok h
          refine ⟨rest, ?_⟩
          intro other member
          rcases mem_cons.mp member with rfl | later
          · simpa using consistent
          · exact others other later

theorem countMembers_accepts :
    ∀ {members : List MemberView} {t : TransitionCall},
      (∀ m ∈ members, m.state.inconsistent = false ∧ 0 ≤ m.held) →
      t.inUse + (members.map held).sum ≤ maxInt64 →
      countMembers members t = .ok (members.foldl absorb t)
  | [], _, _, _ => rfl
  | m :: rest, t, valid, fits => by
    obtain ⟨consistent, heldNonneg⟩ := valid m mem_cons_self
    have restValid : ∀ other ∈ rest, other.state.inconsistent = false ∧ 0 ≤ other.held :=
      fun other member => valid other (mem_cons_of_mem m member)
    have restNonneg : 0 ≤ (rest.map held).sum :=
      GoMap.sum_map_nonneg fun other member => (restValid other member).2
    simp only [map_cons, sum_cons] at fits
    have tail := countMembers_accepts (t := t.absorb m) restValid (by
      simp only [absorb]
      omega)
    simp only [countMembers, consistent, Bool.false_eq_true, if_false, countMember_eq]
    rw [if_neg (by omega)]
    exact tail

/-- The whole pass: each counter has the sum of the members' parts. -/
theorem foldl_absorb (members : List MemberView) (t : TransitionCall) :
    members.foldl absorb t =
      { t with
        targetsGrow := t.targetsGrow || members.any fun m => m.goal > m.current
        targetsShrink := t.targetsShrink || members.any fun m => m.goal < m.current
        inUse := t.inUse + (members.map held).sum
        retirementAllowance := t.retirementAllowance + (members.map retirementShare).sum
        servingReady := t.servingReady + (members.map servingShare).sum
        readyWithoutTarget := t.readyWithoutTarget + (members.map untargetedShare).sum } := by
  induction members generalizing t with
  | nil => simp
  | cons m rest ih =>
    rw [foldl_cons, ih]
    simp [absorb, Bool.or_assoc, add_assoc]

end TransitionCall

/-! ## The reading -/

theorem Transition.nodup_clusters (t : Transition) : t.clusters.Nodup :=
  (perm_insertionSort _ _).nodup_iff.mpr (nodup_dedup _)

theorem Transition.mem_clusters (t : Transition) (name : String) :
    name ∈ t.clusters ↔ name ∈ t.desired.targets.keys ∨ name ∈ t.fromPlan.targets.keys ∨
      name ∈ t.current.keys ∨ name ∈ t.members.keys := by
  rw [clusters, (perm_insertionSort _ _).mem_iff, mem_dedup]
  simp

theorem Transition.startTargets_get (t : Transition) (name : String) :
    t.startTargets.get name = t.current.get name := by
  rw [startTargets, GoMap.get_foldl_set]
  split
  · rfl
  · rename_i absent
    rw [t.mem_clusters] at absent
    push Not at absent
    exact (t.current.get_int_absent absent.2.2.1).symm

theorem Transition.mem_keys_startTargets (t : Transition) (name : String) :
    name ∈ t.startTargets.keys ↔ name ∈ t.clusters := by
  simp [startTargets, GoMap.mem_keys_foldl_set]

/-- An accepted input in closed form: what `readTransition` returned. -/
structure Reading (input : Transition) (wholeMembers : Bool) (t : TransitionCall) : Prop where
  input_eq : t.input = input
  whole_eq : t.wholeMembers = wholeMembers
  from_eq : t.fromReplicas = input.fromPlan.total
  desired_eq : t.desiredReplicas = input.desired.total
  from_wellFormed : input.fromPlan.WellFormed
  desired_wellFormed : input.desired.WellFormed
  current_named : "" ∉ input.current.keys
  members_named : "" ∉ input.members.keys
  current_nonneg : ∀ name, 0 ≤ input.current.get name
  surge_nonneg : 0 ≤ input.surge
  reserved_nonneg : 0 ≤ input.rolloutReserved
  members_eq : t.members = input.clusters.map input.view
  step_eq : t.step = { targets := input.startTargets }
  consistent : ∀ m ∈ t.members, m.state.inconsistent = false
  grow_eq : t.targetsGrow = t.members.any fun m => m.goal > m.current
  shrink_eq : t.targetsShrink = t.members.any fun m => m.goal < m.current
  inUse_eq : t.inUse = input.rolloutReserved + (t.members.map held).sum
  servingReady_eq : t.servingReady = (t.members.map servingShare).sum
  readyWithoutTarget_eq : t.readyWithoutTarget = (t.members.map untargetedShare).sum
  retirement_eq : t.retirementAllowance =
    let counted := max 0 (t.fromReplicas - t.desiredReplicas) +
      (t.members.map retirementShare).sum
    if t.fromReplicas - input.fromPlan.unassigned < t.desiredReplicas then
      min counted (max 0 (t.servingReady - t.desiredReplicas))
    else counted
  readyAboveDesired_eq :
    t.readyAboveDesired = max 0 (t.servingReady + t.readyWithoutTarget - t.desiredReplicas)
  servingAboveMinimum_eq :
    t.servingAboveMinimum = max 0 (t.servingReady - min t.fromReplicas t.desiredReplicas)
  budgetBlocked_eq : t.budgetBlocked = false

namespace TransitionCall

/-- The call `readTransition` builds before it counts the members. -/
def opened (input : Transition) (wholeMembers : Bool) : TransitionCall where
  input := input
  wholeMembers := wholeMembers
  fromReplicas := input.fromPlan.total
  desiredReplicas := input.desired.total
  members := input.clusters.map input.view
  step := { targets := input.startTargets }
  inUse := input.rolloutReserved
  retirementAllowance := max 0 (input.fromPlan.total - input.desired.total)

/-- The call `readTransition` returns when it refuses nothing. -/
def counted (input : Transition) (wholeMembers : Bool) : TransitionCall :=
  ((input.clusters.map input.view).foldl absorb (opened input wholeMembers)).deriveAllowances

end TransitionCall

theorem readTransition_ok (h : readTransition input wholeMembers = .ok t) :
    t = counted input wholeMembers ∧ input.fromPlan.WellFormed ∧
      input.desired.WellFormed ∧ Plan.WellFormed { targets := input.current, unassigned := 0 } ∧
      0 ≤ input.surge ∧ 0 ≤ input.rolloutReserved ∧ "" ∉ input.members.keys ∧
      ∀ m ∈ input.clusters.map input.view, m.state.inconsistent = false := by
  simp only [readTransition] at h
  split at h
  · cases h
  rename_i fromReplicas fromRead
  split at h
  · cases h
  rename_i desiredReplicas desiredRead
  split at h
  · cases h
  rename_i currentReplicas currentRead
  split at h
  · cases h
  obtain ⟨rfl, fromPlan⟩ := planTotal_ok fromRead
  obtain ⟨rfl, desired⟩ := planTotal_ok desiredRead
  obtain ⟨rfl, current⟩ := planTotal_ok currentRead
  simp only [readMembers] at h
  split at h
  · cases h
  rename_i listed
  split at listed
  · cases listed
  rename_i named
  cases listed
  simp only [readBudget] at h
  split at h
  · cases h
  rename_i counted
  obtain ⟨folded, consistent⟩ := countMembers_ok counted
  cases h
  refine ⟨?_, fromPlan, desired, current, by omega, by omega, named, consistent⟩
  rw [folded]
  rfl

section

variable (fromPlan : input.fromPlan.WellFormed) (desired : input.desired.WellFormed)
  (current : Plan.WellFormed { targets := input.current, unassigned := 0 })
  (surge : 0 ≤ input.surge) (reserved : 0 ≤ input.rolloutReserved)
  (named : "" ∉ input.members.keys)
  (consistent : ∀ m ∈ input.clusters.map input.view, m.state.inconsistent = false)
include fromPlan desired current surge reserved named consistent

theorem counted_reading : Reading input wholeMembers (counted input wholeMembers) := by
  rw [counted, foldl_absorb]
  exact
    { input_eq := rfl, whole_eq := rfl, from_eq := rfl, desired_eq := rfl
      from_wellFormed := fromPlan, desired_wellFormed := desired
      current_named := current.named, members_named := named
      current_nonneg := current.targets_nonneg
      surge_nonneg := surge, reserved_nonneg := reserved
      members_eq := rfl, step_eq := rfl, consistent := consistent
      grow_eq := Bool.false_or _, shrink_eq := Bool.false_or _
      inUse_eq := rfl, servingReady_eq := Int.zero_add _, readyWithoutTarget_eq := Int.zero_add _
      retirement_eq := rfl, readyAboveDesired_eq := rfl, servingAboveMinimum_eq := rfl
      budgetBlocked_eq := rfl }

/-- What fits `math.MaxInt64` and is consistent is not refused. -/
theorem readTransition_accepts (fromFits : input.fromPlan.total ≤ maxInt64)
    (desiredFits : input.desired.total ≤ maxInt64) (currentFits : input.current.total ≤ maxInt64)
    (heldFits : input.rolloutReserved +
      ((input.clusters.map input.view).map held).sum ≤ maxInt64) :
    readTransition input wholeMembers = .ok (counted input wholeMembers) := by
  have currentRead := planTotal_accepts current (by simpa [Plan.total] using currentFits)
  have heldNonneg : ∀ m ∈ input.clusters.map input.view, 0 ≤ m.held := by
    intro m member
    obtain ⟨name, -, rfl⟩ := mem_map.mp member
    exact (current.targets_nonneg name).trans (le_max_left _ _)
  have counted := countMembers_accepts
    (t := opened input wholeMembers)
    (fun m member => ⟨consistent m member, heldNonneg m member⟩) heldFits
  simp only [readTransition, planTotal_accepts fromPlan fromFits,
    planTotal_accepts desired desiredFits, currentRead]
  rw [if_neg (by omega)]
  simp only [readMembers, if_neg named, readBudget]
  rw [opened] at counted
  rw [counted]
  rfl

end

theorem readTransition_reading
    (h : readTransition input wholeMembers = .ok t) : Reading input wholeMembers t := by
  obtain ⟨rfl, fromPlan, desired, current, surge, reserved, named, consistent⟩ :=
    readTransition_ok h
  exact counted_reading fromPlan desired current surge reserved named consistent

end Ome.Placement.Allocation
