/-
# Ome.Placement.Allocation.Transition — one step of a move between allocations

The model of `allocation/transition.go`.  A placement moves replica floors from
an original plan to a desired one, one persisted step at a time.  `advance`
(`Advance`) and `advanceWholeMembers` (`AdvanceWholeMembers`) read the plans, the
applied targets and one observation per cluster, and return the next `Step`: a
set of members to resume, a set to drain with targets to lower, or targets to
raise, never two of these at once.

The read is fallible and the first problem in source order is the error
(`TransitionError`).  Counts are integers: every total the code compares with
`math.MaxInt64` is compared here (`planTotal`, `countMember`, `planGrowth`), and
the per-member arithmetic stays between zero and a target that passed the check.

`TransitionCall` is the `transition` record of the source.  `planReductions` and
`planGrowth` are its two passes over the members; both write the step's targets
and spend the allowances `readBudget` derived.
-/
import Ome.Theory.GoMap

namespace Ome.Placement.Allocation

open Ome.Theory

set_option autoImplicit false

def maxInt64 : Int := 2 ^ 63 - 1

/-! ## Plans and observations -/

/-- Whole replica units per cluster, and those no cluster holds. -/
structure Plan where
  targets : GoMap String Int
  unassigned : Int

inductive PlanError where
  | negativeUnassigned
  | badTarget
  | totalOverflow
  deriving DecidableEq

/-- The loop of `planTotal` over the remaining names. -/
def addTargets (count : String → Int) : List String → Int → Except PlanError Int
  | [], total => .ok total
  | name :: rest, total =>
    if name = "" ∨ count name < 0 then .error .badTarget
    else if count name > maxInt64 - total then .error .totalOverflow
    else addTargets count rest (total + count name)

def planTotal (plan : Plan) : Except PlanError Int :=
  if plan.unassigned < 0 then .error .negativeUnassigned
  else addTargets plan.targets.get plan.targets.keys plan.unassigned

/-- What the transition knows about one member under the applied allocation. -/
structure MemberState where
  known : Bool := false
  eligible : Bool := false
  applied : Bool := false
  routable : Bool := false
  drained : Bool := false
  absent : Bool := false
  ready : Int := 0
  occupied : Int := 0
  deriving DecidableEq

instance : Inhabited MemberState := ⟨{}⟩

namespace MemberState

def inconsistent (s : MemberState) : Bool :=
  s.ready < 0 || s.occupied < 0 || s.ready > s.occupied ||
    (s.absent && (!s.known || s.occupied > 0)) || (s.drained && s.routable)

def serving (s : MemberState) : Bool := s.known && s.applied && s.routable

end MemberState

/-- The input of one call.  `fromPlan` is kept over the whole move, retargets
included; `surge` is the shared allowance above the larger plan. -/
structure Transition where
  fromPlan : Plan
  current : GoMap String Int
  desired : Plan
  members : GoMap String MemberState
  surge : Int
  rolloutReserved : Int

inductive Reason where
  | unset
  | observationUnknown
  | awaitingMemberConvergence
  | replacementNotReady
  | surgeBudgetExhausted
  deriving DecidableEq

structure Step where
  targets : GoMap String Int
  drain : List String := []
  resume : List String := []
  reason : Reason := .unset
  complete : Bool := false

def Step.withReason (s : Step) (reason : Reason) : Step := { s with reason }

inductive TransitionError where
  | originalPlan (cause : PlanError)
  | desiredPlan (cause : PlanError)
  | currentTargets (cause : PlanError)
  | negativeAllowance
  | unnamedObservation
  | inconsistentObservation (cluster : String)
  | occupiedOverflow
  | surgeOverflow
  deriving DecidableEq

/-! ## One member as the transition reads it -/

structure MemberView where
  name : String
  original : Int
  current : Int
  goal : Int
  state : MemberState
  deriving DecidableEq

namespace MemberView

variable (m : MemberView)

def routableWithoutTarget : Bool := m.current == 0 && m.state.known && m.state.routable

def unknownStanding : Bool :=
  !m.state.known && (m.current > 0 || m.original > 0 || m.state.occupied > 0)

def needsResume : Bool := m.goal > 0 && m.current > 0 && m.state.drained

def aboveBothPlans : Bool := m.current > max m.original m.goal

def occupiedWithoutTarget : Bool :=
  m.current == 0 && m.goal == 0 && m.state.occupied > 0 && !m.state.drained

def reducible : Bool := m.current > m.goal && m.state.known && m.state.applied

def growable : Bool :=
  m.goal > m.current && m.state.known && m.state.eligible && (m.current == 0 || m.state.applied)

def unsettled : Bool :=
  (m.current > 0 && (!m.state.known || !m.state.applied)) ||
    (m.current == 0 && m.state.occupied > 0)

end MemberView

/-! ## Reading the input -/

/-- Every cluster a plan or an observation names, in name order. -/
def Transition.clusters (t : Transition) : List String :=
  (t.desired.targets.keys ++ t.fromPlan.targets.keys ++ t.current.keys ++
    t.members.keys).dedup.insertionSort (· ≤ ·)

def Transition.view (t : Transition) (name : String) : MemberView where
  name := name
  original := t.fromPlan.targets.get name
  current := t.current.get name
  goal := t.desired.targets.get name
  state := t.members.get name

/-- The step starts at the applied targets, one entry for every cluster. -/
def Transition.startTargets (t : Transition) : GoMap String Int :=
  t.clusters.foldl (fun targets name => targets.set name (t.current.get name)) .empty

/-- The `transition` record: one call as it reads its input, the budget the move
may spend and the step it builds. -/
structure TransitionCall where
  input : Transition
  wholeMembers : Bool
  fromReplicas : Int
  desiredReplicas : Int
  members : List MemberView
  step : Step
  targetsGrow : Bool := false
  targetsShrink : Bool := false
  inUse : Int := 0
  servingReady : Int := 0
  readyWithoutTarget : Int := 0
  retirementAllowance : Int := 0
  readyAboveDesired : Int := 0
  servingAboveMinimum : Int := 0
  growthAllowance : Int := 0
  budgetBlocked : Bool := false

namespace TransitionCall

def readMembers (t : TransitionCall) : Except TransitionError TransitionCall :=
  if "" ∈ t.input.members.keys then .error .unnamedObservation
  else .ok { t with
    members := t.input.clusters.map t.input.view
    step := { targets := t.input.startTargets } }

/-- Add one member to the budget: its replicas to those in use, its retired and
drained originals out of the retirement allowance, its serving replicas above
the original count into it. -/
def countMember (t : TransitionCall) (m : MemberView) : Except TransitionError TransitionCall :=
  let occupied := max m.current m.state.occupied
  if occupied > maxInt64 - t.inUse then .error .occupiedOverflow
  else .ok { t with
    targetsGrow := t.targetsGrow || m.goal > m.current
    targetsShrink := t.targetsShrink || m.goal < m.current
    inUse := t.inUse + occupied
    retirementAllowance := t.retirementAllowance - max 0 (m.original - m.current)
      - (if m.state.drained then min m.original m.current else 0)
      + (if m.state.serving then max 0 (min m.state.ready m.current - m.original) else 0)
    servingReady := t.servingReady +
      (if m.state.serving then min m.state.ready m.current else 0)
    readyWithoutTarget := t.readyWithoutTarget +
      (if m.routableWithoutTarget then m.state.ready else 0) }

/-- The loop of `readBudget`: each observation is validated, then counted. -/
def countMembers : List MemberView → TransitionCall → Except TransitionError TransitionCall
  | [], t => .ok t
  | m :: rest, t =>
    if m.state.inconsistent then .error (.inconsistentObservation m.name)
    else match t.countMember m with
      | .error e => .error e
      | .ok t => countMembers rest t

/-- The allowances a step may spend, from the counted members. -/
def deriveAllowances (t : TransitionCall) : TransitionCall :=
  { t with
    -- A retarget that raises the total keeps what already serves.
    retirementAllowance :=
      if t.fromReplicas - t.input.fromPlan.unassigned < t.desiredReplicas then
        min t.retirementAllowance (max 0 (t.servingReady - t.desiredReplicas))
      else t.retirementAllowance
    readyAboveDesired := max 0 (t.servingReady + t.readyWithoutTarget - t.desiredReplicas)
    servingAboveMinimum := max 0 (t.servingReady - min t.fromReplicas t.desiredReplicas) }

def readBudget (t : TransitionCall) : Except TransitionError TransitionCall :=
  match countMembers t.members { t with
      inUse := t.input.rolloutReserved
      retirementAllowance := max 0 (t.fromReplicas - t.desiredReplicas) } with
  | .error e => .error e
  | .ok t => .ok t.deriveAllowances

end TransitionCall

variable (input : Transition)

def readTransition (wholeMembers : Bool) : Except TransitionError TransitionCall :=
  match planTotal input.fromPlan with
  | .error e => .error (.originalPlan e)
  | .ok fromReplicas =>
    match planTotal input.desired with
    | .error e => .error (.desiredPlan e)
    | .ok desiredReplicas =>
      match planTotal { targets := input.current, unassigned := 0 } with
      | .error e => .error (.currentTargets e)
      | .ok _ =>
        if input.rolloutReserved < 0 ∨ input.surge < 0 then .error .negativeAllowance
        else
          let t : TransitionCall :=
            { input, wholeMembers, fromReplicas, desiredReplicas, members := [],
              step := { targets := .empty } }
          match t.readMembers with
          | .error e => .error e
          | .ok t => t.readBudget

/-! ## The two passes -/

namespace TransitionCall

variable (t : TransitionCall)

/-- The members in name order, those above both plans first. -/
def reductionOrder : List MemberView :=
  t.members.insertionSort fun left right => left.aboveBothPlans ∨ ¬ right.aboveBothPlans

def setTarget (name : String) (count : Int) : TransitionCall :=
  { t with step := { t.step with targets := t.step.targets.set name count } }

def addDrain (name : String) : TransitionCall :=
  { t with step := { t.step with drain := t.step.drain ++ [name] } }

/-- A routable member no plan targets waits until the ready capacity above the
desired total covers its own, and spends that capacity. -/
def drainWithoutTarget (m : MemberView) : TransitionCall :=
  if m.state.routable then
    if m.state.ready > t.readyAboveDesired then t
    else { t with readyAboveDesired := t.readyAboveDesired - m.state.ready }.addDrain m.name
  else t.addDrain m.name

/-- The replicas of a member that back nothing: all of a drained member's; while
the member awaits publication, or under a whole-member move, those above the
larger of its original and its ready count. -/
def unbackedReplicas (m : MemberView) : Int :=
  if m.state.drained then m.current
  else if !m.state.routable || m.state.ready == 0 || t.wholeMembers then
    max 0 (m.current - max m.original m.state.ready)
  else 0

/-- How far the allowances let a member come down. -/
def fundedReduction (m : MemberView) : Int :=
  let reduce := min (m.current - m.goal) (t.unbackedReplicas m + max 0 t.retirementAllowance)
  if m.state.routable then
    min reduce (max 0 (m.current - m.state.ready) + t.servingAboveMinimum)
  else reduce

def reduceFunded (m : MemberView) : TransitionCall :=
  let unbacked := t.unbackedReplicas m
  let reduce := t.fundedReduction m
  let servingCost :=
    if m.state.routable then max 0 (reduce - max 0 (m.current - m.state.ready)) else 0
  if reduce == 0 || (t.wholeMembers && reduce < m.current - m.goal) then t
  else
    let t := { t with
      servingAboveMinimum := t.servingAboveMinimum - servingCost
      retirementAllowance := t.retirementAllowance - max 0 (reduce - unbacked) }
    if m.current == reduce && !m.state.drained then t.addDrain m.name
    else t.setTarget m.name (t.step.targets.get m.name - reduce)

def planReduction (m : MemberView) : TransitionCall :=
  if m.occupiedWithoutTarget then t.drainWithoutTarget m
  else if m.state.absent && m.current > m.goal then t.setTarget m.name m.goal
  else if m.reducible then t.reduceFunded m
  else t

def planReductions : TransitionCall := t.reductionOrder.foldl planReduction t

/-- What a serving member already has ready below its goal: growth up to it
starts no replica.  A whole-member move makes no such distinction. -/
def readyGrowth (m : MemberView) : Int :=
  if !t.wholeMembers && m.state.serving then max 0 (min m.goal m.state.ready - m.current) else 0

def growMember (m : MemberView) : TransitionCall :=
  if !m.growable then t
  else
    let ready := t.readyGrowth m
    let add := ready + min (m.goal - m.current - ready) t.growthAllowance
    if t.wholeMembers && add < m.goal - m.current then { t with budgetBlocked := true }
    else
      { t with growthAllowance := t.growthAllowance - (add - ready) }.setTarget m.name
        (t.step.targets.get m.name + add)

def planGrowth : Except TransitionError TransitionCall :=
  let limit := max t.fromReplicas t.desiredReplicas
  if t.input.surge > maxInt64 - limit then .error .surgeOverflow
  else .ok (t.members.foldl growMember
    { t with growthAllowance := max 0 (limit + t.input.surge - t.inUse) })

/-! ## The decision -/

def sameTargets (a b : GoMap String Int) : Bool :=
  a.keys.all (fun name => b.get name == a.get name) &&
    b.keys.all (fun name => a.get name == b.get name)

def movesReplicas : Bool :=
  !t.step.drain.isEmpty || !sameTargets t.step.targets t.input.current

def hasUnknownStandingMember : Bool := t.members.any MemberView.unknownStanding

def hasUnsettledMember : Bool := t.members.any MemberView.unsettled

def resumeDrainedMembers : TransitionCall :=
  { t with step := { t.step with
      resume := (t.members.filter MemberView.needsResume).map MemberView.name } }

def waitingReason : Reason :=
  if t.targetsGrow && (t.growthAllowance == 0 || t.budgetBlocked) then .surgeBudgetExhausted
  else .replacementNotReady

/-- The first of these that applies: an unknown standing member holds the move;
drained members both plans keep resume; reductions; growth; the reason nothing
moves; a member that has not settled; complete. -/
def decide : Except TransitionError Step :=
  if t.hasUnknownStandingMember then .ok (t.step.withReason .observationUnknown)
  else
    let t := t.resumeDrainedMembers
    if !t.step.resume.isEmpty then .ok (t.step.withReason .awaitingMemberConvergence)
    else
      let t := t.planReductions
      if t.movesReplicas then .ok (t.step.withReason .awaitingMemberConvergence)
      else match t.planGrowth with
        | .error e => .error e
        | .ok t =>
          if t.movesReplicas then .ok (t.step.withReason .awaitingMemberConvergence)
          else if t.targetsGrow || t.targetsShrink then .ok (t.step.withReason t.waitingReason)
          else if t.hasUnsettledMember then .ok (t.step.withReason .awaitingMemberConvergence)
          else .ok { t.step with complete := true }

end TransitionCall

def advanceTransition (wholeMembers : Bool) : Except TransitionError Step :=
  match readTransition input wholeMembers with
  | .error e => .error e
  | .ok t => t.decide

/-- `Advance`: partial moves, within the shared allowances. -/
def advance : Except TransitionError Step := advanceTransition input false

/-- `AdvanceWholeMembers`: a target changes directly to its desired floor. -/
def advanceWholeMembers : Except TransitionError Step :=
  advanceTransition input true

end Ome.Placement.Allocation
