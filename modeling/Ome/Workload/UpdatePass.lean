/-
# Ome.Workload.UpdatePass — which starts an update pass admits

The model of `updateAdmission` and of the loop of `executeUpdatePass` in
`workload/pass_update.go`.  A fresh start answers to the plan gate, to the budget of the
mechanism it runs on, and to the coordination gate; the starts of the pass are charged as
they open.

The gates are inputs.  The plan gate is asked once and its answer kept; the coordination
gate reads live state, so that each consult has its own.  What the operation of an item
does is reduced to whether it returns an error, which ends the pass.  The hold that the
pass reports, its requeue, the texts of the holds, and the wait that it stamps on a parked
attempt are left out.  Counts and their sums wrap as `int32` does.
-/
import Ome.Workload.SurgeSlots

namespace Ome.Workload

open Ome.Theory

set_option autoImplicit false

inductive UpdateStrategyType where
  | surgeThenDrain
  | recreatePod
  | inPlaceIfPossible
  | inPlaceOnly
  deriving DecidableEq

inductive RolloutHoldGate where
  | ratio
  | sequential
  | budget
  | retryBlock
  | held
  | pairing
  deriving DecidableEq

structure RolloutHold where
  gate : RolloutHoldGate
  target : String
  deriving DecidableEq

/-- Whether a gate allows, and otherwise which one denies. -/
structure GateAnswer where
  allowed : Bool
  gate : RolloutHoldGate
  deriving DecidableEq

structure UpdateItem where
  inst : InstancePlan
  adoptRevision : Bool
  startingFresh : Bool
  coordGateExempt : Bool
  recreateFallback : Bool
  cleanupOnly : Bool
  deriving DecidableEq

structure UpdateSelection where
  items : List UpdateItem
  strategy : UpdateStrategyType
  surgeBudget : Int
  unavailBudget : Int
  priorSurgeInFlight : Int
  priorUnavailInFlight : Int
  extraPodSurge : ExtraPodSurge
  rolledNotServing : List Int
  notServingOutsideRoll : List Int

def UpdateSelection.downOutsideRoll (selection : UpdateSelection) (idx : Int) : Bool :=
  idx ∈ selection.notServingOutsideRoll

/-- What the pass is given beside its selection. -/
structure PassInput where
  target : String
  /-- The row that the pass read for an index. -/
  observed : Int → Option InstanceStatus
  /-- The answer of the plan gate, if one is wired. -/
  planGate : Option GateAnswer

/-- The coordination gate: the revision left, the mechanism, and the pass's starts so far. -/
abbrev UpdateGate := String → UpdateStrategyType → Int → Int → GateAnswer

/-! ## Admission -/

structure UpdateAdmission where
  inFlightSurge : Int
  inFlightUnavail : Int
  /-- The slots of live extra pods that the pass's starts replace. -/
  replacedExtraSlots : Int
  /-- The Instances down outside the roll that they replace. -/
  replacedDownOutsideRoll : Int
  /-- The starts that take a serving pod out of rotation. -/
  gateUnavail : Int
  deriving DecidableEq

def newUpdateAdmission : UpdateAdmission := ⟨0, 0, 0, 0, 0⟩

section Admission

variable (input : PassInput) (selection : UpdateSelection)

/-- The strategy that a start runs on. -/
def mechanism (item : UpdateItem) : UpdateStrategyType :=
  if item.recreateFallback then .recreatePod else selection.strategy

def surgeStart (item : UpdateItem) : Bool := mechanism selection item = .surgeThenDrain

def fromRevision (item : UpdateItem) : String :=
  match input.observed item.inst.index with
  | some row => row.runningRevision
  | none => ""

/-- The start rebuilds in place an Instance that never ran a revision. -/
def rebuildOfANeverPromotedInstance (item : UpdateItem) : Bool :=
  !surgeStart selection item && (input.observed item.inst.index).any fun row =>
    row.runningRevision = "" ∧ row.phase = .failed

def recordedPlanHold : Option RolloutHold :=
  match input.planGate with
  | none => none
  | some answer =>
    if answer.allowed then none else some ⟨answer.gate, input.target⟩

variable (a : UpdateAdmission)

/-- What Instances down outside the roll hold of the unavailability budget beside an item. -/
def downOutsideRollBeside (item : UpdateItem) : Int :=
  if selection.downOutsideRoll item.inst.index then 0
  else wrap32 (selection.notServingOutsideRoll.length - a.replacedDownOutsideRoll)

/-- What extra pods hold of the surge budget when an item is consulted. -/
def unreplacedExtraSlots (item : UpdateItem) : Int :=
  if 0 < selection.extraPodSurge.liveSlotsByInstance.get item.inst.index then
    selection.extraPodSurge.terminatingSlots
  else wrap32 (selection.extraPodSurge.slots - a.replacedExtraSlots)

/-- The verdict of the surge budget on an item. -/
def surgeVerdict (item : UpdateItem) : Int × Bool :=
  budgetDenies selection.surgeBudget
    (wrap32 (selection.priorSurgeInFlight + selection.rolledNotServing.length +
      unreplacedExtraSlots selection a item)) a.inFlightSurge

/-- The verdict of the unavailability budget on an item. -/
def unavailVerdict (item : UpdateItem) : Int × Bool :=
  budgetDenies selection.unavailBudget
    (wrap32 (selection.priorUnavailInFlight + selection.rolledNotServing.length +
      downOutsideRollBeside selection a item)) a.inFlightUnavail

/-- The hold of the budget that an item answers to. -/
def budgetHold (item : UpdateItem) : Option RolloutHold :=
  if rebuildOfANeverPromotedInstance input selection item then none
  else if surgeStart selection item then
    if (surgeVerdict selection a item).2 then some ⟨.budget, input.target⟩ else none
  else if (unavailVerdict selection a item).2 then some ⟨.budget, input.target⟩
  else none

/-- The hold of the coordination gate, which an exempt start does not ask. -/
def coordinationHold (gate : Option UpdateGate) (item : UpdateItem) : Option RolloutHold :=
  match gate with
  | none => none
  | some gate =>
    if item.coordGateExempt then none
    else
      let answer := gate (fromRevision input item) (mechanism selection item) a.inFlightSurge
        a.gateUnavail
      if answer.allowed then none else some ⟨answer.gate, input.target⟩

/-- The first hold that denies an item; it may start when there is none. -/
def admitItem (gate : Option UpdateGate) (item : UpdateItem) : Option RolloutHold :=
  (recordedPlanHold input).or
    ((budgetHold input selection a item).or (coordinationHold input selection a gate item))

/-- A start that the pass opened. -/
def charge (item : UpdateItem) : UpdateAdmission :=
  if surgeStart selection item then
    { a with
      inFlightSurge := wrap32 (a.inFlightSurge + 1)
      replacedExtraSlots := wrap32 (a.replacedExtraSlots +
        selection.extraPodSurge.liveSlotsByInstance.get item.inst.index) }
  else
    { a with
      inFlightUnavail := wrap32 (a.inFlightUnavail + 1)
      replacedDownOutsideRoll :=
        if selection.downOutsideRoll item.inst.index then wrap32 (a.replacedDownOutsideRoll + 1)
        else a.replacedDownOutsideRoll
      gateUnavail :=
        if item.coordGateExempt then a.gateUnavail else wrap32 (a.gateUnavail + 1) }

end Admission

/-! ## The pass -/

/-- How the world answers when an item is reached: the coordination gate, and whether the
operation of the item returns an error. -/
structure Answer where
  gate : Option UpdateGate
  fails : Bool

/-- The pass so far, with the fresh starts that it has admitted. -/
structure PassState where
  admission : UpdateAdmission
  started : List UpdateItem
  failed : Bool

section Pass

variable (input : PassInput) (selection : UpdateSelection)

def PassState.start : PassState := ⟨newUpdateAdmission, [], false⟩

/-- One item.  An adoption, a cleanup and the continuation of an update in flight are
neither admitted nor charged. -/
def visit (s : PassState) (visited : UpdateItem × Answer) : PassState :=
  let item := visited.1
  let fails := visited.2.fails
  if s.failed then s
  else if item.adoptRevision ∨ item.cleanupOnly ∨ ¬ item.startingFresh then
    { s with failed := fails }
  else if (admitItem input selection s.admission visited.2.gate item).isSome then s
  else if fails then { s with started := s.started ++ [item], failed := true }
  else
    { s with
      admission := charge selection s.admission item
      started := s.started ++ [item] }

/-- The pass after its first items, each met by an answer. -/
def executeUpdatePass (answers : UpdateItem → Answer) (items : Nat) : PassState :=
  ((selection.items.take items).map fun item => (item, answers item)).foldl
    (visit input selection) .start

end Pass

end Ome.Workload
