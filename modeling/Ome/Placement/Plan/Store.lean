/-
# Ome.Placement.Plan.Store — persisting a plan against a shared object

The model of `placement/plan/store.go`.  A `Persist` call reads the source, checks
that it is still the snapshot the caller planned from, numbers its allocation after
the stored plan, updates the status at the version it read, and reads the object
back.  A conflict repeats the attempt, at most five times, on the same allocation
record, which the attempt before has already numbered.

The API server is a cell written by compare and swap; `System` runs any number of
calls against it, one access at a time, between the writes of others:

* a call may start from any past value of the object, may fail between two accesses,
  and may lose the reply to an update that was made;
* other writers of the status leave the plan and its allocations alone;
* edits change the metadata, or the intent together with the generation.
-/
import Ome.Placement.Plan.Prepare
import Ome.Theory.Versioned

namespace Ome.Placement.Plan

open Ome.Theory Ome.Placement.Protocol

set_option autoImplicit false

/-! ## Comparisons -/

def planOf (source : InferenceService) : Option PlanStatus :=
  source.placement.bind PlacementStatus.plan

def sameSnapshot (expected current : InferenceService) : Bool :=
  if expected.uid ≠ current.uid ∨ expected.generation ≠ current.generation ∨
      current.deletionTimestamp ≠ none ∨ expected.annotations ≠ current.annotations ∨
      expected.labels ≠ current.labels then false
  else match planOf expected, planOf current with
  | none, none => true
  | some a, some b => a.id = b.id ∧ a.revision = b.revision
  | _, _ => false

/-- A stored plan is the proposed one, up to what its identity leaves out. -/
def equivalent (stored : Option PlacementStatus) (proposed : PlacementStatus) : Bool :=
  match stored with
  | none => false
  | some status =>
    match status.plan with
    | none => false
    | some plan =>
      if plan.revision ≤ 0 then false
      else equalAllocation (some (identity status)) (some (identity proposed))

/-! ## Merging -/

/-- One candidate: observations are kept for the same incarnation of the cluster, and
in `All` mode for a cluster that had no allocation. -/
def mergeCandidate (old : List CandidatePlacement) (mode : PlacementMode)
    (desired : CandidatePlacement) : CandidatePlacement :=
  -- A later candidate of one name replaces an earlier one in the map of old candidates.
  let kept := (old.reverse.find? fun c => c.cluster = desired.cluster).getD default
  let candidate :=
    if kept.allocation = none ∨ kept.allocation.map CandidateAllocation.clusterUID ≠
        desired.allocation.map CandidateAllocation.clusterUID then
      if kept.allocation = none ∧ mode = .all then
        { kept with cluster := desired.cluster, observationKnown := false, appliedPlanID := "" }
      else { (default : CandidatePlacement) with cluster := desired.cluster }
    else kept
  { candidate with allocation := desired.allocation }

/-- The mode of a status's plan. -/
def PlacementStatus.mode (status : PlacementStatus) : PlacementMode :=
  status.plan.elim .unset PlanStatus.mode

def mergeAllocation (source : InferenceService) (allocation : PlacementStatus) :
    InferenceService :=
  let placement := source.placement.getD default
  { source with
    placement := some
      { placement with
        plan := allocation.plan
        candidates := allocation.candidates.map
          (mergeCandidate placement.candidates allocation.mode)
        cluster :=
          if allocation.mode = .single then allocation.plan.elim "" PlanStatus.winner
          else placement.cluster } }

/-! ## One call -/

inductive StoreError where
  | unidentified
  | derived
  | prepare (cause : PrepareError)
  | staleSnapshot
  | schemaUnsupported
  | exhausted
  | conflict
  | transport
  deriving DecidableEq

/-- Where a call is: before its read, with what it read and before its update, before
reading back, or returned. -/
inductive Phase where
  | reading
  | updating (current : Versioned InferenceService)
  | readingBack
  | returned (result : Except StoreError InferenceService)
  deriving DecidableEq

structure Call where
  source : InferenceService
  proposal : Proposal
  digest : String
  allocation : PlacementStatus
  attempts : Nat
  phase : Phase

def placementOrigin : String := "ome.io/placement-origin"

def placementOriginUID : String := "ome.io/placement-origin-uid"

/-- The checks of a call before its first read. -/
def validateCall (digest : PlacementStatus → String) (source : InferenceService)
    (proposal : Proposal) : Except StoreError PlacementStatus :=
  if source.uid = "" ∨ source.generation ≤ 0 ∨ usesClusterAffinity source.spec = false ∨
      source.deletionTimestamp ≠ none then .error .unidentified
  else if source.labels.get placementOrigin ≠ "" ∨
      source.annotations.get placementOriginUID ≠ "" then .error .derived
  else (prepare digest source proposal).mapError .prepare

/-- `retry.DefaultRetry`. -/
def retrySteps : Nat := 5

namespace Call

def fail (call : Call) (e : StoreError) : Call := { call with phase := .returned (.error e) }

def succeed (call : Call) (persisted : InferenceService) : Call :=
  { call with phase := .returned (.ok persisted) }

def start (digest : PlacementStatus → String) (source : InferenceService)
    (proposal : Proposal) : Call :=
  match validateCall digest source proposal with
  | .error e =>
    { source, proposal, digest := "", allocation := default, attempts := 0
      phase := .returned (.error e) }
  | .ok allocation =>
    { source, proposal, allocation, attempts := retrySteps, phase := .reading
      digest := allocation.plan.elim "" PlanStatus.id }

end Call

def planID (digest : String) (revision : Int) : String := digest ++ "." ++ toString revision

namespace Call

/-- The allocation numbered for an update at what was read. -/
def number (call : Call) (current : Versioned InferenceService) (revision : Int) : Call :=
  { call with
    allocation := numbered call.allocation (planID call.digest revision) revision
    phase := .updating current }

/-- The read of an attempt, up to its update. -/
def read (call : Call) (current : Versioned InferenceService) : Call :=
  if sameSnapshot call.source current.value = false then call.fail .staleSnapshot
  else match planOf current.value with
  | none => call.number current 1
  | some previous =>
    if previous.id = planID call.digest previous.revision then
      if equivalent current.value.placement call.allocation then call.succeed current.value
      else call.fail .schemaUnsupported
    else if previous.revision ≤ 0 ∨ previous.revision = maxInt64 ∨
        previous.sourceUID ≠ call.source.uid then call.fail .exhausted
    else call.number current (previous.revision + 1)

/-- After a conflict: another attempt, unless this was the last. -/
def retry (call : Call) : Call :=
  if call.attempts ≤ 1 then call.fail .conflict
  else { call with attempts := call.attempts - 1, phase := .reading }

/-- The object an update leaves: the status is submitted, the rest is the server's. -/
def submitted (call : Call) (current stored : InferenceService) : InferenceService :=
  { stored with placement := (mergeAllocation current call.allocation).placement }

/-- The verification of what was read back. -/
def readBack (call : Call) (persisted : InferenceService) : Call :=
  let authority := { call.source with placement := some call.allocation }
  if sameSnapshot authority persisted = false then
    if planOf persisted = none ∧ persisted.uid = call.source.uid ∧
        persisted.generation = call.source.generation then call.fail .schemaUnsupported
    else call.fail .staleSnapshot
  else if equalAllocation persisted.placement (some call.allocation) = false then
    call.fail .schemaUnsupported
  else call.succeed persisted

end Call

/-! ## Calls against the API server -/

/-- The object, its past values and the calls. -/
structure System where
  server : Versioned InferenceService
  past : List InferenceService
  calls : Nat → Option Call

namespace System

def initial (value : InferenceService) : System :=
  { server := ⟨value, 0⟩, past := [value], calls := fun _ => none }

def setCall (s : System) (i : Nat) (call : Call) : System :=
  { s with calls := Function.update s.calls i (some call) }

@[simp] theorem setCall_self (s : System) (i : Nat) (call : Call) :
    (s.setCall i call).calls i = some call :=
  Function.update_self _ _ _

theorem setCall_of_ne (s : System) {i j : Nat} (call : Call) (ne : j ≠ i) :
    (s.setCall i call).calls j = s.calls j :=
  Function.update_of_ne ne _ _

def write (s : System) (value : InferenceService) : System :=
  { s with server := s.server.put value, past := value :: s.past }

end System

/-- Another writer of the status leaves the plan and its allocations alone. -/
def KeepsPlan (before after : Option PlacementStatus) : Prop :=
  after.bind PlacementStatus.plan = before.bind PlacementStatus.plan ∧
    ∀ b, before = some b → b.plan ≠ none → ∃ a, after = some a ∧
      (a.candidates.map CandidatePlacement.entry).Perm (b.candidates.map CandidatePlacement.entry)

/-- An edit of the metadata, or of the intent with a new generation. -/
structure Edits (before after : InferenceService) : Prop where
  uid : after.uid = before.uid
  placement : after.placement = before.placement
  intent : after.generation = before.generation + 1 ∨
    after.generation = before.generation ∧ after.spec = before.spec ∧
      after.hasEngine = before.hasEngine ∧ after.hasDecoder = before.hasDecoder

inductive Actor where
  | call (i : Nat)
  | other

/-- One access of a call, or one write of another party. -/
inductive Step (digest : PlacementStatus → String) : Actor → System → System → Prop
  | start {s : System} (i : Nat) (source : InferenceService) (proposal : Proposal)
      (snapshot : source ∈ s.past) (idle : s.calls i = none) :
      Step digest (.call i) s (s.setCall i (Call.start digest source proposal))
  | read {s : System} {i : Nat} {call : Call} (running : s.calls i = some call)
      (phase : call.phase = .reading) :
      Step digest (.call i) s (s.setCall i (call.read s.server))
  | update {s : System} {i : Nat} {call : Call} {current : Versioned InferenceService}
      (running : s.calls i = some call) (phase : call.phase = .updating current)
      (accepted : current.version = s.server.version) :
      Step digest (.call i) s ((s.write (call.submitted current.value s.server.value)).setCall i
        { call with phase := .readingBack })
  | conflict {s : System} {i : Nat} {call : Call} {current : Versioned InferenceService}
      (running : s.calls i = some call) (phase : call.phase = .updating current)
      (refused : current.version ≠ s.server.version) :
      Step digest (.call i) s (s.setCall i call.retry)
  /-- The update is made and its reply is lost. -/
  | lost {s : System} {i : Nat} {call : Call} {current : Versioned InferenceService}
      (running : s.calls i = some call) (phase : call.phase = .updating current)
      (accepted : current.version = s.server.version) :
      Step digest (.call i) s ((s.write (call.submitted current.value s.server.value)).setCall i
        (call.fail .transport))
  | readBack {s : System} {i : Nat} {call : Call} (running : s.calls i = some call)
      (phase : call.phase = .readingBack) :
      Step digest (.call i) s (s.setCall i (call.readBack s.server.value))
  | fail {s : System} {i : Nat} {call : Call} (running : s.calls i = some call)
      (phase : ∀ result, call.phase ≠ .returned result) :
      Step digest (.call i) s (s.setCall i (call.fail .transport))
  | status {s : System} (placement : Option PlacementStatus)
      (keeps : KeepsPlan s.server.value.placement placement) :
      Step digest .other s (s.write { s.server.value with placement })
  | edit {s : System} (value : InferenceService) (edits : Edits s.server.value value) :
      Step digest .other s (s.write value)

/-- A run: any interleaving of accesses and writes. -/
def Run (digest : PlacementStatus → String) : System → System → Prop :=
  Relation.ReflTransGen fun s s' => ∃ actor, Step digest actor s s'

end Ome.Placement.Plan
