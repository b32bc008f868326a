/-
# Ome.Placement.Protocol.Policy — the authority a member executes under

The model of `Validate`, `Authorize` and the demand checks of
`placement/protocol/policy.go` and of the floor checks of `floors.go` they call.
A source projects an execution policy onto its member copies; a member replaces
the policy it holds only when `authorize` accepts the next one.  An error is
`some`, acceptance is `none`; a missing policy is `none`.  Lists stand for slices
and policies are compared with `=`, as `Semantic.DeepEqual` takes a nil slice and
an empty one for equal.

Deliveries may be late, repeated or lost, so a run of a member is any chain of
replacements (`Replaces`).  `member_moves_forward` says that whatever is delivered
the policy only moves forward.
-/
import Ome.Placement.Protocol.Floors
import Ome.Theory.Runs

namespace Ome.Placement.Protocol

open Ome.Theory

set_option autoImplicit false

/-! ## Policies -/

structure ComponentDemand where
  component : Component
  renderingHash : String
  deriving DecidableEq

structure DemandContract where
  fingerprint : String
  components : List ComponentDemand
  deriving DecidableEq

structure ExecutionPolicy where
  planID : String
  revision : Int
  sourceUID : String
  clusterUID : String
  pauseSurge : Bool
  demand : Option DemandContract
  replicaFloors : List ComponentFloor
  deriving DecidableEq

inductive PolicyError where
  | incomplete
  | demandIncomplete
  | demandComponent (component : Component)
  | demandUndeclared (component : Component)
  | demandMissing (component : Component)
  | floorComponents
  | noReplicaComponent
  | zeroFloor (component : Component)
  | identityChanged
  | staleRevision
  deriving DecidableEq

/-! ## The checks -/

/-- What the loop of `validateReplicaFloors` has seen so far. -/
structure FloorsSeen where
  seen : List Component
  replicas : Int
  hasReplicaComponent : Bool
  hasEngine : Bool

def validateFloors : List ComponentFloor → FloorsSeen → Except PolicyError Int
  | [], s => if s.hasReplicaComponent then .ok s.replicas else .error .noReplicaComponent
  | floor :: rest, s =>
    if floor.component = .encoder ∨ floor.component ∈ s.seen ∨ floor.replicas < 0 then
      .error .floorComponents
    else
      let s := { s with seen := floor.component :: s.seen }
      if floor.component = .router then validateFloors rest s
      else validateFloors rest
        { s with
          replicas :=
            if floor.component = .engine ∨ s.hasEngine = false then floor.replicas
            else s.replicas
          hasEngine := s.hasEngine || floor.component = .engine
          hasReplicaComponent := true }

def validateReplicaFloors (floors : List ComponentFloor) : Except PolicyError Int :=
  validateFloors floors ⟨[], 0, false, false⟩

def validatePositiveReplicaFloors (floors : List ComponentFloor) : Except PolicyError Int :=
  match validateReplicaFloors floors with
  | .error e => .error e
  | .ok replicas =>
    match floors.find? fun floor => floor.replicas = 0 with
    | some floor => .error (.zeroFloor floor.component)
    | none => .ok replicas

/-- A lowercase hexadecimal digest of 32 bytes. -/
def validHash (value : String) : Bool :=
  value.length = 64 && value.toList.all fun c =>
    ('0' ≤ c && c ≤ '9') || ('a' ≤ c && c ≤ 'f')

def validateDemandLoop : List ComponentDemand → List Component → Option PolicyError
  | [], _ => none
  | demand :: rest, seen =>
    if (demand.component ≠ .engine ∧ demand.component ≠ .decoder) ∨ demand.component ∈ seen ∨
        validHash demand.renderingHash = false then
      some (.demandComponent demand.component)
    else validateDemandLoop rest (demand.component :: seen)

def validateDemand (demand : Option DemandContract) : Option PolicyError :=
  match demand with
  | none => some .demandIncomplete
  | some demand =>
    if validHash demand.fingerprint = false ∨ demand.components = [] then some .demandIncomplete
    else validateDemandLoop demand.components []

/-- The renderings are exactly those of the components the service declares. -/
def validateDemandComponents (declared : List Component) (demand : Option DemandContract) :
    Option PolicyError :=
  match validateDemand demand with
  | some e => some e
  | none =>
    let named := (demand.elim [] DemandContract.components).map ComponentDemand.component
    match named.find? fun component => component ∉ declared with
    | some component => some (.demandUndeclared component)
    | none => (declared.find? fun component => component ∉ named).map .demandMissing

def validate (policy : Option ExecutionPolicy) : Option PolicyError :=
  match policy with
  | none => some .incomplete
  | some policy =>
    if policy.planID = "" ∨ policy.revision ≤ 0 ∨ policy.sourceUID = "" ∨ policy.clusterUID = ""
    then some .incomplete
    else match policy.demand.elim none fun demand => validateDemand (some demand) with
    | some e => some e
    | none =>
      if policy.replicaFloors = [] then none
      else
        match (if policy.pauseSurge then validatePositiveReplicaFloors policy.replicaFloors
          else validateReplicaFloors policy.replicaFloors) with
        | .error e => some e
        | .ok _ => none

def authorize (current next : Option ExecutionPolicy) : Option PolicyError :=
  match next with
  | none => if current = none then none else validate none
  | some following =>
    match validate next with
    | some e => some e
    | none =>
      match current with
      | none => none
      | some held =>
        match validate current with
        | some e => some e
        | none =>
          if held.sourceUID ≠ following.sourceUID ∨ held.clusterUID ≠ following.clusterUID then
            some .identityChanged
          else if following.revision < held.revision ∨
              following.revision = held.revision ∧ following ≠ held then some .staleRevision
          else none

/-! ## A member under any deliveries -/

/-- A member keeps its policy or replaces it by one that `authorize` accepts. -/
def Replaces (current next : Option ExecutionPolicy) : Prop :=
  next = current ∨ authorize current next = none

/-- What never goes back between two policies of a member. -/
def Forward (earlier later : Option ExecutionPolicy) : Prop :=
  ∀ policy, earlier = some policy → ∃ after, later = some after ∧
    policy.revision ≤ after.revision ∧
    (policy.revision = after.revision → after = policy) ∧
    after.sourceUID = policy.sourceUID ∧ after.clusterUID = policy.clusterUID

theorem Forward.refl (policy : Option ExecutionPolicy) : Forward policy policy :=
  fun policy held => ⟨policy, held, le_rfl, fun _ => rfl, rfl, rfl⟩

theorem Forward.trans {a b c : Option ExecutionPolicy} (first : Forward a b)
    (second : Forward b c) : Forward a c := by
  intro policy held
  obtain ⟨middle, held', rises, same, source, cluster⟩ := first policy held
  obtain ⟨last, held'', rises', same', source', cluster'⟩ := second middle held'
  refine ⟨last, held'', rises.trans rises', ?_, source'.trans source, cluster'.trans cluster⟩
  intro level
  rw [same' (by omega), same (by omega)]

theorem authorize_forward {current next : Option ExecutionPolicy}
    (accepted : authorize current next = none) : Forward current next := by
  rintro held rfl
  cases next with
  | none => simp [authorize, validate] at accepted
  | some following =>
    simp only [authorize] at accepted
    split at accepted
    · simp at accepted
    split at accepted
    · simp at accepted
    split at accepted
    · simp at accepted
    rename_i identity
    split at accepted
    · simp at accepted
    rename_i revision
    push Not at identity revision
    exact ⟨following, rfl, revision.1, fun level => revision.2 level.symm, identity.1.symm,
      identity.2.symm⟩

theorem Replaces.forward {current next : Option ExecutionPolicy}
    (replaces : Replaces current next) : Forward current next := by
  rcases replaces with rfl | accepted
  · exact .refl _
  · exact authorize_forward accepted

/-- **A member's policy only moves forward**, whatever is delivered to it. -/
theorem member_moves_forward {earlier later : Option ExecutionPolicy}
    (run : Relation.ReflTransGen Replaces earlier later) : Forward earlier later :=
  Runs.invariant_of_run (fun _ _ forward replaces => forward.trans (Replaces.forward replaces))
    run (.refl _)

end Ome.Placement.Protocol
