/-
# Ome.Rollout.Service — rollout groups, their policies and the records of their units

Model of what the run layer reads of a service: the rollout groups of its spec and what
admission requires of the canary ones (`validateCanary`), the policies the groups refer to
(`resolveGroup`, `composePlan`), the canary units (`canaryUnit`, `primaryOf`) and the record
of each unit (`canaryStatusFor`), which a service from before per-unit records keeps in one
place for all units.

A digest is a function of what it is taken of.  The provenance of a group, the message of a
park and of a refusal, and the metric provider of a plan beyond whether it is bound are left
out; absent policies and absent groups are the empty ones.
-/
import Ome.Canary.Plan
import Ome.Component

namespace Ome.Rollout

open Ome.Theory Ome.Canary

set_option autoImplicit false

/-! ## Groups and units -/

inductive RolloutProgressionKind where
  | canary
  | blueGreen
  | rollingUpdate
  deriving DecidableEq

structure RolloutPolicyRef where
  name : String
  progression : RolloutProgressionKind

structure RolloutGroup where
  components : List Component
  canary : Option GroupCanary
  /-- A body without fields: set or not. -/
  blueGreen : Bool
  /-- Set or not: what it holds is read by the workload, not here. -/
  rollingUpdate : Bool
  policyRef : Option RolloutPolicyRef
  maintainRatio : Bool

variable (g : RolloutGroup)

def RolloutGroup.declaredProgression : RolloutProgressionKind :=
  if g.canary.isSome then .canary
  else if g.blueGreen then .blueGreen
  else if g.rollingUpdate then .rollingUpdate
  else
    match g.policyRef with
    | some ref => ref.progression
    | none => .blueGreen

/-- The unit a component advances with, named by its entrypoint: the roles that pair are one. -/
def canaryUnit : Component → Component
  | .router => .router
  | .engine => .engine
  | .decoder => .engine
  | .encoder => .engine

def canaryUnitsOf : List Component :=
  g.components.foldl (fun out c =>
    if canaryUnit c ∈ out then out else out ++ [canaryUnit c]) []

def rolesByPrimaryRank : List Component := [.router, .engine, .decoder, .encoder]

/-- The component a group's step machine runs through; none for a group without members. -/
def primaryOf : Option Component :=
  (rolesByPrimaryRank.find? (· ∈ g.components)).or g.components.head?

/-! ## Admission -/

inductive CanaryRefusal where
  | sharedUnit (unit : Component) (first second : Nat)
  | plan (group : Nat) (error : PlanError)
  | undeclared (group : Nat) (component : Component)
  | notOMENative (group : Nat) (component : Component)
  | noEntrypoint (group : Nat) (unit : Component)
  | splitPair (group : Nat)
  | maintainRatio (group : Nat)
  deriving DecidableEq

/-- What admission reads of the service beside its groups. -/
structure Shape where
  declared : Component → Bool
  omeNative : Component → Bool
  /-- The check of the metrics of a step's analysis, by group and step. -/
  metrics : Nat → Nat → Bool

/-- Note the group as the driver of each unit it touches. -/
def claimUnits (gi : Nat) (owner : Component → Option Nat) :
    List Component → Except CanaryRefusal (Component → Option Nat)
  | [] => .ok owner
  | u :: rest =>
    match owner u with
    | some prev => .error (.sharedUnit u prev gi)
    | none => claimUnits gi (fun c => if c = u then some gi else owner c) rest

def claimGroups (owner : Component → Option Nat) :
    List (RolloutGroup × Nat) → Except CanaryRefusal Unit
  | [] => .ok ()
  | (g, gi) :: rest =>
    if g.declaredProgression ≠ .canary then claimGroups owner rest
    else do claimGroups (← claimUnits gi owner (canaryUnitsOf g)) rest

variable (groups : List RolloutGroup)

def validateOneCanaryRunPerUnit : Except CanaryRefusal Unit :=
  claimGroups (fun _ => none) groups.zipIdx

variable (shape : Shape)

def validateCanaryMembers (gi : Nat) (g : RolloutGroup) : Except CanaryRefusal Unit :=
  g.components.forM fun c => do
    refuse (shape.declared c = false) (CanaryRefusal.undeclared gi c)
    refuse (shape.omeNative c = false) (CanaryRefusal.notOMENative gi c)

def pairingRoles : List Component := [.engine, .decoder, .encoder]

def validateCanaryUnits (gi : Nat) (g : RolloutGroup) : Except CanaryRefusal Unit := do
  (canaryUnitsOf g).forM fun u => refuse (u ∉ g.components) (CanaryRefusal.noEntrypoint gi u)
  let pairing := pairingRoles.filter shape.declared
  let named := (pairing.filter (· ∈ g.components)).length
  refuse (2 ≤ pairing.length ∧ 0 < named ∧ named < pairing.length) (CanaryRefusal.splitPair gi)

/-- An inline plan is checked with the group; a referenced one where it is composed. -/
def validateInlinePlan (gi : Nat) (g : RolloutGroup) : Except CanaryRefusal Unit :=
  match g.canary with
  | none => .ok ()
  | some c => (validateCanaryPlan (shape.metrics gi) c).mapError (.plan gi)

def validateCanaryGroup (g : RolloutGroup) (gi : Nat) : Except CanaryRefusal Unit :=
  if g.declaredProgression ≠ .canary then .ok ()
  else do
    validateInlinePlan shape gi g
    validateCanaryMembers shape gi g
    validateCanaryUnits shape gi g
    refuse (g.maintainRatio = true) (CanaryRefusal.maintainRatio gi)

def validateCanary (groups : List RolloutGroup) : Except CanaryRefusal Unit := do
  validateOneCanaryRunPerUnit groups
  groups.zipIdx.forM fun entry => validateCanaryGroup shape entry.1 entry.2

/-- **A spec admission accepts**: the schema wants members in every group, the webhook the
rules of the canary groups. -/
structure Admitted (shape : Shape) (groups : List RolloutGroup) : Prop where
  members : ∀ g ∈ groups, g.components ≠ []
  valid : validateCanary shape groups = .ok ()

/-! ## Policies -/

structure RolloutPolicySpec where
  canary : Option GroupCanary
  blueGreen : Bool
  rollingUpdate : Bool

def RolloutPolicySpec.progression (s : RolloutPolicySpec) : Option RolloutProgressionKind :=
  if s.canary.isSome then some .canary
  else if s.blueGreen then some .blueGreen
  else if s.rollingUpdate then some .rollingUpdate
  else none

/-- One reading of the policies a service refers to. -/
structure Policies where
  enabled : Bool
  byName : String → Option RolloutPolicySpec
  invalid : String → Bool

inductive ParkReason where
  | planInvalid
  | policyNotFound
  | policyNotReady
  | progressionMismatch
  | providerUnbound
  deriving DecidableEq

def hasInlineProgression : Bool :=
  g.canary.isSome || g.blueGreen || g.rollingUpdate

inductive RolloutPlanSource where
  | inline
  | policy
  deriving DecidableEq

def groupSource : RolloutPlanSource :=
  if hasInlineProgression g = false ∧ g.policyRef.isSome then .policy else .inline

/-- The group with exactly one body and no reference. -/
def composeGroup (policy : Option RolloutPolicySpec) : Except ParkReason RolloutGroup :=
  if hasInlineProgression g then .ok { g with policyRef := none }
  else
    match g.policyRef with
    | none => .ok { g with blueGreen := true }
    | some ref =>
      match policy with
      | none => .error .planInvalid
      | some policy =>
        match policy.progression with
        | none => .error .planInvalid
        | some actual =>
          if actual ≠ ref.progression then .error .progressionMismatch
          else .ok
            { g with
              policyRef := none
              canary := policy.canary
              blueGreen := policy.blueGreen
              rollingUpdate := policy.rollingUpdate }

def resolveGroup (policies : Policies) : Except ParkReason RolloutGroup :=
  match groupSource g, g.policyRef with
  | .policy, some ref =>
    if policies.enabled = false then .error .planInvalid
    else
      match policies.byName ref.name with
      | none => .error .policyNotFound
      | some policy =>
        if policies.invalid ref.name then .error .policyNotReady
        else composeGroup g (some policy)
  | _, _ => composeGroup g none

/-- The live spec with every reference that resolves replaced by its body. -/
def resolveLive (policies : Policies) : List RolloutGroup :=
  groups.map fun g =>
    if groupSource g ≠ .policy then g
    else
      match resolveGroup g policies with
      | .error _ => g
      | .ok resolved => resolved

/-! ## The plan a run pins -/

structure RolloutRunGroup where
  portableDigest : String
  group : RolloutGroup

/-- The digests of the run layer, and which composed plans have their metric provider bound. -/
structure Digests where
  progression : RolloutGroup → String
  combined : List String → String
  shortHash : String → String
  providerBound : GroupCanary → Bool

/-- The composed body is checked again: it is what will execute. -/
def checkComposed (env : Digests) (shape : Shape) (gi : Nat) (composed : RolloutGroup) :
    Except ParkReason Unit :=
  match composed.canary with
  | none => .ok ()
  | some c =>
    match validateCanaryPlan (shape.metrics gi) c with
    | .error _ => .error .planInvalid
    | .ok () => refuse (env.providerBound c = false) ParkReason.providerUnbound

def composeRunGroup (env : Digests) (shape : Shape) (policies : Policies)
    (entry : RolloutGroup × Nat) : Except ParkReason RolloutRunGroup := do
  let composed ← resolveGroup entry.1 policies
  checkComposed env shape entry.2 composed
  pure ⟨env.progression composed, composed⟩

/-- The effective plan of the live spec, or why it parks. -/
def composePlan (env : Digests) (shape : Shape) (groups : List RolloutGroup)
    (policies : Policies) : Except ParkReason (List RolloutRunGroup) :=
  groups.zipIdx.mapM (composeRunGroup env shape policies)

/-! ## Runs and records -/

structure RolloutRunTarget where
  component : Component
  revision : String
  stableRevision : String

structure RolloutRun where
  openedAt : Int
  pinnedAt : Int
  targetRevisions : List RolloutRunTarget
  groups : List RolloutRunGroup

inductive RolloutRunOutcome where
  | completed
  | rolledBack
  | superseded
  deriving DecidableEq

structure RolloutRunRecord where
  outcome : RolloutRunOutcome
  targetRevisions : List RolloutRunTarget

structure ComponentStatus where
  canary : Option CanaryStatus
  rolloutPhase : RolloutPhase
  latestRolledoutRevision : String

structure ServiceStatus where
  components : Component → ComponentStatus
  /-- The record from before units had their own. -/
  canary : Option CanaryStatus
  activeRun : Option RolloutRun
  lastRun : Option RolloutRunRecord

def hasPerUnitCanary (s : ServiceStatus) : Bool :=
  rolesByPrimaryRank.any fun c => (s.components c).canary.isSome

/-- The record of a component's unit; the old record stands in while no unit has one. -/
def canaryStatusFor (s : ServiceStatus) (c : Component) : Option CanaryStatus :=
  match (s.components (canaryUnit c)).canary with
  | some cs => some cs
  | none => if hasPerUnitCanary s then none else s.canary

/-- Write through the record `canaryStatusFor` hands out. -/
def putCanaryFor (s : ServiceStatus) (c : Component) (cs : CanaryStatus) : ServiceStatus :=
  if (s.components (canaryUnit c)).canary.isSome then
    { s with
      components := fun d =>
        if d = canaryUnit c then { s.components d with canary := some cs } else s.components d }
  else { s with canary := some cs }

/-- The rollout view the executors follow: the pinned plan while a run is open, otherwise the
live spec. -/
def effective (policies : Policies) (s : ServiceStatus) : List RolloutGroup :=
  match s.activeRun with
  | some run => run.groups.map (·.group)
  | none => resolveLive groups policies

def canaryGroups : List RolloutGroup :=
  groups.filter (·.canary.isSome)

/-- The canary group that drives a component. -/
def canaryGroupFor (c : Component) : Option RolloutGroup :=
  (canaryGroups groups).find? fun g => g.components.any (canaryUnit · = canaryUnit c)

end Ome.Rollout
