/-
# Ome.Placement.Plan.Prepare — from a proposal to the plan that is stored

The model of `placement/plan/prepare.go`: every assignment is checked and put in
canonical order, the rules of Single mode are applied, the replica totals are
summed, and the plan is given its identity, a digest of everything that decides
the allocation.  `digest` stands for the hexadecimal SHA-256 of the JSON encoding.

A Go map is iterated in any order, so the error a proposal with several faults is
refused with depends on the order of its keys; the plan of an accepted one does
not (`prepare_ok`): its candidates are in name order.
-/
import Ome.Placement.Plan.Status

namespace Ome.Placement.Plan

open Ome.Theory Ome.Placement.Protocol List CandidatePlacement

set_option autoImplicit false

/-! ## Sources and proposals -/

structure PlacementSpec where
  /-- The policy is `ClusterAffinity`. -/
  clusterAffinity : Bool
  mode : PlacementMode
  deriving DecidableEq

/-- What the plan store reads of a service. -/
structure InferenceService where
  uid : String
  generation : Int
  deletionTimestamp : Option Nat
  annotations : Labels
  labels : Labels
  spec : Option PlacementSpec
  hasEngine : Bool
  hasDecoder : Bool
  placement : Option PlacementStatus
  deriving DecidableEq

def usesClusterAffinity (spec : Option PlacementSpec) : Bool :=
  spec.elim false PlacementSpec.clusterAffinity

/-- The mode of the source's intent; no intent reads as no mode. -/
def InferenceService.mode (source : InferenceService) : PlacementMode :=
  source.spec.elim .unset PlacementSpec.mode

/-- The components with a rendering of their own that the service declares. -/
def InferenceService.declared (source : InferenceService) : List Component :=
  (if source.hasEngine then [.engine] else []) ++ if source.hasDecoder then [.decoder] else []

structure Proposal where
  mode : PlacementMode
  winner : String
  singleMove : Option SingleMove
  adoptionDigest : String
  inputDigest : String
  pauseSurge : Bool
  originalUnassignedReplicas : Int
  unassignedReplicas : Int
  assignments : GoMap String CandidateAllocation

/-! ## Errors -/

inductive MatchError where
  | unsupported (component : Component)
  | repeated (component : Component)
  | weight (component : Component)
  deriving DecidableEq

inductive CapacityError where
  | incomplete
  | demand (cause : PolicyError)
  | fingerprints
  | pool
  | repeatedPool
  | reports
  | replicas
  deriving DecidableEq

inductive AssignmentError where
  | identity
  | homeAuthority
  | homeIntent
  | floors (cause : PolicyError)
  | desiredHome
  | currentHome
  | weight
  | matchingTerms
  | componentMatch (cause : MatchError)
  | capacity (cause : CapacityError)
  | demandAuthority
  | demand (cause : PolicyError)
  deriving DecidableEq

inductive PrepareError where
  | mode
  | inputDigest
  | assignment (name : String) (cause : AssignmentError)
  | winnerOutsideSingle
  | singleMove
  | winnerAuthority
  | replacementAuthority
  | outsideRace
  | floorOverflow
  | requestedOverflow
  deriving DecidableEq

/-! ## One assignment -/

def countsNeedClusterAuthority (mode : PlacementMode) (a : CandidateAllocation) : Bool :=
  if mode ≠ .all ∧ mode ≠ .single then false
  else (a.currentReplicas > 0 && a.currentHome.isNone) ||
    (a.desiredReplicas > 0 && a.desiredHome.isNone)

def validateFullPolicy (policy : HomePolicy) (pauseSurge : Bool) :
    Except AssignmentError HomePolicy := do
  if policy.inputDigest = "" then throw .homeIntent
  let _ ← (validateReplicaFloors policy.replicaFloors).mapError .floors
  if pauseSurge then
    let _ ← (validatePositiveReplicaFloors policy.replicaFloors).mapError .floors
  return { policy with
    replicaFloors := policy.replicaFloors.insertionSort fun a b => a.component ≤ b.component }

/-- The whole-replica count a checked policy holds. -/
def reservedReplicas (policy : HomePolicy) : Int :=
  match validateReplicaFloors policy.replicaFloors with
  | .ok replicas => replicas
  | .error _ => 0

variable (a : CandidateAllocation)

/-- The terms in order, when they are distinct and not negative. -/
def normalizeMatchingTerms : Option CandidateAllocation :=
  let terms := a.matchingTerms.insertionSort (· ≤ ·)
  if terms.all (0 ≤ ·) && decide terms.Nodup then some { a with matchingTerms := terms } else none

/-- The loop over the matches in order, with the component before. -/
def checkMatches (capacity : Bool) : Option Component → List ComponentMatch → Option MatchError
  | _, [] => none
  | before, m :: rest =>
    if m.component ≠ .engine ∧ m.component ≠ .decoder ∧ m.component ≠ .router then
      some (.unsupported m.component)
    else if before = some m.component then some (.repeated m.component)
    else if m.weight.isSome && (m.weight.getD 0 < 0 || capacity) then some (.weight m.component)
    else checkMatches capacity (some m.component) rest

def normalizeComponentMatches : Except MatchError CandidateAllocation :=
  let sorted := a.componentMatches.insertionSort fun m n => m.component ≤ n.component
  match checkMatches a.capacity.isSome none sorted with
  | some e => .error e
  | none => .ok { a with componentMatches := sorted }

/-- A pool lacks identified hardware, demand or complete attribution. -/
def CapacityPool.incomplete (pool : CapacityPool) : Bool :=
  pool.resourceName = "" || pool.resourceFlavor = "" || pool.demand ≤ 0 ||
    pool.allocatable < 0 || pool.reportUID = "" || pool.reportResourceVersion = "" ||
    pool.observedAt = 0 || !pool.attribution.complete || pool.attribution.flavorUID = "" ||
    pool.attribution.flavorSetHash = ""

/-- The loop over the pools in order, with the first pool and the one before. -/
def poolCapacity (first : CapacityPool) : Option CapacityPool → List CapacityPool → Int →
    Except CapacityError Int
  | _, [], capacity => .ok capacity
  | before, pool :: rest, capacity =>
    if pool.incomplete then .error .pool
    else if before.any fun p =>
        pool.resourceName = p.resourceName ∧ pool.resourceFlavor = p.resourceFlavor then
      .error .repeatedPool
    else if pool.reportUID ≠ first.reportUID ∨
        pool.reportResourceVersion ≠ first.reportResourceVersion ∨
        pool.attribution.flavorSetHash ≠ first.attribution.flavorSetHash then .error .reports
    else poolCapacity first (some pool) rest (min capacity (pool.allocatable.tdiv pool.demand))

def poolBefore (a b : CapacityPool) : Prop :=
  a.resourceName < b.resourceName ∨
    a.resourceName = b.resourceName ∧ a.resourceFlavor ≤ b.resourceFlavor

instance : DecidableRel poolBefore := fun _ _ => inferInstanceAs (Decidable (_ ∨ _))

def maxInt64 : Int := 2 ^ 63 - 1

def normalizeCapacity (sample : CapacitySample) : Except CapacityError CapacitySample :=
  if sample.demandFingerprint = "" ∨ sample.replicas < 0 ∨ sample.pools = [] then
    .error .incomplete
  else match validateDemand sample.demandContract, sample.demandContract with
  | some e, _ => .error (.demand e)
  | none, none => .error (.demand .demandIncomplete)
  | none, some contract =>
    if sample.demandFingerprint ≠ contract.fingerprint then .error .fingerprints
    else
      let contract := { contract with
        components := contract.components.insertionSort fun a b => a.component ≤ b.component }
      let pools := sample.pools.insertionSort poolBefore
      match poolCapacity (pools.headD default) none pools maxInt64 with
      | .error e => .error e
      | .ok capacity =>
        if capacity ≠ sample.replicas then .error .replicas
        else .ok { sample with demandContract := some contract, pools }

/-- A home record, checked when there is one. -/
def validateHome (home : Option HomePolicy) (pauseSurge : Bool) :
    Except AssignmentError (Option HomePolicy) :=
  match home with
  | none => .ok none
  | some policy => (validateFullPolicy policy pauseSurge).map some

def validateAssignment (source : InferenceService) (proposal : Proposal) (name : String)
    (input : CandidateAllocation) : Except AssignmentError CandidateAllocation := do
  if name = "" ∨ input.clusterUID = "" ∨ input.originalReplicas < 0 ∨
      input.currentReplicas < 0 ∨ input.desiredReplicas < 0 then
    throw .identity
  if countsNeedClusterAuthority proposal.mode input then throw .homeAuthority
  let currentHome ← validateHome input.currentHome proposal.pauseSurge
  let desiredHome ← validateHome input.desiredHome proposal.pauseSurge
  if desiredHome.any fun home => reservedReplicas home ≠ input.desiredReplicas then
    throw .desiredHome
  if currentHome.any fun home => reservedReplicas home ≠ input.currentReplicas ∧
      ¬ (input.currentReplicas = 0 ∧ input.drainRequested) then
    throw .currentHome
  if input.weight.any fun weight => weight < 0 ∨ input.capacity.isSome then throw .weight
  match normalizeMatchingTerms { input with currentHome, desiredHome } with
  | none => throw .matchingTerms
  | some assignment =>
    let assignment ← (normalizeComponentMatches assignment).mapError .componentMatch
    let capacity ← match assignment.capacity with
      | none => pure none
      | some sample => ((normalizeCapacity sample).mapError .capacity).map some
    if source.mode = .splitByCapacity ∧ assignment.desiredReplicas > 0 then
      match capacity with
      | none => throw .demandAuthority
      | some sample =>
        match validateDemandComponents source.declared sample.demandContract with
        | some e => throw (.demand e)
        | none => pure ()
    return { assignment with capacity }

/-! ## Single mode -/

def committedKeepsFullAuthority (moving : Bool) : Bool :=
  if a.raceCandidate then false
  else if !moving then a.desiredHome.isSome
  else a.originalReplicas > 0 || (a.currentHome.isSome && a.currentReplicas > 0)

def replacementHasFullAuthority (committed : Bool) : Bool :=
  if a.raceCandidate || a.desiredHome.isNone || a.desiredReplicas ≤ 0 then false
  else (committed && a.originalReplicas > 0 && a.currentReplicas = 0) ||
    (a.currentHome.isSome && a.currentReplicas > 0)

def desiredOutsideRace (name : String) (a : CandidateAllocation) (selected committed : String) :
    Bool :=
  if a.desiredReplicas ≤ 0 && a.desiredHome.isNone then false
  else if selected ≠ "" then name ≠ selected
  else !a.raceCandidate && name ≠ committed

def validateSingleMode (proposal : Proposal) : Option PrepareError :=
  let moving := proposal.singleMove.isSome
  let selected := proposal.singleMove.elim proposal.winner SingleMove.selected
  let assignments := proposal.assignments
  if proposal.mode ≠ .single ∧ proposal.winner ≠ "" then some .winnerOutsideSingle
  else if moving ∧ (proposal.mode ≠ .single ∨ proposal.winner = "" ∨ !proposal.pauseSurge) then
    some .singleMove
  else if proposal.mode ≠ .single then none
  else if proposal.winner ≠ "" ∧ (proposal.winner ∉ assignments.keys ∨
      !committedKeepsFullAuthority (assignments.get proposal.winner) moving) then
    some .winnerAuthority
  else if moving ∧ selected ≠ "" ∧ (selected ∉ assignments.keys ∨
      !replacementHasFullAuthority (assignments.get selected) (selected = proposal.winner)) then
    some .replacementAuthority
  else if assignments.keys.any fun name =>
      desiredOutsideRace name (assignments.get name) selected proposal.winner then
    some .outsideRace
  else none

/-! ## The plan -/

/-- The assigned and the original total; each addition is checked before it is made. -/
def sumReplicas : List CandidateAllocation → Int → Int → Option (Int × Int)
  | [], assigned, original => some (assigned, original)
  | a :: rest, assigned, original =>
    if a.desiredReplicas > maxInt64 - assigned ∨ a.originalReplicas > maxInt64 - original then
      none
    else sumReplicas rest (assigned + a.desiredReplicas) (original + a.originalReplicas)

/-- The status without an identity. -/
def planHeader (source : InferenceService) (proposal : Proposal) (assigned : Int)
    (candidates : List CandidatePlacement) : PlacementStatus :=
  { (default : PlacementStatus) with
    plan := some
      { id := ""
        mode := proposal.mode
        winner := proposal.winner
        singleMove := proposal.singleMove
        adoptionDigest := proposal.adoptionDigest
        revision := 0
        sourceUID := source.uid
        observedGeneration := source.generation
        inputDigest := proposal.inputDigest
        pauseSurge := proposal.pauseSurge
        requestedReplicas := assigned + proposal.unassignedReplicas
        assignedReplicas := assigned
        unassignedReplicas := proposal.unassignedReplicas
        originalUnassignedReplicas := proposal.originalUnassignedReplicas }
    candidates }

/-- A status whose plan is given an identity and a revision. -/
def numbered (status : PlacementStatus) (id : String) (revision : Int) : PlacementStatus :=
  { status with plan := status.plan.map fun plan => { plan with id, revision } }

/-- The checked assignments as candidates. -/
def candidate (entry : String × CandidateAllocation) : CandidatePlacement :=
  { (default : CandidatePlacement) with cluster := entry.1, allocation := some entry.2 }

def planStatus (digest : PlacementStatus → String) (source : InferenceService)
    (proposal : Proposal) (entries : List (String × CandidateAllocation)) :
    Except PrepareError PlacementStatus :=
  match sumReplicas (entries.map Prod.snd) 0 proposal.originalUnassignedReplicas with
  | none => .error .floorOverflow
  | some (assigned, _) =>
    if proposal.unassignedReplicas > maxInt64 - assigned then .error .requestedOverflow
    else
      let sorted := (entries.map candidate).insertionSort fun a b => a.cluster ≤ b.cluster
      let out := planHeader source proposal assigned sorted
      .ok (numbered out (digest (identity out)) 0)

/-- The loop over the assignments, in the order of the map. -/
def validateAssignments (source : InferenceService) (proposal : Proposal) :
    List String → Except PrepareError (List (String × CandidateAllocation))
  | [] => .ok []
  | name :: rest =>
    match validateAssignment source proposal name (proposal.assignments.get name) with
    | .error e => .error (.assignment name e)
    | .ok a =>
      match validateAssignments source proposal rest with
      | .error e => .error e
      | .ok entries => .ok ((name, a) :: entries)

def prepare (digest : PlacementStatus → String) (source : InferenceService)
    (proposal : Proposal) : Except PrepareError PlacementStatus :=
  if proposal.mode ≠ .unset ∧ proposal.mode ≠ source.mode then .error .mode
  else if proposal.inputDigest = "" ∨ proposal.unassignedReplicas < 0 ∨
      proposal.originalUnassignedReplicas < 0 then .error .inputDigest
  else match validateAssignments source proposal proposal.assignments.keys with
  | .error e => .error e
  | .ok entries =>
    match validateSingleMode proposal with
    | some e => .error e
    | none => planStatus digest source proposal entries

/-! ## What is prepared -/

@[simp] theorem identity_numbered (status : PlacementStatus) (id : String) (revision : Int) :
    identity (numbered status id revision) = identity status := by
  cases status with
  | mk plan => cases plan <;> rfl

@[simp] theorem numbered_numbered (status : PlacementStatus) (id id' : String)
    (revision revision' : Int) :
    numbered (numbered status id revision) id' revision' = numbered status id' revision' := by
  cases status with
  | mk plan => cases plan <;> rfl

@[simp] theorem numbered_candidates (status : PlacementStatus) (id : String) (revision : Int) :
    (numbered status id revision).candidates = status.candidates := rfl

theorem validateAssignments_names {source : InferenceService} {proposal : Proposal} :
    ∀ {names : List String} {entries : List (String × CandidateAllocation)},
      validateAssignments source proposal names = .ok entries → entries.map Prod.fst = names
  | [], entries, accepted => by
    cases accepted
    rfl
  | name :: rest, entries, accepted => by
    rw [validateAssignments] at accepted
    split at accepted
    · cases accepted
    split at accepted
    · cases accepted
    rename_i later found
    cases accepted
    rw [map_cons, validateAssignments_names found]

/-- A prepared plan: a header of this source without a revision, identified by the
digest of its allocation, and the allocations in name order. -/
structure Prepared (digest : PlacementStatus → String) (source : InferenceService)
    (status : PlacementStatus) : Prop where
  plan : ∃ plan, status.plan = some plan ∧ plan.id = digest (identity status) ∧
    plan.revision = 0 ∧ plan.sourceUID = source.uid
  sorted : (status.candidates.map cluster).Pairwise (· < ·)

/-- **An accepted proposal is a prepared plan**, whatever the order of the map. -/
theorem prepare_ok {digest : PlacementStatus → String} {source : InferenceService}
    {proposal : Proposal} {status : PlacementStatus}
    (accepted : prepare digest source proposal = .ok status) : Prepared digest source status := by
  rw [prepare] at accepted
  split at accepted
  · cases accepted
  split at accepted
  · cases accepted
  split at accepted
  · cases accepted
  rename_i entries validated
  split at accepted
  · cases accepted
  rw [planStatus] at accepted
  split at accepted
  · cases accepted
  split at accepted
  · cases accepted
  cases accepted
  refine ⟨⟨_, rfl, by rw [identity_numbered], rfl, rfl⟩, ?_⟩
  have names : ((entries.map candidate).map cluster) =
      proposal.assignments.keys := by
    rw [← validateAssignments_names validated, map_map]
    rfl
  have perm := (perm_insertionSort (fun a b : CandidatePlacement => a.cluster ≤ b.cluster)
    (entries.map candidate)).map cluster
  have distinct := perm.nodup_iff.mpr (names ▸ proposal.assignments.nodup)
  have ascending := pairwise_map.mpr (pairwise_insertionSort
    (fun a b : CandidatePlacement => a.cluster ≤ b.cluster) (entries.map candidate))
  exact ascending.imp₂ (fun _ _ le ne => lt_of_le_of_ne le ne) distinct

end Ome.Placement.Plan
