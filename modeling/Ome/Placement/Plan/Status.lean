/-
# Ome.Placement.Plan.Status — the plan a source stores in its status

The allocation records of `placement_status_types.go` and the comparisons of
`placement/plan` that read them.  A plan is stored in two parts: its header
(`PlanStatus`) and one allocation for each candidate cluster.

* `identity` removes from a status what does not decide an allocation: observations,
  the heartbeat of a capacity report, the minimum weights;
* `equalAllocation` compares header and allocations, whatever the order of the
  candidates; `equalAllocation_iff` states it without the loop.

Times are nanoseconds since the zero time, and what is not read here of a
candidate's observations is left out.
-/
import Ome.Placement.Protocol.Policy

namespace Ome.Placement.Plan

open Ome.Theory Ome.Placement.Protocol List

set_option autoImplicit false

/-! ## Records -/

inductive PlacementMode where
  | unset
  | single
  | all
  | split
  | splitByCapacity
  deriving DecidableEq, Inhabited

/-- A map of strings, kept in the order of its keys so that equal maps are equal. -/
structure Labels where
  entries : List (String × String)
  sorted : (entries.map Prod.fst).Pairwise (· < ·)
  deriving DecidableEq

instance : Inhabited Labels := ⟨⟨[], List.Pairwise.nil⟩⟩

/-- The value under a key; a missing key reads empty. -/
def Labels.get (labels : Labels) (key : String) : String := (labels.entries.lookup key).getD ""

structure SingleMove where
  selected : String
  cursor : String
  deriving DecidableEq, Inhabited

structure PlanStatus where
  id : String
  mode : PlacementMode
  winner : String
  singleMove : Option SingleMove
  adoptionDigest : String
  revision : Int
  sourceUID : String
  observedGeneration : Int
  inputDigest : String
  pauseSurge : Bool
  requestedReplicas : Int
  assignedReplicas : Int
  unassignedReplicas : Int
  originalUnassignedReplicas : Int
  deriving DecidableEq, Inhabited

structure HomePolicy where
  inputDigest : String
  replicaFloors : List ComponentFloor
  deriving DecidableEq, Inhabited

structure CapacityAttribution where
  flavorUID : String
  nodeLabels : Labels
  flavorSetHash : String
  complete : Bool
  deriving DecidableEq, Inhabited

structure CapacityPool where
  resourceName : String
  resourceFlavor : String
  demand : Int
  allocatable : Int
  observedAt : Nat
  reportUID : String
  reportResourceVersion : String
  attribution : CapacityAttribution
  deriving DecidableEq, Inhabited

structure CapacitySample where
  demandFingerprint : String
  demandContract : Option DemandContract
  replicas : Int
  pools : List CapacityPool
  deriving DecidableEq, Inhabited

structure ComponentMatch where
  component : Component
  weight : Option Int
  minWeight : Option Int
  maxWeight : Option Int
  deriving DecidableEq

/-- What one cluster is allocated: its original, its authorized and its desired floor. -/
structure CandidateAllocation where
  clusterUID : String
  inventoryPending : Bool
  homeInputsPending : Bool
  raceCandidate : Bool
  replacementStartedAt : Option Nat
  matched : Bool
  currentHome : Option HomePolicy
  desiredHome : Option HomePolicy
  matchingTerms : List Int
  weight : Option Int
  minWeight : Option Int
  maxWeight : Option Int
  componentMatches : List ComponentMatch
  capacity : Option CapacitySample
  originalReplicas : Int
  currentReplicas : Int
  desiredReplicas : Int
  drainRequested : Bool
  deriving DecidableEq, Inhabited

/-- A candidate cluster: its allocation and what was last observed there. -/
structure CandidatePlacement where
  cluster : String
  allocation : Option CandidateAllocation
  appliedPlanID : String
  observationKnown : Bool
  endpoint : Option String
  admittedReplicas : Int
  readyReplicas : Int
  deriving DecidableEq, Inhabited

inductive PlacementPhase where
  | unset
  | pending
  | admitting
  | racing
  | placed
  | failed
  deriving DecidableEq, Inhabited

structure PlacementStatus where
  plan : Option PlanStatus
  cluster : String
  phase : PlacementPhase
  endpoint : Option String
  candidates : List CandidatePlacement
  deriving DecidableEq, Inhabited

/-! ## Identity -/

def clearMinWeight (a : CandidateAllocation) : CandidateAllocation :=
  { a with
    minWeight := none
    componentMatches := a.componentMatches.map fun m => { m with minWeight := none } }

/-- A pool without the heartbeat of its report. -/
def CapacityPool.identity (pool : CapacityPool) : CapacityPool :=
  { pool with observedAt := 0, reportResourceVersion := "" }

def CandidateAllocation.identity (a : CandidateAllocation) : CandidateAllocation :=
  { clearMinWeight a with
    capacity := a.capacity.map fun sample =>
      { sample with pools := sample.pools.map CapacityPool.identity } }

def CandidatePlacement.identity (candidate : CandidatePlacement) : CandidatePlacement :=
  { (default : CandidatePlacement) with
    cluster := candidate.cluster
    allocation := candidate.allocation.map CandidateAllocation.identity }

def PlanStatus.identity (plan : PlanStatus) : PlanStatus := { plan with id := "", revision := 0 }

/-- What decides an allocation: no observations, no heartbeats, no revision. -/
def identity (status : PlacementStatus) : PlacementStatus :=
  { plan := status.plan.map PlanStatus.identity
    cluster := ""
    phase := .unset
    endpoint := none
    candidates := status.candidates.map CandidatePlacement.identity }

/-! ## Equal allocations -/

/-- The allocations of the candidates by cluster name; `none` when a name repeats. -/
def byName : List CandidatePlacement → List (String × Option CandidateAllocation) →
    Option (List (String × Option CandidateAllocation))
  | [], named => some named
  | candidate :: rest, named =>
    if candidate.cluster ∈ named.map Prod.fst then none
    else byName rest ((candidate.cluster, candidate.allocation) :: named)

/-- Every candidate has its allocation among the named ones, each used once. -/
def matchNamed : List CandidatePlacement → List (String × Option CandidateAllocation) → Bool
  | [], _ => true
  | candidate :: rest, named =>
    match named.find? fun entry => entry.1 = candidate.cluster with
    | none => false
    | some entry =>
      entry.2 = candidate.allocation &&
        matchNamed rest (named.filter fun entry => entry.1 ≠ candidate.cluster)

def equalAllocation (a b : Option PlacementStatus) : Bool :=
  match a, b with
  | some a, some b =>
    if a.plan ≠ b.plan ∨ a.candidates.length ≠ b.candidates.length then false
    else match byName a.candidates [] with
      | none => false
      | some named => matchNamed b.candidates named
  | _, _ => false

/-- What is compared of a candidate. -/
def CandidatePlacement.entry (candidate : CandidatePlacement) :
    String × Option CandidateAllocation :=
  (candidate.cluster, candidate.allocation)

theorem byName_eq : ∀ (candidates : List CandidatePlacement)
    (named result : List (String × Option CandidateAllocation)),
    (named.map Prod.fst).Nodup →
    (byName candidates named = some result ↔
      result = (candidates.map CandidatePlacement.entry).reverse ++ named ∧
        (((candidates.map CandidatePlacement.entry).reverse ++ named).map Prod.fst).Nodup)
  | [], named, result, distinct => by
    simp [byName, distinct, eq_comm]
  | candidate :: rest, named, result, distinct => by
    rw [byName]
    by_cases repeated : candidate.cluster ∈ named.map Prod.fst
    · rw [if_pos repeated]
      refine iff_of_false (by simp) fun ⟨_, nodup⟩ => ?_
      rw [map_append, nodup_append] at nodup
      refine nodup.2.2 candidate.cluster ?_ candidate.cluster repeated rfl
      simp [CandidatePlacement.entry]
    · rw [if_neg repeated, byName_eq rest _ result
        (by simpa using ⟨by simpa using repeated, distinct⟩)]
      simp [CandidatePlacement.entry]

theorem perm_cons_filter {named : List (String × Option CandidateAllocation)}
    (distinct : (named.map Prod.fst).Nodup) {entry : String × Option CandidateAllocation}
    (member : entry ∈ named) :
    named.Perm (entry :: named.filter fun other => other.1 ≠ entry.1) := by
  induction named with
  | nil => cases member
  | cons first rest ih =>
    rw [map_cons, nodup_cons] at distinct
    rcases mem_cons.mp member with rfl | later
    · have others : rest.filter (fun other => other.1 ≠ entry.1) = rest := by
        rw [filter_eq_self]
        intro other listed
        exact decide_eq_true fun same => distinct.1 (same ▸ mem_map_of_mem listed)
      simp only [filter_cons, ne_eq, not_true_eq_false, decide_false, Bool.false_eq_true,
        if_false]
      exact .of_eq (congrArg _ others.symm)
    · have apart : first.1 ≠ entry.1 := fun same =>
        distinct.1 (same ▸ mem_map_of_mem later)
      rw [filter_cons_of_pos (by simpa using apart)]
      exact ((ih distinct.2 later).cons first).trans (.swap _ _ _)

theorem matchNamed_iff : ∀ (candidates : List CandidatePlacement)
    (named : List (String × Option CandidateAllocation)),
    (named.map Prod.fst).Nodup → candidates.length = named.length →
    (matchNamed candidates named = true ↔
      (candidates.map CandidatePlacement.entry).Perm named)
  | [], named, _, length => by
    have none : named = [] := length_eq_zero_iff.mp length.symm
    simp [matchNamed, none]
  | candidate :: rest, named, distinct, length => by
    rw [matchNamed, map_cons]
    split
    · rename_i absent
      refine iff_of_false (by simp) fun perm => ?_
      have listed := perm.mem_iff.mp mem_cons_self
      exact List.find?_eq_none.mp absent _ listed (by simp [CandidatePlacement.entry])
    · rename_i entry found
      have member := mem_of_find?_eq_some found
      have name : entry.1 = candidate.cluster := by simpa using List.find?_some found
      have cut := perm_cons_filter distinct member
      rw [name] at cut
      have shorter : rest.length =
          (named.filter fun other => other.1 ≠ candidate.cluster).length := by
        have := cut.length_eq
        simp only [length_cons] at length this
        omega
      have rest_iff := matchNamed_iff rest
        (named.filter fun other => other.1 ≠ candidate.cluster)
        (List.Nodup.sublist (filter_sublist.map _) distinct) shorter
      rw [Bool.and_eq_true, decide_eq_true_iff, rest_iff]
      constructor
      · rintro ⟨same, perm⟩
        have first : candidate.entry = entry := by
          rw [CandidatePlacement.entry, ← name, ← same]
        rw [first]
        exact (perm.cons entry).trans cut.symm
      · intro perm
        have listed : candidate.entry ∈ named := perm.mem_iff.mp mem_cons_self
        -- Distinct names: the entry found under the name is the candidate's.
        have first : candidate.entry = entry :=
          inj_on_of_nodup_map distinct listed member name.symm
        refine ⟨(congrArg Prod.snd first).symm, ?_⟩
        rw [first] at perm
        exact (perm.trans cut).cons_inv

/-- **Equal allocations**: one header and, under distinct names, the same entries. -/
theorem equalAllocation_iff {a b : PlacementStatus} :
    equalAllocation (some a) (some b) = true ↔
      a.plan = b.plan ∧ (a.candidates.map CandidatePlacement.cluster).Nodup ∧
        (a.candidates.map CandidatePlacement.entry).Perm
          (b.candidates.map CandidatePlacement.entry) := by
  have names : ((a.candidates.map CandidatePlacement.entry).reverse.map Prod.fst).Nodup ↔
      (a.candidates.map CandidatePlacement.cluster).Nodup := by
    rw [map_reverse, nodup_reverse, map_map]
    rfl
  have indexed (result : List (String × Option CandidateAllocation)) :=
    byName_eq a.candidates [] result nodup_nil
  simp only [append_nil, names] at indexed
  rw [equalAllocation]
  by_cases plan : a.plan = b.plan
  · by_cases length : a.candidates.length = b.candidates.length
    · rw [if_neg (by simp [plan, length])]
      split
      · rename_i repeated
        refine iff_of_false (by simp) fun ⟨_, distinct, _⟩ => ?_
        rw [(indexed _).mpr ⟨rfl, distinct⟩] at repeated
        cases repeated
      · rename_i named found
        obtain ⟨rfl, distinct⟩ := (indexed _).mp found
        rw [matchNamed_iff _ _ (names.mpr distinct) (by simp [length])]
        simp only [plan, distinct, true_and]
        exact ⟨fun perm => (reverse_perm _).symm.trans perm.symm,
          fun perm => perm.symm.trans (reverse_perm _).symm⟩
    · rw [if_pos (.inr length)]
      refine iff_of_false (by simp) fun ⟨_, _, perm⟩ => length ?_
      simpa using perm.length_eq
  · rw [if_pos (.inl plan)]
    exact iff_of_false (by simp) fun ⟨same, _⟩ => plan same

end Ome.Placement.Plan
