/-
# Ome.Workload.Plan — which Instances a plan drives

The model of `instancePlanIndices` of `workload/plan.go`: the rows are read once, then
the surge pairs in flight are kept, the steady rows fill the count in the order of their
rank, and new indexes round it out.

A map from indexes is its lookup function, a set of indexes a `Finset`; no loop of the
source depends on the order of a map.  A loop that collects the indexes of some rows is a
filter.  Counts of rows are plain numbers.  The search for an unused index adds 32-bit
numbers, which can overflow, and wraps.
-/
import Ome.Theory.MachineInt
import Ome.Workload.Row
import Mathlib.Data.Finset.Sort

namespace Ome.Workload

open Ome.Theory Function

set_option autoImplicit false

/-! ## One row -/

/-- A migration refers to the row: the source by its phase, the surge by its operation. -/
def migrationPinned (s : InstanceStatus) : Bool :=
  decide (s.phase = .migrating) || s.operation.any fun op => op.type = .migrate

/-- The row's attempt claims a replacement index. -/
def claimsReplacement (s : InstanceStatus) : Bool :=
  s.operation.any fun op => op.surgeIndex.isSome ∧ (op.type = .migrate ∨ op.type = .update)

/-- The index a row's attempt claims. -/
def replacementOf (s : InstanceStatus) : Option Int :=
  if claimsReplacement s then s.operation.bind (·.surgeIndex) else none

/-- The operation of a gang surge's source. -/
def gangSurge (s : InstanceStatus) : Bool :=
  s.operation.any fun op => op.type = .update ∧ op.surgeIndex.isSome

/-- The row that claims the index of a gang surge's replacement. -/
def gangSurgeTargetMarker (s : InstanceStatus) : Bool :=
  s.operation.any fun op =>
    op.type = .update ∧ (op.step = .gangSurgeTarget ∨ op.step = .gangSurgeTargetCleanup)

def migrationHandoffPromoted (source target : InstanceStatus) (targetReferences : Nat) : Bool :=
  source.operation.any fun op =>
    targetReferences = 1 ∧
    source.phase = .migrating ∧ source.runningRevision ≠ "" ∧ source.targetRevision = "" ∧
    op.type = .migrate ∧ op.requestUUID ≠ "" ∧ op.surgeIndex = some target.index ∧
    target.incarnation = 1 ∧ target.activeOrdinal = 0 ∧ target.phase = .ready ∧
    target.runningRevision = source.runningRevision ∧ target.targetRevision = "" ∧
    target.operation = none

def updateHandoffPromoted (source target : InstanceStatus) (targetReferences : Nat) : Bool :=
  source.operation.any fun op =>
    targetReferences = 1 ∧
    source.phase = .updating ∧ source.runningRevision ≠ "" ∧ source.targetRevision ≠ "" ∧
    op.type = .update ∧ op.step = .surgeDrain ∧ op.surgeIndex = some target.index ∧
    op.targetRevision = source.targetRevision ∧
    target.incarnation = 1 ∧ target.activeOrdinal = 0 ∧ target.phase = .ready ∧
    target.runningRevision = source.targetRevision ∧ target.targetRevision = "" ∧
    target.operation = none

/-- The replacement carries the proof that its verb demands. -/
def replacementPromoted (source target : InstanceStatus) (claims : Nat) : Bool :=
  if source.operation.map (·.type) = some .update then updateHandoffPromoted source target claims
  else migrationHandoffPromoted source target claims

/-! ## The rank of a row -/

def lowestScaleDownRank : Nat := 8

def creatingWithNoOperation (s : InstanceStatus) : Bool :=
  s.phase = .creating ∧ s.operation = none

def keepsPreference (s : InstanceStatus) : Bool :=
  s.phase = .ready ∧ (s.podCount = 0 ∨ s.podCount ≤ s.servingPodCount)

def rowOnFailingRevision (s : InstanceStatus) (blocks : List RetryBlock) : Bool :=
  let rev := if s.targetRevision = "" then s.runningRevision else s.targetRevision
  if rev = "" then false
  else
    match findRetryBlock blocks rev with
    | none => false
    | some block =>
      match block.state with
      | .held => true
      | .backoff => true
      | .retryInProgress => s.remembersCrash

def scaleDownRank (s : InstanceStatus) (blocks : List RetryBlock) (onCordonedNode : Bool) : Nat :=
  if creatingWithNoOperation s then lowestScaleDownRank
  else
    (if keepsPreference s then 0 else 1) + (if rowOnFailingRevision s blocks then 2 else 0) +
      (if onCordonedNode then 4 else 0)

/-! ## Scans of the rows -/

section Scans

variable (instances : List InstanceStatus)

def indicesOf (p : InstanceStatus → Bool) : Finset Int :=
  ((instances.filter p).map (·.index)).toFinset

/-- The row of an index; of two rows the later counts. -/
def byIndex : Int → Option InstanceStatus :=
  instances.foldl (fun rows s => update rows s.index (some s)) fun _ => none

def existingInstanceIndices : Finset Int := (instances.map (·.index)).toFinset

def migrationInFlightIndices : Finset Int := indicesOf instances migrationPinned

def migrationSourceIndices : Finset Int := indicesOf instances fun s => s.phase = .migrating

/-- The body of the scan of `failedGangSurgeSources`: a failed source whose index is free
or holds its marker. -/
def failedGangSurge (s : InstanceStatus) : Bool :=
  decide (s.phase = .failed) && gangSurge s &&
    ((s.operation.bind (·.surgeIndex)).bind (byIndex instances)).all gangSurgeTargetMarker

def failedGangSurgeSources : Finset Int := indicesOf instances (failedGangSurge instances)

def updateSurgeSourceIndices : Finset Int :=
  indicesOf instances fun s => s.index ∉ failedGangSurgeSources instances ∧ gangSurge s

/-- The sources of live gang surges, and the rows they refer to. -/
def updateSurgeInFlightIndices : Finset Int :=
  let live := instances.filter fun s => gangSurge s ∧ s.index ∉ failedGangSurgeSources instances
  let referenced := (live.filterMap fun s => s.operation.bind (·.surgeIndex)).toFinset
  (live.map (·.index)).toFinset ∪ indicesOf instances fun s => s.index ∈ referenced

/-- One row of the scan of `failedGangSurgeFollowers`. -/
def followMarker (maps : (Int → Option Int) × (Int → Option Int)) (s : InstanceStatus) :
    (Int → Option Int) × (Int → Option Int) :=
  match s.operation.bind (·.surgeIndex) with
  | none => maps
  | some marker =>
    if s.index ∉ failedGangSurgeSources instances then maps
    else if marker ∉ existingInstanceIndices instances then maps
    else if (maps.2 marker).isSome then maps
    else (update maps.1 s.index (some marker),
      update maps.2 marker (some s.index))

/-- The marker of each failed source, and the source of each such marker. -/
def failedGangSurgeFollowers : (Int → Option Int) × (Int → Option Int) :=
  instances.foldl (followMarker instances) (fun _ => none, fun _ => none)

end Scans

/-! ## The selection -/

structure IndexSelection where
  replicas : Int
  /-- Every recorded index, ascending. -/
  existing : List Int
  rows : Int → Option InstanceStatus
  rank : Int → Nat
  /-- Both halves of the pairs in flight, and the halves charged to the count. -/
  pairMembers : Finset Int
  pairSources : Finset Int
  /-- The sources whose replacement is promoted. -/
  retiring : Finset Int
  failedTargetOf : Int → Option Int
  failedSourceOf : Int → Option Int
  chosen : List Int
  picked : Finset Int
  charged : Int

namespace IndexSelection

variable (sel : IndexSelection)

/-- One row of the scan of `claimReplacements`, with the claims of each index. -/
def claimReplacement (failed : Finset Int) (s : IndexSelection × (Int → Nat))
    (row : InstanceStatus) : IndexSelection × (Int → Nat) :=
  match replacementOf row with
  | none => s
  | some target =>
    let claims := update s.2 target (s.2 target + 1)
    if row.index ∈ failed then (s.1, claims)
    else ({ s.1 with pairMembers := insert target s.1.pairMembers }, claims)

def claimReplacements (instances : List InstanceStatus) : IndexSelection × (Int → Nat) :=
  instances.foldl (claimReplacement (failedGangSurgeSources instances)) (sel, fun _ => 0)

def rankRow (blocks : List RetryBlock) (cordoned : Finset Int) (sel : IndexSelection)
    (s : InstanceStatus) : IndexSelection :=
  let onCordonedNode := decide (s.index ∈ cordoned) ||
    (sel.failedTargetOf s.index).any fun target => target ∈ cordoned
  { sel with
    rows := update sel.rows s.index (some s)
    rank := update sel.rank s.index (scaleDownRank s blocks onCordonedNode) }

def rankRows (instances : List InstanceStatus) (blocks : List RetryBlock)
    (cordoned : Finset Int) : IndexSelection :=
  instances.foldl (rankRow blocks cordoned) sel

def releasePromotedSource (claims : Int → Nat) (sel : IndexSelection) (s : InstanceStatus) :
    IndexSelection :=
  match s.operation.bind (·.surgeIndex) with
  | none => sel
  | some target =>
    match sel.rows target with
    | none => sel
    | some row =>
      if replacementPromoted s row (claims target) then
        { sel with
          pairMembers := (sel.pairMembers.erase s.index).erase target
          pairSources := sel.pairSources.erase s.index
          retiring := insert s.index sel.retiring }
      else sel

def releasePromotedSources (instances : List InstanceStatus) (claims : Int → Nat) :
    IndexSelection :=
  instances.foldl (releasePromotedSource claims) sel

def choose (idx : Int) : IndexSelection :=
  if idx ∈ sel.picked then sel
  else { sel with chosen := sel.chosen ++ [idx], picked := insert idx sel.picked }

def keepPair (sel : IndexSelection) (idx : Int) : IndexSelection :=
  if idx ∉ sel.pairMembers then sel
  else if idx ∈ sel.pairSources then { sel.choose idx with charged := sel.charged + 1 }
  else sel.choose idx

/-- Both halves of every pair in flight; the sources are charged to the count. -/
def keepPairsInFlight : IndexSelection := sel.existing.foldl keepPair sel

def fillsSlot (idx : Int) (rank : Nat) : Bool :=
  idx ∉ sel.picked ∧ idx ∉ sel.retiring ∧ sel.failedSourceOf idx = none ∧ sel.rank idx = rank

/-- One round of the two loops of `fillCountByRank`; they return once the count is full,
and nothing is done in the rounds that are left. -/
def fillSlot (sel : IndexSelection) (slot : Nat × Int) : IndexSelection :=
  if sel.replicas ≤ sel.charged then sel
  else if sel.fillsSlot slot.2 slot.1 then
    let kept := { sel.choose slot.2 with charged := sel.charged + 1 }
    match sel.failedTargetOf slot.2 with
    | none => kept
    | some target => kept.choose target
  else sel

/-- The slots in the order of the loops: by rank, then by index. -/
def slots : List (Nat × Int) :=
  (List.range (lowestScaleDownRank + 1)).flatMap fun rank => sel.existing.map (rank, ·)

def fillCountByRank : IndexSelection := sel.slots.foldl fillSlot sel

end IndexSelection

/-- The smallest index from `start` on that is not used.  The end of the search is a
32-bit sum. -/
def lowestUnusedIndex (used : Finset Int) (start : Int) : Int :=
  let last := wrap32 (start + used.card)
  (((List.range (last - start + 1).toNat).map fun i : Nat => start + i).find?
    fun i => i ∉ used).getD last

/-- The rounds of the loop of `addNewIndexes`: each takes the next unused index. -/
def newIndexes : Nat → Int → Finset Int → List Int
  | 0, _, _ => []
  | rounds + 1, slot, taken =>
    let slot := lowestUnusedIndex taken slot
    slot :: newIndexes rounds slot (insert slot taken)

namespace IndexSelection

variable (sel : IndexSelection)

/-- New indexes until the count is charged in full; each charges one. -/
def addNewIndexes : IndexSelection :=
  let rounds := (sel.replicas - sel.charged).toNat
  { sel with
    chosen := sel.chosen ++ newIndexes rounds 0 sel.existing.toFinset
    charged := sel.charged + rounds }

end IndexSelection

/-- The selection before the claims, ranks and promotions are read. -/
def scannedSelection (instances : List InstanceStatus) (replicas : Int) : IndexSelection :=
  let followers := failedGangSurgeFollowers instances
  { replicas
    existing := (instances.map (·.index)).dedup.insertionSort (· ≤ ·)
    rows := fun _ => none
    rank := fun _ => 0
    pairMembers := migrationInFlightIndices instances ∪ updateSurgeInFlightIndices instances
    pairSources := migrationSourceIndices instances ∪ updateSurgeSourceIndices instances
    retiring := ∅
    failedTargetOf := followers.1
    failedSourceOf := followers.2
    chosen := []
    picked := ∅
    charged := 0 }

def readIndexSelection (instances : List InstanceStatus) (replicas : Int)
    (blocks : List RetryBlock) (cordoned : Finset Int) : IndexSelection :=
  let claimed := (scannedSelection instances replicas).claimReplacements instances
  (claimed.1.rankRows instances blocks cordoned).releasePromotedSources instances claimed.2

/-- The indexes the plan drives, ascending. -/
def instancePlanIndices (instances : List InstanceStatus) (replicas : Int)
    (blocks : List RetryBlock) (cordoned : Finset Int) : List Int :=
  let sel := readIndexSelection instances replicas blocks cordoned
  sel.keepPairsInFlight.fillCountByRank.addNewIndexes.chosen.insertionSort (· ≤ ·)

end Ome.Workload
