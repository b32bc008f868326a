/-
# Ome.Alfred.Arbiter — one budget for all of Alfred's moves

Model of the arbiter: the ledger it reads, the order it takes the candidates in
(`admitOrder`), the gates each candidate passes (`admission`), the placement it claims
(`selectTarget`) and the books it keeps between the candidates of one call
(`AdmitState`).

`trace` is the loop of `Admit`.  It keeps the placement of every decision beside it, which
the source adds to the books and does not return; `admitDecisions` is the decisions alone.  Scores
are numbers that compare; the sort is stable, as in the source.
-/
import Mathlib.Algebra.Order.Ring.Rat
import Ome.Alfred.Snapshot
import Ome.Theory.Attempts

namespace Ome.Alfred

open Ome.Theory GoMap

set_option autoImplicit false

/-! ## The ledger -/

def hour : Int := 3600000000000

structure DispatchRecord where
  workload : NamespacedName
  fromNode : String
  /-- The claimed placement; empty for a move that claims none. -/
  target : String
  gpus : Int
  health : Bool
  dispatchedAt : Int
  absorbed : Bool

structure Ledger where
  dispatches : List DispatchRecord
  breakerTil : Int

namespace Ledger

variable (l : Ledger)

def breakerOpen (now : Int) : Bool := now < l.breakerTil

/-- Old records drop out; a record stops claiming capacity once its workload is gone or
shows a newer terminal migration. -/
def absorbSnapshot (snap : ClusterSnapshot) (now : Int) : Ledger :=
  { l with
    dispatches := (l.dispatches.filter fun rec => ¬ hour < now - rec.dispatchedAt).map fun rec =>
      if rec.absorbed then rec
      else
        match snap.workloads.get rec.workload with
        | none => { rec with absorbed := true }
        | some w =>
          match w.lastMigration with
          | none => rec
          | some last => if rec.dispatchedAt < last then { rec with absorbed := true } else rec }

def dispatchesWithinHour (now : Int) : Nat :=
  l.dispatches.countP fun rec => now - rec.dispatchedAt ≤ hour

/-- Something landed on the node within the window, or left it by a routine move. -/
def nodeCooling (node : String) (window now : Int) : Bool :=
  if node = "" then false
  else l.dispatches.any fun rec =>
    now - rec.dispatchedAt < window ∧ (rec.target = node ∨ rec.fromNode = node ∧ rec.health = false)

/-- The GPUs that unabsorbed dispatches claim on each node. -/
def activeClaims : GoMap String Int :=
  l.dispatches.foldl (fun claims rec =>
    if rec.absorbed ∨ rec.target = "" then claims
    else claims.set rec.target (claims.get rec.target + rec.gpus)) empty

end Ledger

/-! ## Candidates -/

inductive CandidateReason where
  | fragmentation
  | nodeUnhealthy
  | nodeMaintenance
  | remediationSignal
  | other (text : String)
  deriving DecidableEq

structure Candidate where
  workload : NamespacedName
  component : String
  instanceIndex : Int
  reason : CandidateReason
  fromNode : String
  hintTargetNodes : List String
  placementTargetNodes : List String
  executable : Bool
  surgeShaped : Bool
  /-- The move goes to a new TPU slice. -/
  tpuSlice : Bool
  footprintGPUs : Int
  score : Rat

variable (c : Candidate)

def candidatePriority : Nat :=
  match c.reason with
  | .nodeUnhealthy => 2
  | .nodeMaintenance => 1
  | _ => 0

/-- A health or maintenance candidate. -/
def Candidate.evacuates : Bool := 0 < candidatePriority c

/-- The first candidate comes first: higher class, then higher score, then smaller
footprint. -/
def admitLess (x y : Candidate) : Bool :=
  if candidatePriority x ≠ candidatePriority y then candidatePriority y < candidatePriority x
  else if x.score ≠ y.score then y.score < x.score
  else x.footprintGPUs < y.footprintGPUs

/-- The first candidate may stay before the second. -/
def AdmitsBefore (x y : Candidate) : Prop := admitLess y x = false

instance : DecidableRel AdmitsBefore := fun x y =>
  inferInstanceAs (Decidable (admitLess y x = false))

/-- The executable candidates, in arbitration order. -/
def admitOrder (cands : List Candidate) : List Candidate :=
  (cands.filter (·.executable)).insertionSort AdmitsBefore

inductive Reject where
  | circuitBreakerOpen
  | instanceGone
  | notMovable
  | malformedRequest
  | migrationStateInvalid
  | terminating
  | workloadBusy
  | autoscalerActive
  | cooldown
  | placementCooldown
  | nodeCooldown
  | targetUnderEvac
  | targetUnavailable
  | targetNodeBusy
  | noCapacity
  | inFlightCap
  | hourlyCap
  deriving DecidableEq

inductive AutoscalerIntent where
  | idle
  | scaling
  | unknown
  deriving DecidableEq

structure Decision where
  candidate : Candidate
  admitted : Bool
  /-- None when admitted. -/
  reason : Option Reject
  target : String
  cooldownOverridden : Bool

structure Arbiter where
  ledger : Option Ledger
  /-- None when no autoscaler is wired in. -/
  autoscalerIntent : Option (ClusterSnapshot → String → AutoscalerIntent)

/-! ## One call -/

/-- The books of one call. -/
structure AdmitState where
  ledger : Option Ledger
  autoscalerIntent : Option (ClusterSnapshot → String → AutoscalerIntent)
  snap : ClusterSnapshot
  cfg : Config
  now : Int
  breakerOpen : Bool
  evacuating : List String
  claims : GoMap String Int
  landed : List String
  admittedWorkloads : List String
  inFlight : Int
  hourly : Int
  admitted : Int

/-- The migrations in flight, and those of the last hour. -/
def migrationLoad (snap : ClusterSnapshot) (ledger : Option Ledger) (now : Int) : Nat × Nat :=
  let workloads := snap.workloads.keys.filterMap snap.workloads.get
  let inFlight := (workloads.map fun w => w.activeMigrations.length).sum
  let snapshotHour := (workloads.map fun w =>
    w.activeMigrations.countP (fun m => now - m.requestedAt ≤ hour) +
      match w.lastMigration with
      | some last => if now - last ≤ hour then 1 else 0
      | none => 0).sum
  match ledger with
  | none => (inFlight, snapshotHour)
  | some l => (inFlight, max snapshotHour (l.dispatchesWithinHour now))

def newAdmitState (a : Arbiter) (snap : ClusterSnapshot) (cfg : Config)
    (ordered : List Candidate) (now : Int) : AdmitState :=
  let ledger := a.ledger.map (·.absorbSnapshot snap now)
  let load := migrationLoad snap ledger now
  { ledger
    autoscalerIntent := a.autoscalerIntent
    snap
    cfg
    now
    breakerOpen := ledger.any (·.breakerOpen now)
    evacuating := (ordered.filter fun c => c.evacuates ∧ c.fromNode ≠ "").map (·.fromNode)
    claims := (ledger.map (·.activeClaims)).getD empty
    landed := []
    admittedWorkloads := []
    inFlight := load.1
    hourly := load.2
    admitted := 0 }

/-- How a target answers a block of GPUs. -/
inductive Verdict where
  | missing
  | unavailable
  | evacuating
  | landed
  | cooling
  | short
  | fits
  deriving DecidableEq

/-- The instance that the candidate addresses. -/
def lookupInstance (w : Workload) (c : Candidate) : Option Instance :=
  match w.components.get c.component with
  | none => none
  | some comp => comp.instances.find? (·.index = c.instanceIndex)

namespace AdmitState

variable (st : AdmitState)

def nodeCooling (node : String) : Bool :=
  st.ledger.any (·.nodeCooling node st.cfg.perNodeCooldown st.now)

def fits (node : String) (gpus : Int) : Verdict :=
  match st.snap.node node with
  | none => .missing
  | some n =>
    if n.unavailableAsTarget then .unavailable
    else if node ∈ st.evacuating then .evacuating
    else if node ∈ st.landed then .landed
    else if st.nodeCooling node then .cooling
    else if gpus ≤ n.freeGPUs - st.claims.get node then .fits
    else .short

/-- Why a block found no target: what the targets answered, most telling first. -/
def noTarget (verdicts : List Verdict) : Reject :=
  if .unavailable ∈ verdicts then .targetUnavailable
  else if .evacuating ∈ verdicts then .targetUnderEvac
  else if .landed ∈ verdicts then .targetNodeBusy
  else if .cooling ∈ verdicts then .nodeCooldown
  else .noCapacity

/-- Every block goes to the first target that has room for it beside the blocks already
there.  The answer is the first target used and the GPUs placed on each. -/
def placeAll (targets : List String) : List Int → String → GoMap String Int →
    Except Reject (String × GoMap String Int)
  | [], first, placement => .ok (first, placement)
  | gpus :: rest, first, placement =>
    match targets.find? (fun hint => st.fits hint (gpus + placement.get hint) = .fits) with
    | none => .error (noTarget (targets.map fun hint => st.fits hint (gpus + placement.get hint)))
    | some hint =>
      placeAll targets rest (if first = "" then hint else first)
        (placement.set hint (placement.get hint + gpus))

/-- The blocks of a surge, largest first. -/
def surgeBlocks (inst : Instance) : List Int :=
  let pods := ((inst.pods.filter fun pod => 0 < pod.gpus).insertionSort
    fun a b => b.gpus ≤ a.gpus).map (·.gpus)
  if pods = [] ∧ 0 < c.footprintGPUs then [c.footprintGPUs] else pods

def selectTarget (inst : Instance) : Except Reject (String × GoMap String Int) :=
  if c.tpuSlice then .ok ("", empty)
  else
    let targets := if c.placementTargetNodes = [] then c.hintTargetNodes
      else c.placementTargetNodes
    if c.surgeShaped = false then
      match targets.find? (fun hint => st.fits hint c.footprintGPUs = .fits) with
      | some hint => .ok (hint, empty.set hint c.footprintGPUs)
      | none => .ok ("", empty)
    else st.placeAll targets (surgeBlocks c inst) "" empty

/-- The workload's own cooldown: whether a health evacuation overrides it. -/
def cooldown (w : Workload) : Except Reject Bool :=
  let window := w.cooldownOverride.getD st.cfg.perWorkloadCooldown
  match w.lastMigration with
  | none => .ok false
  | some last =>
    if c.reason = .nodeUnhealthy then
      if st.now - last < st.cfg.healthCooldownFloor then .error .cooldown
      else .ok (st.now - last < window)
    else if st.now - last < window then .error .cooldown
    else .ok false

/-- The gates that only look at the candidate and its workload. -/
def eligible (w : Workload) (inst : Instance) : Except Reject Bool := do
  refuse (w.movable = false) .notMovable
  refuse (w.malformedRequests ≠ []) .malformedRequest
  refuse (w.migrationStateValid = false) .migrationStateInvalid
  refuse (inst.pods.any (·.terminating) = true) .terminating
  refuse (w.activeMigrations ≠ [] ∨ c.workload.text ∈ st.admittedWorkloads) .workloadBusy
  refuse (st.autoscalerIntent.any (fun intent => intent st.snap c.workload.text ≠ .idle) = true)
    .autoscalerActive
  let overridden ← st.cooldown c w
  let placementWindow :=
    if c.reason = .nodeUnhealthy then st.cfg.healthCooldownFloor
    else st.cfg.recentPlacementCooldown
  refuse (inst.pods.any (fun pod => pod.startTime.any fun start =>
    st.now - start < placementWindow) = true) .placementCooldown
  refuse (c.reason ≠ .nodeUnhealthy ∧ st.nodeCooling c.fromNode = true) .nodeCooldown
  pure overridden

/-- All the gates, in order: the target, the placement, and whether the workload's cooldown
was overridden. -/
def admission : Except Reject (String × GoMap String Int × Bool) := do
  refuse (st.breakerOpen = true) .circuitBreakerOpen
  match st.snap.workloads.get c.workload with
  | none => .error .instanceGone
  | some w =>
    match lookupInstance w c with
    | none => .error .instanceGone
    | some inst =>
      let overridden ← st.eligible c w inst
      let (target, placement) ← st.selectTarget c inst
      refuse (st.cfg.maxInFlightMigrations ≤ st.inFlight + st.admitted) .inFlightCap
      refuse (st.cfg.maxMigrationsPerHour ≤ st.hourly + st.admitted) .hourlyCap
      pure (target, placement, overridden)

/-- The books after an admission. -/
def record (placement : GoMap String Int) : AdmitState :=
  { st with
    admitted := st.admitted + 1
    admittedWorkloads := c.workload.text :: st.admittedWorkloads
    landed := placement.keys ++ st.landed
    claims := placement.keys.foldl (fun claims node =>
      claims.set node (claims.get node + placement.get node)) st.claims }

/-- The verdict on one candidate, the placement it claims, and the books after it. -/
def decideOn : Decision × GoMap String Int × AdmitState :=
  match st.admission c with
  | .error reason => (⟨c, false, some reason, "", false⟩, empty, st)
  | .ok (target, placement, overridden) =>
    (⟨c, true, none, target, overridden⟩, placement, st.record c placement)

/-- The verdicts on the candidates in turn. -/
def decideAll : List Candidate → AdmitState → List (Decision × GoMap String Int)
  | [], _ => []
  | c :: rest, st =>
    let (decision, placement, st) := st.decideOn c
    (decision, placement) :: decideAll rest st

end AdmitState

/-- The decisions of one call, with their placements. -/
def trace (a : Arbiter) (snap : ClusterSnapshot) (cands : List Candidate) (cfg : Config)
    (now : Int) : List (Decision × GoMap String Int) :=
  AdmitState.decideAll (admitOrder cands) (newAdmitState a snap cfg (admitOrder cands) now)

def admitDecisions (a : Arbiter) (snap : ClusterSnapshot) (cands : List Candidate) (cfg : Config)
    (now : Int) : List Decision :=
  (trace a snap cands cfg now).map Prod.fst

end Ome.Alfred
