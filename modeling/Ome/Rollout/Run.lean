/-
# Ome.Rollout.Run — one pass of the run layer

Model of the run layer's `reconcile`: whether anything diverges (`divergedMember`), whether a
canary is under way without a run (`canaryMidFlight`), the run that is opened (`openRun`) or
closed (`closedOutcome`), and the repin of an open run (`handleRepin`, `clampCanary`).

What the pass reads of the replicas (`targets`, `fresh`), of the policies (once through the
cache, once live) and of the coordination status (`staged`) is arbitrary.  The events, the
conditions, the drift report, the name of the run and failing reads are left out: a read that
fails ends the pass with nothing written.
-/
import Ome.Rollout.Service

namespace Ome.Rollout

open Ome.Theory Ome.Canary

set_option autoImplicit false

/-! ## What the pass reads -/

/-- The revisions and counts of a component's replica; absent ones are empty. -/
structure TargetPair where
  current : String
  target : String
  replicas : Int
  updated : Int
  partition : Int

def TargetPair.straggling (t : TargetPair) : Bool := 0 < t.replicas ∧ t.updated < t.replicas

def TargetPair.stagedByPartition (t : TargetPair) : Bool :=
  let held := t.replicas - t.updated
  0 < t.partition ∧ 1 ≤ held ∧ held ≤ t.partition

/-- The service as one pass sees it. -/
structure Service where
  groups : List RolloutGroup
  shape : Shape
  /-- The repin annotation. -/
  repin : Option String
  status : ServiceStatus

structure Inputs where
  env : Digests
  now : Int
  policies : Policies
  live : Policies
  targets : Component → TargetPair
  fresh : Bool
  /-- The coordination group of a component rests Staged. -/
  staged : Component → Bool

structure Outcome where
  parked : Bool
  stateChanged : Bool
  opened : Bool
  adopted : Bool
  deriving DecidableEq

def Outcome.quiet : Outcome := ⟨false, false, false, false⟩

def Outcome.changed : Outcome := ⟨false, true, false, false⟩

variable (groups : List RolloutGroup) (s : ServiceStatus) (active : RolloutRun)
  (targets : Component → TargetPair) (g : RolloutGroup)

/-! ## Rejected revisions -/

def primaryPhase : RolloutPhase :=
  match primaryOf g with
  | some p => (s.components p).rolloutPhase
  | none => .unset

def groupRecord : Option CanaryStatus :=
  (primaryOf g).bind (canaryStatusFor s)

def pinnedRevision (pinned : List RolloutRunTarget) (c : Component) : String :=
  match pinned.find? (·.component = c) with
  | some t => t.revision
  | none => ""

/-- The rejected revision of every member of one rolled-back group. -/
def addGroupReject (primary : Component) (hash : String) (targets : Component → TargetPair)
    (out : Component → String) : Component → String :=
  let records :=
    (s.activeRun.map (·.targetRevisions)).toList ++
      ((s.lastRun.filter (·.outcome = .rolledBack)).map (·.targetRevisions)).toList
  match records.find? fun pinned => pinnedRevision pinned primary = hash with
  | some pinned =>
    pinned.foldl (fun out member => fun c =>
      if c = member.component ∧ member.component ∈ g.components then member.revision
      else out c) out
  | none =>
    let out := fun c => if c = primary then hash else out c
    if (targets primary).target ≠ hash then out
    else
      g.components.foldl (fun out comp => fun c =>
        if c = comp ∧ (targets comp).target ≠ "" then (targets comp).target else out c) out

def stickyRejectHashes : Component → String :=
  groups.foldl (fun rejected g =>
    if g.declaredProgression ≠ .canary then rejected
    else
      match primaryOf g with
      | none => rejected
      | some primary =>
        match canaryStatusFor s primary with
        | none => rejected
        | some cs =>
          if cs.rolledBackRevisionHash = "" then rejected
          else addGroupReject s g primary cs.rolledBackRevisionHash targets rejected)
    fun _ => ""

/-- Some member needs a roll. -/
def divergedMember : Bool :=
  let rejected := stickyRejectHashes groups s targets
  groups.any fun g => g.components.any fun comp =>
    let t := targets comp
    if g.declaredProgression = .canary ∧ t.target ≠ "" ∧ t.target = rejected comp then false
    else if g.declaredProgression ≠ .canary ∧ t.stagedByPartition then false
    else if t.straggling then true
    else !(t.target = "" || t.target = t.current)

/-! ## Canaries under way -/

def canaryTargetIDPrefix : String := "ct1:"

/-- The fingerprint of the revisions the members are held to; empty when one has none. -/
def canaryTargetID (env : Digests) (members : List Component) (revisionOf : Component → String) :
    String :=
  let distinct := members.foldl (fun seen c => if c ∈ seen then seen else seen ++ [c]) []
  if distinct.any (revisionOf · = "") then ""
  else if distinct = [] then ""
  else
    let parts := distinct.map fun c => c.text ++ "=" ++ revisionOf c
    canaryTargetIDPrefix ++ env.shortHash (String.intercalate ";" (parts.insertionSort (· ≤ ·)))

/-- The targets a record was written for are the ones the members have. -/
def recordTargetsStand (env : Digests) (g : Option RolloutGroup) (primary : Component)
    (cs : CanaryStatus) (targets : Component → TargetPair) : Bool :=
  match decide (cs.targetID ≠ ""), g with
  | true, some g =>
    let observed := canaryTargetID env g.components fun c => (targets c).target
    observed = "" || observed = cs.targetID
  | _, _ =>
    cs.canaryRevisionHash = "" || (targets primary).target = "" ||
      (targets primary).target = cs.canaryRevisionHash

def stepShortOfEnd (primary : Component) (cs : CanaryStatus) (steps : List RolloutGroupStep) :
    Bool :=
  stepOf cs (s.components primary).rolloutPhase steps < steps.length

def ladderLength : Nat :=
  match g.canary with
  | some c => c.steps.length
  | none => 0

def revertInFlight : Bool :=
  match groupRecord s g with
  | none => false
  | some cs =>
    if cs.rolledBackRevisionHash = "" then false
    else stateOf (some cs) (primaryPhase s g) (ladderLength g) = .rollingBack

def declaredCanaryGroup : Option RolloutGroup :=
  groups.find? (·.declaredProgression = .canary)

def primaryCanaryComponent : Option Component :=
  (groups.filter (·.declaredProgression = .canary)).findSome? primaryOf

/-- A canary is under way that a run must wrap. -/
def canaryMidFlight (env : Digests) (groups : List RolloutGroup) (policies : Policies)
    (s : ServiceStatus) (targets : Component → TargetPair) : Bool :=
  match primaryCanaryComponent groups with
  | none => false
  | some primary =>
    match canaryStatusFor s primary with
    | none => false
    | some cs =>
      let g := canaryGroupFor (effective groups policies s) primary
      if cs.rolledBackRevisionHash ≠ "" then
        match g.or (declaredCanaryGroup groups) with
        | some g => revertInFlight s g
        | none => false
      else if
          recordTargetsStand env (declaredCanaryGroup groups) primary cs targets = false then
        false
      else
        match g.bind (·.canary) with
        | some c => stepShortOfEnd s primary cs c.steps
        | none => (s.components primary).rolloutPhase ≠ .stable

def unitLadderInFlight : Bool :=
  match g.canary, primaryOf g with
  | some c, some primary =>
    match canaryStatusFor s primary with
    | none => false
    | some cs =>
      if cs.rolledBackRevisionHash ≠ "" then revertInFlight s g
      else stepShortOfEnd s primary cs c.steps
  | _, _ => false

/-! ## Opening and closing -/

/-- The revision a component falls back to in a run that pins it. -/
def componentStableRevision (comp : Component) (pinned : String) (t : TargetPair)
    (adopting : Bool) : String :=
  if t.current ≠ "" ∧ t.current ≠ pinned then t.current
  else if adopting = false ∧ t.current ≠ "" ∧ t.straggling = false then t.current
  else
    let recorded :=
      if comp = canaryUnit comp then
        match canaryStatusFor s comp with
        | some cs => cs.stableRevisionHash
        | none => ""
      else ""
    if recorded ≠ "" then recorded
    else if (s.components comp).latestRolledoutRevision ≠ "" then
      (s.components comp).latestRolledoutRevision
    else if adopting = false then t.current
    else ""

/-- How one component is pinned. -/
def pinTarget (rejected : Component → String) (stableOverrides : Component → Option String)
    (unitAdopting reverting : Bool) (comp : Component) : RolloutRunTarget :=
  let t := targets comp
  let rev := if t.target = "" then t.current else t.target
  let stable := (stableOverrides comp).getD (componentStableRevision s comp rev t unitAdopting)
  ⟨comp,
    if rejected comp ≠ "" ∧ rev = rejected comp ∧ stable ≠ "" ∧ reverting = false then stable
    else rev,
    stable⟩

/-- The components of the groups, each once, with how they are pinned. -/
def pinTargets (stableOverrides : Component → Option String) (adopting : Bool)
    (plan : List RolloutRunGroup) : List RolloutRunTarget :=
  let rejected := stickyRejectHashes groups s targets
  plan.foldl (fun pinned entry =>
    let unitAdopting := adopting && unitLadderInFlight s entry.group
    let reverting := unitAdopting && revertInFlight s entry.group
    entry.group.components.foldl (fun pinned comp =>
      if pinned.any (·.component = comp) then pinned
      else pinned ++
        [pinTarget s targets rejected stableOverrides unitAdopting reverting comp]) pinned) []

def openRun (svc : Service) (plan : List RolloutRunGroup) (targets : Component → TargetPair)
    (stableOverrides : Component → Option String) (adopting : Bool) (now : Int) : Service :=
  let pinned := pinTargets svc.groups svc.status targets stableOverrides adopting plan
  { svc with status.activeRun := some ⟨now, now, pinned, plan⟩ }

def closeRun (svc : Service) (active : RolloutRun) (outcome : RolloutRunOutcome) : Service :=
  { svc with
    status.lastRun := some ⟨outcome, active.targetRevisions⟩
    status.activeRun := none }

def retargeted : Bool :=
  let rejected := stickyRejectHashes groups s targets
  active.groups.any fun entry => entry.group.components.any fun comp =>
    let obs := targets comp
    let pinned := pinnedRevision active.targetRevisions comp
    !(obs.target = "" || pinned = "") && obs.target ≠ pinned && obs.target ≠ rejected comp

/-- What one pinned group says about the run: it is over, it waits, or this group is done. -/
inductive GroupEnd where
  | ends (outcome : RolloutRunOutcome)
  | waits
  | done

/-- The component rests on its pinned revision with no Instance behind. -/
def settled (obs : TargetPair) (pinned : String) : Bool :=
  obs.current = pinned ∧ obs.target = pinned ∧ obs.straggling = false

def canaryGroupEnd (c : GroupCanary) : GroupEnd :=
  let pinnedFor := pinnedRevision active.targetRevisions
  match groupRecord s g with
  | none =>
    -- a unit with nothing to shift from never arms
    if g.components.all fun comp =>
        pinnedFor comp = "" || settled (targets comp) (pinnedFor comp) then .done
    else .waits
  | some cs =>
    let primary := (primaryOf g).getD .engine
    if cs.rolledBackRevisionHash ≠ "" then
      if pinnedFor primary ≠ cs.rolledBackRevisionHash then .done
      else if stateOf (some cs) (primaryPhase s g) c.steps.length = .rolledBack then
        .ends .rolledBack
      else .waits
    else if stepShortOfEnd s primary cs c.steps then .waits
    else if primaryPhase s g ≠ .stable then .waits
    else if g.components.all fun comp =>
        (targets comp).straggling = false &&
          (pinnedFor comp = "" || (targets comp).current = pinnedFor comp) then .done
    else .waits

def groupEnd (staged : Component → Bool) (g : RolloutGroup) : GroupEnd :=
  match g.canary with
  | some c => canaryGroupEnd s active targets g c
  | none =>
    let pinnedFor := pinnedRevision active.targetRevisions
    if g.components.all fun comp =>
        let obs := targets comp
        pinnedFor comp = "" || staged comp ||
          (obs.current = pinnedFor comp && obs.target = pinnedFor comp &&
            (obs.replicas = 0 || obs.replicas ≤ obs.updated)) then .done
    else .waits

/-- The outcome of a run that is over. -/
def closedOutcome (staged : Component → Bool) : List RolloutRunGroup → Option RolloutRunOutcome
  | [] => some .completed
  | entry :: rest =>
    match groupEnd s active targets staged entry.group with
    | .ends outcome => some outcome
    | .waits => none
    | .done => closedOutcome staged rest

/-! ## The repin -/

/-- The steps of the first canary group a run pins. -/
def pinnedCanarySteps : List RolloutGroupStep :=
  match active.groups.findSome? (·.group.canary) with
  | some c => c.steps
  | none => []

/-- A record brought into another ladder; none is an index out of range. -/
def clampRecord (cs : CanaryStatus) (phase : RolloutPhase) (oldSteps : List RolloutGroupStep)
    (c : GroupCanary) : Option CanaryStatus :=
  let step := stepOf cs phase oldSteps
  -- done stays done
  if 0 < oldSteps.length ∧ (oldSteps.length : Int) ≤ step then
    some { cs with currentStep := c.steps.length }
  else
    let step := if (c.steps.length : Int) ≤ step then (c.steps.length : Int) - 1 else step
    if step < 0 then none
    else
      match c.steps[step.toNat]? with
      | none => none
      | some entry =>
        some
          { cs with
            currentStep := step
            preStepHold := cs.preStepHold || cs.observedTrafficWeight < entry.traffic }

/-- Bring the first canary unit that has a record into its new ladder. -/
def clampCanary (oldSteps : List RolloutGroupStep) (s : ServiceStatus) :
    List RolloutRunGroup → Option ServiceStatus
  | [] => some s
  | entry :: rest =>
    match entry.group.canary, primaryOf entry.group with
    | some c, some primary =>
      match canaryStatusFor s primary with
      | none => clampCanary oldSteps s rest
      | some cs =>
        (clampRecord cs (primaryPhase s entry.group) oldSteps c).map
          (putCanaryFor s primary)
    | _, _ => clampCanary oldSteps s rest

/-- Replace the pinned plan of a run by the live one; none is a failed pass. -/
def handleRepin (inp : Inputs) (svc : Service) (active : RolloutRun) (want : String) :
    Option (Bool × Service) :=
  let consumed := { svc with repin := none }
  match composePlan inp.env svc.shape svc.groups inp.live with
  | .error _ => some (false, consumed)
  | .ok plan =>
    let fresh := inp.env.combined (plan.map (·.portableDigest))
    if fresh = inp.env.combined (active.groups.map (·.portableDigest)) then
      some (false, consumed)
    else if want ≠ "now" ∧ want ≠ fresh then some (false, consumed)
    else if plan = [] then some (true, closeRun consumed active .superseded)
    else
      let active' :=
        { active with
          groups := plan
          pinnedAt := inp.now }
      (clampCanary (pinnedCanarySteps active)
        { svc.status with activeRun := some active' } plan).map fun status =>
          (true, { consumed with status := status })

/-! ## The pass -/

/-- The stable revisions a retarget carries over to the run it opens. -/
def carriedStables : Component → Option String :=
  active.targetRevisions.foldl (fun out t => fun c =>
    let moved := (targets t.component).target ≠ "" && (targets t.component).target ≠ t.revision
    if c = t.component ∧ (t.stableRevision ≠ "" ∨ moved = true) then some t.stableRevision
    else out c) fun _ => none

/-- The end of a pass that has no run to keep. -/
def openPath (inp : Inputs) (svc : Service) (stableOverrides : Component → Option String)
    (closed : Bool) : Outcome × Service :=
  if inp.fresh = false then (.quiet, svc)
  else
    let diverged := divergedMember svc.groups svc.status inp.targets
    let midFlight := canaryMidFlight inp.env svc.groups inp.policies svc.status inp.targets
    if diverged = false ∧ midFlight = false then
      (if closed then .changed else .quiet, svc)
    else
      match composePlan inp.env svc.shape svc.groups inp.live with
      | .error _ => (⟨true, closed, false, false⟩, svc)
      | .ok plan =>
        let adopting := !closed && midFlight
        (⟨false, true, true, adopting⟩,
          openRun svc plan inp.targets stableOverrides adopting inp.now)

/-- A pass over a service with an open run. -/
def activePath (inp : Inputs) (svc : Service) (active : RolloutRun) : Option (Outcome × Service) :=
  match svc.repin with
  | some want =>
    (handleRepin inp svc active want).map fun (changed, svc) =>
      (⟨false, changed, false, false⟩, svc)
  | none =>
    if inp.fresh = false then some (.quiet, svc)
    else if retargeted svc.groups svc.status active inp.targets then
      let closed := closeRun svc active .superseded
      if svc.groups = [] then some (.changed, closed)
      else some (openPath inp closed (carriedStables active inp.targets) true)
    else
      match closedOutcome svc.status active inp.targets inp.staged active.groups with
      | some outcome => some (.changed, closeRun svc active outcome)
      | none => some (.quiet, svc)

/-- **One pass of the run layer**; none is a pass that fails. -/
def reconcile (inp : Inputs) (svc : Service) : Option (Outcome × Service) :=
  match svc.status.activeRun with
  | some active => activePath inp svc active
  | none =>
    if svc.groups = [] then some (.quiet, svc)
    else some (openPath inp svc (fun _ => none) false)

/-! ## A small service -/

/-- Steps of full capacity with no gate, one for each traffic. -/
def openLadder (traffics : List Int) : GroupCanary where
  steps := traffics.map fun traffic => ⟨.percent 100, traffic, none, none⟩
  scaleDownDelaySeconds := none
  readyTimeout := none

def canaryOn (components : List Component) (traffics : List Int) : RolloutGroup where
  components := components
  canary := some (openLadder traffics)
  blueGreen := false
  rollingUpdate := false
  policyRef := none
  maintainRatio := false

/-- A record toward `c` from `s`, at a step with a weight. -/
def recordAt (step weight : Int) : CanaryStatus :=
  { CanaryStatus.start "t" "c" "s" 0 with
    currentStep := step
    observedTrafficWeight := weight }

def wholeShape : Shape := ⟨fun c => c = .router ∨ c = .engine, fun _ => true, fun _ _ => true⟩

/-- Plans told apart by their ladders' lengths. -/
def lengthDigests : Digests where
  progression g := String.ofList (List.replicate (ladderLength g) 'x')
  combined ds := String.intercalate "," ds
  shortHash text := text
  providerBound _ := true

def noPolicies : Policies := ⟨false, fun _ => none, fun _ => false⟩

def quietInputs : Inputs where
  env := lengthDigests
  now := 0
  policies := noPolicies
  live := noPolicies
  targets := targets
  fresh := true
  staged _ := false

def pinnedRun : RolloutRun where
  openedAt := 0
  pinnedAt := 0
  targetRevisions := []
  groups := groups.map fun g => ⟨lengthDigests.progression g, g⟩

/-- The records of the two units, under way. -/
def unitsAt (router engine : Option CanaryStatus) (active : Option RolloutRun) : ServiceStatus where
  components c :=
    match c with
    | .router => ⟨router, .canarying, ""⟩
    | .engine => ⟨engine, .canarying, ""⟩
    | _ => ⟨none, .unset, ""⟩
  canary := none
  activeRun := active
  lastRun := none

def longEngine : List RolloutGroup := [canaryOn [.engine] [10, 20, 50, 100]]

def longBoth : List RolloutGroup := canaryOn [.router] [50, 100] :: longEngine

end Ome.Rollout
