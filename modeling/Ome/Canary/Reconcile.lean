/-
# Ome.Canary.Reconcile — one reconcile pass of a canary unit

Model of the canary executor: the pause, the operator's verbs (`handleResume`,
`applyHolds`), the step machine (`capacityGate`, `preStepGate`, `finalStep`,
`intermediateStep`) and the dispatcher's park of a rollback that has nothing to return to
(`dispatch`).

A pass works on the record, the phase and the traffic of the unit's primary and on its own
copy of the promote annotations: a verb that is applied is taken from the copy and handed
back for removal once the status is written.  `opened` counts the gates a promote opened;
the source keeps no such count.

What the pass observes is arbitrary: pods, counts, metric samples, other units' records, the
pause, the rollback and the resume requests (the latter parsed).  Events, metrics, the
requeue, the rolled-out revision fields, the secondaries' own traffic, pairing protocols and
the record of services from before per-unit state are left out.
-/
import Ome.Canary.Record
import Ome.Theory.Exits

namespace Ome.Canary

open Ome.Theory

set_option autoImplicit false

/-! ## What a pass reads and returns -/

inductive Verb where
  | promote
  | promoteForce
  | rollback
  | resume
  deriving DecidableEq

/-- The verbs that open a step's gate. -/
def promoteKeys : List Verb := [.promote, .promoteForce]

structure TrafficTarget where
  revision : String
  percent : Int
  deriving DecidableEq

/-- What a pass works on. -/
structure Pass (R : Type) where
  record : R
  phase : RolloutPhase
  traffic : List TrafficTarget
  annotations : GoMap Verb String
  taken : List Verb
  opened : Nat

/-- A pass over a unit that has a record. -/
abbrev Armed := Pass CanaryStatus

def Pass.whole (p : Armed) : Pass (Option CanaryStatus) where
  record := some p.record
  phase := p.phase
  traffic := p.traffic
  annotations := p.annotations
  taken := p.taken
  opened := p.opened

def Pass.withRecord {R : Type} (p : Pass R) (record : CanaryStatus) : Armed where
  record
  phase := p.phase
  traffic := p.traffic
  annotations := p.annotations
  taken := p.taken
  opened := p.opened

def Pass.setPhase {R : Type} (p : Pass R) (phase : RolloutPhase) : Pass R := { p with phase }

/-- Apply a verb: nothing later in the pass reads it again. -/
def Pass.take {R : Type} (p : Pass R) (verb : Verb) : Pass R :=
  { p with
    annotations := p.annotations.erase verb
    taken := p.taken ++ [verb] }

/-- Pods per revision; none is no view of them. -/
abbrev Pods := Option (GoMap String Int)

def podCount (pods : Pods) (hash : String) : Int :=
  match pods with
  | none => 0
  | some counts => counts.get hash

structure MemberRevisions where
  canaryRevisionHash : String
  stableRevisionHash : String
  readyCanaryCapacity : Int
  desiredReplicas : Int
  readyPods : Pods
  totalPods : Pods
  /-- The member's stable revision on record. -/
  persistedStable : String
  /-- A traffic split is written for the member. -/
  holdsSplit : Bool

structure ResumeRequest where
  /-- Whether a scoped request names this unit; none is not scoped. -/
  scope : Option Bool
  hash : String

inductive Outcome where
  | pass
  | fail
  | inconclusive
  deriving DecidableEq

structure Sample where
  outcome : Outcome
  producedAt : Int

structure ReconcileInputs where
  now : Int
  canaryRevisionHash : String
  stableRevisionHash : String
  /-- None when no replica was observed. -/
  readyCanaryInstances : Option Int
  desiredReplicas : Int
  perRevisionPods : Pods
  totalPods : Pods
  /-- A canary pod keeps dying after it was serving. -/
  crash : Bool
  canaryRestartedAt : Option Int
  secondaryCapacityReady : Bool
  secondaries : List MemberRevisions
  /-- The sample of all members, when the sampler has a fresh one. -/
  sample : Option Sample
  runActive : Bool
  targetID : String
  /-- The fingerprint of the targets the members have now. -/
  observedTargetID : String
  unitRetargeted : Bool
  readyTimeoutAnnotation : Option Int
  defaultReadyTimeout : Int
  paused : Bool
  /-- The rollback annotation reads "true". -/
  rollback : Bool
  resume : Option ResumeRequest
  /-- Another unit is the one a resume request addresses. -/
  othersResume : Bool
  /-- Another unit holds the rollback request. -/
  othersHoldRollback : Bool
  /-- Another unit has a canary the rollback request can act on. -/
  othersActionable : Bool
  /-- Removing the rollback annotation ahead of the status write failed. -/
  patchFails : Bool
  /-- No ControllerRevision is retained for a stable revision. -/
  missingStable : Bool

structure Result where
  active : Bool
  complete : Bool
  stepped : Bool
  rolledBack : Bool
  partition : Int
  deriving DecidableEq

def Result.inactive : Result := ⟨false, false, false, false, 0⟩

def Result.holding (partition : Int) : Result := ⟨true, false, false, false, partition⟩

def Result.reverting : Result := ⟨true, false, false, true, 0⟩

/-- How a pass ended. -/
structure Ended where
  result : Result
  pass : Pass (Option CanaryStatus)

/-- A part of a pass: it goes on with a value, ends the pass, or fails (none). -/
abbrev Stage := Except (Option Ended)

def stop {α : Type} (result : Result) (p : Armed) : Stage α := .error (some ⟨result, p.whole⟩)

variable (plan : GroupCanary) (inp : ReconcileInputs) (step : RolloutGroupStep) (cs : CanaryStatus)

/-! ## Revisions and traffic -/

/-- The revision other than the canary's with the most pods. -/
def otherRevision (pods : Pods) (canaryHash : String) : String :=
  match pods with
  | none => ""
  | some counts =>
    (counts.keys.foldl (fun (best : String × Int) hash =>
      if hash = canaryHash ∨ hash = "" then best
      else if best.2 ≤ counts.get hash then (hash, counts.get hash)
      else best) ("", 0)).1

def stableHashFor (pods : Pods) (rejected : String) : String :=
  if cs.stableRevisionHash ≠ "" then cs.stableRevisionHash else otherRevision pods rejected

def readyCanaryCapacity : Int :=
  inp.readyCanaryInstances.getD (podCount inp.perRevisionPods inp.canaryRevisionHash)

def servesOtherRevision (pods : Pods) (hash : String) : Bool :=
  match pods with
  | none => false
  | some counts => counts.keys.any fun h => h ≠ "" ∧ h ≠ hash ∧ 0 < counts.get h

/-- Every member has its whole capacity on its target and no pod on another revision. -/
def cutoverComplete : Bool :=
  !(readyCanaryCapacity inp < inp.desiredReplicas ||
      servesOtherRevision inp.perRevisionPods inp.canaryRevisionHash) &&
    inp.secondaries.all fun m =>
      !(m.readyCanaryCapacity < m.desiredReplicas ||
        servesOtherRevision m.readyPods m.canaryRevisionHash)

def canaryWeights (canaryHash stableHash : String) (weight : Int) : List TrafficTarget :=
  if canaryHash ≠ "" ∧ canaryHash = stableHash then [⟨canaryHash, 100⟩]
  else [⟨canaryHash, weight⟩, ⟨stableHash, 100 - weight⟩]

def buildTrafficTargets (weights : List TrafficTarget) : List TrafficTarget :=
  weights.filter fun w => ¬ (w.percent ≤ 0 ∨ w.revision = "")

/-- The revision a split's remainder rests on. -/
def servingStable (stableHash canaryHash : String) (readyPods : Pods) : String :=
  match readyPods with
  | none => stableHash
  | some counts =>
    if stableHash = "" ∨ stableHash = canaryHash ∨ 0 < counts.get stableHash then stableHash
    else
      let substitute := (counts.keys.foldl (fun (best : String × Int) hash =>
        if hash = "" ∨ hash = canaryHash ∨ counts.get hash ≤ 0 then best
        else if best.2 < counts.get hash ∨ counts.get hash = best.2 ∧ hash < best.1 then
          (hash, counts.get hash)
        else best) ("", 0)).1
      if substitute = "" then stableHash else substitute

def targetServes (readyPods : Pods) (target stable : String) : Bool :=
  readyPods.isNone || target = "" || target = stable || 0 < podCount readyPods target

def canaryPathServes : Bool :=
  targetServes inp.perRevisionPods inp.canaryRevisionHash inp.stableRevisionHash &&
    inp.secondaries.all fun m =>
      targetServes m.readyPods m.canaryRevisionHash m.stableRevisionHash

/-- The share a member writes on its target. -/
def servedWeight (weight : Int) (pathServes : Bool) (stable : String) (readyPods : Pods) : Int :=
  if stable = "" ∨ readyPods.isNone then weight
  else
    match pathServes, decide (0 < podCount readyPods stable) with
    | false, true => 0
    | true, false => 100
    | _, _ => weight

def Pass.writeTraffic {R : Type} (p : Pass R) (canaryHash stableHash : String) (weight : Int) :
    Pass R :=
  { p with traffic := buildTrafficTargets (canaryWeights canaryHash stableHash weight) }

def recordTrafficWeight (p : Armed) (weight : Int) : Armed :=
  { p with record.observedTrafficWeight := weight }

/-- The split of the primary at a weight, on the pods it has. -/
def splitTraffic (weight : Int) (p : Armed) : Armed :=
  let stable := servingStable inp.stableRevisionHash inp.canaryRevisionHash inp.perRevisionPods
  p.writeTraffic inp.canaryRevisionHash stable
    (servedWeight weight (canaryPathServes inp) stable inp.perRevisionPods)

def applyGroupTraffic (weight : Int) (p : Armed) : Armed :=
  recordTrafficWeight (splitTraffic inp weight p) weight

/-- The primary holds a split that can be written again. -/
def holdsSplit (p : Armed) : Bool :=
  p.traffic ≠ [] ∧ inp.stableRevisionHash ≠ "" ∧ inp.stableRevisionHash ≠ inp.canaryRevisionHash

def heldTraffic (weight : Int) (p : Armed) : Armed :=
  if holdsSplit inp p then splitTraffic inp weight p else p

def holdGroupTraffic (p : Armed) : Armed :=
  heldTraffic inp p.record.observedTrafficWeight p

def returnTrafficToStable (p : Armed) : Armed :=
  if holdsSplit inp p then recordTrafficWeight (splitTraffic inp 0 p) 0 else p

def applyCutoverTraffic (p : Armed) : Armed :=
  recordTrafficWeight (p.writeTraffic inp.canaryRevisionHash inp.stableRevisionHash 100) 100

/-! ## Parks, resets and the revert -/

def parkFailed (reason : CanaryFailureReason) (p : Armed) : Armed :=
  { p with
    record.failed := if p.record.failed.isNone then some ⟨reason, inp.now⟩ else p.record.failed
    phase := .failed }

/-- Start again at step 0 toward a revision; only the stable identity is kept. -/
def resetCanaryStatus (hash : String) (p : Armed) : Armed :=
  { p with
    record := .start inp.targetID hash p.record.stableRevisionHash inp.now
    phase := .pending }

/-- A member other than the primary still has a pod off its stable revision, or the primary
has, counting every pod. -/
def groupRollingBack (primaryStable : String) : Bool :=
  (primaryStable ≠ "" && servesOtherRevision inp.totalPods primaryStable) ||
    inp.secondaries.any fun m =>
      m.persistedStable ≠ "" && servesOtherRevision m.totalPods m.persistedStable

def reconcileRollback (p : Armed) : Result × Armed :=
  let rejected := p.record.rolledBackRevisionHash
  let stableHash := stableHashFor p.record inp.perRevisionPods rejected
  let p :=
    if 0 < podCount inp.perRevisionPods stableHash then
      recordTrafficWeight (p.writeTraffic rejected stableHash 0) 0
    else p
  let rollingBack :=
    (rejected ≠ stableHash && 0 < podCount inp.perRevisionPods rejected) ||
      (stableHash ≠ "" && servesOtherRevision inp.perRevisionPods stableHash) ||
      groupRollingBack inp stableHash
  (.reverting, p.setPhase (if rollingBack then .rollingBack else .rolledBack))

/-- A member that holds a floor has no pod on its stable revision. -/
def emptyRollbackTargets : Bool :=
  let pods := if inp.totalPods.isSome then inp.totalPods else inp.perRevisionPods
  let stable := stableHashFor cs inp.perRevisionPods cs.canaryRevisionHash
  (stable ≠ "" && 0 < heldFloor inp.desiredReplicas && podCount pods stable = 0) ||
    inp.secondaries.any fun m =>
      m.stableRevisionHash ≠ "" && 0 < heldFloor m.desiredReplicas &&
        podCount (if m.totalPods.isSome then m.totalPods else m.readyPods)
          m.stableRevisionHash = 0

def rollBackOnGateFailure (p : Armed) : Result × Armed :=
  if emptyRollbackTargets inp p.record then
    (.holding inp.desiredReplicas,
      parkFailed inp .stableRevisionMissing (holdGroupTraffic inp p))
  else
    reconcileRollback inp
      { p with record.rolledBackRevisionHash := p.record.canaryRevisionHash }

/-! ## Promotes -/

def promoteMatches (annotations : GoMap Verb String) (cs : CanaryStatus) (key : Verb) : Bool :=
  key ∈ annotations.keys ∧ annotations.get key = cs.canaryRevisionHash ∧
    annotations.get key ≠ cs.promotedThrough

def shouldAdvanceManual (p : Armed) : Bool :=
  promoteMatches p.annotations p.record .promote ||
    promoteMatches p.annotations p.record .promoteForce

def forceRequested (p : Armed) : Bool := promoteMatches p.annotations p.record .promoteForce

/-- Record the value of a key, unless a live one is recorded, and take the key. -/
def recordKey (work : Armed × Bool) (key : Verb) : Armed × Bool :=
  let (p, live) := work
  if key ∈ p.annotations.keys then
    let v := p.annotations.get key
    if v = p.record.canaryRevisionHash then
      (Pass.take { p with record.promotedThrough := v } key, true)
    else if live = false then (Pass.take { p with record.promotedThrough := v } key, live)
    else (p.take key, live)
  else (p, live)

/-- Record the promote that stands, and take every key there is. -/
def recordPromotes (p : Armed) : Armed := (promoteKeys.foldl recordKey (p, false)).1

/-- Take a key that still carries the applied value. -/
def syncKey (work : Armed × Bool) (key : Verb) : Armed × Bool :=
  let (p, lingering) := work
  if key ∈ p.annotations.keys ∧ p.annotations.get key = p.record.promotedThrough then
    (p.take key, true)
  else (p, lingering)

/-- Take an applied promote that is still visible; forget it once it is gone. -/
def syncPromotedThrough (p : Armed) : Armed :=
  if p.record.promotedThrough = "" then p
  else
    let (p, lingering) := promoteKeys.foldl syncKey (p, false)
    if lingering then p else { p with record.promotedThrough := "" }

def ignoreForce (p : Armed) : Armed := if forceRequested p then p.take .promoteForce else p

/-! ## Gates -/

inductive StepDecision where
  | hold
  | advance
  | rollback
  | failed
  deriving DecidableEq

def stepIsAnalysis : Bool := step.analysis.isSome

def stepGated : Bool := stepIsAnalysis step || step.pause.isSome

def laterOf (a : Int) (b : Option Int) : Int :=
  match b with
  | none => a
  | some b => max a b

def shouldAdvanceAuto (step : RolloutGroupStep) (restartedAt : Option Int) (now : Int) : Bool :=
  match step.pause.bind (·.duration) with
  | none => true
  | some duration =>
    match cs.stepEnteredTime with
    | none => false
    | some entered => !decide (now < laterOf entered restartedAt + duration)

def resolveReadyTimeout (plan : GroupCanary) : Int :=
  match inp.readyTimeoutAnnotation.filter (0 < ·), plan.readyTimeout.filter (0 < ·) with
  | some d, _ => d
  | none, some d => d
  | none, none => inp.defaultReadyTimeout

def analysisStalled (timeout now : Int) : Bool :=
  if timeout ≤ 0 then false
  else
    match cs.lastConclusiveEvaluationTime.or cs.stepEnteredTime with
    | none => false
    | some anchor => !decide (now < anchor + timeout)

def consumeSample (a : RolloutAnalysis) (sample : Sample) (p : Armed) : StepDecision × Armed :=
  let p : Armed := { p with record.lastEvaluationTime := some sample.producedAt }
  match sample.outcome with
  | .fail =>
    let checks := p.record.analysisFailedChecks + 1
    (if a.failureLimit ≤ checks then .rollback else .hold,
      { p with
        record.lastConclusiveEvaluationTime := some sample.producedAt
        record.analysisFailedChecks := checks })
  | .pass =>
    (if shouldAdvanceAuto p.record step inp.canaryRestartedAt inp.now then .advance else .hold,
      { p with record.lastConclusiveEvaluationTime := some sample.producedAt })
  | .inconclusive =>
    (if a.onInconclusive = some .rollback then .rollback
      else if analysisStalled p.record (resolveReadyTimeout inp plan) inp.now then
        if a.onInconclusive = some .rollbackOnStall then .rollback else .failed
      else .hold, p)

/-- The step warms up, or was sampled within the interval. -/
def sampleWaits (a : RolloutAnalysis) (cs : CanaryStatus) : Bool :=
  (match a.initialDelay, cs.stepEnteredTime with
    | some delay, some entered => decide (inp.now < entered + delay)
    | _, _ => false) ||
  (match cs.lastEvaluationTime with
    | some last => decide (inp.now < last + a.interval)
    | none => false)

def evaluateAnalysisStep (a : RolloutAnalysis) (p : Armed) : StepDecision × Armed :=
  if shouldAdvanceManual p then (.advance, p)
  else if sampleWaits inp a p.record then (.hold, p)
  else
    match inp.sample with
    | none => (.hold, p)
    | some sample => consumeSample plan inp step a sample p

def evaluateStep (p : Armed) : StepDecision × Armed :=
  if shouldAdvanceManual p then (.advance, p)
  else
    match step.analysis, step.pause.bind (·.duration) with
    | some a, _ => evaluateAnalysisStep plan inp step a p
    | none, some _ =>
      (if shouldAdvanceAuto p.record step inp.canaryRestartedAt inp.now then .advance else .hold,
        p)
    | none, none => (.hold, p)

def capacityGateExpired (timeout now : Int) : Bool :=
  match cs.capacityWaitSince with
  | none => false
  | some since => 0 < timeout ∧ ¬ now < since + timeout

def drainElapsed (plan : GroupCanary) (now : Int) : Bool :=
  match plan.scaleDownDelaySeconds with
  | none => true
  | some delay =>
    if delay ≤ 0 then true
    else
      match cs.stepEnteredTime with
      | none => false
      | some entered => !decide (now < entered + delay * second)

/-! ## Verbs and holds -/

/-- Which observed targets a state does not treat as new. -/
structure RearmRule where
  excludeCurrent : Bool
  excludeRejected : Bool
  excludeStable : Bool

def rearmLive : RearmRule := ⟨true, false, false⟩

def rearmRolledBack : RearmRule := ⟨false, true, true⟩

def rearmFailed : RearmRule := ⟨true, false, true⟩

def rearmDone : RearmRule := ⟨true, false, false⟩

def shouldRearm (targetChanged : Bool) (rule : RearmRule) : Bool :=
  if inp.runActive = false ∨ inp.canaryRevisionHash = "" then false
  else if targetChanged ∧ (cs.rolledBackRevisionHash = "" ∨ inp.unitRetargeted) then true
  else if rule.excludeCurrent ∧ inp.canaryRevisionHash = cs.canaryRevisionHash then false
  else if rule.excludeRejected ∧ inp.canaryRevisionHash = cs.rolledBackRevisionHash then false
  else
    let held :=
      if cs.rolledBackRevisionHash = "" then cs.canaryRevisionHash else cs.rolledBackRevisionHash
    !(rule.excludeStable && inp.canaryRevisionHash = stableHashFor cs inp.perRevisionPods held)

/-- The record's roll no longer exists: every member rests on another target. -/
def targetReverted : Bool :=
  if inp.runActive then false
  else if cs.targetID ≠ "" ∧ (inp.observedTargetID = "" ∨ inp.observedTargetID = cs.targetID) then
    false
  else if cs.targetID = "" ∧ (inp.canaryRevisionHash = "" ∨
      inp.canaryRevisionHash = cs.canaryRevisionHash) then false
  else cutoverComplete inp

/-- The unit reads Stable with no record. -/
def endCanary (p : Armed) : Ended :=
  let split := p.traffic ≠ [] ∨ inp.secondaries.any (·.holdsSplit)
  let p := if split then applyCutoverTraffic inp p else p
  ⟨.inactive, { p.whole with record := none, phase := .stable }⟩

variable (steps : Nat)

def cutoverRolling (p : Armed) : Bool :=
  (steps : Int) ≤ p.record.currentStep ∧ p.record.stableRevisionHash ≠ "" ∧ p.phase ≠ .stable

/-- A unit, this one or another, holds the rollback request it applied. -/
def rollbackRequestHeld (cs : Option CanaryStatus) : Bool :=
  cs.any (fun cs => cs.rollbackRequested ∧ cs.rolledBackRevisionHash ≠ "") ||
    inp.othersHoldRollback

def rollbackRequestPending (cs : Option CanaryStatus) : Bool :=
  inp.rollback && !rollbackRequestHeld inp cs

def rollbackRequestSpendable (cs : Option CanaryStatus) : Bool :=
  inp.rollback &&
    (cs.any (fun cs => cs.rollbackRequested ∧ cs.rolledBackRevisionHash ≠ "") ||
      (!rollbackRequestHeld inp cs && !inp.othersActionable))

def ignoreRollback {R : Type} (cs : Option CanaryStatus) (p : Pass R) : Pass R :=
  if rollbackRequestSpendable inp cs then p.take .rollback else p

def refuseRollback (p : Armed) : Armed :=
  if parkedWithoutStable p.record then ignoreRollback inp (some p.record) p else p

/-- At the done sentinel: the last stable Instance rolls, then the unit reads Stable. -/
def finishCutover (p : Armed) : Result × Armed :=
  let p : Armed := if p.phase = .stable then { p with record.stableRevisionHash := "" } else p
  if p.record.stableRevisionHash = "" then (.inactive, p.setPhase .stable)
  else if cutoverComplete inp = false then (.holding 0, p.setPhase .promoting)
  else
    (⟨true, true, false, false, 0⟩,
      Pass.setPhase { p with record.stableRevisionHash := "" } .stable)

def ResumeRequest.addressesUnit (r : ResumeRequest) (cs : Option CanaryStatus) : Bool :=
  match r.scope with
  | some this => this
  | none => cs.any (·.canaryRevisionHash = r.hash)

/-- Some member targets the revision. -/
def targetsName (hash : String) : Bool :=
  (inp.canaryRevisionHash ≠ "" && inp.canaryRevisionHash = hash) ||
    inp.secondaries.any fun m => m.canaryRevisionHash ≠ "" && m.canaryRevisionHash = hash

variable (p : Pass (Option CanaryStatus))

/-- Clear a terminal hold and restart the steps; a pass that resumes ends. -/
def handleResume : Stage (Pass (Option CanaryStatus)) :=
  match inp.resume with
  | none => .ok p
  | some req =>
    if req.addressesUnit p.record = false then
      if inp.othersResume then .ok p else .ok (p.take .resume)
    else
      let state := stateOf p.record p.phase 0
      match p.record with
      | none => .ok (p.take .resume)
      | some cs =>
        if state.terminal = false ∨ (inp.runActive = false ∧ state ≠ .rolledBack) ∨
            req.hash ≠ cs.canaryRevisionHash ∨ targetsName inp req.hash = false then
          .ok (p.take .resume)
        else if inp.patchFails then .error none
        else
          stop (.holding 0)
            ((resetCanaryStatus inp cs.canaryRevisionHash (p.withRecord cs)).take .resume)

/-- A request is this unit's until it is seen removed. -/
def releaseRequest (p : Armed) : Armed :=
  if p.record.rollbackRequested ∧ inp.rollback = false then
    { p with record.rollbackRequested := false }
  else p

/-- A missing stable identity is filled in from the observed one. -/
def backfillStable (p : Armed) : Armed :=
  if p.record.stableRevisionHash = "" ∧ inp.stableRevisionHash ≠ "" then
    { p with record.stableRevisionHash := inp.stableRevisionHash }
  else p

/-- A live canary is bound to the target it has. -/
def bindTarget (inp : ReconcileInputs) (targetChanged : Bool) (p : Armed) : Stage Armed :=
  if p.record.currentStep < steps ∧ p.record.rolledBackRevisionHash = "" ∧
      stateOfRecord p.record p.phase steps ≠ .failed then
    let p := backfillStable inp p
    if shouldRearm inp p.record targetChanged rearmLive then
      .ok (resetCanaryStatus inp inp.canaryRevisionHash p)
    else if targetReverted inp p.record then .error (some (endCanary inp p))
    else .ok p
  else .ok p

def holdRollback (inp : ReconcileInputs) (targetChanged : Bool) (p : Armed) : Stage Armed :=
  if p.record.rolledBackRevisionHash ≠ "" then
    if shouldRearm inp p.record targetChanged rearmRolledBack then
      if inp.patchFails then .error none
      else .ok (resetCanaryStatus inp inp.canaryRevisionHash p)
    else if parkedWithoutStable p.record = false then
      let (result, p) := reconcileRollback inp (ignoreForce p)
      stop result p
    else .ok p
  else if rollbackRequestPending inp (some p.record) ∧
      (p.record.currentStep < steps ∨ cutoverRolling steps p) then
    let (result, p) := reconcileRollback inp
      { p with
        record.rolledBackRevisionHash := p.record.canaryRevisionHash
        record.rollbackRequested := true
        record.failed := none }
    stop result p
  else .ok p

def holdFailed (inp : ReconcileInputs) (targetChanged : Bool) (p : Armed) : Stage Armed :=
  if stateOfRecord p.record p.phase steps = .failed then
    if shouldRearm inp p.record targetChanged rearmFailed then
      .ok (resetCanaryStatus inp inp.canaryRevisionHash p)
    else if targetReverted inp p.record then .error (some (endCanary inp p))
    else stop (.holding 0) (ignoreForce (refuseRollback inp (p.setPhase .failed)))
  else .ok p

def holdDone (inp : ReconcileInputs) (targetChanged : Bool) (p : Armed) : Stage Armed :=
  if (steps : Int) ≤ p.record.currentStep then
    if shouldRearm inp p.record targetChanged rearmDone then
      .ok (resetCanaryStatus inp inp.canaryRevisionHash p)
    else
      let p := syncPromotedThrough p
      let (result, p) := finishCutover inp (ignoreRollback inp (some p.record) p)
      stop result p
  else .ok p

/-- A live canary with no pinned run holds in place. -/
def holdRunLost (p : Armed) : Stage Armed :=
  if inp.runActive = false then
    match plan.steps[p.record.currentStep.toNat]? with
    | none => .error none
    | some step => stop (.holding (stepPartition step inp.desiredReplicas)) p
  else .ok p

/-- A new canary starts under a pinned run, with a stable revision, toward a new target. -/
def arm : Stage Armed :=
  let p := ignoreRollback inp none p
  if inp.canaryRevisionHash = "" ∨ inp.stableRevisionHash = "" ∨
      (inp.targetID = "" ∧ inp.desiredReplicas ≤ readyCanaryCapacity inp) ∨
      inp.unitRetargeted = false then
    .error (some ⟨.inactive,
      if inp.canaryRevisionHash ≠ "" ∧ 0 < inp.desiredReplicas then p.setPhase .stable else p⟩)
  else if inp.runActive = false then .error (some ⟨.inactive, p⟩)
  else
    .ok (p.withRecord
      (.start inp.targetID inp.canaryRevisionHash inp.stableRevisionHash inp.now))

def applyHolds (targetChanged : Bool) (p : Pass (Option CanaryStatus)) : Stage Armed :=
  match p.record with
  | none => arm inp p
  | some cs => do
    let steps := plan.steps.length
    let p ← bindTarget steps inp targetChanged (releaseRequest inp (p.withRecord cs))
    let p ← holdRollback steps inp targetChanged p
    let p ← holdFailed steps inp targetChanged p
    let p ← holdDone steps inp targetChanged p
    holdRunLost plan inp p

/-! ## The step machine -/

def capacityShort : Bool :=
  readyCanaryCapacity inp < stepStagedCount step inp.desiredReplicas ∨
    inp.secondaryCapacityReady = false

/-- The clock of the capacity wait; a forced step keeps none. -/
def capacityClock (short forced : Bool) (p : Armed) : Armed :=
  let p : Armed := if forced then { p with record.capacityWaitSince := none } else p
  if short ∧ forced = false ∧ p.record.capacityWaitSince = none then
    { p with record.capacityWaitSince := some inp.now }
  else p

/-- The step waits for its canary Instances to serve; a drain does not wait here. -/
def capacityGate (p : Armed) : Stage Armed :=
  let short := capacityShort inp step
  let forced := forceRequested p
  let state := stateOfRecord p.record p.phase plan.steps.length
  let p := capacityClock inp short forced p
  if short = true ∧ forced = false then
    let p := if state ≠ .draining then holdGroupTraffic inp p else p
    if capacityGateExpired p.record (resolveReadyTimeout inp plan) inp.now then
      let p := if state = .draining then returnTrafficToStable inp p else p
      stop (.holding inp.desiredReplicas) (parkFailed inp .capacityTimeout p)
    else if state = .draining then .ok p
    else if state = .serving ∨ state = .preHold then
      if state = .serving ∧ stepIsAnalysis step then
        let (decision, p) := evaluateStep plan inp step p
        if decision = .rollback then
          let (result, p) := rollBackOnGateFailure inp p
          stop result p
        else stop (.holding (stepPartition step inp.desiredReplicas)) p
      else stop (.holding (stepPartition step inp.desiredReplicas)) p
    else stop (.holding (stepPartition step inp.desiredReplicas)) (p.setPhase .pending)
  else if short = false then .ok { p with record.capacityWaitSince := none }
  else .ok p

/-- A key that carries the canary hash is spent on the release of the hold. -/
def releaseKey (work : Armed × Bool) (key : Verb) : Armed × Bool :=
  let (p, released) := work
  if p.annotations.get key ≠ p.record.canaryRevisionHash then (p, released)
  else
    (Pass.take
      { p with
        record.preStepHold := false
        record.promotedThrough := p.record.canaryRevisionHash } key, true)

def releaseHold (p : Armed) : Armed × Bool := promoteKeys.foldl releaseKey (p, false)

/-- A repinned plan raises traffic only after a promote. -/
def preStepGate (p : Armed) : Stage Armed :=
  if p.record.preStepHold then
    let (p, released) := releaseHold p
    if released then .ok { p with opened := p.opened + 1 }
    else
      stop (.holding (stepPartition step inp.desiredReplicas))
        ((holdGroupTraffic inp p).setPhase .paused)
  else .ok p

/-- The gate of a step decides how the pass goes on. -/
def stepGate (p : Armed) : Stage Armed :=
  if stepGated step then
    let (decision, p) := evaluateStep plan inp step p
    match decision with
    | .rollback =>
      let (result, p) := rollBackOnGateFailure inp p
      stop result p
    | .failed => stop (.holding inp.desiredReplicas) (parkFailed inp .analysisStalled p)
    | .hold =>
      stop (.holding (stepPartition step inp.desiredReplicas)) (p.setPhase .paused)
    | .advance => .ok p
  else .ok p

/-- Count the gate a promote opens. -/
def countOpened (p : Armed) : Armed :=
  if shouldAdvanceManual p then { p with opened := p.opened + 1 } else p

def advanceStep (p : Armed) : Armed :=
  let p := recordPromotes (countOpened p)
  { p with
    record.currentStep := p.record.currentStep + 1
    record.stepEnteredTime := some inp.now
    record.capacityWaitSince := none
    record.analysisFailedChecks := 0
    record.lastEvaluationTime := none
    record.lastConclusiveEvaluationTime := none
    phase := .pending }

/-- The final step: full traffic, the drain window, then the done sentinel. -/
def finalStep (weightBefore : Int) (p : Armed) : Stage Ended := do
  let shifted := weightBefore ≠ 100
  let p : Armed := if shifted then { p with record.stepEnteredTime := some inp.now } else p
  let p ← stepGate plan inp step (p.setPhase .promoting)
  if shifted ∨ capacityShort inp step ∨ drainElapsed p.record plan inp.now = false then
    stop (.holding (stepPartition step inp.desiredReplicas)) p
  else
    let p := recordPromotes (countOpened p)
    let p := applyCutoverTraffic inp { p with record.currentStep := plan.steps.length }
    let (result, p) := finishCutover inp p
    pure ⟨result, p.whole⟩

/-- A step before the last: a split, its gate, then the next step. -/
def intermediateStep (p : Armed) : Stage Ended := do
  let p : Armed :=
    if p.phase ≠ .canarying ∧ p.phase ≠ .paused then
      { p with record.stepEnteredTime := some inp.now }
    else p
  let p ← stepGate plan inp step (p.setPhase .canarying)
  pure ⟨⟨true, false, true, false, stepPartition step inp.desiredReplicas⟩,
    (advanceStep inp p).whole⟩

def stepMachine (p : Armed) : Stage Ended :=
  let p := backfillStable inp p
  if inp.crash then
    stop (.holding inp.desiredReplicas)
      (parkFailed inp .capacityTimeout (returnTrafficToStable inp p))
  else
    let p := syncPromotedThrough p
    match plan.steps[p.record.currentStep.toNat]? with
    | none => .error none
    | some step => do
      let p ← capacityGate plan inp step p
      let p ← preStepGate inp step p
      let weightBefore := p.record.observedTrafficWeight
      let p := applyGroupTraffic inp step.traffic p
      if p.record.currentStep = (plan.steps.length : Int) - 1 then
        finalStep plan inp step weightBefore p
      else intermediateStep plan inp step p

/-! ## The pass -/

/-- A negative step is read back from the record. -/
def repairStep : Pass (Option CanaryStatus) :=
  { p with
    record := p.record.map fun cs =>
      if cs.currentStep < 0 then { cs with currentStep := stepOf cs p.phase plan.steps } else cs }

def pausedResult : Result :=
  match p.record with
  | none => .inactive
  | some cs =>
    if stateOfRecord cs p.phase plan.steps.length = .failed then
      ⟨true, false, false, cs.rolledBackRevisionHash ≠ "", inp.desiredReplicas⟩
    else if cs.rolledBackRevisionHash ≠ "" then .reverting
    else
      match plan.steps[cs.currentStep.toNat]? with
      | none => .inactive
      | some step => .holding (stepPartition step inp.desiredReplicas)

/-- A paused unit only observes; a forced promote is taken without effect. -/
def pausedPass : Pass (Option CanaryStatus) :=
  match p.record with
  | none => p
  | some cs =>
    if cs.currentStep < plan.steps.length then (ignoreForce (p.withRecord cs)).whole else p

/-- Bind a record to the run, and repair a stable identity that names the canary. -/
def adoptRecord : CanaryStatus :=
  let cs := if cs.targetID = "" ∧ inp.targetID ≠ "" then
    { cs with targetID := inp.targetID } else cs
  if cs.canaryRevisionHash ≠ "" ∧ cs.stableRevisionHash = cs.canaryRevisionHash ∧
      inp.stableRevisionHash ≠ "" ∧ inp.stableRevisionHash ≠ cs.canaryRevisionHash then
    { cs with stableRevisionHash := inp.stableRevisionHash }
  else cs

def targetChanged (cs : Option CanaryStatus) : Bool :=
  cs.any fun cs =>
    inp.runActive ∧ inp.targetID ≠ "" ∧ cs.targetID ≠ "" ∧ cs.targetID ≠ inp.targetID

def reconcileStages : Stage Ended := do
  let p := repairStep plan p
  if inp.paused then pure ⟨pausedResult plan inp p, pausedPass plan p⟩
  else
    let changed := targetChanged inp p.record
    let p ← handleResume inp { p with record := p.record.map (adoptRecord inp) }
    let p ← applyHolds plan inp changed p
    stepMachine plan inp p

/-- How the pass ended, wherever it did; none when it failed. -/
def Stage.finish (x : Stage Ended) : Option Ended :=
  match x with
  | .ok ended => some ended
  | .error ended => ended

def reconcile : Option Ended :=
  if plan.steps = [] then some ⟨.inactive, p⟩ else Stage.finish (reconcileStages plan inp p)

/-- A rollback with no retained revision to return to is parked. -/
def parkMissingStable (ended : Ended) : Ended :=
  match ended.pass.record with
  | none => ended
  | some cs =>
    if inp.missingStable ∧ ended.result.rolledBack ∧ cs.failed = none then
      let p := parkFailed inp .stableRevisionMissing (ended.pass.withRecord cs)
      { ended with pass := (ignoreRollback inp (some p.record) p).whole }
    else ended

def dispatch : Option Ended :=
  (reconcile plan inp p).map (parkMissingStable inp)

end Ome.Canary
