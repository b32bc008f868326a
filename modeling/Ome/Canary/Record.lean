/-
# Ome.Canary.Record — the canary record, its plan and the partition it projects

Model of the canary status of one unit, of the plan it walks, of the state the two are read
as (`stateOf`, `stepOf`) and of the partition the controller projects from them
(`effectivePartition`): Instances below the partition are held on the stable revision.

Times and durations are in nanoseconds; a status write stores a time at its whole second
(`CanaryStatus.stored`).  The metric results of the record are left out: nothing reads them.
-/
import Mathlib.Algebra.Order.Ring.Int
import Ome.Theory.GoMap

namespace Ome.Canary

open Ome.Theory

set_option autoImplicit false

/-! ## The plan -/

/-- A step's capacity: a count, a percentage or a text that is neither. -/
inductive Capacity where
  | count (n : Int)
  | percent (n : Int)
  | malformed
  deriving DecidableEq

structure RolloutPause where
  /-- None waits for a promote. -/
  duration : Option Int

inductive OnInconclusive where
  | hold
  | rollback
  | rollbackOnStall
  deriving DecidableEq

structure RolloutAnalysis where
  interval : Int
  initialDelay : Option Int
  failureLimit : Int
  onInconclusive : Option OnInconclusive

structure RolloutGroupStep where
  capacity : Capacity
  traffic : Int
  pause : Option RolloutPause
  analysis : Option RolloutAnalysis

structure GroupCanary where
  steps : List RolloutGroupStep
  scaleDownDelaySeconds : Option Int
  readyTimeout : Option Int

def second : Int := 1000000000

/-! ## The record -/

inductive RolloutPhase where
  | unset
  | stable
  | canarying
  | pending
  | paused
  | promoting
  | rollingBack
  | rolledBack
  | failed
  deriving DecidableEq

inductive CanaryFailureReason where
  | capacityTimeout
  | analysisStalled
  | stableRevisionMissing
  deriving DecidableEq

structure CanaryFailure where
  reason : CanaryFailureReason
  time : Int
  deriving DecidableEq

structure CanaryStatus where
  targetID : String
  canaryRevisionHash : String
  stableRevisionHash : String
  currentStep : Int
  stepEnteredTime : Option Int
  observedTrafficWeight : Int
  promotedThrough : String
  preStepHold : Bool
  rolledBackRevisionHash : String
  rollbackRequested : Bool
  analysisFailedChecks : Int
  lastEvaluationTime : Option Int
  lastConclusiveEvaluationTime : Option Int
  capacityWaitSince : Option Int
  failed : Option CanaryFailure
  deriving DecidableEq

/-- A record at step 0 with nothing else on it. -/
def CanaryStatus.start (targetID hash stable : String) (now : Int) : CanaryStatus where
  targetID
  canaryRevisionHash := hash
  stableRevisionHash := stable
  currentStep := 0
  stepEnteredTime := some now
  observedTrafficWeight := 0
  promotedThrough := ""
  preStepHold := false
  rolledBackRevisionHash := ""
  rollbackRequested := false
  analysisFailedChecks := 0
  lastEvaluationTime := none
  lastConclusiveEvaluationTime := none
  capacityWaitSince := none
  failed := none

/-- A time as `metav1.Time` is serialized. -/
def atSecond (t : Int) : Int := t / second * second

variable (cs : CanaryStatus)

/-- The record as a status write stores it. -/
def CanaryStatus.stored : CanaryStatus :=
  { cs with
    stepEnteredTime := cs.stepEnteredTime.map atSecond
    lastEvaluationTime := cs.lastEvaluationTime.map atSecond
    lastConclusiveEvaluationTime := cs.lastConclusiveEvaluationTime.map atSecond
    capacityWaitSince := cs.capacityWaitSince.map atSecond
    failed := cs.failed.map fun failure => { failure with time := atSecond failure.time } }

theorem atSecond_le (t : Int) : atSecond t ≤ t := by
  unfold atSecond second
  omega

theorem atSecond_le_atSecond {t u : Int} (before : atSecond t ≤ u) : atSecond t ≤ atSecond u := by
  unfold atSecond second at *
  omega

inductive CanaryState where
  | idle
  | staging
  | serving
  | preHold
  | draining
  | done
  | rollingBack
  | rolledBack
  | failed
  deriving DecidableEq

def parkedWithoutStable : Bool :=
  cs.failed.any (·.reason = .stableRevisionMissing)

def stateOfRecord (phase : RolloutPhase) (stepCount : Nat) : CanaryState :=
  if parkedWithoutStable cs then .failed
  else if cs.rolledBackRevisionHash ≠ "" then
    if phase = .rolledBack then .rolledBack else .rollingBack
  else if cs.failed.isSome ∨ phase = .failed then .failed
  else if 0 < stepCount ∧ (stepCount : Int) ≤ cs.currentStep then .done
  else if cs.preStepHold then .preHold
  else
    match phase with
    | .paused =>
      -- a final gate held at full traffic is the drain waiting, not a split
      if 0 < stepCount ∧ cs.currentStep = (stepCount : Int) - 1 ∧
          cs.observedTrafficWeight = 100 then .draining
      else .serving
    | .canarying => .serving
    | .promoting => .draining
    | _ => .staging

def stateOf (cs : Option CanaryStatus) (phase : RolloutPhase) (stepCount : Nat) : CanaryState :=
  match cs with
  | none => .idle
  | some cs => stateOfRecord cs phase stepCount

def CanaryState.terminal (s : CanaryState) : Bool := s = .failed ∨ s = .rolledBack

/-- The step a record is read at; a negative index is an outside write. -/
def stepOf (phase : RolloutPhase) (steps : List RolloutGroupStep) : Int :=
  if 0 ≤ cs.currentStep then cs.currentStep
  else if phase = .stable then steps.length
  else steps.zipIdx.foldl (fun step entry =>
    if entry.1.traffic ≤ cs.observedTrafficWeight then (entry.2 : Int) else step) 0

/-! ## Capacity -/

/-- A budget as a count; a percentage is rounded up and capped at the total. -/
def scaledCountFromIntOrString (v : Capacity) (total : Int) : Int :=
  match v with
  | .count n => if n < 0 then 0 else n
  | .percent n =>
    let scaled := -(-(n * total) / 100)
    if scaled < 0 then 0
    else if 0 ≤ total ∧ total < scaled then total
    else scaled
  | .malformed => 0

def clampInt32 (v lo hi : Int) : Int := min (max v lo) hi

variable (step : RolloutGroupStep)

def resolveStepNewCount (desired : Int) : Int :=
  clampInt32 (scaledCountFromIntOrString step.capacity desired) 0 desired

def partitionForNewCount (desired newCount : Int) : Int :=
  if desired - newCount < 0 then 0 else desired - newCount

/-- The Instances a step keeps on the stable revision at least. -/
def heldFloor (desired : Int) : Int := if 1 < desired then 1 else 0

def stepPartition (desired : Int) : Int :=
  let p := partitionForNewCount desired (resolveStepNewCount step desired)
  if p < heldFloor desired then heldFloor desired else p

/-- The count a step's capacity gate waits for. -/
def stepStagedCount (desired : Int) : Int :=
  desired - stepPartition step desired

/-- The partition of a member of the unit with so many desired Instances. -/
def effectivePartition (plan : GroupCanary) (cs : Option CanaryStatus) (phase : RolloutPhase)
    (desired : Int) : Option Int :=
  if plan.steps = [] then none
  else if stateOf cs phase plan.steps.length = .failed then some desired
  else if cs.any (·.rolledBackRevisionHash ≠ "") then some 0
  else
    let idx := match cs with
      | none => 0
      | some cs => stepOf cs phase plan.steps
    match plan.steps[idx.toNat]? with
    -- past the last step nothing is held
    | none => some 0
    | some step => some (stepPartition step desired)

theorem one_le_stepPartition {desired : Int} (many : 1 < desired) :
    1 ≤ stepPartition step desired := by
  unfold stepPartition heldFloor
  rw [if_pos many]
  simp only
  split <;> omega

/-- **A record that is neither rejected nor past its last step holds an Instance** of every
member with more than one. -/
theorem one_le_effectivePartition {plan : GroupCanary} {cs : Option CanaryStatus}
    {phase : RolloutPhase} (steps : plan.steps ≠ [])
    (inside : ∀ c, cs = some c → 0 ≤ c.currentStep ∧ c.currentStep < plan.steps.length)
    (accepted : ∀ c, cs = some c → c.rolledBackRevisionHash = "") {desired : Int}
    (many : 1 < desired) : ∃ p, effectivePartition plan cs phase desired = some p ∧ 1 ≤ p := by
  unfold effectivePartition
  rw [if_neg steps]
  split
  · exact ⟨desired, rfl, by omega⟩
  · have notRejected : ¬ (cs.any (·.rolledBackRevisionHash ≠ "")) = true := by
      cases cs with
      | none => simp
      | some c => simp [accepted c rfl]
    rw [if_neg notRejected]
    have length : 0 < plan.steps.length := List.length_pos_iff.mpr steps
    cases cs with
    | none =>
      obtain ⟨step, here⟩ : ∃ step, plan.steps[0]? = some step :=
        ⟨_, List.getElem?_eq_getElem length⟩
      refine ⟨stepPartition step desired, ?_, one_le_stepPartition step many⟩
      simp [here]
    | some c =>
      obtain ⟨nonneg, below⟩ := inside c rfl
      have bound : c.currentStep.toNat < plan.steps.length := by omega
      refine ⟨stepPartition plan.steps[c.currentStep.toNat] desired, ?_,
        one_le_stepPartition _ many⟩
      simp [stepOf, nonneg, bound]

end Ome.Canary
