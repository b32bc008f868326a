/-
# Ome.Canary.Course — a canary nobody disturbs completes

Each pass of an unattended unit holds a gate once, enters the next step, or finishes
(`Course.pass`), so the number of passes is bounded by the number of steps:
`unattended_canary_completes`.
-/
import Ome.Canary.Unattended

namespace Ome.Canary

open Ome.Theory List

set_option autoImplicit false

/-! ## One pass -/

/-- Where an unattended unit is. -/
inductive Course (plan : GroupCanary) (primary : Member) (targetID : String) (w : World) : Prop
  | idle (alive : w.phase ≠ .failed) (none : w.record = none)
  | climbing (c : CanaryStatus) (entered : Int) (alive : w.phase ≠ .failed)
      (isRecord : w.record = some c) (rides : Rides primary targetID c)
      (stable : c.stableRevisionHash = primary.stable) (nonneg : 0 ≤ c.currentStep)
      (below : c.currentStep < plan.steps.length) (isEntered : c.stepEnteredTime = some entered)
      (past : entered ≤ w.clock)
  | releasing (c : CanaryStatus) (draining : w.phase = .promoting) (isRecord : w.record = some c)
      (rides : Rides primary targetID c) (stable : c.stableRevisionHash = primary.stable)
      (done : c.currentStep = plan.steps.length)
  | finished (c : CanaryStatus) (reads : w.phase = .stable) (isRecord : w.record = some c)
      (rides : Rides primary targetID c) (stable : c.stableRevisionHash = "")
      (done : c.currentStep = plan.steps.length)

/-- The unit has cut over. -/
def Finished (plan : GroupCanary) (w : World) : Prop :=
  w.phase = .stable ∧ recordedStep w.record = plan.steps.length

/-- How many passes a record has left at most. -/
def leftAt (plan : GroupCanary) (c : CanaryStatus) (phase : RolloutPhase) : Nat :=
  if (plan.steps.length : Int) ≤ c.currentStep then if phase = .stable then 0 else 1
  else if c.currentStep + 1 = plan.steps.length then if c.observedTrafficWeight = 100 then 2 else 3
  else 2 * (plan.steps.length - c.currentStep.toNat) +
    if phase = .canarying ∨ phase = .paused then 0 else 1

def passesLeft (plan : GroupCanary) (w : World) : Nat :=
  match w.record with
  | none => 2 * plan.steps.length + 1
  | some c => leftAt plan c w.phase

section Pass

variable {plan : GroupCanary} {primary : Member} {secondaries : List Member} {targetID : String}
  {w : World} {inp : ReconcileInputs}
variable {c : CanaryStatus} {ended : Ended} {step : RolloutGroupStep} {entered : Int}

theorem recordedStep_some (isRecord : w.record = some c) :
    recordedStep w.record = c.currentStep := by
  rw [isRecord]
  rfl

theorem passesLeft_some (isRecord : w.record = some c) :
    passesLeft plan w = leftAt plan c w.phase := by
  rw [passesLeft, isRecord]

theorem Sails.of_record (alive : w.phase ≠ .failed) (isRecord : w.record = some c)
    (rides : Rides primary targetID c) (nonneg : 0 ≤ c.currentStep) : Sails primary targetID w := by
  refine ⟨alive, fun c' isRecord' => ?_, ?_⟩
  · cases isRecord.symm.trans isRecord'
    exact rides
  · rw [isRecord]
    exact nonneg

theorem Course.sails (course : Course plan primary targetID w) : Sails primary targetID w := by
  cases course with
  | idle alive none => exact ⟨alive, by simp [none], by simp [none, recordedStep]⟩
  | climbing c _ alive isRecord rides _ nonneg => exact .of_record alive isRecord rides nonneg
  | releasing c draining isRecord rides _ done =>
    exact .of_record (by simp [draining]) isRecord rides (by omega)
  | finished c reads isRecord rides _ done =>
    exact .of_record (by simp [reads]) isRecord rides (by omega)

/-- What one pass brings: the course goes on, nothing is lowered, fewer passes are left, and
completion is reported by the pass that finishes. -/
structure Sailed (plan : GroupCanary) (primary : Member) (targetID : String) (w : World)
    (inp : ReconcileInputs) (ended : Ended) : Prop where
  passes : dispatch plan inp w.pass = some ended
  course : Course plan primary targetID (w.land plan inp ended)
  rises : recordedStep w.record ≤ recordedStep ended.pass.record
  fewer : ¬ Finished plan w → passesLeft plan (w.land plan inp ended) < passesLeft plan w
  edge : ended.result.complete = true ↔
    ¬ Finished plan w ∧ Finished plan (w.land plan inp ended)
  stays : Finished plan w → Finished plan (w.land plan inp ended)

theorem dispatch_eq {p : Pass (Option CanaryStatus)} (steps : plan.steps ≠ [])
    (ends : Stage.finish (reconcileStages plan inp p) = some ended)
    (forward : ended.result.rolledBack = false) : dispatch plan inp p = some ended := by
  unfold dispatch reconcile
  rw [if_neg steps, ends, Option.map_some]
  unfold parkMissingStable
  split
  · rfl
  · rw [forward]
    simp

/-- A pause that began by the pass before is over. -/
theorem Unattended.shouldAdvanceAuto_eq (quiet : Unattended plan primary secondaries targetID w inp)
    (isStep : step ∈ plan.steps) (isEntered : c.stepEnteredTime = some entered)
    (past : entered ≤ w.clock) : shouldAdvanceAuto c step inp.canaryRestartedAt inp.now = true := by
  unfold shouldAdvanceAuto
  cases isPause : step.pause.bind (·.duration) with
  | none => rfl
  | some d =>
    have waited := quiet.pauses step isStep d isPause
    have latest : laterOf entered inp.canaryRestartedAt ≤ w.clock := by
      cases isRestart : inp.canaryRestartedAt with
      | none => exact past
      | some t => exact max_le past (quiet.restarted t isRestart)
    have elapsed : ¬ inp.now < laterOf entered inp.canaryRestartedAt + d := by omega
    simp [isEntered, elapsed]

theorem Unattended.drainElapsed_eq (quiet : Unattended plan primary secondaries targetID w inp)
    (isEntered : c.stepEnteredTime = some entered)
    (past : entered ≤ w.clock) : drainElapsed c plan inp.now = true := by
  unfold drainElapsed
  cases isDelay : plan.scaleDownDelaySeconds with
  | none => rfl
  | some s =>
    have waited := quiet.drains s isDelay
    have elapsed : ¬ inp.now < entered + s * second := by omega
    simp [isEntered, elapsed]

/-- The step machine of an undisturbed unit: the traffic of the step, then its gate. -/
theorem stepMachine_eq {p : Armed} (none : Unpromised p)
    (rides : Rides primary targetID p.record) (known : p.record.stableRevisionHash ≠ "")
    (noCrash : inp.crash = false) (isStep : plan.steps[p.record.currentStep.toNat]? = some step)
    (enough : capacityShort inp step = false) :
    stepMachine plan inp p =
      if p.record.currentStep = (plan.steps.length : Int) - 1 then
        finalStep plan inp step p.record.observedTrafficWeight
          (applyGroupTraffic inp step.traffic p.served)
      else intermediateStep plan inp step (applyGroupTraffic inp step.traffic p.served) := by
  have unfilled : backfillStable inp p = p := if_neg fun blank => known blank.1
  have synced : syncPromotedThrough p = p := if_pos rides.promoted
  unfold stepMachine
  simp only [unfilled, noCrash, Bool.false_eq_true, if_false, synced, isStep,
    capacityGate_eq none enough]
  have unheld : p.served.record.preStepHold = false := rides.unheld
  show (preStepGate inp step p.served >>= _) = _
  rw [preStepGate_eq step unheld]
  rfl

/-- The record with another clock. -/
def CanaryStatus.restamp (c : CanaryStatus) (t : Int) : CanaryStatus :=
  { c with stepEnteredTime := some t }

/-- The record of a step that is entered. -/
def CanaryStatus.enter (c : CanaryStatus) (now : Int) : CanaryStatus :=
  { c with
    currentStep := c.currentStep + 1
    stepEnteredTime := some now
    capacityWaitSince := none
    analysisFailedChecks := 0
    lastEvaluationTime := none
    lastConclusiveEvaluationTime := none }

/-- The record is stamped now under a condition; without it, it keeps its clock. -/
theorem restamped {q : Armed} (isEntered : q.record.stepEnteredTime = some entered)
    (begun : entered ≤ inp.now) (fresh : Prop) [Decidable fresh] :
    ∃ t ≤ inp.now, (¬ fresh → q.record.restamp t = q.record) ∧
      (if fresh then { q with record.stepEnteredTime := some inp.now } else q : Armed) =
        { q with record := q.record.restamp t } := by
  by_cases now : fresh
  · exact ⟨inp.now, le_refl _, fun again => absurd now again, if_pos now⟩
  · have same : q.record.restamp entered = q.record := by
      unfold CanaryStatus.restamp
      rw [← isEntered]
    exact ⟨entered, begun, fun _ => same, by rw [if_neg now, same]⟩

/-- A step before the last holds at its gate, from a phase that was not serving, or the next
one is entered. -/
theorem intermediateStep_timed {q : Armed} (none : Unpromised q)
    (plain : step.analysis = Option.none)
    (timed : ∀ pause, step.pause = some pause → pause.duration ≠ Option.none)
    (isEntered : q.record.stepEnteredTime = some entered) (begun : entered ≤ inp.now) :
    ∃ ended, Stage.finish (intermediateStep plan inp step q) = some ended ∧
      ended.result.rolledBack = false ∧ ended.result.complete = false ∧
      ((ended.pass.phase = .pending ∧ ended.pass.record = some (q.record.enter inp.now)) ∨
        (ended.pass.phase = .paused ∧
          (∃ t ≤ inp.now, ended.pass.record = some (q.record.restamp t)) ∧
          (q.phase = .canarying ∨ q.phase = .paused →
            shouldAdvanceAuto q.record step inp.canaryRestartedAt inp.now = false))) := by
  obtain ⟨t, within, same, enters⟩ := restamped isEntered begun
    (q.phase ≠ .canarying ∧ q.phase ≠ .paused)
  unfold intermediateStep
  simp only [enters]
  have none' : Unpromised (Pass.setPhase { q with record := q.record.restamp t } .canarying) := none
  rw [stepGate_timed none' plain timed]
  split
  · have same := recordPromotes_eq none'
    refine ⟨_, rfl, rfl, rfl, Or.inl ⟨rfl, ?_⟩⟩
    show some (advanceStep inp _).record = _
    unfold advanceStep
    rw [same]
    rfl
  · rename_i waits
    refine ⟨_, rfl, rfl, rfl, Or.inr ⟨rfl, ⟨t, within, rfl⟩, fun inside => ?_⟩⟩
    rw [← same fun outside => inside.elim outside.1 outside.2]
    exact Bool.not_eq_true _ ▸ waits

/-- The end of the cutover: it goes on, or completes and forgets the stable revision. -/
theorem finishCutover_eq {p : Armed} (draining : p.phase = .promoting)
    (known : p.record.stableRevisionHash ≠ "") :
    finishCutover inp p =
      if cutoverComplete inp = false then (.holding 0, p)
      else (⟨true, true, false, false, 0⟩,
        Pass.setPhase { p with record.stableRevisionHash := "" } .stable) := by
  have same : p.setPhase .promoting = p := by
    rw [← draining]
    rfl
  unfold finishCutover
  simp only [draining, reduceCtorEq, if_false, if_neg known, same]

theorem finishCutover_rests {p : Armed} (reads : p.phase = .stable)
    (forgotten : p.record.stableRevisionHash = "") : finishCutover inp p = (.inactive, p) := by
  have same : ({ p with record.stableRevisionHash := "" } : Armed) = p := by
    rw [← forgotten]
  unfold finishCutover
  simp only [if_pos reads, same, if_pos forgotten]
  rw [← reads]
  rfl

/-- The record at the done sentinel. -/
def CanaryStatus.finish (c : CanaryStatus) (steps : Int) (stable : String) : CanaryStatus :=
  { c with
    currentStep := steps
    observedTrafficWeight := 100
    stableRevisionHash := stable }

/-- The last step shifts the traffic or holds, when the weight was not 100 or a clock still
runs, or the last stable Instance is released. -/
theorem finalStep_timed {q : Armed} {weight : Int} (none : Unpromised q)
    (plain : step.analysis = Option.none)
    (timed : ∀ pause, step.pause = some pause → pause.duration ≠ Option.none)
    (isEntered : q.record.stepEnteredTime = some entered) (begun : entered ≤ inp.now)
    (enough : capacityShort inp step = false) (known : q.record.stableRevisionHash ≠ "") :
    ∃ ended, Stage.finish (finalStep plan inp step weight q) = some ended ∧
      ended.result.rolledBack = false ∧
      ((ended.result.complete = false ∧ (ended.pass.phase = .paused ∨
          ended.pass.phase = .promoting) ∧
          (∃ t ≤ inp.now, ended.pass.record = some (q.record.restamp t)) ∧
          (weight = 100 → shouldAdvanceAuto q.record step inp.canaryRestartedAt inp.now = true →
            drainElapsed q.record plan inp.now = false)) ∨
        (ended.result.complete = false ∧ ended.pass.phase = .promoting ∧ ∃ t,
          ended.pass.record = some ((q.record.restamp t).finish
            plan.steps.length q.record.stableRevisionHash)) ∨
        (ended.result.complete = true ∧ ended.pass.phase = .stable ∧ ∃ t,
          ended.pass.record = some ((q.record.restamp t).finish
            plan.steps.length ""))) := by
  obtain ⟨t, within, same, enters⟩ := restamped isEntered begun (weight ≠ 100)
  unfold finalStep
  simp only [enters]
  have none' : Unpromised (Pass.setPhase { q with record := q.record.restamp t } .promoting) := none
  rw [stepGate_timed none' plain timed]
  split
  · show ∃ ended, Stage.finish (if weight ≠ 100 ∨ capacityShort inp step = true ∨
      drainElapsed (q.record.restamp t) plan inp.now = false then _
      else _) = some ended ∧ _
    -- through the gate, the step still waits for the traffic, the capacity and the drain
    by_cases waits : weight ≠ 100 ∨ capacityShort inp step = true ∨
        drainElapsed (q.record.restamp t) plan inp.now = false
    · rw [if_pos waits]
      refine ⟨_, rfl, rfl, Or.inl ⟨rfl, Or.inr rfl, ⟨t, within, rfl⟩, fun full _ => ?_⟩⟩
      rcases waits with short | short | running
      · exact absurd full short
      · rw [enough] at short
        cases short
      · rwa [same (not_not.mpr full)] at running
    · rw [if_neg waits, recordPromotes_eq none', finishCutover_eq]
      · by_cases incomplete : cutoverComplete inp = false
        · rw [if_pos incomplete]
          exact ⟨_, rfl, rfl, Or.inr (Or.inl ⟨rfl, rfl, t, rfl⟩)⟩
        · rw [if_neg incomplete]
          exact ⟨_, rfl, rfl, Or.inr (Or.inr ⟨rfl, rfl, t, rfl⟩)⟩
      · rfl
      · exact known
  · rename_i holds
    refine ⟨_, rfl, rfl, Or.inl ⟨rfl, Or.inl rfl, ⟨t, within, rfl⟩, fun full passes => ?_⟩⟩
    rw [← same (not_not.mpr full)] at passes
    exact absurd passes holds

/-- What a pass that climbs brings, from the record it works from. -/
structure Climbed (plan : GroupCanary) (primary : Member) (targetID : String) (w : World)
    (inp : ReconcileInputs) (c : CanaryStatus) (entered : Int) (ended : Ended) : Prop where
  passes : dispatch plan inp w.pass = some ended
  course : Course plan primary targetID (w.land plan inp ended)
  rises : c.currentStep ≤ recordedStep ended.pass.record
  edge : ended.result.complete = true ↔ Finished plan (w.land plan inp ended)
  within : passesLeft plan (w.land plan inp ended) ≤
    2 * (plan.steps.length - c.currentStep.toNat)
  fewer : entered ≤ w.clock → passesLeft plan (w.land plan inp ended) < leftAt plan c w.phase

theorem leftAt_le (plan : GroupCanary) (c : CanaryStatus) (phase : RolloutPhase)
    (steps : 0 < plan.steps.length) : leftAt plan c phase ≤ 2 * plan.steps.length + 1 := by
  unfold leftAt
  split
  · split <;> omega
  · split
    · split <;> omega
    · split <;> omega

/-- Entering the next step leaves fewer passes than the step had in any phase. -/
theorem leftAt_enter (plan : GroupCanary) (c : CanaryStatus) (now : Int) (phase : RolloutPhase)
    (nonneg : 0 ≤ c.currentStep) (early : c.currentStep + 1 < plan.steps.length) :
    leftAt plan (c.enter now) phase < 2 * (plan.steps.length - c.currentStep.toNat) := by
  unfold leftAt
  have step : (c.enter now).currentStep = c.currentStep + 1 := rfl
  rw [step, if_neg (by omega)]
  split
  · split <;> omega
  · split <;> omega

theorem leftAt_held {c' : CanaryStatus} (step : c'.currentStep = c.currentStep)
    (early : c.currentStep + 1 < plan.steps.length) :
    leftAt plan c' .paused = 2 * (plan.steps.length - c.currentStep.toNat) := by
  unfold leftAt
  rw [step, if_neg (by omega), if_neg (by omega)]
  rfl

theorem leftAt_full {c' : CanaryStatus} (step : c'.currentStep = c.currentStep)
    (last : c.currentStep + 1 = plan.steps.length) (full : c'.observedTrafficWeight = 100)
    (phase : RolloutPhase) : leftAt plan c' phase = 2 := by
  unfold leftAt
  rw [step, if_neg (by omega), if_pos last, if_pos full]

theorem Climbed.short {c' : CanaryStatus} {t : Int}
    (passes : dispatch plan inp w.pass = some ended) (incomplete : ended.result.complete = false)
    (isLeft : ended.pass.record = some c') (alive : ended.pass.phase ≠ .failed)
    (rides : Rides primary targetID c') (stable : c'.stableRevisionHash = primary.stable)
    (nonneg : 0 ≤ c.currentStep) (rises : c.currentStep ≤ c'.currentStep)
    (below : c'.currentStep < plan.steps.length) (isEntered : c'.stepEnteredTime = some t)
    (past : t ≤ inp.now)
    (within : leftAt plan c' ended.pass.phase ≤ 2 * (plan.steps.length - c.currentStep.toNat))
    (fewer : entered ≤ w.clock → leftAt plan c' ended.pass.phase < leftAt plan c w.phase) :
    Climbed plan primary targetID w inp c entered ended := by
  have isRecord : (w.land plan inp ended).record = some c'.stored :=
    congrArg (Option.map CanaryStatus.stored) isLeft
  have left : passesLeft plan (w.land plan inp ended) = leftAt plan c' ended.pass.phase :=
    (passesLeft_some isRecord :)
  have step : recordedStep ended.pass.record = c'.currentStep := by
    rw [isLeft]
    rfl
  refine ⟨passes, .climbing _ _ alive isRecord rides.stored stable (nonneg.trans rises) below
    (congrArg (Option.map atSecond) isEntered) ((atSecond_le t).trans past), by omega, ?_,
    by omega, fun clock => by rw [left]; exact fewer clock⟩
  rw [incomplete]
  refine ⟨Bool.noConfusion, fun finished => ?_⟩
  have atEnd := (recordedStep_land plan w inp ended).symm.trans finished.2
  omega

theorem Climbed.done {c' : CanaryStatus}
    (passes : dispatch plan inp w.pass = some ended) (isLeft : ended.pass.record = some c')
    (rides : Rides primary targetID c') (nonneg : 0 ≤ c.currentStep)
    (last : c.currentStep + 1 = plan.steps.length)
    (done : c'.currentStep = plan.steps.length)
    (outcome : ended.result.complete = false ∧ ended.pass.phase = .promoting ∧
        c'.stableRevisionHash = primary.stable ∨
      ended.result.complete = true ∧ ended.pass.phase = .stable ∧ c'.stableRevisionHash = "") :
    Climbed plan primary targetID w inp c entered ended := by
  have isRecord : (w.land plan inp ended).record = some c'.stored :=
    congrArg (Option.map CanaryStatus.stored) isLeft
  have left : passesLeft plan (w.land plan inp ended) ≤ 1 := by
    rw [passesLeft_some isRecord, leftAt,
      if_pos (show (plan.steps.length : Int) ≤ c'.stored.currentStep from done.ge)]
    split <;> omega
  have before : 2 ≤ leftAt plan c w.phase := by
    unfold leftAt
    rw [if_neg (by omega), if_pos last]
    split <;> omega
  have step : recordedStep ended.pass.record = plan.steps.length := by
    rw [isLeft]
    exact done
  rcases outcome with ⟨incomplete, phase, stable⟩ | ⟨complete, phase, stable⟩
  · refine ⟨passes, .releasing _ phase isRecord rides.stored stable done, by omega, ?_, by omega,
      fun _ => by omega⟩
    rw [incomplete]
    refine ⟨Bool.noConfusion, fun finished => ?_⟩
    have reads : ended.pass.phase = .stable := finished.1
    rw [phase] at reads
    cases reads
  · refine ⟨passes, .finished _ phase isRecord rides.stored stable done, by omega, ?_, by omega,
      fun _ => by omega⟩
    rw [complete]
    exact ⟨fun _ => ⟨phase, (recordedStep_land plan w inp ended).trans step⟩, fun _ => rfl⟩

section Climb

variable (quiet : Unattended plan primary secondaries targetID w inp) (accepted : Accepted plan)
  (rides : Rides primary targetID c) (stable : c.stableRevisionHash = primary.stable)
  (nonneg : 0 ≤ c.currentStep) (isStep : plan.steps[c.currentStep.toNat]? = some step)
  (plain : step.analysis = none)
  (timed : ∀ pause, step.pause = some pause → pause.duration ≠ none)
  (isEntered : c.stepEnteredTime = some entered) (begun : entered ≤ inp.now)

include quiet accepted rides stable nonneg isStep plain timed isEntered begun

theorem climbs_early (early : c.currentStep + 1 < plan.steps.length)
    (stages : reconcileStages plan inp w.pass = intermediateStep plan inp step
      (applyGroupTraffic inp step.traffic (w.pass.withRecord c).served)) :
    ∃ ended, Climbed plan primary targetID w inp c entered ended := by
  have none : Unpromised (applyGroupTraffic inp step.traffic (w.pass.withRecord c).served) :=
    quiet.verbs
  obtain ⟨ended, ends, forward, incomplete, outcome⟩ : ∃ ended, Stage.finish
      (reconcileStages plan inp w.pass) = some ended ∧ _ :=
    stages ▸ intermediateStep_timed none plain timed isEntered begun
  have passes := dispatch_eq accepted.steps ends forward
  have before : 2 * (plan.steps.length - c.currentStep.toNat) ≤ leftAt plan c w.phase ∧
      (¬ (w.phase = .canarying ∨ w.phase = .paused) →
        2 * (plan.steps.length - c.currentStep.toNat) < leftAt plan c w.phase) := by
    unfold leftAt
    rw [if_neg (by omega), if_neg (by omega)]
    refine ⟨by omega, fun outside => ?_⟩
    rw [if_neg outside]
    omega
  rcases outcome with ⟨phase, isLeft⟩ | ⟨phase, ⟨t, within, isLeft⟩, waits⟩
  · have left : leftAt plan _ ended.pass.phase < 2 * (plan.steps.length - c.currentStep.toNat) :=
      leftAt_enter plan (applyGroupTraffic inp step.traffic (w.pass.withRecord c).served).record
        inp.now ended.pass.phase nonneg early
    exact ⟨ended, .short passes incomplete isLeft (by simp [phase])
      { rides with } stable nonneg
      (show c.currentStep ≤ c.currentStep + 1 by omega) early rfl (le_refl _) left.le
      fun _ => lt_of_lt_of_le left before.1⟩
  · have left : leftAt plan
        ((applyGroupTraffic inp step.traffic (w.pass.withRecord c).served).record.restamp t)
        ended.pass.phase = 2 * (plan.steps.length - c.currentStep.toNat) := by
      rw [phase]
      exact leftAt_held rfl early
    refine ⟨ended, .short passes incomplete isLeft (by simp [phase])
      { rides with } stable nonneg (le_refl c.currentStep)
      (show c.currentStep < plan.steps.length by omega) rfl within left.le fun clock => ?_⟩
    rw [left]
    refine before.2 fun serving => ?_
    cases (quiet.shouldAdvanceAuto_eq (mem_of_getElem? isStep) isEntered clock).symm.trans
      (waits serving)

/-- The last step waits, or the traffic is through and the cutover starts or ends. -/
theorem climbs_last (known : c.stableRevisionHash ≠ "") (enough : capacityShort inp step = false)
    (last : c.currentStep + 1 = plan.steps.length)
    (stages : reconcileStages plan inp w.pass = finalStep plan inp step c.observedTrafficWeight
      (applyGroupTraffic inp step.traffic (w.pass.withRecord c).served)) :
    ∃ ended, Climbed plan primary targetID w inp c entered ended := by
  have full : step.traffic = 100 := by
    refine accepted.final step ?_
    rw [getLast?_eq_getElem?, ← isStep]
    congr 1
    omega
  have none : Unpromised (applyGroupTraffic inp step.traffic (w.pass.withRecord c).served) :=
    quiet.verbs
  obtain ⟨ended, ends, forward, outcome⟩ : ∃ ended, Stage.finish
      (reconcileStages plan inp w.pass) = some ended ∧ _ :=
    stages ▸ finalStep_timed none plain timed isEntered begun enough known
  have passes := dispatch_eq accepted.steps ends forward
  rcases outcome with ⟨incomplete, phase, ⟨t, within, isLeft⟩, waits⟩ |
    ⟨incomplete, phase, t, isLeft⟩ | ⟨complete, phase, t, isLeft⟩
  -- the last step waits
  · have left : leftAt plan
        ((applyGroupTraffic inp step.traffic (w.pass.withRecord c).served).record.restamp t)
        ended.pass.phase = 2 := by
      refine leftAt_full ?_ last full _
      rfl
    have alive : ended.pass.phase ≠ .failed := by
      rcases phase with paused | promoting
      · simp [paused]
      · simp [promoting]
    refine ⟨ended, .short passes incomplete isLeft alive
      { rides with } stable nonneg (le_refl c.currentStep)
      (show c.currentStep < plan.steps.length by omega) rfl within ?_ fun clock => ?_⟩
    · rw [left]
      omega
    · rw [left]
      unfold leftAt
      rw [if_neg (by omega), if_pos last]
      split
      · rename_i wasFull
        -- a clock that has run out waits for nothing
        have drained := waits wasFull
          (quiet.shouldAdvanceAuto_eq (mem_of_getElem? isStep) isEntered clock)
        cases (quiet.drainElapsed_eq isEntered clock).symm.trans drained
      · omega
  · exact ⟨ended, .done passes isLeft { rides with } nonneg last rfl
      (Or.inl ⟨incomplete, phase, stable⟩)⟩
  · exact ⟨ended, .done passes isLeft { rides with } nonneg last rfl
      (Or.inr ⟨complete, phase, rfl⟩)⟩

omit plain timed in
theorem climbs (timed : Timed plan) (valid : primary.Valid)
    (enough : capacityShort inp step = false) (below : c.currentStep < plan.steps.length)
    (stages : reconcileStages plan inp w.pass = stepMachine plan inp (w.pass.withRecord c)) :
    ∃ ended, Climbed plan primary targetID w inp c entered ended := by
  obtain ⟨plain, pauses⟩ := timed step (mem_of_getElem? isStep)
  have known : c.stableRevisionHash ≠ "" := stable ▸ valid.stable
  have none : Unpromised (w.pass.withRecord c) := quiet.verbs
  rw [stepMachine_eq none rides known quiet.noCrash isStep enough] at stages
  by_cases last : c.currentStep = (plan.steps.length : Int) - 1
  · exact climbs_last quiet accepted rides stable nonneg isStep plain pauses isEntered begun known
      enough (by omega) (stages.trans (if_pos last))
  · exact climbs_early quiet accepted rides stable nonneg isStep plain pauses isEntered begun
      (by omega) (stages.trans (if_neg last))

end Climb

theorem Climbed.sailed (climbed : Climbed plan primary targetID w inp c entered ended)
    (step : recordedStep w.record = c.currentStep) (below : c.currentStep < plan.steps.length)
    (fewer : passesLeft plan (w.land plan inp ended) < passesLeft plan w) :
    Sailed plan primary targetID w inp ended := by
  have unfinished : ¬ Finished plan w := by
    intro finished
    have atEnd := finished.2
    omega
  have rises := climbed.rises
  exact ⟨climbed.passes, climbed.course, by omega, fun _ => fewer,
    climbed.edge.trans ⟨fun finished => ⟨unfinished, finished⟩, fun both => both.2⟩,
    fun finished => absurd finished unfinished⟩

theorem stepAt_eq {n : Int} (step : recordedStep w.record = n) :
    stepAt plan w = plan.steps[n.toNat]? := by
  rw [stepAt, step]

/-- **The step lemma of the pass.** -/
theorem Course.pass (course : Course plan primary targetID w)
    (quiet : Unattended plan primary secondaries targetID w inp) (accepted : Accepted plan)
    (timed : Timed plan) (valid : primary.Valid) (others : ∀ m ∈ secondaries, m.Valid)
    (named : targetID ≠ "") : ∃ ended, Sailed plan primary targetID w inp ended := by
  have sails := course.sails
  have length : 0 < plan.steps.length := length_pos_iff.mpr accepted.steps
  cases course with
  | idle alive none =>
    -- no record yet: the pass writes one and works on the first step at once
    have step : recordedStep w.record = 0 := by
      rw [none]
      rfl
    obtain ⟨first, isFirst⟩ : ∃ first, plan.steps[0]? = some first :=
      ⟨_, getElem?_eq_getElem length⟩
    have enough := capacityShort_unattended quiet sails accepted.steps others
      ((stepAt_eq step).trans isFirst)
    have stages := quiet.stages_arm valid named none
    have rides : Rides primary targetID (.start targetID primary.target primary.stable inp.now) :=
      ⟨rfl, rfl, rfl, rfl, rfl, rfl, rfl⟩
    have below : (0 : Int) < plan.steps.length := by omega
    obtain ⟨ended, climbed⟩ := climbs quiet accepted rides rfl (le_refl 0) isFirst rfl (le_refl _)
      timed valid enough below stages
    have before : passesLeft plan w = 2 * plan.steps.length + 1 := by
      unfold passesLeft
      rw [none]
    have within : passesLeft plan (w.land plan inp ended) ≤ 2 * (plan.steps.length - 0) :=
      climbed.within
    exact ⟨ended, climbed.sailed step below (by omega)⟩
  | climbing c entered alive isRecord rides stable nonneg below isEntered past =>
    -- on a step: the pass holds it or goes on to the next one
    have step := recordedStep_some isRecord
    obtain ⟨s, isStep⟩ : ∃ s, plan.steps[c.currentStep.toNat]? = some s :=
      ⟨_, getElem?_eq_getElem (by omega)⟩
    have enough := capacityShort_unattended quiet sails accepted.steps others
      ((stepAt_eq step).trans isStep)
    have known : c.stableRevisionHash ≠ "" := stable ▸ valid.stable
    have apart : c.stableRevisionHash ≠ primary.target := stable ▸ valid.distinct
    have stages := quiet.stages_eq isRecord rides apart (fun _ => known) nonneg alive
    rw [if_neg (by omega)] at stages
    obtain ⟨ended, climbed⟩ := climbs quiet accepted rides stable nonneg isStep isEntered
      (past.trans quiet.later) timed valid enough below stages
    exact ⟨ended, climbed.sailed step below (passesLeft_some isRecord ▸ climbed.fewer past)⟩
  | releasing c draining isRecord rides stable done =>
    -- every step is done: the cutover is complete, and the stable revision is released
    have step := (recordedStep_some isRecord).trans done
    have past : stepAt plan w = none := by
      rw [stepAt_eq step, getElem?_eq_none_iff]
      omega
    have complete := cutoverComplete_unattended quiet sails accepted.steps past
    have known : c.stableRevisionHash ≠ "" := stable ▸ valid.stable
    have apart : c.stableRevisionHash ≠ primary.target := stable ▸ valid.distinct
    have stages := quiet.stages_eq isRecord rides apart (fun _ => known) (by omega) sails.alive
    have draining' : (w.pass.withRecord c).phase = .promoting := draining
    have known' : (w.pass.withRecord c).record.stableRevisionHash ≠ "" := known
    rw [if_pos (by omega), finishCutover_eq draining' known', complete, if_neg (by decide)]
      at stages
    have ends : Stage.finish (reconcileStages plan inp w.pass) = some
        ⟨⟨true, true, false, false, 0⟩,
          (Pass.setPhase { w.pass.withRecord c with record.stableRevisionHash := "" }
            .stable).whole⟩ := by
      rw [stages]
      rfl
    have unfinished : ¬ Finished plan w := by
      intro finished
      rw [finished.1] at draining
      cases draining
    have before : passesLeft plan w = 1 := by
      rw [passesLeft_some isRecord, leftAt, if_pos (by omega), draining]
      rfl
    refine ⟨_, dispatch_eq accepted.steps ends rfl, .finished
      { c.stored with stableRevisionHash := "" } rfl rfl { rides.stored with } rfl done,
      ?_, fun _ => ?_, ⟨fun _ => ⟨unfinished, rfl, done⟩, fun _ => rfl⟩,
      fun finished => absurd finished unfinished⟩
    · rw [step]
      exact done.ge
    · rw [before]
      show leftAt plan { c.stored with stableRevisionHash := "" } .stable < 1
      unfold leftAt
      rw [if_pos (show (plan.steps.length : Int) ≤ c.stored.currentStep from done.ge), if_pos rfl]
      omega
  | finished c reads isRecord rides stable done =>
    -- nothing is left to do, and nothing changes
    have step := (recordedStep_some isRecord).trans done
    have apart : c.stableRevisionHash ≠ primary.target := by
      rw [stable]
      exact fun same => valid.target same.symm
    have stages := quiet.stages_eq isRecord rides apart (fun below => by omega) (by omega)
      sails.alive
    have rests : finishCutover inp (w.pass.withRecord c) = (.inactive, w.pass.withRecord c) :=
      finishCutover_rests reads stable
    rw [if_pos (by omega), rests] at stages
    have finished : Finished plan w := ⟨reads, step⟩
    have ends : Stage.finish (reconcileStages plan inp w.pass) =
        some ⟨.inactive, (w.pass.withRecord c).whole⟩ := by
      rw [stages]
      rfl
    refine ⟨_, dispatch_eq accepted.steps ends rfl, .finished _ reads rfl rides.stored stable done,
      ?_, fun unfinished => absurd finished unfinished,
      ⟨Bool.noConfusion, fun both => absurd finished both.1⟩, fun _ => ⟨reads, done⟩⟩
    rw [step]
    exact done.ge

end Pass

/-! ## The run -/

/-- The unit has no record yet, or one that was just bound to the run. -/
def Unbegun (primary : Member) (targetID : String) (w : World) : Prop :=
  w.record = none ∧ w.phase ≠ .failed ∨
    w.phase = .pending ∧ ∃ t ≤ w.clock,
      w.record = some (.start targetID primary.target primary.stable t)

/-- The pass reports the completion. -/
def Completes (plan : GroupCanary) (inp : ReconcileInputs) (w : World) : Prop :=
  ∃ ended, dispatch plan inp w.pass = some ended ∧ ended.result.complete = true

theorem course_unbegun {plan : GroupCanary} {primary : Member} {targetID : String} {w : World}
    (steps : plan.steps ≠ []) (first : Unbegun primary targetID w) :
    Course plan primary targetID w ∧ passesLeft plan w ≤ 2 * plan.steps.length + 1 ∧
      ¬ Finished plan w := by
  have length : 0 < plan.steps.length := length_pos_iff.mpr steps
  rcases first with ⟨none, alive⟩ | ⟨pending, t, past, started⟩
  · refine ⟨.idle alive none, ?_, fun finished => ?_⟩
    · unfold passesLeft
      rw [none]
    · have atEnd := finished.2
      rw [none] at atEnd
      simp only [recordedStep] at atEnd
      omega
  · refine ⟨.climbing _ t (by simp [pending]) started ⟨rfl, rfl, rfl, rfl, rfl, rfl, rfl⟩ rfl
      (le_refl 0) (show (0 : Int) < plan.steps.length by omega) rfl past, ?_, fun finished => ?_⟩
    · rw [passesLeft_some started]
      exact leftAt_le plan _ _ length
    · have reads := finished.1
      rw [pending] at reads
      cases reads

/-- **An unattended canary completes**: within two passes for each step and one more it reads
Stable at the end of its plan and stays so, exactly one pass reports the completion, it never
parks, and no pass lowers the step. -/
theorem unattended_canary_completes {metrics : Nat → Bool} {plan : GroupCanary}
    (accepted : validateCanaryPlan metrics plan = .ok ()) (timed : Timed plan) {primary : Member}
    {secondaries : List Member} {targetID : String} (valid : primary.Valid)
    (others : ∀ m ∈ secondaries, m.Valid) (named : targetID ≠ "") {states : Nat → World}
    {inputs : Nat → ReconcileInputs} (first : Unbegun primary targetID (states 0))
    (follows : ∀ n, Unattended plan primary secondaries targetID (states n) (inputs n) ∧
      states (n + 1) = (states n).after plan (inputs n)) :
    (∃ n ≤ 2 * plan.steps.length + 1, ∀ m, n ≤ m → Finished plan (states m)) ∧
    (∃! n, Completes plan (inputs n) (states n)) ∧
    (∀ n, (states n).phase ≠ .failed ∧ ∀ c, (states n).record = some c → c.failed = none) ∧
    ∀ n, recordedStep (states n).record ≤ recordedStep (states (n + 1)).record := by
  have plan_ok := validateCanaryPlan_ok accepted
  obtain ⟨starts, within, unfinished⟩ := course_unbegun plan_ok.steps first
  have pass (n : Nat) (course : Course plan primary targetID (states n)) :
      ∃ ended, Sailed plan primary targetID (states n) (inputs n) ended ∧
        states (n + 1) = (states n).land plan (inputs n) ended := by
    obtain ⟨ended, sailed⟩ := course.pass (follows n).1 plan_ok timed valid others named
    refine ⟨ended, sailed, ?_⟩
    rw [(follows n).2]
    unfold World.after
    rw [sailed.passes]
  -- the run lemma: every state is on course
  have course (n : Nat) : Course plan primary targetID (states n) := by
    induction n with
    | zero => exact starts
    | succ n ih =>
      obtain ⟨ended, sailed, next⟩ := pass n ih
      rw [next]
      exact sailed.course
  -- the passes left fall until the plan is finished, which bounds the first such state
  obtain ⟨n, bounded, _, finished, earlier⟩ := Runs.finishes_of_measure
    (fun w => Course plan primary targetID w) (Finished plan) (passesLeft plan) _ states within
    starts fun k holds running => by
      obtain ⟨ended, sailed, next⟩ := pass k holds
      rw [next]
      exact ⟨sailed.course, sailed.fewer running⟩
  have stays (m : Nat) (after : n ≤ m) : Finished plan (states m) := by
    induction m, after using Nat.le_induction with
    | base => exact finished
    | succ m _ ih =>
      obtain ⟨ended, sailed, next⟩ := pass m (course m)
      rw [next]
      exact sailed.stays ih
  -- a pass reports the completion exactly on the edge to the finished states
  have edge (k : Nat) : Completes plan (inputs k) (states k) ↔
      ¬ Finished plan (states k) ∧ Finished plan (states (k + 1)) := by
    obtain ⟨ended, sailed, next⟩ := pass k (course k)
    rw [next, ← sailed.edge]
    constructor
    · rintro ⟨other, passes, complete⟩
      rw [sailed.passes] at passes
      cases passes
      exact complete
    · exact fun complete => ⟨ended, sailed.passes, complete⟩
  refine ⟨⟨n, bounded, stays⟩, ?_, fun k => ⟨(course k).sails.alive, fun c isRecord =>
    ((course k).sails.rides c isRecord).unfailed⟩, fun k => ?_⟩
  · obtain ⟨k, rfl⟩ : ∃ k, n = k + 1 := by
      cases n with
      | zero => exact absurd finished unfinished
      | succ k => exact ⟨k, rfl⟩
    refine ⟨k, (edge k).mpr ⟨(earlier k (Nat.lt_succ_self k)).2, finished⟩, fun j completes => ?_⟩
    obtain ⟨before, after⟩ := (edge j).mp completes
    by_contra apart
    rcases Nat.lt_or_gt_of_ne apart with sooner | later
    · exact (earlier (j + 1) (Nat.succ_lt_succ sooner)).2 after
    · exact before (stays j later)
  · obtain ⟨ended, sailed, next⟩ := pass k (course k)
    rw [next, recordedStep_land]
    exact sailed.rises

/-! Two members with two Instances each, under a plan of two steps. -/

def halfwayPlan : GroupCanary where
  steps := [⟨.percent 50, 50, none, none⟩, ⟨.percent 100, 100, none, none⟩]
  scaleDownDelaySeconds := some 30
  readyTimeout := none

def firstMember : Member := ⟨"c", "s", 2⟩

def otherMember : Member := ⟨"d", "r", 2⟩

/-- What the pass after a state observes, half a minute later. -/
def duoInputs (w : World) : ReconcileInputs :=
  let ready := 2 - (effectivePartition halfwayPlan w.record w.phase 2).getD 0
  { calmInputs ready 2 (w.clock + 30 * second) with
    secondaries := [⟨"d", "r", ready, 2, none, none, "r", true⟩]
    secondaryCapacityReady := secondaryCapacityReady halfwayPlan w.record w.phase
      [⟨"r", "d", some ready, 2, none⟩] }

def duoRun : Nat → World
  | 0 => unarmed
  | n + 1 => (duoRun n).after halfwayPlan (duoInputs (duoRun n))

theorem annotations_after (plan : GroupCanary) (w : World) (inp : ReconcileInputs) :
    (w.after plan inp).annotations = w.annotations := by
  unfold World.after
  split <;> rfl

theorem duoRun_annotations (n : Nat) : (duoRun n).annotations = unarmed.annotations := by
  induction n with
  | zero => rfl
  | succ n ih => exact (annotations_after _ _ _).trans ih

theorem duoRun_unattended (n : Nat) :
    Unattended halfwayPlan firstMember [otherMember] "t" (duoRun n) (duoInputs (duoRun n)) := by
  have ready {p : Int} (partition :
      effectivePartition halfwayPlan (duoRun n).record (duoRun n).phase 2 = some p) :
      2 - (effectivePartition halfwayPlan (duoRun n).record (duoRun n).phase 2).getD 0 = 2 - p := by
    rw [partition]
    rfl
  exact {
    verbs := by
      rw [duoRun_annotations]
      intro key _ present
      cases present
    unpaused := rfl
    noRollback := rfl
    noResume := rfl
    noCrash := rfl
    pinned := rfl
    target := rfl
    hash := rfl
    stable := rfl
    retargeted := rfl
    serves := fun p partition => ⟨_, rfl, rfl, ready partition, nofun⟩
    others := .cons ⟨rfl, fun p partition => ⟨rfl, ready partition, nofun⟩⟩ .nil
    accounts := ⟨[_], .cons (fun p partition =>
      ⟨rfl, rfl, congrArg some (ready partition), .inl rfl⟩) .nil, rfl⟩
    later := by
      show (duoRun n).clock ≤ (duoRun n).clock + 30 * second
      unfold second
      omega
    pauses := by
      intro step isStep d isPause
      simp only [halfwayPlan, mem_cons, not_mem_nil, or_false] at isStep
      rcases isStep with rfl | rfl <;> cases isPause
    drains := by
      rintro s ⟨⟩
      exact le_refl _
    restarted := nofun }

theorem duoRun_completes :
    (∃ n ≤ 5, ∀ m, n ≤ m → Finished halfwayPlan (duoRun m)) ∧
      ∃! n, Completes halfwayPlan (duoInputs (duoRun n)) (duoRun n) := by
  have timed : Timed halfwayPlan := by
    intro step isStep
    simp only [halfwayPlan, mem_cons, not_mem_nil, or_false] at isStep
    rcases isStep with rfl | rfl <;> exact ⟨rfl, nofun⟩
  have accepted : validateCanaryPlan (fun _ => true) halfwayPlan = .ok () := by decide
  have valid : firstMember.Valid := ⟨by decide, by decide, by decide, by decide⟩
  have other : ∀ m ∈ [otherMember], m.Valid := by
    simp only [mem_singleton, forall_eq]
    exact ⟨by decide, by decide, by decide, by decide⟩
  have first : Unbegun firstMember "t" (duoRun 0) := Or.inl ⟨rfl, by decide⟩
  have result := unattended_canary_completes accepted timed valid other (by decide) first
    fun n => ⟨duoRun_unattended n, rfl⟩
  exact ⟨result.1, result.2.1⟩

end Ome.Canary
