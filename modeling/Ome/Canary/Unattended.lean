/-
# Ome.Canary.Unattended — what the passes of an undisturbed unit do

An unattended unit sees no verb, no pause, no crash and no retarget; its pauses are timed;
before each pass every member serves on its target exactly the Instances that the
partition projected from the status lets go, and the clock has passed the pauses and the
drain delay since the pass before.

The stages before the step machine let such a unit pass (`Unattended.stages_eq`), and the
gate of a step waits for the very count its partition leaves (`capacityShort_unattended`),
so no step waits for good.
-/
import Ome.Canary.Plan
import Ome.Canary.Runs

namespace Ome.Canary

open Ome.Theory

set_option autoImplicit false

variable {step : RolloutGroupStep}

/-! ## The members and what is observed of them -/

/-- A member of the unit. -/
structure Member where
  target : String
  stable : String
  desired : Int

structure Member.Valid (m : Member) : Prop where
  some : 1 ≤ m.desired
  target : m.target ≠ ""
  stable : m.stable ≠ ""
  distinct : m.stable ≠ m.target

/-- One replica's account of its own rollout; no count of serving Instances unless the
replica has one. -/
structure ObservedRevisions where
  currentHash : String
  targetHash : String
  serving : Option Int
  desired : Int
  pods : Pods

/-- Every member but the primary has its step's canary Instances. -/
def secondaryCapacityReady (plan : GroupCanary) (cs : Option CanaryStatus) (phase : RolloutPhase)
    (secondaries : List ObservedRevisions) : Bool :=
  let idx := match cs with
    | none => 0
    | some cs => stepOf cs phase plan.steps
  let idx := if (plan.steps.length : Int) ≤ idx then (plan.steps.length : Int) - 1 else idx
  match plan.steps[idx.toNat]? with
  -- a plan without steps gates nothing
  | none => true
  | some step => secondaries.all fun r =>
    if r.targetHash = "" then true
    else if r.currentHash = r.targetHash then otherRevision r.pods r.targetHash = ""
    else
      match r.serving with
      | none => false
      | some serving => stepStagedCount step r.desired ≤ serving

/-- A member serves on its target all Instances but those the partition holds; the rest is
on its stable revision. -/
structure Serves (m : Member) (partition : Int) (ready desired : Int) (pods : Pods) : Prop where
  count : desired = m.desired
  serving : ready = m.desired - partition
  apart : ∀ counts, pods = some counts → ∀ h ∈ counts.keys, h ≠ "" → h ≠ m.target →
    0 < counts.get h → h = m.stable ∧ partition ≠ 0

/-- The account of a member's replica; it calls the target current once all runs it. -/
structure Reports (m : Member) (partition : Int) (r : ObservedRevisions) : Prop where
  target : r.targetHash = m.target
  desired : r.desired = m.desired
  serving : r.serving = some (m.desired - partition)
  current : r.currentHash = m.stable ∨
    r.currentHash = m.target ∧ otherRevision r.pods r.targetHash = ""

/-- What a pass of an unattended unit observes. -/
structure Unattended (plan : GroupCanary) (primary : Member) (secondaries : List Member)
    (targetID : String) (w : World) (inp : ReconcileInputs) : Prop where
  verbs : ∀ key ∈ promoteKeys, key ∉ w.annotations.keys
  unpaused : inp.paused = false
  noRollback : inp.rollback = false
  noResume : inp.resume = none
  noCrash : inp.crash = false
  pinned : inp.runActive = true
  target : inp.targetID = targetID
  hash : inp.canaryRevisionHash = primary.target
  stable : inp.stableRevisionHash = primary.stable
  retargeted : inp.unitRetargeted = true
  serves : ∀ p, effectivePartition plan w.record w.phase primary.desired = some p →
    ∃ ready, inp.readyCanaryInstances = some ready ∧
      Serves primary p ready inp.desiredReplicas inp.perRevisionPods
  others : List.Forall₂ (fun (m : Member) (r : MemberRevisions) =>
    r.canaryRevisionHash = m.target ∧
      ∀ p, effectivePartition plan w.record w.phase m.desired = some p →
        Serves m p r.readyCanaryCapacity r.desiredReplicas r.readyPods) secondaries inp.secondaries
  accounts : ∃ observed, List.Forall₂ (fun (m : Member) (r : ObservedRevisions) =>
      ∀ p, effectivePartition plan w.record w.phase m.desired = some p → Reports m p r)
        secondaries observed ∧
    inp.secondaryCapacityReady = secondaryCapacityReady plan w.record w.phase observed
  later : w.clock ≤ inp.now
  pauses : ∀ step ∈ plan.steps, ∀ d, step.pause.bind (·.duration) = some d →
    w.clock + d ≤ inp.now
  drains : ∀ s, plan.scaleDownDelaySeconds = some s → w.clock + s * second ≤ inp.now
  restarted : ∀ t, inp.canaryRestartedAt = some t → t ≤ w.clock

/-- The steps carry no analysis, and every pause has a duration. -/
def Timed (plan : GroupCanary) : Prop :=
  ∀ step ∈ plan.steps, step.analysis = none ∧ ∀ pause, step.pause = some pause →
    pause.duration ≠ none

/-! ## A pass without promotes -/

section Quiet

variable {plan : GroupCanary} {inp : ReconcileInputs} {p : Armed}

/-- No promote key is there. -/
def Unpromised (p : Armed) : Prop := ∀ key ∈ promoteKeys, key ∉ p.annotations.keys

theorem shouldAdvanceManual_eq_false (none : Unpromised p) : shouldAdvanceManual p = false := by
  rw [← Bool.not_eq_true, shouldAdvanceManual_iff]
  rintro ⟨⟨key, isKey, present, _⟩, _⟩
  exact none key isKey present

theorem forceRequested_eq_false (none : Unpromised p) : forceRequested p = false := by
  have manual := shouldAdvanceManual_eq_false none
  exact (Bool.or_eq_false_iff.mp manual).2

theorem recordPromotes_eq (none : Unpromised p) : recordPromotes (countOpened p) = p := by
  have first : Verb.promote ∉ p.annotations.keys := none .promote (by decide)
  have second : Verb.promoteForce ∉ p.annotations.keys := none .promoteForce (by decide)
  have uncounted : countOpened p = p := by
    unfold countOpened
    rw [shouldAdvanceManual_eq_false none]
    rfl
  rw [uncounted]
  simp [recordPromotes, promoteKeys, recordKey, first, second]

/-- A step with a timed pause, or none, is decided by the clock alone. -/
theorem stepGate_timed (none : Unpromised p) (plain : step.analysis = Option.none)
    (timed : ∀ pause, step.pause = some pause → pause.duration ≠ Option.none) :
    stepGate plan inp step p =
      if shouldAdvanceAuto p.record step inp.canaryRestartedAt inp.now = true then .ok p
      else stop (.holding (stepPartition step inp.desiredReplicas)) (p.setPhase .paused) := by
  have manual := shouldAdvanceManual_eq_false none
  unfold stepGate stepGated stepIsAnalysis evaluateStep
  rw [manual, plain]
  cases isPause : step.pause with
  | none => simp [shouldAdvanceAuto, isPause]
  | some pause =>
    cases isTimed : pause.duration with
    | none => exact absurd isTimed (timed pause isPause)
    | some d =>
      simp only [Option.isSome_none, Option.isSome_some, Bool.or_true, if_true,
        Option.bind_some, isTimed, Bool.false_eq_true, if_false]
      cases shouldAdvanceAuto p.record step inp.canaryRestartedAt inp.now <;> rfl

theorem preStepGate_eq (step : RolloutGroupStep) (unheld : p.record.preStepHold = false) :
    preStepGate inp step p = .ok p := by
  unfold preStepGate
  rw [unheld]
  rfl

/-- The pass with no capacity wait running. -/
def Pass.served (p : Armed) : Armed := { p with record.capacityWaitSince := none }

theorem capacityGate_eq (none : Unpromised p) (enough : capacityShort inp step = false) :
    capacityGate plan inp step p = .ok p.served := by
  unfold capacityGate capacityClock
  rw [forceRequested_eq_false none, enough]
  rfl

end Quiet

/-! ## The holds let an undisturbed record pass -/

/-- The record of an undisturbed canary. -/
structure Rides (m : Member) (targetID : String) (c : CanaryStatus) : Prop where
  hash : c.canaryRevisionHash = m.target
  target : c.targetID = targetID
  promoted : c.promotedThrough = ""
  unheld : c.preStepHold = false
  accepted : c.rolledBackRevisionHash = ""
  unrequested : c.rollbackRequested = false
  unfailed : c.failed = none

section Holds

variable {plan : GroupCanary} {primary : Member} {secondaries : List Member} {targetID : String}
  {w : World} {inp : ReconcileInputs} {c : CanaryStatus}

theorem Rides.stored (rides : Rides primary targetID c) : Rides primary targetID c.stored :=
  { rides with unfailed := congrArg (Option.map _) rides.unfailed }

theorem Rides.state (rides : Rides primary targetID c) {phase : RolloutPhase}
    (alive : phase ≠ .failed) (steps : Nat) : stateOfRecord c phase steps ≠ .failed := by
  unfold stateOfRecord parkedWithoutStable
  simp only [rides.unfailed, rides.accepted, rides.unheld, alive, Option.any_none,
    Option.isSome_none, Bool.false_eq_true, if_false, ne_eq, not_true_eq_false, false_or]
  split
  · exact CanaryState.noConfusion
  · cases phase <;> simp only [reduceCtorEq, not_false_eq_true]
    split <;> exact CanaryState.noConfusion

section

variable (quiet : Unattended plan primary secondaries targetID w inp)
  (rides : Rides primary targetID c)
include quiet rides

theorem Unattended.targetChanged_eq : targetChanged inp (some c) = false := by
  simp [targetChanged, rides.target, quiet.target]

theorem Unattended.adoptRecord_eq (apart : c.stableRevisionHash ≠ primary.target) :
    adoptRecord inp c = c := by
  have apart' : c.stableRevisionHash ≠ c.canaryRevisionHash := rides.hash ▸ apart
  have bound : ¬ (c.targetID = "" ∧ inp.targetID ≠ "") := by
    rw [rides.target, quiet.target]
    rintro ⟨blank, named⟩
    exact named blank
  unfold adoptRecord
  simp only [if_neg bound]
  rw [if_neg fun both => apart' both.2.1]

theorem Unattended.shouldRearm_eq (rule : RearmRule) (current : rule.excludeCurrent = true) :
    shouldRearm inp c false rule = false := by
  unfold shouldRearm
  split
  · rfl
  · rw [if_neg (by simp), if_pos ⟨current, quiet.hash.trans rides.hash.symm⟩]

end

theorem Unattended.rollback_eq (quiet : Unattended plan primary secondaries targetID w inp)
    (cs : Option CanaryStatus) :
    rollbackRequestPending inp cs = false ∧ rollbackRequestSpendable inp cs = false := by
  simp [rollbackRequestPending, rollbackRequestSpendable, quiet.noRollback]

section Stages

variable (quiet : Unattended plan primary secondaries targetID w inp)
  (rides : Rides primary targetID c)

include quiet rides

theorem Unattended.bindTarget_eq {p : Armed} (isRecord : p.record = c)
    (known : c.currentStep < plan.steps.length → c.stableRevisionHash ≠ "") :
    bindTarget plan.steps.length inp false p = .ok p := by
  unfold bindTarget
  split
  · rename_i live
    have unfilled : backfillStable inp p = p := by
      refine if_neg fun blank => ?_
      rw [isRecord] at blank live
      exact known live.1 blank.1
    simp only [unfilled, isRecord, quiet.shouldRearm_eq rides rearmLive rfl,
      Bool.false_eq_true, if_false]
    have kept : targetReverted inp c = false := by
      unfold targetReverted
      rw [quiet.pinned]
      rfl
    simp [kept]
  · rfl

theorem Unattended.holdRollback_eq {p : Armed} (isRecord : p.record = c) :
    holdRollback plan.steps.length inp false p = .ok p := by
  unfold holdRollback
  simp only [isRecord, rides.accepted, (quiet.rollback_eq _).1, ne_eq, not_true_eq_false, if_false,
    Bool.false_eq_true, false_and]

omit quiet in
theorem Rides.holdFailed_eq {p : Armed} (isRecord : p.record = c) (alive : p.phase ≠ .failed) :
    holdFailed plan.steps.length inp false p = .ok p := by
  unfold holdFailed
  rw [isRecord, if_neg (rides.state alive plan.steps.length)]

theorem Unattended.holdDone_eq {p : Armed} (isRecord : p.record = c) :
    holdDone plan.steps.length inp false p =
      if (plan.steps.length : Int) ≤ c.currentStep then
        stop (finishCutover inp p).1 (finishCutover inp p).2
      else .ok p := by
  subst isRecord
  have synced : syncPromotedThrough p = p := if_pos rides.promoted
  have ignored : ignoreRollback inp (some p.record) p = p := by
    unfold ignoreRollback
    rw [(quiet.rollback_eq _).2]
    rfl
  unfold holdDone
  simp only [synced, ignored, quiet.shouldRearm_eq rides rearmDone rfl, Bool.false_eq_true,
    if_false]

end Stages

/-- The stages before the step machine leave the record to it, or, past the last step, to
the end of the cutover. -/
theorem Unattended.stages_eq (quiet : Unattended plan primary secondaries targetID w inp)
    (isRecord : w.record = some c) (rides : Rides primary targetID c)
    (apart : c.stableRevisionHash ≠ primary.target)
    (known : c.currentStep < plan.steps.length → c.stableRevisionHash ≠ "")
    (inside : 0 ≤ c.currentStep) (alive : w.phase ≠ .failed) :
    reconcileStages plan inp w.pass =
      if (plan.steps.length : Int) ≤ c.currentStep then
        stop (finishCutover inp (w.pass.withRecord c)).1
          (finishCutover inp (w.pass.withRecord c)).2
      else stepMachine plan inp (w.pass.withRecord c) := by
  have isFound : w.pass.record = some c := isRecord
  have repaired : repairStep plan w.pass = w.pass := by
    refine repairStep_eq plan fun cs found => ?_
    rw [isFound] at found
    cases found
    exact inside
  have resumed : handleResume inp { w.pass with record := some c } =
      .ok { w.pass with record := some c } := by
    unfold handleResume
    rw [quiet.noResume]
  have released : releaseRequest inp (w.pass.withRecord c) = w.pass.withRecord c := by
    refine if_neg fun requested => ?_
    rw [show (w.pass.withRecord c).record.rollbackRequested = false from rides.unrequested]
      at requested
    cases requested.1
  -- the holds one after the other: each lets an unattended record through
  have held : applyHolds plan inp false { w.pass with record := some c } =
      if (plan.steps.length : Int) ≤ c.currentStep then
        stop (finishCutover inp (w.pass.withRecord c)).1
          (finishCutover inp (w.pass.withRecord c)).2
      else .ok (w.pass.withRecord c) := by
    show (do
      let p ← bindTarget plan.steps.length inp false (releaseRequest inp (w.pass.withRecord c))
      let p ← holdRollback plan.steps.length inp false p
      let p ← holdFailed plan.steps.length inp false p
      let p ← holdDone plan.steps.length inp false p
      holdRunLost plan inp p : Stage Armed) = _
    rw [released, quiet.bindTarget_eq rides rfl known]
    show (do
      let p ← holdRollback plan.steps.length inp false (w.pass.withRecord c)
      let p ← holdFailed plan.steps.length inp false p
      let p ← holdDone plan.steps.length inp false p
      holdRunLost plan inp p : Stage Armed) = _
    rw [quiet.holdRollback_eq rides rfl]
    show (do
      let p ← holdFailed plan.steps.length inp false (w.pass.withRecord c)
      let p ← holdDone plan.steps.length inp false p
      holdRunLost plan inp p : Stage Armed) = _
    rw [rides.holdFailed_eq rfl alive]
    show (do
      let p ← holdDone plan.steps.length inp false (w.pass.withRecord c)
      holdRunLost plan inp p : Stage Armed) = _
    rw [quiet.holdDone_eq rides rfl]
    split
    · rfl
    · show holdRunLost plan inp (w.pass.withRecord c) = _
      unfold holdRunLost
      rw [quiet.pinned]
      rfl
  unfold reconcileStages
  simp only [repaired, quiet.unpaused, Bool.false_eq_true, if_false, isFound, Option.map_some,
    quiet.adoptRecord_eq rides apart, quiet.targetChanged_eq rides, resumed]
  show (applyHolds plan inp false { w.pass with record := some c } >>= stepMachine plan inp) = _
  rw [held]
  split <;> rfl

theorem Unattended.stages_arm (quiet : Unattended plan primary secondaries targetID w inp)
    (valid : primary.Valid) (named : targetID ≠ "") (none : w.record = none) :
    reconcileStages plan inp w.pass = stepMachine plan inp (w.pass.withRecord
      (.start targetID primary.target primary.stable inp.now)) := by
  have isFound : w.pass.record = Option.none := none
  have repaired : repairStep plan w.pass = w.pass := by
    refine repairStep_eq plan fun cs found => ?_
    rw [isFound] at found
    cases found
  have same : ({ w.pass with record := Option.none } : Pass (Option CanaryStatus)) = w.pass := by
    rw [← isFound]
  have resumed : handleResume inp w.pass = .ok w.pass := by
    unfold handleResume
    rw [quiet.noResume]
  have ignored : ignoreRollback inp Option.none w.pass = w.pass := by
    unfold ignoreRollback
    rw [(quiet.rollback_eq _).2]
    rfl
  have armed : arm inp w.pass = .ok (w.pass.withRecord
      (.start targetID primary.target primary.stable inp.now)) := by
    unfold arm
    simp only [ignored, quiet.hash, quiet.stable, quiet.target, quiet.retargeted, quiet.pinned,
      valid.target, valid.stable, named, Bool.true_eq_false, false_and, or_false, if_false]
  have held : applyHolds plan inp false w.pass = arm inp w.pass := by
    unfold applyHolds
    rw [isFound]
  unfold reconcileStages
  simp only [repaired, quiet.unpaused, Bool.false_eq_true, if_false, isFound, Option.map_none,
    same]
  show (handleResume inp w.pass >>= fun p => applyHolds plan inp false p >>=
    stepMachine plan inp) = _
  rw [resumed]
  show (applyHolds plan inp false w.pass >>= stepMachine plan inp) = _
  rw [held, armed]
  rfl

end Holds

/-! ## The gate waits for what the partition leaves -/

section Capacity

variable {plan : GroupCanary} {primary : Member} {secondaries : List Member} {targetID : String}
  {w : World} {inp : ReconcileInputs}

/-- The step the record is at. -/
def stepAt (plan : GroupCanary) (w : World) : Option RolloutGroupStep :=
  plan.steps[(recordedStep w.record).toNat]?

/-- The record of an undisturbed unit, or none. -/
structure Sails (primary : Member) (targetID : String) (w : World) : Prop where
  alive : w.phase ≠ .failed
  rides : ∀ c, w.record = some c → Rides primary targetID c
  inside : 0 ≤ recordedStep w.record

theorem Sails.stateOf_ne (sails : Sails primary targetID w) (steps : Nat) :
    stateOf w.record w.phase steps ≠ .failed := by
  cases isRecord : w.record with
  | none => exact CanaryState.noConfusion
  | some c => exact (sails.rides c isRecord).state sails.alive steps

theorem Sails.effectivePartition_eq (sails : Sails primary targetID w) (steps : plan.steps ≠ [])
    (desired : Int) : effectivePartition plan w.record w.phase desired =
      match stepAt plan w with
      | none => some 0
      | some step => some (stepPartition step desired) := by
  have accepted : ¬ (w.record.any (·.rolledBackRevisionHash ≠ "")) = true := by
    cases isRecord : w.record with
    | none => simp
    | some c => simp [(sails.rides c isRecord).accepted]
  have inside := sails.inside
  unfold effectivePartition stepAt
  rw [if_neg steps, if_neg (sails.stateOf_ne _), if_neg accepted]
  cases isRecord : w.record with
  | none => rfl
  | some c =>
    rw [isRecord] at inside
    have nonneg : 0 ≤ c.currentStep := inside
    have reads : stepOf c w.phase plan.steps = c.currentStep := if_pos nonneg
    show (match plan.steps[(stepOf c w.phase plan.steps).toNat]? with
      | none => some 0
      | some step => some (stepPartition step desired)) = _
    rw [reads]
    rfl

theorem Sails.secondaryCapacityReady_eq (sails : Sails primary targetID w)
    (isStep : stepAt plan w = some step) (observed : List ObservedRevisions) :
    secondaryCapacityReady plan w.record w.phase observed = observed.all fun r =>
      if r.targetHash = "" then true
      else if r.currentHash = r.targetHash then otherRevision r.pods r.targetHash = ""
      else
        match r.serving with
        | none => false
        | some serving => stepStagedCount step r.desired ≤ serving := by
  have inside := sails.inside
  have below : (recordedStep w.record).toNat < plan.steps.length :=
    (List.getElem?_eq_some_iff.mp isStep).1
  have idx : (match w.record with
      | none => 0
      | some cs => stepOf cs w.phase plan.steps : Int) = recordedStep w.record := by
    cases isRecord : w.record with
    | none => rfl
    | some c =>
      rw [isRecord] at inside
      exact if_pos inside
  unfold secondaryCapacityReady
  simp only [idx]
  rw [if_neg (by omega)]
  unfold stepAt at isStep
  simp only [isStep]

section

variable (quiet : Unattended plan primary secondaries targetID w inp)
  (sails : Sails primary targetID w) (steps : plan.steps ≠ [])
include quiet sails steps

/-- **No step waits for capacity its own partition forbids.** -/
theorem capacityShort_unattended (valid : ∀ m ∈ secondaries, m.Valid)
    (isStep : stepAt plan w = some step) : capacityShort inp step = false := by
  have partition (desired : Int) : effectivePartition plan w.record w.phase desired =
      some (stepPartition step desired) := by
    rw [sails.effectivePartition_eq steps, isStep]
  obtain ⟨ready, counted, serves⟩ := quiet.serves _ (partition primary.desired)
  obtain ⟨observed, reports, isReady⟩ := quiet.accounts
  have enough : ¬ readyCanaryCapacity inp < stepStagedCount step inp.desiredReplicas := by
    unfold readyCanaryCapacity stepStagedCount
    rw [counted, Option.getD_some, serves.serving, serves.count]
    exact lt_irrefl _
  have others : inp.secondaryCapacityReady = true := by
    rw [isReady, sails.secondaryCapacityReady_eq isStep, List.all_eq_true]
    intro r isObserved
    obtain ⟨m, isMember, report⟩ : ∃ m ∈ secondaries,
        Reports m (stepPartition step m.desired) r := by
      obtain ⟨m, isMember, related⟩ := exists_of_mem_right reports isObserved
      exact ⟨m, isMember, related _ (partition m.desired)⟩
    rw [report.target, if_neg (valid m isMember).target]
    split
    · rename_i same
      rcases report.current with stable | ⟨_, none⟩
      · exact absurd (stable.symm.trans same) (valid m isMember).distinct
      · rw [report.target] at none
        simpa using none
    · rw [report.serving, report.desired]
      simp [stepStagedCount]
  simp [capacityShort, enough, others]

/-- Past the last step every member has its whole capacity on its target. -/
theorem cutoverComplete_unattended (past : stepAt plan w = none) : cutoverComplete inp = true := by
  have partition (desired : Int) :
      effectivePartition plan w.record w.phase desired = some 0 := by
    rw [sails.effectivePartition_eq steps, past]
  have alone {m : Member} {ready desired : Int} {pods : Pods}
      (serves : Serves m 0 ready desired pods) {hash : String} (isTarget : hash = m.target) :
      ¬ ready < desired ∧ servesOtherRevision pods hash = false := by
    refine ⟨by rw [serves.serving, serves.count]; omega, ?_⟩
    unfold servesOtherRevision
    cases isPods : pods with
    | none => rfl
    | some counts =>
      rw [List.any_eq_false]
      intro h isKey others
      simp only [decide_eq_true_eq] at others
      exact (serves.apart counts isPods h isKey others.1 (isTarget ▸ others.2.1) others.2.2).2 rfl
  obtain ⟨ready, counted, serves⟩ := quiet.serves 0 (partition primary.desired)
  obtain ⟨enough, none⟩ := alone serves quiet.hash
  have others : (inp.secondaries.all fun m => !(m.readyCanaryCapacity < m.desiredReplicas ||
      servesOtherRevision m.readyPods m.canaryRevisionHash)) = true := by
    rw [List.all_eq_true]
    intro r isOther
    obtain ⟨m, _, isTarget, serves⟩ := exists_of_mem_right quiet.others isOther
    obtain ⟨enough, none⟩ := alone (serves 0 (partition m.desired)) isTarget
    simp [enough, none]
  unfold cutoverComplete readyCanaryCapacity
  rw [counted, Option.getD_some, others]
  simp [enough, none]

end

end Capacity

end Ome.Canary
