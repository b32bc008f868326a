/-
# Ome.Canary.Runs — runs of passes over one unit

The unit between two passes: its record, phase and traffic, the annotations of the service,
and what an observer has noted of the run so far.  A pass reads the annotations as they are;
the verbs it applied are removed later, at any time, and not at all when its status write is
lost.  The operator writes and removes annotations at any time, and the phase and the traffic
may be changed by others.
-/
import Ome.Canary.Moves
import Ome.Theory.Runs

namespace Ome.Canary

open Ome.Theory

set_option autoImplicit false

structure World where
  record : Option CanaryStatus
  phase : RolloutPhase
  traffic : List TrafficTarget
  annotations : GoMap Verb String
  clock : Int
  /-- The gates that promotes opened, in the passes that landed. -/
  opened : Nat
  /-- How often the operator wrote a promote key with the canary hash. -/
  writes : Nat
  /-- When the latest pass landed that moved the recorded weight to 100. -/
  shifted : Option Int
  /-- A pass that landed has set the step to the number of steps. -/
  released : Bool

/-- What the next pass reads. -/
def World.pass (w : World) : Pass (Option CanaryStatus) where
  record := w.record
  phase := w.phase
  traffic := w.traffic
  annotations := w.annotations
  taken := []
  opened := w.opened

def recordedWeight (record : Option CanaryStatus) : Int :=
  match record with
  | none => 0
  | some cs => cs.observedTrafficWeight

def recordedStep (record : Option CanaryStatus) : Int :=
  match record with
  | none => 0
  | some cs => cs.currentStep

variable (plan : GroupCanary)

/-- The status write of a pass lands. -/
def World.land (w : World) (inp : ReconcileInputs) (ended : Ended) : World :=
  { w with
    record := ended.pass.record.map CanaryStatus.stored
    phase := ended.pass.phase
    traffic := ended.pass.traffic
    opened := ended.pass.opened
    clock := inp.now
    shifted :=
      if recordedWeight w.record ≠ 100 ∧ recordedWeight ended.pass.record = 100 then some inp.now
      else w.shifted
    released := w.released || recordedStep ended.pass.record = plan.steps.length }

/-- What the next pass finds is what the pass left, as stored. -/
theorem record_land {plan : GroupCanary} {w : World} {inp : ReconcileInputs} {ended : Ended}
    {c : CanaryStatus} (isRecord : (w.land plan inp ended).record = some c) :
    ∃ left, ended.pass.record = some left ∧ c = left.stored := by
  obtain ⟨left, isLeft, same⟩ := Option.map_eq_some_iff.mp isRecord
  exact ⟨left, isLeft, same.symm⟩

theorem recordedStep_land (w : World) (inp : ReconcileInputs) (ended : Ended) :
    recordedStep (w.land plan inp ended).record = recordedStep ended.pass.record := by
  unfold World.land
  cases ended.pass.record <;> rfl

/-- The operator writes an annotation. -/
def World.write (hash : String) (w : World) (key : Verb) (value : String) : World :=
  { w with
    annotations := w.annotations.set key value
    writes := if key ∈ promoteKeys ∧ value = hash then w.writes + 1 else w.writes }

/-- One event of a run; `reads` is what a pass may observe in a state. -/
inductive Move (plan : GroupCanary) (hash : String) (reads : World → ReconcileInputs → Prop) :
    World → World → Prop
  | landed {w : World} {inp : ReconcileInputs} {ended : Ended} (later : w.clock ≤ inp.now)
      (allowed : reads w inp) (passes : dispatch plan inp w.pass = some ended) :
      Move plan hash reads w (w.land plan inp ended)
  | lost {w : World} {now : Int} (later : w.clock ≤ now) :
      Move plan hash reads w { w with clock := now }
  | wrote {w : World} (key : Verb) (value : String) :
      Move plan hash reads w (w.write hash key value)
  | removed {w : World} (key : Verb) :
      Move plan hash reads w { w with annotations := w.annotations.erase key }
  | changed {w : World} (phase : RolloutPhase) (traffic : List TrafficTarget) :
      Move plan hash reads w { w with phase := phase, traffic := traffic }

/-- The states runs from a state that meets `first` come to. -/
def Reached (hash : String) (reads : World → ReconcileInputs → Prop) (first : World → Prop)
    (w : World) : Prop :=
  ∃ w₀, first w₀ ∧ Relation.ReflTransGen (Move plan hash reads) w₀ w

theorem Reached.invariant {plan : GroupCanary} {hash : String}
    {reads : World → ReconcileInputs → Prop} {first inv : World → Prop}
    (kept : ∀ w w', inv w → Move plan hash reads w w' → inv w') (holds : ∀ w, first w → inv w)
    {w : World} (reached : Reached plan hash reads first w) : inv w := by
  obtain ⟨w₀, starts, run⟩ := reached
  exact Runs.invariant_of_run kept run (holds w₀ starts)

/-- A pass and its status write. -/
def World.after (w : World) (inp : ReconcileInputs) : World :=
  match dispatch plan inp w.pass with
  | none => w
  | some ended => w.land plan inp ended

theorem run_after {plan : GroupCanary} {hash : String} {reads : World → ReconcileInputs → Prop}
    {w : World} {inp : ReconcileInputs} (later : w.clock ≤ inp.now) (allowed : reads w inp) :
    Relation.ReflTransGen (Move plan hash reads) w (w.after plan inp) := by
  unfold World.after
  cases passes : dispatch plan inp w.pass with
  | none => exact .refl
  | some ended => exact .single (.landed later allowed passes)

/-! ## An undisturbed unit -/

/-- What a pass observes when nothing happens: so many canary Instances serve. -/
def calmInputs (ready desired now : Int) : ReconcileInputs where
  now := now
  canaryRevisionHash := "c"
  stableRevisionHash := "s"
  readyCanaryInstances := some ready
  desiredReplicas := desired
  perRevisionPods := none
  totalPods := none
  crash := false
  canaryRestartedAt := none
  secondaryCapacityReady := true
  secondaries := []
  sample := none
  runActive := true
  targetID := "t"
  observedTargetID := "t"
  unitRetargeted := true
  readyTimeoutAnnotation := none
  defaultReadyTimeout := 0
  paused := false
  rollback := false
  resume := none
  othersResume := false
  othersHoldRollback := false
  othersActionable := false
  patchFails := false
  missingStable := false

/-- One step to full traffic, half a minute of drain. -/
def straightPlan : GroupCanary where
  steps := [⟨.percent 100, 100, none, none⟩]
  scaleDownDelaySeconds := some 30
  readyTimeout := none

/-- A unit that no canary has touched. -/
def unarmed : World where
  record := none
  phase := .stable
  traffic := []
  annotations := GoMap.ofList []
  clock := 0
  opened := 0
  writes := 0
  shifted := none
  released := false

end Ome.Canary
