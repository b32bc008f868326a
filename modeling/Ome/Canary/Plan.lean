/-
# Ome.Canary.Plan — which plans admission accepts

Model of `ValidateCanaryPlan`, the rules a canary plan meets wherever it comes from: an
inline group, a policy body or the composed plan a run pins.  An error names the rule and
the step; the rendering of its text is left out.  The metrics of an analysis are read by no
pass and are not part of the plan here: `metrics` stands for their check.
-/
import Ome.Canary.Record
import Ome.Theory.Attempts

namespace Ome.Canary

open Ome.Theory

set_option autoImplicit false

inductive CapacityError where
  | malformed
  | negative (n : Int)
  | exceeds (n : Int)
  deriving DecidableEq

inductive PlanError where
  | noSteps
  | analysisInterval (step : Nat)
  | analysisFailureLimit (step : Nat)
  | analysisMetrics (step : Nat)
  | readyTimeout
  | finalTraffic (got : Int)
  | capacity (step : Nat) (error : CapacityError)
  | traffic (step : Nat) (got : Int)
  | trafficFalls (step : Nat) (got previous : Int)
  | zeroCapacity (step : Nat) (traffic : Int)
  | finalCapacity (step : Nat) (got : Int)
  deriving DecidableEq

/-- The numeric value of a capacity, and whether it is a percentage. -/
def parseCanaryCapacity (c : Capacity) : Except CapacityError (Int × Bool) :=
  match c with
  | .count n => if n < 0 then .error (.negative n) else .ok (n, false)
  | .percent n =>
    if n < 0 then .error (.negative n)
    else if 100 < n then .error (.exceeds n)
    else .ok (n, true)
  | .malformed => .error .malformed

def validateCanaryAnalysis (metrics : Nat → Bool) (c : GroupCanary) : Except PlanError Unit :=
  c.steps.zipIdx.forM fun entry =>
    match entry.1.analysis with
    | none => .ok ()
    | some a => do
      refuse (a.interval ≤ 0) (PlanError.analysisInterval entry.2)
      refuse (a.failureLimit < 1) (PlanError.analysisFailureLimit entry.2)
      refuse (metrics entry.2 = false) (PlanError.analysisMetrics entry.2)

/-- The rules of one step, after one of the given traffic. -/
def validateStep (last : Bool) (i : Nat) (prevWeight : Int) (s : RolloutGroupStep) :
    Except PlanError Unit :=
  match parseCanaryCapacity s.capacity with
  | .error e => .error (.capacity i e)
  | .ok (val, isPercent) => do
    refuse (s.traffic < 0 ∨ 100 < s.traffic) (PlanError.traffic i s.traffic)
    refuse (s.traffic < prevWeight) (PlanError.trafficFalls i s.traffic prevWeight)
    refuse (0 < s.traffic ∧ val = 0) (PlanError.zeroCapacity i s.traffic)
    refuse (last = true ∧ isPercent = true ∧ val ≠ 100) (PlanError.finalCapacity i val)

def validateSteps : Nat → Int → List RolloutGroupStep → Except PlanError Unit
  | _, _, [] => .ok ()
  | i, prevWeight, s :: rest => do
    validateStep rest.isEmpty i prevWeight s
    validateSteps (i + 1) s.traffic rest

def validateCanaryPlan (metrics : Nat → Bool) (c : GroupCanary) : Except PlanError Unit :=
  match c.steps.getLast? with
  | none => .error .noSteps
  | some last => do
    validateCanaryAnalysis metrics c
    refuse (c.readyTimeout.any (· ≤ 0) = true) PlanError.readyTimeout
    refuse (last.traffic ≠ 100) (PlanError.finalTraffic last.traffic)
    validateSteps 0 0 c.steps

/-! ## Accepted plans -/

/-- The traffic of the steps rises from a weight, within [0, 100]. -/
inductive Rises : Int → List RolloutGroupStep → Prop
  | nil (w : Int) : Rises w []
  | cons {w : Int} {s : RolloutGroupStep} {rest : List RolloutGroupStep} (above : w ≤ s.traffic)
      (within : s.traffic ≤ 100) (after : Rises s.traffic rest) : Rises w (s :: rest)

theorem validateStep_ok {last : Bool} {i : Nat} {w : Int} {s : RolloutGroupStep}
    (accepted : validateStep last i w s = .ok ()) : w ≤ s.traffic ∧ s.traffic ≤ 100 := by
  unfold validateStep at accepted
  cases parsed : parseCanaryCapacity s.capacity with
  | error e =>
    rw [parsed] at accepted
    cases accepted
  | ok parsed' =>
    rw [parsed] at accepted
    simp only [refuse_bind_eq_ok, refuse_eq_ok] at accepted
    omega

theorem validateSteps_rises : ∀ {steps : List RolloutGroupStep} {i : Nat} {w : Int},
    validateSteps i w steps = .ok () → Rises w steps
  | [], _, w, _ => .nil w
  | s :: rest, i, w, accepted => by
    obtain ⟨_, first, later⟩ := bind_eq_ok.mp accepted
    obtain ⟨above, within⟩ := validateStep_ok first
    exact .cons above within (validateSteps_rises later)

/-- What the passes rely on in an accepted plan. -/
structure Accepted (c : GroupCanary) : Prop where
  steps : c.steps ≠ []
  final : ∀ last, c.steps.getLast? = some last → last.traffic = 100
  rises : Rises 0 c.steps

theorem validateCanaryPlan_ok {metrics : Nat → Bool} {c : GroupCanary}
    (accepted : validateCanaryPlan metrics c = .ok ()) : Accepted c := by
  unfold validateCanaryPlan at accepted
  cases isLast : c.steps.getLast? with
  | none =>
    rw [isLast] at accepted
    cases accepted
  | some last =>
    rw [isLast] at accepted
    obtain ⟨_, _, rest⟩ := bind_eq_ok.mp accepted
    simp only [refuse_bind_eq_ok, not_not] at rest
    refine ⟨fun empty => ?_, fun other isOther => ?_, validateSteps_rises rest.2.2⟩
    · rw [empty] at isLast
      cases isLast
    · rw [isLast] at isOther
      cases isOther
      exact rest.2.1

end Ome.Canary
