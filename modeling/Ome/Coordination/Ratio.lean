/-
# Ome.Coordination.Ratio — pacing a group by its ratio

Model of the pacing of a `RatioBalanced` group: `EvaluateSurge` and
`LockstepHold` with the new-revision lockstep, the serving band and the recovery
fallback.  The source's ratios are floating point; here they are exact rationals.
A `nil` map reads as an empty one, except for `Serving`, whose absence is tested.

A step is judged in two parts.  `outpacesPeerProgress` compares how far each
member's roll has come, measured against `progressReference`; `respectsBand`
compares the serving counts after the step, pair by pair, with the reference ratio.
-/
import Mathlib.Algebra.Order.Ring.Rat
import Ome.Component
import Ome.Theory.GoMap
import Ome.Theory.MachineInt

namespace Ome.Coordination

open Ome.Theory

set_option autoImplicit false

/-! ## What a decision reads -/

inductive CoordinationPacingType where
  | perComponent
  | ratioBalanced
  deriving DecidableEq

structure CoordinationPacing where
  type : CoordinationPacingType
  ratioTolerancePercent : Option Int

/-- Instance counts by Component. -/
abbrev Counts := GoMap Component Int

/-- The counts of a group that ratio pacing reasons about. -/
structure RatioState where
  original : Counts
  current : Counts
  desired : Counts
  newPods : Counts
  serving : Option Counts
  recoveryEligible : GoMap Component Bool
  creating : Counts
  inFlightSurge : Counts
  inFlightUnavail : Counts

structure RatioDecision where
  allowedSurgeDelta : Int := 0
  skewRejected : Bool := false
  reason : String
  outsideTolerance : Bool := false
  deriving DecidableEq

namespace RatioState

variable (s : RatioState)

/-- The serving counts; callers that do not populate them are read by their new pods. -/
def baseline : Counts := s.serving.getD s.newPods

/-- The count that each member's roll is measured against: what its spec asks for
now where that was observed, else the recorded reference. -/
def progressReference : Counts :=
  if s.desired.keys.length = 0 then s.original
  else s.original.keys.foldl
    (fun out c => out.set c (if c ∈ s.desired.keys then s.desired.get c else s.original.get c))
    GoMap.empty

end RatioState

/-! ## The lockstep -/

/-- The component's roll is ahead of a rolling peer's by more than the band. -/
def outpacesPeerProgress (reference newPods : Counts) (component : Component) (band : ℚ) :
    Bool :=
  let band := if band < 0 then 0 else band
  let refC := reference.get component
  if refC ≤ 0 then false
  else
    let fracC : ℚ := newPods.get component / refC
    reference.keys.any fun peer =>
      let refP := reference.get peer
      -- A finished peer paces nobody.
      if peer = component ∨ refP ≤ 0 then false
      else if refP ≤ newPods.get peer then false
      else band < fracC - newPods.get peer / refP

/-- The band that a tolerance in percent stands for. -/
def bandOf (tolerance : Int) : ℚ := tolerance / 100

/-- The answer for an in-place start: the reason it is held, if it is. -/
def lockstepHold (pacing : CoordinationPacing) (state : RatioState) (component : Component) :
    Option String :=
  if pacing.type ≠ .ratioBalanced ∨ state.original.keys.length ≤ 1 then none
  else
    match pacing.ratioTolerancePercent with
    | none => none
    | some tolerance =>
      if outpacesPeerProgress state.progressReference state.newPods component
          (bandOf tolerance) then
        some "in-place update would outpace peer new-revision rollout past tolerance"
      else none

/-! ## The serving band -/

/-- The serving counts after the component's step; a drain stops at zero. -/
def projectedServing (counts : Counts) (component : Component) (delta : Int) : Counts :=
  let out := counts.set component (wrap32 (counts.get component + delta))
  if out.get component < 0 then out.set component 0 else out

/-- A member as the band reads it: its reference and its projected serving count. -/
structure BandEntry where
  orig : Int
  proj : Int

/-- The projected counts of `a` and `b`, larger over smaller, are within the band of
the reference ratio of `a` to `b`. -/
def ratioInBand (band : ℚ) (a b : BandEntry) : Bool :=
  let origRatio : ℚ := a.orig / b.orig
  let bandLow := origRatio * (1 - band)
  let bandHigh := origRatio * (1 + band)
  let pa := max a.proj b.proj
  let pb := min a.proj b.proj
  -- Nothing served on the smaller side: the ratio is undefined.
  if pb ≤ 0 then false
  else
    let projRatio : ℚ := pa / pb
    !(projRatio < bandLow || bandHigh < projRatio)

/-- The pair is within the band, the larger reference on top. -/
def pairInBand (band : ℚ) (first second : BandEntry) : Bool :=
  if first.orig < second.orig then ratioInBand band second first
  else ratioInBand band first second

/-- The members that can constrain a ratio. -/
def bandEntries (original projected : Counts) : List BandEntry :=
  (original.keys.filter fun c => 0 < original.get c).map fun c =>
    ⟨original.get c, projected.get c⟩

/-- Every pair of members is within the band. -/
def respectsBand (original projected : Counts) (band : ℚ) : Bool :=
  let band := if band < 0 then 0 else band
  let items := bandEntries original projected
  if items.length ≤ 1 then true
  else items.Pairwise fun a b => pairInBand band a b

/-- The largest step up to `delta` that stays within the band. -/
def largestWithinBand (original baseline : Counts) (component : Component) (band : ℚ) :
    Nat → Option Nat
  | 0 => none
  | delta + 1 =>
    if respectsBand original (projectedServing baseline component (delta + 1)) band then
      some (delta + 1)
    else largestWithinBand original baseline component band delta

/-! ## Capacity recovery -/

variable (state : RatioState)

/-- The component serves fewer pods than the Instances it had. -/
def servingBelowAnchor (serving : Counts) (component : Component) : Bool :=
  let settled := wrap32 (state.current.get component - state.creating.get component)
  let original := state.original.get component
  let owed := if 0 < state.current.get component ∧ settled < original then settled else original
  serving.get component < owed

/-- The component's serving part of what it desires is not ahead of any deficient peer's. -/
def recoverySurgeAllowed (serving : Counts) (component : Component) : Bool :=
  let currentC := state.current.get component
  let desiredC := state.desired.get component
  let servingC := serving.get component
  if currentC ≤ 0 ∨ desiredC ≤ 0 ∨ servingC < 0 ∨ desiredC ≤ servingC ∨
      desiredC < wrap32 (servingC + 1) then
    false
  else if state.desired.keys.any fun c =>
      state.desired.get c ≤ 0 || state.current.get c ≤ 0 || serving.get c < 0 then
    false
  else
    state.desired.keys.all fun peer =>
      if peer = component ∨ !state.recoveryEligible.get peer then true
      else servingC * state.desired.get peer ≤ serving.get peer * desiredC

def recoveryBootstrapReason : String :=
  "capacity recovery bootstrap for zero-serving Component"

def recoveryAdvanceReason : String := "capacity recovery advances a lagging Component"

/-- One capacity-restoring step where the ordinary path rejects. -/
def recoverySurgeFallback (serving : Counts) (component : Component) (rejected : RatioDecision) :
    RatioDecision :=
  if !state.recoveryEligible.get component ∨ 0 < state.inFlightSurge.get component ∨
      !recoverySurgeAllowed state serving component then
    rejected
  else
    { allowedSurgeDelta := 1
      reason := if serving.get component = 0 then recoveryBootstrapReason
        else recoveryAdvanceReason }

/-! ## The decision -/

/-- Engine first, then decoder, then router, then any other member. -/
def ratioTextRank : Component → Nat
  | .engine => 0
  | .decoder => 1
  | .router => 2
  | .encoder => 3

/-- The reference counts as one ratio. -/
def referenceRatioText (reference : Counts) : String :=
  let comps := reference.keys.insertionSort fun a b =>
    ratioTextRank a < ratioTextRank b ∨ (ratioTextRank a = ratioTextRank b ∧ a ≤ b)
  ":".intercalate (comps.map fun c => toString (reference.get c))

def oneStepOutsideToleranceReason (component : Component) (servingAfter : Int)
    (reference : Counts) (tolerance : Int) : String :=
  component.text ++ " " ++ toString servingAfter ++ " of " ++
    toString (reference.get component) ++ " serving after the drain; no single step fits tolerance "
    ++ toString tolerance ++ " at " ++ referenceRatioText reference ++ "; admitting one"

/-- The answer for a drain. -/
def evaluateDrain (component : Component) (tolerance proposedDelta : Int) : RatioDecision :=
  let band := bandOf tolerance
  let baseline := state.baseline
  if outpacesPeerProgress state.progressReference state.newPods component band then
    { skewRejected := true
      reason := "drain would outpace peer new-revision rollout past tolerance" }
  else
    let projected := projectedServing baseline component proposedDelta
    if respectsBand state.original projected band then
      { allowedSurgeDelta := proposedDelta, reason := "drain within tolerance" }
    else
      -- One pod at a time where the band is narrower than a whole pod.
      let oneStepOpen : Bool :=
        state.inFlightUnavail.get component = 0 &&
          state.original.get component ≤ baseline.get component &&
          respectsBand state.original baseline band &&
          (1 ≤ projected.get component || state.original.get component = 1)
      if oneStepOpen && 1 ≤ projected.get component &&
          respectsBand state.original projected (band * 2) then
        { allowedSurgeDelta := proposedDelta
          reason :=
            "drain allowed by discrete-granularity tiebreaker (1 pod, rounding-error overshoot)" }
      else if oneStepOpen then
        { allowedSurgeDelta := proposedDelta
          outsideTolerance := true
          reason := oneStepOutsideToleranceReason component (projected.get component)
            state.original (max tolerance 0) }
      else
        { skewRejected := true
          reason := "drain would skew cross-Component serving ratio past tolerance" }

/-- The answer for a surge. -/
def evaluateAddition (component : Component) (tolerance proposedDelta : Int) : RatioDecision :=
  let band := bandOf tolerance
  let baseline := state.baseline
  if outpacesPeerProgress state.progressReference state.newPods component band then
    let held : RatioDecision :=
      { skewRejected := true
        reason := "surge would outpace peer new-revision rollout past tolerance" }
    if !servingBelowAnchor state baseline component then held
    else recoverySurgeFallback state baseline component held
  else
    match largestWithinBand state.original baseline component band proposedDelta.toNat with
    | some delta => { allowedSurgeDelta := delta, reason := "within tolerance" }
    | none =>
      if state.original.get component ≤ baseline.get component &&
          respectsBand state.original baseline band then
        { allowedSurgeDelta := 1
          reason := "surge allowed (minimal transient +1 on a balanced baseline; a surge " ++
            "cannot starve a peer)" }
      else
        recoverySurgeFallback state baseline component
          { skewRejected := true
            reason := "surge would skew cross-Component serving ratio past tolerance" }

/-- The part of a proposed step that the group's pacing allows. -/
def evaluateSurge (pacing : CoordinationPacing) (state : RatioState) (component : Component)
    (proposedDelta : Int) : RatioDecision :=
  if proposedDelta = 0 then { reason := "no surge requested" }
  else if pacing.type ≠ .ratioBalanced then
    { allowedSurgeDelta := proposedDelta, reason := "PerComponent pacing" }
  else if state.original.keys.length ≤ 1 then
    { allowedSurgeDelta := proposedDelta, reason := "single-component group" }
  else
    match pacing.ratioTolerancePercent with
    | none =>
      { allowedSurgeDelta := proposedDelta
        reason := "no ratio tolerance resolved; drift bound disabled" }
    | some tolerance =>
      if proposedDelta < 0 then evaluateDrain state component tolerance proposedDelta
      else evaluateAddition state component tolerance proposedDelta

end Ome.Coordination
