/-
# Ome.Coordination.Sequential — a group whose members roll one after the other

Model of the two sides of a `Sequential` group: `sequentialTransition`, which computes
the phase that the group's status reports, and `CheckSequential`, the gate that a
Component's replica asks before it starts.  Both read the members' observations, the
finish that the status records and the clock.

An absent Component (the empty string in the source) is `none`.  An instant is a
number of nanoseconds, and the zero `time.Time` is 0.  The text of a duration is a
parameter.
-/
import Ome.Component
import Ome.Theory.GoMap

namespace Ome.Coordination

open Ome.Theory

set_option autoImplicit false

/-! ## What both sides read -/

/-- An instant; 0 is the zero `time.Time`. -/
abbrev Time := Int

/-- `Time.Sub`: the difference, within the range of a duration. -/
def timeSub (a b : Time) : Int := max (-2 ^ 63) (min (2 ^ 63 - 1) (a - b))

/-- What is observed of one Component. -/
structure ComponentObservation where
  totalPods : Int := 0
  newRevisionPods : Int := 0
  newRevisionReadyPods : Int := 0
  rolloutInFlight : Bool := false
  partition : Int := 0
  atDesiredShape : Bool := false
  readyAt : Time := 0
  notReady : Bool := false
  failed : Bool := false
  deriving DecidableEq

instance : Inhabited ComponentObservation := ⟨{}⟩

abbrev Observations := GoMap Component ComponentObservation

inductive CoordinationPolicy where
  | blueGreen
  | independent
  | rollingUpdate
  | sequential
  deriving DecidableEq

structure ResolvedGroup where
  name : String
  policy : CoordinationPolicy
  order : List Component
  soak : Int

/-- The instant at which a member's roll first read done. -/
structure MemberFinish where
  component : Option Component := none
  finishedAt : Time := 0
  deriving DecidableEq

/-- No finish is recorded. -/
def MemberFinish.IsZero (f : MemberFinish) : Prop := f.component = none ∨ f.finishedAt = 0

instance (f : MemberFinish) : Decidable f.IsZero := inferInstanceAs (Decidable (_ ∨ _))

/-- A finish in the status.  The status is only written with one that has an instant. -/
structure RecordedFinish where
  component : Component
  finishedAt : Time
  recorded : finishedAt ≠ 0

/-- The record that the status carries for a finish. -/
def MemberFinish.record (f : MemberFinish) : Option RecordedFinish :=
  match f.component with
  | none => none
  | some component =>
    if recorded : f.finishedAt = 0 then none else some ⟨component, f.finishedAt, recorded⟩

structure GroupStatus where
  name : String
  memberFinished : Option RecordedFinish

/-- The groups of the status, a list with the name as its key. -/
structure RolloutCoordinationStatus where
  groups : List GroupStatus
  distinct : (groups.map (·.name)).Nodup

namespace RolloutCoordinationStatus

variable (status : RolloutCoordinationStatus)

/-- The finish that the group's entry records. -/
def previousMemberFinish (groupName : String) : MemberFinish :=
  match status.groups.findSome? fun gs =>
      if gs.name = groupName then gs.memberFinished else none with
  | none => {}
  | some f => ⟨some f.component, f.finishedAt⟩

/-- The instant at which the group's entry records this member done. -/
def recordedMemberFinishAt (groupName : String) (prev : Component) : Time :=
  match status.groups.findSome? fun gs =>
      if gs.name = groupName then gs.memberFinished.filter (·.component = prev) else none with
  | none => 0
  | some f => f.finishedAt

end RolloutCoordinationStatus

/-- The Component's roll is not done: in flight, and not at its staged shape. -/
def ComponentObservation.Rolling (comp : ComponentObservation) : Prop :=
  comp.rolloutInFlight = true ∧ comp.atDesiredShape = false

instance (comp : ComponentObservation) : Decidable comp.Rolling :=
  inferInstanceAs (Decidable (_ ∧ _))

variable (order : List Component)

/-- The first member in order that is not done. -/
def activeSequentialComponent (components : Observations) : Option Component :=
  order.find? fun c => c ∈ components.keys ∧ (components.get c).Rolling

/-- The member right before `c` in the order. -/
def previousCompletedComponent (c : Component) : Option Component :=
  match order.idxOf? c with
  | none => none
  | some 0 => none
  | some (i + 1) => order[i]?

/-! ## The group's phase -/

structure GroupObservation where
  group : ResolvedGroup
  components : Observations
  now : Time
  memberFinished : MemberFinish

inductive CoordinationPhase where
  | idle
  | surging
  | waiting
  | shifting
  | scalingDown
  | staged
  | failed
  deriving DecidableEq

/-- The composite phase: a base phase, one of a named Component, or one of the two of a
Sequential group. -/
inductive CompositePhase where
  | base (phase : CoordinationPhase)
  | ofComponent (c : Component) (phase : CoordinationPhase)
  | sequentialAwaiting
  | sequentialFailed
  deriving DecidableEq

structure GroupTransition where
  phase : CoordinationPhase
  compositePhase : CompositePhase
  currentComponent : Option Component := none
  previousComponent : Option Component := none
  message : String
  memberFinished : MemberFinish := {}
  memberNotReady : Option Component := none

/-- The phase of Components that roll together, with its message. -/
def blueGreenTransition (components : List ComponentObservation) : CoordinationPhase × String :=
  if components.any (·.failed) then
    (.failed, "one or more Components in the BlueGreen group failed")
  else if !components.any (·.rolloutInFlight) then (.idle, "no rollout in flight")
  else if components.any (·.newRevisionPods = 0) then (.surging, "creating new-revision pods")
  else if components.any fun c => c.newRevisionReadyPods < c.newRevisionPods then
    (.waiting, "waiting for new-revision pods to be Ready")
  else if components.all (·.atDesiredShape) && components.any (0 < ·.partition) then
    (.staged, "converged to partitioned target; holding old-revision pods by design")
  else if components.any fun c => c.newRevisionPods < c.totalPods then
    (.shifting, "shifting traffic; old-revision pods still serving")
  else (.scalingDown, "scaling down old-revision pods")

/-- The finish that the status already holds, unless its member rolls again or has left
the group. -/
def keptMemberFinish (obs : GroupObservation) : MemberFinish :=
  match obs.memberFinished.component with
  | none => obs.memberFinished
  | some c =>
    if ¬ obs.memberFinished.IsZero ∧
        (c ∉ obs.components.keys ∨ (obs.components.get c).Rolling) then {}
    else obs.memberFinished

/-- The finish that the status carries after this pass. -/
def sequentialMemberFinish (obs : GroupObservation) (prev : Option Component) : MemberFinish :=
  if obs.group.soak ≤ 0 then {}
  else
    match prev with
    | none => keptMemberFinish obs
    | some p =>
      if (keptMemberFinish obs).component = some p then keptMemberFinish obs
      else
        let readyAt := (obs.components.get p).readyAt
        ⟨some p, if readyAt = 0 then obs.now else readyAt⟩

/-- The number of members at the head of the order that are done. -/
def completedSequentialComponents (components : Observations) : Nat :=
  (order.takeWhile fun c => c ∈ components.keys ∧ ¬ (components.get c).Rolling).length

section Phase

variable (durationText : Int → String)

/-- The group waits before it starts `c`: the finished member is not Ready, or the window
since its finish is still running. -/
def soakTransition (obs : GroupObservation) (c : Component) (prev : Component)
    (finished : MemberFinish) : Option GroupTransition :=
  let elapsed := timeSub obs.now finished.finishedAt
  if (obs.components.get prev).notReady then
    some
      { phase := .idle
        compositePhase := .sequentialAwaiting
        currentComponent := some c
        previousComponent := some prev
        message := "Sequential soak: " ++ prev.text ++ " not Ready; " ++
          if elapsed < obs.group.soak then
            durationText (obs.group.soak - elapsed) ++ " remaining before " ++ c.text ++
              " starts, once " ++ prev.text ++ " is Ready"
          else c.text ++ " starts once " ++ prev.text ++ " is Ready"
        memberFinished := finished
        memberNotReady := some prev }
  else if elapsed < obs.group.soak then
    some
      { phase := .idle
        compositePhase := .sequentialAwaiting
        currentComponent := some c
        previousComponent := some prev
        message := "Sequential soak: " ++ durationText (obs.group.soak - elapsed) ++
          " remaining before " ++ c.text ++ " starts"
        memberFinished := finished }
  else none

/-- The phase of the group while `c` is the active member. -/
def activeTransition (obs : GroupObservation) (c : Component) : GroupTransition :=
  let prev := previousCompletedComponent obs.group.order c
  let finished := sequentialMemberFinish obs prev
  let waits :=
    match prev with
    | some p =>
      if 0 < obs.group.soak ∧ finished.component = some p then
        soakTransition durationText obs c p finished
      else none
    | none => none
  match waits with
  | some transition => transition
  | none =>
    let sub := blueGreenTransition [obs.components.get c]
    { phase := sub.1
      compositePhase := .ofComponent c sub.1
      currentComponent := some c
      previousComponent := prev
      message := sub.2
      memberFinished := finished }

/-- The phase of the group while no member rolls. -/
def restingTransition (obs : GroupObservation) : GroupTransition :=
  let completed := completedSequentialComponents obs.group.order obs.components
  match obs.group.order[completed]? with
  | none =>
    { phase := .idle
      compositePhase := .base .idle
      message := "Sequential group complete"
      memberFinished := sequentialMemberFinish obs none }
  | some next =>
    if completed = 0 then
      { phase := .idle
        compositePhase := .base .idle
        message := "Sequential group awaiting first Component spec bump"
        memberFinished := sequentialMemberFinish obs none }
    else
      let prev := obs.group.order[completed - 1]?
      { phase := .idle
        compositePhase := .sequentialAwaiting
        currentComponent := some next
        previousComponent := prev
        message := "Sequential group in soak window between Components"
        memberFinished := sequentialMemberFinish obs prev }

def sequentialTransition (obs : GroupObservation) : GroupTransition :=
  match obs.group.order.find? fun c =>
      c ∈ obs.components.keys ∧ (obs.components.get c).failed with
  | some c =>
    { phase := .failed
      compositePhase := .sequentialFailed
      currentComponent := some c
      previousComponent := previousCompletedComponent obs.group.order c
      message := "Sequential group blocked by Failed Component: " ++ c.text
      memberFinished := sequentialMemberFinish obs none }
  | none =>
    match activeSequentialComponent obs.group.order obs.components with
    | some c => activeTransition durationText obs c
    | none => restingTransition obs

end Phase

/-! ## The gate -/

/-- What a Component's gate reads. -/
structure GateContext where
  shortCircuit : Option String
  group : ResolvedGroup
  component : Component
  observations : Except String Observations
  status : RolloutCoordinationStatus
  now : Time

/-- The member right before `c` in the order, once its roll is done. -/
def previousCompletedComponentForGate (observations : Observations) (c : Component) :
    Option Component :=
  match order.idxOf? c with
  | none => none
  | some 0 => none
  | some (i + 1) =>
    match order[i]? with
    | none => none
    | some prev =>
      if prev ∈ observations.keys ∧ (observations.get prev).Rolling then none else some prev

/-- The instant that the gate measures the wait after a member from: the recorded finish,
or else the member's Ready transition. -/
def gateClock (ctx : GateContext) (observations : Observations) (prev : Component) : Time :=
  let completed := ctx.status.recordedMemberFinishAt ctx.group.name prev
  if completed = 0 then (observations.get prev).readyAt else completed

section Gate

variable (durationText : Int → String)

/-- The reason for which the active Component is held after `prev`, if it is. -/
def soakHold (ctx : GateContext) (observations : Observations) (prev : Component) :
    Option String :=
  let completed := gateClock ctx observations prev
  if completed = 0 then none
  else if (observations.get prev).notReady then
    some ("Sequential.Soak: " ++ ctx.component.text ++ " held while " ++ prev.text ++
      " is not Ready; it starts once " ++ prev.text ++ " is Ready and the " ++
      durationText ctx.group.soak ++ " soak after " ++ prev.text ++ " has elapsed")
  else if timeSub ctx.now completed < ctx.group.soak then
    some ("Sequential.Soak: " ++ ctx.component.text ++ " waiting out the " ++
      durationText ctx.group.soak ++ " soak after " ++ prev.text)
  else none

/-- The gate's answer, with its reason. -/
def checkSequential (ctx : GateContext) : Bool × String :=
  match ctx.shortCircuit with
  | some reason => (true, reason)
  | none =>
    if ctx.group.policy ≠ .sequential then (true, "not Sequential pacing")
    else if ctx.group.order.length = 0 then (true, "Sequential group missing Order")
    else
      match ctx.observations with
      | .error err =>
        (false, "cannot read Sequential group IR status, failing closed: " ++ err)
      | .ok observations =>
        match activeSequentialComponent ctx.group.order observations with
        | none => (true, "Sequential group idle")
        | some active =>
          if active ≠ ctx.component then (false, "Sequential waiting on " ++ active.text)
          else
            let held :=
              if 0 < ctx.group.soak then
                match previousCompletedComponentForGate ctx.group.order observations
                    ctx.component with
                | some prev => soakHold durationText ctx observations prev
                | none => none
              else none
            match held with
            | some reason => (false, reason)
            | none => (true, "Sequential active Component")

end Gate

end Ome.Coordination
