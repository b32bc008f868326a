/-
# Ome.Coordination.PairingTransition — a pair along a whole transition

Two gates guard a protocol transition.  The start-time gate (`pairingVerdict`)
judges an Instance that is about to leave its cohort on the rows' counts; the
drain-time gate of `coordination/pairing_drain.go` (`PairingDrainPicture.hold`)
judges the old pod of a surge on the pods in rotation.  This module models the
second gate, and the runs both guard: Instances that drain first, replacements
that enter rotation whenever they come up, and hand-overs of surges, in any order
on both sides.

* `hold_eq_none_iff`: what the drain-time gate lets through;
* `visitCohorts_keeps_pair`: what the start-time gate has checked when it admits a
  start without an escape;
* `transition_keeps_pair`: a pair serves in every state of a run, as long as no
  start leaves the target cohort itself;
* `targetStart_loses_pair`: the start-time gate does not simulate such a start, and
  it can take the last pair.
-/
import Ome.Coordination.Pairing
import Ome.Theory.Runs

namespace Ome.Coordination

open Ome.Theory Function List GoMap

set_option autoImplicit false

/-! ## The drain-time gate -/

/-- The cohorts of each Instance's serving pods, by component and Instance. -/
abbrev Instances := Component → GoMap String (List String)

/-- Instances with at least one pod that has a partner on the other side. -/
def pairableInstanceCount (instances : GoMap String (List String)) (other : GoMap String Int) :
    Int :=
  instances.keys.countP fun key => (instances.get key).any (pairsWithPeer other)

def withoutOneCohort (protos : List String) (proto : String) : List String := protos.erase proto

def anyPairsWithPeer (peerServing : GoMap String Int) (cohorts : List String) : Bool :=
  cohorts.any (pairsWithPeer peerServing)

/-- Why the drain-time gate keeps the old pods. -/
inductive DrainHold where
  | cannotPair (cohort : String) (component peer : Component) (leaving : List String)
  | belowFloor (cohort : String) (component peer : Component) (leaving : List String) (left : Int)
      (floor : PairFloor)
  | lastPair (cohort : String) (component : Component) (leaving : List String)
  deriving DecidableEq

/-- What the drain-time gate judges when old pods of `component` leave. -/
structure PairingDrainPicture where
  component : Component
  /-- The cohort the leaving pods are traded for. -/
  cohort : String
  serving : Serving
  after : Serving
  instances : Instances
  afterInstances : Instances
  leaving : List String
  floors : Component → PairFloor

namespace PairingDrainPicture

variable (d : PairingDrainPicture)

/-- The hold, or `none` when the old pods may leave. -/
def hold : Option DrainHold :=
  let peer := pairingPeer d.component
  if !pairsWithPeer (d.serving peer) d.cohort && anyPairsWithPeer (d.serving peer) d.leaving then
    some (.cannotPair d.cohort d.component peer d.leaving)
  else
    let floor := d.floors peer
    let before := pairableInstanceCount (d.instances peer) (d.serving d.component)
    let left := pairableInstanceCount (d.afterInstances peer) (d.after d.component)
    if floor.applies && left < floor.floor && left < before then
      some (.belowFloor d.cohort d.component peer d.leaving left floor)
    else if pairableServingPairExists d.after then none
    else some (.lastPair d.cohort d.component d.leaving)

/-- The old pods leave when the replacement pairs, or they did not pair
themselves, the peer keeps its floor and a pair remains. -/
theorem hold_eq_none_iff :
    d.hold = none ↔
      (pairsWithPeer (d.serving (pairingPeer d.component)) d.cohort = true ∨
        anyPairsWithPeer (d.serving (pairingPeer d.component)) d.leaving = false) ∧
      ((d.floors (pairingPeer d.component)).applies = true →
        pairableInstanceCount (d.afterInstances (pairingPeer d.component)) (d.after d.component) <
          (d.floors (pairingPeer d.component)).floor →
        pairableInstanceCount (d.instances (pairingPeer d.component)) (d.serving d.component) ≤
          pairableInstanceCount (d.afterInstances (pairingPeer d.component))
            (d.after d.component)) ∧
      pairableServingPairExists d.after = true := by
  simp only [hold, ite_eq_iff, reduceCtorEq, and_false, false_or, or_false, and_true,
    Bool.and_eq_true, Bool.not_eq_true', decide_eq_true_eq, not_and, not_lt, Bool.not_eq_true]
  constructor
  · rintro ⟨partner, floor, pair⟩
    refine ⟨?_, fun applies short => floor ⟨applies, short⟩, pair⟩
    cases pairs : pairsWithPeer (d.serving (pairingPeer d.component)) d.cohort with
    | true => exact .inl rfl
    | false => exact .inr (partner pairs)
  · rintro ⟨partner, floor, pair⟩
    refine ⟨fun lonely => ?_, fun h => floor h.1 h.2, pair⟩
    rcases partner with pairs | idle
    · rw [pairs] at lonely
      cases lonely
    · exact idle

end PairingDrainPicture

/-- The picture of one old pod of cohort `leaves` of Instance `key` leaving. -/
def handOverPicture (component : Component) (cohort : String) (serving : Serving)
    (instances : Instances) (floors : Component → PairFloor) (key leaves : String) :
    PairingDrainPicture where
  component := component
  cohort := cohort
  serving := serving
  after := update serving component
    ((serving component).set leaves ((serving component).get leaves - 1))
  instances := instances
  afterInstances := update instances component
    ((instances component).set key (withoutOneCohort ((instances component).get key) leaves))
  leaving := [leaves]
  floors := floors

/-! ## Runs -/

/-- A serving pod in rotation: its Instance and its cohort. -/
structure RoutedPod where
  key : String
  proto : String
  deriving DecidableEq

/-- The pods of each component in rotation. -/
abbrev Rotation := Component → List RoutedPod

namespace Rotation

variable (r : Rotation)

/-- The serving counts both gates read. -/
def serving : Serving := fun side => tally ((r side).map RoutedPod.proto)

/-- Counts of the rotation under some iteration order. -/
def Shows (serving : Serving) : Prop :=
  ∀ side proto, (serving side).get proto = (((r side).map RoutedPod.proto).count proto : Int)

/-- The cohorts of each Instance's pods, in some order. -/
def Groups (instances : Instances) : Prop :=
  ∀ side key, ((instances side).get key).Perm
    (((r side).filter fun pod => pod.key = key).map RoutedPod.proto)

/-- A pod of `side` leaves rotation. -/
def leave (side : Component) (pod : RoutedPod) : Rotation :=
  update r side ((r side).erase pod)

/-- A pod of `side` enters rotation. -/
def enter (side : Component) (pod : RoutedPod) : Rotation :=
  update r side (r side ++ [pod])

end Rotation

/-- The escapes that accept an unpaired window. -/
def PairingReason.escapes : PairingReason → Bool
  | .mutualWall .. | .lastHop .. => true
  | _ => false

/-- What happens to a rotation in one move. -/
inductive RotationEvent where
  | start (side : Component) (proto : String)
  | entry (side : Component)
  | handOver (side : Component) (proto : String)
  deriving DecidableEq

/-- The event is not a start that leaves the cohort it is going to. -/
def RotationEvent.leavesOld (target : String) : RotationEvent → Bool
  | .start _ proto => proto ≠ target
  | _ => true

/-- One move of a transition to `target`, in which each side surges or drains
first.  A start is judged on the rows by `pairingVerdict` and takes no escape; a
replacement enters whenever it comes up; a hand-over is judged by `hold`, with the
replacement of the Instance serving. -/
inductive TransitionMove (target : String) (strategy : Component → UpdateStrategy) :
    RotationEvent → Rotation → Rotation → Prop where
  | drainFirst {r : Rotation} {side : Component} {pod : RoutedPod} (p : PairingPicture)
      (inFlightUnavail : Int) (attemptOpen : Bool) :
      side ∈ pairingComponents → strategy side = .recreatePod → pod ∈ r side →
      p.target = target → p.strategy = strategy → r.Shows p.serving → 0 ≤ inFlightUnavail →
      (p.pairingVerdict ⟨side, some pod.proto, 0, inFlightUnavail, attemptOpen⟩).allowed = true →
      (p.pairingVerdict
        ⟨side, some pod.proto, 0, inFlightUnavail, attemptOpen⟩).reason.escapes = false →
      TransitionMove target strategy (.start side pod.proto) r (r.leave side pod)
  | entry {r : Rotation} {side : Component} {pod : RoutedPod} :
      side ∈ pairingComponents → pod.proto = target →
      TransitionMove target strategy (.entry side) r (r.enter side pod)
  | handOver {r : Rotation} {side : Component} {pod replacement : RoutedPod} (serving : Serving)
      (instances : Instances) (floors : Component → PairFloor) :
      side ∈ pairingComponents → strategy side = .surgeThenDrain → pod ∈ r side →
      replacement ∈ (r side).erase pod → replacement.key = pod.key →
      replacement.proto = target → r.Shows serving → r.Groups instances →
      (handOverPicture side target serving instances floors pod.key pod.proto).hold = none →
      TransitionMove target strategy (.handOver side pod.proto) r (r.leave side pod)

/-! ## Counts after a move -/

namespace Rotation

variable {r : Rotation}

theorem shows_serving (r : Rotation) : r.Shows r.serving :=
  fun _ _ => get_tally _ _

theorem Shows.pos_iff {serving : Serving} (reads : r.Shows serving) (side : Component)
    (proto : String) : 0 < (serving side).get proto ↔ ∃ pod ∈ r side, pod.proto = proto := by
  rw [reads, Int.natCast_pos, count_pos_iff, mem_map]

/-- Two readings of one rotation see the same pair. -/
theorem Shows.pair_eq {serving other : Serving} (reads : r.Shows serving)
    (otherReads : r.Shows other) (pair : pairableServingPairExists serving = true) :
    pairableServingPairExists other = true := by
  refine pairExists_mono (fun side proto serves => ?_) pair
  rw [otherReads.pos_iff]
  exact (reads.pos_iff side proto).mp serves

theorem leave_same (side : Component) (pod : RoutedPod) :
    r.leave side pod side = (r side).erase pod :=
  update_self _ _ _

theorem leave_other {side other : Component} (pod : RoutedPod) (ne : other ≠ side) :
    r.leave side pod other = r other :=
  update_of_ne ne _ _

theorem Shows.leave {serving : Serving} (reads : r.Shows serving) {side : Component}
    {pod : RoutedPod} (member : pod ∈ r side) :
    (r.leave side pod).Shows (update serving side
      ((serving side).set pod.proto ((serving side).get pod.proto - 1))) := by
  intro other proto
  by_cases same : other = side
  · subst same
    have split : ((r other).map RoutedPod.proto).count proto =
        (pod.proto :: ((r other).erase pod).map RoutedPod.proto).count proto :=
      ((perm_cons_erase member).map RoutedPod.proto).count_eq proto
    rw [count_cons] at split
    rw [update_self, leave_same, get_set, reads, reads]
    by_cases leaves : proto = pod.proto
    · rw [if_pos leaves, ← leaves]
      rw [if_pos (by simp [leaves])] at split
      omega
    · rw [if_neg leaves]
      rw [if_neg (by simpa using Ne.symm leaves)] at split
      omega
  · rw [update_of_ne same, leave_other pod same]
    exact reads other proto

theorem Shows.enter_pos {serving : Serving} (reads : r.Shows serving) {side other : Component}
    {pod : RoutedPod} {proto : String} (serves : 0 < (serving other).get proto) :
    0 < ((r.enter side pod).serving other).get proto := by
  rw [(shows_serving _).pos_iff]
  obtain ⟨served, member, rfl⟩ := (reads.pos_iff other proto).mp serves
  refine ⟨served, ?_, rfl⟩
  by_cases same : other = side
  · subst same
    rw [enter, update_self]
    exact mem_append_left _ member
  · rw [enter, update_of_ne same]
    exact member

end Rotation

/-! ## What an admitted start has checked -/

namespace PairingPicture

variable {p : PairingPicture} {call : PairingCall} {proto : String}

/-- A start admitted without an escape keeps a pair in the picture that charges
its own cohort.  The loop ends with every charged cohort judged free, or at the
dead end, where only the cohort of the start is charged. -/
theorem visitCohorts_keeps_pair (leaves : call.fromProto = some proto) (old : proto ≠ p.target)
    (serves : 0 < (p.serving call.component).get proto) (charge : loss call proto ≠ 0) :
    ∀ cohorts : List String, proto ∈ cohorts →
      (p.visitCohorts call cohorts).allowed = true →
      (p.visitCohorts call cohorts).reason.escapes = false →
      pairableServingPairExists (p.charged call proto) = true
  | [], member, _, _ => absurd member not_mem_nil
  | k :: rest, member, allowed, plain => by
    -- a cohort that is skipped or free hands over to the rest
    have later (skipped : k ≠ proto) (next : p.visitCohorts call (k :: rest) =
        p.visitCohorts call rest) : pairableServingPairExists (p.charged call proto) = true := by
      rw [next] at allowed plain
      exact visitCohorts_keeps_pair leaves old serves charge rest
        ((mem_cons.mp member).resolve_left (Ne.symm skipped)) allowed plain
    by_cases idle : k = p.target ∨ (p.serving call.component).get k ≤ 0
    · refine later ?_ (by rw [visitCohorts, if_pos idle])
      rintro rfl
      rcases idle with same | none
      · exact old same
      · omega
    by_cases spared : loss call k = 0
    · refine later ?_ (by rw [visitCohorts, if_neg idle, if_pos spared])
      rintro rfl
      exact charge spared
    have visit : p.visitCohorts call (k :: rest) = p.conclude call (p.start call.component k)
        (p.visitCohorts call rest) (p.judge (p.start call.component k) (p.charged call k)) := by
      rw [visitCohorts, if_neg idle, if_neg spared]
    have judged := p.judge_judged (p.start call.component k) (p.charged call k)
    -- a held cohort is let go only at the dead end, where it is the one of the start
    have atDeadEnd (pair : pairableServingPairExists (p.charged call k) = true)
        {reason : PairingReason}
        (held : p.visitCohorts call (k :: rest) =
          p.heldVerdict call (p.start call.component k) reason) :
        pairableServingPairExists (p.charged call proto) = true := by
      rw [held, heldVerdict] at allowed
      split at allowed
      · rename_i quiet
        have same := eq_of_settled (Bool.and_eq_true_iff.mp quiet).1 leaves spared
        exact same ▸ pair
      · cases allowed
    revert visit judged
    generalize p.judge (p.start call.component k) (p.charged call k) = answer
    intro visit judged
    cases judged with
    | free pair =>
      by_cases same : k = proto
      · exact same ▸ pair
      · exact later same visit
    | floor _ pair | firstMover _ pair => exact atDeadEnd pair visit
    | wall _ _ | lastHop _ _ =>
      rw [visit] at plain
      cases plain
    | surgeWait _ _ _ | noPair _ _ _ =>
      rw [visit] at allowed
      cases allowed

/-- What the gate charges for a drain-first start is at least what leaves. -/
theorem charged_pos_of_drainFirst (drains : (p.mechanics call.component).credit = 0)
    (surge : call.inFlightSurge = 0) (charge : 1 ≤ loss call proto) {side : Component}
    {k : String} (serves : 0 < ((p.charged call proto) side).get k) :
    0 < (update p.serving call.component ((p.serving call.component).set proto
      ((p.serving call.component).get proto - 1)) side).get k := by
  revert serves
  by_cases same : side = call.component
  · subst same
    simp only [charged, update_self, get_add]
    simp only [drains, surge, add_zero, ite_self, get_set]
    split
    · omega
    · exact id
  · rw [charged, update_of_ne same, update_of_ne same]
    exact id

end PairingPicture

/-! ## Every state of a run -/

/-- Every cohort in rotation is named, and a pair serves. -/
structure Routable (r : Rotation) : Prop where
  named : ∀ side, ∀ pod ∈ r side, pod.proto ≠ ""
  pair : pairableServingPairExists r.serving = true

theorem leave_named {r : Rotation} (named : ∀ side, ∀ pod ∈ r side, pod.proto ≠ "")
    (side : Component) (left : RoutedPod) :
    ∀ other, ∀ pod ∈ r.leave side left other, pod.proto ≠ "" := by
  refine (forall_update_iff r fun _ pods => ∀ pod ∈ pods, pod.proto ≠ "").mpr ⟨?_, ?_⟩
  · exact fun pod member => named side pod (mem_of_mem_erase member)
  · exact fun other _ => named other

/-- A move keeps a pair unless it is a start that leaves the target cohort. -/
theorem TransitionMove.keeps_routable {target : String} {strategy : Component → UpdateStrategy}
    (declared : target ≠ "") {event : RotationEvent} {r r' : Rotation}
    (move : TransitionMove target strategy event r r') (old : event.leavesOld target = true)
    (routable : Routable r) : Routable r' := by
  cases move with
  | @drainFirst _ side pod p inFlight attemptOpen pairing drains member goal mechanism reads
      charges allowed plain =>
      refine ⟨leave_named routable.named side pod, ?_⟩
      subst goal mechanism
      have old : pod.proto ≠ p.target := of_decide_eq_true old
      have serves : 0 < (p.serving side).get pod.proto :=
        (reads.pos_iff side _).mpr ⟨pod, member, rfl⟩
      have moving : p.transition = true := by
        simp only [PairingPicture.transition, any_eq_true, Bool.and_eq_true,
          decide_eq_true_eq]
        exact ⟨side, pairing, pod.proto, mem_keys_of_pos _ serves,
          ⟨serves, routable.named side pod member⟩, old⟩
      have pair := (Rotation.shows_serving r).pair_eq reads routable.pair
      have loss : PairingPicture.loss ⟨side, some pod.proto, 0, inFlight, attemptOpen⟩ pod.proto =
          inFlight + 1 := by
        simp [PairingPicture.loss]
      simp only [PairingPicture.pairingVerdict, PairingPicture.pairingVerdictIn, pairing, declared,
        moving, pair, not_true_eq_false, if_false, Bool.not_true, Bool.false_eq_true]
        at allowed plain
      have kept := PairingPicture.visitCohorts_keeps_pair rfl old serves (by omega) _
        (mem_keys_of_pos _ serves) allowed plain
      have credit : (p.mechanics side).credit = 0 := by
        rw [PairingPicture.mechanics, drains]
        rfl
      refine (reads.leave member).pair_eq (Rotation.shows_serving _) ?_
      exact pairExists_mono (fun _ _ => PairingPicture.charged_pos_of_drainFirst credit rfl
        (by omega)) kept
  | @entry _ side pod pairing fresh =>
    refine ⟨?_, pairExists_mono (fun _ _ => (Rotation.shows_serving r).enter_pos) routable.pair⟩
    refine (forall_update_iff r fun _ pods => ∀ pod ∈ pods, pod.proto ≠ "").mpr ⟨?_, ?_⟩
    · rw [forall_mem_append, forall_mem_singleton]
      exact ⟨routable.named side, fresh ▸ declared⟩
    · exact fun other _ => routable.named other
  | @handOver _ side pod _ serving instances floors pairing surges member _ _ _ reads _ free =>
    refine ⟨leave_named routable.named side pod, ?_⟩
    have kept := ((PairingDrainPicture.hold_eq_none_iff _).mp free).2.2
    exact (reads.leave member).pair_eq (Rotation.shows_serving _) kept

/-- **A transition keeps a routable pair**, whatever the order of both sides'
starts, entries and hand-overs, when no drain-first start leaves the target
cohort and neither escape is taken. -/
theorem transition_keeps_pair {target : String} {strategy : Component → UpdateStrategy}
    (declared : target ≠ "") {r r' : Rotation}
    (run : Relation.ReflTransGen (fun s s' => ∃ event : RotationEvent,
      event.leavesOld target = true ∧ TransitionMove target strategy event s s') r r')
    (named : ∀ side, ∀ pod ∈ r side, pod.proto ≠ "")
    (pair : pairableServingPairExists r.serving = true) :
    pairableServingPairExists r'.serving = true := by
  have kept (s s' : Rotation) (routable : Routable s) (move : ∃ event : RotationEvent,
      event.leavesOld target = true ∧ TransitionMove target strategy event s s') : Routable s' := by
    obtain ⟨event, old, step⟩ := move
    exact step.keeps_routable declared old routable
  exact (Runs.invariant_of_run kept run ⟨named, pair⟩).pair

/-! ## A roll half way -/

/-- The decoders have moved, one of the two engines has. -/
def halfMoved : Rotation
  | .engine => [⟨"0", "new"⟩, ⟨"1", "old"⟩]
  | .decoder => [⟨"0", "new"⟩, ⟨"1", "new"⟩]
  | _ => []

theorem halfMoved_named (side : Component) : ∀ pod ∈ halfMoved side, pod.proto ≠ "" := by
  cases side <;> decide

/-- What the start-time gate reads, every side draining first. -/
def halfMovedPicture : PairingPicture :=
  .ofCohorts "new" (fun side => (halfMoved side).map RoutedPod.proto) (fun _ => .recreatePod)
    (fun _ => { known := true, floor := 1 })

theorem halfMoved_start (pod : RoutedPod) (member : pod ∈ halfMoved .engine)
    (allowed : (halfMovedPicture.pairingVerdict ⟨.engine, some pod.proto, 0, 0, false⟩) =
      ⟨true, .none⟩) :
    TransitionMove "new" (fun _ => .recreatePod) (.start .engine pod.proto) halfMoved
      (halfMoved.leave .engine pod) :=
  .drainFirst halfMovedPicture 0 false (by decide) rfl member rfl rfl
    (Rotation.shows_serving halfMoved) le_rfl (by rw [allowed]) (by rw [allowed]; rfl)

/-- The engine still on the old cohort moves, and its replacement comes up. -/
theorem halfMoved_keeps_pair :
    pairableServingPairExists
      ((halfMoved.leave .engine ⟨"1", "old"⟩).enter .engine ⟨"1", "new"⟩).serving = true := by
  have declared : "new" ≠ "" := by decide
  have leaves := halfMoved_start ⟨"1", "old"⟩ (by decide) (by decide)
  have enters : TransitionMove "new" (fun _ => .recreatePod) (.entry .engine)
      (halfMoved.leave .engine ⟨"1", "old"⟩)
      ((halfMoved.leave .engine ⟨"1", "old"⟩).enter .engine ⟨"1", "new"⟩) :=
    .entry (by decide) rfl
  exact transition_keeps_pair declared
    (.tail (.single ⟨_, by decide, leaves⟩) ⟨_, by decide, enters⟩) halfMoved_named (by decide)

/-- **A start out of the target cohort is not simulated.**  The engine already on
the new cohort starts again, as after a second change that keeps the protocol.
The gate visits only the old cohort, which this start does not leave, and admits
it; the engine left in rotation pairs with no decoder.  Neither side is at a wall
or at its last hop. -/
theorem targetStart_loses_pair :
    (∀ side, ∀ pod ∈ halfMoved side, pod.proto ≠ "") ∧
    pairableServingPairExists halfMoved.serving = true ∧
    mutualPairingWall halfMoved.serving .engine .decoder "new" = false ∧
    lastHopEscape halfMoved.serving .engine .decoder "new" = false ∧
    ∃ r, Relation.ReflTransGen (fun s s' => ∃ event : RotationEvent,
        TransitionMove "new" (fun _ => .recreatePod) event s s') halfMoved r ∧
      pairableServingPairExists r.serving = false :=
  ⟨halfMoved_named, by decide, by decide, by decide, halfMoved.leave .engine ⟨"0", "new"⟩,
    .single ⟨_, halfMoved_start _ (by decide) (by decide)⟩, by decide⟩

end Ome.Coordination
