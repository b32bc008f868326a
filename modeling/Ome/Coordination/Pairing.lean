/-
# Ome.Coordination.Pairing — the pair-floor gate of a protocol transition

The model of `coordination/pairing.go` and `pairing_floor.go` from the picture of
serving Instances on: which cohorts can serve a request together
(`pairableServingPairExists`), the floors of pairable Instances
(`startBreaksPairFloor`), the escapes (`mutualPairingWall`, `lastHopEscape`), the
answer to one simulated start (`judge`), the start let through when every start
is held (`deadEndMover`), and the gate itself (`pairingVerdict`).

A picture holds the serving counts as maps with an iteration order, and the gate
visits the acting side's cohorts in that order, as the source's loop does.  A
count is a number of status rows, so its sums are plain integers here.  A reason
is a value that carries what its text names; the texts are left out.

* `pairExists_iff`: a pair exists when some cohort of a side and some cohort of
  its peer serve and match, whichever side is asked from;
* `judge_judged`: the outcomes of `judge`, each with what led to it;
* `mem_candidates` and `bestHeld_exists`: what a dead end chooses from, and that
  it chooses a held start;
* `pairingVerdict_any_order`: the order of the visits does not change the verdict.
-/
import Ome.Coordination.BatchStep
import Ome.Theory.GoMap

namespace Ome.Coordination

open Ome.Theory List Function

set_option autoImplicit false

variable {side : Component}

/-! ## Cohorts -/

/-- Serving Instances by component and cohort protocol. -/
abbrev Serving := Component → GoMap String Int

def pairingComponents : List Component := [.engine, .decoder]

theorem mem_pairingComponents : side ∈ pairingComponents ↔ side = .engine ∨ side = .decoder := by
  simp [pairingComponents]

theorem pairingPeer_mem (side : Component) : pairingPeer side ∈ pairingComponents := by
  cases side <;> decide

theorem pairingPeer_pairingPeer (pairing : side ∈ pairingComponents) :
    pairingPeer (pairingPeer side) = side := by
  rcases mem_pairingComponents.mp pairing with rfl | rfl <;> rfl

/-- Two cohorts pair when their protocols are equal or either is empty. -/
def pairable (p q : String) : Bool := p == "" || q == "" || p == q

def pairsWithPeer (peerServing : GoMap String Int) (proto : String) : Bool :=
  peerServing.keys.any fun p => 0 < peerServing.get p && pairable p proto

def pairableServingPairExists (serving : Serving) : Bool :=
  (serving .engine).keys.any fun pe =>
    0 < (serving .engine).get pe && (serving .decoder).keys.any fun pd =>
      0 < (serving .decoder).get pd && pairable pe pd

def totalServing (byProto : GoMap String Int) : Int := byProto.total

/-- Both sides are down to one serving Instance and neither serves the target. -/
def mutualPairingWall (serving : Serving) (component peer : Component) (target : String) : Bool :=
  if 0 < (serving component).get target || 0 < (serving peer).get target then false
  else totalServing (serving component) ≤ 1 && totalServing (serving peer) ≤ 1

/-- The acting side is down to one serving Instance and the peer serves the target. -/
def lastHopEscape (serving : Serving) (component peer : Component) (target : String) : Bool :=
  totalServing (serving component) ≤ 1 && 0 < (serving peer).get target

/-! ## Floors -/

/-- The pairable floor of one side. -/
structure PairFloor where
  known : Bool := false
  floor : Int := 0
  deriving DecidableEq

namespace PairFloor

/-- A floor of one is the one pair the gate always protects. -/
def applies (f : PairFloor) : Bool := f.known && 2 ≤ f.floor

end PairFloor

/-- Serving Instances of a side whose cohort has a partner on the other side. -/
def pairableCohortCount (side other : GoMap String Int) : Int :=
  (side.keys.map fun proto =>
    if 0 < side.get proto && pairsWithPeer other proto then side.get proto else 0).sum

/-! ## Starts -/

inductive UpdateStrategy where
  | surgeThenDrain
  | recreatePod
  | inPlaceIfPossible
  | inPlaceOnly
  deriving DecidableEq

/-- What a start does to the serving picture at once. -/
structure StepMechanics where
  credit : Int := 0
  leavesRotationNow : Bool := false
  deriving DecidableEq

def mechanicsOf : UpdateStrategy → StepMechanics
  | .surgeThenDrain => { credit := 1 }
  | .inPlaceIfPossible | .inPlaceOnly => { credit := 1, leavesRotationNow := true }
  | .recreatePod => { leavesRotationNow := true }

/-- One start a side could open, and the cohort its Instance leaves. -/
structure CandidateStart extends StepMechanics where
  side : Component
  fromProto : String
  deriving DecidableEq

/-- The serving picture right after the start, nothing else in flight. -/
def CandidateStart.simulate (c : CandidateStart) (serving : Serving) (target : String) : Serving :=
  let left :=
    if 0 < (serving c.side).get c.fromProto then
      (serving c.side).set c.fromProto ((serving c.side).get c.fromProto - 1)
    else serving c.side
  update serving c.side (left.set target (left.get target + c.credit))

inductive StartVerdict where
  | startAllowed
  | heldByFloor
  | heldAsFirstMover
  | heldNoPair
  deriving DecidableEq

/-- Why the gate answers as it does. -/
inductive PairingReason where
  | none
  | notPairing
  | noProtocol
  | noTransition
  | nothingToProtect (target : String)
  | mutualWall (side other : Component) (target : String)
  | lastHop (side other : Component) (target : String)
  | deadEnd (restores : Bool) (target : String) (side : Component) (fromProto : String)
      (other : Component) (cost : Option (Component × Int × PairFloor))
  | belowFloor (target : String) (component : Component) (fromProto : String) (side : Component)
      (after : Int) (floor : PairFloor)
  | strandsFirstMover (target : String) (side : Component) (fromProto : String)
      (other : Component) (floor : PairFloor)
  | surgeOfTheOtherSide (target : String) (side : Component) (fromProto : String)
      (other : Component)
  | noPair (target : String) (side : Component) (fromProto : String)
  deriving DecidableEq

/-- The floor a simulated step breaks: a side left with fewer pairable Instances
than its floor and than it had. -/
def startBreaksPairFloor (serving sim : Serving) (component peer : Component)
    (floors : Component → PairFloor) (target fromProto : String) : Option PairingReason :=
  [peer, component].findSome? fun side =>
    let floor := floors side
    if !floor.applies then none
    else
      let other := pairingPeer side
      let before := pairableCohortCount (serving side) (serving other)
      let after := pairableCohortCount (sim side) (sim other)
      if floor.floor ≤ after || before ≤ after then none
      else some (.belowFloor target component fromProto side after floor)

/-! ## The picture -/

/-- The serving state a transition is judged on. -/
structure PairingPicture where
  target : String
  serving : Serving
  floors : Component → PairFloor
  strategy : Component → UpdateStrategy
  known : Component → Bool
  /-- The side the operator names to move first inside every batch. -/
  firstSide : Option Component
  counts : ∀ side proto, 0 ≤ (serving side).get proto

namespace PairingPicture

variable (p : PairingPicture)

/-- The picture of the serving cohorts of each side, one entry for each row. -/
def ofCohorts (target : String) (cohorts : Component → List String)
    (strategy : Component → UpdateStrategy) (floors : Component → PairFloor) : PairingPicture where
  target := target
  serving := fun side => GoMap.tally (cohorts side)
  floors := floors
  strategy := strategy
  known := fun _ => true
  firstSide := none
  counts := fun side proto => by rw [GoMap.get_tally]; exact Int.natCast_nonneg _

def mechanics (side : Component) : StepMechanics := mechanicsOf (p.strategy side)

/-- The start that takes an Instance of `side` out of cohort `proto`. -/
def start (side : Component) (proto : String) : CandidateStart :=
  { toStepMechanics := p.mechanics side, side := side, fromProto := proto }

/-- A start at the one-by-one wall that waits for the other side's surge. -/
def surgeOfTheOtherSideKeepsThePair (c : CandidateStart) : Bool :=
  let other := pairingPeer c.side
  p.firstSide.isNone && c.leavesRotationNow && p.known other &&
    !(p.mechanics other).leavesRotationNow

/-- Whether a step of `other` out of `cohort` to the target keeps the floors, or
takes an escape, in the picture `after`. -/
def answers (after : Serving) (side other : Component) (cohort : String) : Bool :=
  let asim := (p.start other cohort).simulate after p.target
  if pairableServingPairExists asim then
    (startBreaksPairFloor after asim other side p.floors p.target cohort).isNone
  else mutualPairingWall after other side p.target || lastHopEscape after other side p.target

/-- Holds a start that would put the first target Instance on its side while no
step of the other side could pair it. -/
def strandsFirstMover (c : CandidateStart) (sim : Serving) : Option PairingReason :=
  let other := pairingPeer c.side
  let floor := p.floors c.side
  if !floor.applies || !p.known other || !(p.mechanics other).leavesRotationNow ||
      pairsWithPeer (sim other) p.target then none
  else
    -- The picture once this start's replacement serves.
    let after :=
      if c.credit = 0 then
        update sim c.side ((sim c.side).set p.target ((sim c.side).get p.target + 1))
      else sim
    if (after other).keys.any fun cohort =>
        !(cohort == p.target) && 0 < (after other).get cohort && p.answers after c.side other cohort
    then none
    else some (.strandsFirstMover p.target c.side c.fromProto other floor)

/-- The answer to one start whose end state is `sim`. -/
def judge (c : CandidateStart) (sim : Serving) : StartVerdict × PairingReason :=
  let other := pairingPeer c.side
  if pairableServingPairExists sim then
    if !c.leavesRotationNow then (.startAllowed, .none)
    else match startBreaksPairFloor p.serving sim c.side other p.floors p.target c.fromProto with
      | some reason => (.heldByFloor, reason)
      | none => match p.strandsFirstMover c sim with
        | some reason => (.heldAsFirstMover, reason)
        | none => (.startAllowed, .none)
  else if mutualPairingWall p.serving c.side other p.target then
    if p.surgeOfTheOtherSideKeepsThePair c then
      (.heldNoPair, .surgeOfTheOtherSide p.target c.side c.fromProto other)
    else (.startAllowed, .mutualWall c.side other p.target)
  else if lastHopEscape p.serving c.side other p.target then
    (.startAllowed, .lastHop c.side other p.target)
  else (.heldNoPair, .noPair p.target c.side c.fromProto)

/-- The answer to a start judged with nothing else in flight. -/
def judgeAlone (c : CandidateStart) : StartVerdict × PairingReason :=
  p.judge c (c.simulate p.serving p.target)

/-- The cohorts of a side a start could leave, in name order. -/
def oldCohorts (side : Component) : List String :=
  ((p.serving side).keys.filter fun cohort =>
    cohort ≠ p.target && 0 < (p.serving side).get cohort).insertionSort (· ≤ ·)

/-- Every start either side could open, engine first. -/
def candidates : List CandidateStart :=
  pairingComponents.flatMap fun side => (p.oldCohorts side).map (p.start side)

/-- A held start with what ranks it at a dead end. -/
structure Ranked where
  start : CandidateStart
  restores : Bool
  loss : Int

def rank (c : CandidateStart) : Ranked where
  start := c
  restores :=
    0 < (p.serving (pairingPeer c.side)).get p.target && !pairsWithPeer (p.serving c.side) p.target
  loss :=
    let sim := c.simulate p.serving p.target
    (pairingComponents.map fun side =>
      pairableCohortCount (p.serving side) (p.serving (pairingPeer side)) -
        pairableCohortCount (sim side) (sim (pairingPeer side))).sum

def Ranked.beats (r best : Ranked) : Bool :=
  r.restores && !best.restores || r.restores == best.restores && r.loss < best.loss

/-- The better of the best held start so far and the next one. -/
def better (best : Option Ranked) (r : Ranked) : Ranked :=
  match best with
  | none => r
  | some b => if r.beats b then r else b

/-- The loop of `deadEndMover`: `none` once a start is allowed, else the best of
the starts a floor or the first-mover rule holds. -/
def bestHeld : List CandidateStart → Option Ranked → Option (Option Ranked)
  | [], best => some best
  | c :: rest, best =>
    match (p.judgeAlone c).1 with
    | .startAllowed => none
    | .heldNoPair => bestHeld rest best
    | .heldByFloor | .heldAsFirstMover => bestHeld rest (some (better best (p.rank c)))

/-- The first side a simulated picture leaves under its floor, with what it keeps. -/
def floorShortfall (sim : Serving) : Option (Component × Int × PairFloor) :=
  pairingComponents.findSome? fun side =>
    let left := pairableCohortCount (sim side) (sim (pairingPeer side))
    if (p.floors side).applies && left < (p.floors side).floor then
      some (side, left, p.floors side)
    else none

/-- The reason to let `c` through when every start of both sides is held and `c`
is the best of those a floor or the first-mover rule holds. -/
def deadEndMover (c : CandidateStart) : Option PairingReason :=
  match p.bestHeld p.candidates none with
  | some (some best) =>
    if best.start.side ≠ c.side || best.start.fromProto ≠ c.fromProto then none
    else some (.deadEnd best.restores p.target best.start.side best.start.fromProto
      (pairingPeer best.start.side)
      (p.floorShortfall (best.start.simulate p.serving p.target)))
  | _ => none

/-- Some Instance serves a non-empty protocol other than the target. -/
def transition : Bool :=
  pairingComponents.any fun side => (p.serving side).keys.any fun proto =>
    0 < (p.serving side).get proto && proto ≠ "" && proto ≠ p.target

end PairingPicture

/-! ## The gate -/

/-- One call of the gate: the acting side, the cohort its Instance leaves (`none`
when its revision names none), and what is in flight. -/
structure PairingCall where
  component : Component
  fromProto : Option String
  inFlightSurge : Int := 0
  inFlightUnavail : Int := 0
  /-- Either replica has an operation that neither failed nor parked. -/
  attemptOpen : Bool := false
  deriving DecidableEq

structure PairingVerdict where
  allowed : Bool
  reason : PairingReason
  deriving DecidableEq

namespace PairingPicture

variable (p : PairingPicture) (call : PairingCall)

/-- A dead end needs a picture with nothing in flight on either side. -/
def settled : Bool := call.inFlightSurge + call.inFlightUnavail = 0 && !call.attemptOpen

/-- What cohort `proto` is charged: the starts in flight, and the Instance itself
when it leaves that cohort or none is known. -/
def loss (proto : String) : Int :=
  call.inFlightSurge + call.inFlightUnavail +
    match call.fromProto with
    | none => 1
    | some leaves => if proto = leaves then 1 else 0

/-- The picture with cohort `proto` charged. -/
def charged (proto : String) : Serving :=
  let side := p.serving call.component
  let left := side.set proto (max 0 (side.get proto - loss call proto))
  update p.serving call.component (left.set p.target
    (left.get p.target + ((p.mechanics call.component).credit + call.inFlightSurge)))

/-- The answer to a start a floor or the first-mover rule holds. -/
def heldVerdict (start : CandidateStart) (reason : PairingReason) : PairingVerdict :=
  if settled call && call.fromProto.isSome then
    match p.deadEndMover start with
    | some why => ⟨true, why⟩
    | none => ⟨false, reason⟩
  else ⟨false, reason⟩

/-- What one judged cohort makes of the loop: it goes on to `rest` or returns. -/
def conclude (start : CandidateStart) (rest : PairingVerdict) :
    StartVerdict × PairingReason → PairingVerdict
  | (.startAllowed, .none) => rest
  | (.startAllowed, reason) => ⟨true, reason⟩
  | (.heldNoPair, reason) => ⟨false, reason⟩
  | (.heldByFloor, reason) => p.heldVerdict call start reason
  | (.heldAsFirstMover, reason) => p.heldVerdict call start reason

/-- The loop over the acting side's cohorts, from the first one not yet visited. -/
def visitCohorts : List String → PairingVerdict
  | [] => ⟨true, .none⟩
  | proto :: rest =>
    if proto = p.target ∨ (p.serving call.component).get proto ≤ 0 then visitCohorts rest
    else if loss call proto = 0 then visitCohorts rest
    else
      let start := p.start call.component proto
      p.conclude call start (visitCohorts rest) (p.judge start (p.charged call proto))

/-- The pair-floor gate's answer to one start, with the acting side's cohorts visited in the
order given. -/
def pairingVerdictIn (order : List String) : PairingVerdict :=
  if call.component ∉ pairingComponents then ⟨true, .notPairing⟩
  else if p.target = "" then ⟨true, .noProtocol⟩
  else if !p.transition then ⟨true, .noTransition⟩
  else if !pairableServingPairExists p.serving then ⟨true, .nothingToProtect p.target⟩
  else p.visitCohorts call order

def pairingVerdict : PairingVerdict := p.pairingVerdictIn call (p.serving call.component).keys

end PairingPicture

/-! ## Pairs -/

theorem pairable_comm (p q : String) : pairable p q = pairable q p := by
  rw [pairable, pairable, Bool.or_comm (p == ""), Bool.beq_comm (a := p) (b := q)]

theorem pairable_self (p : String) : pairable p p = true := by
  simp [pairable]

/-- Cohort `mine` of a side and cohort `theirs` of its peer serve and match. -/
structure PairsAt (serving : Serving) (side : Component) (mine theirs : String) : Prop where
  mine_serves : 0 < (serving side).get mine
  theirs_serves : 0 < (serving (pairingPeer side)).get theirs
  fits : pairable mine theirs = true

theorem PairsAt.flip {serving : Serving} {mine theirs : String} (pairing : side ∈ pairingComponents)
    (pair : PairsAt serving side mine theirs) : PairsAt serving (pairingPeer side) theirs mine := by
  refine ⟨pair.theirs_serves, ?_, by rw [pairable_comm, pair.fits]⟩
  rw [pairingPeer_pairingPeer pairing]
  exact pair.mine_serves

theorem pairExists_engine_iff (serving : Serving) :
    pairableServingPairExists serving = true ↔
      ∃ mine theirs, PairsAt serving .engine mine theirs := by
  simp only [pairableServingPairExists, any_eq_true, Bool.and_eq_true, decide_eq_true_eq]
  constructor
  · rintro ⟨mine, _, serves, theirs, _, theirsServe, fits⟩
    exact ⟨mine, theirs, serves, theirsServe, fits⟩
  · rintro ⟨mine, theirs, serves, theirsServe, fits⟩
    exact ⟨mine, GoMap.mem_keys_of_pos _ serves, serves, theirs,
      GoMap.mem_keys_of_pos _ theirsServe, theirsServe, fits⟩

/-- A pair exists when a cohort of a side and a cohort of its peer match, from
whichever of the two sides it is read. -/
theorem pairExists_iff (serving : Serving) (pairing : side ∈ pairingComponents) :
    pairableServingPairExists serving = true ↔ ∃ mine theirs, PairsAt serving side mine theirs := by
  rw [pairExists_engine_iff]
  rcases mem_pairingComponents.mp pairing with rfl | rfl
  · rfl
  · constructor
    · rintro ⟨mine, theirs, pair⟩
      exact ⟨theirs, mine, pair.flip (by decide)⟩
    · rintro ⟨mine, theirs, pair⟩
      exact ⟨theirs, mine, pair.flip (by decide)⟩

theorem pairExists_mono {serving more : Serving}
    (kept : ∀ side proto, 0 < (serving side).get proto → 0 < (more side).get proto)
    (pair : pairableServingPairExists serving = true) : pairableServingPairExists more = true := by
  obtain ⟨mine, theirs, serves, theirsServe, fits⟩ := (pairExists_engine_iff serving).mp pair
  exact (pairExists_engine_iff more).mpr
    ⟨mine, theirs, kept _ _ serves, kept _ _ theirsServe, fits⟩

/-! ## Simulated starts -/

theorem mechanicsOf_credit (strategy : UpdateStrategy) : 0 ≤ (mechanicsOf strategy).credit := by
  cases strategy <;> decide

namespace CandidateStart

variable (c : CandidateStart) (serving : Serving) (target : String)

theorem simulate_other (ne : side ≠ c.side) : c.simulate serving target side = serving side :=
  update_of_ne ne _ _

/-- A start costs its cohort one Instance and no other cohort any. -/
theorem simulate_get_ge (gain : 0 ≤ c.credit) (k : String) :
    (serving c.side).get k - (if k = c.fromProto then 1 else 0) ≤
      (c.simulate serving target c.side).get k := by
  simp only [simulate, update_self, GoMap.get_add]
  by_cases serves : 0 < (serving c.side).get c.fromProto
  · rw [if_pos serves, GoMap.get_set]
    split
    · rename_i same
      rw [same]
      omega
    · omega
  · rw [if_neg serves]
    split <;> omega

/-- A pair that does not rest on the last Instance of the cohort a start leaves
survives it. -/
theorem simulate_keeps_pair (pairing : c.side ∈ pairingComponents) (gain : 0 ≤ c.credit)
    {mine theirs : String} (pair : PairsAt serving c.side mine theirs)
    (spare : mine = c.fromProto → 2 ≤ (serving c.side).get mine) :
    pairableServingPairExists (c.simulate serving target) = true := by
  refine (pairExists_iff _ pairing).mpr ⟨mine, theirs, ?_, ?_, pair.fits⟩
  · have least := c.simulate_get_ge serving target gain mine
    have serves := pair.mine_serves
    by_cases leaves : mine = c.fromProto
    · have := spare leaves
      rw [if_pos leaves] at least
      omega
    · rw [if_neg leaves] at least
      omega
  · rw [c.simulate_other serving target (pairingPeer_ne _)]
    exact pair.theirs_serves

end CandidateStart

namespace PairingPicture

variable (p : PairingPicture)

/-! ## The outcomes of a judgement -/

/-- What `judge` can answer, with what led to the answer. -/
inductive Judged (c : CandidateStart) (sim : Serving) : StartVerdict × PairingReason → Prop where
  | free : pairableServingPairExists sim = true → Judged c sim (.startAllowed, .none)
  | floor (reason : PairingReason) : pairableServingPairExists sim = true →
      Judged c sim (.heldByFloor, reason)
  | firstMover (reason : PairingReason) : pairableServingPairExists sim = true →
      Judged c sim (.heldAsFirstMover, reason)
  | wall : pairableServingPairExists sim = false →
      mutualPairingWall p.serving c.side (pairingPeer c.side) p.target = true →
      Judged c sim (.startAllowed, .mutualWall c.side (pairingPeer c.side) p.target)
  | surgeWait : pairableServingPairExists sim = false →
      mutualPairingWall p.serving c.side (pairingPeer c.side) p.target = true →
      p.surgeOfTheOtherSideKeepsThePair c = true →
      Judged c sim
        (.heldNoPair, .surgeOfTheOtherSide p.target c.side c.fromProto (pairingPeer c.side))
  | lastHop : pairableServingPairExists sim = false →
      lastHopEscape p.serving c.side (pairingPeer c.side) p.target = true →
      Judged c sim (.startAllowed, .lastHop c.side (pairingPeer c.side) p.target)
  | noPair : pairableServingPairExists sim = false →
      mutualPairingWall p.serving c.side (pairingPeer c.side) p.target = false →
      lastHopEscape p.serving c.side (pairingPeer c.side) p.target = false →
      Judged c sim (.heldNoPair, .noPair p.target c.side c.fromProto)

theorem judge_judged (c : CandidateStart) (sim : Serving) : p.Judged c sim (p.judge c sim) := by
  simp only [judge]
  split
  · rename_i pair
    split
    · exact .free pair
    · split
      · exact .floor _ pair
      · split
        · exact .firstMover _ pair
        · exact .free pair
  · rename_i pair
    rw [Bool.not_eq_true] at pair
    split
    · rename_i wall
      split
      · rename_i waits
        exact .surgeWait pair wall waits
      · exact .wall pair wall
    · rename_i wall
      rw [Bool.not_eq_true] at wall
      split
      · rename_i hop
        exact .lastHop pair hop
      · rename_i hop
        exact .noPair pair wall ((Bool.not_eq_true _).mp hop)

/-- A floor or the first-mover rule holds the start. -/
def HeldShort (c : CandidateStart) : Prop :=
  (p.judgeAlone c).1 = .heldByFloor ∨ (p.judgeAlone c).1 = .heldAsFirstMover

/-! ## The starts a dead end chooses from -/

theorem mem_oldCohorts (side : Component) (proto : String) :
    proto ∈ p.oldCohorts side ↔ proto ≠ p.target ∧ 0 < (p.serving side).get proto := by
  simp only [oldCohorts, mem_insertionSort, mem_filter, Bool.and_eq_true,
    decide_eq_true_eq]
  constructor
  · exact And.right
  · intro old
    exact ⟨GoMap.mem_keys_of_pos _ old.2, old⟩

theorem mem_candidates (c : CandidateStart) :
    c ∈ p.candidates ↔ ∃ side ∈ pairingComponents, ∃ proto,
      proto ≠ p.target ∧ 0 < (p.serving side).get proto ∧ p.start side proto = c := by
  simp only [candidates, mem_flatMap, mem_map, mem_oldCohorts, and_assoc]

/-- With no start allowed and some start held short, the loop ends with a start
that is held short. -/
theorem bestHeld_exists : ∀ (starts : List CandidateStart) (best : Option Ranked),
    (∀ c ∈ starts, (p.judgeAlone c).1 ≠ .startAllowed) →
    (best.isSome ∨ ∃ c ∈ starts, p.HeldShort c) →
    ∃ r, p.bestHeld starts best = some (some r) ∧
      (best = some r ∨ ∃ c ∈ starts, p.HeldShort c ∧ p.rank c = r)
  | [], best, _, some_held => by
    rcases some_held with found | ⟨_, member, _⟩
    · obtain ⟨r, rfl⟩ := Option.isSome_iff_exists.mp found
      exact ⟨r, rfl, .inl rfl⟩
    · exact absurd member not_mem_nil
  | c :: rest, best, none_allowed, some_held => by
    have rest_held (c' : CandidateStart) (member : c' ∈ rest) :=
      none_allowed c' (mem_cons_of_mem _ member)
    -- a start held short is ranked against the best so far, any other is passed over
    by_cases short : p.HeldShort c
    · obtain ⟨r, ends, origin⟩ := bestHeld_exists rest (some (better best (p.rank c)))
        rest_held (.inl rfl)
      refine ⟨r, ?_, ?_⟩
      · rcases short with held | held <;> simpa only [bestHeld, held] using ends
      · rcases origin with kept | ⟨c', member, held, rfl⟩
        · have kept : better best (p.rank c) = r := Option.some.inj kept
          revert kept
          cases best with
          | none => exact fun kept => .inr ⟨c, mem_cons_self, short, kept⟩
          | some b =>
            simp only [better]
            split
            · exact fun kept => .inr ⟨c, mem_cons_self, short, kept⟩
            · exact fun kept => .inl (congrArg some kept)
        · exact .inr ⟨c', mem_cons_of_mem _ member, held, rfl⟩
    · have held : (p.judgeAlone c).1 = .heldNoPair := by
        have refused := none_allowed c mem_cons_self
        cases answer : (p.judgeAlone c).1 with
        | startAllowed => exact absurd answer refused
        | heldByFloor => exact absurd (.inl answer) short
        | heldAsFirstMover => exact absurd (.inr answer) short
        | heldNoPair => rfl
      have later : best.isSome ∨ ∃ c' ∈ rest, p.HeldShort c' := by
        rcases some_held with found | ⟨c', member, held'⟩
        · exact .inl found
        · rcases mem_cons.mp member with rfl | member
          · exact absurd held' short
          · exact .inr ⟨c', member, held'⟩
      obtain ⟨r, ends, origin⟩ := bestHeld_exists rest best rest_held later
      refine ⟨r, by simpa only [bestHeld, held] using ends, ?_⟩
      rcases origin with kept | ⟨c', member, held', rfl⟩
      · exact .inl kept
      · exact .inr ⟨c', mem_cons_of_mem _ member, held', rfl⟩

/-! ## The order the cohorts are visited in -/

section Order

variable {p} {call : PairingCall} {a b : String}

/-- The loop judges the cohort. -/
def Visited (p : PairingPicture) (call : PairingCall) (proto : String) : Prop :=
  proto ≠ p.target ∧ 0 < (p.serving call.component).get proto ∧ loss call proto ≠ 0

def judged (p : PairingPicture) (call : PairingCall) (proto : String) :
    StartVerdict × PairingReason :=
  p.judge (p.start call.component proto) (p.charged call proto)

/-- What the loop answers when it visits the cohort alone. -/
def passes (p : PairingPicture) (call : PairingCall) (proto : String) : Bool :=
  (p.conclude call (p.start call.component proto) ⟨true, .none⟩ (p.judged call proto)).allowed

/-- A side with one Instance has one cohort. -/
theorem sole_cohort (total : totalServing (p.serving side) ≤ 1)
    (serves : 0 < (p.serving side).get a) (serves' : 0 < (p.serving side).get b) : a = b := by
  by_contra ne
  have split := ((perm_cons_erase (GoMap.mem_keys_of_pos _ serves)).map
    (p.serving side).get).sum_eq
  have other : b ∈ (p.serving side).keys.erase a :=
    (mem_erase_of_ne (Ne.symm ne)).mpr (GoMap.mem_keys_of_pos _ serves')
  have rest := single_le_sum (forall_mem_map.mpr fun k _ => p.counts side k) _
    (mem_map_of_mem other)
  rw [map_cons, sum_cons] at split
  rw [totalServing, GoMap.total] at total
  omega

/-- With nothing in flight only the cohort the Instance leaves is charged. -/
theorem eq_of_settled (settled : settled call = true) (leaves : call.fromProto = some a)
    (charge : loss call b ≠ 0) : b = a := by
  simp only [PairingPicture.settled, Bool.and_eq_true, decide_eq_true_eq] at settled
  simp only [loss, leaves, settled.1, zero_add] at charge
  by_contra ne
  exact charge (if_neg ne)

/-- **A cohort that ends the loop with an answer that allows is the only one visited.** -/
theorem escape_alone (visited : p.Visited call a) (ends : p.judged call a ≠ (.startAllowed, .none))
    (allows : p.passes call a = true) (visited' : p.Visited call b) : a = b := by
  -- A dead end is looked for only when each cohort but the Instance's own is spared.
  have short (reason : PairingReason) (held :
      (p.heldVerdict call (p.start call.component a) reason).allowed = true) : a = b := by
    rw [heldVerdict] at held
    split at held
    · rename_i idle
      obtain ⟨idle, known⟩ := Bool.and_eq_true_iff.mp idle
      obtain ⟨leaves, known⟩ := Option.isSome_iff_exists.mp known
      rw [eq_of_settled idle known visited.2.2, eq_of_settled idle known visited'.2.2]
    · cases held
  rw [passes] at allows
  have outcome := p.judge_judged (p.start call.component a) (p.charged call a)
  rw [← judged] at outcome
  generalize p.judged call a = answer at outcome ends allows
  cases outcome with
  | free => exact absurd rfl ends
  | floor reason | firstMover reason => exact short reason allows
  | wall _ wall =>
    rw [mutualPairingWall] at wall
    split at wall
    · cases wall
    · simp only [Bool.and_eq_true, decide_eq_true_eq] at wall
      exact sole_cohort wall.1 visited.2.1 visited'.2.1
  | lastHop _ hop =>
    simp only [lastHopEscape, Bool.and_eq_true, decide_eq_true_eq] at hop
    exact sole_cohort hop.1 visited.2.1 visited'.2.1
  | surgeWait | noPair => cases allows

theorem conclude_ends {start : CandidateStart} {answer : StartVerdict × PairingReason}
    (ends : answer ≠ (.startAllowed, .none)) (rest rest' : PairingVerdict) :
    p.conclude call start rest answer = p.conclude call start rest' answer := by
  unfold conclude
  split
  · exact absurd rfl ends
  all_goals rfl

/-- **The loop allows a start when each cohort it judges would, alone.** -/
theorem visitCohorts_allowed_iff : ∀ order : List String,
    (p.visitCohorts call order).allowed = true ↔
      ∀ a ∈ order, p.Visited call a → p.passes call a = true
  | [] => by simp [visitCohorts]
  | a :: rest => by
    have later := visitCohorts_allowed_iff rest
    rw [forall_mem_cons, visitCohorts]
    by_cases visited : p.Visited call a
    · rw [if_neg (not_or.mpr ⟨visited.1, not_le.mpr visited.2.1⟩), if_neg visited.2.2]
      change (p.conclude call _ _ (p.judged call a)).allowed = true ↔ _
      by_cases free : p.judged call a = (.startAllowed, .none)
      · have passed : p.passes call a = true := by rw [passes, free]; rfl
        rw [free, and_iff_right fun _ => passed]
        exact later
      · rw [conclude_ends free _ ⟨true, .none⟩, ← passes]
        constructor
        · intro allows
          exact ⟨fun _ => allows, fun b _ visited' =>
            escape_alone visited free allows visited' ▸ allows⟩
        · exact fun each => each.1 visited
    · rw [and_iff_right fun here => absurd here visited, ← later]
      split
      · rfl
      · rename_i serves
        rw [if_pos]
        by_contra charged
        exact visited ⟨fun same => serves (.inl same), not_le.mp fun idle => serves (.inr idle),
          charged⟩

/-- **The verdict does not depend on the order of the cohorts.** -/
theorem pairingVerdict_any_order (p : PairingPicture) (call : PairingCall) (order : List String)
    (perm : order.Perm (p.serving call.component).keys) :
    (p.pairingVerdictIn call order).allowed = (p.pairingVerdict call).allowed := by
  have visits : (p.visitCohorts call order).allowed =
      (p.visitCohorts call (p.serving call.component).keys).allowed := by
    rw [Bool.eq_iff_iff, visitCohorts_allowed_iff, visitCohorts_allowed_iff]
    simp only [perm.mem_iff]
  rw [pairingVerdict, pairingVerdictIn, pairingVerdictIn]
  simp only [apply_ite PairingVerdict.allowed, visits]

/-- Engines of two old cohorts and a decoder of one of them. -/
def twoOldCohorts : PairingPicture :=
  ofCohorts "new" (fun | .engine => ["old", "older"] | _ => ["old"]) (fun _ => .recreatePod)
    (fun _ => {})

theorem twoOldCohorts_any_order : (twoOldCohorts.serving .engine).keys = ["old", "older"] ∧
    (twoOldCohorts.pairingVerdictIn ⟨.engine, none, 0, 0, false⟩ ["older", "old"]).allowed =
      (twoOldCohorts.pairingVerdict ⟨.engine, none, 0, 0, false⟩).allowed :=
  ⟨by decide, pairingVerdict_any_order _ _ _ (by decide)⟩

end Order

end PairingPicture

end Ome.Coordination
