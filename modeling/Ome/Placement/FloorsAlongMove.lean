/-
# Ome.Placement.FloorsAlongMove — secondary floors while replicas move

A plan is accepted when floors exist for its desired targets.  While a move runs,
the floors are computed again from whatever targets the steps of `advance` pass
through.  Every such target lies between the original and the desired one
(`Between`), and a home that is to be emptied comes down, unless all the way, only
by what other homes have gained (`Paid`).  The two give the fewest replicas that
any set of homes can hold at once (`leastOn`).

* `MoveStep.between`, `MoveStep.paid`: what a step keeps;
* `leastOn_le`: the targets of a move hold at least that many replicas;
* `floors_along_move`: floors exist at every step of a move whose secondary
  minimums cover every set of homes it can use;
* `overOccupied_loses_floors`: a move between two plans that both have floors
  passes through targets that have none.
-/
import Ome.Placement.Allocation.Moves
import Ome.Placement.Protocol.Floors
import Ome.Theory.Runs

namespace Ome.Placement

open Ome.Theory Ome.Placement.Allocation Ome.Placement.Protocol List GoMap MemberView

set_option autoImplicit false

variable {result : Option (Except FloorError (GoMap String (List ComponentFloor)))}

/-! ## Targets between two plans -/

/-- One call of `Advance` in a move from `fromPlan` to `desired` whose surge is the
desired total, under any observation of the members. -/
inductive MoveStep (fromPlan desired : Plan) (current : GoMap String Int) :
    GoMap String Int → Prop where
  | step (members : GoMap String MemberState) (rolloutReserved : Int) (step : Step)
      (returned : advance { fromPlan, current, desired, members, surge := desired.total,
                            rolloutReserved } = .ok step) :
      MoveStep fromPlan desired current step.targets

/-- Targets of named homes, each between its original and its desired one. -/
structure Between (fromPlan desired : Plan) (targets : GoMap String Int) : Prop where
  original_nonneg : ∀ name, 0 ≤ fromPlan.targets.get name
  desired_nonneg : ∀ name, 0 ≤ desired.targets.get name
  named : "" ∉ targets.keys
  lower : ∀ name, min (fromPlan.targets.get name) (desired.targets.get name) ≤ targets.get name
  upper : ∀ name, targets.get name ≤ max (fromPlan.targets.get name) (desired.targets.get name)

theorem advance_between {input : Transition} {step : Step} (returned : advance input = .ok step)
    (name : String) :
    min (input.current.get name) (input.desired.targets.get name) ≤ step.targets.get name ∧
      step.targets.get name ≤ max (input.current.get name) (input.desired.targets.get name) := by
  obtain ⟨t, reading, outcome⟩ := advance_outcome returned
  cases outcome with
  | rests _ targets =>
    rw [targets]
    omega
  | reduces recorded =>
    have target : step.targets.get name = (t.reduced.entry name).1 :=
      congrArg Prod.fst (congrFun recorded name)
    have bounds := reading.reduced_target name
    omega
  | grows still g grown recorded =>
    have target : step.targets.get name = (g.entry name).1 :=
      congrArg Prod.fst (congrFun recorded name)
    have bounds := reading.grown_target still grown name
    omega

theorem MoveStep.between {fromPlan desired : Plan} {current next : GoMap String Int}
    (move : MoveStep fromPlan desired current next) (between : Between fromPlan desired current) :
    Between fromPlan desired next := by
  obtain ⟨members, rolloutReserved, step, returned⟩ := move
  have bounds := advance_between returned
  obtain ⟨t, reading, -⟩ := advance_outcome returned
  refine ⟨between.original_nonneg, between.desired_nonneg,
    fun member => reading.unnamed_cluster ((advance_keys returned).1 "" member), ?_, ?_⟩
  · intro name
    have := between.lower name
    have := (bounds name).1
    simp only at this
    omega
  · intro name
    have := between.upper name
    have := (bounds name).2
    simp only at this
    omega

/-! ## What a lowered target costs -/

namespace Allocation

/-- The replicas a visit takes from a member that is to be emptied and is not. -/
def MemberView.partLoss (m : MemberView) (entry : Int × Bool) : Int :=
  if m.goal = 0 ∧ 0 < entry.1 then m.current - entry.1 else 0

theorem MemberView.retirementShare_le (m : MemberView) (original : 0 ≤ m.original)
    (current : 0 ≤ m.current) :
    m.retirementShare ≤ max 0 (m.current - m.original) - max 0 (m.original - m.current) := by
  simp only [retirementShare]
  split <;> split <;> omega

/-- A member at or below its original count comes down in part only by what the
retirement allowance has. -/
theorem TransitionCall.Reduction.partLoss_le {t t' : TransitionCall} {m : MemberView}
    (visit : Reduction t m t') (sound : m.Sound) (solvent : t.Solvent)
    (start : t.entry m.name = (m.current, false)) (within : m.goal = 0 → m.current ≤ m.original) :
    m.partLoss (t'.entry m.name) ≤ max 0 t.retirementAllowance - max 0 t'.retirementAllowance := by
  obtain ⟨target, -⟩ := Prod.mk.inj start
  have stays (s : TransitionCall) (same : (s.entry m.name).1 = m.current) :
      m.partLoss (s.entry m.name) = 0 := by
    simp [partLoss, same]
  cases visit with
  | kept => rw [stays _ target, sub_self]
  | drainedUnrouted | drainedFunded => exact (stays _ target).le.trans (sub_self _).ge
  | absent gone above =>
    have goal : ¬ (m.goal = 0 ∧ 0 < m.goal) := by omega
    rw [entry_setTarget_self]
    simp [partLoss, setTarget, goal]
  | emptied =>
    refine (stays _ target).le.trans ?_
    simp only [addDrain, paidReduction]
    omega
  | lowered reducible nonzero whole partly =>
    obtain ⟨nonneg, -, funded, -⟩ := t.fundedReduction_bounds sound reducible solvent.1
    rw [entry_setTarget_self]
    simp only [partLoss, setTarget, paidReduction, target]
    split
    · rename_i left
      -- a drained member would have gone down to its goal
      have undrained : m.state.drained ≠ true := fun drained => by
        have unrouted := sound.drained_unrouted drained
        simp only [fundedReduction, unbackedReplicas, drained, unrouted, if_true,
          Bool.false_eq_true, if_false] at left
        omega
      have backed : t.unbackedReplicas m = 0 := by
        simp only [unbackedReplicas, undrained]
        split
        · contradiction
        · split <;> omega
      omega
    · omega

end Allocation

/-! ## The homes of a move -/

section Mix

variable (fromPlan desired : Plan)

/-- The homes either plan gives a replica. -/
def planHomes : List String :=
  (fromPlan.targets.keys ++ desired.targets.keys).dedup.filter fun name =>
    0 < max (fromPlan.targets.get name) (desired.targets.get name)

/-- What the move lets a home keep while it has a replica: all of a home that is to be
emptied, what the plans have in common of any other. -/
def keptOn (name : String) : Int :=
  if desired.targets.get name = 0 then fromPlan.targets.get name
  else min (fromPlan.targets.get name) (desired.targets.get name)

/-- What the desired plan asks less than the original one pays for reductions too. -/
def lowered : Int := max 0 (fromPlan.total - desired.total)

/-- The fewest replicas on exactly these homes. -/
def leastOn (homes : List String) : Int :=
  max ((homes.map (keptOn fromPlan desired)).sum - lowered fromPlan desired)
    (homes.map fun name =>
      max 1 (min (fromPlan.targets.get name) (desired.targets.get name))).sum

def mostTargets : Int :=
  ((planHomes fromPlan desired).map fun name =>
    max (fromPlan.targets.get name) (desired.targets.get name)).sum

/-- A secondary minimum that covers the fewest replicas on every set of homes with those
the plans have in common, and whose total fits at the largest mix. -/
structure FloorsFit (primaryMinimum minimum : Int) : Prop where
  fits : scaledMinimum (mostTargets fromPlan desired) minimum primaryMinimum ≤ maxInt32
  homes : minimum = 0 ∨ ∀ homes ∈ (planHomes fromPlan desired).sublists,
    (∀ name ∈ planHomes fromPlan desired,
      0 < min (fromPlan.targets.get name) (desired.targets.get name) → name ∈ homes) →
    (homes.length : Int) ≤ scaledMinimum (leastOn fromPlan desired homes) minimum primaryMinimum

/-- What a home that is to be emptied gave up, less what another one gained. -/
def balance (targets : GoMap String Int) (name : String) : Int :=
  (if desired.targets.get name = 0 ∧ 0 < targets.get name then
    fromPlan.targets.get name - targets.get name else 0) -
      max 0 (targets.get name - fromPlan.targets.get name)

/-- Reductions short of the whole target are paid for. -/
def Paid (targets : GoMap String Int) : Prop :=
  ((planHomes fromPlan desired).map (balance fromPlan desired targets)).sum ≤
    lowered fromPlan desired

variable {fromPlan desired}

theorem nodup_planHomes : (planHomes fromPlan desired).Nodup :=
  (nodup_dedup _).filter _

theorem mem_planHomes (name : String) :
    name ∈ planHomes fromPlan desired ↔
      0 < max (fromPlan.targets.get name) (desired.targets.get name) := by
  simp only [planHomes, mem_filter, mem_dedup, mem_append, decide_eq_true_eq]
  refine and_iff_right_of_imp fun positive => ?_
  rcases lt_max_iff.mp positive with held | wanted
  · exact .inl (mem_keys_of_pos _ held)
  · exact .inr (mem_keys_of_pos _ wanted)

namespace Between

variable {targets : GoMap String Int} (between : Between fromPlan desired targets)
include between

theorem nonneg (name : String) : 0 ≤ targets.get name := by
  have := between.lower name
  have := between.original_nonneg name
  have := between.desired_nonneg name
  omega

theorem outside {name : String} (absent : name ∉ planHomes fromPlan desired) :
    targets.get name = 0 ∧ fromPlan.targets.get name = 0 := by
  rw [mem_planHomes] at absent
  have := between.lower name
  have := between.upper name
  have := between.original_nonneg name
  have := between.desired_nonneg name
  omega

theorem total_eq : targets.total = ((planHomes fromPlan desired).map targets.get).sum :=
  sum_map_eq_of_vanish targets.nodup nodup_planHomes
    (fun _ absent => targets.get_int_absent absent)
    fun _ absent => (between.outside absent).1

/-- The balance over any names that have those of the plans. -/
theorem balance_eq {names : List String} (unique : names.Nodup)
    (covers : ∀ name ∈ planHomes fromPlan desired, name ∈ names) :
    ((planHomes fromPlan desired).map (balance fromPlan desired targets)).sum =
      (names.map (balance fromPlan desired targets)).sum := by
  have vanish (name : String) (absent : name ∉ planHomes fromPlan desired) :
      balance fromPlan desired targets name = 0 := by
    obtain ⟨empty, original⟩ := between.outside absent
    simp [balance, empty, original]
  exact sum_map_eq_of_vanish nodup_planHomes unique vanish
    fun name absent => vanish name fun member => absent (covers name member)

theorem total_le : targets.total ≤ mostTargets fromPlan desired := by
  rw [between.total_eq]
  exact sum_le_sum fun name _ => between.upper name

/-- The homes with a replica, among those of the plans. -/
theorem positiveHomes_eq :
    positiveHomes targets =
      ((planHomes fromPlan desired).filter fun name => 0 < targets.get name).length := by
  refine Perm.length_eq ((perm_ext_iff_of_nodup (targets.nodup_sortedKeys.filter _)
    (nodup_planHomes.filter _)).mpr fun name => ?_)
  simp only [mem_filter, decide_eq_true_eq, targets.mem_sortedKeys]
  refine and_congr_left fun positive => iff_of_true (mem_keys_of_pos _ positive) ?_
  by_contra absent
  have := (between.outside absent).1
  omega

/-- **The targets of a move hold the fewest replicas their homes can.** -/
theorem leastOn_le (paid : Paid fromPlan desired targets) :
    leastOn fromPlan desired ((planHomes fromPlan desired).filter fun name => 0 < targets.get name)
      ≤ targets.total := by
  have onHomes (f : String → Int) :
      (((planHomes fromPlan desired).filter fun name => 0 < targets.get name).map f).sum =
        ((planHomes fromPlan desired).map fun name =>
          if 0 < targets.get name then f name else 0).sum := by
    simp [sum_map_ite]
  rw [leastOn, onHomes, onHomes, between.total_eq, max_le_iff]
  constructor
  -- what a home holds and its balance make up what it may keep
  · have pointwise (name : String) :
        (if 0 < targets.get name then keptOn fromPlan desired name else 0) ≤
          targets.get name + balance fromPlan desired targets name := by
      have := between.lower name
      have := between.upper name
      have := between.original_nonneg name
      have := between.desired_nonneg name
      simp only [keptOn, balance]
      split <;> split <;> omega
    have sums := sum_le_sum (l := planHomes fromPlan desired) fun name _ => pointwise name
    rw [sum_map_add] at sums
    have := paid
    rw [Paid] at this
    omega
  · refine sum_le_sum fun name _ => ?_
    have := between.lower name
    have := between.nonneg name
    split <;> omega

end Between

/-- The homes that are to be emptied come down by what the retirement allowance has,
and it has no more than the other homes gained above their original count. -/
theorem reduced_paid {input : Transition} {wholeMembers : Bool} {t : TransitionCall}
    (reading : Reading input wholeMembers t) {targets : GoMap String Int}
    (recorded : ∀ name, targets.get name = (t.reduced.entry name).1)
    (between : Between input.fromPlan input.desired input.current)
    (after : Between input.fromPlan input.desired targets)
    (paid : Paid input.fromPlan input.desired input.current) :
    Paid input.fromPlan input.desired targets := by
  have covers : ∀ name ∈ planHomes input.fromPlan input.desired, name ∈ input.clusters := by
    intro name home
    have either := mem_append.mp (mem_dedup.mp (mem_filter.mp home).1)
    exact (input.mem_clusters name).mpr (by tauto)
  -- a home that is to be emptied never grows past its original count
  have within (name : String) (emptied : input.desired.targets.get name = 0) :
      input.current.get name ≤ input.fromPlan.targets.get name := by
    have := between.upper name
    have := between.original_nonneg name
    omega
  -- the reductions in part take no more than the retirement allowance
  obtain ⟨-, spent⟩ := reading.reductions_spend (fun s => max 0 s.retirementAllowance)
    partLoss fun s m member solvent start => by
      have sound := reading.sound member
      rw [reading.members_eq, mem_map] at member
      obtain ⟨name, -, rfl⟩ := member
      exact (s.planReduction_cases _).partLoss_le sound solvent start (within name)
  have allowance : t.retirementAllowance ≤
      lowered input.fromPlan input.desired + (t.members.map retirementShare).sum := by
    rw [reading.retirement_eq, reading.from_eq, reading.desired_eq]
    simp only [lowered]
    split <;> omega
  simp only [reading.members_eq, map_map, Function.comp_def,
    TransitionCall.resumeDrainedMembers] at spent allowance
  rw [Paid, between.balance_eq input.nodup_clusters covers] at paid
  rw [Paid, after.balance_eq input.nodup_clusters covers]
  -- home by home, against the balance before and against the share of the allowance
  have pointwise (name : String) :
      let lost := (input.view name).partLoss (t.reduced.entry name)
      let next := balance input.fromPlan input.desired targets name
      next ≤ balance input.fromPlan input.desired input.current name + lost ∧
        next + (input.view name).retirementShare ≤ lost := by
    have bounds := reading.reduced_target name
    rw [← recorded] at bounds
    have := between.upper name
    have share := (input.view name).retirementShare_le (between.original_nonneg name)
      (reading.current_nonneg name)
    simp only [balance, partLoss, ← recorded]
    simp only [Transition.view] at share ⊢
    constructor
    · split <;> split <;> omega
    · split <;> omega
  have kept := sum_le_sum (l := input.clusters) fun name _ => (pointwise name).1
  have funded := sum_le_sum (l := input.clusters) fun name _ => (pointwise name).2
  rw [sum_map_add] at kept funded
  simp only [Transition.view] at kept funded spent allowance
  omega

/-- A step lowers a home that is to be emptied, unless all the way, by what other homes
have gained. -/
theorem MoveStep.paid {current next : GoMap String Int}
    (move : MoveStep fromPlan desired current next) (between : Between fromPlan desired current)
    (paid : Paid fromPlan desired current) : Paid fromPlan desired next := by
  have after := move.between between
  obtain ⟨members, rolloutReserved, step, returned⟩ := move
  obtain ⟨t, reading, outcome⟩ := advance_outcome returned
  have raised (raises : ∀ name, current.get name ≤ step.targets.get name ∧
      step.targets.get name ≤ max (current.get name) (desired.targets.get name)) :
      Paid fromPlan desired step.targets := by
    refine (sum_le_sum fun name _ => ?_).trans paid
    have := raises name
    simp only [balance]
    split <;> split <;> omega
  cases outcome with
  | rests _ targets =>
    exact raised fun name => ⟨(targets name).ge, (targets name).le.trans (le_max_left _ _)⟩
  | grows still g grown recorded =>
    refine raised fun name => ?_
    have target : step.targets.get name = (g.entry name).1 :=
      congrArg Prod.fst (congrFun recorded name)
    exact target ▸ reading.grown_target still grown name
  | reduces recorded =>
    exact reduced_paid reading (fun name => congrArg Prod.fst (congrFun recorded name)) between
      after paid

theorem covers_between {primaryMinimum minimum : Int} (positive : 0 < primaryMinimum)
    (minimum_nonneg : 0 ≤ minimum)
    (fit : FloorsFit fromPlan desired primaryMinimum minimum) {targets : GoMap String Int}
    (between : Between fromPlan desired targets) (paid : Paid fromPlan desired targets) :
    Covers primaryMinimum targets minimum := by
  constructor
  · have most := fit.fits
    rw [scaledMinimum_le positive] at most ⊢
    exact (mul_le_mul_of_nonneg_right (between.total_le)
      minimum_nonneg).trans most
  · intro wanted
    rcases fit.homes with none | covered
    · have one := (le_scaledMinimum positive).mp (Int.add_one_le_of_lt wanted)
      simp [none] at one
    · have enough := covered ((planHomes fromPlan desired).filter fun name => 0 < targets.get name)
        (mem_sublists.mpr filter_sublist) fun name member common =>
          mem_filter.mpr ⟨member, by simpa using common.trans_le (between.lower name)⟩
      rw [between.positiveHomes_eq]
      rw [le_scaledMinimum positive] at enough ⊢
      exact enough.trans_le (mul_le_mul_of_nonneg_right
        (between.leastOn_le paid) minimum_nonneg)

end Mix

/-! ## Every step of a move -/

section Move

variable {fromPlan desired : Plan}

theorem start_kept (fromWell : fromPlan.WellFormed) (desiredWell : desired.WellFormed) :
    Between fromPlan desired fromPlan.targets ∧ Paid fromPlan desired fromPlan.targets := by
  refine ⟨⟨fromWell.targets_nonneg, desiredWell.targets_nonneg, fromWell.named,
    fun _ => min_le_left _ _, fun _ => le_max_left _ _⟩, ?_⟩
  have even : balance fromPlan desired fromPlan.targets = fun _ => 0 := by
    funext name
    simp [balance]
  simp [Paid, even, lowered]

/-- The largest mix has at most the replicas of both plans. -/
theorem mostTargets_le (fromWell : fromPlan.WellFormed) (desiredWell : desired.WellFormed) :
    mostTargets fromPlan desired ≤ fromPlan.targets.total + desired.targets.total := by
  have totals (plan : Plan) (well : plan.WellFormed)
      (listed : ∀ name, name ∉ planHomes fromPlan desired → plan.targets.get name = 0) :
      ((planHomes fromPlan desired).map plan.targets.get).sum = plan.targets.total :=
    sum_map_eq_of_vanish nodup_planHomes plan.targets.nodup listed
      fun name absent => plan.targets.get_int_absent absent
  have outside (name : String) (absent : name ∉ planHomes fromPlan desired) :
      fromPlan.targets.get name = 0 ∧ desired.targets.get name = 0 := by
    rw [mem_planHomes] at absent
    have := fromWell.targets_nonneg name
    have := desiredWell.targets_nonneg name
    omega
  rw [← totals fromPlan fromWell fun name absent => (outside name absent).1,
    ← totals desired desiredWell fun name absent => (outside name absent).2, ← sum_map_add]
  refine sum_le_sum fun name _ => ?_
  have := fromWell.targets_nonneg name
  have := desiredWell.targets_nonneg name
  omega

/-- **Member floors exist at every step of a move** between plans of one total, when
every secondary minimum covers the hardest mix of the two. -/
theorem floors_along_move {primary : Component} {primaryMinimum : Int}
    {minimums : GoMap Component Int} {current : GoMap String Int}
    (scaled : primary = .engine ∨ primary = .decoder) (positive : 0 < primaryMinimum)
    (primary_fits : primaryMinimum ≤ maxInt32)
    (fromWell : fromPlan.WellFormed) (desiredWell : desired.WellFormed)
    (fromTotal : fromPlan.targets.total = primaryMinimum)
    (desiredTotal : desired.targets.total = primaryMinimum)
    (fit : ∀ component ∈ minimums.keys,
      Secondary primary component (minimums.get component) ∧
        FloorsFit fromPlan desired primaryMinimum (minimums.get component))
    (run : Relation.ReflTransGen (MoveStep fromPlan desired) fromPlan.targets current) :
    ∃ floors, apportionReplicaFloors primary primaryMinimum current minimums =
      some (.ok floors) := by
  have step (current next : GoMap String Int)
      (kept : Between fromPlan desired current ∧ Paid fromPlan desired current)
      (move : MoveStep fromPlan desired current next) :
      Between fromPlan desired next ∧ Paid fromPlan desired next :=
    ⟨move.between kept.1, move.paid kept.1 kept.2⟩
  obtain ⟨between, paid⟩ := Runs.invariant_of_run step run (start_kept fromWell desiredWell)
  have homes : Homes current := by
    refine ⟨between.named, between.nonneg, ?_⟩
    have least := between.total_le
    have most := mostTargets_le fromWell desiredWell
    rw [maxInt32] at primary_fits
    omega
  refine apportionReplicaFloors_ok positive primary_fits homes scaled fun component member => ?_
  obtain ⟨secondary, covers⟩ := fit component member
  exact ⟨secondary, covers_between positive secondary.nonneg covers between paid⟩

end Move

/-- Half as many decoders follow ten engines from one home to another. -/
example : FloorsFit ⟨.ofList [("a", 10)], 0⟩ ⟨.ofList [("b", 10)], 0⟩ 10 5 :=
  ⟨by decide, .inr (by decide)⟩

/-! ## A move that passes through too many homes -/

/-- Two primary replicas on `a`. -/
def onlyA : Plan := { targets := .ofList [("a", 2)], unassigned := 0 }

/-- Two primary replicas on `b`. -/
def onlyB : Plan := { targets := .ofList [("b", 2)], unassigned := 0 }

/-- `a` serves two replicas and still holds a third one of a rollout. -/
def overOccupiedA : MemberState :=
  { known := true, eligible := true, applied := true, routable := true, ready := 2, occupied := 3 }

/-- The first call: `b` is empty, and the third replica of `a` uses one of the two
replicas of surge. -/
def beforeGrowth : Transition where
  fromPlan := onlyA
  current := onlyA.targets
  desired := onlyB
  members := .ofList [("a", overOccupiedA), ("b", { known := true, eligible := true })]
  surge := onlyB.total
  rolloutReserved := 0

/-- The second call: the first replica of `b` serves. -/
def afterGrowth (current : GoMap String Int) : Transition where
  fromPlan := onlyA
  current := current
  desired := onlyB
  members := .ofList [("a", overOccupiedA),
    ("b", { known := true, eligible := true, applied := true, routable := true,
            ready := 1, occupied := 1 })]
  surge := onlyB.total
  rolloutReserved := 0

/-- The two calls one after the other. -/
def overOccupiedMove : Except TransitionError Step :=
  (advance beforeGrowth).bind fun step => advance (afterGrowth step.targets)

theorem overOccupied_run {step : Step} (returned : overOccupiedMove = .ok step) :
    Relation.ReflTransGen (MoveStep onlyA onlyB) onlyA.targets step.targets := by
  rw [overOccupiedMove] at returned
  cases first : advance beforeGrowth with
  | error e =>
    rw [first] at returned
    cases returned
  | ok grown =>
    rw [first] at returned
    exact .tail (.single (.step _ _ grown first)) (.step _ _ step returned)

theorem onlyA_wellFormed : onlyA.WellFormed :=
  (planTotal_ok (show planTotal onlyA = .ok 2 by decide)).2

theorem onlyB_wellFormed : onlyB.WellFormed :=
  (planTotal_ok (show planTotal onlyB = .ok 2 by decide)).2

/-- With as many decoders as engines the same move keeps its floors. -/
theorem overOccupied_keeps_floors :
    ∃ current floors, Relation.ReflTransGen (MoveStep onlyA onlyB) onlyA.targets current ∧
      current.get "a" = 1 ∧ current.get "b" = 1 ∧
      apportionReplicaFloors .engine 2 current (.ofList [(.decoder, 2)]) = some (.ok floors) := by
  have reached : overOccupiedMove.map
      (fun step => (step.targets.get "a", step.targets.get "b")) = .ok (1, 1) := by
    decide
  obtain ⟨step, returned, targets⟩ := returned_of_map reached
  have run := overOccupied_run returned
  have fit : ∀ component ∈ (ofList [(Component.decoder, (2 : Int))]).keys,
      Secondary .engine component ((ofList [(Component.decoder, (2 : Int))]).get component) ∧
        FloorsFit onlyA onlyB 2
          ((ofList [(Component.decoder, (2 : Int))]).get component) := by
    intro component member
    obtain rfl : component = .decoder := mem_singleton.mp member
    exact ⟨⟨by decide, .inr (.inl rfl), by decide, by decide⟩, ⟨by decide, .inr (by decide)⟩⟩
  obtain ⟨floors, exist⟩ := floors_along_move (.inl rfl) (by decide) (by decide) onlyA_wellFormed
    onlyB_wellFormed (by decide) (by decide) fit run
  exact ⟨step.targets, floors, run, congrArg Prod.fst targets, congrArg Prod.snd targets, exist⟩

/-- How a call for floors ended: without a panic, and with which error. -/
def floorsOutcome (result : Option (Except FloorError (GoMap String (List ComponentFloor)))) :
    Option (Option FloorError) :=
  result.map fun floors => match floors with
    | .ok _ => none
    | .error e => some e

theorem exist_of_outcome
    (ended : floorsOutcome result = some none) : ∃ floors, result = some (.ok floors) := by
  match result with
  | some (.ok floors) => exact ⟨floors, rfl⟩

theorem refused_of_outcome
    {e : FloorError}
    (ended : floorsOutcome result = some (some e)) : result = some (.error e) := by
  match result with
  | some (.error e') =>
    obtain rfl : e' = e := Option.some.inj (Option.some.inj ended)
    rfl

/-- **Two plans with floors and a move between them without.**  One decoder follows
two engines.  Each plan uses one home, and the move passes through one engine on
each of two homes, whose one decoder cannot be on both. -/
theorem overOccupied_loses_floors :
    onlyA.targets.total = 2 ∧ onlyB.targets.total = 2 ∧
      (∃ floors, apportionReplicaFloors .engine 2 onlyA.targets (.ofList [(.decoder, 1)]) =
        some (.ok floors)) ∧
      (∃ floors, apportionReplicaFloors .engine 2 onlyB.targets (.ofList [(.decoder, 1)]) =
        some (.ok floors)) ∧
      ∃ current, Relation.ReflTransGen (MoveStep onlyA onlyB) onlyA.targets current ∧
        apportionReplicaFloors .engine 2 current (.ofList [(.decoder, 1)]) =
          some (.error (.tooFewReplicas .decoder 1 2 .engine)) := by
  have ended : overOccupiedMove.map (fun step => floorsOutcome
      (apportionReplicaFloors .engine 2 step.targets (.ofList [(.decoder, 1)]))) =
      .ok (some (some (.tooFewReplicas .decoder 1 2 .engine))) := by
    decide
  obtain ⟨step, returned, outcome⟩ := returned_of_map ended
  exact ⟨by decide, by decide, exist_of_outcome (by decide), exist_of_outcome (by decide),
    step.targets, overOccupied_run returned, refused_of_outcome outcome⟩

end Ome.Placement
