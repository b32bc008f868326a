/-
# Ome.Placement.Allocation.SurgeBudget — retargeting cannot manufacture surge budget

The replicas in use are what a move already occupies of its shared allowance:
for each member the larger of its target and its occupancy, and the rollout
reservation.  The growth pass raises this sum by at most the growth allowance it
spends (`Growth.spends`).  A raise up to replicas that are already ready is free
of charge, and rightly so: those replicas were in use before.

`BudgetMove` is the environment of a move whose original plan and surge stay
fixed: steps whose targets become the current ones, retargets to any plan, and
observations in which deletions may lag but nothing appears that no target asked
for.  `retargeting_keeps_surge_budget` bounds the replicas in use along every
run of these moves, however they interleave.
-/
import Ome.Placement.Allocation.Moves
import Ome.Theory.Runs

namespace Ome.Placement.Allocation

open Ome.Theory Transition TransitionCall List MemberView

set_option autoImplicit false

variable {t : TransitionCall} {wholeMembers : Bool}
variable {input : Transition}

/-! ## Replicas in use -/

namespace Transition

/-- What a member has under its applied target or still occupies. -/
def heldBy (input : Transition) (name : String) : Int :=
  max (input.current.get name) (input.members.get name).occupied

/-- The replicas in use, as `readBudget` counts them. -/
def inUse (input : Transition) : Int :=
  input.rolloutReserved + (input.clusters.map input.heldBy).sum

theorem heldBy_outside (input : Transition) {name : String} (absent : name ∉ input.clusters) :
    input.heldBy name = 0 := by
  obtain ⟨current, -, observed⟩ := input.get_outside absent
  rw [heldBy, current, observed]
  rfl

section Compare

variable (input other : Transition) (reserved : other.rolloutReserved ≤ input.rolloutReserved)
include reserved

/-- Two inputs compare by what each name holds, whatever names they list. -/
theorem inUse_le_add {names : List String} (unique : names.Nodup)
    (outside : ∀ name, name ∉ names → input.heldBy name = 0 ∧ other.heldBy name = 0) :
    other.inUse ≤
      input.inUse + (names.map fun name => other.heldBy name - input.heldBy name).sum := by
  have before := GoMap.sum_map_eq_of_vanish input.nodup_clusters unique
    (fun _ => input.heldBy_outside) (fun name absent => (outside name absent).1)
  have after := GoMap.sum_map_eq_of_vanish other.nodup_clusters unique
    (fun _ => other.heldBy_outside) (fun name absent => (outside name absent).2)
  have split : (names.map other.heldBy).sum =
      (names.map input.heldBy).sum +
        (names.map fun name => other.heldBy name - input.heldBy name).sum := by
    rw [← sum_map_add]
    simp
  rw [inUse, inUse, before, after, split]
  omega

/-- Replicas in use do not rise when no member holds more. -/
theorem inUse_mono (held : ∀ name, other.heldBy name ≤ input.heldBy name) :
    other.inUse ≤ input.inUse := by
  have bound := inUse_le_add input other reserved
    (nodup_dedup (input.clusters ++ other.clusters)) (by
      intro name absent
      simp only [mem_dedup, mem_append, not_or] at absent
      exact ⟨input.heldBy_outside absent.1, other.heldBy_outside absent.2⟩)
  have falls : (((input.clusters ++ other.clusters).dedup).map
      fun name => other.heldBy name - input.heldBy name).sum ≤ 0 := by
    refine (sum_le_card_nsmul _ 0 ?_).trans_eq (nsmul_zero _)
    intro value member
    obtain ⟨name, -, rfl⟩ := mem_map.mp member
    have := held name
    omega
  omega

end Compare

end Transition

/-! ## One step -/

/-- A visit raises what a member holds by at most what it takes from the growth
allowance: the replicas it adds free of charge are ready, so already occupied. -/
theorem TransitionCall.Growth.spends {t' : TransitionCall} {m : MemberView}
    (visit : TransitionCall.Growth t m t') (sound : m.Sound) (allowed : 0 ≤ t.growthAllowance)
    (start : t.entry m.name = (m.current, false)) :
    max (t'.entry m.name).1 m.state.occupied - m.held ≤ t.growthAllowance - t'.growthAllowance := by
  obtain ⟨target, -⟩ := Prod.mk.inj start
  cases visit with
  | kept => simp [start, held]
  | blocked =>
    have unchanged : (entry { t with budgetBlocked := true } m.name).1 =
        m.current := target
    simp [unchanged, held]
  | raised growable whole =>
    have below := growable_below growable
    have ready : m.current + t.readyGrowth m ≤ m.held := by
      have occupied := sound.ready_le
      simp only [readyGrowth, held]
      split <;> omega
    obtain ⟨atLeast, -, -⟩ := t.growth_bounds below allowed
    rw [entry_setTarget_self]
    simp only [target, setTarget, held] at ready ⊢
    omega

theorem Reading.opening_allowance (reading : Reading input wholeMembers t) :
    t.reduced.withGrowthAllowance.growthAllowance =
      max 0 (max input.fromPlan.total input.desired.total + input.surge - t.inUse) := by
  have same := t.reduced_sameRead
  have limit : max t.reduced.fromReplicas t.reduced.desiredReplicas =
      max input.fromPlan.total input.desired.total :=
    congrArg₂ max (same.fromReplicas.trans reading.from_eq)
      (same.desiredReplicas.trans reading.desired_eq)
  have surge : t.reduced.input.surge = input.surge :=
    congrArg surge (same.input.trans reading.input_eq)
  have inUse : t.reduced.inUse = t.inUse := same.inUse
  simp only [withGrowthAllowance, limit, surge, inUse]

theorem Reading.planGrowth_spends {g : TransitionCall} (reading : Reading input wholeMembers t)
    (still : t.reduced.movesReplicas = false) (grown : t.reduced.planGrowth = .ok g) :
    (t.members.map fun m => max (g.entry m.name).1 m.state.occupied - m.held).sum ≤
      max 0 (max input.fromPlan.total input.desired.total + input.surge - t.inUse) := by
  obtain rfl := planGrowth_ok grown
  have same := t.reduced_sameRead
  have members : t.reduced.members = t.members := same.members
  rw [members]
  obtain ⟨allowed, spent⟩ := KeyedPass.foldl_spend growMember_frame
    (fun s => 0 ≤ s.growthAllowance) (fun m => (m.current, false)) (fun s => s.growthAllowance)
    (fun m entry => max entry.1 m.state.occupied - m.held) t.members t.reduced.withGrowthAllowance
    reading.nodup_names
    (fun s m hm inv start => ⟨((s.growMember_cases m).target inv start).1,
      (s.growMember_cases m).spends (reading.sound hm) inv start⟩)
    (le_max_left _ _) (fun m hm => reading.still_entry still hm)
  rw [reading.opening_allowance] at spent
  omega

/-- The input of the next call, with the step's targets applied. -/
def Transition.applied (input : Transition) (step : Step) : Transition :=
  { input with current := step.targets }

theorem Reading.inUse_sum (reading : Reading input wholeMembers t) : t.inUse = input.inUse := by
  rw [reading.inUse_eq, reading.members_eq, map_map]
  rfl

/-- **One step stays in its allowance.** -/
theorem advance_inUse_le {step : Step}
    (returned : advanceTransition input wholeMembers = .ok step) :
    (input.applied step).inUse ≤
      max input.inUse (max input.fromPlan.total input.desired.total + input.surge) := by
  obtain ⟨t, reading, outcome⟩ := advance_outcome returned
  -- a step that raises no target starts no replica
  have lowered (down : ∀ name, step.targets.get name ≤ input.current.get name) :
      (input.applied step).inUse ≤ input.inUse := by
    apply inUse_mono input (input.applied step) (le_refl _)
    intro name
    have := down name
    simp only [heldBy, applied]
    omega
  cases outcome with
  | rests drain targets => exact (lowered fun name => (targets name).le).trans (le_max_left _ _)
  | reduces recorded =>
    refine (lowered fun name => ?_).trans (le_max_left _ _)
    have target : step.targets.get name = (t.reduced.entry name).1 :=
      congrArg Prod.fst (congrFun recorded name)
    rw [target]
    exact (reading.reduced_target name).1
  | grows still g grown recorded =>
    have target (name : String) : step.targets.get name = (g.entry name).1 :=
      congrArg Prod.fst (congrFun recorded name)
    have spent := reading.planGrowth_spends still grown
    rw [reading.members_eq, map_map] at spent
    have bound := inUse_le_add input (input.applied step) (le_refl _)
      input.nodup_clusters (by
        intro name absent
        refine ⟨input.heldBy_outside absent, ?_⟩
        obtain ⟨-, -, observed⟩ := input.get_outside absent
        simp only [heldBy, applied, observed, target,
          reading.grown_outside grown absent]
        rfl)
    -- what the members gain is what growth takes from the allowance
    have raised : (input.clusters.map fun name =>
        (input.applied step).heldBy name - input.heldBy name).sum ≤
        max 0 (max input.fromPlan.total input.desired.total + input.surge - t.inUse) := by
      refine le_of_eq_of_le ?_ spent
      apply congrArg List.sum
      apply map_congr_left
      intro name _
      simp only [heldBy, applied, target]
      rfl
    rw [reading.inUse_sum] at raised
    omega

/-! ## Runs -/

/-- A move in progress, and the largest total any desired plan of it had. -/
structure Moving where
  transition : Transition
  largestDesired : Int

variable {s s' : Moving}

def Moving.start (input : Transition) : Moving := ⟨input, input.desired.total⟩

/-- What can happen to a move while its original plan and its surge stay fixed. -/
inductive BudgetMove (s : Moving) : Moving → Prop where
  | step (step : Step)
      (returned : advance s.transition = .ok step ∨ advanceWholeMembers s.transition = .ok step) :
      BudgetMove s { s with transition := s.transition.applied step }
  | retarget (desired : Plan) :
      BudgetMove s
        { transition := { s.transition with desired := desired }
          largestDesired := max s.largestDesired desired.total }
  | observe (members : GoMap String MemberState) (rolloutReserved : Int)
      (occupied : ∀ name, (members.get name).occupied ≤
        max (s.transition.members.get name).occupied (s.transition.current.get name))
      (reserved : rolloutReserved ≤ s.transition.rolloutReserved) :
      BudgetMove s { s with transition := { s.transition with members, rolloutReserved } }

/-- The original plan and the surge a run keeps, and a cap that has seen every plan. -/
structure Moving.Within (fromPlan : Plan) (surge : Int) (s : Moving) : Prop where
  from_eq : s.transition.fromPlan = fromPlan
  surge_eq : s.transition.surge = surge
  seen : s.transition.desired.total ≤ s.largestDesired

theorem BudgetMove.within {fromPlan : Plan} {surge : Int}
    (within : s.Within fromPlan surge) (move : BudgetMove s s') : s'.Within fromPlan surge := by
  cases move with
  | step | observe => exact ⟨within.from_eq, within.surge_eq, within.seen⟩
  | retarget => exact ⟨within.from_eq, within.surge_eq, le_max_right _ _⟩

theorem BudgetMove.largestDesired_le (move : BudgetMove s s') :
    s.largestDesired ≤ s'.largestDesired := by
  cases move with
  | step | observe => exact le_refl _
  | retarget => exact le_max_left _ _

theorem BudgetMove.inUse_le {fromPlan : Plan} {surge : Int}
    (within : s.Within fromPlan surge) (move : BudgetMove s s') :
    s'.transition.inUse ≤
      max s.transition.inUse (max fromPlan.total s'.largestDesired + surge) := by
  cases move with
  | step step returned =>
    obtain ⟨whole, returned⟩ : ∃ whole, advanceTransition s.transition whole = .ok step :=
      returned.elim (fun h => ⟨false, h⟩) (fun h => ⟨true, h⟩)
    have bound := advance_inUse_le returned
    have seen := within.seen
    rw [within.from_eq, within.surge_eq] at bound
    simp only
    omega
  | retarget desired =>
    apply le_max_of_le_left
    exact inUse_mono s.transition { s.transition with desired := desired }
      (le_refl _) (fun _ => le_refl _)
  | observe members rolloutReserved occupied reserved =>
    apply le_max_of_le_left
    apply inUse_mono s.transition { s.transition with members, rolloutReserved }
      reserved
    intro name
    have := occupied name
    simp only [heldBy]
    omega

/-- **Retargeting cannot manufacture surge budget.**  Along every run the
replicas in use stay within the start and the largest plan seen plus the surge. -/
theorem retargeting_keeps_surge_budget {input : Transition} {s : Moving}
    (run : Relation.ReflTransGen BudgetMove (Moving.start input) s) :
    s.transition.inUse ≤
      max input.inUse (max input.fromPlan.total s.largestDesired + input.surge) := by
  have bounded := Runs.bound_of_run (Moving.Within input.fromPlan input.surge)
    (fun s => s.transition.inUse)
    (fun s => max input.fromPlan.total s.largestDesired + input.surge)
    (fun _ _ within move => move.within within)
    (fun _ _ _ move => by have := move.largestDesired_le; omega)
    (fun _ _ within move => move.inUse_le within) run ⟨rfl, rfl, le_refl _⟩
  exact bounded.2

/-- Two serving replicas of `a` that are to move to `b`, one at a time. -/
def firstReplacement : Transition where
  fromPlan := { targets := .ofList [("a", 2)], unassigned := 0 }
  current := .ofList [("a", 2)]
  desired := { targets := .ofList [("b", 2)], unassigned := 0 }
  members := .ofList
    [("a", { known := true, eligible := true, applied := true, routable := true,
             ready := 2, occupied := 2 }),
     ("b", { known := true, eligible := true })]
  surge := 1
  rolloutReserved := 0

/-- A step that grows `b`, then a retarget to three replicas on `c`. -/
theorem firstReplacement_keeps_surge_budget :
    ∃ s, Relation.ReflTransGen BudgetMove (Moving.start firstReplacement) s ∧
      s.transition.current.get "b" = 1 ∧ s.largestDesired = 3 ∧
      s.transition.inUse ≤
        max firstReplacement.inUse
          (max firstReplacement.fromPlan.total s.largestDesired + firstReplacement.surge) := by
  have read : (advance firstReplacement).map (fun step => step.targets.get "b") = .ok 1 := by
    decide
  obtain ⟨step, accepted, grown⟩ := returned_of_map read
  have grows : BudgetMove (Moving.start firstReplacement)
      { Moving.start firstReplacement with transition := firstReplacement.applied step } :=
    .step step (Or.inl accepted)
  have run := (Relation.ReflTransGen.single grows).tail
    (.retarget { targets := .ofList [("c", 3)], unassigned := 0 })
  exact ⟨_, run, grown, rfl, retargeting_keeps_surge_budget run⟩

end Ome.Placement.Allocation
