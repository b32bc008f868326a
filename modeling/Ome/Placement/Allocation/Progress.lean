/-
# Ome.Placement.Allocation.Progress — a bounded move finishes

The environment here cooperates: after each step the targets are applied, every
replica comes up ready, a drained member leaves routing and a member without a
target empties (`Cooperates`).  Under it a move to a fully assigned plan, with a
surge of at least one replica, cannot wedge:

* `Cooperative.total_le_desired`: when the reduction pass moves nothing, the
  targets are not above the desired total, because a larger total funds both
  allowances and some member could come down;
* `Cooperative.reached`: when the growth pass moves nothing either, every target
  is at its goal, because a total below the limit leaves growth allowance;
* `Cooperative.advances`: a step that is not the last one lowers `remaining`,
  the distance to the goals plus the members still to be drained.

`bounded_move_finishes` puts them together for every cooperative environment.
The sums the code itself refuses (`surgeOverflow` and the plan totals) are the
only ones excluded; `widestSurge_refused` shows that they must be.
-/
import Ome.Placement.Allocation.SurgeBudget

namespace Ome.Placement.Allocation

open Ome.Theory TransitionCall List GoMap MemberView

set_option autoImplicit false

variable {m : MemberView} {g : TransitionCall} {name : String}

/-! ## The cooperative environment -/

/-- An observation that has caught up with an applied target. -/
structure MemberState.Converged (s : MemberState) (target : Int) : Prop where
  known : s.known = true
  eligible : s.eligible = true
  applied : s.applied = true
  ready : s.ready = target
  occupied : s.occupied = target
  routable : s.routable = true ↔ 0 < target ∧ s.drained = false
  present : s.absent = true → target = 0

/-- Every member has caught up. -/
def Transition.Converged (input : Transition) : Prop :=
  ∀ name ∈ input.clusters, (input.members.get name).Converged (input.current.get name)

/-- A move to a fully assigned plan with some surge, whose sums the code accepts. -/
structure Transition.Bounded (input : Transition) : Prop where
  fromPlan : input.fromPlan.WellFormed
  desired : input.desired.WellFormed
  current : Plan.WellFormed { targets := input.current, unassigned := 0 }
  named : "" ∉ input.members.keys
  assigned : input.desired.unassigned = 0
  surge : 1 ≤ input.surge
  unreserved : input.rolloutReserved = 0
  fits : max input.fromPlan.total input.desired.total + input.surge ≤ maxInt64
  currentFits : input.current.total ≤ maxInt64

/-- What the environment makes of a step.  A drained member stays drained while
it has a target, and may lose the mark when it is empty. -/
structure Cooperates (input : Transition) (step : Step) (next : Transition) : Prop where
  fromPlan : next.fromPlan = input.fromPlan
  desired : next.desired = input.desired
  surge : next.surge = input.surge
  rolloutReserved : next.rolloutReserved = input.rolloutReserved
  current : next.current = step.targets
  named : "" ∉ next.members.keys
  converged : next.Converged
  drains : ∀ name ∈ step.drain, (next.members.get name).drained = true
  stays : ∀ name, name ∉ step.drain → 0 < step.targets.get name →
    (next.members.get name).drained = (input.members.get name).drained
  undrained : ∀ name, name ∉ step.drain → (input.members.get name).drained = false →
    (next.members.get name).drained = false

/-- The states of a cooperative move: only members that are to be emptied drain. -/
structure Cooperative (input : Transition) : Prop where
  bounded : input.Bounded
  converged : input.Converged
  retiring : ∀ name, (input.members.get name).drained = true → input.desired.targets.get name = 0

theorem MemberState.Converged.consistent {s : MemberState} {target : Int}
    (converged : s.Converged target) (nonneg : 0 ≤ target) : s.inconsistent = false := by
  obtain ⟨known, -, -, ready, occupied, routable, present⟩ := converged
  simp only [inconsistent, Bool.or_eq_false_iff, decide_eq_false_iff_not, Int.not_lt,
    Bool.and_eq_false_iff, Bool.not_eq_false']
  refine ⟨⟨⟨⟨by omega, by omega⟩, by omega⟩, ?_⟩, ?_⟩
  · cases gone : s.absent with
    | false => exact Or.inl rfl
    | true => exact Or.inr ⟨known, by have := present gone; omega⟩
  · cases drained : s.drained with
    | false => exact Or.inl rfl
    | true =>
      refine Or.inr (Bool.eq_false_iff.mpr fun routed => ?_)
      rw [drained] at routable
      exact Bool.noConfusion (routable.mp routed).2

namespace Transition

variable (input : Transition)

theorem total_current : input.current.total = (input.clusters.map input.current.get).sum :=
  input.current.total_eq_sum_map input.nodup_clusters fun name member =>
    (input.mem_clusters name).mpr (Or.inr (Or.inr (Or.inl member)))

theorem total_desired :
    input.desired.targets.total = (input.clusters.map input.desired.targets.get).sum :=
  input.desired.targets.total_eq_sum_map input.nodup_clusters fun name member =>
    (input.mem_clusters name).mpr (Or.inl member)

theorem total_from :
    input.fromPlan.targets.total = (input.clusters.map input.fromPlan.targets.get).sum :=
  input.fromPlan.targets.total_eq_sum_map input.nodup_clusters fun name member =>
    (input.mem_clusters name).mpr (Or.inr (Or.inl member))

end Transition

namespace Cooperative

variable {input : Transition} (coop : Cooperative input)
include coop

theorem heldBy_eq (name : String) : input.heldBy name = input.current.get name := by
  by_cases listed : name ∈ input.clusters
  · rw [Transition.heldBy, (coop.converged name listed).occupied, max_self]
  · obtain ⟨current, -, -⟩ := input.get_outside listed
    rw [input.heldBy_outside listed, current]

theorem inUse_eq : input.inUse = input.current.total := by
  rw [Transition.inUse, coop.bounded.unreserved, input.total_current, Int.zero_add]
  exact congrArg List.sum (map_congr_left fun name _ => coop.heldBy_eq name)

theorem limits : input.fromPlan.total ≤ maxInt64 ∧ input.desired.total ≤ maxInt64 := by
  have fits := coop.bounded.fits
  have surge := coop.bounded.surge
  omega

theorem accepted : ∃ t step, Reading input false t ∧ t.decide = .ok step ∧
    advance input = .ok step := by
  have bounded := coop.bounded
  have consistent : ∀ m ∈ input.clusters.map input.view, m.state.inconsistent = false := by
    intro m member
    obtain ⟨name, listed, rfl⟩ := mem_map.mp member
    exact (coop.converged name listed).consistent (bounded.current.targets_nonneg name)
  have surge : 0 ≤ input.surge := by have := bounded.surge; omega
  have heldFits : input.rolloutReserved +
      ((input.clusters.map input.view).map held).sum ≤ maxInt64 := by
    have total := coop.inUse_eq
    have fits := bounded.currentFits
    rw [map_map]
    change input.inUse ≤ maxInt64
    omega
  have read : readTransition input false = .ok (counted input false) :=
    readTransition_accepts bounded.fromPlan bounded.desired bounded.current surge
      bounded.unreserved.ge bounded.named consistent coop.limits.1 coop.limits.2
      bounded.currentFits heldFits
  have reading := readTransition_reading read
  obtain ⟨step, decided⟩ := decide_accepts (by
    rw [reading.from_eq, reading.desired_eq, reading.input_eq]
    exact bounded.fits)
  refine ⟨_, step, reading, decided, ?_⟩
  simp only [advance, advanceTransition, read]
  exact decided

end Cooperative

/-! ## Passes that move nothing -/

namespace TransitionCall

/-- A visit that leaves its record alone leaves everything alone. -/
theorem Reduction.still {t t' : TransitionCall} (visit : Reduction t m t')
    (start : t.entry m.name = (m.current, false))
    (unchanged : t'.entry m.name = (m.current, false)) : t' = t := by
  obtain ⟨target, -⟩ := Prod.mk.inj start
  cases visit with
  | kept => rfl
  | drainedUnrouted | drainedFunded | emptied =>
    rw [entry_addDrain_self] at unchanged
    exact Bool.noConfusion (congrArg Prod.snd unchanged)
  | absent gone above =>
    rw [entry_setTarget_self] at unchanged
    have same : m.goal = m.current := congrArg Prod.fst unchanged
    omega
  | lowered reducible nonzero whole partly =>
    rw [entry_setTarget_self, target] at unchanged
    have same : m.current - t.fundedReduction m = m.current := congrArg Prod.fst unchanged
    omega

/-- A funded visit of a partial move leaves a mark. -/
theorem planReduction_moves (t : TransitionCall) (reducible : m.reducible = true)
    (targeted : 0 < m.current) (present : m.state.absent = false)
    (partly : t.wholeMembers = false) (funded : t.fundedReduction m ≠ 0)
    (start : t.entry m.name = (m.current, false)) :
    (t.planReduction m).entry m.name ≠ (m.current, false) := by
  obtain ⟨target, -⟩ := Prod.mk.inj start
  have occupied : m.occupiedWithoutTarget = false := by
    have nonzero : m.current ≠ 0 := by omega
    simp [occupiedWithoutTarget, nonzero]
  intro unchanged
  simp only [planReduction, occupied, present, reducible, Bool.false_eq_true, if_false,
    Bool.false_and, if_true, reduceFunded, partly, Bool.or_false, beq_iff_eq, funded] at unchanged
  split at unchanged
  · rw [entry_addDrain_self] at unchanged
    exact Bool.noConfusion (congrArg Prod.snd unchanged)
  · rw [entry_setTarget_self] at unchanged
    have same := congrArg Prod.fst unchanged
    simp only [target] at same
    omega

/-- A visit of a partial move that leaves its record alone spends nothing. -/
theorem Growth.still {t t' : TransitionCall} (visit : Growth t m t')
    (allowed : 0 ≤ t.growthAllowance) (start : t.entry m.name = (m.current, false))
    (unchanged : t'.entry m.name = (m.current, false)) :
    t'.growthAllowance = t.growthAllowance := by
  obtain ⟨target, -⟩ := Prod.mk.inj start
  cases visit with
  | kept | blocked => rfl
  | raised growable whole =>
    have below := growable_below growable
    obtain ⟨nonneg, -⟩ := t.readyGrowth_bounds below
    obtain ⟨atLeast, -, -⟩ := t.growth_bounds below allowed
    rw [entry_setTarget_self, target] at unchanged
    have same : m.current + t.growth m = m.current := congrArg Prod.fst unchanged
    simp only [setTarget]
    omega

/-- Growth allowance raises every growable member of a partial move. -/
theorem growMember_moves (t : TransitionCall) (growable : m.growable = true)
    (partly : t.wholeMembers = false) (allowed : 1 ≤ t.growthAllowance)
    (start : t.entry m.name = (m.current, false)) :
    (t.growMember m).entry m.name ≠ (m.current, false) := by
  obtain ⟨target, -⟩ := Prod.mk.inj start
  have below := growable_below growable
  obtain ⟨nonneg, -⟩ := t.readyGrowth_bounds below
  intro unchanged
  simp only [growMember, growable, partly, Bool.not_true, Bool.false_eq_true, if_false,
    Bool.false_and] at unchanged
  rw [entry_setTarget_self] at unchanged
  have same := congrArg Prod.fst unchanged
  simp only [target] at same
  omega

end TransitionCall

namespace Reading

variable {input : Transition} {wholeMembers : Bool} {t : TransitionCall}
variable (reading : Reading input wholeMembers t)
include reading

/-- When the reduction pass moves nothing, every member was visited with the
allowances the pass began with. -/
theorem still_reduction (still : t.reduced.movesReplicas = false) (member : m ∈ t.members) :
    ∃ u : TransitionCall, u.retirementAllowance = t.retirementAllowance ∧
      u.servingAboveMinimum = t.servingAboveMinimum ∧ u.wholeMembers = wholeMembers ∧
      u.entry m.name = (m.current, false) ∧
      (u.planReduction m).entry m.name = (m.current, false) := by
  have perm := t.resumeDrainedMembers.reductionOrder_perm
  have final {m : MemberView} (hm : m ∈ t.members) :
      t.reduced.entry m.name = (m.current, false) := reading.still_entry still hm
  obtain ⟨u, ⟨retirement, serving, whole⟩, start, visited⟩ := KeyedPass.foldl_visit
    planReduction_frame
    (fun s => s.retirementAllowance = t.retirementAllowance ∧
      s.servingAboveMinimum = t.servingAboveMinimum ∧ s.wholeMembers = wholeMembers)
    (fun m => (m.current, false)) t.resumeDrainedMembers.reductionOrder t.resumeDrainedMembers
    ((perm.map name).nodup_iff.mpr reading.nodup_names)
    (fun s m hm inv start unchanged => by
      rw [(s.planReduction_cases m).still start
        (unchanged.trans (final (perm.mem_iff.mp hm)))]
      exact inv)
    ⟨rfl, rfl, reading.whole_eq⟩
    (fun m hm => reading.start_entry (perm.mem_iff.mp hm)) m (perm.mem_iff.mpr member)
  exact ⟨u, retirement, serving, whole, start, visited.symm.trans (final member)⟩

/-- When the growth pass moves nothing, every member was visited with the
allowance the pass began with. -/
theorem still_growth (still : t.reduced.movesReplicas = false)
    (grown : t.reduced.planGrowth = .ok g)
    (rests : g.movesReplicas = false) (member : m ∈ t.members) :
    ∃ u : TransitionCall,
      u.growthAllowance = max 0 (max input.fromPlan.total input.desired.total + input.surge
        - t.inUse) ∧ u.wholeMembers = wholeMembers ∧
      u.entry m.name = (m.current, false) ∧
      (u.growMember m).entry m.name = (m.current, false) := by
  obtain rfl := planGrowth_ok grown
  have same := t.reduced_sameRead
  have members : t.reduced.members = t.members := same.members
  have final {m : MemberView} (hm : m ∈ t.members) :
      (t.members.foldl growMember t.reduced.withGrowthAllowance).entry m.name =
        (m.current, false) := by
    have outcome := movesReplicas_eq_false rests
    rw [members] at outcome
    have input_eq : (t.members.foldl growMember
        t.reduced.withGrowthAllowance).input = input :=
      ((foldl_sameRead (fun t m => (t.growMember_cases m).sameRead) t.members
        t.reduced.withGrowthAllowance).input.trans same.input).trans reading.input_eq
    rw [input_eq] at outcome
    rw [reading.members_eq, mem_map] at hm
    obtain ⟨name, -, rfl⟩ := hm
    exact Prod.ext (outcome.2 name) (by simp [entry, outcome.1])
  obtain ⟨u, ⟨allowance, whole⟩, start, visited⟩ := KeyedPass.foldl_visit
    growMember_frame
    (fun s => s.growthAllowance = t.reduced.withGrowthAllowance.growthAllowance ∧
      s.wholeMembers = wholeMembers)
    (fun m => (m.current, false)) t.members t.reduced.withGrowthAllowance reading.nodup_names
    (fun s m hm inv start unchanged =>
      ⟨((s.growMember_cases m).still (inv.1 ▸ le_max_left _ _) start
        (unchanged.trans (final hm))).trans inv.1,
      (s.growMember_cases m).sameRead.whole.trans inv.2⟩)
    ⟨rfl, same.whole.trans reading.whole_eq⟩
    (fun m hm => reading.still_entry still hm) m member
  exact ⟨u, allowance.trans reading.opening_allowance, whole, start,
    visited.symm.trans (final member)⟩

theorem moves_of_input {u : TransitionCall} (same : u.input = t.input)
    (moves : u.movesReplicas = true) :
    u.step.drain ≠ [] ∨ ∃ name, u.step.targets.get name ≠ input.current.get name := by
  by_contra rests
  push Not at rests
  have sameTargets := (sameTargets_iff u.step.targets u.input.current).mpr (by
    rw [same, reading.input_eq]
    exact rests.2)
  simp [movesReplicas, rests.1, sameTargets] at moves

end Reading

namespace Cooperative

variable {input : Transition} (coop : Cooperative input) {t : TransitionCall}
variable (reading : Reading input false t) (still : t.reduced.movesReplicas = false)
include coop

theorem view_converged (reading : Reading input false t) (member : m ∈ t.members) :
    m.state.Converged m.current ∧ (m.state.drained = true → m.goal = 0) := by
  rw [reading.members_eq, mem_map] at member
  obtain ⟨name, listed, rfl⟩ := member
  exact ⟨coop.converged name listed, coop.retiring name⟩

include reading still

/-- A drained member comes down for free, so none has a target left. -/
theorem drained_empty (member : m ∈ t.members) (drained : m.state.drained = true) :
    m.current = 0 := by
  obtain ⟨converged, retiring⟩ := coop.view_converged reading member
  have goal := retiring drained
  have nonneg := (reading.sound member).current_nonneg
  by_contra targeted
  have positive : 0 < m.current := by omega
  have unrouted : m.state.routable = false :=
    (reading.sound member).drained_unrouted drained
  have present : m.state.absent = false :=
    Bool.eq_false_iff.mpr fun gone => targeted (converged.present gone)
  obtain ⟨u, -, -, whole, start, unchanged⟩ := reading.still_reduction still member
  refine u.planReduction_moves ?_ positive present whole ?_ start unchanged
  · simp [reducible, goal, positive, converged.known, converged.applied]
  · simp only [fundedReduction, unbackedReplicas, drained, unrouted,
      if_true, Bool.false_eq_true, if_false, goal]
    omega

theorem servingShare_eq (member : m ∈ t.members) : m.servingShare = m.current := by
  obtain ⟨converged, -⟩ := coop.view_converged reading member
  have nonneg := (reading.sound member).current_nonneg
  have empty := coop.drained_empty reading still member
  simp only [servingShare, MemberState.serving, converged.known, converged.applied,
    Bool.true_and, converged.ready, min_self]
  split
  · rfl
  · rename_i unrouted
    rw [converged.routable] at unrouted
    by_cases drained : m.state.drained
    · exact (empty drained).symm
    · simp only [Bool.not_eq_true] at drained
      simp only [drained, and_true] at unrouted
      omega

theorem retirementShare_eq (member : m ∈ t.members) :
    m.retirementShare = m.current - m.original := by
  obtain ⟨converged, -⟩ := coop.view_converged reading member
  have original := (reading.sound member).original_nonneg
  have empty := coop.drained_empty reading still member
  have serving := coop.servingShare_eq reading still member
  have drainedTerm : (if m.state.drained then min m.original m.current else 0) = 0 := by
    split
    · rename_i drained
      have := empty drained
      omega
    · rfl
  have servingTerm : (if m.state.serving then max 0 (min m.state.ready m.current - m.original)
      else 0) = max 0 (m.current - m.original) := by
    simp only [servingShare, converged.ready, min_self] at serving ⊢
    split at serving
    · rename_i serves
      rw [if_pos serves]
    · rename_i idle
      rw [if_neg idle]
      omega
  rw [retirementShare, drainedTerm, servingTerm]
  omega

/-- Serving above the desired total funds both allowances of a reduction. -/
theorem allowances_funded (above : input.desired.total < input.current.total) :
    1 ≤ t.retirementAllowance ∧ 1 ≤ t.servingAboveMinimum := by
  have serving : t.servingReady = input.current.total := by
    rw [reading.servingReady_eq, input.total_current,
      map_congr_left fun m member => coop.servingShare_eq reading still member,
      reading.members_eq, map_map]
    rfl
  have retired : (t.members.map retirementShare).sum + input.fromPlan.targets.total =
      input.current.total := by
    rw [map_congr_left fun m member => coop.retirementShare_eq reading still member,
      reading.members_eq, map_map, input.total_from, input.total_current, ← sum_map_add]
    apply congrArg List.sum
    apply map_congr_left
    intro name _
    simp [Transition.view]
  have unassigned := coop.bounded.fromPlan.unassigned_nonneg
  have total : input.fromPlan.total = input.fromPlan.unassigned + input.fromPlan.targets.total :=
    rfl
  constructor
  · rw [reading.retirement_eq, reading.from_eq, reading.desired_eq, serving]
    dsimp only
    split <;> omega
  · rw [reading.servingAboveMinimum_eq, reading.from_eq, reading.desired_eq, serving]
    omega

/-- When the reduction pass moves nothing, the targets are not above the plan. -/
theorem total_le_desired : input.current.total ≤ input.desired.total := by
  by_contra above
  obtain ⟨retirement, serving⟩ := coop.allowances_funded reading still (by omega)
  -- Some member is above its goal, and both allowances would have brought it down.
  obtain ⟨m, member, falls⟩ : ∃ m ∈ t.members, m.goal < m.current := by
    by_contra none
    push Not at none
    apply above
    have assigned := coop.bounded.assigned
    rw [Plan.total, assigned, Int.zero_add, input.total_current, input.total_desired]
    apply sum_le_sum
    intro name listed
    exact none _ (reading.view_mem listed)
  obtain ⟨converged, -⟩ := coop.view_converged reading member
  have goal := (reading.sound member).goal_nonneg
  have positive : 0 < m.current := by omega
  have undrained : m.state.drained = false := by
    apply Bool.eq_false_iff.mpr
    intro drained
    have := coop.drained_empty reading still member drained
    omega
  have routed : m.state.routable = true := converged.routable.mpr ⟨positive, undrained⟩
  have present : m.state.absent = false := by
    apply Bool.eq_false_iff.mpr
    intro gone
    have := converged.present gone
    omega
  have nonzero : m.current ≠ 0 := by omega
  obtain ⟨u, sameRetirement, sameServing, whole, start, unchanged⟩ :=
    reading.still_reduction still member
  refine u.planReduction_moves ?_ positive present whole ?_ start unchanged
  · simp [reducible, falls, converged.known, converged.applied]
  · simp only [fundedReduction, unbackedReplicas, undrained, routed,
      converged.ready, whole, Bool.false_eq_true, if_false, if_true, Bool.not_true,
      Bool.false_or, Bool.or_false, beq_iff_eq, nonzero]
    omega

/-- When the growth pass moves nothing either, every target is at its goal. -/
theorem reached (grown : t.reduced.planGrowth = .ok g) (rests : g.movesReplicas = false)
    (member : m ∈ t.members) : m.current = m.goal := by
  have total := coop.total_le_desired reading still
  have inUse : t.inUse = input.current.total := reading.inUse_sum.trans coop.inUse_eq
  have surge := coop.bounded.surge
  have notBelow : ∀ other ∈ t.members, other.goal ≤ other.current := by
    intro other hother
    by_contra below
    obtain ⟨converged, -⟩ := coop.view_converged reading hother
    obtain ⟨u, allowance, whole, start, unchanged⟩ :=
      reading.still_growth still grown rests hother
    refine u.growMember_moves ?_ whole (by omega) start unchanged
    simp [growable, not_le.mp below, converged.known, converged.eligible,
      converged.applied]
  by_contra differs
  have less : input.desired.total < input.current.total := by
    have assigned := coop.bounded.assigned
    rw [Plan.total, assigned, Int.zero_add, input.total_current, input.total_desired]
    have atMember := notBelow m member
    rw [reading.members_eq, mem_map] at member
    obtain ⟨name, listed, rfl⟩ := member
    apply sum_lt_sum
    · intro other hother
      exact notBelow _ (reading.view_mem hother)
    · refine ⟨name, listed, ?_⟩
      simp only [Transition.view] at atMember differs
      omega
  omega

end Cooperative

/-! ## The measure -/

namespace Transition

variable (input : Transition)

/-- How far a member is from its goal, and whether it is still to be drained. -/
def remainingOf (name : String) : Nat :=
  (input.current.get name - input.desired.targets.get name).natAbs +
    (if 0 < input.current.get name ∧ input.desired.targets.get name = 0 ∧
        (input.members.get name).drained = false then 1 else 0)

def remaining : Nat := (input.clusters.map input.remainingOf).sum

theorem remainingOf_outside (absent : name ∉ input.clusters) : input.remainingOf name = 0 := by
  obtain ⟨current, goal, -⟩ := input.get_outside absent
  simp [remainingOf, current, goal]

theorem remaining_lt {next : Transition}
    (le : ∀ name, next.remainingOf name ≤ input.remainingOf name) (name : String)
    (lt : next.remainingOf name < input.remainingOf name) : next.remaining < input.remaining := by
  let names := (input.clusters ++ next.clusters).dedup
  have outside (other : String) (absent : other ∉ names) :
      other ∉ input.clusters ∧ other ∉ next.clusters := by
    simpa [names] using absent
  have before := sum_map_eq_of_vanish input.nodup_clusters (nodup_dedup _)
    (fun _ => input.remainingOf_outside)
    (fun other absent => input.remainingOf_outside (outside other absent).1)
  have after := sum_map_eq_of_vanish next.nodup_clusters (nodup_dedup _)
    (fun _ => next.remainingOf_outside)
    (fun other absent => next.remainingOf_outside (outside other absent).2)
  rw [remaining, remaining, before, after]
  apply sum_lt_sum _ _ (fun other _ => le other)
  refine ⟨name, ?_, lt⟩
  by_contra absent
  have := input.remainingOf_outside (outside name absent).1
  omega

end Transition

namespace Cooperative

variable {input next : Transition} (coop : Cooperative input) {step : Step}
variable (env : Cooperates input step next)
include coop env

/-- A step whose targets stay between the current ones and the goals, and that
drains only members to be emptied, moves to a cooperative state. -/
theorem next_cooperative (returned : advance input = .ok step)
    (nonneg : ∀ name, 0 ≤ step.targets.get name)
    (drains : ∀ name ∈ step.drain, input.desired.targets.get name = 0) : Cooperative next := by
  have bounded := coop.bounded
  have total : step.targets.total ≤ (input.applied step).inUse := by
    rw [Transition.inUse, show (input.applied step).rolloutReserved = 0 from bounded.unreserved,
      Int.zero_add]
    have covers := (input.applied step).total_current
    refine covers.le.trans (sum_le_sum fun name _ => ?_)
    exact le_max_left _ _
  have spent := advance_inUse_le returned
  rw [coop.inUse_eq] at spent
  have fits := bounded.fits
  have currentFits := bounded.currentFits
  obtain ⟨keys, -⟩ := advance_keys returned
  obtain ⟨t, -, reading, -⟩ := coop.accepted
  obtain ⟨fromPlan, current, desired, members, surge, reserved⟩ := next
  obtain ⟨rfl, rfl, rfl, rfl, rfl, named, converged, -, -, stays⟩ := env
  have positive : Plan.WellFormed { targets := step.targets, unassigned := 0 } :=
    ⟨le_refl _, fun member => reading.unnamed_cluster (keys _ member), nonneg⟩
  have reachedFits : step.targets.total ≤ maxInt64 := by omega
  refine ⟨{ bounded with current := positive, named, currentFits := reachedFits }, converged,
    fun name drained => ?_⟩
  by_cases listed : name ∈ step.drain
  · exact drains name listed
  · apply coop.retiring
    by_contra undrained
    rw [stays name listed (by simpa using undrained)] at drained
    cases drained

variable (between : ∀ name, min (input.current.get name) (input.desired.targets.get name) ≤
    step.targets.get name ∧
      step.targets.get name ≤ max (input.current.get name) (input.desired.targets.get name))
  (drains : ∀ name ∈ step.drain, 0 < input.current.get name ∧
    input.desired.targets.get name = 0 ∧ (input.members.get name).drained = false)
  (moves : step.drain ≠ [] ∨ ∃ name, step.targets.get name ≠ input.current.get name)

include between drains moves

omit coop in
/-- A target that comes closer to its goal, or a member that starts to drain,
leaves less to do. -/
theorem remaining_falls : next.remaining < input.remaining := by
  have current (name : String) : next.current.get name = step.targets.get name := by
    rw [env.current]
  have goal (name : String) :
      next.desired.targets.get name = input.desired.targets.get name := by
    rw [env.desired]
  -- What is still to be drained afterwards was to be drained before.
  have toDrain (name : String) (after : 0 < step.targets.get name ∧
      input.desired.targets.get name = 0 ∧ (next.members.get name).drained = false) :
      0 < input.current.get name ∧ input.desired.targets.get name = 0 ∧
        (input.members.get name).drained = false := by
    obtain ⟨target, zero, undrained⟩ := after
    have range := between name
    refine ⟨by omega, zero, ?_⟩
    by_cases listed : name ∈ step.drain
    · rw [env.drains name listed] at undrained
      cases undrained
    · rw [← env.stays name listed target]
      exact undrained
  have falls (name : String) : next.remainingOf name ≤ input.remainingOf name ∧
      (step.targets.get name ≠ input.current.get name →
        next.remainingOf name < input.remainingOf name) := by
    have range := between name
    have drain := toDrain name
    simp only [Transition.remainingOf, current, goal]
    split
    · rename_i after
      rw [if_pos (drain after)]
      omega
    · split <;> omega
  have le (name : String) := (falls name).1
  rcases moves with nonempty | ⟨name, differs⟩
  · obtain ⟨name, listed⟩ := exists_mem_of_ne_nil _ nonempty
    have range := between name
    apply input.remaining_lt le name
    simp only [Transition.remainingOf, current, goal]
    rw [if_pos (drains name listed), if_neg]
    · omega
    · rintro ⟨-, -, undrained⟩
      rw [env.drains name listed] at undrained
      cases undrained
  · exact input.remaining_lt le name ((falls name).2 differs)

theorem moves_on (returned : advance input = .ok step) :
    Cooperative next ∧ next.remaining < input.remaining := by
  refine ⟨coop.next_cooperative env returned (fun name => ?_)
    fun name listed => (drains name listed).2.1, remaining_falls env between drains moves⟩
  have range := between name
  have current : 0 ≤ input.current.get name := coop.bounded.current.targets_nonneg name
  have goal := coop.bounded.desired.targets_nonneg name
  omega

end Cooperative

/-! ## One step, and the whole move -/

namespace Cooperative

variable {input : Transition} (coop : Cooperative input) {t : TransitionCall}
variable (reading : Reading input false t)
include coop reading

/-- The reduction pass of a cooperative call drains only targets that are to go. -/
theorem reduced_drains (listed : name ∈ t.reduced.step.drain) :
    0 < input.current.get name ∧ input.desired.targets.get name = 0 ∧
      (input.members.get name).drained = false := by
  have marked : (t.reduced.entry name).2 = true := by simpa [entry] using listed
  by_cases named : name ∈ input.clusters
  · have member := reading.view_mem named
    have sound := reading.sound member
    obtain ⟨converged, -⟩ := coop.view_converged reading member
    obtain ⟨u, solvent, start, visited⟩ := reading.reduction_visit member
    rw [show t.reduced.entry name = _ from visited] at marked
    have empty : (input.view name).occupiedWithoutTarget = false := by
      by_cases zero : (input.view name).current = 0
      · simp [occupiedWithoutTarget, converged.occupied, zero]
      · simp [occupiedWithoutTarget, zero]
    rcases (u.planReduction_cases (input.view name)).drains sound solvent start marked with
      untargeted | emptied
    · rw [empty] at untargeted
      cases untargeted
    · exact emptied
  · rw [reading.reduced_outside named] at marked
    cases marked

theorem observed : t.hasUnknownStandingMember = false := by
  simp only [hasUnknownStandingMember, any_eq_false]
  intro m member
  simp [unknownStanding, (coop.view_converged reading member).1.known]

theorem resumed : t.resumeDrainedMembers.step.resume = [] := by
  simp only [resumeDrainedMembers, map_eq_nil_iff, filter_eq_nil_iff]
  intro m member needs
  simp only [needsResume, Bool.and_eq_true, decide_eq_true_eq] at needs
  have goal := (coop.view_converged reading member).2 needs.2
  omega

theorem arrived (still : t.reduced.movesReplicas = false)
    (grown : t.reduced.planGrowth = .ok g) (rests : g.movesReplicas = false) :
    (g.targetsGrow || g.targetsShrink) = false ∧ g.hasUnsettledMember = false ∧
      ∀ name, g.step.targets.get name = input.desired.targets.get name := by
  have same := (t.reduced_sameRead).trans (planGrowth_sameRead grown)
  have reached {m : MemberView} (member : m ∈ t.members) : m.current = m.goal :=
    coop.reached reading still grown rests member
  have members : g.members = t.members := same.members
  refine ⟨?_, ?_, ?_⟩
  · rw [same.grow, same.shrink]
    simp only [resumeDrainedMembers, reading.grow_eq, reading.shrink_eq,
      Bool.or_eq_false_iff, any_eq_false, decide_eq_true_eq]
    constructor
    · intro m member
      have := reached member
      omega
    · intro m member
      have := reached member
      omega
  · simp only [hasUnsettledMember, members, any_eq_false]
    intro m member
    obtain ⟨converged, -⟩ := coop.view_converged reading member
    simp only [unsettled, converged.known, converged.applied, converged.occupied]
    simp only [Bool.not_true, Bool.or_self, Bool.and_false, Bool.false_or, Bool.and_eq_true,
      beq_iff_eq, decide_eq_true_eq]
    omega
  · intro name
    have target := (movesReplicas_eq_false rests).2 name
    rw [same.input, show t.resumeDrainedMembers.input = input from reading.input_eq] at target
    rw [target]
    by_cases listed : name ∈ input.clusters
    · exact reached (reading.view_mem listed)
    · obtain ⟨current, goal, -⟩ := input.get_outside listed
      rw [current, goal]

/-- **One cooperative step**: the last one, or one that leaves less to do. -/
theorem advances {step : Step} (decided : t.decide = .ok step) (returned : advance input = .ok step)
    {next : Transition} (env : Cooperates input step next) :
    (step.complete = true ∧
        ∀ name, step.targets.get name = input.desired.targets.get name) ∨
      (step.complete = false ∧ step.reason = .awaitingMemberConvergence ∧ Cooperative next ∧
        next.remaining < input.remaining) := by
  have started : t.resumeDrainedMembers.step.complete = false :=
    congrArg Step.complete reading.step_eq
  -- Reached targets exclude the two waiting reasons and leave nobody unsettled.
  have arrived {g : TransitionCall} (grows : Grows t g) (rests : g.movesReplicas = false) :=
    coop.arrived reading grows.still grows.grown rests
  cases decide_cases decided with
  | unknown standing =>
    rw [coop.observed reading] at standing
    cases standing
  | resuming observed drained => exact absurd (coop.resumed reading) drained
  | reducing observed resumed moves =>
    have target := reading.reduced_target
    have drains {name : String} (listed : name ∈ t.reduced.step.drain) :=
      coop.reduced_drains reading listed
    refine Or.inr ⟨t.reduced_sameRead.complete.trans started, rfl, coop.moves_on env
      (fun name => ?_) (fun name listed => drains listed) ?_ returned⟩
    · have range := target name
      simp only [entry] at range
      simp only [Step.withReason]
      omega
    · simpa [Step.withReason] using reading.moves_of_input t.reduced_sameRead.input moves
  | growing g grows moves =>
    obtain ⟨-, -, still, grown⟩ := grows
    have target := reading.grown_target still grown
    have idle : g.step.drain = [] :=
      (planGrowth_drain grown).trans
        (movesReplicas_eq_false still).1
    have same := (planGrowth_sameRead grown)
    refine Or.inr ⟨(same.complete.trans t.reduced_sameRead.complete).trans started, rfl,
      coop.moves_on env (fun name => ?_) (fun name listed => ?_) ?_ returned⟩
    · have range := target name
      simp only [entry] at range
      simp only [Step.withReason]
      omega
    · exact absurd (idle ▸ listed) not_mem_nil
    · simpa [Step.withReason] using
        reading.moves_of_input (same.input.trans t.reduced_sameRead.input) moves
  | waiting g grows rests short =>
    rw [(arrived grows rests).1] at short
    cases short
  | settling g grows rests reached unsettled =>
    rw [(arrived grows rests).2.1] at unsettled
    cases unsettled
  | complete g grows rests => exact Or.inl ⟨rfl, (arrived grows rests).2.2⟩

end Cooperative

/-- **A bounded move finishes.**  In every cooperative environment the calls reach
one that returns `complete` with the desired targets, name by name, and every
call before it waits for member convergence only. -/
theorem bounded_move_finishes {inputs : Nat → Transition} (bounded : (inputs 0).Bounded)
    (converged : (inputs 0).Converged)
    (undrained : ∀ name, ((inputs 0).members.get name).drained = false)
    (cooperates : ∀ n step, advance (inputs n) = .ok step →
      Cooperates (inputs n) step (inputs (n + 1))) :
    ∃ n ≤ (inputs 0).remaining, ∃ step, advance (inputs n) = .ok step ∧ step.complete = true ∧
      (∀ name, step.targets.get name = (inputs 0).desired.targets.get name) ∧
      ∀ k < n, ∃ earlier, advance (inputs k) = .ok earlier ∧ earlier.complete = false ∧
        earlier.reason = .awaitingMemberConvergence := by
  let desired := (inputs 0).desired
  let done (input : Transition) : Prop := ∃ step, advance input = .ok step ∧
    step.complete = true ∧ ∀ name, step.targets.get name = desired.targets.get name
  have start : Cooperative (inputs 0) := by
    refine ⟨bounded, converged, fun name drained => ?_⟩
    rw [undrained name] at drained
    cases drained
  -- A call that is not the last one waits for convergence and leaves less to do.
  have advances (n : Nat) (coop : Cooperative (inputs n)) (same : (inputs n).desired = desired)
      (unfinished : ¬ done (inputs n)) :
      ∃ step, advance (inputs n) = .ok step ∧ step.complete = false ∧
        step.reason = .awaitingMemberConvergence ∧ Cooperative (inputs (n + 1)) ∧
        (inputs (n + 1)).desired = desired ∧
        (inputs (n + 1)).remaining < (inputs n).remaining := by
    obtain ⟨t, step, reading, decided, returned⟩ := coop.accepted
    have env := cooperates n step returned
    rcases coop.advances reading decided returned env with
      ⟨complete, reached⟩ | ⟨incomplete, reason, next⟩
    · rw [same] at reached
      exact absurd ⟨step, returned, complete, reached⟩ unfinished
    · exact ⟨step, returned, incomplete, reason, next.1, env.desired.trans same, next.2⟩
  obtain ⟨n, within, -, ⟨step, returned, complete, reached⟩, earlier⟩ :=
    Runs.finishes_of_measure (fun input => Cooperative input ∧ input.desired = desired) done
      Transition.remaining (inputs 0).remaining inputs (le_refl _) ⟨start, rfl⟩
      (fun n inv unfinished => by
        obtain ⟨-, -, -, -, next, same, less⟩ := advances n inv.1 inv.2 unfinished
        exact ⟨⟨next, same⟩, less⟩)
  refine ⟨n, within, step, returned, complete, reached, fun k before => ?_⟩
  obtain ⟨⟨coop, same⟩, unfinished⟩ := earlier k before
  obtain ⟨other, accepted, incomplete, reason, -⟩ := advances k coop same unfinished
  exact ⟨other, accepted, incomplete, reason⟩

/-! ## The least cooperative environment -/

/-- A member after the environment has done its part. -/
def convergedState (step : Step) (name : String) (drained : Bool) : MemberState where
  known := true
  eligible := true
  applied := true
  routable := 0 < step.targets.get name && !drained
  drained := drained
  ready := step.targets.get name
  occupied := step.targets.get name

/-- Apply a step and let every member converge. -/
def Transition.cooperate (input : Transition) (step : Step) : Transition :=
  { input.applied step with
    members := input.clusters.foldl (fun members name =>
      members.set name (convergedState step name
        (name ∈ step.drain || (input.members.get name).drained))) input.members }

theorem Transition.mem_keys_cooperate (input : Transition) (step : Step) (name : String) :
    name ∈ (input.cooperate step).members.keys ↔ name ∈ input.clusters := by
  simp only [cooperate, mem_keys_foldl_set]
  constructor
  · rintro (listed | observed)
    · exact listed
    · exact (input.mem_clusters name).mpr (Or.inr (Or.inr (Or.inr observed)))
  · exact Or.inl

theorem Transition.cooperate_get (input : Transition) (step : Step)
    (listed : name ∈ input.clusters) :
    (input.cooperate step).members.get name = convergedState step name
      (name ∈ step.drain || (input.members.get name).drained) := by
  rw [cooperate, get_foldl_set, if_pos listed]

theorem Transition.cooperate_cooperates {input : Transition} {step : Step}
    (returned : advance input = .ok step) : Cooperates input step (input.cooperate step) := by
  obtain ⟨t, reading, -⟩ := advance_outcome returned
  obtain ⟨keys, drained⟩ := advance_keys returned
  refine ⟨rfl, rfl, rfl, rfl, rfl, ?_, ?_, ?_, ?_, ?_⟩
  · rw [mem_keys_cooperate]
    exact reading.unnamed_cluster
  · intro name listed
    have named : name ∈ input.clusters := by
      rw [mem_clusters, mem_keys_cooperate] at listed
      rcases listed with desired | original | current | observed
      · exact (input.mem_clusters name).mpr (Or.inl desired)
      · exact (input.mem_clusters name).mpr (Or.inr (Or.inl original))
      · exact keys name current
      · exact observed
    rw [input.cooperate_get step named]
    show (convergedState step name _).Converged (step.targets.get name)
    constructor <;> simp [convergedState]
  · intro name listed
    rw [input.cooperate_get step (drained name listed)]
    simp [convergedState, listed]
  · intro name unlisted target
    have named : name ∈ input.clusters := by
      by_contra absent
      have zero := step.targets.get_int_absent fun member => absent (keys name member)
      omega
    rw [input.cooperate_get step named]
    simp [convergedState, unlisted]
  · intro name unlisted undrained
    by_cases named : name ∈ input.clusters
    · rw [input.cooperate_get step named]
      simp [convergedState, unlisted, undrained]
    · have absent : name ∉ (input.cooperate step).members.keys := by
        rw [mem_keys_cooperate]
        exact named
      rw [get_absent _ _ absent]
      rfl

/-- The calls of a move under it. -/
def cooperativeRun (start : Transition) : Nat → Transition
  | 0 => start
  | n + 1 =>
    match advance (cooperativeRun start n) with
    | .ok step => (cooperativeRun start n).cooperate step
    | .error _ => cooperativeRun start n

theorem cooperativeRun_cooperates (start : Transition) (n : Nat) (step : Step)
    (returned : advance (cooperativeRun start n) = .ok step) :
    Cooperates (cooperativeRun start n) step (cooperativeRun start (n + 1)) := by
  have next : cooperativeRun start (n + 1) = (cooperativeRun start n).cooperate step := by
    simp only [cooperativeRun, returned]
  rw [next]
  exact Transition.cooperate_cooperates returned

/-- Two replicas of `a` that are to move to `b` over a surge of one. -/
def settledMove : Transition where
  fromPlan := { targets := .ofList [("a", 2)], unassigned := 0 }
  current := .ofList [("a", 2)]
  desired := { targets := .ofList [("b", 2)], unassigned := 0 }
  members := .ofList
    [("a", { known := true, eligible := true, applied := true, routable := true,
             ready := 2, occupied := 2 }),
     ("b", { known := true, eligible := true, applied := true })]
  surge := 1
  rolloutReserved := 0

theorem settledMove_bounded : settledMove.Bounded where
  fromPlan := (planTotal_ok (by decide : planTotal settledMove.fromPlan = .ok 2)).2
  desired := (planTotal_ok (by decide : planTotal settledMove.desired = .ok 2)).2
  current := (planTotal_ok (by decide :
    planTotal { targets := settledMove.current, unassigned := 0 } = .ok 2)).2
  named := by decide
  assigned := rfl
  surge := by decide
  unreserved := rfl
  fits := by decide
  currentFits := by decide

theorem settledMove_converged : settledMove.Converged := by
  have clusters : settledMove.clusters = ["a", "b"] := by decide
  intro name listed
  rw [clusters] at listed
  simp only [mem_cons, not_mem_nil, or_false] at listed
  rcases listed with rfl | rfl <;> constructor <;> decide

/-- Growth, drain and reduction steps alternate until `b` holds both replicas. -/
theorem settledMove_finishes :
    ∃ n ≤ settledMove.remaining, ∃ step, advance (cooperativeRun settledMove n) = .ok step ∧
      step.complete = true ∧
      (∀ name, step.targets.get name = settledMove.desired.targets.get name) ∧
      ∀ k < n, ∃ earlier, advance (cooperativeRun settledMove k) = .ok earlier ∧
        earlier.complete = false ∧ earlier.reason = .awaitingMemberConvergence := by
  refine bounded_move_finishes settledMove_bounded settledMove_converged ?_
    (cooperativeRun_cooperates settledMove)
  intro name
  by_cases listed : name ∈ settledMove.members.keys
  · have keys : settledMove.members.keys = ["a", "b"] := by decide
    rw [keys] at listed
    simp only [mem_cons, not_mem_nil, or_false] at listed
    rcases listed with rfl | rfl <;> decide
  · exact congrArg MemberState.drained (settledMove.members.get_absent name listed)

/-! ## The sums the code refuses -/

/-- A move that has already arrived, with the widest surge an `int64` holds. -/
def widestSurge : Transition where
  fromPlan := { targets := .ofList [("a", 1)], unassigned := 0 }
  current := .ofList [("a", 1)]
  desired := { targets := .ofList [("a", 1)], unassigned := 0 }
  members := .ofList
    [("a", { known := true, eligible := true, applied := true, routable := true,
             ready := 1, occupied := 1 })]
  surge := maxInt64
  rolloutReserved := 0

/-- Such a move never completes: the growth pass refuses the sum of the floor and
the surge before anything is compared. -/
theorem widestSurge_refused :
    1 ≤ widestSurge.surge ∧ widestSurge.surge ≤ maxInt64 ∧ widestSurge.desired.unassigned = 0 ∧
      widestSurge.rolloutReserved = 0 ∧ widestSurge.Converged ∧
      (widestSurge.members.get "a").drained = false ∧
      (advance widestSurge).map (fun step => step.complete) = .error .surgeOverflow := by
  refine ⟨by decide, by decide, rfl, rfl, ?_, rfl, by decide⟩
  have clusters : widestSurge.clusters = ["a"] := by decide
  intro name listed
  rw [clusters, mem_singleton] at listed
  subst listed
  constructor <;> decide

end Ome.Placement.Allocation
