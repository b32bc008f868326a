/-
# Ome.Placement.Allocation.Moves — the moves of one accepted step

An accepted step does one of three things (`advance_outcome`): it leaves every
target where it is, it records the reduction pass, or it records the growth pass
over targets the reduction pass left alone.  For each pass this module says what
the visit of a member wrote:

* `Reduction.target`: the target stays, or comes down no further than the goal;
* `Growth.target`: the target stays, or goes up no further than the goal;
* `reduction_visit`, `growth_visit`: the entry of a member is the one its own
  visit wrote, in a call whose allowances are still nonnegative;
* `reduced_target`, `grown_target`: a whole pass lowers targets, or raises them,
  and never takes one past the desired target;
* `advance_keeps_frame`: what every accepted step holds to.
-/
import Ome.Placement.Allocation.Passes

namespace Ome.Placement.Allocation

open Ome.Theory TransitionCall KeyedPass List Transition

set_option autoImplicit false

variable {m : MemberView} {t' g : TransitionCall} {name : String} {step : Step}
variable {input : Transition} {wholeMembers : Bool} {t : TransitionCall}

/-! ## Bounds on one member -/

/-- The bounds the reading puts on one member. -/
structure MemberView.Sound (m : MemberView) : Prop where
  current_nonneg : 0 ≤ m.current
  goal_nonneg : 0 ≤ m.goal
  original_nonneg : 0 ≤ m.original
  ready_nonneg : 0 ≤ m.state.ready
  ready_le : m.state.ready ≤ m.state.occupied
  absent_empty : m.state.absent = true → m.state.known = true ∧ m.state.occupied = 0
  drained_unrouted : m.state.drained = true → m.state.routable = false

theorem Reading.sound (reading : Reading input wholeMembers t) (member : m ∈ t.members) :
    m.Sound := by
  have consistent := reading.consistent m member
  rw [reading.members_eq, mem_map] at member
  obtain ⟨name, -, rfl⟩ := member
  simp only [MemberState.inconsistent, Bool.or_eq_false_iff, decide_eq_false_iff_not, Int.not_lt,
    Bool.and_eq_false_iff, Bool.not_eq_false'] at consistent
  obtain ⟨⟨⟨⟨ready, occupied⟩, ordered⟩, gone⟩, traffic⟩ := consistent
  refine ⟨reading.current_nonneg name, reading.desired_wellFormed.targets_nonneg name,
    reading.from_wellFormed.targets_nonneg name, ready, ordered, ?_, ?_⟩
  · intro absent
    rcases gone with present | ⟨known, empty⟩
    · rw [absent] at present
      cases present
    · exact ⟨known, by omega⟩
  · intro drained
    rcases traffic with undrained | unrouted
    · rw [drained] at undrained
      cases undrained
    · exact unrouted

/-! ## One visit -/

namespace TransitionCall

theorem unbackedReplicas_bounds (t : TransitionCall) (sound : m.Sound) :
    0 ≤ t.unbackedReplicas m ∧ t.unbackedReplicas m ≤ m.current ∧
      (m.state.routable = true → t.unbackedReplicas m ≤ max 0 (m.current - m.state.ready)) := by
  have current := sound.current_nonneg
  have original := sound.original_nonneg
  simp only [unbackedReplicas]
  split
  · rename_i drained
    refine ⟨current, le_refl _, fun routed => ?_⟩
    rw [sound.drained_unrouted drained] at routed
    cases routed
  · split
    · exact ⟨by omega, by omega, fun _ => by omega⟩
    · exact ⟨le_refl _, current, fun _ => by omega⟩

theorem reducible_above (reducible : m.reducible = true) :
    m.goal < m.current ∧ m.state.applied = true := by
  simp only [MemberView.reducible, Bool.and_eq_true, decide_eq_true_eq] at reducible
  exact ⟨reducible.1.1, reducible.2⟩

theorem fundedReduction_bounds (t : TransitionCall) (sound : m.Sound)
    (reducible : m.reducible = true) (serving : 0 ≤ t.servingAboveMinimum) :
    0 ≤ t.fundedReduction m ∧ t.fundedReduction m ≤ m.current - m.goal ∧
      t.fundedReduction m ≤ t.unbackedReplicas m + max 0 t.retirementAllowance ∧
      (m.state.routable = true →
        t.fundedReduction m ≤ max 0 (m.current - m.state.ready) + t.servingAboveMinimum) := by
  obtain ⟨unbacked, -, -⟩ := t.unbackedReplicas_bounds sound
  obtain ⟨above, -⟩ := reducible_above reducible
  simp only [fundedReduction]
  split
  · exact ⟨by omega, by omega, by omega, fun _ => by omega⟩
  · rename_i unrouted
    exact ⟨by omega, by omega, by omega, fun routed => absurd routed unrouted⟩

/-- The allowances a pass spends from never go below zero. -/
def Solvent (t : TransitionCall) : Prop := 0 ≤ t.servingAboveMinimum ∧ 0 ≤ t.readyAboveDesired

section

variable (visit : Reduction t m t')
include visit

theorem Reduction.solvent (sound : m.Sound) (solvent : t.Solvent) : t'.Solvent := by
  have paid (reducible : m.reducible = true) :
      (t.paidReduction m (t.fundedReduction m)).Solvent := by
    obtain ⟨-, -, -, served⟩ := t.fundedReduction_bounds sound reducible solvent.1
    refine ⟨?_, solvent.2⟩
    have serving := solvent.1
    simp only [paidReduction]
    split
    · rename_i routed
      have := served routed
      omega
    · omega
  cases visit with
  | kept | drainedUnrouted | absent => exact solvent
  | drainedFunded untargeted routed funded => exact ⟨solvent.1, by simp only [addDrain]; omega⟩
  | emptied reducible | lowered reducible => exact paid reducible

/-- Where a visit leaves a target: in place, or lowered no further than the goal
on a member that is applied or gone. -/
theorem Reduction.target
    (sound : m.Sound) (solvent : t.Solvent) (start : t.entry m.name = (m.current, false)) :
    (t'.entry m.name).1 = m.current ∨
      (m.goal ≤ (t'.entry m.name).1 ∧ (t'.entry m.name).1 < m.current ∧
        (m.state.applied = true ∨ m.state.absent = true) ∧ (t'.entry m.name).2 = false) := by
  obtain ⟨target, undrained⟩ := Prod.mk.inj start
  cases visit with
  | kept | drainedUnrouted | drainedFunded | emptied => exact Or.inl target
  | absent gone above =>
    rw [entry_setTarget_self]
    exact Or.inr ⟨le_refl _, above, Or.inr gone, undrained⟩
  | lowered reducible nonzero whole partly =>
    obtain ⟨nonneg, toGoal, -, -⟩ := t.fundedReduction_bounds sound reducible solvent.1
    rw [entry_setTarget_self, target]
    exact Or.inr ⟨by omega, by omega, Or.inl (reducible_above reducible).2, undrained⟩

/-- Whom a visit drains: a member that serves without a target, or one whose
whole target goes. -/
theorem Reduction.drains (sound : m.Sound) (solvent : t.Solvent)
    (start : t.entry m.name = (m.current, false)) (marked : (t'.entry m.name).2 = true) :
    m.occupiedWithoutTarget = true ∨ (0 < m.current ∧ m.goal = 0 ∧ m.state.drained = false) := by
  obtain ⟨-, undrained⟩ := Prod.mk.inj start
  cases visit with
  | kept =>
    rw [start] at marked
    cases marked
  | drainedUnrouted untargeted | drainedFunded untargeted => exact Or.inl untargeted
  | absent =>
    rw [entry_setTarget_self, undrained] at marked
    cases marked
  | emptied reducible nonzero whole all unmarked =>
    obtain ⟨-, toGoal, -, -⟩ := t.fundedReduction_bounds sound reducible solvent.1
    obtain ⟨above, -⟩ := reducible_above reducible
    have goal := sound.goal_nonneg
    exact Or.inr ⟨by omega, by omega, unmarked⟩
  | lowered =>
    rw [entry_setTarget_self] at marked
    exact absurd (undrained.symm.trans marked) Bool.false_ne_true

/-- Only a drained or an absent member loses its whole target. -/
theorem Reduction.zeroed (start : t.entry m.name = (m.current, false)) (positive : 0 < m.current)
    (zero : (t'.entry m.name).1 = 0) : m.state.drained = true ∨ m.state.absent = true := by
  obtain ⟨target, -⟩ := Prod.mk.inj start
  have stays (same : (t'.entry m.name).1 = t.step.targets.get m.name) : False := by omega
  cases visit with
  | kept | drainedUnrouted | drainedFunded | emptied => exact (stays rfl).elim
  | absent gone => exact Or.inr gone
  | lowered _ _ _ partly =>
    rw [entry_setTarget_self, target] at zero
    exact Or.inl (partly.resolve_left (by simpa using Int.sub_eq_zero.mp zero))

end

theorem growable_below (growable : m.growable = true) : m.current < m.goal := by
  simp only [MemberView.growable, Bool.and_eq_true, decide_eq_true_eq] at growable
  exact growable.1.1.1

theorem readyGrowth_bounds (t : TransitionCall) (below : m.current < m.goal) :
    0 ≤ t.readyGrowth m ∧ t.readyGrowth m ≤ m.goal - m.current := by
  simp only [readyGrowth]
  split
  · exact ⟨by omega, by omega⟩
  · exact ⟨le_refl _, by omega⟩

theorem growth_bounds (t : TransitionCall) (below : m.current < m.goal)
    (allowed : 0 ≤ t.growthAllowance) :
    t.readyGrowth m ≤ t.growth m ∧ t.growth m ≤ m.goal - m.current ∧
      t.growth m - t.readyGrowth m ≤ t.growthAllowance := by
  obtain ⟨nonneg, ready⟩ := t.readyGrowth_bounds below
  simp only [growth]
  exact ⟨by omega, by omega, by omega⟩

theorem Growth.target (visit : Growth t m t')
    (allowed : 0 ≤ t.growthAllowance) (start : t.entry m.name = (m.current, false)) :
    0 ≤ t'.growthAllowance ∧ (t'.entry m.name).2 = false ∧
      ((t'.entry m.name).1 = m.current ∨
        (m.current ≤ (t'.entry m.name).1 ∧ (t'.entry m.name).1 ≤ m.goal)) := by
  obtain ⟨target, undrained⟩ := Prod.mk.inj start
  cases visit with
  | kept | blocked => exact ⟨allowed, undrained, Or.inl target⟩
  | raised growable whole =>
    have below := growable_below growable
    obtain ⟨nonneg, -⟩ := t.readyGrowth_bounds below
    obtain ⟨atLeast, toGoal, paid⟩ := t.growth_bounds below allowed
    rw [entry_setTarget_self]
    refine ⟨?_, undrained, Or.inr ?_⟩
    · simp only [setTarget]
      omega
    · simp only [target]
      omega

end TransitionCall

/-! ## Whole passes -/

namespace Reading

variable (reading : Reading input wholeMembers t)
include reading

theorem nodup_names : (t.members.map MemberView.name).Nodup := by
  rw [reading.members_eq, map_map]
  exact (map_id input.clusters).symm ▸ input.nodup_clusters

theorem view_mem (member : name ∈ input.clusters) : input.view name ∈ t.members := by
  rw [reading.members_eq]
  exact mem_map_of_mem member

theorem start_entry (member : m ∈ t.members) :
    t.resumeDrainedMembers.entry m.name = (m.current, false) := by
  rw [reading.members_eq, mem_map] at member
  obtain ⟨name, -, rfl⟩ := member
  simp only [entry, resumeDrainedMembers, reading.step_eq]
  exact Prod.ext (input.startTargets_get name) (by simp)

theorem solvent : t.resumeDrainedMembers.Solvent := by
  simp only [TransitionCall.Solvent, resumeDrainedMembers,
    reading.servingAboveMinimum_eq, reading.readyAboveDesired_eq]
  omega

theorem reduction_visit (member : m ∈ t.members) :
    ∃ u : TransitionCall, u.Solvent ∧ u.entry m.name = (m.current, false) ∧
      t.reduced.entry m.name = (u.planReduction m).entry m.name := by
  have perm := t.resumeDrainedMembers.reductionOrder_perm
  exact foldl_visit planReduction_frame Solvent (fun m => (m.current, false))
    t.resumeDrainedMembers.reductionOrder t.resumeDrainedMembers
    ((perm.map MemberView.name).nodup_iff.mpr reading.nodup_names)
    (fun s m hm solvent _ _ => (s.planReduction_cases m).solvent
      (reading.sound (perm.mem_iff.mp hm)) solvent) reading.solvent
    (fun m hm => reading.start_entry (perm.mem_iff.mp hm)) m (perm.mem_iff.mpr member)

/-- Where every visit pays for its cost, the whole pass does. -/
theorem reductions_spend (potential : TransitionCall → Int) (cost : MemberView → Int × Bool → Int)
    (visit : ∀ s, ∀ m ∈ t.members, s.Solvent → s.entry m.name = (m.current, false) →
      cost m ((s.planReduction m).entry m.name) ≤ potential s - potential (s.planReduction m)) :
    t.reduced.Solvent ∧ (t.members.map fun m => cost m (t.reduced.entry m.name)).sum ≤
      potential t.resumeDrainedMembers - potential t.reduced := by
  have perm := t.resumeDrainedMembers.reductionOrder_perm
  have pass := foldl_spend planReduction_frame Solvent
    (fun m => (m.current, false)) potential cost t.resumeDrainedMembers.reductionOrder
    t.resumeDrainedMembers ((perm.map MemberView.name).nodup_iff.mpr reading.nodup_names)
    (fun s m hm inv start => ⟨(s.planReduction_cases m).solvent
      (reading.sound (perm.mem_iff.mp hm)) inv,
      visit s m (perm.mem_iff.mp hm) inv start⟩)
    reading.solvent (fun m hm => reading.start_entry (perm.mem_iff.mp hm))
  rw [(perm.map _).sum_eq] at pass
  exact pass

/-- The entries a growth pass starts from, after a reduction pass that moved
nothing. -/
theorem still_entry (still : t.reduced.movesReplicas = false) (member : m ∈ t.members) :
    t.reduced.withGrowthAllowance.entry m.name = (m.current, false) := by
  obtain ⟨drain, targets⟩ := movesReplicas_eq_false still
  rw [t.reduced_sameRead.input] at targets
  have named : t.input.current.get m.name = m.current := by
    rw [reading.members_eq, mem_map] at member
    obtain ⟨name, -, rfl⟩ := member
    rw [reading.input_eq]
    rfl
  refine Prod.ext ((targets m.name).trans named) ?_
  simp [entry, withGrowthAllowance, drain]

theorem growth_visit (still : t.reduced.movesReplicas = false)
    (grown : t.reduced.planGrowth = .ok g) (member : m ∈ t.members) :
    ∃ u : TransitionCall, 0 ≤ u.growthAllowance ∧ u.entry m.name = (m.current, false) ∧
      g.entry m.name = (u.growMember m).entry m.name := by
  obtain rfl := planGrowth_ok grown
  have members : t.reduced.members = t.members := t.reduced_sameRead.members
  rw [members]
  exact foldl_visit growMember_frame (fun s => 0 ≤ s.growthAllowance)
    (fun m => (m.current, false)) t.members t.reduced.withGrowthAllowance reading.nodup_names
    (fun s m _ allowed start _ => ((s.growMember_cases m).target allowed start).1)
    (le_max_left _ _) (fun m hm => reading.still_entry still hm) m member

end Reading

/-! ## The step -/

/-- What a returned step records for one cluster. -/
def Step.entry (step : Step) (name : String) : Int × Bool :=
  (step.targets.get name, decide (name ∈ step.drain))

theorem returned_of_map {β : Type} {result : Except TransitionError Step} {f : Step → β} {b : β}
    (h : result.map f = .ok b) : ∃ step, result = .ok step ∧ f step = b := by
  cases result with
  | error e => cases h
  | ok step => exact ⟨step, rfl, Except.ok.inj h⟩

/-- What an accepted step does to the targets. -/
inductive Outcome (input : Transition) (t : TransitionCall) (step : Step) : Prop where
  | rests (drain : step.drain = [])
      (targets : ∀ name, step.targets.get name = input.current.get name)
  | reduces (recorded : step.entry = t.reduced.entry)
  | grows (still : t.reduced.movesReplicas = false) (g : TransitionCall)
      (grown : t.reduced.planGrowth = .ok g) (recorded : step.entry = g.entry)

theorem advance_read (returned : advanceTransition input wholeMembers = .ok step) :
    ∃ t, Reading input wholeMembers t ∧ Decision t step := by
  simp only [advanceTransition] at returned
  split at returned
  · cases returned
  · rename_i t read
    exact ⟨t, readTransition_reading read, decide_cases returned⟩

theorem advance_outcome (returned : advanceTransition input wholeMembers = .ok step) :
    ∃ t, Reading input wholeMembers t ∧ Outcome input t step := by
  obtain ⟨t, reading, decision⟩ := advance_read returned
  refine ⟨t, reading, ?_⟩
  have start : t.step.drain = [] ∧ ∀ name, t.step.targets.get name = input.current.get name := by
    rw [reading.step_eq]
    exact ⟨rfl, input.startTargets_get⟩
  have resting {g : TransitionCall} (grown : t.reduced.planGrowth = .ok g)
      (rests : g.movesReplicas = false) :
      g.step.drain = [] ∧ ∀ name, g.step.targets.get name = input.current.get name := by
    have same : g.input = input :=
      ((planGrowth_sameRead grown).input.trans t.reduced_sameRead.input).trans
        reading.input_eq
    rw [← same]
    exact movesReplicas_eq_false rests
  cases decision with
  | unknown | resuming => exact .rests start.1 start.2
  | reducing => exact .reduces rfl
  | growing g grows => exact .grows grows.still g grows.grown rfl
  | waiting g grows rests
  | settling g grows rests
  | complete g grows rests =>
    exact .rests (resting grows.grown rests).1 (resting grows.grown rests).2

theorem Transition.get_outside (input : Transition) (absent : name ∉ input.clusters) :
    input.current.get name = 0 ∧ input.desired.targets.get name = 0 ∧
      input.members.get name = default := by
  rw [input.mem_clusters] at absent
  push Not at absent
  exact ⟨input.current.get_int_absent absent.2.2.1, input.desired.targets.get_int_absent absent.1,
    input.members.get_absent _ absent.2.2.2⟩

namespace Reading

variable (reading : Reading input wholeMembers t)
include reading

theorem unnamed (absent : name ∉ input.clusters) : name ∉ t.members.map MemberView.name := by
  rw [reading.members_eq, map_map]
  simpa [view, Function.comp_def] using absent

/-- The passes write nothing under a name that no plan and no observation has. -/
theorem reduced_outside (absent : name ∉ input.clusters) : t.reduced.entry name = (0, false) := by
  have perm := t.resumeDrainedMembers.reductionOrder_perm
  have unvisited : name ∉ t.resumeDrainedMembers.reductionOrder.map MemberView.name :=
    fun member => reading.unnamed absent ((perm.map MemberView.name).mem_iff.mp member)
  have frame := foldl_frame planReduction_frame name _
    t.resumeDrainedMembers unvisited
  refine frame.trans ?_
  have zero := (input.get_outside absent).1
  simp only [entry, resumeDrainedMembers, reading.step_eq]
  exact Prod.ext ((input.startTargets_get name).trans zero) (by simp)

theorem grown_outside (grown : t.reduced.planGrowth = .ok g)
    (absent : name ∉ input.clusters) : g.entry name = (0, false) := by
  obtain rfl := planGrowth_ok grown
  have unvisited : name ∉ t.reduced.members.map MemberView.name := by
    rw [t.reduced_sameRead.members]
    exact reading.unnamed absent
  have frame := foldl_frame growMember_frame name _
    t.reduced.withGrowthAllowance unvisited
  exact frame.trans (reading.reduced_outside absent)

theorem reduced_keys (member : name ∈ t.reduced.step.targets.keys) : name ∈ input.clusters := by
  by_contra absent
  have perm := t.resumeDrainedMembers.reductionOrder_perm
  rcases foldl_adds planReduction_adds name _ _ member with
    start | visited
  · simp only [resumeDrainedMembers, reading.step_eq] at start
    exact absent ((input.mem_keys_startTargets name).mp start)
  · exact reading.unnamed absent ((perm.map MemberView.name).mem_iff.mp visited)

theorem grown_keys (grown : t.reduced.planGrowth = .ok g)
    (member : name ∈ g.step.targets.keys) : name ∈ input.clusters := by
  by_contra absent
  obtain rfl := planGrowth_ok grown
  rcases foldl_adds growMember_adds name _ _ member with
    start | visited
  · exact absent (reading.reduced_keys start)
  · rw [t.reduced_sameRead.members] at visited
    exact reading.unnamed absent visited

theorem unnamed_cluster : "" ∉ input.clusters := by
  rw [input.mem_clusters]
  push Not
  exact ⟨reading.desired_wellFormed.named, reading.from_wellFormed.named, reading.current_named,
    reading.members_named⟩

theorem reduced_target (name : String) :
    (t.reduced.entry name).1 ≤ input.current.get name ∧
      min (input.current.get name) (input.desired.targets.get name) ≤
        (t.reduced.entry name).1 := by
  by_cases listed : name ∈ input.clusters
  · have member := reading.view_mem listed
    have sound := reading.sound member
    obtain ⟨u, solvent, start, visited⟩ := reading.reduction_visit member
    have target := (u.planReduction_cases (input.view name)).target sound solvent start
    rw [← visited] at target
    simp only [view] at target
    omega
  · obtain ⟨current, goal, -⟩ := input.get_outside listed
    rw [reading.reduced_outside listed, current, goal]
    simp

theorem grown_target (still : t.reduced.movesReplicas = false)
    (grown : t.reduced.planGrowth = .ok g) (name : String) :
    input.current.get name ≤ (g.entry name).1 ∧
      (g.entry name).1 ≤ max (input.current.get name) (input.desired.targets.get name) := by
  by_cases listed : name ∈ input.clusters
  · have member := reading.view_mem listed
    obtain ⟨u, allowed, start, visited⟩ := reading.growth_visit still grown member
    obtain ⟨-, -, target⟩ := (u.growMember_cases (input.view name)).target allowed start
    rw [← visited] at target
    simp only [view] at target
    omega
  · obtain ⟨current, goal, -⟩ := input.get_outside listed
    rw [reading.grown_outside grown listed, current, goal]
    simp

end Reading

theorem advance_keys (returned : advanceTransition input wholeMembers = .ok step) :
    (∀ name ∈ step.targets.keys, name ∈ input.clusters) ∧
      ∀ name ∈ step.drain, name ∈ input.clusters := by
  obtain ⟨t, reading, decision⟩ := advance_read returned
  have start : (∀ name ∈ t.step.targets.keys, name ∈ input.clusters) ∧
      ∀ name ∈ t.step.drain, name ∈ input.clusters := by
    rw [reading.step_eq]
    exact ⟨fun name => (input.mem_keys_startTargets name).mp,
      fun name listed => absurd listed not_mem_nil⟩
  have reduced : ∀ name ∈ t.reduced.step.drain, name ∈ input.clusters := by
    intro name listed
    by_contra absent
    have outside := congrArg Prod.snd (reading.reduced_outside absent)
    simp [entry, listed] at outside
  have grows {g : TransitionCall} (grown : t.reduced.planGrowth = .ok g) :
      (∀ name ∈ g.step.targets.keys, name ∈ input.clusters) ∧
        ∀ name ∈ g.step.drain, name ∈ input.clusters := by
    rw [planGrowth_drain grown]
    exact ⟨fun _ => reading.grown_keys grown, reduced⟩
  cases decision with
  | unknown | resuming => exact start
  | reducing => exact ⟨fun _ => reading.reduced_keys, reduced⟩
  | growing g path | waiting g path | settling g path | complete g path => exact grows path.grown

/-! ## The frame of a step -/

/-- What every step holds to, whichever of its branches it takes. -/
structure KeepsFrame (input : Transition) (step : Step) : Prop where
  zeroed : ∀ name, 0 < input.current.get name → step.targets.get name = 0 →
    (input.members.get name).drained = true ∨ (input.members.get name).absent = true
  drained : ∀ name ∈ step.drain, input.desired.targets.get name = 0 ∧
    (0 < input.current.get name ∨ 0 < (input.members.get name).occupied)
  between : ∀ name,
    min (input.current.get name) (input.desired.targets.get name) ≤ step.targets.get name ∧
      step.targets.get name ≤ max (input.current.get name) (input.desired.targets.get name)
  oneWay : ∀ down up, step.targets.get down < input.current.get down →
    step.targets.get up ≤ input.current.get up
  settled : step.complete = true → ∀ name,
    step.targets.get name = input.desired.targets.get name ∧
      (0 < step.targets.get name →
        (input.members.get name).known = true ∧ (input.members.get name).applied = true) ∧
      (step.targets.get name = 0 → (input.members.get name).occupied ≤ 0)

theorem advance_complete
    (returned : advanceTransition input wholeMembers = .ok step) (done : step.complete = true)
    (name : String) : step.targets.get name = input.desired.targets.get name ∧
      (0 < step.targets.get name →
        (input.members.get name).known = true ∧ (input.members.get name).applied = true) ∧
      (step.targets.get name = 0 → (input.members.get name).occupied ≤ 0) := by
  obtain ⟨t, reading, decision⟩ := advance_read returned
  have start : t.step.complete = false := by rw [reading.step_eq]
  have reduced : t.reduced.step.complete = false := t.reduced_sameRead.complete.trans start
  have grew {g : TransitionCall} (grown : t.reduced.planGrowth = .ok g) :
      g.step.complete = false :=
    (planGrowth_sameRead grown).complete.trans reduced
  cases decision with
  | unknown | resuming => exact absurd (done.symm.trans start) (by decide)
  | reducing => exact absurd (done.symm.trans reduced) (by decide)
  | growing g grows
  | waiting g grows
  | settling g grows => exact absurd (done.symm.trans (grew grows.grown)) (by decide)
  | complete g grows rests reached settled =>
    have same := t.reduced_sameRead.trans (planGrowth_sameRead grows.grown)
    obtain ⟨-, targets⟩ := movesReplicas_eq_false rests
    rw [same.input, show t.resumeDrainedMembers.input = input from reading.input_eq] at targets
    rw [targets name]
    by_cases listed : name ∈ input.clusters
    · have member := reading.view_mem listed
      rw [same.grow, same.shrink] at reached
      rw [hasUnsettledMember, same.members] at settled
      have still : t.targetsGrow = false ∧ t.targetsShrink = false :=
        Bool.or_eq_false_iff.mp reached
      rw [reading.grow_eq, reading.shrink_eq] at still
      have below := any_eq_false.mp still.1 _ member
      have above := any_eq_false.mp still.2 _ member
      have settles := any_eq_false.mp settled _ member
      simp [MemberView.unsettled] at below above settles
      exact ⟨le_antisymm above below, settles.1, settles.2⟩
    · obtain ⟨current, goal, state⟩ := input.get_outside listed
      rw [current, goal, state]
      exact ⟨rfl, fun held => absurd held (lt_irrefl 0), fun _ => le_refl 0⟩

/-- **Every step keeps the frame**: targets go one way, toward their goals and not past
them, a target is emptied only where nothing serves, and complete means settled. -/
theorem advance_keeps_frame {input : Transition} {step : Step}
    (accepted : advance input = .ok step ∨ advanceWholeMembers input = .ok step) :
    KeepsFrame input step := by
  obtain ⟨wholeMembers, returned⟩ : ∃ whole, advanceTransition input whole = .ok step :=
    accepted.elim (fun h => ⟨false, h⟩) (fun h => ⟨true, h⟩)
  have settled := advance_complete returned
  obtain ⟨t, reading, outcome⟩ := advance_outcome returned
  cases outcome with
  | rests drain targets =>
    refine ⟨fun name held zero => ?_, ?_, fun name => ?_, fun _ up _ => (targets up).le, settled⟩
    · rw [targets name] at zero
      omega
    · rw [drain]
      exact fun name listed => absurd listed not_mem_nil
    · rw [targets name]
      exact ⟨min_le_left _ _, le_max_left _ _⟩
  | reduces recorded =>
    have target (name : String) := congrArg Prod.fst (congrFun recorded name)
    have bounds (name : String) := reading.reduced_target name
    simp only [Step.entry] at target
    refine ⟨fun name held zero => ?_, fun name listed => ?_, fun name => ?_, fun _ up _ => ?_,
      settled⟩
    -- a target that falls to zero has a member whose own visit found nothing serving
    · by_cases known : name ∈ input.clusters
      · obtain ⟨u, -, start, visited⟩ := reading.reduction_visit (reading.view_mem known)
        refine (u.planReduction_cases (input.view name)).zeroed start held ?_
        rw [← visited]
        exact (target name).symm.trans zero
      · have none := (input.get_outside known).1
        omega
    -- a member to drain was marked on its own visit
    · have known := (advance_keys returned).2 name listed
      have member := reading.view_mem known
      obtain ⟨u, solvent, start, visited⟩ := reading.reduction_visit member
      have marked : (t.reduced.entry name).2 = true := by
        rw [← recorded]
        exact decide_eq_true listed
      rw [show t.reduced.entry name = _ from visited] at marked
      rcases (u.planReduction_cases (input.view name)).drains (reading.sound member) solvent start
        marked with untargeted | ⟨held, goal, -⟩
      · simp only [MemberView.occupiedWithoutTarget, Bool.and_eq_true, beq_iff_eq,
          decide_eq_true_eq] at untargeted
        exact ⟨untargeted.1.1.2, Or.inr untargeted.1.2⟩
      · exact ⟨goal, Or.inl held⟩
    · rw [target name]
      exact ⟨(bounds name).2, (bounds name).1.trans (le_max_left _ _)⟩
    · rw [target up]
      exact (bounds up).1
  | grows still g grown recorded =>
    have target (name : String) := congrArg Prod.fst (congrFun recorded name)
    have bounds (name : String) := reading.grown_target still grown name
    simp only [Step.entry] at target
    obtain ⟨drain, -⟩ := movesReplicas_eq_false still
    refine ⟨fun name held zero => ?_, fun name listed => ?_, fun name => ?_,
      fun down _ lowered => ?_, settled⟩
    · have raised := (bounds name).1
      have := target name
      omega
    · have marked : (g.entry name).2 = true := by
        rw [← recorded]
        exact decide_eq_true listed
      simp [entry, planGrowth_drain grown, drain] at marked
    · rw [target name]
      exact ⟨(min_le_left _ _).trans (bounds name).1, (bounds name).2⟩
    · have raised := (bounds down).1
      have := target down
      omega

/-- The drained replica of `a` may go; its replacement on `b` serves. -/
def drainedOut : Transition where
  fromPlan := { targets := .ofList [("a", 1)], unassigned := 0 }
  current := .ofList [("a", 1), ("b", 1)]
  desired := { targets := .ofList [("b", 1)], unassigned := 0 }
  members := .ofList
    [("a", { known := true, applied := true, drained := true }),
     ("b", { known := true, applied := true, routable := true, ready := 1, occupied := 1 })]
  surge := 0
  rolloutReserved := 0

theorem drainedOut_keeps_frame :
    ∃ step, advanceWholeMembers drainedOut = .ok step ∧
      (step.targets.get "a", step.targets.get "b") = (0, 1) ∧ KeepsFrame drainedOut step := by
  have read : (advanceWholeMembers drainedOut).map
      (fun step => (step.targets.get "a", step.targets.get "b")) = .ok (0, 1) := by
    decide
  obtain ⟨step, accepted, recorded⟩ := returned_of_map read
  exact ⟨step, accepted, recorded, advance_keeps_frame (Or.inr accepted)⟩

end Ome.Placement.Allocation
