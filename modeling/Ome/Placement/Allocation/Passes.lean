/-
# Ome.Placement.Allocation.Passes — what one visit and one decision can do

The two passes of a step visit each member once and write only that member's
entry.  Everything a visit can do is said here once, guards included:
`planReduction_cases` and `growMember_cases` list the outcomes of one visit, and
`decide_cases` the seven outcomes of `decide`, in the order the source names
them.  `TransitionCall.entry` is what a pass records for one cluster, and
`planReduction_frame`, `growMember_frame` are the frame conditions that let the
rules of `Ome.Theory.KeyedPass` run over a whole pass.
-/
import Ome.Placement.Allocation.Reading
import Ome.Theory.KeyedPass

namespace Ome.Placement.Allocation

open Ome.Theory

set_option autoImplicit false

variable {name : String} {t t' g : TransitionCall} {m : MemberView}

theorem sameTargets_iff (a b : GoMap String Int) :
    TransitionCall.sameTargets a b = true ↔ ∀ name, a.get name = b.get name := by
  simp only [TransitionCall.sameTargets, Bool.and_eq_true, List.all_eq_true, beq_iff_eq]
  constructor
  · rintro ⟨left, right⟩ name
    by_cases inLeft : name ∈ a.keys
    · exact (left name inLeft).symm
    · by_cases inRight : name ∈ b.keys
      · exact right name inRight
      · rw [a.get_int_absent inLeft, b.get_int_absent inRight]
  · intro same
    exact ⟨fun name _ => (same name).symm, fun name _ => same name⟩

namespace TransitionCall

/-- What the step records for one cluster: its target, and whether it drains. -/
def entry (t : TransitionCall) (name : String) : Int × Bool :=
  (t.step.targets.get name, Decidable.decide (name ∈ t.step.drain))

@[simp] theorem entry_setTarget_self (t : TransitionCall) (name : String) (count : Int) :
    (t.setTarget name count).entry name = (count, Decidable.decide (name ∈ t.step.drain)) :=
  Prod.ext (by simp [entry, setTarget]) rfl

theorem entry_setTarget_ne (t : TransitionCall) {other : String} (count : Int)
    (ne : other ≠ name) : (t.setTarget name count).entry other = t.entry other :=
  Prod.ext (GoMap.get_set_ne _ _ ne) rfl

@[simp] theorem entry_addDrain_self (t : TransitionCall) (name : String) :
    (t.addDrain name).entry name = (t.step.targets.get name, true) := by
  simp [entry, addDrain]

theorem entry_addDrain_ne (t : TransitionCall) {other : String} (ne : other ≠ name) :
    (t.addDrain name).entry other = t.entry other := by
  simp [entry, addDrain, ne]

/-- The fields a pass reads and never writes. -/
structure SameRead (t t' : TransitionCall) : Prop where
  input : t'.input = t.input
  whole : t'.wholeMembers = t.wholeMembers
  fromReplicas : t'.fromReplicas = t.fromReplicas
  desiredReplicas : t'.desiredReplicas = t.desiredReplicas
  members : t'.members = t.members
  inUse : t'.inUse = t.inUse
  grow : t'.targetsGrow = t.targetsGrow
  shrink : t'.targetsShrink = t.targetsShrink
  resume : t'.step.resume = t.step.resume
  complete : t'.step.complete = t.step.complete

theorem SameRead.rfl : SameRead t t := by constructor <;> rfl

theorem SameRead.trans {u v : TransitionCall} (first : SameRead t u) (second : SameRead u v) :
    SameRead t v where
  input := second.input.trans first.input
  whole := second.whole.trans first.whole
  fromReplicas := second.fromReplicas.trans first.fromReplicas
  desiredReplicas := second.desiredReplicas.trans first.desiredReplicas
  members := second.members.trans first.members
  inUse := second.inUse.trans first.inUse
  grow := second.grow.trans first.grow
  shrink := second.shrink.trans first.shrink
  resume := second.resume.trans first.resume
  complete := second.complete.trans first.complete

/-! ## One visit of the reduction pass -/

/-- A funded reduction of `m` by `reduce`, paid for and not yet recorded. -/
def paidReduction (t : TransitionCall) (m : MemberView) (reduce : Int) : TransitionCall :=
  { t with
    servingAboveMinimum := t.servingAboveMinimum -
      (if m.state.routable then max 0 (reduce - max 0 (m.current - m.state.ready)) else 0)
    retirementAllowance := t.retirementAllowance - max 0 (reduce - t.unbackedReplicas m) }

/-- The outcomes of visiting `m` in the reduction pass. -/
inductive Reduction (t : TransitionCall) (m : MemberView) : TransitionCall → Prop where
  | kept : Reduction t m t
  | drainedUnrouted (untargeted : m.occupiedWithoutTarget = true)
      (unrouted : m.state.routable = false) : Reduction t m (t.addDrain m.name)
  | drainedFunded (untargeted : m.occupiedWithoutTarget = true)
      (routed : m.state.routable = true) (funded : m.state.ready ≤ t.readyAboveDesired) :
      Reduction t m
        ({ t with readyAboveDesired := t.readyAboveDesired - m.state.ready }.addDrain m.name)
  | absent (gone : m.state.absent = true) (above : m.goal < m.current) :
      Reduction t m (t.setTarget m.name m.goal)
  | emptied (reducible : m.reducible = true) (nonzero : t.fundedReduction m ≠ 0)
      (whole : t.wholeMembers = true → m.current - m.goal ≤ t.fundedReduction m)
      (all : m.current = t.fundedReduction m) (undrained : m.state.drained = false) :
      Reduction t m ((t.paidReduction m (t.fundedReduction m)).addDrain m.name)
  | lowered (reducible : m.reducible = true) (nonzero : t.fundedReduction m ≠ 0)
      (whole : t.wholeMembers = true → m.current - m.goal ≤ t.fundedReduction m)
      (partly : m.current ≠ t.fundedReduction m ∨ m.state.drained = true) :
      Reduction t m ((t.paidReduction m (t.fundedReduction m)).setTarget m.name
        (t.step.targets.get m.name - t.fundedReduction m))

theorem reduceFunded_cases (t : TransitionCall) (m : MemberView) (reducible : m.reducible = true) :
    Reduction t m (t.reduceFunded m) := by
  simp only [reduceFunded]
  split
  · exact .kept
  · rename_i moves
    simp only [Bool.or_eq_true, beq_iff_eq, Bool.and_eq_true, decide_eq_true_eq, not_or,
      not_and, Int.not_lt] at moves
    split
    · rename_i all
      simp only [Bool.and_eq_true, beq_iff_eq, Bool.not_eq_true'] at all
      exact .emptied reducible moves.1 moves.2 all.1 all.2
    · rename_i partly
      simp only [Bool.and_eq_true, beq_iff_eq, Bool.not_eq_true', not_and,
        Bool.not_eq_false] at partly
      refine .lowered reducible moves.1 moves.2 ?_
      by_cases all : m.current = t.fundedReduction m
      · exact Or.inr (partly all)
      · exact Or.inl all

theorem planReduction_cases (t : TransitionCall) (m : MemberView) :
    Reduction t m (t.planReduction m) := by
  simp only [planReduction]
  split
  · rename_i untargeted
    simp only [drainWithoutTarget]
    split
    · rename_i routed
      split
      · exact .kept
      · rename_i funded
        exact .drainedFunded untargeted routed (by omega)
    · rename_i unrouted
      exact .drainedUnrouted untargeted (by simpa using unrouted)
  · split
    · rename_i gone
      simp only [Bool.and_eq_true, decide_eq_true_eq] at gone
      exact .absent gone.1 gone.2
    · split
      · rename_i reducible
        exact t.reduceFunded_cases m reducible
      · exact .kept

theorem Reduction.sameRead (visit : Reduction t m t') : SameRead t t' := by
  cases visit <;> constructor <;> rfl

theorem Reduction.frame (visit : Reduction t m t')
    (ne : name ≠ m.name) : t'.entry name = t.entry name := by
  cases visit with
  | kept => rfl
  | drainedUnrouted => exact t.entry_addDrain_ne ne
  | drainedFunded | emptied => exact entry_addDrain_ne _ ne
  | absent => exact t.entry_setTarget_ne _ ne
  | lowered => exact entry_setTarget_ne _ _ ne

theorem planReduction_frame : KeyedPass.Frame planReduction MemberView.name entry :=
  fun t m _ ne => (t.planReduction_cases m).frame ne

theorem Reduction.keys (visit : Reduction t m t') (member : name ∈ t'.step.targets.keys) :
    name ∈ t.step.targets.keys ∨ name = m.name := by
  cases visit with
  | kept | drainedUnrouted | drainedFunded | emptied => exact Or.inl member
  | absent | lowered => exact (GoMap.mem_keys_set ..).mp member

theorem planReduction_adds :
    KeyedPass.Adds planReduction MemberView.name (fun t name => name ∈ t.step.targets.keys) :=
  fun t m _ member => (t.planReduction_cases m).keys member

/-! ## One visit of the growth pass -/

/-- How much a visit raises the target of a growable member. -/
def growth (t : TransitionCall) (m : MemberView) : Int :=
  t.readyGrowth m + min (m.goal - m.current - t.readyGrowth m) t.growthAllowance

/-- The outcomes of visiting `m` in the growth pass. -/
inductive Growth (t : TransitionCall) (m : MemberView) : TransitionCall → Prop where
  | kept (settled : m.growable = false) : Growth t m t
  | blocked (growable : m.growable = true) (whole : t.wholeMembers = true)
      (short : t.growth m < m.goal - m.current) : Growth t m { t with budgetBlocked := true }
  | raised (growable : m.growable = true)
      (whole : t.wholeMembers = true → m.goal - m.current ≤ t.growth m) :
      Growth t m ({ t with
        growthAllowance := t.growthAllowance - (t.growth m - t.readyGrowth m) }.setTarget m.name
          (t.step.targets.get m.name + t.growth m))

theorem growMember_cases (t : TransitionCall) (m : MemberView) : Growth t m (t.growMember m) := by
  simp only [growMember]
  split
  · rename_i settled
    exact .kept (by simpa using settled)
  · rename_i growable
    simp only [Bool.not_eq_true', Bool.not_eq_false] at growable
    split
    · rename_i short
      simp only [Bool.and_eq_true, decide_eq_true_eq] at short
      exact .blocked growable short.1 short.2
    · rename_i whole
      simp only [Bool.and_eq_true, decide_eq_true_eq, not_and, Int.not_lt] at whole
      exact .raised growable whole

theorem Growth.sameRead (visit : Growth t m t') : SameRead t t' := by
  cases visit <;> constructor <;> rfl

theorem Growth.frame (visit : Growth t m t')
    (ne : name ≠ m.name) : t'.entry name = t.entry name := by
  cases visit with
  | kept | blocked => rfl
  | raised => exact entry_setTarget_ne _ _ ne

theorem growMember_frame : KeyedPass.Frame growMember MemberView.name entry :=
  fun t m _ ne => (t.growMember_cases m).frame ne

theorem Growth.keys (visit : Growth t m t') (member : name ∈ t'.step.targets.keys) :
    name ∈ t.step.targets.keys ∨ name = m.name := by
  cases visit with
  | kept | blocked => exact Or.inl member
  | raised => exact (GoMap.mem_keys_set ..).mp member

theorem growMember_adds :
    KeyedPass.Adds growMember MemberView.name (fun t name => name ∈ t.step.targets.keys) :=
  fun t m _ member => (t.growMember_cases m).keys member

theorem Growth.drain (visit : Growth t m t') : t'.step.drain = t.step.drain := by
  cases visit <;> rfl

/-! ## Whole passes -/

theorem reductionOrder_perm (t : TransitionCall) : t.reductionOrder.Perm t.members :=
  List.perm_insertionSort _ _

theorem foldl_sameRead {visit : TransitionCall → MemberView → TransitionCall}
    (reads : ∀ t m, SameRead t (visit t m)) (members : List MemberView) (t : TransitionCall) :
    SameRead t (members.foldl visit t) := by
  induction members generalizing t with
  | nil => exact SameRead.rfl
  | cons m rest ih => exact (reads t m).trans (ih _)

/-- The call a growth pass starts from. -/
def withGrowthAllowance (t : TransitionCall) : TransitionCall :=
  let limit := max t.fromReplicas t.desiredReplicas
  { t with growthAllowance := max 0 (limit + t.input.surge - t.inUse) }

theorem planGrowth_ok (h : t.planGrowth = .ok g) :
    g = t.members.foldl growMember t.withGrowthAllowance := by
  simp only [planGrowth] at h
  split at h <;> cases h
  rfl

theorem planGrowth_sameRead (h : t.planGrowth = .ok g) : SameRead t g := by
  obtain rfl := planGrowth_ok h
  have pass := foldl_sameRead (fun t m => (t.growMember_cases m).sameRead) t.members
    t.withGrowthAllowance
  exact SameRead.trans (by constructor <;> rfl) pass

theorem foldl_growMember_drain (members : List MemberView) (t : TransitionCall) :
    (members.foldl growMember t).step.drain = t.step.drain := by
  induction members generalizing t with
  | nil => rfl
  | cons m rest ih => rw [List.foldl_cons, ih, (t.growMember_cases m).drain]

theorem planGrowth_drain (h : t.planGrowth = .ok g) : g.step.drain = t.step.drain := by
  obtain rfl := planGrowth_ok h
  exact foldl_growMember_drain t.members t.withGrowthAllowance

theorem movesReplicas_eq_false (still : t.movesReplicas = false) :
    t.step.drain = [] ∧ ∀ name, t.step.targets.get name = t.input.current.get name := by
  simp only [movesReplicas, Bool.or_eq_false_iff, Bool.not_eq_false', List.isEmpty_iff] at still
  exact ⟨still.1, (sameTargets_iff _ _).mp still.2⟩

/-! ## The decision -/

/-- The call after the reduction pass of `decide`. -/
def reduced (t : TransitionCall) : TransitionCall := t.resumeDrainedMembers.planReductions

theorem reduced_sameRead (t : TransitionCall) : SameRead t.resumeDrainedMembers t.reduced :=
  foldl_sameRead (fun t m => (t.planReduction_cases m).sameRead) _ t.resumeDrainedMembers

/-- The growth pass runs: nothing is unknown, resumed or reduced. -/
structure Grows (t g : TransitionCall) : Prop where
  observed : t.hasUnknownStandingMember = false
  resumed : t.resumeDrainedMembers.step.resume = []
  still : t.reduced.movesReplicas = false
  grown : t.reduced.planGrowth = .ok g

/-- The seven outcomes of `decide`, with the guards that select them. -/
inductive Decision (t : TransitionCall) : Step → Prop where
  | unknown (standing : t.hasUnknownStandingMember = true) :
      Decision t (t.step.withReason .observationUnknown)
  | resuming (observed : t.hasUnknownStandingMember = false)
      (drained : t.resumeDrainedMembers.step.resume ≠ []) :
      Decision t (t.resumeDrainedMembers.step.withReason .awaitingMemberConvergence)
  | reducing (observed : t.hasUnknownStandingMember = false)
      (resumed : t.resumeDrainedMembers.step.resume = [])
      (moves : t.reduced.movesReplicas = true) :
      Decision t (t.reduced.step.withReason .awaitingMemberConvergence)
  | growing (g : TransitionCall) (grows : Grows t g) (moves : g.movesReplicas = true) :
      Decision t (g.step.withReason .awaitingMemberConvergence)
  | waiting (g : TransitionCall) (grows : Grows t g) (rests : g.movesReplicas = false)
      (short : (g.targetsGrow || g.targetsShrink) = true) :
      Decision t (g.step.withReason g.waitingReason)
  | settling (g : TransitionCall) (grows : Grows t g) (rests : g.movesReplicas = false)
      (reached : (g.targetsGrow || g.targetsShrink) = false)
      (unsettled : g.hasUnsettledMember = true) :
      Decision t (g.step.withReason .awaitingMemberConvergence)
  | complete (g : TransitionCall) (grows : Grows t g) (rests : g.movesReplicas = false)
      (reached : (g.targetsGrow || g.targetsShrink) = false)
      (settled : g.hasUnsettledMember = false) : Decision t { g.step with complete := true }

/-- The order of the decision, as one case for each way to return. -/
theorem decide_cases {step : Step} (h : t.decide = .ok step) : Decision t step := by
  simp only [TransitionCall.decide] at h
  split at h
  · rename_i standing
    cases h
    exact .unknown standing
  rename_i observed
  simp only [Bool.not_eq_true] at observed
  split at h
  · rename_i drained
    cases h
    exact .resuming observed (by simpa [List.isEmpty_iff] using drained)
  rename_i resumed
  simp only [Bool.not_eq_true', Bool.not_eq_false, List.isEmpty_iff] at resumed
  split at h
  · rename_i moves
    cases h
    exact .reducing observed resumed moves
  rename_i still
  simp only [Bool.not_eq_true] at still
  split at h
  · cases h
  rename_i g grown
  have grows : Grows t g := ⟨observed, resumed, still, grown⟩
  split at h
  · rename_i moves
    cases h
    exact .growing g grows moves
  rename_i rests
  simp only [Bool.not_eq_true] at rests
  split at h
  · rename_i short
    cases h
    exact .waiting g grows rests short
  rename_i reached
  simp only [Bool.not_eq_true] at reached
  split at h
  · rename_i unsettled
    cases h
    exact .settling g grows rests reached unsettled
  · rename_i settled
    cases h
    exact .complete g grows rests reached (by simpa using settled)

/-- Only the growth pass can refuse, and only an allowance that does not fit. -/
theorem decide_accepts (fits : max t.fromReplicas t.desiredReplicas + t.input.surge ≤ maxInt64) :
    ∃ step, t.decide = .ok step := by
  have same := t.reduced_sameRead
  obtain ⟨g, grown⟩ : ∃ g, t.reduced.planGrowth = .ok g := by
    rw [planGrowth, same.fromReplicas, same.desiredReplicas, same.input]
    exact ⟨_, if_neg fun full => by simp only [resumeDrainedMembers] at full; omega⟩
  rw [reduced] at grown
  simp only [TransitionCall.decide, grown]
  repeat' split
  all_goals exact ⟨_, rfl⟩

end TransitionCall

end Ome.Placement.Allocation
