/-
# Ome.Coordination.SequentialAgreement — the gate and the phase measure one window

The gate (`checkSequential`) and the group's phase (`sequentialTransition`) name the same
active member and the same member before it.  Each is brought to one condition on the
clock of the wait (`compositePhase_activeTransition`, `checkSequential_active`); the two
conditions differ in one case only, when the wait has no clock to be measured from
(`Unclocked`): no finish is recorded and the Ready time of the member before is unset.
The gate then lets the member start, while the phase takes the present as the finish and
reads `Sequential.Awaiting`.
-/
import Ome.Coordination.Sequential

namespace Ome.Coordination

open Ome.Theory Option

set_option autoImplicit false

variable {order : List Component} {components : Observations} {c p : Component}

/-! ## The active member and the one before it -/

theorem done_of_previous (active : activeSequentialComponent order components = some c)
    (before : previousCompletedComponent order c = some p) :
    ¬ (p ∈ components.keys ∧ (components.get p).Rolling) := by
  obtain ⟨_, k, _, isActive, passed⟩ := List.find?_eq_some_iff_getElem.mp active
  unfold previousCompletedComponent at before
  split at before
  · cases before
  · cases before
  · rename_i i first
    -- The first place of `c` is at most the one where the search stopped.
    obtain ⟨_, _, earlier⟩ := List.idxOf?_eq_some_iff.mp first
    have within : i < k := by
      by_contra beyond
      exact earlier k (by omega) isActive
    obtain ⟨_, same⟩ := List.getElem?_eq_some_iff.mp before
    simpa [same, imp_iff_not_or] using passed i within

theorem mem_of_previous (before : previousCompletedComponent order c = some p) : p ∈ order := by
  unfold previousCompletedComponent at before
  split at before
  · cases before
  · cases before
  · exact List.mem_of_getElem? before

/-- The gate measures the wait after the same member. -/
theorem previousCompletedComponentForGate_eq
    (active : activeSequentialComponent order components = some c) :
    previousCompletedComponentForGate order components c = previousCompletedComponent order c := by
  have done := fun p => done_of_previous (p := p) active
  unfold previousCompletedComponentForGate previousCompletedComponent at *
  split
  · rfl
  · rfl
  · rename_i i first
    rw [first] at done
    cases before : order[i]? with
    | none => rfl
    | some p => exact if_neg (done p before)

/-! ## The recorded finish -/

/-- Only one entry of the status has the group's name. -/
theorem findSome?_of_name {β : Type} {groups : List GroupStatus}
    (distinct : (groups.map (·.name)).Nodup) {gs : GroupStatus} (member : gs ∈ groups)
    (f : GroupStatus → Option β) :
    (groups.findSome? fun other => if other.name = gs.name then f other else none) = f gs := by
  induction groups with
  | nil => cases member
  | cons first rest ih =>
    rw [List.map_cons, List.nodup_cons] at distinct
    rw [List.findSome?_cons]
    rcases List.mem_cons.mp member with rfl | later
    · rw [if_pos rfl]
      have others : (rest.findSome? fun other =>
          if other.name = gs.name then f other else none) = none := by
        rw [List.findSome?_eq_none_iff]
        intro other isOther
        exact if_neg fun same => distinct.1 (List.mem_map.mpr ⟨other, isOther, same⟩)
      cases f gs with
      | none => exact others
      | some b => rfl
    · have apart : first.name ≠ gs.name := fun same =>
        distinct.1 (List.mem_map.mpr ⟨gs, later, same.symm⟩)
      rw [if_neg apart]
      exact ih distinct.2 later

theorem recordedMemberFinishAt_eq (status : RolloutCoordinationStatus) (name : String)
    (p : Component) :
    status.recordedMemberFinishAt name p =
      if (status.previousMemberFinish name).component = some p then
        (status.previousMemberFinish name).finishedAt
      else 0 := by
  unfold RolloutCoordinationStatus.recordedMemberFinishAt
    RolloutCoordinationStatus.previousMemberFinish
  by_cases present : ∃ gs ∈ status.groups, gs.name = name
  · obtain ⟨gs, member, rfl⟩ := present
    rw [findSome?_of_name status.distinct member
      (fun gs => gs.memberFinished.filter (·.component = p)),
      findSome?_of_name status.distinct member GroupStatus.memberFinished]
    cases gs.memberFinished with
    | none => rfl
    | some f =>
      by_cases same : f.component = p
      · rw [filter_some, decide_eq_true same, if_pos rfl, if_pos (congrArg some same)]
      · rw [filter_some, decide_eq_false same, if_neg (by simp),
          if_neg (by simpa using same)]
  · have absent {β : Type} (f : GroupStatus → Option β) :
        (status.groups.findSome? fun gs => if gs.name = name then f gs else none) = none := by
      rw [List.findSome?_eq_none_iff]
      intro gs member
      exact if_neg fun same => present ⟨gs, member, same⟩
    rw [absent, absent]
    rfl

theorem previousMemberFinish_recorded (status : RolloutCoordinationStatus) (name : String)
    (named : (status.previousMemberFinish name).component = some p) :
    (status.previousMemberFinish name).finishedAt ≠ 0 := by
  unfold RolloutCoordinationStatus.previousMemberFinish at *
  split
  · rename_i none
    rw [none] at named
    cases named
  · rename_i f _
    exact f.recorded

/-! ## One condition on the clock -/

/-- What both sides read of one group. -/
structure Reading where
  group : ResolvedGroup
  components : Observations
  status : RolloutCoordinationStatus
  now : Time

namespace Reading

variable (r : Reading)

/-- The observation that the group's phase is computed from. -/
def observation : GroupObservation where
  group := r.group
  components := r.components
  now := r.now
  memberFinished := r.status.previousMemberFinish r.group.name

/-- The context of a Component's gate. -/
def gate (component : Component) : GateContext where
  shortCircuit := none
  group := r.group
  component := component
  observations := .ok r.components
  status := r.status
  now := r.now

/-- The instant from which the wait after a member is measured: the recorded finish, or
else the member's Ready time. -/
def clock (prev : Component) : Time := gateClock (r.gate prev) r.components prev

/-- The wait before `c` has no clock: the group soaks, and the member before `c` has
neither a recorded finish nor a Ready time. -/
def Unclocked (c : Component) : Prop :=
  0 < r.group.soak ∧ ∃ prev, previousCompletedComponent r.group.order c = some prev ∧
    r.clock prev = 0

/-- The wait before `c` holds it: the member before is not Ready, or the window since the
clock is still running. -/
def Held (c : Component) : Prop :=
  0 < r.group.soak ∧ ∃ prev, previousCompletedComponent r.group.order c = some prev ∧
    r.clock prev ≠ 0 ∧
    ((r.components.get prev).notReady = true ∨ timeSub r.now (r.clock prev) < r.group.soak)

variable {r}

theorem clock_eq (prev : Component) :
    r.clock prev =
      if (r.status.previousMemberFinish r.group.name).component = some prev then
        (r.status.previousMemberFinish r.group.name).finishedAt
      else (r.components.get prev).readyAt := by
  have stands := previousMemberFinish_recorded (p := prev) r.status r.group.name
  show (if r.status.recordedMemberFinishAt r.group.name prev = 0 then _ else
    r.status.recordedMemberFinishAt r.group.name prev) = _
  rw [recordedMemberFinishAt_eq]
  by_cases named : (r.status.previousMemberFinish r.group.name).component = some prev
  · rw [if_pos named, if_pos named, if_neg (stands named)]
  · rw [if_neg named, if_neg named, if_pos rfl]

/-- A record is dropped only when its member rolls again or has left the group. -/
theorem keptMemberFinish_cases (obs : GroupObservation) :
    keptMemberFinish obs = obs.memberFinished ∨
      keptMemberFinish obs = {} ∧ ∃ c, obs.memberFinished.component = some c ∧
        (c ∉ obs.components.keys ∨ (obs.components.get c).Rolling) := by
  unfold keptMemberFinish
  split
  · exact Or.inl rfl
  · rename_i c named
    split
    · rename_i dropped
      exact Or.inr ⟨rfl, c, named, dropped.2⟩
    · exact Or.inl rfl

/-- The finish that the phase measures from: the clock, or the present where there is
none. -/
theorem sequentialMemberFinish_eq (soaks : 0 < r.group.soak) {prev : Component}
    (observed : prev ∈ r.components.keys) (done : ¬ (r.components.get prev).Rolling) :
    sequentialMemberFinish r.observation (some prev) =
      ⟨some prev, if r.clock prev = 0 then r.now else r.clock prev⟩ := by
  have stands := previousMemberFinish_recorded (p := prev) r.status r.group.name
  have notOff : ¬ r.observation.group.soak ≤ 0 := not_le.mpr soaks
  rw [clock_eq, sequentialMemberFinish, if_neg notOff]
  show (if (keptMemberFinish r.observation).component = some prev then
      keptMemberFinish r.observation
    else ⟨some prev, _⟩) = _
  rcases keptMemberFinish_cases r.observation with kept | ⟨dropped, c, named, gone⟩
  · rw [kept]
    show (if (r.status.previousMemberFinish r.group.name).component = some prev then
        r.status.previousMemberFinish r.group.name
      else ⟨some prev, _⟩) = _
    by_cases named : (r.status.previousMemberFinish r.group.name).component = some prev
    · rw [if_pos named, if_pos named, if_neg (stands named), ← named]
    · rw [if_neg named, if_neg named]
      rfl
  · have other : (r.status.previousMemberFinish r.group.name).component ≠ some prev := by
      intro same
      obtain rfl : c = prev := some.inj (named.symm.trans same)
      exact gone.elim (fun left => left observed) done
    rw [dropped, if_neg (by simp), if_neg other]
    rfl

/-! ## The two answers -/

theorem compositePhase_soakTransition (durationText : Int → String) (obs : GroupObservation)
    (c prev : Component) (finished : MemberFinish) :
    (∃ transition, soakTransition durationText obs c prev finished = some transition ∧
      transition.compositePhase = .sequentialAwaiting ∧ transition.currentComponent = some c) ∧
      ((obs.components.get prev).notReady = true ∨
        timeSub obs.now finished.finishedAt < obs.group.soak) ∨
    soakTransition durationText obs c prev finished = none ∧
      ¬ ((obs.components.get prev).notReady = true ∨
        timeSub obs.now finished.finishedAt < obs.group.soak) := by
  by_cases lost : (obs.components.get prev).notReady = true
  · exact Or.inl ⟨⟨_, if_pos lost, rfl, rfl⟩, Or.inl lost⟩
  · by_cases running : timeSub obs.now finished.finishedAt < obs.group.soak
    · exact Or.inl ⟨⟨_, (if_neg lost).trans (if_pos running), rfl, rfl⟩, Or.inr running⟩
    · exact Or.inr ⟨(if_neg lost).trans (if_neg running), by simp [lost, running]⟩

theorem soakHold_eq_none (durationText : Int → String) {c prev : Component} :
    soakHold durationText (r.gate c) r.components prev = none ↔
      ¬ (r.clock prev ≠ 0 ∧ ((r.components.get prev).notReady = true ∨
        timeSub r.now (r.clock prev) < r.group.soak)) := by
  have clock : gateClock (r.gate c) r.components prev = r.clock prev := rfl
  unfold soakHold
  rw [clock]
  by_cases unset : r.clock prev = 0
  · simp [unset]
  · by_cases lost : (r.components.get prev).notReady = true
    · simp [unset, lost]
    · by_cases running : timeSub r.now (r.clock prev) < r.group.soak
      · simp [unset, lost, gate, running]
      · simp [unset, lost, gate, running]

section Answers

variable (durationText : Int → String)
  (active : activeSequentialComponent r.group.order r.components = some c)
  (observed : ∀ d ∈ r.group.order, d ∈ r.components.keys)

include active observed

/-- **The phase**: the group reads `Sequential.Awaiting` while the wait holds the active
member, and while the wait has no clock. -/
theorem activeTransition_awaiting :
    (activeTransition durationText r.observation c).currentComponent = some c ∧
      ((activeTransition durationText r.observation c).compositePhase = .sequentialAwaiting ↔
        r.Held c ∨ r.Unclocked c) := by
  have order : r.observation.group.order = r.group.order := rfl
  unfold activeTransition Held Unclocked
  rw [order]
  cases before : previousCompletedComponent r.group.order c with
  | none => simp
  | some prev =>
    have isObserved := observed prev (mem_of_previous before)
    have done : ¬ (r.components.get prev).Rolling := fun rolling =>
      done_of_previous active before ⟨isObserved, rolling⟩
    by_cases soaks : 0 < r.group.soak
    · have finish := sequentialMemberFinish_eq soaks isObserved done
      have named : 0 < r.observation.group.soak ∧
          (sequentialMemberFinish r.observation (some prev)).component = some prev :=
        ⟨soaks, by rw [finish]⟩
      simp only [if_pos named, some.injEq, exists_eq_left']
      -- a wait without a clock counts from now, so it holds
      have waits : (r.components.get prev).notReady = true ∨
          timeSub r.now (sequentialMemberFinish r.observation (some prev)).finishedAt <
            r.group.soak ↔
          (r.clock prev ≠ 0 ∧ ((r.components.get prev).notReady = true ∨
            timeSub r.now (r.clock prev) < r.group.soak)) ∨ r.clock prev = 0 := by
        rw [finish]
        by_cases unset : r.clock prev = 0
        · have still : timeSub r.now r.now < r.group.soak := by simpa [timeSub] using soaks
          simp [unset, still]
        · simp [unset]
      rcases compositePhase_soakTransition durationText r.observation c prev
          (sequentialMemberFinish r.observation (some prev)) with
        ⟨⟨transition, same, composite, current⟩, holds⟩ | ⟨same, free⟩
      · simp only [same, current, composite, true_and, true_iff]
        rcases waits.mp holds with held | unset
        · exact Or.inl ⟨soaks, held⟩
        · exact Or.inr ⟨soaks, unset⟩
      · simp only [same, reduceCtorEq, true_and, false_iff]
        rintro (⟨_, held⟩ | ⟨_, unset⟩)
        · exact free (waits.mpr (Or.inl held))
        · exact free (waits.mpr (Or.inr unset))
    · have off : ¬ (0 < r.observation.group.soak ∧
          (sequentialMemberFinish r.observation (some prev)).component = some prev) :=
        fun both => soaks both.1
      simp only [if_neg off]
      simp [soaks]

omit observed in
theorem order_nonempty : ¬ r.group.order.length = 0 := by
  intro none
  rw [List.length_eq_zero_iff.mp none] at active
  cases active

omit observed in
/-- **The gate**: the active member is let through unless the wait holds it. -/
theorem checkSequential_active (sequential : r.group.policy = .sequential) :
    (checkSequential durationText (r.gate c)).1 = true ↔ ¬ r.Held c := by
  have nonempty := order_nonempty active
  have before := previousCompletedComponentForGate_eq active
  unfold checkSequential Held
  simp only [show (r.gate c).shortCircuit = none from rfl, show (r.gate c).group = r.group from rfl,
    show (r.gate c).observations = .ok r.components from rfl,
    show (r.gate c).component = c from rfl, sequential, ne_eq, not_true_eq_false, if_false,
    nonempty, active, before]
  by_cases soaks : 0 < r.group.soak
  · simp only [soaks, if_true, true_and]
    cases previousCompletedComponent r.group.order c with
    | none => simp
    | some prev =>
      simp only [some.injEq, exists_eq_left', ← soakHold_eq_none durationText (c := c)]
      cases soakHold durationText (r.gate c) r.components prev with
      | none | some reason => simp
  · simp [soaks]

end Answers

end Reading

/-- **The gate and the phase agree, as far as the wait has a clock.**  While a member is
active, the gate lets through no Component but the one that the phase names, and it lets
that one through exactly when the group does not read `Sequential.Awaiting` or the wait
has no clock.  In the latter case the group does read `Sequential.Awaiting`. -/
theorem sequential_gate_agrees (durationText : Int → String) (r : Reading)
    (sequential : r.group.policy = .sequential)
    (observed : ∀ d ∈ r.group.order, d ∈ r.components.keys)
    (healthy : ∀ d ∈ r.group.order, (r.components.get d).failed = false) (c : Component)
    (active : activeSequentialComponent r.group.order r.components = some c) :
    (sequentialTransition durationText r.observation).currentComponent = some c ∧
    (∀ d, (checkSequential durationText (r.gate d)).1 = true → d = c) ∧
    ((checkSequential durationText (r.gate c)).1 = true ↔
      (sequentialTransition durationText r.observation).compositePhase ≠ .sequentialAwaiting ∨
        r.Unclocked c) ∧
    (r.Unclocked c →
      (sequentialTransition durationText r.observation).compositePhase = .sequentialAwaiting) := by
  have noFailure : (r.observation.group.order.find? fun d =>
      d ∈ r.observation.components.keys ∧ (r.observation.components.get d).failed) = none := by
    rw [List.find?_eq_none]
    intro d member
    have fine : (r.observation.components.get d).failed = false := healthy d member
    simp [fine]
  have isActive : activeSequentialComponent r.observation.group.order r.observation.components =
    some c := active
  have phase : sequentialTransition durationText r.observation =
      activeTransition durationText r.observation c := by
    unfold sequentialTransition
    rw [noFailure, isActive]
  obtain ⟨current, awaiting⟩ := r.activeTransition_awaiting durationText active observed
  have gate := r.checkSequential_active durationText active sequential
  rw [phase]
  refine ⟨current, ?_, ?_, fun unset => awaiting.mpr (Or.inr unset)⟩
  · intro d passes
    by_contra other
    simp [checkSequential, Reading.gate, sequential, Reading.order_nonempty active, active,
      Ne.symm other] at passes
  · rw [gate, ne_eq, awaiting]
    have apart : r.Unclocked c → ¬ r.Held c := by
      rintro ⟨_, prev, before, unset⟩ ⟨_, other, before', set, _⟩
      obtain rfl : prev = other := some.inj (before.symm.trans before')
      exact set unset
    tauto

/-- A decoder that is done and an engine that waits behind it for five seconds. -/
def soaking (finish : Option RecordedFinish) (readyAt now : Time) : Reading where
  group := ⟨"0", .sequential, [.decoder, .engine], 5⟩
  components := GoMap.ofList
    [(.decoder, { readyAt, notReady := readyAt = 0 }),
      (.engine, { rolloutInFlight := true })]
  status := ⟨[⟨"0", finish⟩], by simp⟩
  now := now

theorem soaking_agrees :
    ((checkSequential toString ((soaking none 10 12).gate .engine)).1 = true ↔
      (sequentialTransition toString (soaking none 10 12).observation).compositePhase ≠
          .sequentialAwaiting ∨
        (soaking none 10 12).Unclocked .engine) :=
  (sequential_gate_agrees toString (soaking none 10 12) rfl (by decide) (by decide) .engine
    (by decide)).2.2.1

/-- With neither a recorded finish nor a Ready time, the gate lets the engine start while
the group reads `Sequential.Awaiting`. -/
theorem unclocked_admits_while_awaiting :
    activeSequentialComponent (soaking none 0 12).group.order (soaking none 0 12).components =
        some .engine ∧
      (checkSequential toString ((soaking none 0 12).gate .engine)).1 = true ∧
      (sequentialTransition toString (soaking none 0 12).observation).compositePhase =
        .sequentialAwaiting := by
  decide

end Ome.Coordination
