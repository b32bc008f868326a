/-
# Ome.Canary.Cutover — the last stable Instance goes after a drained cutover

The release of the last stable Instance, a step equal to the number of steps, cannot be
undone.  The clock of the drain window and the clock of the step's soak are one field, so
that the window was waited for is a fact about the run: whenever the recorded weight is 100
at the last step, the field is no older than the second of the latest shift to 100
(`Drains`).

`last_stable_instance_released_drained` is the result.
-/
import Ome.Canary.Runs

namespace Ome.Canary

open Ome.Theory

set_option autoImplicit false

/-- A run starts before there is a record, or from one that was just bound to it. -/
def Unstarted (w : World) : Prop :=
  w.shifted = none ∧ (w.record = none ∨
    ∃ targetID hash stable now, w.record = some (.start targetID hash stable now))

/-- What the record says about the run behind it. -/
structure Drains (plan : GroupCanary) (w : World) : Prop where
  inside : ∀ c, w.record = some c → 0 ≤ c.currentStep ∧ c.currentStep ≤ plan.steps.length
  done : ∀ c, w.record = some c → c.currentStep = plan.steps.length → w.released = true
  full : ∀ c, w.record = some c → c.observedTrafficWeight = 100 → ∃ t, w.shifted = some t
  clock : ∀ c, w.record = some c → c.currentStep + 1 = plan.steps.length →
    c.observedTrafficWeight = 100 →
    ∃ t entered, w.shifted = some t ∧ c.stepEnteredTime = some entered ∧ atSecond t ≤ entered
  past : ∀ t, w.shifted = some t → t ≤ w.clock

variable {plan : GroupCanary} {w : World} {inp : ReconcileInputs} {ended : Ended}

theorem drains_unstarted (steps : plan.steps ≠ []) (first : Unstarted w) : Drains plan w := by
  have length : 0 < plan.steps.length := List.length_pos_iff.mpr steps
  obtain ⟨unshifted, record⟩ := first
  have fresh : ∀ c, w.record = some c → c.currentStep = 0 ∧ c.observedTrafficWeight = 0 := by
    intro c isRecord
    rcases record with none | ⟨targetID, hash, stable, now, started⟩
    · rw [none] at isRecord
      cases isRecord
    · rw [started] at isRecord
      cases isRecord
      exact ⟨rfl, rfl⟩
  refine ⟨fun c isRecord => ?_, fun c isRecord last => ?_, fun c isRecord full => ?_,
    fun c isRecord _ full => ?_, fun t shifted => ?_⟩
  · have := (fresh c isRecord).1
    omega
  · have := (fresh c isRecord).1
    omega
  · have := (fresh c isRecord).2
    omega
  · have := (fresh c isRecord).2
    omega
  · rw [unshifted] at shifted
    cases shifted

/-- A pass works from the record, or from one with no weight at step 0. -/
theorem Base.origin {b : CanaryStatus} (base : Base inp w.record b) :
    w.record = some b ∨ b.currentStep = 0 ∧ b.observedTrafficWeight = 0 := by
  cases base with
  | opens opening =>
    cases opening with
    | kept same => exact Or.inl same
    | fresh => exact Or.inr ⟨rfl, rfl⟩
  | resumes => exact Or.inr ⟨rfl, rfl⟩

/-- A landed pass that raised the weight to 100 is noted. -/
theorem shifted_land (w : World) (inp : ReconcileInputs) (ended : Ended) :
    (w.land plan inp ended).shifted = some inp.now ∨
      (w.land plan inp ended).shifted = w.shifted ∧
        (recordedWeight ended.pass.record = 100 → recordedWeight w.record = 100) := by
  by_cases moved : recordedWeight w.record ≠ 100 ∧ recordedWeight ended.pass.record = 100
  · exact Or.inl (if_pos moved)
  · refine Or.inr ⟨if_neg moved, fun full => ?_⟩
    by_contra short
    exact moved ⟨short, full⟩

/-- **The step lemma of the pass.** -/
theorem Drains.land (drains : Drains plan w) (steps : plan.steps ≠ []) (later : w.clock ≤ inp.now)
    (passes : dispatch plan inp w.pass = some ended) : Drains plan (w.land plan inp ended) := by
  have length : 0 < plan.steps.length := List.length_pos_iff.mpr steps
  have leaves := dispatch_leaves (fun b isRecord => (drains.inside b isRecord).1) passes
  -- no shift is dated later than the pass, also if this pass makes it
  have past : ∀ t, (w.land plan inp ended).shifted = some t → t ≤ inp.now := by
    intro t shifted
    rcases shifted_land w inp ended with now | ⟨same, _⟩
    · rw [now] at shifted
      cases shifted
      exact le_refl _
    · exact (drains.past t (same ▸ shifted)).trans later
  have full : ∀ c, ended.pass.record = some c → c.observedTrafficWeight = 100 →
      ∃ t, (w.land plan inp ended).shifted = some t := by
    intro c isLeft full
    rcases shifted_land w inp ended with now | ⟨same, fell⟩
    · exact ⟨_, now⟩
    · rw [same]
      have before : recordedWeight w.record = 100 := fell (by rw [isLeft]; exact full)
      cases isRecord : w.record with
      | none => simp [isRecord, recordedWeight] at before
      | some b =>
        rw [isRecord] at before
        exact drains.full b isRecord before
  -- the record that is left is one tick from the old one, or from a fresh one
  have tick : ∀ c, ended.pass.record = some c → ∃ b, Tick plan inp b c ∧
      (w.record = some b ∨ b.currentStep = 0 ∧ b.observedTrafficWeight = 0) := by
    intro c isLeft
    obtain ⟨result, pass⟩ := ended
    cases leaves with
    | clear none =>
      simp only at none isLeft
      rw [none] at isLeft
      cases isLeft
    | moved b moves =>
      cases isLeft
      exact ⟨b, moves.tick, moves.base.origin⟩
  have base : ∀ b, w.record = some b ∨ b.currentStep = 0 ∧ b.observedTrafficWeight = 0 →
      0 ≤ b.currentStep ∧ b.currentStep ≤ plan.steps.length := by
    intro b origin
    rcases origin with kept | ⟨zero, _⟩
    · exact drains.inside b kept
    · omega
  have now {t : Int} (shifted : (w.land plan inp ended).shifted = some t) :
      atSecond t ≤ atSecond inp.now :=
    atSecond_le_atSecond ((atSecond_le t).trans (past t shifted))
  refine ⟨fun c isRecord => ?_, fun c isRecord last => ?_, fun c isRecord isFull => ?_,
    fun c isRecord last isFull => ?_, past⟩
  all_goals obtain ⟨c, isLeft, rfl⟩ := record_land isRecord
  · obtain ⟨b, tick, origin⟩ := tick c isLeft
    have inside := base b origin
    show 0 ≤ c.currentStep ∧ c.currentStep ≤ _
    cases tick with
    | holds step | advances before step | completes _ _ _ step => omega
  · show (w.released || decide (recordedStep ended.pass.record = plan.steps.length)) = true
    have atEnd : recordedStep ended.pass.record = plan.steps.length := by
      rw [isLeft]
      exact last
    simp [atEnd]
  · exact full c isLeft isFull
  · obtain ⟨t, shifted⟩ := full c isLeft isFull
    obtain ⟨b, tick, origin⟩ := tick c isLeft
    have last : c.currentStep + 1 = plan.steps.length := last
    cases tick with
    | holds step clock =>
      rcases clock (by omega) isFull with ⟨wasFull, entered⟩ | entered
      · -- the clock runs on: the weight was 100 before, so nothing was noted
        have kept : w.record = some b := by
          rcases origin with kept | ⟨_, zero⟩
          · exact kept
          · omega
        obtain ⟨t', entered', shifted', isEntered, before⟩ :=
          drains.clock b kept (by omega) wasFull
        have same : (w.land plan inp ended).shifted = w.shifted := by
          refine if_neg fun moved => moved.1 ?_
          rw [kept]
          exact wasFull
        exact ⟨t', atSecond entered', same.trans shifted',
          congrArg (Option.map atSecond) (entered.trans isEntered), atSecond_le_atSecond before⟩
      · exact ⟨t, _, shifted, congrArg (Option.map atSecond) entered, now shifted⟩
    | advances _ _ entered =>
      exact ⟨t, _, shifted, congrArg (Option.map atSecond) entered, now shifted⟩
    | completes _ _ _ step => omega

theorem Drains.move {hash : String} {reads : World → ReconcileInputs → Prop}
    (steps : plan.steps ≠ []) (w w' : World) (drains : Drains plan w)
    (move : Move plan hash reads w w') : Drains plan w' := by
  cases move with
  | landed later _ passes => exact drains.land steps later passes
  | lost later =>
    exact ⟨drains.inside, drains.done, drains.full, drains.clock, fun t shifted =>
      (drains.past t shifted).trans later⟩
  | wrote | removed
  | changed => exact ⟨drains.inside, drains.done, drains.full, drains.clock, drains.past⟩

/-! ## The release -/

/-- What a pass that gives up the last stable Instance has behind it. -/
structure Drained (plan : GroupCanary) (w : World) (inp : ReconcileInputs) : Prop where
  weight : recordedWeight w.record = 100
  capacity : ∃ last, plan.steps.getLast? = some last ∧
    stepStagedCount last inp.desiredReplicas ≤ readyCanaryCapacity inp
  secondaries : inp.secondaryCapacityReady = true
  delay : ∃ t, w.shifted = some t ∧
    atSecond t + plan.scaleDownDelaySeconds.getD 0 * second ≤ inp.now

/-- The window that a record's clock shows to be over was waited for since the second of the
shift. -/
theorem delay_of_drainElapsed {b : CanaryStatus} {t entered now : Int}
    (isEntered : b.stepEnteredTime = some entered) (after : atSecond t ≤ entered)
    (past : atSecond t ≤ now) (drained : drainElapsed b plan now = true) :
    atSecond t + plan.scaleDownDelaySeconds.getD 0 * second ≤ now := by
  unfold drainElapsed at drained
  cases delay : plan.scaleDownDelaySeconds with
  | none => simpa using past
  | some d =>
    simp only [Option.getD_some]
    rw [delay] at drained
    simp only [isEntered] at drained
    by_cases none : d ≤ 0
    · have nonpos : d * second ≤ 0 := by
        unfold second
        omega
      omega
    · rw [if_neg none] at drained
      have waited : ¬ now < entered + d * second := by simpa using drained
      omega

/-- The pass that goes to the end of the plan found the drain time over. -/
theorem Drains.drained (drains : Drains plan w) (steps : plan.steps ≠ [])
    (later : w.clock ≤ inp.now) (passes : dispatch plan inp w.pass = some ended)
    (short : recordedStep w.record ≠ plan.steps.length)
    (releases : recordedStep ended.pass.record = plan.steps.length) : Drained plan w inp := by
  have length : 0 < plan.steps.length := List.length_pos_iff.mpr steps
  have leaves := dispatch_leaves (fun b isRecord => (drains.inside b isRecord).1) passes
  obtain ⟨result, pass⟩ := ended
  cases leaves with
  | clear none =>
    simp only at none releases
    rw [none] at releases
    simp only [recordedStep] at releases
    omega
  | @moved p b moves =>
    have releases : p.record.currentStep = plan.steps.length := releases
    have origin := moves.base.origin
    cases moves.tick with
    | holds step =>
      rcases origin with kept | ⟨zero, _⟩
      · rw [kept] at short
        exact absurd (step.symm.trans releases) short
      · omega
    | advances before step => omega
    | completes last atLast isLast step weight capacity drained =>
      have kept : w.record = some b := by
        rcases origin with kept | ⟨_, zero⟩
        · exact kept
        · omega
      obtain ⟨t, entered, shifted, isEntered, after⟩ := drains.clock b kept atLast weight
      have past := (atSecond_le t).trans ((drains.past t shifted).trans later)
      simp only [capacityShort, decide_eq_false_iff_not, not_or, not_lt,
        Bool.not_eq_false] at capacity
      have final : plan.steps.getLast? = some last := by
        rw [List.getLast?_eq_getElem?, ← isLast]
        congr 1
        omega
      refine ⟨?_, ⟨last, final, capacity.1⟩, capacity.2, t, shifted,
        delay_of_drainElapsed isEntered after past drained⟩
      rw [kept]
      exact weight

/-- **A canary gives up the last stable Instance only after a drained cutover.**  In every
state of every run, a pass that sets the step to the number of steps starts from a recorded
weight of 100, has counted the final step's canary Instances, and is at least the
configured delay after the second of the latest shift to 100; and until such a pass has landed every
member with more than one Instance keeps one on its stable revision, unless the canary was
rejected. -/
theorem last_stable_instance_released_drained (steps : plan.steps ≠ []) {hash : String}
    (reached : Reached plan hash (fun _ _ => True) Unstarted w) :
    (∀ inp ended, w.clock ≤ inp.now → dispatch plan inp w.pass = some ended →
      recordedStep w.record ≠ plan.steps.length →
      recordedStep ended.pass.record = plan.steps.length → Drained plan w inp) ∧
    (w.released = false → (∀ c, w.record = some c → c.rolledBackRevisionHash = "") →
      ∀ desired, 1 < desired →
        ∃ p, effectivePartition plan w.record w.phase desired = some p ∧ 1 ≤ p) := by
  have drains : Drains plan w := reached.invariant (Drains.move steps)
    fun w first => drains_unstarted steps first
  refine ⟨fun inp ended later passes short releases =>
    drains.drained steps later passes short releases, fun unreleased accepted desired many => ?_⟩
  refine one_le_effectivePartition steps (fun c isRecord => ?_) accepted many
  obtain ⟨nonneg, atMost⟩ := drains.inside c isRecord
  refine ⟨nonneg, lt_of_le_of_ne atMost fun last => ?_⟩
  rw [drains.done c isRecord last] at unreleased
  cases unreleased

/-- The state after the pass that shifts the traffic. -/
def shiftedWorld (now : Int) : World := unarmed.after straightPlan (calmInputs 1 2 now)

theorem shiftedWorld_released_drained :
    Drained straightPlan (shiftedWorld 1) (calmInputs 1 2 (1 + 30 * second)) ∧
      ∃ p, effectivePartition straightPlan (shiftedWorld 1).record (shiftedWorld 1).phase 2 =
        some p ∧ 1 ≤ p := by
  have reached : Reached straightPlan "c" (fun _ _ => True) Unstarted (shiftedWorld 1) :=
    ⟨unarmed, ⟨rfl, Or.inl rfl⟩, run_after (by decide) trivial⟩
  obtain ⟨releases, holds⟩ := last_stable_instance_released_drained (by decide) reached
  obtain ⟨ended, passes, atEnd⟩ : ∃ ended,
      dispatch straightPlan (calmInputs 1 2 (1 + 30 * second)) (shiftedWorld 1).pass = some ended ∧
        recordedStep ended.pass.record = 1 := by
    rw [← Option.map_eq_some_iff]
    decide
  refine ⟨releases _ ended (by decide) passes (by decide) atEnd, holds (by decide) ?_ 2 (by decide)⟩
  have accepted :
      ((shiftedWorld 1).record.all fun c => c.rolledBackRevisionHash = "") = true := by
    decide
  intro c isRecord
  simpa [isRecord] using accepted

/-- **The window may be short by a part of a second.**  A shift 1.9 seconds into the run is
stored at 1; the half minute from there is over at 31, 29.1 seconds after the shift. -/
theorem shiftedWorld_released_early :
    Reached straightPlan "c" (fun _ _ => True) Unstarted (shiftedWorld 1900000000) ∧
      (shiftedWorld 1900000000).shifted = some 1900000000 ∧
      recordedStep (shiftedWorld 1900000000).record = 0 ∧
      (dispatch straightPlan (calmInputs 1 2 (31 * second)) (shiftedWorld 1900000000).pass).map
        (fun ended => recordedStep ended.pass.record) = some 1 ∧
      31 * second < 1900000000 + 30 * second :=
  ⟨⟨unarmed, ⟨rfl, Or.inl rfl⟩, run_after (by decide) trivial⟩, by decide, by decide, by decide,
    by decide⟩

end Ome.Canary
