/-
# Ome.Canary.Moves — what a whole pass can do to the record

A pass starts from a base record (`Base`): the one it finds, or a fresh one when it arms,
re-arms or resumes.  From there every way out of the pass leaves a record that

* keeps the identity of the base (`Ident`);
* stays at the base's step, enters the next one, or releases the last stable Instance,
  and then on the clock and the weight the base has (`Tick`);
* has opened at most one gate by a promote, and then for an annotation that was not recorded
  and now is (`Fair`);
* keeps a hold that stands before the step, and then its traffic is not raised, unless a
  promote opened a gate (`Waits`).

`dispatch_leaves` says so of every pass, by one lemma for each stage.
-/
import Ome.Canary.Passes

namespace Ome.Canary

open Ome.Theory

set_option autoImplicit false

variable {shown : GoMap Verb String} {opened : Nat}

/-! ## Where a pass starts and what it leaves -/

/-- The observed target is not the one the record goes toward. -/
def Retargets (inp : ReconcileInputs) (b : CanaryStatus) : Prop :=
  targetChanged inp (some b) = true ∨ inp.canaryRevisionHash ≠ b.canaryRevisionHash ∨
    b.rolledBackRevisionHash ≠ "" ∧ inp.canaryRevisionHash ≠ b.rolledBackRevisionHash

/-- The record the stages work from: the one found, or a fresh one toward the observed
target. -/
inductive Opening (inp : ReconcileInputs) (found : Option CanaryStatus) : CanaryStatus → Prop
  | kept {b : CanaryStatus} (same : found = some b) : Opening inp found b
  | fresh (stable : String) (new : ∀ b, found = some b → Retargets inp b) :
      Opening inp found (.start inp.targetID inp.canaryRevisionHash stable inp.now)

inductive Base (inp : ReconcileInputs) (found : Option CanaryStatus) : CanaryStatus → Prop
  | opens {b : CanaryStatus} (opening : Opening inp found b) : Base inp found b
  | resumes {b : CanaryStatus} (stable : String) (same : found = some b)
      (asked : inp.resume ≠ none) :
      Base inp found (.start inp.targetID b.canaryRevisionHash stable inp.now)

/-- The record goes toward the same revision and target. -/
structure Ident (inp : ReconcileInputs) (b c : CanaryStatus) : Prop where
  hash : c.canaryRevisionHash = b.canaryRevisionHash
  target : c.targetID = b.targetID ∨ b.targetID = "" ∧ c.targetID = inp.targetID
  rejected : c.rolledBackRevisionHash = b.rolledBackRevisionHash ∨
    c.rolledBackRevisionHash = b.canaryRevisionHash

/-- What becomes of the step. -/
inductive Tick (plan : GroupCanary) (inp : ReconcileInputs) (b c : CanaryStatus) : Prop
  | holds (step : c.currentStep = b.currentStep)
      (clock : b.currentStep + 1 = plan.steps.length → c.observedTrafficWeight = 100 →
        b.observedTrafficWeight = 100 ∧ c.stepEnteredTime = b.stepEnteredTime ∨
          c.stepEnteredTime = some inp.now)
  | advances (before : b.currentStep + 1 < plan.steps.length)
      (step : c.currentStep = b.currentStep + 1) (entered : c.stepEnteredTime = some inp.now)
  | completes (last : RolloutGroupStep) (atLast : b.currentStep + 1 = plan.steps.length)
      (isLast : plan.steps[b.currentStep.toNat]? = some last)
      (step : c.currentStep = plan.steps.length) (weight : b.observedTrafficWeight = 100)
      (capacity : capacityShort inp last = false) (drained : drainElapsed b plan inp.now = true)

/-- What becomes of the count of gates that promotes opened and of the recorded promote. -/
structure Fair (shown : GoMap Verb String) (b : CanaryStatus) (opened : Nat) (c : CanaryStatus)
    (opened' : Nat) : Prop where
  idle : b.canaryRevisionHash ≠ "" → ¬ Carries shown b.canaryRevisionHash → opened' = opened
  once : b.canaryRevisionHash ≠ "" → Carries shown b.canaryRevisionHash →
    opened' = opened ∧ (Unmixed shown b.canaryRevisionHash →
      b.promotedThrough = b.canaryRevisionHash → c.promotedThrough = b.canaryRevisionHash) ∨
    opened' = opened + 1 ∧ b.promotedThrough ≠ b.canaryRevisionHash ∧
      (Unmixed shown b.canaryRevisionHash → c.promotedThrough = b.canaryRevisionHash)

/-- A held step stays held, and its traffic does not rise, while no promote opens a gate. -/
def Waits (b : CanaryStatus) (opened : Nat) (c : CanaryStatus) (opened' : Nat) : Prop :=
  b.preStepHold = true → opened' = opened → c.preStepHold = true ∧
    (c.observedTrafficWeight = b.observedTrafficWeight ∨ c.observedTrafficWeight = 0)

/-- The record left by a pass, against the one it worked from. -/
structure Moves (plan : GroupCanary) (inp : ReconcileInputs) (start : Pass (Option CanaryStatus))
    (b : CanaryStatus) (p : Armed) : Prop where
  base : Base inp start.record b
  ident : Ident inp b p.record
  tick : Tick plan inp b p.record
  fair : Fair start.annotations b start.opened p.record p.opened
  waits : Waits b start.opened p.record p.opened

/-- **What a pass leaves.** -/
inductive Leaves (plan : GroupCanary) (inp : ReconcileInputs)
    (start : Pass (Option CanaryStatus)) : Pass (Option CanaryStatus) → Prop
  | clear {p : Pass (Option CanaryStatus)} (record : p.record = none)
      (opened : p.opened = start.opened)
      (why : start.record = none ∨ inp.runActive = false) : Leaves plan inp start p
  | moved {p : Armed} (b : CanaryStatus) (moves : Moves plan inp start b p) :
      Leaves plan inp start p.whole

/-- Every exit of a stage leaves one of these. -/
def Exits (plan : GroupCanary) (inp : ReconcileInputs) (start : Pass (Option CanaryStatus))
    (exit : Option Ended) : Prop :=
  ∀ ended, exit = some ended → Leaves plan inp start ended.pass

theorem exits_none {plan : GroupCanary} {inp : ReconcileInputs}
    {start : Pass (Option CanaryStatus)} : Exits plan inp start none := by
  intro ended failed
  cases failed

/-! ## While the pass goes on -/

/-- The stages before the step machine: the record is the base, and no promote was taken. -/
structure Goes (inp : ReconcileInputs) (start : Pass (Option CanaryStatus)) (b : CanaryStatus)
    (p : Armed) : Prop where
  opening : Opening inp start.record b
  ident : Ident inp b p.record
  step : p.record.currentStep = b.currentStep
  entered : p.record.stepEnteredTime = b.stepEnteredTime
  weight : p.record.observedTrafficWeight = b.observedTrafficWeight
  promoted : p.record.promotedThrough = b.promotedThrough
  rejected : p.record.rolledBackRevisionHash = b.rolledBackRevisionHash
  hold : p.record.preStepHold = b.preStepHold
  promotes : SamePromotes start.annotations p.annotations
  opened : p.opened = start.opened

def Going (inp : ReconcileInputs) (start : Pass (Option CanaryStatus)) (p : Armed) : Prop :=
  ∃ b, Goes inp start b p

/-- The promotes the step machine has before it: none spent yet, or all spent on a hold. -/
inductive Due (shown : GoMap Verb String) (b : CanaryStatus) (opened : Nat) (p : Armed) : Prop
  | unspent (same : p.opened = opened)
      (promoted : p.record.promotedThrough = b.promotedThrough ∨
        ¬ Carries shown b.promotedThrough)
      (fewer : ∀ key ∈ promoteKeys, key ∈ p.annotations.keys → key ∈ shown.keys ∧
        p.annotations.get key = shown.get key ∧
        (b.promotedThrough = "" ∨ shown.get key ≠ b.promotedThrough))
  | spent (counted : p.opened = opened + 1) (unrecorded : b.promotedThrough ≠ b.canaryRevisionHash)
      (carried : Carries shown b.canaryRevisionHash)
      (promoted : p.record.promotedThrough = b.canaryRevisionHash)
      (fewer : ∀ key ∈ promoteKeys, key ∈ p.annotations.keys → key ∈ shown.keys ∧
        p.annotations.get key = shown.get key ∧ shown.get key ≠ b.canaryRevisionHash)

/-- The step machine before it has recorded a promote. -/
structure Gated (inp : ReconcileInputs) (start : Pass (Option CanaryStatus)) (b : CanaryStatus)
    (p : Armed) : Prop where
  base : Base inp start.record b
  ident : Ident inp b p.record
  step : p.record.currentStep = b.currentStep
  more : start.opened ≤ p.opened
  due : b.canaryRevisionHash ≠ "" → Due start.annotations b start.opened p

/-- The step machine before it moves the traffic. -/
structure Steps (inp : ReconcileInputs) (start : Pass (Option CanaryStatus)) (b : CanaryStatus)
    (p : Armed) : Prop extends Gated inp start b p where
  entered : p.record.stepEnteredTime = b.stepEnteredTime
  weight : p.record.observedTrafficWeight = b.observedTrafficWeight
  hold : p.record.preStepHold = b.preStepHold ∨ start.opened < p.opened

/-- The step machine once nothing holds the step, or a promote released it. -/
structure Freed (inp : ReconcileInputs) (start : Pass (Option CanaryStatus)) (b : CanaryStatus)
    (p : Armed) : Prop extends Gated inp start b p where
  free : b.preStepHold = true → start.opened < p.opened

variable {plan : GroupCanary} {inp : ReconcileInputs} {start : Pass (Option CanaryStatus)}
  {b : CanaryStatus} {p p' : Armed}

/-! ### Parts that keep the record -/

theorem Ident.refl (inp : ReconcileInputs) (b : CanaryStatus) : Ident inp b b :=
  ⟨rfl, Or.inl rfl, Or.inl rfl⟩

theorem Ident.still (ident : Ident inp b p.record) (still : Still p p') :
    Ident inp b p'.record where
  hash := still.hash.trans ident.hash
  target := by
    rw [still.target]
    exact ident.target
  rejected := by
    rcases still.rejected with same | rejects
    · rw [same]
      exact ident.rejected
    · exact Or.inr (rejects.trans ident.hash)

theorem Tick.still (tick : Tick plan inp b p.record) (still : Still p p') :
    Tick plan inp b p'.record := by
  cases tick with
  | holds step clock =>
    refine .holds (still.step.trans step) fun atLast full => ?_
    rw [still.entered]
    rcases still.weight with same | zero
    · exact clock atLast (same ▸ full)
    · omega
  | advances before step entered =>
    exact .advances before (still.step.trans step) (still.entered.trans entered)
  | completes last atLast isLast step weight capacity drained =>
    exact .completes last atLast isLast (still.step.trans step) weight capacity drained

theorem Fair.same (fair : Fair shown b opened p.record p.opened)
    (promoted : p'.record.promotedThrough = p.record.promotedThrough)
    (count : p'.opened = p.opened) : Fair shown b opened p'.record p'.opened := by
  obtain ⟨idle, once⟩ := fair
  refine ⟨fun named => ?_, fun named => ?_⟩
  · rw [count]
    exact idle named
  · rw [count, promoted]
    exact once named

theorem Moves.still (moves : Moves plan inp start b p) (still : Still p p') :
    Moves plan inp start b p' where
  base := moves.base
  ident := moves.ident.still still
  tick := moves.tick.still still
  fair := moves.fair.same still.promoted still.opened
  waits := by
    intro held same
    rw [still.opened] at same
    obtain ⟨holds, weight⟩ := moves.waits held same
    refine ⟨still.hold.trans holds, ?_⟩
    rcases still.weight with keeps | zero
    · rw [keeps]
      exact weight
    · exact Or.inr zero

theorem Moves.leaves (moves : Moves plan inp start b p) (result : Result) :
    Exits plan inp start (some ⟨result, p.whole⟩) := by
  rintro _ ⟨⟩
  exact .moved b moves

theorem Tick.same {c : CanaryStatus} (step : c.currentStep = b.currentStep)
    (entered : c.stepEnteredTime = b.stepEnteredTime)
    (weight : c.observedTrafficWeight = b.observedTrafficWeight) : Tick plan inp b c :=
  .holds step fun _ full => Or.inl ⟨weight ▸ full, entered⟩

theorem Goes.moves (goes : Goes inp start b p) : Moves plan inp start b p where
  base := .opens goes.opening
  ident := goes.ident
  tick := .same goes.step goes.entered goes.weight
  fair := ⟨fun _ _ => goes.opened, fun _ _ => Or.inl ⟨goes.opened, fun _ recorded =>
    goes.promoted.trans recorded⟩⟩
  waits := fun held _ => ⟨goes.hold.trans held, Or.inl goes.weight⟩

theorem Goes.kept (goes : Goes inp start b p) (kept : Kept p p') : Goes inp start b p' where
  opening := goes.opening
  ident := goes.ident.still kept.still
  step := kept.step.trans goes.step
  entered := kept.entered.trans goes.entered
  weight := kept.weight.trans goes.weight
  promoted := kept.promoted.trans goes.promoted
  rejected := kept.rejected.trans goes.rejected
  hold := kept.hold.trans goes.hold
  promotes := by
    rw [kept.annotations]
    exact goes.promotes
  opened := kept.opened.trans goes.opened

theorem Going.exit (going : Going inp start p) (still : Still p p') (result : Result) :
    Exits plan inp start (some ⟨result, p'.whole⟩) := by
  obtain ⟨b, goes⟩ := going
  exact (goes.moves.still still).leaves result

/-- The pass that starts again starts from a fresh record. -/
theorem Goes.rearm {rule : RearmRule} (goes : Goes inp start b p)
    (rearms : shouldRearm inp p.record (targetChanged inp start.record) rule = true)
    (reads : rule.excludeCurrent = true ∨
      rule.excludeRejected = true ∧ p.record.rolledBackRevisionHash ≠ "") :
    Going inp start (resetCanaryStatus inp inp.canaryRevisionHash p) := by
  -- the observed target is new, or the record was fresh already
  have new : ∀ found, start.record = some found → Retargets inp found := by
    intro found isFound
    unfold shouldRearm at rearms
    rw [if_neg (by intro none; rw [if_pos none] at rearms; cases rearms)] at rearms
    rw [isFound] at rearms
    by_cases changed : targetChanged inp (some found) = true ∧
        (p.record.rolledBackRevisionHash = "" ∨ inp.unitRetargeted = true)
    · exact Or.inl changed.1
    · rw [if_neg changed] at rearms
      have opening := goes.opening
      rw [isFound] at opening
      cases opening with
      | fresh stable new => exact new found rfl
      | kept same =>
        obtain rfl := Option.some.inj same
        rcases reads with current | ⟨rejected, there⟩
        · refine Or.inr (Or.inl fun same => ?_)
          rw [if_pos ⟨current, same.trans goes.ident.hash.symm⟩] at rearms
          cases rearms
        · refine Or.inr (Or.inr ⟨goes.rejected ▸ there, fun same => ?_⟩)
          rw [← goes.rejected] at same
          split at rearms
          · cases rearms
          · rw [if_pos ⟨rejected, same⟩] at rearms
            cases rearms
  exact ⟨_, .fresh p.record.stableRevisionHash new, Ident.refl inp _, rfl, rfl, rfl, rfl, rfl,
    rfl, goes.promotes, goes.opened⟩

/-! ## The stages before the step machine -/

/-- A canary that is over has its record removed; no run drives it then. -/
theorem endCanary_exits (p : Armed) (unpinned : inp.runActive = false)
    (opened : p.opened = start.opened) : Exits plan inp start (some (endCanary inp p)) := by
  rintro _ ⟨⟩
  refine .clear rfl ?_ (Or.inr unpinned)
  unfold endCanary
  simp only
  split <;> exact opened

theorem runActive_of_targetReverted {cs : CanaryStatus} (reverted : targetReverted inp cs = true) :
    inp.runActive = false := by
  unfold targetReverted at reverted
  split at reverted
  · cases reverted
  · rename_i unpinned
    exact Bool.not_eq_true _ ▸ unpinned

/-- What the resume leaves to the holds: the record bound to the run. -/
structure Adopted (inp : ReconcileInputs) (start p : Pass (Option CanaryStatus)) : Prop where
  record : p.record = start.record.map (adoptRecord inp)
  promotes : SamePromotes start.annotations p.annotations
  opened : p.opened = start.opened

theorem Adopted.take {p : Pass (Option CanaryStatus)} (adopted : Adopted inp start p) {verb : Verb}
    (other : verb ∉ promoteKeys) : Adopted inp start (p.take verb) :=
  ⟨adopted.record, adopted.promotes.trans (samePromotes_erase _ other), adopted.opened⟩

/-- Binding a record to the run sets the target and the stable revision at most. -/
theorem adoptRecord_binds (inp : ReconcileInputs) (cs : CanaryStatus) : ∃ target stable,
    adoptRecord inp cs = { cs with targetID := target, stableRevisionHash := stable } ∧
      (target = cs.targetID ∨ cs.targetID = "" ∧ target = inp.targetID) := by
  unfold adoptRecord
  simp only
  by_cases binds : cs.targetID = "" ∧ inp.targetID ≠ ""
  · simp only [if_pos binds]
    split <;> exact ⟨_, _, rfl, Or.inr ⟨binds.1, rfl⟩⟩
  · simp only [if_neg binds]
    split <;> exact ⟨_, _, rfl, Or.inl rfl⟩

theorem handleResume_ends {p : Pass (Option CanaryStatus)} (adopted : Adopted inp start p) :
    Ends (Exits plan inp start) (Adopted inp start) (handleResume inp p) := by
  have spends : Adopted inp start (p.take .resume) := adopted.take (by decide)
  unfold handleResume
  cases asked : inp.resume with
  | none => exact .go adopted
  | some req =>
    simp only
    refine .ite (fun _ => .ite (fun _ => .go adopted) fun _ => .go spends) fun _ => ?_
    cases isFound : p.record with
    | none => exact .go spends
    | some cs =>
      refine .ite (fun _ => .go spends) fun _ => .ite (fun _ => .exit exits_none) fun _ => ?_
      -- the record found carries the hash that was resumed
      obtain ⟨b, isBase, adopts⟩ : ∃ b, start.record = some b ∧ adoptRecord inp b = cs :=
        Option.map_eq_some_iff.mp (adopted.record ▸ isFound)
      have hash : cs.canaryRevisionHash = b.canaryRevisionHash := by
        obtain ⟨target, stable, same, -⟩ := adoptRecord_binds inp b
        rw [← adopts, same]
      have base : Base inp start.record (.start inp.targetID cs.canaryRevisionHash
          cs.stableRevisionHash inp.now) :=
        hash ▸ .resumes cs.stableRevisionHash isBase (by simp [asked])
      have moves : Moves plan inp start _
          ((resetCanaryStatus inp cs.canaryRevisionHash (p.withRecord cs)).take .resume) :=
        ⟨base, Ident.refl inp _, .same rfl rfl rfl, ⟨fun _ _ => adopted.opened,
          fun _ _ => Or.inl ⟨adopted.opened, fun _ recorded => recorded⟩⟩,
          fun held _ => by cases held⟩
      exact .exit (moves.leaves _)

theorem arm_ends {p : Pass (Option CanaryStatus)} (adopted : Adopted inp start p)
    (none : start.record = none) : Ends (Exits plan inp start) (Going inp start) (arm inp p) := by
  have spends : Adopted inp start (ignoreRollback inp Option.none p) := by
    unfold ignoreRollback
    split
    · exact adopted.take (by decide)
    · exact adopted
  have empty : (ignoreRollback inp Option.none p).record = Option.none := by
    rw [spends.record, none]
    rfl
  refine .ite (fun _ => .exit ?_) fun _ => .ite (fun _ => .exit ?_) fun _ => .go ?_
  · rintro _ ⟨⟩
    refine .clear ?_ ?_ (Or.inl none)
    · split <;> exact empty
    · split <;> exact spends.opened
  · rintro _ ⟨⟩
    exact .clear empty spends.opened (Or.inl none)
  · have new : ∀ b, start.record = some b → Retargets inp b := by simp [none]
    exact ⟨_, .fresh inp.stableRevisionHash new, Ident.refl inp _, rfl, rfl, rfl, rfl, rfl, rfl,
      spends.promotes, spends.opened⟩

section Holds

variable (steps : Nat)

theorem bindTarget_ends (going : Going inp start p) : Ends (Exits plan inp start)
    (Going inp start) (bindTarget steps inp (targetChanged inp start.record) p) := by
  refine .ite (fun _ => ?_) fun _ => .go going
  obtain ⟨b, goes⟩ := going
  have goes := goes.kept (kept_backfillStable inp p)
  exact .ite (fun rearms => .go (goes.rearm rearms (Or.inl rfl))) fun _ =>
    .ite (fun reverted => .exit (endCanary_exits _ (runActive_of_targetReverted reverted)
      goes.opened)) fun _ => .go ⟨b, goes⟩

theorem holdRollback_ends (going : Going inp start p) : Ends (Exits plan inp start)
    (Going inp start) (holdRollback steps inp (targetChanged inp start.record) p) := by
  have rejects : Still p
      { p with
        record.rolledBackRevisionHash := p.record.canaryRevisionHash
        record.rollbackRequested := true
        record.failed := none } :=
    ⟨⟨rfl⟩, Or.inl rfl, Or.inr rfl⟩
  refine .ite (fun rejected => .ite (fun rearms => ?_) fun _ => .ite (fun _ => ?_) fun _ =>
    .go going) fun _ => .ite (fun _ => ?_) fun _ => .go going
  · obtain ⟨b, goes⟩ := going
    exact .ite (fun _ => .exit exits_none) fun _ => .go (goes.rearm rearms (Or.inr ⟨rfl, rejected⟩))
  · exact .exit (going.exit ((still_ignoreForce p).trans (still_reconcileRollback inp _)) _)
  · exact .exit (going.exit (rejects.trans (still_reconcileRollback inp _)) _)

theorem holdFailed_ends (going : Going inp start p) : Ends (Exits plan inp start)
    (Going inp start) (holdFailed steps inp (targetChanged inp start.record) p) := by
  refine .ite (fun _ => .ite (fun rearms => ?_) fun _ => .ite (fun reverted => ?_) fun _ => ?_)
    fun _ => .go going
  · obtain ⟨b, goes⟩ := going
    exact .go (goes.rearm rearms (Or.inl rfl))
  · obtain ⟨b, goes⟩ := going
    exact .exit (endCanary_exits _ (runActive_of_targetReverted reverted) goes.opened)
  · exact .exit (going.exit ((kept_setPhase p .failed).still.trans
      ((still_refuseRollback inp _).trans (still_ignoreForce _))) _)

end Holds

/-! ## The step machine -/

/-- Converging the promotes with the annotations comes before every gate. -/
theorem Goes.synced (goes : Goes inp start b p) (synced : Synced p p') :
    Steps inp start b p' := by
  obtain ⟨record, opened, promoted, fewer⟩ := synced
  obtain ⟨r, phase, traffic, annotations, taken, count⟩ := p'
  generalize through : r.promotedThrough = value at record promoted
  obtain rfl : r = p.record.promotedBy value := record
  obtain rfl : count = p.opened := opened
  refine ⟨⟨.opens goes.opening, { goes.ident with }, goes.step, goes.opened.ge, fun _ => ?_⟩,
    goes.entered, goes.weight, Or.inl goes.hold⟩
  refine .unspent goes.opened ?_ fun key isKey present => ?_
  · rw [← goes.promoted, ← goes.promotes.carries]
    exact promoted
  · obtain ⟨isThere, value, untaken⟩ := fewer key isKey present
    obtain ⟨same, value'⟩ := goes.promotes key isKey
    rw [value', goes.promoted] at untaken
    exact ⟨same.mp isThere, value.trans value', untaken⟩

theorem Due.kept (due : Due shown b opened p) (kept : Kept p p') : Due shown b opened p' := by
  cases due with
  | unspent same promoted fewer =>
    refine .unspent (kept.opened.trans same) ?_ ?_
    · rw [kept.promoted]
      exact promoted
    · rw [kept.annotations]
      exact fewer
  | spent counted unrecorded carried promoted fewer =>
    refine .spent (kept.opened.trans counted) unrecorded carried (kept.promoted.trans promoted)
      ?_
    rw [kept.annotations]
    exact fewer

theorem Gated.kept (gated : Gated inp start b p) (kept : Kept p p') : Gated inp start b p' where
  base := gated.base
  ident := gated.ident.still kept.still
  step := kept.step.trans gated.step
  more := gated.more.trans kept.opened.ge
  due := fun named => (gated.due named).kept kept

theorem Steps.kept (steps : Steps inp start b p) (kept : Kept p p') : Steps inp start b p' where
  toGated := steps.toGated.kept kept
  entered := kept.entered.trans steps.entered
  weight := kept.weight.trans steps.weight
  hold := by
    rw [kept.hold, kept.opened]
    exact steps.hold

theorem Freed.kept (freed : Freed inp start b p) (kept : Kept p p') : Freed inp start b p' where
  toGated := freed.toGated.kept kept
  free := by
    rw [kept.opened]
    exact freed.free

/-- A pass that ends before it records a promote has recorded what it spent. -/
theorem Due.fair (due : Due shown b opened p) : Fair shown b opened p.record p.opened := by
  cases due with
  | unspent same promoted fewer =>
    refine ⟨fun _ _ => same, fun _ carried => Or.inl ⟨same, fun _ recorded => ?_⟩⟩
    rcases promoted with keeps | uncarried
    · exact keeps.trans recorded
    · exact absurd (recorded ▸ carried) uncarried
  | spent counted unrecorded carried promoted fewer =>
    exact ⟨fun _ uncarried => absurd carried uncarried, fun _ _ =>
      Or.inr ⟨counted, unrecorded, fun _ => promoted⟩⟩

/-- Counting a gate changes nothing that is recorded. -/
theorem countOpened_same (p : Armed) : (countOpened p).record = p.record ∧
    (countOpened p).annotations = p.annotations ∧
    (countOpened p).opened = if shouldAdvanceManual p then p.opened + 1 else p.opened := by
  unfold countOpened
  split <;> exact ⟨rfl, rfl, rfl⟩

/-- **A gate that a promote opens is opened for a promote that was not recorded, and it is
recorded.** -/
theorem Due.recorded (due : Due shown b opened p)
    (hash : p.record.canaryRevisionHash = b.canaryRevisionHash)
    (named : b.canaryRevisionHash ≠ "") :
    Fair shown b opened (recordPromotes (countOpened p)).record
      (recordPromotes (countOpened p)).opened := by
  have manual := shouldAdvanceManual_iff p
  rw [hash] at manual
  have counted := countOpened_same p
  obtain ⟨_, opened', live, none⟩ := recorded_recordPromotes (countOpened p)
  rw [counted.1, counted.2.1, hash] at live
  rw [counted.1, counted.2.1] at none
  rw [counted.2.2] at opened'
  cases due with
  | unspent same promoted fewer =>
    have shows : Carries p.annotations b.canaryRevisionHash →
        Carries shown b.canaryRevisionHash := by
      rintro ⟨key, isKey, present, reads⟩
      obtain ⟨isThere, value, _⟩ := fewer key isKey present
      exact ⟨key, isKey, isThere, value ▸ reads⟩
    have keeps : Carries shown b.canaryRevisionHash →
        b.promotedThrough = b.canaryRevisionHash →
        p.record.promotedThrough = b.canaryRevisionHash := by
      intro carried recorded
      rcases promoted with keeps | uncarried
      · exact keeps.trans recorded
      · exact absurd (recorded ▸ carried) uncarried
    by_cases advances : shouldAdvanceManual p = true
    · obtain ⟨carries, fresh⟩ := manual.mp advances
      rw [if_pos advances, same] at opened'
      exact ⟨fun _ uncarried => absurd (shows carries) uncarried, fun _ carried =>
        Or.inr ⟨opened', fun recorded => fresh (keeps carried recorded).symm, fun _ =>
          live carries⟩⟩
    · rw [if_neg advances, same] at opened'
      refine ⟨fun _ _ => opened', fun _ carried => Or.inl ⟨opened', fun unmixed recorded => ?_⟩⟩
      -- every key that carries the recorded promote was taken before, so none is left
      have gone : ∀ key ∈ promoteKeys, key ∉ p.annotations.keys := by
        intro key isKey present
        obtain ⟨isThere, _, untaken⟩ := fewer key isKey present
        rcases untaken with blank | other
        · exact named (recorded.symm.trans blank)
        · exact other ((unmixed key isKey isThere).trans recorded.symm)
      exact (none gone).trans (keeps carried recorded)
  | spent counted' unrecorded carried promoted fewer =>
    have still : ¬ shouldAdvanceManual p = true := by
      intro advances
      exact (manual.mp advances).2 promoted.symm
    rw [if_neg still, counted'] at opened'
    refine ⟨fun _ uncarried => absurd carried uncarried, fun _ _ =>
      Or.inr ⟨opened', unrecorded, fun unmixed => ?_⟩⟩
    have gone : ∀ key ∈ promoteKeys, key ∉ p.annotations.keys := by
      intro key isKey present
      obtain ⟨isThere, _, other⟩ := fewer key isKey present
      exact other (unmixed key isKey isThere)
    exact (none gone).trans promoted

theorem Gated.moves (gated : Gated inp start b p) (tick : Tick plan inp b p.record)
    (waits : Waits b start.opened p.record p.opened) : Moves plan inp start b p where
  base := gated.base
  ident := gated.ident
  tick := tick
  fair := ⟨fun named => (gated.due named).fair.idle named,
    fun named => (gated.due named).fair.once named⟩
  waits := waits

theorem Steps.moves (steps : Steps inp start b p) : Moves plan inp start b p := by
  refine steps.toGated.moves (.same steps.step steps.entered steps.weight) fun held same => ?_
  rcases steps.hold with keeps | released
  · exact ⟨keeps.trans held, Or.inl steps.weight⟩
  · omega

/-- Where nothing holds the step, a pass that opened no gate had no hold to keep. -/
theorem Freed.waits (freed : Freed inp start b p) {q : Armed} (more : p.opened ≤ q.opened) :
    Waits b start.opened q.record q.opened := by
  intro held same
  have released := freed.free held
  omega

theorem Steps.exit (steps : Steps inp start b p) (still : Still p p') (result : Result) :
    Exits plan inp start (some ⟨result, p'.whole⟩) :=
  (steps.moves.still still).leaves result

theorem holdDone_ends (steps : Nat) (going : Going inp start p) : Ends (Exits plan inp start)
    (Going inp start) (holdDone steps inp (targetChanged inp start.record) p) := by
  obtain ⟨b, goes⟩ := going
  refine .ite (fun _ => .ite (fun rearms => ?_) fun _ => ?_) fun _ => .go ⟨b, goes⟩
  · exact .go (goes.rearm rearms (Or.inl rfl))
  · have done := goes.synced (synced_syncPromotedThrough p)
    exact .exit (done.exit ((still_ignoreRollback inp _ _).trans (still_finishCutover inp _)) _)

theorem holdRunLost_ends (going : Going inp start p) :
    Ends (Exits plan inp start) (Going inp start) (holdRunLost plan inp p) := by
  refine .ite (fun _ => ?_) fun _ => .go going
  split
  · exact .exit exits_none
  · exact .exit (going.exit (Kept.refl p).still _)

theorem applyHolds_ends {p : Pass (Option CanaryStatus)} (adopted : Adopted inp start p) :
    Ends (Exits plan inp start) (Going inp start)
      (applyHolds plan inp (targetChanged inp start.record) p) := by
  unfold applyHolds
  cases isFound : p.record with
  | none =>
    have empty : start.record = none := by
      rw [adopted.record, Option.map_eq_none_iff] at isFound
      exact isFound
    exact arm_ends adopted empty
  | some cs =>
    obtain ⟨b, isBase, adopts⟩ : ∃ b, start.record = some b ∧ adoptRecord inp b = cs :=
      Option.map_eq_some_iff.mp (adopted.record ▸ isFound)
    obtain ⟨target, stable, rfl, bound⟩ := adopts ▸ adoptRecord_binds inp b
    have goes : Goes inp start b
        (p.withRecord { b with targetID := target, stableRevisionHash := stable }) :=
      ⟨.kept isBase, ⟨rfl, bound, Or.inl rfl⟩, rfl, rfl, rfl, rfl, rfl, rfl, adopted.promotes,
        adopted.opened⟩
    refine (bindTarget_ends _ ⟨b, goes.kept (kept_releaseRequest inp _)⟩).bind fun p going => ?_
    refine (holdRollback_ends _ going).bind fun p going => ?_
    refine (holdFailed_ends _ going).bind fun p going => ?_
    refine (holdDone_ends _ going).bind fun p going => ?_
    exact holdRunLost_ends going

section Gates

variable {onExit : Option Ended → Prop} (step : RolloutGroupStep)

variable (exits : ∀ result p', Still p p' → onExit (some ⟨result, p'.whole⟩))
include exits

/-- The capacity gate leaves the record where it is, whichever way the pass goes. -/
theorem capacityGate_ends : Ends onExit (Kept p) (capacityGate plan inp step p) := by
  have clocked := kept_capacityClock inp p (capacityShort inp step) (forceRequested p)
  unfold capacityGate
  simp only
  generalize capacityClock inp (capacityShort inp step) (forceRequested p) p = q at clocked ⊢
  refine .ite (fun _ => ?_) fun _ => .ite (fun _ => .go ?_) fun _ => .go clocked
  · -- short of Instances: the traffic is held, unless the step drains
    have held : Kept p (if stateOfRecord p.record p.phase plan.steps.length ≠ .draining then
        holdGroupTraffic inp q else q) := by
      split
      · exact clocked.trans (kept_holdGroupTraffic inp q)
      · exact clocked
    revert held
    generalize (if stateOfRecord p.record p.phase plan.steps.length ≠ .draining then
      holdGroupTraffic inp q else q : Armed) = r
    intro held
    refine .ite (fun _ => .exit (exits _ _ ?_)) fun _ => .ite (fun _ => .go held) fun _ =>
      .ite (fun _ => .ite (fun _ => ?_) fun _ => .exit (exits _ _ held.still)) fun _ =>
        .exit (exits _ _ (held.trans (kept_setPhase r _)).still)
    · split
      · exact held.still.trans
          ((still_returnTrafficToStable inp r).trans (still_parkFailed inp _ _))
      · exact held.still.trans (still_parkFailed inp r _)
    · have evaluated := held.trans (kept_evaluateStep plan inp step r)
      exact .ite (fun _ => .exit (exits _ _ (evaluated.still.trans
        (still_rollBackOnGateFailure inp _)))) fun _ => .exit (exits _ _ evaluated.still)
  · exact clocked.trans ⟨⟨rfl⟩, rfl, rfl, rfl⟩

theorem stepGate_ends : Ends onExit (Kept p) (stepGate plan inp step p) := by
  have evaluated := kept_evaluateStep plan inp step p
  refine .ite (fun _ => ?_) fun _ => .go (Kept.refl p)
  generalize evaluateStep plan inp step p = gate at evaluated ⊢
  obtain ⟨decision, q⟩ := gate
  cases decision with
  | rollback =>
    exact .exit (exits _ _ (evaluated.still.trans (still_rollBackOnGateFailure inp q)))
  | failed => exact .exit (exits _ _ (evaluated.still.trans (still_parkFailed inp q _)))
  | hold => exact .exit (exits _ _ (evaluated.trans (kept_setPhase q _)).still)
  | advance => exact .go evaluated

end Gates

/-- A hold is released by a promote that was not recorded; all that carry the hash are spent. -/
theorem Steps.released (steps : Steps inp start b p) (released : Released p p') :
    Steps inp start b { p' with opened := p'.opened + 1 } := by
  obtain ⟨record, opened, ⟨key, isKey, reads⟩, left⟩ := released
  obtain ⟨r, phase, traffic, annotations, taken, count⟩ := p'
  obtain rfl : r = p.record.released := record
  obtain rfl : count = p.opened := opened
  refine ⟨⟨steps.base, { steps.ident with }, steps.step, Nat.le_succ_of_le steps.more,
    fun named => ?_⟩, steps.entered, steps.weight, Or.inr (Nat.lt_succ_of_le steps.more)⟩
  have hash := steps.ident.hash
  rw [hash] at reads
  have present : key ∈ p.annotations.keys := by
    by_contra absent
    rw [p.annotations.get_absent key absent] at reads
    exact named reads.symm
  cases steps.due named with
  | unspent same promoted fewer =>
    -- the keys of a recorded promote were taken when the record was converged
    obtain ⟨isThere, value, untaken⟩ := fewer key isKey present
    have shows : start.annotations.get key = b.canaryRevisionHash := value ▸ reads
    have unrecorded : b.promotedThrough ≠ b.canaryRevisionHash := by
      intro recorded
      rcases untaken with blank | other
      · exact named (recorded.symm.trans blank)
      · exact other (shows.trans recorded.symm)
    refine .spent (congrArg (· + 1) same) unrecorded ⟨key, isKey, isThere, shows⟩ hash
      fun other isOther here => ?_
    obtain ⟨here, value', spent⟩ := left other isOther here
    obtain ⟨isThere', value'', _⟩ := fewer other isOther here
    rw [value'', hash] at spent
    exact ⟨isThere', value'.trans value'', spent⟩
  | spent counted unrecorded carried promoted fewer =>
    obtain ⟨_, value, other⟩ := fewer key isKey present
    exact absurd (value ▸ reads) other

theorem preStepGate_ends (step : RolloutGroupStep) (steps : Steps inp start b p) :
    Ends (Exits plan inp start) (fun q => Steps inp start b q ∧ Freed inp start b q)
      (preStepGate inp step p) := by
  refine .ite (fun _ => ?_) fun unheld => .go ⟨steps, steps.toGated, fun held => ?_⟩
  rcases releaseHold_cases p with ⟨opens, released⟩ | same
  · generalize releaseHold p = work at opens released ⊢
    obtain ⟨q, flag⟩ := work
    simp only at opens released ⊢
    rw [opens, if_pos rfl]
    have steps' := steps.released released
    refine .go ⟨steps', steps'.toGated, fun _ => ?_⟩
    show start.opened < q.opened + 1
    rw [released.opened]
    exact Nat.lt_succ_of_le steps.more
  · rw [same]
    simp only [Bool.false_eq_true, if_false]
    exact .exit (steps.exit ((kept_holdGroupTraffic inp p).trans (kept_setPhase _ _)).still _)
  · rcases steps.hold with keeps | released
    · exact absurd (keeps.trans held) unheld
    · exact released

/-- Moving the traffic and the clock of the step leaves the promotes alone. -/
theorem Freed.retimed (freed : Freed inp start b p) (weight : Int) (entered : Option Int)
    (traffic : List TrafficTarget) (phase : RolloutPhase) :
    Freed inp start b
      { p with
        record.observedTrafficWeight := weight
        record.stepEnteredTime := entered
        traffic := traffic
        phase := phase } where
  base := freed.base
  ident := { freed.ident with }
  step := freed.step
  more := freed.more
  free := freed.free
  due := by
    intro named
    cases freed.due named with
    | unspent same promoted fewer => exact .unspent same promoted fewer
    | spent counted unrecorded carried promoted fewer =>
      exact .spent counted unrecorded carried promoted fewer

/-- The end of a step: the promote that stands is recorded, and nothing held the step. -/
structure Taken (inp : ReconcileInputs) (start : Pass (Option CanaryStatus)) (b : CanaryStatus)
    (p : Armed) : Prop where
  base : Base inp start.record b
  ident : Ident inp b p.record
  step : p.record.currentStep = b.currentStep
  fair : Fair start.annotations b start.opened p.record p.opened
  free : b.preStepHold = true → start.opened < p.opened

theorem Freed.taken (freed : Freed inp start b p) :
    Taken inp start b (recordPromotes (countOpened p)) := by
  have counted := countOpened_same p
  have recorded := recorded_recordPromotes (countOpened p)
  have record := recorded.record
  rw [counted.1] at record
  have fair (named : b.canaryRevisionHash ≠ "") :=
    (freed.due named).recorded freed.ident.hash named
  refine ⟨freed.base, ?_, ?_, ⟨fun named => (fair named).idle named,
    fun named => (fair named).once named⟩, fun held => ?_⟩
  · rw [record]
    exact { freed.ident with }
  · rw [record]
    exact freed.step
  · have released := freed.free held
    rw [recorded.opened, counted.2.2]
    split <;> omega

/-- The step moves, and what was recorded stays. -/
theorem Taken.moves (taken : Taken inp start b p) (ident : Ident inp b p'.record)
    (promoted : p'.record.promotedThrough = p.record.promotedThrough)
    (opened : p'.opened = p.opened) (tick : Tick plan inp b p'.record) :
    Moves plan inp start b p' where
  base := taken.base
  ident := ident
  tick := tick
  fair := taken.fair.same promoted opened
  waits := by
    intro held same
    have released := taken.free held
    omega

/-- The clock of the step restarts under a condition, and else runs on. -/
theorem restamps (now : Int) (p : Armed) (fresh : Prop) [Decidable fresh] : ∃ entered,
    (if fresh then { p with record.stepEnteredTime := some now } else p : Armed) =
      { p with record.stepEnteredTime := entered } ∧
    (fresh ∧ entered = some now ∨ ¬ fresh ∧ entered = p.record.stepEnteredTime) := by
  by_cases restarts : fresh
  · exact ⟨_, if_pos restarts, Or.inl ⟨restarts, rfl⟩⟩
  · exact ⟨_, if_neg restarts, Or.inr ⟨restarts, rfl⟩⟩

theorem intermediateStep_ends (step : RolloutGroupStep) (freed : Freed inp start b p)
    (before : b.currentStep + 1 < plan.steps.length) :
    Ends (Exits plan inp start) (fun ended => Leaves plan inp start ended.pass)
      (intermediateStep plan inp step p) := by
  obtain ⟨entered, enters, -⟩ := restamps inp.now p (p.phase ≠ .canarying ∧ p.phase ≠ .paused)
  unfold intermediateStep
  simp only [enters]
  have freed := freed.retimed p.record.observedTrafficWeight entered p.traffic .canarying
  refine (stepGate_ends step fun result p' still => ?_).bind fun q kept => .go ?_
  · have tick : Tick plan inp b _ := .holds freed.step fun atLast => by omega
    exact ((freed.moves tick (freed.waits le_rfl)).still still).leaves result
  · have taken := (freed.kept kept).taken
    refine .moved b (p := advanceStep inp q) ?_
    unfold advanceStep
    generalize recordPromotes (countOpened q) = r at taken ⊢
    exact taken.moves { taken.ident with } rfl rfl
      (.advances before (congrArg (· + 1) taken.step) rfl)

theorem finalStep_ends (step : RolloutGroupStep) (freed : Freed inp start b p)
    (entered : p.record.stepEnteredTime = b.stepEnteredTime)
    (atLast : b.currentStep + 1 = plan.steps.length)
    (isLast : plan.steps[b.currentStep.toNat]? = some step) :
    Ends (Exits plan inp start) (fun ended => Leaves plan inp start ended.pass)
      (finalStep plan inp step b.observedTrafficWeight p) := by
  -- the clock restarts when the traffic reaches its end in this pass
  obtain ⟨entered', enters, runs⟩ := restamps inp.now p (b.observedTrafficWeight ≠ 100)
  rw [not_not, entered] at runs
  unfold finalStep
  simp only [enters]
  have freed := freed.retimed p.record.observedTrafficWeight entered' p.traffic .promoting
  have tick : Tick plan inp b _ := .holds freed.step fun _ _ => runs.symm.imp_right And.right
  have moves := freed.moves tick (freed.waits le_rfl)
  refine (stepGate_ends step fun result p' still => (moves.still still).leaves result).bind
    fun q kept => .ite (fun _ => .exit ((moves.still kept.still).leaves _)) fun passes => .go ?_
  simp only [not_or, not_not, Bool.not_eq_true, Bool.not_eq_false] at passes
  obtain ⟨full, capacity, drained⟩ := passes
  have same : q.record.stepEnteredTime = b.stepEnteredTime :=
    kept.entered.trans (runs.resolve_left fun short => short.1 full).2
  have elapsed : drainElapsed b plan inp.now = true := by
    unfold drainElapsed at drained ⊢
    rwa [same] at drained
  have taken := (freed.kept kept).taken
  generalize recordPromotes (countOpened q) = r at taken ⊢
  have cutover : Moves plan inp start b
      (applyCutoverTraffic inp { r with record.currentStep := plan.steps.length }) :=
    taken.moves { taken.ident with } rfl rfl
      (.completes step atLast isLast rfl full capacity elapsed)
  exact .moved b (cutover.still (still_finishCutover inp _))

theorem stepMachine_ends (going : Going inp start p) : Ends (Exits plan inp start)
    (fun ended => Leaves plan inp start ended.pass) (stepMachine plan inp p) := by
  obtain ⟨b, goes⟩ := going
  have goes := goes.kept (kept_backfillStable inp p)
  refine .ite (fun _ => .exit ?_) fun _ => ?_
  · exact Going.exit ⟨b, goes⟩ ((still_returnTrafficToStable inp _).trans
      (still_parkFailed inp _ _)) _
  · have steps := goes.synced (synced_syncPromotedThrough (backfillStable inp p))
    generalize syncPromotedThrough (backfillStable inp p) = q at steps ⊢
    simp only
    cases isStep : plan.steps[q.record.currentStep.toNat]? with
    | none => exact .exit exits_none
    | some step =>
      refine (capacityGate_ends step fun result p' still => steps.exit still result).bind
        fun q' kept => ?_
      refine (preStepGate_ends step (steps.kept kept)).bind fun r going => ?_
      obtain ⟨steps', freed⟩ := going
      have freed := freed.retimed step.traffic r.record.stepEnteredTime
        (splitTraffic inp step.traffic r).traffic r.phase
      rw [steps.step] at isStep
      have inside : b.currentStep.toNat < plan.steps.length :=
        (List.getElem?_eq_some_iff.mp isStep).1
      rw [steps'.weight]
      refine .ite (fun atLast => ?_) fun early => ?_
      · have atLast : r.record.currentStep = (plan.steps.length : Int) - 1 := atLast
        rw [steps'.step] at atLast
        exact finalStep_ends step freed steps'.entered (by omega) isStep
      · have early : ¬ r.record.currentStep = (plan.steps.length : Int) - 1 := early
        rw [steps'.step] at early
        exact intermediateStep_ends step freed (by omega)

/-! ## The pass -/

theorem repairStep_eq (plan : GroupCanary) {p : Pass (Option CanaryStatus)}
    (inside : ∀ cs, p.record = some cs → 0 ≤ cs.currentStep) : repairStep plan p = p := by
  obtain ⟨record, phase, traffic, annotations, taken, opened⟩ := p
  cases record with
  | none => rfl
  | some cs =>
    unfold repairStep
    simp only [Option.map_some]
    rw [if_neg (not_lt.mpr (inside cs rfl))]

theorem leaves_same {p : Pass (Option CanaryStatus)} (record : p.record = start.record)
    (opened : p.opened = start.opened) : Leaves plan inp start p := by
  obtain ⟨r, phase, traffic, annotations, taken, count⟩ := p
  cases r with
  | none => exact .clear rfl opened (Or.inl record.symm)
  | some cs =>
    have moves : Moves plan inp start cs ⟨cs, phase, traffic, annotations, taken, count⟩ :=
      ⟨.opens (.kept record.symm), Ident.refl inp cs, .same rfl rfl rfl, ⟨fun _ _ => opened,
        fun _ _ => Or.inl ⟨opened, fun _ recorded => recorded⟩⟩,
        fun held _ => ⟨held, Or.inl rfl⟩⟩
    exact .moved cs moves

theorem pausedPass_leaves (p : Pass (Option CanaryStatus)) :
    Leaves plan inp p (pausedPass plan p) := by
  unfold pausedPass
  cases isFound : p.record with
  | none => exact leaves_same rfl rfl
  | some cs =>
    simp only
    split
    · unfold ignoreForce
      split <;> exact leaves_same isFound.symm rfl
    · exact leaves_same rfl rfl

theorem reconcileStages_ends (plan : GroupCanary) (inp : ReconcileInputs)
    {p : Pass (Option CanaryStatus)} (inside : ∀ cs, p.record = some cs → 0 ≤ cs.currentStep) :
    Ends (Exits plan inp p) (fun ended => Leaves plan inp p ended.pass)
      (reconcileStages plan inp p) := by
  unfold reconcileStages
  simp only [repairStep_eq plan inside]
  refine .ite (fun _ => .go (pausedPass_leaves p)) fun _ => ?_
  have adopted : Adopted inp p { p with record := p.record.map (adoptRecord inp) } :=
    ⟨rfl, SamePromotes.refl _, rfl⟩
  refine (handleResume_ends adopted).bind fun q adopted => ?_
  exact (applyHolds_ends adopted).bind fun r going => stepMachine_ends going

theorem parkMissingStable_leaves {ended : Ended} (leaves : Leaves plan inp start ended.pass) :
    Leaves plan inp start (parkMissingStable inp ended).pass := by
  obtain ⟨result, pass⟩ := ended
  cases leaves with
  | clear record opened why =>
    unfold parkMissingStable
    simp only at record
    simp only [record]
    exact .clear record opened why
  | @moved p b moves =>
    show Leaves plan inp start (if _ then _ else _ : Ended).pass
    split
    · exact .moved b (moves.still ((still_parkFailed inp p _).trans
        (still_ignoreRollback inp _ _)))
    · exact .moved b moves

/-- **Every pass leaves one of these.** -/
theorem dispatch_leaves {p : Pass (Option CanaryStatus)} {ended : Ended}
    (inside : ∀ cs, p.record = some cs → 0 ≤ cs.currentStep)
    (passes : dispatch plan inp p = some ended) : Leaves plan inp p ended.pass := by
  obtain ⟨before, runs, rfl⟩ := Option.map_eq_some_iff.mp passes
  refine parkMissingStable_leaves ?_
  unfold reconcile at runs
  split at runs
  · cases runs
    exact leaves_same rfl rfl
  · have ends := reconcileStages_ends plan inp inside
    generalize reconcileStages plan inp p = stages at ends runs
    cases stages with
    | ok ended =>
      cases runs
      exact ends
    | error exit => exact ends before runs

end Ome.Canary
