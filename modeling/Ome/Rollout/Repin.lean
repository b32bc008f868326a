/-
# Ome.Rollout.Repin — what a repin leaves of the canaries under way

A repin replaces the plan of an open run and brings one record into the new ladder: that of
the first canary group of the new plan that has one (`Leads`), read against the ladder of the
first canary group of the old plan.  Every other record stays as it is.

`repin_keeps_iff` says when this keeps a unit where it was: short of its ladder or finished;
and where a unit is held the passes raise its traffic only after a promote.
`repin_finishes_second_unit`: a second unit that is not brought along reads as finished in a
shorter ladder.
-/
import Ome.Canary.Promotes
import Ome.Rollout.Adoption

namespace Ome.Rollout

open Ome.Theory Ome.Canary List Option

set_option autoImplicit false

variable {cs : CanaryStatus} {c : GroupCanary} {s : ServiceStatus}
variable {old : List RolloutGroupStep} {plan : GroupCanary}

/-! ## One record in another ladder -/

theorem stepOf_nonneg (cs : CanaryStatus) (phase : RolloutPhase)
    (steps : List RolloutGroupStep) : 0 ≤ stepOf cs phase steps := by
  have loop : 0 ≤ steps.zipIdx.foldl (fun step entry =>
      if entry.1.traffic ≤ cs.observedTrafficWeight then (entry.2 : Int) else step) 0 := by
    refine foldl_along (fun _ (step : Int) => 0 ≤ step) le_rfl ?_
    intro _ entry _ step _ nonneg
    show 0 ≤ if entry.1.traffic ≤ cs.observedTrafficWeight then (entry.2 : Int) else step
    split
    · exact Int.natCast_nonneg _
    · exact nonneg
  unfold stepOf
  split
  · assumption
  · split
    · exact Int.natCast_nonneg _
    · exact loop

/-- The record reads as finished in a ladder with steps. -/
abbrev Done (cs : CanaryStatus) (phase : RolloutPhase) (steps : List RolloutGroupStep) : Prop :=
  0 < steps.length ∧ (steps.length : Int) ≤ stepOf cs phase steps

/-- What the repin makes of a record. -/
structure Clamped (cs : CanaryStatus) (phase : RolloutPhase) (old : List RolloutGroupStep)
    (c : GroupCanary) (cs' : CanaryStatus) : Prop where
  hash : cs'.canaryRevisionHash = cs.canaryRevisionHash
  weight : cs'.observedTrafficWeight = cs.observedTrafficWeight
  keeps : cs.preStepHold = true → cs'.preStepHold = true
  finished : Done cs phase old → cs'.currentStep = c.steps.length
  inside : ¬ Done cs phase old → 0 ≤ cs'.currentStep ∧
    cs'.currentStep = min (stepOf cs phase old) (c.steps.length - 1)
  held : ¬ Done cs phase old → ∀ step, c.steps[cs'.currentStep.toNat]? = some step →
    cs.observedTrafficWeight < step.traffic → cs'.preStepHold = true

theorem clampRecord_clamped {cs' : CanaryStatus} {phase : RolloutPhase}
    (clamps : clampRecord cs phase old c = some cs') : Clamped cs phase old c cs' := by
  unfold clampRecord at clamps
  simp only at clamps
  by_cases done : Done cs phase old
  · rw [if_pos done] at clamps
    obtain rfl := some.inj clamps
    exact ⟨rfl, rfl, id, fun _ => rfl, fun short => absurd done short,
      fun short => absurd done short⟩
  · rw [if_neg done] at clamps
    generalize isClamped : (if (c.steps.length : Int) ≤ stepOf cs phase old then
      (c.steps.length : Int) - 1 else stepOf cs phase old) = clamped at clamps
    by_cases negative : clamped < 0
    · rw [if_pos negative] at clamps
      cases clamps
    · rw [if_neg negative] at clamps
      cases isEntry : c.steps[clamped.toNat]? with
      | none =>
        rw [isEntry] at clamps
        cases clamps
      | some entry =>
        rw [isEntry] at clamps
        obtain rfl := some.inj clamps
        refine ⟨rfl, rfl, fun held => ?_, fun finished => absurd finished done,
          fun _ => ⟨by simpa using negative, ?_⟩, fun _ other isOther raises => ?_⟩
        · simp [held]
        · show clamped = _
          rw [← isClamped]
          split <;> omega
        · have same : entry = other := some.inj (isEntry.symm.trans isOther)
          show (cs.preStepHold || _) = true
          simp [same, raises]

theorem clampRecord_isSome (cs : CanaryStatus) (phase : RolloutPhase) (old : List RolloutGroupStep)
    (steps : c.steps ≠ []) : (clampRecord cs phase old c).isSome = true := by
  have some' : 0 < c.steps.length := length_pos_iff.mpr steps
  have nonneg := stepOf_nonneg cs phase old
  unfold clampRecord
  generalize stepOf cs phase old = step at nonneg
  simp only
  split
  · rfl
  · generalize isClamped : (if (c.steps.length : Int) ≤ step then (c.steps.length : Int) - 1
      else step) = clamped
    have inside : 0 ≤ clamped ∧ clamped.toNat < c.steps.length := by
      rw [← isClamped]
      split <;> omega
    rw [if_neg (not_lt.mpr inside.1), getElem?_eq_getElem inside.2]
    rfl

theorem stateOfRecord_ne_done {steps : Nat} (below : cs.currentStep < steps)
    (phase : RolloutPhase) : stateOfRecord cs phase steps ≠ .done := by
  have inside : ¬ (0 < steps ∧ (steps : Int) ≤ cs.currentStep) := by omega
  unfold stateOfRecord
  rw [if_neg inside]
  repeat' split
  all_goals simp

/-! ## The record the repin reaches -/

theorem canaryStatusFor_put {unit : Component} (recorded : canaryStatusFor s unit = some cs)
    (cs' : CanaryStatus) : canaryStatusFor (putCanaryFor s unit cs') unit = some cs' := by
  unfold putCanaryFor
  cases own : (s.components (canaryUnit unit)).canary with
  | some there => simp [canaryStatusFor]
  | none =>
    unfold canaryStatusFor at recorded
    rw [own] at recorded
    have shared : hasPerUnitCanary s = false := by
      by_contra perUnit
      rw [Bool.not_eq_false] at perUnit
      simp [perUnit] at recorded
    have same : hasPerUnitCanary { s with canary := some cs' } = false := shared
    simp [canaryStatusFor, own, same]

/-- The record of another unit stays. -/
theorem canaryStatusFor_put_ne {unit other : Component} (apart : canaryUnit other ≠ canaryUnit unit)
    (own : (s.components (canaryUnit unit)).canary = some cs) (cs' : CanaryStatus) :
    canaryStatusFor (putCanaryFor s other cs') unit = some cs := by
  unfold putCanaryFor
  split <;> simp [canaryStatusFor, own, apart.symm]

theorem clampCanary_activeRun {s' : ServiceStatus} :
    ∀ {plan : List RolloutRunGroup}, clampCanary old s plan = some s' →
      s'.activeRun = s.activeRun
  | [], clamps => by
    cases clamps
    rfl
  | entry :: rest, clamps => by
    unfold clampCanary at clamps
    split at clamps
    · split at clamps
      · exact clampCanary_activeRun clamps
      · obtain ⟨cs', _, rfl⟩ := map_eq_some_iff.mp clamps
        unfold putCanaryFor
        split <;> rfl
    · exact clampCanary_activeRun clamps

theorem clampCanary_first {g : RolloutGroup}
    {primary : Component} (body : g.canary = some c)
    (isPrimary : primaryOf g = some primary) (recorded : canaryStatusFor s primary = some cs) :
    ∀ {plan : List RolloutRunGroup},
      (canaryGroups (plan.map (·.group))).find? (fun g => (groupRecord s g).isSome) = some g →
      clampCanary old s plan =
        (clampRecord cs (primaryPhase s g) old c).map (putCanaryFor s primary)
  | [], first => by cases first
  | entry :: rest, first => by
    unfold clampCanary
    cases isCanary : entry.group.canary with
    | none =>
      have skips : canaryGroups ((entry :: rest).map (·.group)) =
          canaryGroups (rest.map (·.group)) := by
        simp [canaryGroups, isCanary]
      rw [skips] at first
      exact clampCanary_first body isPrimary recorded first
    | some c' =>
      have leads : canaryGroups ((entry :: rest).map (·.group)) =
          entry.group :: canaryGroups (rest.map (·.group)) := by
        simp [canaryGroups, isCanary]
      rw [leads, find?_cons] at first
      cases has : groupRecord s entry.group with
      | some found =>
        rw [has] at first
        obtain rfl := some.inj first
        obtain rfl : c' = c := some.inj (isCanary.symm.trans body)
        rw [isPrimary]
        simp only [recorded]
      | none =>
        rw [has] at first
        cases isFirst : primaryOf entry.group with
        | none => exact clampCanary_first body isPrimary recorded first
        | some other =>
          have unrecorded : canaryStatusFor s other = none := by
            simpa [groupRecord, isFirst] using has
          simp only [unrecorded]
          exact clampCanary_first body isPrimary recorded first

/-! ## The composed plan -/

theorem composeRunGroup_steps {env : Digests} {shape : Shape} {policies : Policies}
    {entry : RolloutGroup × Nat} {composed : RolloutRunGroup}
    (composes : composeRunGroup env shape policies entry = .ok composed)
    (body : composed.group.canary = some c) : c.steps ≠ [] := by
  obtain ⟨group, _, rest⟩ := bind_eq_ok.mp composes
  obtain ⟨_, checks, made⟩ := bind_eq_ok.mp rest
  cases made
  unfold checkComposed at checks
  rw [show group.canary = some c from body] at checks
  simp only at checks
  cases valid : validateCanaryPlan (shape.metrics entry.2) c with
  | error e =>
    rw [valid] at checks
    cases checks
  | ok _ => exact (validateCanaryPlan_ok valid).steps

theorem composePlan_steps {env : Digests} {shape : Shape} {groups : List RolloutGroup}
    {policies : Policies} {plan : List RolloutRunGroup}
    (composes : composePlan env shape groups policies = .ok plan) {g : RolloutGroup}
    (isPart : g ∈ plan.map (·.group)) (body : g.canary = some c) :
    c.steps ≠ [] := by
  obtain ⟨entry, isEntry, rfl⟩ := mem_map.mp isPart
  obtain ⟨_, _, made⟩ := exists_of_mem_right (mapM_eq_ok.mp composes) isEntry
  exact composeRunGroup_steps made body

theorem clampCanary_isSome :
    ∀ {plan : List RolloutRunGroup},
      (∀ g ∈ plan.map (·.group), ∀ c, g.canary = some c → c.steps ≠ []) →
      (clampCanary old s plan).isSome = true
  | [], _ => rfl
  | entry :: rest, steps => by
    have later : ∀ g ∈ rest.map (·.group), ∀ c, g.canary = some c → c.steps ≠ [] :=
      fun g isLater => steps g (mem_cons_of_mem _ isLater)
    unfold clampCanary
    cases body : entry.group.canary with
    | none => exact clampCanary_isSome later
    | some c =>
      cases primaryOf entry.group with
      | none => exact clampCanary_isSome later
      | some primary =>
        simp only
        split
        · exact clampCanary_isSome later
        · rw [isSome_map]
          exact clampRecord_isSome _ _ old (steps _ mem_cons_self c body)

theorem handleRepin_isSome (inp : Inputs) (svc : Service) (active : RolloutRun) (want : String) :
    (handleRepin inp svc active want).isSome = true := by
  unfold handleRepin
  simp only
  split
  · rfl
  · rename_i plan composes
    repeat' split
    · rfl
    · rfl
    · rfl
    · rw [isSome_map]
      exact clampCanary_isSome fun g isPart c body => composePlan_steps composes isPart body

/-- **No pass indexes a ladder out of range**, whatever records it finds. -/
theorem reconcile_isSome (inp : Inputs) (svc : Service) : (reconcile inp svc).isSome = true := by
  unfold reconcile activePath
  repeat' split
  · rw [isSome_map]
    exact handleRepin_isSome ..
  all_goals rfl

/-- A repin that leaves a run open has brought a record into its plan. -/
theorem handleRepin_pins {inp : Inputs} {svc svc' : Service} {active run : RolloutRun}
    {want : String} (repins : handleRepin inp svc active want = some (true, svc'))
    (pins : svc'.status.activeRun = some run) :
    clampCanary (pinnedCanarySteps active) { svc.status with activeRun := some run }
      run.groups = some svc'.status := by
  unfold handleRepin at repins
  simp only at repins
  split at repins
  · cases repins
  · split at repins
    · cases repins
    · split at repins
      · cases repins
      · split at repins
        · cases repins
          cases pins
        · obtain ⟨status, clamps, same⟩ := map_eq_some_iff.mp repins
          cases same
          have kept := (clampCanary_activeRun clamps).symm.trans pins
          cases kept
          exact clamps

/-! ## The passes after the repin -/

/-- What the passes observe: the pinned run, one target and no resume. -/
structure Undisturbed (hash targetID : String) (inp : ReconcileInputs) : Prop
    extends OneTarget hash targetID inp where
  noResume : inp.resume = none

/-- A held unit that no promote addresses. -/
structure HeldAt (hash targetID : String) (weight : Int) (w : World) : Prop where
  clean : ¬ Carries w.annotations hash
  held : ∃ c, w.record = some c ∧ Bound hash targetID c ∧ c.preStepHold = true ∧
    c.observedTrafficWeight ≤ weight

/-- A pass over a held unit leaves it held, with no more traffic. -/
theorem HeldAt.land {hash targetID : String} {weight : Int} {w : World}
    {inp : ReconcileInputs} {ended : Ended} (at' : HeldAt hash targetID weight w)
    (named : hash ≠ "") (nonneg : 0 ≤ weight) (quiet : Undisturbed hash targetID inp)
    (passes : dispatch plan inp w.pass = some ended) :
    HeldAt hash targetID weight (w.land plan inp ended) := by
  obtain ⟨clean, c, isRecord, bound, holds, below⟩ := at'
  have found : w.pass.record = some c := isRecord
  have inside : ∀ b, w.pass.record = some b → 0 ≤ b.currentStep := by
    intro b isFound
    rw [found] at isFound
    cases isFound
    exact bound.step
  have bounds : ∀ b, w.pass.record = some b → Bound hash targetID b := by
    intro b isFound
    rw [found] at isFound
    cases isFound
    exact bound
  refine ⟨clean, ?_⟩
  have leaves := dispatch_leaves inside passes
  obtain ⟨result, pass⟩ := ended
  cases leaves with
  | clear _ _ why =>
    rcases why with none | lost
    · rw [found] at none
      cases none
    · rw [quiet.pinned] at lost
      cases lost
  | @moved p b moves =>
    -- no target change and no resume: the pass works on the record it found
    have same : b = c := by
      cases moves.base with
      | opens opening =>
        cases opening with
        | kept isBase => exact some.inj (isBase.symm.trans found)
        | fresh stable new => exact absurd (new c found) (bound.not_retargets quiet.toOneTarget)
      | resumes stable isBase asked => exact absurd quiet.noResume asked
    subst same
    have unopened : p.opened = w.pass.opened :=
      moves.fair.idle (bound.toward ▸ named) (bound.toward ▸ clean)
    obtain ⟨stays, moved⟩ := moves.waits holds unopened
    have bound' := (moves.base.kin bounds quiet.toOneTarget).2.left quiet.toOneTarget moves
    refine ⟨p.record.stored, rfl, bound'.stored, stays, ?_⟩
    show p.record.observedTrafficWeight ≤ weight
    rcases moved with keeps | zero <;> omega

/-- Since a state with so many promotes written: one more was, or the unit is held still. -/
def Waiting (hash targetID : String) (weight : Int) (writes : Nat) (w : World) : Prop :=
  writes < w.writes ∨ w.writes = writes ∧ HeldAt hash targetID weight w

theorem Waiting.move {hash targetID : String} {weight : Int} {writes : Nat}
    (named : hash ≠ "") (nonneg : 0 ≤ weight) (w w' : World)
    (waiting : Waiting hash targetID weight writes w)
    (move : Move plan hash (fun _ inp => Undisturbed hash targetID inp) w w') :
    Waiting hash targetID weight writes w' := by
  rcases waiting with promoted | ⟨same, held⟩
  · refine Or.inl (lt_of_lt_of_le promoted ?_)
    cases move with
    | landed | lost | removed | changed => exact le_rfl
    | wrote key value =>
      show w.writes ≤ if _ ∧ _ then w.writes + 1 else w.writes
      split <;> omega
  · have none := carried_eq_zero held.clean
    cases move with
    | landed _ quiet passes => exact Or.inr ⟨same, held.land named nonneg quiet passes⟩
    | lost | changed => exact Or.inr ⟨same, held.clean, held.held⟩
    | wrote key value =>
      by_cases promotes : key ∈ promoteKeys ∧ value = hash
      · refine Or.inl ?_
        show writes < if _ ∧ _ then w.writes + 1 else w.writes
        rw [if_pos promotes]
        omega
      · refine Or.inr ⟨?_, fun carries => ?_, held.held⟩
        · show (if _ ∧ _ then w.writes + 1 else w.writes) = writes
          rw [if_neg promotes]
          exact same
        · have some' : 0 < carried hash (w.annotations.set key value) := carried_pos carries
          have grows : carried hash (w.annotations.set key value) ≤ _ :=
            carried_set_le w.annotations key value
          rw [if_neg promotes] at grows
          omega
    | removed key =>
      refine Or.inr ⟨same, fun carries => ?_, held.held⟩
      have some' : 0 < carried hash (w.annotations.erase key) := carried_pos carries
      have falls : carried hash (w.annotations.erase key) ≤ _ :=
        carried_erase_le w.annotations key
      omega

/-- No run of passes from a record raises its weight above the given one, unless a promote
that names its revision is there or is written. -/
def RaisesOnlyPromoted (plan : GroupCanary) (cs : CanaryStatus) (weight : Int) : Prop :=
  ∀ (targetID : String) (w₀ w : World), w₀.record = some cs →
    Bound cs.canaryRevisionHash targetID cs → Relation.ReflTransGen
      (Move plan cs.canaryRevisionHash fun _ inp =>
        Undisturbed cs.canaryRevisionHash targetID inp) w₀ w →
    weight < recordedWeight w.record →
    Carries w₀.annotations cs.canaryRevisionHash ∨ w₀.writes < w.writes

theorem raisesOnlyPromoted_of_held
    (named : cs.canaryRevisionHash ≠ "") (nonneg : 0 ≤ cs.observedTrafficWeight)
    (held : cs.preStepHold = true) : RaisesOnlyPromoted plan cs cs.observedTrafficWeight := by
  intro targetID w₀ w isRecord bound run raised
  by_cases clean : Carries w₀.annotations cs.canaryRevisionHash
  · exact Or.inl clean
  · have first : Waiting cs.canaryRevisionHash targetID cs.observedTrafficWeight w₀.writes w₀ :=
      Or.inr ⟨rfl, clean, cs, isRecord, bound, held, le_rfl⟩
    rcases Runs.invariant_of_run (Waiting.move named nonneg) run first with
      promoted | ⟨_, still⟩
    · exact Or.inr promoted
    · obtain ⟨c, isLeft, _, _, below⟩ := still.held
      rw [isLeft] at raised
      exact absurd raised (not_lt.mpr below)

/-! ## The result -/

/-- The unit's group is the first of the new plan's canary groups that has a record: the one
whose record a repin brings along. -/
def Leads (s : ServiceStatus) (new : List RolloutGroup) (primary : Component) : Prop :=
  (canaryGroups new).find? (fun g => (groupRecord s g).isSome) = canaryGroupFor new primary

theorem find?_agree {α : Type} {p q : α → Bool} {a b : α} {l : List α} (isA : l.find? p = some a)
    (isB : l.find? q = some b) (both : q a = true) (both' : p b = true) : a = b := by
  induction l with
  | nil => cases isA
  | cons x rest ih => grind

/-- A unit that does not lead keeps the record of its own. -/
theorem clampCanary_other {s' : ServiceStatus} {plan : List RolloutRunGroup} {primary : Component}
    {g : RolloutGroup} (clamps : clampCanary old s plan = some s')
    (other : ¬ Leads s (plan.map (·.group)) primary)
    (drives : canaryGroupFor (plan.map (·.group)) primary = some g)
    (isPrimary : primaryOf g = some primary)
    (own : (s.components (canaryUnit primary)).canary = some cs) :
    canaryStatusFor s' primary = some cs := by
  have recorded : groupRecord s g = some cs := by
    simp [groupRecord, isPrimary, canaryStatusFor, own]
  have isGroup := mem_of_find?_eq_some drives
  obtain ⟨lead, first⟩ := isSome_iff_exists.mp (find?_isSome
    (p := fun g => (groupRecord s g).isSome).mpr ⟨g, isGroup, by simp [recorded]⟩)
  have has := find?_some first
  obtain ⟨_, isRecord⟩ := isSome_iff_exists.mp has
  obtain ⟨q, isFirst, record⟩ := bind_eq_some_iff.mp isRecord
  obtain ⟨-, body⟩ := mem_filter.mp (mem_of_find?_eq_some first)
  rw [clampCanary_first (some_get body).symm isFirst record first] at clamps
  obtain ⟨cs', -, rfl⟩ := map_eq_some_iff.mp clamps
  refine canaryStatusFor_put_ne (fun same => other ?_) own cs'
  -- a group that drives the unit and has a record is the first of both kinds
  have member : lead.components.any (canaryUnit · = canaryUnit primary) = true :=
    any_eq_true.mpr ⟨q, mem_of_primaryOf isFirst, decide_eq_true same⟩
  rw [Leads, first, drives, find?_agree first drives member (by simp [recorded])]

/-- What a repin owes a unit.  Finished in the old ladder, it is finished in the new one; short
of it, its step is a step of the new one, and it does not read as finished. -/
def Kept (old new : List RolloutGroupStep) (phase : RolloutPhase) (cs cs' : CanaryStatus) : Prop :=
  if (old.length : Int) ≤ stepOf cs phase old then (new.length : Int) ≤ stepOf cs' phase new
  else 0 ≤ cs'.currentStep ∧ cs'.currentStep < new.length ∧
    stateOf (some cs') phase new.length ≠ .done

theorem Clamped.kept_iff {phase : RolloutPhase} {first : List RolloutGroupStep} {cs' : CanaryStatus}
    (clamped : Clamped cs phase first c cs') :
    Kept old c.steps phase cs cs' ↔
      (Done cs phase first ↔ (old.length : Int) ≤ stepOf cs phase old) := by
  unfold Kept
  by_cases done : Done cs phase first
  · have atEnd := clamped.finished done
    have reads : stepOf cs' phase c.steps = c.steps.length := by
      rw [stepOf, if_pos (by omega), atEnd]
    split <;> rename_i finished
    · exact iff_of_true reads.ge (iff_of_true done finished)
    · exact iff_of_false (fun kept => by omega) fun same => finished (same.mp done)
  · obtain ⟨nonneg, inside⟩ := clamped.inside done
    have below : cs'.currentStep < c.steps.length := by omega
    have reads : stepOf cs' phase c.steps = cs'.currentStep := by rw [stepOf, if_pos nonneg]
    split <;> rename_i finished
    · exact iff_of_false (by omega) fun same => done (same.mpr finished)
    · exact iff_of_true ⟨nonneg, below, stateOfRecord_ne_done below phase⟩
        (iff_of_false done finished)

/-- **When a repin holds or tightens**, for a unit whose ladder was `old`.  The record of the
unit that leads is read against the ladder of the first canary group of the old plan: it keeps
its place iff it reads as finished there exactly if it is finished in its own ladder.  Any
other record stays, and keeps its place iff its step does in the new ladder.  A unit that was
held, or that lands on a step with more traffic than recorded, raises its traffic only after a
promote. -/
theorem repin_keeps_iff {inp : Inputs} {svc svc' : Service} {active run : RolloutRun}
    {want : String} {primary : Component} {new : RolloutGroup} {c : GroupCanary}
    {cs : CanaryStatus} {phase : RolloutPhase} (old : List RolloutGroupStep)
    (repins : handleRepin inp svc active want = some (true, svc'))
    (pins : svc'.status.activeRun = some run)
    (drives : canaryGroupFor (run.groups.map (·.group)) primary = some new)
    (body : new.canary = some c) (isPrimary : primaryOf new = some primary)
    (isPhase : (svc.status.components primary).rolloutPhase = phase)
    (recorded : canaryStatusFor svc.status primary = some cs)
    (own : Leads svc.status (run.groups.map (·.group)) primary ∨
      (svc.status.components (canaryUnit primary)).canary = some cs) :
    ∃ cs', canaryStatusFor svc'.status primary = some cs' ∧
      (Leads svc.status (run.groups.map (·.group)) primary →
        (Kept old c.steps phase cs cs' ↔
          (Done cs phase (pinnedCanarySteps active) ↔
            (old.length : Int) ≤ stepOf cs phase old))) ∧
      (¬ Leads svc.status (run.groups.map (·.group)) primary →
        (Kept old c.steps phase cs cs' ↔
          if (old.length : Int) ≤ stepOf cs phase old then
            (c.steps.length : Int) ≤ stepOf cs phase c.steps
          else 0 ≤ cs.currentStep ∧ cs.currentStep < c.steps.length)) ∧
      (cs.preStepHold = true ∨ Leads svc.status (run.groups.map (·.group)) primary ∧
          ¬ Done cs phase (pinnedCanarySteps active) ∧
          (∃ step, c.steps[(min (stepOf cs phase (pinnedCanarySteps active))
            (c.steps.length - 1)).toNat]? = some step ∧ cs.observedTrafficWeight < step.traffic) →
        0 ≤ cs.observedTrafficWeight → cs.canaryRevisionHash ≠ "" →
        RaisesOnlyPromoted c cs' cs.observedTrafficWeight) := by
  have clamps := handleRepin_pins repins pins
  by_cases leads : Leads svc.status (run.groups.map (·.group)) primary
  -- the unit that leads: its record is clamped to the new ladder
  · have recorded' : canaryStatusFor { svc.status with activeRun := some run } primary = some cs :=
      recorded
    rw [clampCanary_first body isPrimary recorded' (leads.trans drives)] at clamps
    obtain ⟨cs', isClamped, put⟩ := map_eq_some_iff.mp clamps
    have reads : primaryPhase { svc.status with activeRun := some run } new = phase := by
      rw [primaryPhase, isPrimary]
      exact isPhase
    rw [reads] at isClamped
    have clamped := clampRecord_clamped isClamped
    refine ⟨cs', put ▸ canaryStatusFor_put recorded' cs', fun _ => clamped.kept_iff,
      fun other => absurd leads other, fun holds weighed named => ?_⟩
    have held : cs'.preStepHold = true := by
      rcases holds with held | ⟨-, short, step, isStep, raises⟩
      · exact clamped.keeps held
      · exact clamped.held short step ((clamped.inside short).2 ▸ isStep) raises
    rw [← clamped.weight] at weighed ⊢
    exact raisesOnlyPromoted_of_held (clamped.hash ▸ named) weighed held
  -- any other record stays as it is
  · refine ⟨cs, clampCanary_other clamps leads drives isPrimary (own.resolve_left leads),
      fun there => absurd there leads, fun _ => ?_, fun holds weighed named => ?_⟩
    · unfold Kept
      split
      · exact Iff.rfl
      · refine and_congr_right fun _ => and_iff_left_of_imp fun below => ?_
        exact stateOfRecord_ne_done below phase
    · exact raisesOnlyPromoted_of_held named weighed
        (holds.resolve_right fun there => leads there.1)

/-! ## A shorter ladder -/

/-- A service whose repin to the given groups is asked for. -/
def repinTo (groups old : List RolloutGroup) (router engine : Option CanaryStatus) : Service where
  groups := groups
  shape := wholeShape
  repin := some "now"
  status := unitsAt router engine (some (pinnedRun old))

def unobserved : Component → TargetPair := fun _ => ⟨"", "", 0, 0, 0⟩

/-- The service after the repin. -/
def afterRepin (groups old : List RolloutGroup) (router engine : Option CanaryStatus) : Service :=
  let svc := repinTo groups old router engine
  ((handleRepin (quietInputs unobserved) svc (pinnedRun old) "now").map (·.2)).getD svc

def shortEngine : List RolloutGroup := [canaryOn [.engine] [50, 100]]

/-- At the second of four steps when the plan becomes one of two: held at its last step. -/
theorem shortened_engine_is_held :
    ∃ cs', canaryStatusFor (afterRepin shortEngine longEngine none (some (recordAt 1 20))).status
        .engine = some cs' ∧ cs'.currentStep < 2 ∧
      RaisesOnlyPromoted (openLadder [50, 100]) cs' 20 := by
  have repins : handleRepin (quietInputs unobserved)
      (repinTo shortEngine longEngine none (some (recordAt 1 20))) (pinnedRun longEngine) "now" =
      some (true, afterRepin shortEngine longEngine none (some (recordAt 1 20))) := rfl
  have leads : Leads (repinTo shortEngine longEngine none (some (recordAt 1 20))).status
      ((pinnedRun shortEngine).groups.map (·.group)) .engine := rfl
  have recorded : canaryStatusFor
      (repinTo shortEngine longEngine none (some (recordAt 1 20))).status .engine =
      some (recordAt 1 20) := rfl
  have pins : (afterRepin shortEngine longEngine none (some (recordAt 1 20))).status.activeRun =
      some (pinnedRun shortEngine) := rfl
  have short : ¬ Done (recordAt 1 20) .canarying (pinnedCanarySteps (pinnedRun longEngine)) := by
    decide
  obtain ⟨cs', isRecord, kept, -, raises⟩ := repin_keeps_iff (openLadder [10, 20, 50, 100]).steps
    repins pins rfl rfl rfl rfl recorded (Or.inl leads)
  refine ⟨cs', isRecord, ?_, raises (Or.inr ⟨leads, short, _, rfl, by decide⟩) (by decide)
    (by decide)⟩
  exact ((kept leads).mpr (iff_of_false short (by decide))).2.1

/-! ## Where a repin does not hold -/

def shortBoth : List RolloutGroup := canaryOn [.router] [50, 100] :: shortEngine

/-- **A second unit is not looked after.**  The engine is at the third of four steps, at half
the traffic, when its plan becomes one of two; the router's record is the one brought along.
The engine's step is no step of its plan, it reads as finished, and nothing is held back on
the stable revision any more. -/
theorem repin_finishes_second_unit :
    Admitted wholeShape shortBoth ∧
    handleRepin (quietInputs unobserved)
        (repinTo shortBoth longBoth (some (recordAt 0 50)) (some (recordAt 2 50)))
        (pinnedRun longBoth) "now" =
      some (true, afterRepin shortBoth longBoth (some (recordAt 0 50)) (some (recordAt 2 50))) ∧
    stepOf (recordAt 2 50) .canarying (openLadder [10, 20, 50, 100]).steps < 4 ∧
    canaryStatusFor
        (afterRepin shortBoth longBoth (some (recordAt 0 50)) (some (recordAt 2 50))).status
        .engine = some (recordAt 2 50) ∧
    stateOf (some (recordAt 2 50)) .canarying (openLadder [50, 100]).steps.length = .done ∧
    effectivePartition (openLadder [50, 100]) (some (recordAt 2 50)) .canarying 4 = some 0 := by
  refine ⟨⟨?_, ?_⟩, rfl, ?_, rfl, ?_, ?_⟩
  · simp [shortBoth, shortEngine, canaryOn]
  all_goals decide

end Ome.Rollout
