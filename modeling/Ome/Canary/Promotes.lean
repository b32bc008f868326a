/-
# Ome.Canary.Promotes — how many gates a promote opens

A promote is an annotation; that it was applied is recorded in the status, and the
annotation is removed later.  While both are there the record keeps the annotation from
opening a second gate.  The record is forgotten too early in two ways:

* a stale value in the other promote key is recorded in its place (`staleWorld`);
* a resume starts the record again (`resumedWorld`).

One write then opens two gates (`lingering_promote_opens_two_gates`).  Without the two, each
promote opens at most one gate (`promote_opens_at_most_one_gate`): the promotes that still
count, `live`, are paid for by the writes that opened no gate yet.
-/
import Ome.Canary.Runs

namespace Ome.Canary

open Ome.Theory List

set_option autoImplicit false

variable {c b : CanaryStatus} {annotations : GoMap Verb String}
variable {reads : World → ReconcileInputs → Prop}

/-- The pass runs under the pinned run, toward the one target. -/
structure OneTarget (hash targetID : String) (inp : ReconcileInputs) : Prop where
  pinned : inp.runActive = true
  target : inp.targetID = targetID
  hash : inp.canaryRevisionHash = hash

/-- The record goes toward the one target. -/
structure Bound (hash targetID : String) (c : CanaryStatus) : Prop where
  toward : c.canaryRevisionHash = hash
  target : c.targetID = "" ∨ c.targetID = targetID
  rejected : c.rolledBackRevisionHash = "" ∨ c.rolledBackRevisionHash = hash
  step : 0 ≤ c.currentStep

/-- A run starts before the operator has promoted anything. -/
structure Unpromoted (hash targetID : String) (w : World) : Prop where
  bound : ∀ c, w.record = some c → Bound hash targetID c
  opened : w.opened = 0
  clean : ¬ Carries w.annotations hash

/-- The annotation that carries the hash is not accompanied by another value, and a resume
does not meet a promote that was applied and is still there. -/
structure Orderly (hash : String) (w : World) (inp : ReconcileInputs) : Prop where
  unmixed : Carries w.annotations hash → Unmixed w.annotations hash
  settled : inp.resume ≠ none → (∃ c, w.record = some c ∧ c.promotedThrough = hash) →
    ¬ Carries w.annotations hash

variable {plan : GroupCanary} {hash targetID : String} {inp : ReconcileInputs} {w : World}
  {ended : Ended}

/-! ## The record stays bound -/

theorem Bound.not_retargets (bound : Bound hash targetID c)
    (one : OneTarget hash targetID inp) : ¬ Retargets inp c := by
  rintro (changed | other | ⟨there, other⟩)
  · simp only [targetChanged, Option.any_some, decide_eq_true_eq] at changed
    obtain ⟨_, _, named, apart⟩ := changed
    rcases bound.target with blank | same
    · exact named blank
    · exact apart (same.trans one.target.symm)
  · exact other (one.hash.trans bound.toward.symm)
  · rcases bound.rejected with blank | same
    · exact there blank
    · exact other (one.hash.trans same.symm)

theorem Bound.start (one : OneTarget hash targetID inp) (stable : String) (now : Int) :
    Bound hash targetID (.start inp.targetID hash stable now) :=
  ⟨rfl, Or.inr one.target, Or.inl rfl, le_refl 0⟩

theorem Bound.stored (bound : Bound hash targetID c) : Bound hash targetID c.stored :=
  ⟨bound.toward, bound.target, bound.rejected, bound.step⟩

/-- What a pass under one target starts from. -/
inductive Kin (hash : String) (inp : ReconcileInputs) (found : Option CanaryStatus)
    (b : CanaryStatus) : Prop
  | same (isFound : found = some b)
  | first (none : found = none) (blank : b.promotedThrough = "") (step : b.currentStep = 0)
  | again (c : CanaryStatus) (isFound : found = some c) (asked : inp.resume ≠ none)
      (blank : b.promotedThrough = "") (step : b.currentStep = 0)

theorem Base.kin {found : Option CanaryStatus} (base : Base inp found b)
    (bound : ∀ c, found = some c → Bound hash targetID c) (one : OneTarget hash targetID inp) :
    Kin hash inp found b ∧ Bound hash targetID b := by
  cases base with
  | opens opening =>
    cases opening with
    | kept same => exact ⟨.same same, bound b same⟩
    | fresh stable new =>
      refine ⟨?_, one.hash ▸ Bound.start one stable inp.now⟩
      cases found with
      | none => exact .first rfl rfl rfl
      | some c => exact absurd (new c rfl) ((bound c rfl).not_retargets one)
  | @resumes c stable same asked =>
    exact ⟨.again c same asked rfl rfl, (bound c same).toward ▸ Bound.start one stable inp.now⟩

theorem Bound.left {p : Armed} {start : Pass (Option CanaryStatus)}
    (bound : Bound hash targetID b) (one : OneTarget hash targetID inp)
    (moves : Moves plan inp start b p) : Bound hash targetID p.record where
  toward := moves.ident.hash.trans bound.toward
  target := by
    rcases moves.ident.target with same | ⟨_, adopted⟩
    · rw [same]
      exact bound.target
    · exact Or.inr (adopted.trans one.target)
  rejected := by
    rcases moves.ident.rejected with same | rejects
    · rw [same]
      exact bound.rejected
    · exact Or.inr (rejects.trans bound.toward)
  step := by
    have nonneg := bound.step
    cases moves.tick with
    | holds step | advances _ step | completes _ _ _ step => omega

/-! ## One step at a time -/

theorem Leaves.step_le {start p : Pass (Option CanaryStatus)} (leaves : Leaves plan inp start p)
    (inside : ∀ b, start.record = some b → 0 ≤ b.currentStep) :
    recordedStep p.record ≤ recordedStep start.record + 1 := by
  have nonneg : 0 ≤ recordedStep start.record := by
    cases isFound : start.record with
    | none => exact le_refl 0
    | some b => exact inside b isFound
  cases leaves with
  | clear none =>
    rw [none]
    show 0 ≤ recordedStep start.record + 1
    omega
  | @moved p b moves =>
    show p.record.currentStep ≤ recordedStep start.record + 1
    have below : b.currentStep ≤ recordedStep start.record := by
      cases moves.base with
      | opens opening =>
        cases opening with
        | kept same =>
          rw [same]
          exact le_refl _
        | fresh => exact nonneg
      | resumes => exact nonneg
    cases moves.tick with
    | holds step | advances _ step | completes _ atLast _ step => omega

/-! ## Paying for the gates -/

/-- The promote keys that carry the hash. -/
def carried (hash : String) (annotations : GoMap Verb String) : Nat :=
  (promoteKeys.filter fun key => key ∈ annotations.keys ∧ annotations.get key = hash).length

theorem carried_eq_zero (none : ¬ Carries annotations hash) : carried hash annotations = 0 := by
  unfold carried
  rw [length_eq_zero_iff, filter_eq_nil_iff]
  intro key isKey reads
  exact none ⟨key, isKey, by simpa using reads⟩

theorem carried_pos (carries : Carries annotations hash) : 0 < carried hash annotations := by
  obtain ⟨key, isKey, reads⟩ := carries
  exact length_pos_of_mem (mem_filter.mpr ⟨isKey, by simpa using reads⟩)

theorem carried_eq (annotations : GoMap Verb String) : carried hash annotations =
    (if Verb.promote ∈ annotations.keys ∧ annotations.get .promote = hash then 1 else 0) +
      (if Verb.promoteForce ∈ annotations.keys ∧ annotations.get .promoteForce = hash then 1
        else 0) := by
  unfold carried promoteKeys
  simp only [filter_cons, filter_nil, decide_eq_true_eq]
  split <;> split <;> rfl

theorem carried_erase_le (annotations : GoMap Verb String) (key : Verb) :
    carried hash (annotations.erase key) ≤ carried hash annotations := by
  refine Sublist.length_le (monotone_filter_right _ fun other reads => ?_)
  simp only [decide_eq_true_eq, GoMap.mem_keys_erase] at reads ⊢
  obtain ⟨⟨present, apart⟩, value⟩ := reads
  rw [GoMap.get_erase, if_neg apart] at value
  exact ⟨present, value⟩

/-- Writing one key adds at most one, and only a promote key written with the hash does. -/
theorem carried_set_le (annotations : GoMap Verb String) (key : Verb) (value : String) :
    carried hash (annotations.set key value) ≤
      carried hash annotations + if key ∈ promoteKeys ∧ value = hash then 1 else 0 := by
  rw [carried_eq, carried_eq]
  simp only [GoMap.mem_keys_set, GoMap.get_set]
  cases key with
  | promote | promoteForce =>
    simp only [promoteKeys, reduceCtorEq, if_false, or_false, or_true, true_or, true_and, if_true,
      mem_cons]
    omega
  | rollback | resume => simp [promoteKeys]

/-- The promotes that can still open a gate. -/
def live (hash : String) (record : Option CanaryStatus) (annotations : GoMap Verb String) : Nat :=
  if record.any (·.promotedThrough = hash) then 0 else carried hash annotations

theorem live_recorded
    (recorded : c.promotedThrough = hash) : live hash (some c) annotations = 0 := by
  simp [live, recorded]

theorem live_unrecorded (unrecorded : c.promotedThrough ≠ hash) :
    live hash (some c) annotations = carried hash annotations := by
  simp [live, unrecorded]

theorem live_le (hash : String) (record : Option CanaryStatus) (annotations : GoMap Verb String) :
    live hash record annotations ≤ carried hash annotations := by
  unfold live
  split
  · exact Nat.zero_le _
  · exact le_refl _

/-- With the same record, the live promotes grow no faster than the keys that carry one. -/
theorem live_growth (record : Option CanaryStatus) {a a' : GoMap Verb String} {n : Nat}
    (grows : carried hash a' ≤ carried hash a + n) :
    live hash record a' ≤ live hash record a + n := by
  unfold live
  split
  · omega
  · exact grows

/-- The gates opened so far and those that can still be opened are paid for by writes. -/
structure Paid (hash targetID : String) (w : World) : Prop where
  bound : ∀ c, w.record = some c → Bound hash targetID c
  budget : w.opened + live hash w.record w.annotations ≤ w.writes

/-- The budget of one pass from the record it works from. -/
theorem Moves.budget {p : Armed} {start : Pass (Option CanaryStatus)}
    (moves : Moves plan inp start b p) (toward : b.canaryRevisionHash = hash) (named : hash ≠ "")
    (unmixed : Carries start.annotations hash → Unmixed start.annotations hash) :
    p.opened + live hash (some p.record) start.annotations ≤
      start.opened + live hash (some b) start.annotations := by
  obtain ⟨idle, once⟩ := moves.fair
  subst toward
  by_cases carries : Carries start.annotations b.canaryRevisionHash
  · rcases once named carries with ⟨same, keeps⟩ | ⟨opens, unrecorded, records⟩
    · by_cases recorded : b.promotedThrough = b.canaryRevisionHash
      · rw [live_recorded (keeps (unmixed carries) recorded)]
        omega
      · have before : live b.canaryRevisionHash (some b) start.annotations =
            carried b.canaryRevisionHash start.annotations :=
          live_unrecorded recorded
        have after := live_le b.canaryRevisionHash (some p.record) start.annotations
        omega
    · have before : live b.canaryRevisionHash (some b) start.annotations =
          carried b.canaryRevisionHash start.annotations :=
        live_unrecorded unrecorded
      rw [live_recorded (records (unmixed carries)), before]
      have one := carried_pos carries
      omega
  · have none := carried_eq_zero carries
    have after := live_le b.canaryRevisionHash (some p.record) start.annotations
    rw [idle named carries]
    omega

/-- **The step lemma of the pass.** -/
theorem Paid.land (paid : Paid hash targetID w) (named : hash ≠ "")
    (one : OneTarget hash targetID inp) (orderly : Orderly hash w inp)
    (passes : dispatch plan inp w.pass = some ended) :
    Paid hash targetID (w.land plan inp ended) := by
  have leaves := dispatch_leaves (fun b isRecord => (paid.bound b isRecord).step) passes
  have budget := paid.budget
  obtain ⟨result, pass⟩ := ended
  cases leaves with
  | clear none opened why =>
    simp only at none opened
    have unrecorded : w.record = Option.none := by
      rcases why with same | unpinned
      · exact same
      · rw [one.pinned] at unpinned
        cases unpinned
    rw [unrecorded] at budget
    constructor
    · intro c isRecord
      obtain ⟨left, isLeft, -⟩ := record_land isRecord
      rw [show pass.record = some left from isLeft] at none
      cases none
    · show pass.opened + live hash (pass.record.map CanaryStatus.stored) w.annotations ≤ w.writes
      rw [none, opened]
      exact budget
  | @moved p b moves =>
    obtain ⟨kin, bound⟩ := moves.base.kin paid.bound one
    constructor
    · rintro _ ⟨⟩
      exact (bound.left one moves).stored
    · show p.opened + live hash (some p.record) w.annotations ≤ w.writes
      have spent : p.opened + live hash (some p.record) w.annotations ≤
          w.opened + live hash (some b) w.annotations :=
        moves.budget bound.toward named orderly.unmixed
      -- the record worked from has no more live promotes than the one found
      have fewer : live hash (some b) w.annotations ≤ live hash w.record w.annotations := by
        cases kin with
        | same isFound => exact le_of_eq (congrArg (live hash · w.annotations) isFound.symm)
        | first none =>
          have unrecorded : w.record = Option.none := none
          rw [unrecorded]
          exact live_le hash (some b) w.annotations
        | again c isFound asked =>
          by_cases recorded : c.promotedThrough = hash
          · have clean := carried_eq_zero (orderly.settled asked ⟨c, isFound, recorded⟩)
            have none := live_le hash (some b) w.annotations
            omega
          · have found : w.record = some c := isFound
            rw [found, live_unrecorded recorded]
            exact live_le hash (some b) w.annotations
      omega

theorem Paid.move (named : hash ≠ "")
    (one : ∀ w inp, reads w inp → OneTarget hash targetID inp)
    (orderly : ∀ w inp, reads w inp → Orderly hash w inp) (w w' : World)
    (paid : Paid hash targetID w) (move : Move plan hash reads w w') : Paid hash targetID w' := by
  have budget := paid.budget
  cases move with
  | landed later allowed passes =>
    exact paid.land named (one _ _ allowed) (orderly _ _ allowed) passes
  | lost | changed => exact ⟨paid.bound, paid.budget⟩
  | removed key =>
    refine ⟨paid.bound, ?_⟩
    show w.opened + live hash w.record (w.annotations.erase key) ≤ w.writes
    have fewer : live hash w.record (w.annotations.erase key) ≤
        live hash w.record w.annotations + 0 :=
      live_growth w.record (carried_erase_le w.annotations key)
    omega
  | wrote key value =>
    refine ⟨paid.bound, ?_⟩
    show w.opened + live hash w.record (w.annotations.set key value) ≤
      if key ∈ promoteKeys ∧ value = hash then w.writes + 1 else w.writes
    have more : live hash w.record (w.annotations.set key value) ≤
        live hash w.record w.annotations + if key ∈ promoteKeys ∧ value = hash then 1 else 0 :=
      live_growth w.record (carried_set_le w.annotations key value)
    split at more <;> rename_i counts
    · rw [if_pos counts]
      omega
    · rw [if_neg counts]
      omega

/-! ## The result -/

theorem bound_move
    (one : ∀ w inp, reads w inp → OneTarget hash targetID inp) (w w' : World)
    (bound : ∀ c, w.record = some c → Bound hash targetID c)
    (move : Move plan hash reads w w') : ∀ c, w'.record = some c → Bound hash targetID c := by
  cases move with
  | @landed inp ended _ allowed passes =>
    have leaves := dispatch_leaves (fun b isRecord => (bound b isRecord).step) passes
    obtain ⟨result, pass⟩ := ended
    intro c isRecord
    obtain ⟨left, isLeft, rfl⟩ := record_land isRecord
    cases leaves with
    | clear none =>
      rw [show pass.record = some left from isLeft] at none
      cases none
    | moved b moves =>
      cases isLeft
      exact ((moves.base.kin bound (one _ _ allowed)).2.left (one _ _ allowed) moves).stored
  | lost | wrote | removed | changed => exact bound

/-- **One promote, one step.**  Every pass raises the step by at most one.  Where every pass
is orderly, the gates that promotes opened are at most the promotes the operator wrote. -/
theorem promote_opens_at_most_one_gate {reads : World → ReconcileInputs → Prop}
    (named : hash ≠ "") (one : ∀ w inp, reads w inp → OneTarget hash targetID inp)
    (reached : Reached plan hash reads (Unpromoted hash targetID) w) :
    (∀ inp ended, dispatch plan inp w.pass = some ended →
      recordedStep ended.pass.record ≤ recordedStep w.record + 1) ∧
    ((∀ w inp, reads w inp → Orderly hash w inp) → w.opened ≤ w.writes) := by
  constructor
  · intro inp ended passes
    have bound : ∀ c, w.record = some c → Bound hash targetID c :=
      reached.invariant (bound_move one) fun w first => first.bound
    have inside : ∀ c, w.record = some c → 0 ≤ c.currentStep := fun c isRecord =>
      (bound c isRecord).step
    exact (dispatch_leaves inside passes).step_le inside
  · intro orderly
    have paid : Paid hash targetID w := by
      refine reached.invariant (Paid.move named one orderly) fun w first => ⟨first.bound, ?_⟩
      have none := carried_eq_zero first.clean
      have below := live_le hash w.record w.annotations
      have zero := first.opened
      omega
    have budget := paid.budget
    omega

/-- Four steps; the first and the third wait for a promote. -/
def pausedPlan : GroupCanary where
  steps :=
    [⟨.percent 50, 10, some ⟨none⟩, none⟩, ⟨.percent 50, 20, none, none⟩,
      ⟨.percent 50, 50, some ⟨none⟩, none⟩, ⟨.percent 50, 100, none, none⟩]
  scaleDownDelaySeconds := some 30
  readyTimeout := none

/-- One promote, written before the first pass. -/
def promotedWorld : World := unarmed.write "c" .promote "c"

theorem unpromoted_unarmed : Unpromoted "c" "t" unarmed := by
  refine ⟨fun c isRecord => ?_, rfl, ?_⟩
  · cases isRecord
  · rintro ⟨key, _, present, _⟩
    cases present

theorem calmInputs_oneTarget (now : Int) : OneTarget "c" "t" (calmInputs 4 4 now) :=
  ⟨rfl, rfl, rfl⟩

theorem promotedWorld_opens_one :
    (promotedWorld.after pausedPlan (calmInputs 4 4 1)).opened = 1 ∧
      (promotedWorld.after pausedPlan (calmInputs 4 4 1)).opened ≤
        (promotedWorld.after pausedPlan (calmInputs 4 4 1)).writes := by
  have orderly : Orderly "c" promotedWorld (calmInputs 4 4 1) := by
    refine ⟨fun _ => ?_, fun asked => absurd rfl asked⟩
    unfold Unmixed
    decide
  have reached : Reached pausedPlan "c"
      (fun w inp => OneTarget "c" "t" inp ∧ Orderly "c" w inp) (Unpromoted "c" "t")
      (promotedWorld.after pausedPlan (calmInputs 4 4 1)) :=
    ⟨unarmed, unpromoted_unarmed, .trans (.single (.wrote .promote "c"))
      (run_after (by decide) ⟨calmInputs_oneTarget 1, orderly⟩)⟩
  exact ⟨by decide, (promote_opens_at_most_one_gate (by decide) (fun _ _ reads => reads.1)
    reached).2 fun _ _ reads => reads.2⟩

/-- The promote was applied and still lingers when another value appears beside it. -/
def staleWorld : World :=
  (((promotedWorld.after pausedPlan (calmInputs 4 4 1)).write "c" .promoteForce "x").after
    pausedPlan (calmInputs 4 4 2)).after pausedPlan (calmInputs 4 4 3)

/-- The promote was applied and still lingers when the canary is parked and resumed. -/
def resumedWorld : World :=
  (((promotedWorld.after pausedPlan (calmInputs 4 4 1)).after pausedPlan
    { calmInputs 4 4 2 with crash := true }).after pausedPlan
    { calmInputs 4 4 3 with resume := some ⟨none, "c"⟩ }).after pausedPlan (calmInputs 4 4 4)

/-- **One promote opens two gates** when its record is overwritten or restarted while the
annotation lingers. -/
theorem lingering_promote_opens_two_gates :
    (Reached pausedPlan "c" (fun _ inp => OneTarget "c" "t" inp) (Unpromoted "c" "t") staleWorld ∧
      staleWorld.writes = 1 ∧ staleWorld.opened = 2) ∧
    (Reached pausedPlan "c" (fun _ inp => OneTarget "c" "t" inp) (Unpromoted "c" "t")
        resumedWorld ∧
      resumedWorld.writes = 1 ∧ resumedWorld.opened = 2) := by
  have promoted : Relation.ReflTransGen (Move pausedPlan "c" fun _ inp => OneTarget "c" "t" inp)
      unarmed (promotedWorld.after pausedPlan (calmInputs 4 4 1)) :=
    .trans (.single (.wrote .promote "c")) (run_after (by decide) (calmInputs_oneTarget 1))
  refine ⟨⟨⟨unarmed, unpromoted_unarmed, ?_⟩, by decide, by decide⟩,
    ⟨unarmed, unpromoted_unarmed, ?_⟩, by decide, by decide⟩
  · exact promoted.trans (.trans (.single (.wrote .promoteForce "x"))
      (.trans (run_after (by decide) (calmInputs_oneTarget 2))
        (run_after (by decide) (calmInputs_oneTarget 3))))
  · exact promoted.trans (.trans (run_after (by decide) ⟨rfl, rfl, rfl⟩)
      (.trans (run_after (by decide) ⟨rfl, rfl, rfl⟩)
        (run_after (by decide) (calmInputs_oneTarget 4))))

end Ome.Canary
