/-
# Ome.Rollout.Adoption — a canary under way without a run

A unit whose run was lost holds in place until the run layer opens a run around it.  The run
layer looks at one unit: that of the first canary group the spec declares.  What it finds under
way there (`InFlight`), and nothing else, opens an adopting run that pins every group and leaves
the records alone (`adopts_iff_first_inFlight`).

* `second_unit_is_not_adopted`: the unit of another canary group is not looked at; when
  nothing else diverges, no run opens and it holds for good.
-/
import Ome.Rollout.Run
import Ome.Theory.Loops

namespace Ome.Rollout

open Ome.Theory Ome.Canary List

set_option autoImplicit false

variable {g : RolloutGroup} {shape : Shape} {groups : List RolloutGroup} {policies : Policies}
variable {composed resolved : RolloutGroup} {policy : Option RolloutPolicySpec}

/-! ## One canary group for each unit -/

theorem mem_canaryUnitsOf {u : Component} :
    u ∈ canaryUnitsOf g ↔ ∃ c ∈ g.components, canaryUnit c = u := by
  have loop : ∀ (cs : List Component) (out : List Component),
      u ∈ cs.foldl (fun out c => if canaryUnit c ∈ out then out else out ++ [canaryUnit c]) out ↔
        u ∈ out ∨ ∃ c ∈ cs, canaryUnit c = u := by
    intro cs
    induction cs with
    | nil => simp
    | cons c rest ih =>
      intro out
      rw [foldl_cons, ih]
      by_cases seen : canaryUnit c ∈ out
      · rw [if_pos seen]
        constructor
        · rintro (there | ⟨d, isLater, rfl⟩)
          · exact Or.inl there
          · exact Or.inr ⟨d, mem_cons_of_mem c isLater, rfl⟩
        · rintro (there | ⟨d, isMember, rfl⟩)
          · exact Or.inl there
          · rcases mem_cons.mp isMember with rfl | isLater
            · exact Or.inl seen
            · exact Or.inr ⟨d, isLater, rfl⟩
      · rw [if_neg seen]
        simp only [mem_append, mem_cons, exists_eq_or_imp]
        tauto
  unfold canaryUnitsOf
  simpa using loop g.components []

theorem claimUnits_ok {gi : Nat} : ∀ {us : List Component} {owner owner' : Component → Option Nat},
    claimUnits gi owner us = .ok owner' → (∀ u ∈ us, owner u = none) ∧
      ∀ c, owner' c = none → owner c = none ∧ c ∉ us
  | [], owner, owner', claims => by
    cases claims
    exact ⟨by simp, fun c free => ⟨free, by simp⟩⟩
  | u :: rest, owner, owner', claims => by
    unfold claimUnits at claims
    cases free : owner u with
    | some prev =>
      rw [free] at claims
      cases claims
    | none =>
      rw [free] at claims
      obtain ⟨later, left⟩ := claimUnits_ok claims
      refine ⟨fun d isMember => ?_, fun c isFree => ?_⟩
      · rcases mem_cons.mp isMember with rfl | isLater
        · exact free
        · have unclaimed : (if d = u then some gi else owner d) = none := later d isLater
          split at unclaimed
          · cases unclaimed
          · exact unclaimed
      · obtain ⟨unclaimed, absent⟩ := left c isFree
        split at unclaimed
        · cases unclaimed
        · rename_i other
          exact ⟨unclaimed, by simp [other, absent]⟩

/-- Two groups do not drive one unit. -/
def Apart (a b : RolloutGroup) : Prop :=
  a.declaredProgression = .canary → b.declaredProgression = .canary →
    ∀ u ∈ canaryUnitsOf a, u ∉ canaryUnitsOf b

instance : Std.Symm Apart where
  symm := fun _ _ apart isB isA u inB inA => apart isA isB u inA inB

/-- The canary groups drive units that are free, and no two the same. -/
theorem claimGroups_ok : ∀ {entries : List (RolloutGroup × Nat)} {owner : Component → Option Nat},
    claimGroups owner entries = .ok () →
    (∀ entry ∈ entries, entry.1.declaredProgression = .canary →
      ∀ u ∈ canaryUnitsOf entry.1, owner u = none) ∧
    entries.Pairwise fun a b => Apart a.1 b.1
  | [], _, _ => ⟨by simp, Pairwise.nil⟩
  | (g, gi) :: rest, owner, claims => by
    unfold claimGroups at claims
    by_cases other : g.declaredProgression ≠ .canary
    · rw [if_pos other] at claims
      obtain ⟨free, apart⟩ := claimGroups_ok claims
      refine ⟨fun entry isMember canary => ?_, Pairwise.cons ?_ apart⟩
      · rcases mem_cons.mp isMember with rfl | isLater
        · exact absurd canary other
        · exact free entry isLater canary
      · exact fun _ _ canary => absurd canary other
    · rw [if_neg other] at claims
      obtain ⟨owner', first, later⟩ := bind_eq_ok.mp claims
      obtain ⟨free, left⟩ := claimUnits_ok first
      obtain ⟨free', apart⟩ := claimGroups_ok later
      refine ⟨fun entry isMember canary u isUnit => ?_, Pairwise.cons ?_ apart⟩
      · rcases mem_cons.mp isMember with rfl | isLater
        · exact free u isUnit
        · exact (left u (free' entry isLater canary u isUnit)).1
      · intro entry isLater _ canary u isUnit isOther
        exact (left u (free' entry isLater canary u isOther)).2 isUnit

theorem Admitted.apart (admitted : Admitted shape groups) : groups.Pairwise Apart := by
  obtain ⟨_, one, _⟩ := bind_eq_ok.mp admitted.valid
  have pairs := (claimGroups_ok one).2
  rw [← zipIdx_map_fst 0 groups, pairwise_map]
  exact pairs

/-! ## Resolving a group -/

theorem composeGroup_components
    (composes : composeGroup g policy = .ok composed) : composed.components = g.components := by
  unfold composeGroup at composes
  repeat' split at composes
  all_goals first | cases composes; rfl | cases composes

theorem resolveGroup_components
    (resolves : resolveGroup g policies = .ok resolved) : resolved.components = g.components := by
  unfold resolveGroup at resolves
  repeat' split at resolves
  all_goals first | exact composeGroup_components resolves | cases resolves

/-- A composed canary body was declared as one. -/
theorem composeGroup_canary (composes : composeGroup g policy = .ok composed)
    (body : composed.canary.isSome = true) : g.declaredProgression = .canary := by
  unfold composeGroup at composes
  by_cases inline : hasInlineProgression g = true
  · rw [if_pos inline] at composes
    cases composes
    simp [RolloutGroup.declaredProgression, show g.canary.isSome = true from body]
  · rw [if_neg inline] at composes
    simp only [hasInlineProgression, Bool.or_eq_true, not_or, Bool.not_eq_true] at inline
    obtain ⟨⟨noCanary, noBlueGreen⟩, noRolling⟩ := inline
    -- nothing inline: the body comes from the policy, of the kind the reference declares
    cases ref : g.policyRef with
    | none =>
      rw [ref] at composes
      cases composes
      rw [show g.canary.isSome = true from body] at noCanary
      cases noCanary
    | some ref' =>
      rw [ref] at composes
      cases policy with
      | none => cases composes
      | some policy =>
        simp only at composes
        cases kind : policy.progression with
        | none =>
          rw [kind] at composes
          cases composes
        | some actual =>
          rw [kind] at composes
          simp only at composes
          by_cases differs : actual ≠ ref'.progression
          · rw [if_pos differs] at composes
            cases composes
          · rw [if_neg differs] at composes
            cases composes
            have isCanary : policy.canary.isSome = true := body
            rw [RolloutPolicySpec.progression, if_pos isCanary] at kind
            have same : ref'.progression = .canary :=
              (not_not.mp differs).symm.trans (Option.some.inj kind).symm
            simp [RolloutGroup.declaredProgression, noCanary, noBlueGreen, noRolling, ref,
              same]

theorem resolveGroup_canary (resolves : resolveGroup g policies = .ok resolved)
    (body : resolved.canary.isSome = true) : g.declaredProgression = .canary := by
  unfold resolveGroup at resolves
  repeat' split at resolves
  all_goals first | exact composeGroup_canary resolves body | cases resolves

theorem mem_resolveLive (isLive : g ∈ resolveLive groups policies) : ∃ declared ∈ groups,
      g.components = declared.components ∧
      (g.canary.isSome = true → declared.declaredProgression = .canary) := by
  obtain ⟨declared, isDeclared, rfl⟩ := mem_map.mp isLive
  refine ⟨declared, isDeclared, ?_⟩
  split
  · exact ⟨rfl, fun body => by simp [RolloutGroup.declaredProgression, body]⟩
  · cases resolves : resolveGroup declared policies with
    | error e =>
      exact ⟨rfl, fun body => by
        simp [RolloutGroup.declaredProgression, show declared.canary.isSome = true from body]⟩
    | ok resolved =>
      exact ⟨resolveGroup_components resolves, resolveGroup_canary resolves⟩

/-- **The group that drives a unit is the one that declares it.** -/
theorem canaryGroupFor_components {found : RolloutGroup} {c : Component}
    (admitted : Admitted shape groups) (isGroup : g ∈ groups)
    (canary : g.declaredProgression = .canary) (isMember : c ∈ g.components)
    (finds : canaryGroupFor (resolveLive groups policies) c = some found) :
    found.components = g.components := by
  have touches := find?_some finds
  obtain ⟨isLive, body⟩ := mem_filter.mp (mem_of_find?_eq_some finds)
  obtain ⟨declared, isDeclared, same, kind⟩ := mem_resolveLive isLive
  obtain ⟨d, isOther, sameUnit⟩ := any_eq_true.mp touches
  have sameUnit : canaryUnit d = canaryUnit c := by simpa using sameUnit
  have unit : canaryUnit c ∈ canaryUnitsOf declared :=
    mem_canaryUnitsOf.mpr ⟨d, same ▸ isOther, sameUnit⟩
  have unit' : canaryUnit c ∈ canaryUnitsOf g := mem_canaryUnitsOf.mpr ⟨c, isMember, rfl⟩
  rw [same]
  -- two different groups would drive one unit
  by_contra differ
  have clash : Apart declared g :=
    admitted.apart.forall isDeclared isGroup fun equal => differ (equal ▸ rfl)
  exact clash (kind body) canary _ unit unit'

/-! ## The run that is opened -/

theorem composePlan_components {env : Digests} {plan : List RolloutRunGroup}
    (composes : composePlan env shape groups policies = .ok plan) :
    plan.map (·.group.components) = groups.map (·.components) := by
  have each : ∀ {entries : List (RolloutGroup × Nat)} {plan : List RolloutRunGroup},
      Forall₂ (fun entry composed =>
        composeRunGroup env shape policies entry = .ok composed) entries plan →
      plan.map (·.group.components) = entries.map (·.1.components) := by
    intro entries plan pairs
    induction pairs with
    | nil => rfl
    | @cons entry composed _ _ made _ ih =>
      obtain ⟨resolved, resolves, rest⟩ := bind_eq_ok.mp made
      obtain ⟨_, _, same⟩ := bind_eq_ok.mp rest
      cases same
      simp [ih, resolveGroup_components resolves]
  rw [each (mapM_eq_ok.mp composes)]
  conv_rhs => rw [← zipIdx_map_fst 0 groups, map_map]
  rfl

/-- Each of the given components is pinned, once, and nothing else is. -/
structure PinsEach (members : List Component) (pinned : List RolloutRunTarget) : Prop where
  once : (pinned.map (·.component)).Nodup
  all : ∀ c, c ∈ pinned.map (·.component) ↔ c ∈ members

theorem PinsEach.group {before : List Component} {pinned : List RolloutRunTarget}
    {make : Component → RolloutRunTarget} (keyed : ∀ c, (make c).component = c)
    (pins : PinsEach before pinned) (members : List Component) :
    PinsEach (before ++ members) (members.foldl (fun pinned comp =>
      if pinned.any (·.component = comp) then pinned else pinned ++ [make comp]) pinned) := by
  refine foldl_along (fun done pinned => PinsEach (before ++ done) pinned) (by simpa using pins) ?_
  intro done comp rest pinned _ pins
  have isThere : pinned.any (·.component = comp) = true ↔ comp ∈ before ++ done := by
    rw [← pins.all]
    simp
  show PinsEach (before ++ (done ++ [comp]))
    (if pinned.any (·.component = comp) = true then pinned else pinned ++ [make comp])
  rw [← append_assoc]
  by_cases seen : comp ∈ before ++ done
  · rw [if_pos (isThere.mpr seen)]
    refine ⟨pins.once, fun c => ?_⟩
    rw [pins.all, mem_append (t := [comp]), mem_singleton]
    exact ⟨Or.inl, fun either => either.elim id fun same => same ▸ seen⟩
  · rw [if_neg (mt isThere.mp seen)]
    refine ⟨?_, fun c => ?_⟩
    · rw [map_append, map_singleton, keyed, nodup_append_comm]
      simpa using ⟨fun member isPinned same => seen ((pins.all comp).mp
        (mem_map.mpr ⟨member, isPinned, same⟩)), pins.once⟩
    · rw [map_append, mem_append, mem_append (t := [comp]), pins.all]
      simp [keyed]

theorem pinTargets_pinsEach (groups : List RolloutGroup) (s : ServiceStatus)
    (targets : Component → TargetPair) (stableOverrides : Component → Option String)
    (adopting : Bool) (plan : List RolloutRunGroup) :
    PinsEach (plan.flatMap (·.group.components))
      (pinTargets groups s targets stableOverrides adopting plan) := by
  have start : PinsEach [] [] := ⟨nodup_nil, by simp⟩
  refine foldl_along (fun (done : List RolloutRunGroup) pinned =>
    PinsEach (done.flatMap (·.group.components)) pinned) start ?_
  intro done entry rest pinned _ pins
  rw [flatMap_append, flatMap_singleton]
  exact pins.group (fun _ => rfl) entry.group.components

/-! ## The unit the run layer looks at -/

/-- A group's unit has something under way: a revert that still drains, or a record whose
targets stand and that is short of its ladder.  While the group's reference does not resolve
there is no ladder to read, and a unit that is not Stable counts as short. -/
def InFlight (inp : Inputs) (svc : Service) (g : RolloutGroup) : Prop :=
  ∃ primary, primaryOf g = some primary ∧ ∃ cs, canaryStatusFor svc.status primary = some cs ∧
    if cs.rolledBackRevisionHash ≠ "" then
      stateOf (some cs) (svc.status.components primary).rolloutPhase (ladderLength g) = .rollingBack
    else recordTargetsStand inp.env (some g) primary cs inp.targets = true ∧
      match (canaryGroupFor (resolveLive svc.groups inp.policies) primary).bind (·.canary) with
      | some c => stepOf cs (svc.status.components primary).rolloutPhase c.steps < c.steps.length
      | none => (svc.status.components primary).rolloutPhase ≠ .stable

theorem primaryOf_congr {a b : RolloutGroup} (same : a.components = b.components) :
    primaryOf a = primaryOf b := by
  unfold primaryOf
  rw [same]

theorem mem_of_primaryOf {c : Component} (isPrimary : primaryOf g = some c) : c ∈ g.components := by
  rcases Option.or_eq_some_iff.mp isPrimary with ranked | ⟨_, head⟩
  · simpa using find?_some ranked
  · exact mem_of_head? head

/-- A rejected revision reads the same under every ladder of the unit's members. -/
theorem revertInFlight_iff {s : ServiceStatus} {other : RolloutGroup} {primary : Component}
    {cs : CanaryStatus} (same : other.components = g.components)
    (isPrimary : primaryOf g = some primary) (recorded : canaryStatusFor s primary = some cs)
    (rejected : cs.rolledBackRevisionHash ≠ "") : revertInFlight s other = true ↔
      stateOf (some cs) (s.components primary).rolloutPhase (ladderLength g) = .rollingBack := by
  have isPrimary' := (primaryOf_congr same).trans isPrimary
  simp [revertInFlight, groupRecord, primaryPhase, isPrimary', recorded, rejected, stateOf,
    stateOfRecord]

/-- **The run layer sees what the first canary group's unit has under way, and only that.** -/
theorem canaryMidFlight_iff {inp : Inputs} {svc : Service}
    (admitted : Admitted svc.shape svc.groups) (idle : svc.status.activeRun = none) :
    canaryMidFlight inp.env svc.groups inp.policies svc.status inp.targets = true ↔
      ∃ g, declaredCanaryGroup svc.groups = some g ∧ InFlight inp svc g := by
  unfold canaryMidFlight primaryCanaryComponent effective
  rw [idle]
  cases first : declaredCanaryGroup svc.groups with
  | none =>
    rw [declaredCanaryGroup, ← head?_filter, head?_eq_none_iff] at first
    simp [first]
  | some g =>
    have isGroup : g ∈ svc.groups := mem_of_find?_eq_some first
    have isCanary : g.declaredProgression = .canary := by simpa using find?_some first
    obtain ⟨rest, split⟩ : ∃ rest, svc.groups.filter (·.declaredProgression = .canary) =
        g :: rest := by
      rw [declaredCanaryGroup, ← head?_filter] at first
      exact ⟨_, (head?_eq_some_iff.mp first).choose_spec⟩
    have named : primaryOf g ≠ none := fun none =>
      admitted.members g isGroup (head?_eq_none_iff.mp (Option.or_eq_none_iff.mp none).2)
    obtain ⟨primary, isPrimary⟩ := Option.ne_none_iff_exists'.mp named
    rw [split, findSome?_cons, isPrimary]
    simp only [Option.some.injEq, exists_eq_left', InFlight, isPrimary]
    cases recorded : canaryStatusFor svc.status primary with
    | none => simp
    | some cs =>
      simp only [Option.some.injEq, exists_eq_left']
      by_cases rejected : cs.rolledBackRevisionHash ≠ ""
      · rw [if_pos rejected, if_pos rejected]
        -- whichever group the view finds has the members of this one
        cases finds : canaryGroupFor (resolveLive svc.groups inp.policies) primary with
        | none => exact revertInFlight_iff rfl isPrimary recorded rejected
        | some found => exact revertInFlight_iff (canaryGroupFor_components admitted isGroup
            isCanary (mem_of_primaryOf isPrimary) finds) isPrimary recorded rejected
      · rw [if_neg rejected, if_neg rejected]
        cases recordTargetsStand inp.env (some g) primary cs inp.targets with
        | false => simp
        | true =>
          rw [if_neg (by decide)]
          cases (canaryGroupFor (resolveLive svc.groups inp.policies) primary).bind (·.canary) with
          | none => simp
          | some c => simp [stepShortOfEnd]

/-- **A pass adopts a canary iff the first canary group's unit has one under way.**  With no
run, fresh observations and a plan that composes, it then opens an adopting run: every group
is pinned, every component once, and nothing else of the service changes. -/
theorem adopts_iff_first_inFlight {inp : Inputs} {svc : Service} {plan : List RolloutRunGroup}
    (admitted : Admitted svc.shape svc.groups) (idle : svc.status.activeRun = none)
    (fresh : inp.fresh = true)
    (composes : composePlan inp.env svc.shape svc.groups inp.live = .ok plan) :
    (∃ run, reconcile inp svc =
        some (⟨false, true, true, true⟩, { svc with status.activeRun := some run }) ∧
      run.groups = plan ∧ plan.map (·.group.components) = svc.groups.map (·.components) ∧
      PinsEach (svc.groups.flatMap (·.components)) run.targetRevisions) ↔
    ∃ g, declaredCanaryGroup svc.groups = some g ∧ InFlight inp svc g := by
  rw [← canaryMidFlight_iff admitted idle]
  cases midFlight : canaryMidFlight inp.env svc.groups inp.policies svc.status inp.targets with
  | false =>
    refine iff_of_false ?_ Bool.false_ne_true
    rintro ⟨run, passes, -⟩
    have adopted := congrArg (Option.map (·.1.adopted)) passes
    unfold reconcile openPath at adopted
    simp only [idle, midFlight, composes] at adopted
    repeat' split at adopted
    all_goals cases adopted
  | true =>
    have some' : svc.groups ≠ [] := by
      rintro none
      simp [none, canaryMidFlight, primaryCanaryComponent] at midFlight
    have components := composePlan_components composes
    have pins := pinTargets_pinsEach svc.groups svc.status inp.targets (fun _ => none) true plan
    rw [flatMap_def, components, ← flatMap_def] at pins
    refine iff_of_true ⟨⟨inp.now, inp.now, _, plan⟩, ?_, rfl, components, pins⟩ rfl
    unfold reconcile
    rw [idle]
    simp only [if_neg some']
    unfold openPath
    rw [if_neg (by simp [fresh])]
    simp only [midFlight]
    rw [if_neg (by simp), composes]
    rfl

/-! ## Other units -/

/-- Both units rest on one revision. -/
def resting (replicas updated : Int) : Component → TargetPair := fun _ =>
  ⟨"c", "c", replicas, updated, 0⟩

/-- A record that carries no fingerprint of its targets. -/
def unprinted (step weight : Int) : CanaryStatus := { recordAt step weight with targetID := "" }

/-- Two canary groups, no run; the given records. -/
def unwrapped (router engine : Option CanaryStatus) : Service where
  groups := longBoth
  shape := wholeShape
  repin := none
  status := unitsAt router engine none

def bothPlan : List RolloutRunGroup := (pinnedRun longBoth).groups

theorem longBoth_admitted : Admitted wholeShape longBoth where
  members := by simp [longBoth, longEngine, canaryOn]
  valid := by decide

/-- The router at the first of two steps. -/
theorem router_is_adopted :
    ∃ run, reconcile (quietInputs (resting 1 1)) (unwrapped (some (unprinted 0 50)) none) =
        some (⟨false, true, true, true⟩,
          { unwrapped (some (unprinted 0 50)) none with status.activeRun := some run }) ∧
      PinsEach [.router, .engine] run.targetRevisions := by
  have composes : composePlan (quietInputs (resting 1 1)).env
      (unwrapped (some (unprinted 0 50)) none).shape
      (unwrapped (some (unprinted 0 50)) none).groups (quietInputs (resting 1 1)).live =
      .ok bothPlan := rfl
  obtain ⟨run, opens, _, _, pins⟩ := (adopts_iff_first_inFlight longBoth_admitted rfl rfl
    composes).mpr ⟨_, rfl, .router, rfl, unprinted 0 50, rfl, rfl, (by decide : (0 : Int) < 2)⟩
  exact ⟨run, opens, pins⟩

/-- **Another unit is not adopted.**  The engine is at the second of four steps, its one
Instance already on the target; the router has no record.  The pass opens nothing. -/
theorem second_unit_is_not_adopted :
    Admitted wholeShape longBoth ∧
    composePlan lengthDigests wholeShape longBoth noPolicies = .ok bothPlan ∧
    canaryOn [.engine] [10, 20, 50, 100] ∈ longBoth ∧
    InFlight (quietInputs (resting 1 1)) (unwrapped none (some (unprinted 1 20)))
      (canaryOn [.engine] [10, 20, 50, 100]) ∧
    reconcile (quietInputs (resting 1 1)) (unwrapped none (some (unprinted 1 20))) =
      some (.quiet, unwrapped none (some (unprinted 1 20))) := by
  refine ⟨longBoth_admitted, rfl, ?_,
    ⟨.engine, rfl, unprinted 1 20, rfl, rfl, (by decide : (1 : Int) < 4)⟩, rfl⟩
  simp [longBoth, longEngine]

end Ome.Rollout
