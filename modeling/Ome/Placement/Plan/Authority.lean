/-
# Ome.Placement.Plan.Authority — placement authority only moves forward

What holds of the stored plan in every interleaving of `Persist` calls, of other
writers of the status and of edits, and of the policy a member executes under
every delivery of the projected policies.

The invariant is about the calls alone (`Sound`): a call that is about to update
holds a read that is fresh, of the snapshot it planned from, and an allocation
numbered one above the plan it read.  Compare and swap turns this into what an
accepted update does to the stored plan (`Written`), and every property of the
store is read off that.

* `Written.revision`: the revision rises by one with the plan and never falls;
* `Written.snapshot`: a call whose snapshot is not the stored one writes nothing;
* `Intact`: the stored plan is identified by the digest of its own allocation, so
  that proposing it again returns it (`Intact.read`);
* `Sound.returned`: a call succeeds only with a verified allocation.
-/
import Ome.Placement.Plan.Store

namespace Ome.Placement.Plan

open Ome.Theory Ome.Placement.Protocol CandidatePlacement List

set_option autoImplicit false

variable {prepared : PlacementStatus} {value : InferenceService}

/-- The stored revision; zero without a plan. -/
def revisionOf (value : InferenceService) : Int := (planOf value).elim 0 PlanStatus.revision

/-- The identity of the stored plan. -/
def planIdentity (value : InferenceService) : Option (String × Int) :=
  (planOf value).map fun plan => (plan.id, plan.revision)

theorem sameSnapshot_fields {expected current : InferenceService}
    (same : sameSnapshot expected current = true) :
    expected.generation = current.generation ∧ expected.annotations = current.annotations ∧
      expected.labels = current.labels ∧ planIdentity expected = planIdentity current := by
  unfold sameSnapshot at same
  unfold planIdentity
  split at same
  · cases same
  · rename_i unchanged
    push Not at unchanged
    revert same
    cases planOf expected <;> cases planOf current <;> simp [unchanged]

/-! ## Merging keeps the allocation -/

@[simp] theorem mergeCandidate_entry (old : List CandidatePlacement) (mode : PlacementMode)
    (desired : CandidatePlacement) : (mergeCandidate old mode desired).entry = desired.entry := by
  have cluster : (mergeCandidate old mode desired).cluster = desired.cluster := by
    simp only [mergeCandidate]
    split
    · split <;> rfl
    · rename_i held
      push Not at held
      cases found : old.reverse.find? fun c => c.cluster = desired.cluster with
      | none =>
        rw [found] at held
        exact absurd rfl held.1
      | some kept => simpa using List.find?_some found
  exact congrArg (·, desired.allocation) cluster

theorem planOf_submitted (call : Call) (current stored : InferenceService) :
    planOf (call.submitted current stored) = call.allocation.plan := rfl

/-! ## What a call knows -/

/-- The allocation of a call is its prepared plan, numbered or not. -/
structure Call.Prepares (digest : PlacementStatus → String) (call : Call)
    (prepared : PlacementStatus) : Prop where
  prepares : prepare digest call.source call.proposal = .ok prepared
  digest_eq : call.digest = digest (identity prepared)
  allocation : ∃ id revision, call.allocation = numbered prepared id revision

/-- A call may replace `value`: it is the snapshot the call planned from, and the
allocation is numbered after its plan. -/
structure Call.Ready (call : Call) (value : InferenceService) : Prop where
  snapshot : sameSnapshot call.source value = true
  next : ∃ plan, call.allocation.plan = some plan ∧ plan.revision = revisionOf value + 1 ∧
    plan.id = planID call.digest plan.revision

/-- What a call has verified of the object it returns: it carries the allocation, or
carried the proposed plan before. -/
def Call.Verified (call : Call) (value : InferenceService) : Prop :=
  equalAllocation value.placement (some call.allocation) = true ∨
    (∃ plan, planOf value = some plan ∧ plan.id = planID call.digest plan.revision) ∧
      equivalent value.placement call.allocation = true

structure Sound (digest : PlacementStatus → String) (server : Versioned InferenceService)
    (past : List InferenceService) (call : Call) : Prop where
  prepares : (∀ e, call.phase ≠ .returned (.error e)) → ∃ prepared, call.Prepares digest prepared
  updating : ∀ current, call.phase = .updating current →
    server.Fresh current ∧ call.Ready current.value
  returned : ∀ value, call.phase = .returned (.ok value) → value ∈ past ∧ call.Verified value

variable {digest : PlacementStatus → String} {server : Versioned InferenceService}
  {past : List InferenceService} {call : Call}

theorem sound_fail (call : Call) (e : StoreError) : Sound digest server past (call.fail e) where
  prepares := fun running => absurd rfl (running e)
  updating := by
    intro current phase
    cases phase
  returned := by
    intro value phase
    cases phase

/-- A write of another party leaves a call what it knows. -/
theorem Sound.write (sound : Sound digest server past call) (value : InferenceService) :
    Sound digest (server.put value) (value :: past) call where
  prepares := sound.prepares
  updating := fun current phase => (sound.updating current phase).imp_left (·.put value)
  returned := fun returned phase =>
    (sound.returned returned phase).imp_left (mem_cons_of_mem _)

section

variable (prepares : call.Prepares digest prepared)
include prepares

theorem Call.Prepares.number (current : Versioned InferenceService) (revision : Int) :
    (call.number current revision).Prepares digest prepared := by
  obtain ⟨id, before, same⟩ := prepares.allocation
  refine ⟨prepares.prepares, prepares.digest_eq, planID call.digest revision, revision, ?_⟩
  rw [Call.number, same, numbered_numbered]

/-- A call with the revision after the plan it read may replace it. -/
theorem sound_number (snapshot : sameSnapshot call.source server.value = true) :
    Sound digest server past (call.number server (revisionOf server.value + 1)) where
  prepares := fun _ => ⟨prepared, prepares.number _ _⟩
  updating := by
    intro current phase
    cases phase
    obtain ⟨id, before, same⟩ := prepares.allocation
    obtain ⟨plan, held, -⟩ := (prepare_ok prepares.prepares).plan
    refine ⟨.refl _, snapshot, { plan with
      id := planID call.digest (revisionOf server.value + 1)
      revision := revisionOf server.value + 1 }, ?_, rfl, rfl⟩
    simp [Call.number, same, numbered, held]
  returned := by
    intro value phase
    cases phase

theorem sound_succeed (read : value ∈ past) (verified : call.Verified value) :
    Sound digest server past (call.succeed value) where
  prepares := fun _ => ⟨prepared, prepares.prepares, prepares.digest_eq, prepares.allocation⟩
  updating := by
    intro current phase
    cases phase
  returned := by
    intro returned phase
    cases phase
    exact ⟨read, verified⟩

end

theorem validateCall_ok {source : InferenceService} {proposal : Proposal} {status : PlacementStatus}
    (admitted : validateCall digest source proposal = .ok status) :
    prepare digest source proposal = .ok status := by
  rw [validateCall] at admitted
  split at admitted
  · cases admitted
  split at admitted
  · cases admitted
  cases prepared : prepare digest source proposal with
  | error e =>
    rw [prepared] at admitted
    cases admitted
  | ok prepared' =>
    rw [prepared] at admitted
    cases admitted
    rfl

theorem sound_start (source : InferenceService) (proposal : Proposal) :
    Sound digest server past (Call.start digest source proposal) := by
  rw [Call.start]
  split
  · exact sound_fail ⟨source, proposal, "", default, 0, .reading⟩ _
  · rename_i allocation admitted
    have prepared := validateCall_ok admitted
    obtain ⟨plan, held, id, revision, -⟩ := (prepare_ok prepared).plan
    refine ⟨fun _ => ⟨allocation, prepared, ?_, plan.id, plan.revision, ?_⟩, ?_, ?_⟩
    · rw [held]
      exact id
    · cases allocation
      cases held
      rfl
    · intro current phase
      cases phase
    · intro value phase
      cases phase

section

variable (sound : Sound digest server past call)
include sound

theorem sound_read (phase : call.phase = .reading)
    (current : server.value ∈ past) : Sound digest server past (call.read server) := by
  obtain ⟨prepared, prepares⟩ := sound.prepares (by simp [phase])
  rw [Call.read]
  split
  · exact sound_fail _ _
  rename_i same
  have snapshot : sameSnapshot call.source server.value = true := by simpa using same
  split
  · rename_i none
    have revision : revisionOf server.value = 0 := by rw [revisionOf, none]; rfl
    have numbered : Sound digest server past (call.number server (revisionOf server.value + 1)) :=
      sound_number prepares snapshot
    rwa [revision] at numbered
  rename_i previous held
  have revision : revisionOf server.value = previous.revision := by rw [revisionOf, held]; rfl
  split
  · rename_i identified
    split
    · rename_i equal
      exact sound_succeed prepares current (.inr ⟨⟨previous, held, identified⟩, equal⟩)
    · exact sound_fail _ _
  · split
    · exact sound_fail _ _
    · have numbered : Sound digest server past
          (call.number server (revisionOf server.value + 1)) :=
        sound_number prepares snapshot
      rwa [revision] at numbered

theorem sound_readBack (phase : call.phase = .readingBack)
    (current : server.value ∈ past) : Sound digest server past (call.readBack server.value) := by
  obtain ⟨prepared, prepares⟩ := sound.prepares (by simp [phase])
  rw [Call.readBack]
  split
  · split <;> exact sound_fail _ _
  split
  · exact sound_fail _ _
  · rename_i equal
    exact sound_succeed prepares current (.inl (Bool.eq_true_of_not_eq_false equal))

/-- The phases without a read to keep. -/
theorem Sound.rephase
    (running : ∀ e, call.phase ≠ .returned (.error e)) {phase : Phase} {attempts : Nat}
    (reading : ∀ current, phase ≠ .updating current)
    (pending : ∀ value, phase ≠ .returned (.ok value)) :
    Sound digest server past { call with attempts, phase } where
  prepares := by
    obtain ⟨prepared, prepares⟩ := sound.prepares running
    exact fun _ => ⟨prepared, prepares.prepares, prepares.digest_eq, prepares.allocation⟩
  updating := fun current held => absurd held (reading current)
  returned := fun value held => absurd held (pending value)

theorem sound_retry
    (running : ∀ e, call.phase ≠ .returned (.error e)) : Sound digest server past call.retry := by
  rw [Call.retry]
  split
  · exact sound_fail _ _
  · exact sound.rephase running (by simp) (by simp)

end

/-! ## The system -/

structure Consistent (digest : PlacementStatus → String) (s : System) : Prop where
  current : s.server.value ∈ s.past
  sound : ∀ i call, s.calls i = some call → Sound digest s.server s.past call

theorem consistent_initial (digest : PlacementStatus → String) (value : InferenceService) :
    Consistent digest (.initial value) where
  current := mem_singleton_self _
  sound := by
    intro i call running
    cases running

section Steps

variable {s s' : System} {actor : Actor}

section

variable (consistent : Consistent digest s)
include consistent

theorem Consistent.setCall (i : Nat) {call : Call}
    (sound : Sound digest s.server s.past call) : Consistent digest (s.setCall i call) where
  current := consistent.current
  sound := by
    intro j other running
    by_cases same : j = i
    · subst same
      rw [System.setCall_self] at running
      cases running
      exact sound
    · rw [System.setCall_of_ne _ _ same] at running
      exact consistent.sound j other running

theorem Consistent.write (value : InferenceService) :
    Consistent digest (s.write value) where
  current := mem_cons_self
  sound := fun i call running => (consistent.sound i call running).write value

/-- **Every access and every write keeps the calls sound.** -/
theorem Consistent.step (step : Step digest actor s s') : Consistent digest s' := by
  cases step with
  | start i source proposal _ _ => exact consistent.setCall i (sound_start source proposal)
  | read running phase =>
    exact consistent.setCall _ (sound_read (consistent.sound _ _ running) phase
      consistent.current)
  | update running phase _ =>
    refine (consistent.write _).setCall _ ?_
    exact ((consistent.sound _ _ running).write _).rephase (by simp [phase]) (by simp) (by simp)
  | conflict running phase _ =>
    exact consistent.setCall _ (sound_retry (consistent.sound _ _ running) (by simp [phase]))
  | lost _ _ _ => exact (consistent.write _).setCall _ (sound_fail _ _)
  | readBack running phase =>
    exact consistent.setCall _ (sound_readBack (consistent.sound _ _ running) phase
      consistent.current)
  | fail _ _ => exact consistent.setCall _ (sound_fail _ _)
  | status _ _ | edit _ _ => exact consistent.write _

theorem Consistent.run (run : Run digest s s') : Consistent digest s' :=
  Runs.invariant_of_run (fun _ _ before ⟨_, step⟩ => before.step step) run consistent

end

theorem Consistent.run_keeps (kept : System → Prop)
    (keeps : ∀ {t t' : System} {actor : Actor}, Consistent digest t → Step digest actor t t' →
      kept t → kept t')
    (consistent : Consistent digest s) (run : Run digest s s') (holds : kept s) : kept s' := by
  have both (t t' : System) (before : Consistent digest t ∧ kept t)
      (next : ∃ actor, Step digest actor t t') : Consistent digest t' ∧ kept t' := by
    obtain ⟨actor, step⟩ := next
    exact ⟨before.1.step step, keeps before.1 step before.2⟩
  exact (Runs.invariant_of_run both run ⟨consistent, holds⟩).2

/-- What a step does to the stored object. -/
inductive Written (digest : PlacementStatus → String) (s : System) :
    Actor → InferenceService → Prop
  | nothing (actor : Actor) : Written digest s actor s.server.value
  | status (placement : Option PlacementStatus)
      (keeps : KeepsPlan s.server.value.placement placement) :
      Written digest s .other { s.server.value with placement }
  | edit (value : InferenceService) (edits : Edits s.server.value value) :
      Written digest s .other value
  | plan {i : Nat} {call : Call} {prepared : PlacementStatus} (running : s.calls i = some call)
      (prepares : call.Prepares digest prepared) (ready : call.Ready s.server.value) :
      Written digest s (.call i) (call.submitted s.server.value s.server.value)

/-- An accepted update replaces exactly what its call read. -/
theorem Consistent.accepted (consistent : Consistent digest s) {i : Nat} {call : Call}
    {current : Versioned InferenceService} (running : s.calls i = some call)
    (phase : call.phase = .updating current) (accepted : current.version = s.server.version) :
    Written digest s (.call i) (call.submitted current.value s.server.value) := by
  have sound := consistent.sound i call running
  obtain ⟨prepared, prepares⟩ := sound.prepares (by simp [phase])
  obtain ⟨fresh, ready⟩ := sound.updating current phase
  have same := fresh.same accepted
  subst same
  exact .plan running prepares ready

theorem Step.written (consistent : Consistent digest s) (step : Step digest actor s s') :
    Written digest s actor s'.server.value := by
  cases step with
  | start i source proposal _ _ | read _ _ | conflict _ _ _ | readBack _ _
  | fail _ _ => exact .nothing _
  | update running phase accepted
  | lost running phase accepted => exact consistent.accepted running phase accepted
  | status placement keeps => exact .status placement keeps
  | edit value edits => exact .edit value edits

/-- **The revision rises by one with the plan** and stays otherwise. -/
theorem Written.revision (written : Written digest s actor value) :
    planOf value = planOf s.server.value ∨ revisionOf value = revisionOf s.server.value + 1 := by
  cases written with
  | nothing => exact .inl rfl
  | status placement keeps => exact .inl keeps.1
  | edit value edits => exact .inl (congrArg (Option.bind · _) edits.placement)
  | plan running prepares ready =>
    obtain ⟨plan, held, next, -⟩ := ready.next
    right
    rw [revisionOf, planOf_submitted, held]
    exact next

theorem Written.revision_le (written : Written digest s actor value) :
    revisionOf s.server.value ≤ revisionOf value := by
  rcases written.revision with same | next
  · rw [revisionOf, revisionOf, same]
  · omega

theorem revision_mono (consistent : Consistent digest s) (run : Run digest s s') :
    revisionOf s.server.value ≤ revisionOf s'.server.value :=
  Consistent.run_keeps (fun t => revisionOf s.server.value ≤ revisionOf t.server.value)
    (fun before step below => below.trans (step.written before).revision_le) consistent run le_rfl

/-- **A call whose snapshot is not the stored one writes nothing.** -/
theorem Step.fenced (consistent : Consistent digest s) {i : Nat} (step : Step digest (.call i) s s')
    {call : Call} (running : s.calls i = some call)
    (stale : sameSnapshot call.source s.server.value = false) : s'.server = s.server := by
  have unready {current : Versioned InferenceService} (phase : call.phase = .updating current)
      (accepted : current.version = s.server.version) : False := by
    obtain ⟨fresh, ready⟩ := (consistent.sound i call running).updating current phase
    have same := fresh.same accepted
    subst same
    rw [ready.snapshot] at stale
    cases stale
  cases step with
  | start i source proposal _ _ | read _ _ | conflict _ _ _ | readBack _ _ | fail _ _ => rfl
  | update running' phase accepted | lost running' phase accepted =>
    cases running.symm.trans running'
    exact (unready phase accepted).elim

end Steps

/-! ## Plans identified by their allocation -/

/-- What the identity of a status keeps of an entry. -/
def entryIdentity (entry : String × Option CandidateAllocation) :
    String × Option CandidateAllocation :=
  (entry.1, entry.2.map CandidateAllocation.identity)

/-- The candidate without observations of an entry. -/
def bareCandidate (entry : String × Option CandidateAllocation) : CandidatePlacement :=
  { (default : CandidatePlacement) with cluster := entry.1, allocation := entry.2 }

theorem identity_entries (status : PlacementStatus) :
    (identity status).candidates.map entry =
      (status.candidates.map entry).map entryIdentity := by
  simp only [identity, map_map]
  rfl

theorem identity_candidates (status : PlacementStatus) :
    (identity status).candidates =
      ((identity status).candidates.map entry).map bareCandidate := by
  simp only [identity, map_map]
  rfl

/-- Two plans in name order with one header and the same entries have one identity. -/
theorem identity_eq_of_perm {a b : PlacementStatus}
    (sorted : (a.candidates.map cluster).Pairwise (· < ·))
    (sorted' : (b.candidates.map cluster).Pairwise (· < ·))
    (plan : (identity a).plan = (identity b).plan)
    (perm : ((identity a).candidates.map entry).Perm
      ((identity b).candidates.map entry)) : identity a = identity b := by
  have ascending {c : PlacementStatus}
      (sorted : (c.candidates.map cluster).Pairwise (· < ·)) :
      ((identity c).candidates.map entry).Pairwise fun e f => e.1 < f.1 := by
    rw [identity_entries, map_map]
    exact pairwise_map.mpr (pairwise_map.mp sorted)
  have entries := List.Perm.eq_of_pairwise
    (fun e f _ _ before after => absurd (before.trans after) (lt_irrefl _))
    (ascending sorted) (ascending sorted') perm
  have candidates : (identity a).candidates = (identity b).candidates := by
    rw [identity_candidates a, identity_candidates b, entries]
  simp only [identity] at plan candidates ⊢
  rw [plan, candidates]

/-- The stored plan, if there is one, is a prepared plan identified by its digest. -/
def Intact (digest : PlacementStatus → String) (value : InferenceService) : Prop :=
  ∀ status plan, value.placement = some status → status.plan = some plan →
    ∃ source prepared, Prepared digest source prepared ∧
      plan.id = planID (digest (identity prepared)) plan.revision ∧
      (identity status).plan = (identity prepared).plan ∧
      (status.candidates.map entry).Perm
        (prepared.candidates.map entry)

theorem intact_of_none (none : planOf value = none) : Intact digest value := by
  intro status plan held planned
  rw [planOf, held] at none
  exact absurd (planned.symm.trans none) (by simp)

theorem Written.intact {s : System} {actor : Actor} (written : Written digest s actor value)
    (intact : Intact digest s.server.value) : Intact digest value := by
  cases written with
  | nothing => exact intact
  | status placement keeps =>
    intro status plan held planned
    change placement = some status at held
    subst held
    obtain ⟨kept, others⟩ := keeps
    -- The plan was there before, with these allocations.
    cases before : s.server.value.placement with
    | none =>
      rw [before] at kept
      exact absurd (planned.symm.trans kept) (by simp)
    | some earlier =>
      rw [before] at kept
      have planned' : earlier.plan = some plan := kept.symm.trans planned
      obtain ⟨after, unchanged, perm⟩ := others earlier before (by simp [planned'])
      cases unchanged
      obtain ⟨source, prepared, isPrepared, id, header, entries⟩ :=
        intact earlier plan before planned'
      refine ⟨source, prepared, isPrepared, id, ?_, perm.trans entries⟩
      rw [← header]
      simp only [identity, planned, planned']
  | edit value edits =>
    intro status plan held planned
    exact intact status plan (edits.placement ▸ held) planned
  | @plan i call prepared running prepares ready =>
    intro status plan held planned
    obtain ⟨id, revision, same⟩ := prepares.allocation
    obtain ⟨next, held', -, identified⟩ := ready.next
    cases held
    change call.allocation.plan = some plan at planned
    cases held'.symm.trans planned
    refine ⟨call.source, prepared, prepare_ok prepares.prepares, ?_, ?_, ?_⟩
    · rw [identified, prepares.digest_eq]
    · rw [← identity_numbered prepared id revision, ← same]
      rfl
    · refine .of_eq ?_
      have candidates : call.allocation.candidates = prepared.candidates := by
        rw [same, numbered_candidates]
      rw [← candidates, map_map]
      exact map_congr_left fun c _ => mergeCandidate_entry _ _ c

/-- **Proposing the stored plan again returns it.** -/
theorem Intact.read (intact : Intact digest server.value) (prepares : call.Prepares digest prepared)
    (snapshot : sameSnapshot call.source server.value = true)
    (proposed : equivalent server.value.placement prepared = true) :
    call.read server = call.succeed server.value := by
  obtain ⟨id, revision, same⟩ := prepares.allocation
  have again : equivalent server.value.placement call.allocation = true := by
    rw [← proposed, same]
    simp only [equivalent, identity_numbered]
  unfold equivalent at proposed
  split at proposed
  · cases proposed
  rename_i status held
  split at proposed
  · cases proposed
  rename_i plan planned
  split at proposed
  · cases proposed
  obtain ⟨header, -, perm⟩ := equalAllocation_iff.mp proposed
  obtain ⟨source, stored, isPrepared, identified, header', entries⟩ :=
    intact status plan held planned
  -- The stored plan and the proposed one were prepared with one identity.
  have one : identity stored = identity prepared := by
    refine identity_eq_of_perm isPrepared.sorted (prepare_ok prepares.prepares).sorted
      (header'.symm.trans header) ?_
    rw [identity_entries] at perm ⊢
    exact ((entries.symm.map _).trans perm)
  have previous : planOf server.value = some plan := by
    rw [planOf, held]
    exact planned
  rw [Call.read, if_neg (by simp [snapshot]), previous]
  simp only
  rw [if_pos (by rw [identified, one, prepares.digest_eq]), if_pos again]

/-! ## Authority -/

/-- What a success says of the returned object: it carries the proposed allocation,
or it carried the proposed plan before, which its identity decides. -/
def Returns (digest : PlacementStatus → String) (call : Call) (value : InferenceService) : Prop :=
  ∃ prepared, prepare digest call.source call.proposal = .ok prepared ∧
    ((∃ id revision,
        equalAllocation value.placement (some (numbered prepared id revision)) = true) ∨
      (∃ plan, planOf value = some plan ∧
        plan.id = planID (digest (identity prepared)) plan.revision) ∧
      equivalent value.placement prepared = true)

theorem Sound.returns (sound : Sound digest server past call)
    (phase : call.phase = .returned (.ok value)) : Returns digest call value := by
  obtain ⟨prepared, prepares⟩ := sound.prepares (by simp [phase])
  obtain ⟨id, revision, same⟩ := prepares.allocation
  refine ⟨prepared, prepares.prepares, ?_⟩
  rcases (sound.returned value phase).2 with equal | ⟨identified, stored⟩
  · exact .inl ⟨id, revision, same ▸ equal⟩
  · rw [prepares.digest_eq] at identified
    rw [same] at stored
    simp only [equivalent, identity_numbered] at stored
    exact .inr ⟨identified, stored⟩

/-- **Placement authority only moves forward.**  In every interleaving of calls from
past snapshots, of other writers of the status and of edits: the stored revision
never falls and rises by one with every new plan, which a call of the stored
snapshot wrote; a call of another snapshot writes nothing; proposing the stored plan
again returns it; and a call returns only what it read back and verified.  Under any
deliveries the policy of a member moves forward. -/
theorem placement_authority_moves_forward (digest : PlacementStatus → String)
    (start : InferenceService) {s : System} (run : Run digest (.initial start) s) :
    (∀ s', Run digest s s' → revisionOf s.server.value ≤ revisionOf s'.server.value) ∧
    (∀ actor s', Step digest actor s s' → planOf s'.server.value ≠ planOf s.server.value →
      revisionOf s'.server.value = revisionOf s.server.value + 1) ∧
    (∀ i call s', s.calls i = some call →
      (planIdentity call.source ≠ planIdentity s.server.value ∨
        call.source.generation ≠ s.server.value.generation ∨
        call.source.labels ≠ s.server.value.labels ∨
        call.source.annotations ≠ s.server.value.annotations) →
      Step digest (.call i) s s' → s'.server = s.server) ∧
    (Intact digest start → ∀ i call prepared, s.calls i = some call → call.phase = .reading →
      prepare digest call.source call.proposal = .ok prepared →
      sameSnapshot call.source s.server.value = true →
      equivalent s.server.value.placement prepared = true →
      call.read s.server = call.succeed s.server.value) ∧
    (∀ i call value, s.calls i = some call → call.phase = .returned (.ok value) →
      value ∈ s.past ∧ Returns digest call value) ∧
    ∀ earlier later : Option ExecutionPolicy, Relation.ReflTransGen Replaces earlier later →
      Forward earlier later := by
  have consistent : Consistent digest s := (consistent_initial digest start).run run
  refine ⟨fun s' later => revision_mono consistent later, ?_, ?_, ?_, ?_,
    fun earlier later => member_moves_forward⟩
  · intro actor s' step changed
    exact (step.written consistent).revision.resolve_left changed
  · intro i call s' running differs step
    refine step.fenced consistent running (Bool.eq_false_iff.mpr fun same => ?_)
    obtain ⟨generation, annotations, labels, plan⟩ := sameSnapshot_fields same
    rcases differs with differs | differs | differs | differs <;> contradiction
  · intro intact i call prepared running phase prepares snapshot proposed
    obtain ⟨other, isPrepared⟩ := (consistent.sound i call running).prepares (by simp [phase])
    cases isPrepared.prepares.symm.trans prepares
    have stored := Consistent.run_keeps (fun t => Intact digest t.server.value)
      (fun before step held => (step.written before).intact held)
      (consistent_initial digest start) run intact
    exact stored.read isPrepared snapshot proposed
  · intro i call value running phase
    have sound := consistent.sound i call running
    exact ⟨(sound.returned value phase).1, sound.returns phase⟩

/-! ## A plan proposed again with its minimum weights -/

/-- Any digest will do here; this one is the digest of the intent. -/
def intentDigest (status : PlacementStatus) : String := status.plan.elim "" PlanStatus.inputDigest

def freshService : InferenceService :=
  { uid := "source-a", generation := 1, deletionTimestamp := none, annotations := default
    labels := default, spec := some ⟨true, .split⟩, hasEngine := true, hasDecoder := false
    placement := none }

/-- Six replicas on one home of weight one. -/
def oneHome (minWeight : Option Int) : Proposal :=
  { mode := .unset, winner := "", singleMove := none, adoptionDigest := ""
    inputDigest := "intent-a", pauseSurge := false, originalUnassignedReplicas := 0
    unassignedReplicas := 0
    assignments := .ofList [("member-a",
      { (default : CandidateAllocation) with
        clusterUID := "registration-a", weight := some 1, minWeight, originalReplicas := 6
        currentReplicas := 6, desiredReplicas := 6 })] }

/-- The first call with what it read, and the object its update leaves. -/
def firstCall : Call :=
  (Call.start intentDigest freshService (oneHome none)).read ⟨freshService, 0⟩

def storedService : InferenceService := firstCall.submitted freshService freshService

/-- The same plan, now with the minimum weight that equals its weight. -/
def secondCall : Call := Call.start intentDigest storedService (oneHome (some 1))

/-- The first call has returned, the second is before its read. -/
def proposedAgain : System :=
  let s := ((System.initial freshService).setCall 0
    (Call.start intentDigest freshService (oneHome none))).setCall 0 firstCall
  let s := (s.write storedService).setCall 0 { firstCall with phase := .readingBack }
  let s := s.setCall 0 (Call.readBack { firstCall with phase := .readingBack } storedService)
  s.setCall 1 secondCall

theorem proposedAgain_run : Run intentDigest (.initial freshService) proposedAgain := by
  have started : (Call.start intentDigest freshService (oneHome none)).phase = .reading := by
    decide
  have updating : firstCall.phase = .updating ⟨freshService, 0⟩ := by decide
  exact .tail (.tail (.tail (.tail (.tail .refl
    ⟨.call 0, .start 0 freshService (oneHome none) mem_cons_self rfl⟩)
    ⟨.call 0, .read (System.setCall_self _ _ _) started⟩)
    ⟨.call 0, .update (System.setCall_self _ _ _) updating rfl⟩)
    ⟨.call 0, .readBack (System.setCall_self _ _ _) rfl⟩)
    ⟨.call 1, .start 1 storedService (oneHome (some 1)) mem_cons_self rfl⟩

/-- The second call returns the stored plan, with its identity and revision. -/
theorem proposedAgain_returns_stored : revisionOf proposedAgain.server.value = 1 ∧
    secondCall.read proposedAgain.server = secondCall.succeed proposedAgain.server.value := by
  obtain ⟨-, -, -, again, -⟩ :=
    placement_authority_moves_forward intentDigest freshService proposedAgain_run
  exact ⟨by decide, again (intact_of_none rfl) 1 secondCall secondCall.allocation
    (System.setCall_self _ _ _) (by decide) (by decide) (by decide) (by decide)⟩

/-- **A success may return less than was proposed**: the second call succeeds with the
plan stored before, which has no minimum weight. -/
theorem secondCall_returns_other_allocation : ∃ s call value prepared,
    Run intentDigest (.initial freshService) s ∧ s.calls 1 = some call ∧
      call.phase = .returned (.ok value) ∧
      prepare intentDigest call.source call.proposal = .ok prepared ∧
      ∀ id revision, equalAllocation value.placement (some (numbered prepared id revision)) =
        false := by
  have again : secondCall.phase = .reading := by decide
  refine ⟨_, secondCall.read ⟨storedService, 1⟩, storedService, secondCall.allocation,
    .tail proposedAgain_run ⟨.call 1, .read (System.setCall_self _ _ _) again⟩,
    System.setCall_self _ _ _, by decide, by decide, fun id revision => ?_⟩
  rw [Bool.eq_false_iff]
  intro equal
  obtain ⟨status, held⟩ : ∃ status, storedService.placement = some status := ⟨_, rfl⟩
  rw [held] at equal
  obtain ⟨-, -, perm⟩ := equalAllocation_iff.mp equal
  rw [numbered_candidates] at perm
  cases held
  exact absurd perm (by decide)

end Ome.Placement.Plan
