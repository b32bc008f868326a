/-
# Ome.Canary.Passes — the parts of a pass

Most parts of a pass leave the record where it is (`Still`, and `Kept` where the pass goes
on).  The rest works on the promote annotations: three loops over the two promote keys
converge the record with them (`Synced`), record the promote that stands (`Recorded`) and
spend promotes on a hold (`Released`).
-/
import Ome.Canary.Reconcile
import Ome.Theory.Loops

namespace Ome.Canary

open Ome.Theory List GoMap

set_option autoImplicit false

variable {p : Armed} {done : List Verb} {key : Verb} {work : Armed × Bool}

/-! ## Parts that leave the record where it is -/

/-- Where the record stands in its rollout, and how many gates were opened. -/
def Armed.place (p : Armed) :=
  (p.record.canaryRevisionHash, p.record.targetID, p.record.currentStep, p.record.stepEnteredTime,
    p.record.promotedThrough, p.record.preStepHold, p.opened)

structure Stays (p p' : Armed) : Prop where
  place : p'.place = p.place

/-- The pass goes on with the record where it was. -/
structure Kept (p p' : Armed) : Prop extends Stays p p' where
  weight : p'.record.observedTrafficWeight = p.record.observedTrafficWeight
  rejected : p'.record.rolledBackRevisionHash = p.record.rolledBackRevisionHash
  annotations : p'.annotations = p.annotations

/-- The record stays where it was, though its traffic may go back and its revision may be
rejected. -/
structure Still (p p' : Armed) : Prop extends Stays p p' where
  weight : p'.record.observedTrafficWeight = p.record.observedTrafficWeight ∨
    p'.record.observedTrafficWeight = 0
  rejected : p'.record.rolledBackRevisionHash = p.record.rolledBackRevisionHash ∨
    p'.record.rolledBackRevisionHash = p.record.canaryRevisionHash

namespace Stays

variable {p' : Armed} (stays : Stays p p')
include stays

theorem hash : p'.record.canaryRevisionHash = p.record.canaryRevisionHash :=
  congrArg (·.1) stays.place

theorem target : p'.record.targetID = p.record.targetID := congrArg (·.2.1) stays.place

theorem step : p'.record.currentStep = p.record.currentStep := congrArg (·.2.2.1) stays.place

theorem entered : p'.record.stepEnteredTime = p.record.stepEnteredTime :=
  congrArg (·.2.2.2.1) stays.place

theorem promoted : p'.record.promotedThrough = p.record.promotedThrough :=
  congrArg (·.2.2.2.2.1) stays.place

theorem hold : p'.record.preStepHold = p.record.preStepHold :=
  congrArg (·.2.2.2.2.2.1) stays.place

theorem opened : p'.opened = p.opened := congrArg (·.2.2.2.2.2.2) stays.place

theorem trans {p'' : Armed} (next : Stays p' p'') : Stays p p'' := ⟨next.place.trans stays.place⟩

end Stays

theorem Kept.refl (p : Armed) : Kept p p := ⟨⟨rfl⟩, rfl, rfl, rfl⟩

theorem Kept.trans {p' p'' : Armed} (first : Kept p p') (second : Kept p' p'') : Kept p p'' :=
  ⟨first.toStays.trans second.toStays, second.weight.trans first.weight,
    second.rejected.trans first.rejected, second.annotations.trans first.annotations⟩

theorem Kept.still {p' : Armed} (kept : Kept p p') : Still p p' :=
  ⟨kept.toStays, Or.inl kept.weight, Or.inl kept.rejected⟩

theorem Still.trans {p' p'' : Armed} (first : Still p p') (second : Still p' p'') :
    Still p p'' where
  toStays := first.toStays.trans second.toStays
  weight := by
    rcases second.weight with same | zero
    · rw [same]
      exact first.weight
    · exact Or.inr zero
  rejected := by
    rcases second.rejected with same | rejects
    · rw [same]
      exact first.rejected
    · exact Or.inr (rejects.trans first.hash)

section Parts

variable (plan : GroupCanary) (inp : ReconcileInputs) (step : RolloutGroupStep) (p : Armed)

theorem kept_setPhase (phase : RolloutPhase) : Kept p (p.setPhase phase) :=
  ⟨⟨rfl⟩, rfl, rfl, rfl⟩

theorem kept_splitTraffic (weight : Int) : Kept p (splitTraffic inp weight p) :=
  ⟨⟨rfl⟩, rfl, rfl, rfl⟩

theorem kept_holdGroupTraffic : Kept p (holdGroupTraffic inp p) := by
  unfold holdGroupTraffic heldTraffic
  split
  · exact kept_splitTraffic inp p _
  · exact Kept.refl p

theorem kept_backfillStable : Kept p (backfillStable inp p) := by
  unfold backfillStable
  split
  · exact ⟨⟨rfl⟩, rfl, rfl, rfl⟩
  · exact Kept.refl p

theorem kept_releaseRequest : Kept p (releaseRequest inp p) := by
  unfold releaseRequest
  split
  · exact ⟨⟨rfl⟩, rfl, rfl, rfl⟩
  · exact Kept.refl p

theorem kept_capacityClock (short forced : Bool) : Kept p (capacityClock inp short forced p) := by
  unfold capacityClock
  cases forced with
  | true =>
    simp only [if_true, Bool.true_eq_false, false_and, and_false, if_false]
    exact ⟨⟨rfl⟩, rfl, rfl, rfl⟩
  | false =>
    simp only [Bool.false_eq_true, if_false]
    split
    · exact ⟨⟨rfl⟩, rfl, rfl, rfl⟩
    · exact Kept.refl p

theorem kept_consumeSample (a : RolloutAnalysis) (sample : Sample) :
    Kept p (consumeSample plan inp step a sample p).2 := by
  unfold consumeSample
  simp only
  split <;> exact ⟨⟨rfl⟩, rfl, rfl, rfl⟩

theorem kept_evaluateStep : Kept p (evaluateStep plan inp step p).2 := by
  unfold evaluateStep
  split
  · exact Kept.refl p
  · split
    · unfold evaluateAnalysisStep
      split
      · exact Kept.refl p
      · split
        · exact Kept.refl p
        · split
          · exact Kept.refl p
          · exact kept_consumeSample plan inp step p _ _
    · exact Kept.refl p
    · exact Kept.refl p

theorem still_take (verb : Verb) : Still p (p.take verb) :=
  ⟨⟨rfl⟩, Or.inl rfl, Or.inl rfl⟩

theorem still_zeroTraffic : Still p (recordTrafficWeight p 0) :=
  ⟨⟨rfl⟩, Or.inr rfl, Or.inl rfl⟩

theorem still_returnTrafficToStable : Still p (returnTrafficToStable inp p) := by
  unfold returnTrafficToStable
  split
  · exact (kept_splitTraffic inp p 0).still.trans (still_zeroTraffic _)
  · exact (Kept.refl p).still

theorem still_parkFailed (reason : CanaryFailureReason) : Still p (parkFailed inp reason p) :=
  ⟨⟨rfl⟩, Or.inl rfl, Or.inl rfl⟩

theorem still_ignoreForce : Still p (ignoreForce p) := by
  unfold ignoreForce
  split
  · exact still_take p _
  · exact (Kept.refl p).still

theorem still_ignoreRollback (cs : Option CanaryStatus) : Still p (ignoreRollback inp cs p) := by
  unfold ignoreRollback
  split
  · exact still_take p _
  · exact (Kept.refl p).still

theorem still_refuseRollback : Still p (refuseRollback inp p) := by
  unfold refuseRollback
  split
  · exact still_ignoreRollback inp p _
  · exact (Kept.refl p).still

theorem still_reconcileRollback : Still p (reconcileRollback inp p).2 := by
  unfold reconcileRollback
  simp only
  split
  · exact ⟨⟨rfl⟩, Or.inr rfl, Or.inl rfl⟩
  · exact (kept_setPhase p _).still

theorem still_rollBackOnGateFailure : Still p (rollBackOnGateFailure inp p).2 := by
  unfold rollBackOnGateFailure
  split
  · exact (kept_holdGroupTraffic inp p).still.trans (still_parkFailed inp _ _)
  · have rejects : Still p
        { p with record.rolledBackRevisionHash := p.record.canaryRevisionHash } :=
      ⟨⟨rfl⟩, Or.inl rfl, Or.inr rfl⟩
    exact rejects.trans (still_reconcileRollback inp _)

theorem still_finishCutover : Still p (finishCutover inp p).2 := by
  have forgets : Still p { p with record.stableRevisionHash := "" } :=
    ⟨⟨rfl⟩, Or.inl rfl, Or.inl rfl⟩
  -- a unit that reads Stable drops its stable identity first
  have drops : Still p
      (if p.phase = .stable then { p with record.stableRevisionHash := "" } else p) := by
    split
    · exact forgets
    · exact (Kept.refl p).still
  unfold finishCutover
  simp only
  refine drops.trans ?_
  generalize (if p.phase = .stable then { p with record.stableRevisionHash := "" } else p : Armed)
    = q
  split
  · exact (kept_setPhase q _).still
  · split
    · exact (kept_setPhase q _).still
    · exact ⟨⟨rfl⟩, Or.inl rfl, Or.inl rfl⟩

end Parts

/-! ## The promote annotations -/

variable (annotations : GoMap Verb String)

/-- A promote key carries the value. -/
def Carries (value : String) : Prop :=
  ∃ key ∈ promoteKeys, key ∈ annotations.keys ∧ annotations.get key = value

/-- No promote key carries another value. -/
def Unmixed (value : String) : Prop :=
  ∀ key ∈ promoteKeys, key ∈ annotations.keys → annotations.get key = value

/-- Two copies of the annotations show the same promotes. -/
def SamePromotes (annotations annotations' : GoMap Verb String) : Prop :=
  ∀ key ∈ promoteKeys, (key ∈ annotations'.keys ↔ key ∈ annotations.keys) ∧
    annotations'.get key = annotations.get key

theorem SamePromotes.refl :
    SamePromotes annotations annotations := fun _ _ => ⟨Iff.rfl, rfl⟩

theorem SamePromotes.trans {a a' a'' : GoMap Verb String} (first : SamePromotes a a')
    (second : SamePromotes a' a'') : SamePromotes a a'' := fun key isKey =>
  ⟨(second key isKey).1.trans (first key isKey).1, (second key isKey).2.trans (first key isKey).2⟩

theorem SamePromotes.carries {a a' : GoMap Verb String} (same : SamePromotes a a')
    {value : String} : Carries a' value ↔ Carries a value := by
  constructor
  · rintro ⟨key, isKey, present, reads⟩
    exact ⟨key, isKey, (same key isKey).1.mp present, (same key isKey).2 ▸ reads⟩
  · rintro ⟨key, isKey, present, reads⟩
    exact ⟨key, isKey, (same key isKey).1.mpr present, (same key isKey).2.trans reads⟩

theorem samePromotes_erase {verb : Verb} (other : verb ∉ promoteKeys) :
    SamePromotes annotations (annotations.erase verb) := by
  intro key isKey
  have apart : key ≠ verb := fun same => other (same ▸ isKey)
  refine ⟨?_, ?_⟩
  · rw [mem_keys_erase]
    exact ⟨fun both => both.1, fun present => ⟨present, apart⟩⟩
  · rw [get_erase, if_neg apart]

theorem shouldAdvanceManual_iff (p : Armed) : shouldAdvanceManual p = true ↔
    Carries p.annotations p.record.canaryRevisionHash ∧
      p.record.canaryRevisionHash ≠ p.record.promotedThrough := by
  simp only [shouldAdvanceManual, promoteMatches, Bool.or_eq_true, decide_eq_true_eq]
  constructor
  · rintro (⟨present, reads, fresh⟩ | ⟨present, reads, fresh⟩)
    · exact ⟨⟨.promote, by simp [promoteKeys], present, reads⟩, reads ▸ fresh⟩
    · exact ⟨⟨.promoteForce, by simp [promoteKeys], present, reads⟩, reads ▸ fresh⟩
  · rintro ⟨⟨key, isKey, present, reads⟩, fresh⟩
    have fresh' : p.annotations.get key ≠ p.record.promotedThrough := reads ▸ fresh
    simp only [promoteKeys, mem_cons, not_mem_nil, or_false] at isKey
    rcases isKey with rfl | rfl
    · exact Or.inl ⟨present, reads, fresh'⟩
    · exact Or.inr ⟨present, reads, fresh'⟩

/-- What a loop over the promote keys leaves of the annotations: those it has not read, and
of those it has read the ones it did not take. -/
structure Reads (before after : GoMap Verb String) (done : List Verb) (takes : String → Prop) :
    Prop where
  ahead : ∀ key ∉ done, (key ∈ after.keys ↔ key ∈ before.keys) ∧ after.get key = before.get key
  behind : ∀ key ∈ done, key ∈ after.keys → key ∈ before.keys ∧
    after.get key = before.get key ∧ ¬ takes (before.get key)

namespace Reads

variable {before after : GoMap Verb String} {takes : String → Prop}

theorem start : Reads before before [] takes := ⟨fun _ _ => ⟨Iff.rfl, rfl⟩, by simp⟩

theorem take (reads : Reads before after done takes) :
    Reads before (after.erase key) (done ++ [key]) takes where
  ahead := by
    intro other unread
    simp only [mem_append, mem_singleton, not_or] at unread
    obtain ⟨present, value⟩ := reads.ahead other unread.1
    rw [mem_keys_erase, get_erase, if_neg unread.2, value]
    exact ⟨⟨fun both => present.mp both.1, fun isThere => ⟨present.mpr isThere, unread.2⟩⟩, rfl⟩
  behind := by
    intro other read present
    rw [mem_keys_erase] at present
    rw [get_erase, if_neg present.2]
    rcases mem_append.mp read with earlier | here
    · exact reads.behind other earlier present.1
    · exact absurd (mem_singleton.mp here) present.2

theorem leave (reads : Reads before after done takes) (unread : key ∉ done)
    (leaves : key ∈ before.keys → ¬ takes (before.get key)) :
    Reads before after (done ++ [key]) takes where
  ahead := by
    intro other unread'
    simp only [mem_append, mem_singleton, not_or] at unread'
    exact reads.ahead other unread'.1
  behind := by
    intro other read present
    rcases mem_append.mp read with earlier | here
    · exact reads.behind other earlier present
    · obtain rfl := mem_singleton.mp here
      obtain ⟨isThere, value⟩ := reads.ahead other unread
      exact ⟨isThere.mp present, value, leaves (isThere.mp present)⟩

end Reads

theorem promoteKeys_unread {rest : List Verb}
    (split : promoteKeys = done ++ key :: rest) : key ∉ done := by
  have distinct : promoteKeys.Nodup := by decide
  rw [split, nodup_append] at distinct
  intro member
  exact distinct.2.2 key member key (by simp) rfl

/-! ### Converging the record with the annotations -/

/-- The loop that takes the applied promotes, after some keys. -/
structure SyncLoop (p : Armed) (done : List Verb) (work : Armed × Bool) : Prop where
  record : work.1.record = p.record
  opened : work.1.opened = p.opened
  reads : Reads p.annotations work.1.annotations done (· = p.record.promotedThrough)
  gone : work.2 = false → ∀ key ∈ done, key ∈ p.annotations.keys →
    p.annotations.get key ≠ p.record.promotedThrough

theorem SyncLoop.round (loop : SyncLoop p done work) (unread : key ∉ done) :
    SyncLoop p (done ++ [key]) (syncKey work key) := by
  obtain ⟨q, lingering⟩ := work
  obtain ⟨record, opened, reads, gone⟩ := loop
  obtain ⟨isThere, value⟩ := reads.ahead key unread
  dsimp only at record opened reads gone isThere value
  unfold syncKey
  simp only [record, isThere, value]
  by_cases carries : key ∈ p.annotations.keys ∧
      p.annotations.get key = p.record.promotedThrough
  · rw [if_pos carries]
    exact ⟨record, opened, reads.take, by simp⟩
  · rw [if_neg carries]
    have leaves : key ∈ p.annotations.keys →
        p.annotations.get key ≠ p.record.promotedThrough :=
      fun present same => carries ⟨present, same⟩
    refine ⟨record, opened, reads.leave unread leaves, fun none other read => ?_⟩
    rcases mem_append.mp read with earlier | here
    · exact gone none other earlier
    · obtain rfl := mem_singleton.mp here
      exact leaves

/-- The record with another promote on it. -/
def CanaryStatus.promotedBy (cs : CanaryStatus) (value : String) : CanaryStatus :=
  { cs with promotedThrough := value }

/-- A record whose promotes were converged with the annotations. -/
structure Synced (p p' : Armed) : Prop where
  record : p'.record = p.record.promotedBy p'.record.promotedThrough
  opened : p'.opened = p.opened
  promoted : p'.record.promotedThrough = p.record.promotedThrough ∨
    ¬ Carries p.annotations p.record.promotedThrough
  fewer : ∀ key ∈ promoteKeys, key ∈ p'.annotations.keys → key ∈ p.annotations.keys ∧
    p'.annotations.get key = p.annotations.get key ∧
    (p.record.promotedThrough = "" ∨ p.annotations.get key ≠ p.record.promotedThrough)

theorem synced_syncPromotedThrough (p : Armed) : Synced p (syncPromotedThrough p) := by
  unfold syncPromotedThrough
  split
  · rename_i none
    exact ⟨rfl, rfl, Or.inl rfl,
      fun key _ present => ⟨present, rfl, Or.inl none⟩⟩
  · have loop : SyncLoop p promoteKeys (promoteKeys.foldl syncKey (p, false)) :=
      foldl_along (SyncLoop p) ⟨rfl, rfl, Reads.start, by simp⟩
        fun done key rest work split loop => loop.round (promoteKeys_unread split)
    generalize promoteKeys.foldl syncKey (p, false) = work at loop
    obtain ⟨q, lingering⟩ := work
    obtain ⟨record, opened, reads, gone⟩ := loop
    dsimp only at record opened reads gone ⊢
    have fewer : ∀ key ∈ promoteKeys, key ∈ q.annotations.keys → key ∈ p.annotations.keys ∧
        q.annotations.get key = p.annotations.get key ∧
        (p.record.promotedThrough = "" ∨ p.annotations.get key ≠ p.record.promotedThrough) :=
      fun key isKey present =>
        ⟨(reads.behind key isKey present).1, (reads.behind key isKey present).2.1,
          Or.inr (reads.behind key isKey present).2.2⟩
    cases lingering with
    | true =>
      rw [if_pos rfl]
      exact ⟨by rw [record]; rfl, opened, Or.inl (by rw [record]), fewer⟩
    | false =>
      have none : ¬ Carries p.annotations p.record.promotedThrough := by
        rintro ⟨key, isKey, present, same⟩
        exact gone rfl key isKey present same
      rw [if_neg (by decide)]
      exact ⟨by rw [record]; rfl, opened, Or.inr none, fewer⟩

/-! ### Recording a promote -/

/-- The loop that records the promote that stands, after some keys. -/
structure RecordLoop (p : Armed) (done : List Verb) (work : Armed × Bool) : Prop where
  record : work.1.record = p.record.promotedBy work.1.record.promotedThrough
  opened : work.1.opened = p.opened
  reads : Reads p.annotations work.1.annotations done (fun _ => True)
  isLive : work.2 = true → work.1.record.promotedThrough = p.record.canaryRevisionHash
  found : ∀ key ∈ done, key ∈ p.annotations.keys →
    p.annotations.get key = p.record.canaryRevisionHash → work.2 = true
  none : (∀ key ∈ done, key ∉ p.annotations.keys) →
    work.1.record.promotedThrough = p.record.promotedThrough

/-- One annotation key: a promote for the current revision wins over any other. -/
theorem RecordLoop.round (loop : RecordLoop p done work) (unread : key ∉ done) :
    RecordLoop p (done ++ [key]) (recordKey work key) := by
  obtain ⟨q, live⟩ := work
  obtain ⟨record, opened, reads, isLive, found, none⟩ := loop
  obtain ⟨isThere, value⟩ := reads.ahead key unread
  dsimp only at record opened reads isLive found none isThere value
  have hash : q.record.canaryRevisionHash = p.record.canaryRevisionHash := by
    rw [record]
    rfl
  have writes (v : String) : q.record.promotedBy v = p.record.promotedBy v := by
    rw [record]
    rfl
  have shows : q.annotations.get key = q.record.canaryRevisionHash ↔
      p.annotations.get key = p.record.canaryRevisionHash := by rw [value, hash]
  unfold recordKey
  simp only [isThere, shows]
  by_cases present : key ∈ p.annotations.keys
  · rw [if_pos present]
    have last {motive : Prop} (each : ∀ other ∈ done ++ [key], other ∉ p.annotations.keys) :
        motive := absurd present (each key (by simp))
    by_cases carries : p.annotations.get key = p.record.canaryRevisionHash
    · rw [if_pos carries]
      exact ⟨writes _, opened, reads.take, fun _ => value.trans carries, fun _ _ _ _ => rfl, last⟩
    · rw [if_neg carries]
      have found' : ∀ other ∈ done ++ [key], other ∈ p.annotations.keys →
          p.annotations.get other = p.record.canaryRevisionHash → live = true := by
        intro other read present' same
        rcases mem_append.mp read with earlier | here
        · exact found other earlier present' same
        · exact absurd (mem_singleton.mp here ▸ same) carries
      -- a live promote that was found before is not overwritten
      cases live with
      | true =>
        rw [if_neg (by decide)]
        exact ⟨record, opened, reads.take, isLive, fun _ _ _ _ => rfl, last⟩
      | false =>
        rw [if_pos rfl]
        exact ⟨writes _, opened, reads.take, nofun, found', last⟩
  · rw [if_neg present]
    refine ⟨record, opened, reads.leave unread (fun isHere => absurd isHere present), isLive,
      fun other read present' same => ?_, fun each => ?_⟩
    · rcases mem_append.mp read with earlier | here
      · exact found other earlier present' same
      · exact absurd (mem_singleton.mp here ▸ present') present
    · exact none fun other earlier => each other (mem_append_left _ earlier)

/-- A record in which the promote that stands was recorded. -/
structure Recorded (p p' : Armed) : Prop where
  record : p'.record = p.record.promotedBy p'.record.promotedThrough
  opened : p'.opened = p.opened
  live : Carries p.annotations p.record.canaryRevisionHash →
    p'.record.promotedThrough = p.record.canaryRevisionHash
  none : (∀ key ∈ promoteKeys, key ∉ p.annotations.keys) →
    p'.record.promotedThrough = p.record.promotedThrough

theorem recorded_recordPromotes (p : Armed) : Recorded p (recordPromotes p) := by
  have loop : RecordLoop p promoteKeys (promoteKeys.foldl recordKey (p, false)) :=
    foldl_along (RecordLoop p) ⟨rfl, rfl, Reads.start, nofun, by simp, fun _ => rfl⟩
      fun done key rest work split loop => loop.round (promoteKeys_unread split)
  refine ⟨loop.record, loop.opened, ?_, loop.none⟩
  rintro ⟨key, isKey, present, same⟩
  exact loop.isLive (loop.found key isKey present same)

/-! ### Releasing the hold -/

/-- The record after a promote released its hold. -/
def CanaryStatus.released (cs : CanaryStatus) : CanaryStatus :=
  { cs with
    preStepHold := false
    promotedThrough := cs.canaryRevisionHash }

/-- The loop that spends promotes on the hold, after some keys. -/
structure ReleaseLoop (p : Armed) (done : List Verb) (work : Armed × Bool) : Prop where
  reads : Reads p.annotations work.1.annotations done (· = p.record.canaryRevisionHash)
  outcome : work = (p, false) ∨ work.2 = true ∧ work.1.record = p.record.released ∧
    work.1.opened = p.opened ∧
    ∃ key ∈ done, p.annotations.get key = p.record.canaryRevisionHash

theorem ReleaseLoop.round (loop : ReleaseLoop p done work) (unread : key ∉ done) :
    ReleaseLoop p (done ++ [key]) (releaseKey work key) := by
  obtain ⟨q, released⟩ := work
  obtain ⟨reads, outcome⟩ := loop
  obtain ⟨isThere, value⟩ := reads.ahead key unread
  dsimp only at reads isThere value
  have hash : q.record.canaryRevisionHash = p.record.canaryRevisionHash := by
    rcases outcome with same | ⟨_, record, _⟩
    · rw [(Prod.mk.inj same).1]
    · rw [record]
      rfl
  have releases : q.record.released = p.record.released ∧ q.opened = p.opened := by
    rcases outcome with same | ⟨_, record, opened, _⟩
    · rw [(Prod.mk.inj same).1]
      exact ⟨rfl, rfl⟩
    · refine ⟨?_, opened⟩
      rw [record]
      rfl
  have shows : q.annotations.get key ≠ q.record.canaryRevisionHash ↔
      p.annotations.get key ≠ p.record.canaryRevisionHash := by rw [value, hash]
  unfold releaseKey
  simp only [shows]
  by_cases carries : p.annotations.get key = p.record.canaryRevisionHash
  · rw [if_neg (not_not.mpr carries)]
    exact ⟨reads.take, Or.inr ⟨rfl, releases.1, releases.2, key, by simp, carries⟩⟩
  · rw [if_pos carries]
    refine ⟨reads.leave unread fun _ => carries, ?_⟩
    rcases outcome with same | ⟨released, record, opened, other, earlier, same⟩
    · exact Or.inl same
    · exact Or.inr ⟨released, record, opened, other, mem_append_left _ earlier, same⟩

/-- A hold that a promote released: every key that carries the hash was spent on it. -/
structure Released (p p' : Armed) : Prop where
  record : p'.record = p.record.released
  opened : p'.opened = p.opened
  byPromote : ∃ key ∈ promoteKeys, p.annotations.get key = p.record.canaryRevisionHash
  fewer : ∀ key ∈ promoteKeys, key ∈ p'.annotations.keys → key ∈ p.annotations.keys ∧
    p'.annotations.get key = p.annotations.get key ∧
    p.annotations.get key ≠ p.record.canaryRevisionHash

theorem releaseHold_cases (p : Armed) :
    ((releaseHold p).2 = true ∧ Released p (releaseHold p).1) ∨
      releaseHold p = (p, false) := by
  have loop : ReleaseLoop p promoteKeys (releaseHold p) :=
    foldl_along (ReleaseLoop p) ⟨Reads.start, Or.inl rfl⟩
      fun done key rest work split loop => loop.round (promoteKeys_unread split)
  rcases loop.outcome with same | ⟨released, record, opened, byPromote⟩
  · exact Or.inr same
  · exact Or.inl ⟨released, record, opened, byPromote, fun key isKey present =>
      loop.reads.behind key isKey present⟩

end Ome.Canary
