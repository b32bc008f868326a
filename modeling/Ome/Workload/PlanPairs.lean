/-
# Ome.Workload.PlanPairs — what the scans of a plan read

What the rows say about their surge pairs, without the sets of the source: which rows
are halves of a pair in flight (`Pinned`), which sources only wait for their removal
(`Retires`), which rows follow a failed source (`Follows`), and which are left to fill
the count (`Steady`).  Where no index is claimed twice and no claimed row claims another
(`WellClaimed`), the selection that `readIndexSelection` builds says the same (`Reading`).
-/
import Ome.Theory.Loops
import Ome.Theory.Rank
import Ome.Workload.Plan

namespace Ome.Workload

open Ome.Theory Function IndexSelection List

set_option autoImplicit false

variable {s t x : InstanceStatus} {i : Int}

/-! ## Pairs -/

section Pairs

variable (rows : List InstanceStatus)

/-- A gang surge whose source has failed and whose claim keeps nothing: its index is free
or holds the marker. -/
def FailedGang (s : InstanceStatus) : Prop :=
  s.phase = .failed ∧ gangSurge s ∧
    ∀ t ∈ rows, replacementOf s = some t.index → gangSurgeTargetMarker t

instance (s : InstanceStatus) : Decidable (FailedGang rows s) :=
  inferInstanceAs (Decidable (_ ∧ _ ∧ _))

/-- The replacement of a source is proven promoted. -/
def Promoted (source target : InstanceStatus) : Prop := replacementPromoted source target 1 = true

instance (source target : InstanceStatus) : Decidable (Promoted source target) :=
  inferInstanceAs (Decidable (_ = _))

/-- A source whose replacement is proven promoted. -/
def Retires (s : InstanceStatus) : Prop := ∃ t ∈ rows, Promoted s t

instance (s : InstanceStatus) : Decidable (Retires rows s) :=
  inferInstanceAs (Decidable (∃ t ∈ rows, _))

/-- The source of a live gang surge. -/
def LiveGang (s : InstanceStatus) : Prop := gangSurge s ∧ ¬ FailedGang rows s

instance (s : InstanceStatus) : Decidable (LiveGang rows s) := inferInstanceAs (Decidable (_ ∧ _))

/-- Half of a surge pair in flight whose replacement is not proven promoted. -/
def Pinned (s : InstanceStatus) : Prop :=
  (migrationPinned s ∨ LiveGang rows s) ∧ ¬ Retires rows s ∨
    ∃ source ∈ rows, replacementOf source = some s.index ∧ ¬ FailedGang rows source ∧
      ¬ Promoted source s

instance (s : InstanceStatus) : Decidable (Pinned rows s) := inferInstanceAs (Decidable (_ ∨ _))

/-- The half of such a pair that is charged to the count. -/
def PairSource (s : InstanceStatus) : Prop :=
  (s.phase = .migrating ∨ LiveGang rows s) ∧ ¬ Retires rows s

instance (s : InstanceStatus) : Decidable (PairSource rows s) :=
  inferInstanceAs (Decidable (_ ∧ _))

/-- The replacement row of a failed gang surge. -/
def Follows (s : InstanceStatus) : Prop :=
  ∃ source ∈ rows, FailedGang rows source ∧ replacementOf source = some s.index

instance (s : InstanceStatus) : Decidable (Follows rows s) :=
  inferInstanceAs (Decidable (∃ source ∈ rows, _))

/-- A row that fills the count by its rank. -/
def Steady (s : InstanceStatus) : Prop :=
  ¬ Pinned rows s ∧ ¬ Retires rows s ∧ ¬ Follows rows s

instance (s : InstanceStatus) : Decidable (Steady rows s) := inferInstanceAs (Decidable (_ ∧ _))

/-- The rank of a row; a failed pair is cordoned when either half is. -/
def rankOf (blocks : List RetryBlock) (cordoned : Finset Int) (s : InstanceStatus) : Nat :=
  scaleDownRank s blocks (s.index ∈ cordoned ∨ FailedGang rows s ∧
    ∃ t ∈ rows, replacementOf s = some t.index ∧ t.index ∈ cordoned)

/-- Distinct rows, none of them claimed by two attempts or claimed and claiming. -/
structure WellClaimed : Prop where
  distinct : (rows.map (·.index)).Nodup
  nonneg : ∀ s ∈ rows, 0 ≤ s.index
  once : (rows.filterMap replacementOf).Nodup
  chainless : ∀ s ∈ rows, ∀ t ∈ rows, replacementOf s = some t.index → replacementOf t = none

end Pairs

/-! ## One row -/

theorem gangSurge_spec (gang : gangSurge s) :
    ∃ op, s.operation = some op ∧ op.type = .update ∧ op.surgeIndex.isSome := by
  simpa [gangSurge, Option.any_eq_true] using gang

theorem replacementOf_of_gangSurge (gang : gangSurge s) :
    replacementOf s = s.operation.bind (·.surgeIndex) := by
  obtain ⟨op, operation, updates, surge⟩ := gangSurge_spec gang
  exact if_pos (by simp [claimsReplacement, operation, updates, surge])

theorem gangSurge_claims (gang : gangSurge s) : ∃ target, replacementOf s = some target := by
  obtain ⟨op, operation, -, surge⟩ := gangSurge_spec gang
  rw [replacementOf_of_gangSurge gang, operation]
  exact Option.isSome_iff_exists.mp surge

/-- A proof of promotion names its target, which is ready and idle; only a source that is
updating or migrating has one. -/
theorem promoted_spec {source target : InstanceStatus} {claims : Nat}
    (promoted : replacementPromoted source target claims) :
    claims = 1 ∧ replacementOf source = some target.index ∧ source.phase ≠ .failed ∧
      target.phase = .ready ∧ target.operation = none := by
  rw [replacementPromoted] at promoted
  cases operation : source.operation with
  | none =>
    rw [operation, if_neg (by simp)] at promoted
    simp [migrationHandoffPromoted, operation] at promoted
  | some op =>
    split at promoted
    · simp only [updateHandoffPromoted, operation, Option.any_some, decide_eq_true_eq] at promoted
      obtain ⟨one, phase, -, -, kind, -, surge, -, -, -, ready, -, -, idle⟩ := promoted
      simp [replacementOf, claimsReplacement, operation, one, phase, kind, surge, ready, idle]
    · simp only [migrationHandoffPromoted, operation, Option.any_some, decide_eq_true_eq]
        at promoted
      obtain ⟨one, phase, -, -, kind, -, surge, -, -, ready, -, -, idle⟩ := promoted
      simp [replacementOf, claimsReplacement, operation, one, phase, kind, surge, ready, idle]

/-! ## Scans -/

section Scans

variable {rows : List InstanceStatus}

theorem row_eq (distinct : (rows.map (·.index)).Nodup) (here : s ∈ rows)
    (there : t ∈ rows) (same : s.index = t.index) : s = t :=
  inj_on_of_nodup_map distinct here there same

theorem claimant_eq (well : WellClaimed rows) (here : s ∈ rows)
    (there : t ∈ rows) (first : replacementOf s = some i)
    (second : replacementOf t = some i) : s = t := by
  by_contra apart
  have once := pairwise_filterMap.mp well.once
  have : Std.Symm fun a b : InstanceStatus =>
      ∀ x, replacementOf a = some x → ∀ y, replacementOf b = some y → x ≠ y :=
    ⟨fun a b holds x names y named => (holds y named x names).symm⟩
  exact once.forall here there apart i first i second rfl

section

variable (distinct : (rows.map (·.index)).Nodup)
include distinct

theorem mem_indicesOf {p : InstanceStatus → Bool}
    (member : s ∈ rows) : s.index ∈ indicesOf rows p ↔ p s := by
  simp only [indicesOf, mem_toFinset, mem_map, mem_filter]
  constructor
  · rintro ⟨t, ⟨there, holds⟩, same⟩
    rwa [row_eq distinct there member same] at holds
  · intro holds
    exact ⟨s, ⟨member, holds⟩, rfl⟩

theorem byIndex_of_mem (member : s ∈ rows) : byIndex rows s.index = some s :=
  foldl_update_of_mem distinct member _

theorem byIndex_some (found : byIndex rows i = some t) : t ∈ rows ∧ t.index = i := by
  by_cases recorded : i ∈ rows.map (·.index)
  · obtain ⟨s, member, rfl⟩ := mem_map.mp recorded
    rw [byIndex_of_mem distinct member] at found
    cases found
    exact ⟨member, rfl⟩
  · have absent : byIndex rows i = none := 
      foldl_rewrite_of_not_mem (fun t _ => some t) recorded _
    rw [absent] at found
    cases found

theorem failedGangSurge_iff : failedGangSurge rows s ↔ FailedGang rows s := by
  simp only [failedGangSurge, FailedGang, Bool.and_eq_true, decide_eq_true_eq, and_assoc]
  refine and_congr_right fun _ => and_congr_right fun gang => ?_
  rw [replacementOf_of_gangSurge gang]
  cases s.operation.bind (·.surgeIndex) with
  | none => simp
  | some target =>
    rw [Option.bind_some]
    cases found : byIndex rows target with
    | none =>
      refine iff_of_true rfl fun t member names => ?_
      cases names
      rw [byIndex_of_mem distinct member] at found
      cases found
    | some occupant =>
      obtain ⟨member, rfl⟩ := byIndex_some distinct found
      rw [Option.all_some]
      refine ⟨fun marker t there names => ?_, fun all => all occupant member rfl⟩
      rw [row_eq distinct there member (Option.some.inj names).symm]
      exact marker

theorem mem_failedGangSurgeSources
    (member : s ∈ rows) : s.index ∈ failedGangSurgeSources rows ↔ FailedGang rows s :=
  (mem_indicesOf distinct member).trans (failedGangSurge_iff distinct)

end

theorem mem_existingInstanceIndices :
    i ∈ existingInstanceIndices rows ↔ ∃ t ∈ rows, t.index = i := by
  simp [existingInstanceIndices]

/-- A failed source and the row that follows it, among the rows read. -/
def Leads (rows done : List InstanceStatus) (i marker : Int) : Prop :=
  ∃ s ∈ done, s.index = i ∧ FailedGang rows s ∧ replacementOf s = some marker ∧
    ∃ t ∈ rows, t.index = marker

theorem leads_append {done : List InstanceStatus} {marker : Int} :
    Leads rows (done ++ [x]) i marker ↔ Leads rows done i marker ∨ (x.index = i ∧
      FailedGang rows x ∧ replacementOf x = some marker ∧ ∃ t ∈ rows, t.index = marker) := by
  simp [Leads, or_and_right, exists_or]

theorem leads_row (distinct : (rows.map (·.index)).Nodup) (member : s ∈ rows)
    {marker : Int} : Leads rows rows s.index marker ↔ FailedGang rows s ∧
      replacementOf s = some marker ∧ ∃ t ∈ rows, t.index = marker := by
  constructor
  · rintro ⟨t, there, same, leads⟩
    rwa [row_eq distinct there member same] at leads
  · intro leads
    exact ⟨s, member, rfl, leads⟩

/-- One row: the maps change exactly for a failed source with a follower. -/
theorem followMarker_cases (well : WellClaimed rows) (member : x ∈ rows)
    (maps : (Int → Option Int) × (Int → Option Int)) :
    (∃ marker, FailedGang rows x ∧ replacementOf x = some marker ∧
        (∃ t ∈ rows, t.index = marker) ∧
        followMarker rows maps x = if (maps.2 marker).isSome then maps else
          (update maps.1 x.index (some marker),
            update maps.2 marker (some x.index))) ∨
      followMarker rows maps x = maps ∧ ∀ marker, ¬ (FailedGang rows x ∧
        replacementOf x = some marker ∧ ∃ t ∈ rows, t.index = marker) := by
  rw [followMarker]
  by_cases failed : FailedGang rows x
  · have listed := (mem_failedGangSurgeSources well.distinct member).mpr failed
    obtain ⟨target, names⟩ := gangSurge_claims failed.2.1
    have surge := (replacementOf_of_gangSurge failed.2.1).symm.trans names
    simp only [surge, listed, not_true_eq_false, if_false]
    by_cases present : target ∈ existingInstanceIndices rows
    · refine .inl ⟨target, failed, names, mem_existingInstanceIndices.mp present, ?_⟩
      simp only [present, not_true_eq_false, if_false]
    · refine .inr ⟨by rw [if_pos present], ?_⟩
      rintro marker ⟨-, same, found⟩
      cases names.symm.trans same
      exact present (mem_existingInstanceIndices.mpr found)
  · have unlisted := mt (mem_failedGangSurgeSources well.distinct member).mp failed
    refine .inr ⟨?_, fun marker holds => failed holds.1⟩
    cases x.operation.bind (·.surgeIndex) with
    | none => rfl
    | some target => simp only [unlisted, not_false_eq_true, if_true]

/-- The followers of failed gang surges, read off the rows. -/
def ReadsLeads (rows done : List InstanceStatus)
    (maps : (Int → Option Int) × (Int → Option Int)) : Prop :=
  (∀ i marker, maps.1 i = some marker ↔ Leads rows done i marker) ∧
    ∀ i marker, maps.2 marker = some i ↔ Leads rows done i marker

/-- The two maps of failed gang surges, read off the rows. -/
theorem failedGangSurgeFollowers_spec (well : WellClaimed rows) :
    ReadsLeads rows rows (failedGangSurgeFollowers rows) := by
  refine foldl_along (ReadsLeads rows) (by simp [ReadsLeads, Leads]) ?_
  rintro done x rest maps split ⟨forward, backward⟩
  have member : x ∈ rows := by simp [split]
  have distinct := well.distinct
  have once := well.once
  rw [split, map_append, map_cons, nodup_append] at distinct
  rw [split, filterMap_append, nodup_append] at once
  rcases followMarker_cases well member maps with ⟨marker, failed, names, present, round⟩ |
    ⟨round, none⟩
  -- no row before claims the marker or has the index
  · have free : maps.2 marker = none := by
      cases taken : maps.2 marker with
      | none => rfl
      | some i =>
        obtain ⟨s, before, -, -, same, -⟩ := (backward i marker).mp taken
        exact absurd rfl (once.2.2 marker (mem_filterMap.mpr ⟨s, before, same⟩) marker
          (by simp [names]))
    have other : maps.1 x.index = none := by
      cases taken : maps.1 x.index with
      | none => rfl
      | some m =>
        obtain ⟨s, before, same, -⟩ := (forward x.index m).mp taken
        exact absurd same (distinct.2.2 s.index (mem_map_of_mem before) x.index
          mem_cons_self)
    rw [round, free]
    simp only [Option.isSome_none, Bool.false_eq_true, if_false]
    refine ⟨fun i m => ?_, fun i m => ?_⟩
    · rw [leads_append, ← forward]
      dsimp only
      by_cases here : i = x.index
      · subst here
        rw [update_self, other]
        constructor
        · rintro same
          cases same
          exact .inr ⟨rfl, failed, names, present⟩
        · rintro (absent | ⟨-, -, same, -⟩)
          · cases absent
          · exact names.symm.trans same
      · simp [update_of_ne here, Ne.symm here]
    · rw [leads_append, ← backward]
      by_cases here : m = marker
      · subst here
        simp [free, failed, names, present]
      · simp [update_of_ne here, names, Ne.symm here]
  -- the row leads nothing, and the maps stay
  · rw [round]
    refine ⟨fun i m => ?_, fun i m => ?_⟩
    · rw [leads_append, ← forward]
      exact (or_iff_left fun holds => none m holds.2).symm
    · rw [leads_append, ← backward]
      exact (or_iff_left fun holds => none m holds.2).symm

namespace IndexSelection

variable {sel : IndexSelection}

/-- Claims are counted, and every claim of a source that has not failed keeps its target. -/
def Claims (rows : List InstanceStatus) (sel : IndexSelection) (done : List InstanceStatus)
    (r : IndexSelection × (Int → Nat)) : Prop :=
  (∃ members, r.1 = { sel with pairMembers := members } ∧ ∀ i, i ∈ members ↔
    i ∈ sel.pairMembers ∨ ∃ s ∈ done, replacementOf s = some i ∧ ¬ FailedGang rows s) ∧
    ∀ i, r.2 i = (done.filterMap replacementOf).count i

theorem claimReplacements_spec (well : WellClaimed rows) (sel : IndexSelection) :
    Claims rows sel rows (sel.claimReplacements rows) := by
  refine foldl_along (Claims rows sel) ⟨⟨sel.pairMembers, rfl, by simp⟩, by simp⟩ ?_
  rintro done x rest ⟨now, claims⟩ split ⟨⟨members, same, kept⟩, counted⟩
  have member : x ∈ rows := by simp [split]
  dsimp only at same counted
  subst same
  rw [claimReplacement]
  cases names : replacementOf x with
  | none =>
    refine ⟨⟨members, rfl, fun i => ?_⟩, fun i => ?_⟩
    · simp [kept, names, or_and_right, exists_or]
    · simp [counted, names]
  | some target =>
    have count : ∀ i, update claims target (claims target + 1) i =
        ((done ++ [x]).filterMap replacementOf).count i := by
      intro i
      rw [filterMap_append, count_append]
      by_cases here : i = target
      · subst here
        simp [counted, names]
      · simp [here, counted, names, Ne.symm here]
    dsimp only
    split
    · rename_i failed
      rw [mem_failedGangSurgeSources well.distinct member] at failed
      refine ⟨⟨members, rfl, fun i => ?_⟩, count⟩
      simp [kept, failed, or_and_right, exists_or]
    · rename_i live
      rw [mem_failedGangSurgeSources well.distinct member] at live
      refine ⟨⟨_, rfl, fun i => ?_⟩, count⟩
      simp [kept, live, names, or_and_right, exists_or, eq_comm, or_comm, or_left_comm]

theorem rankRows_eq (blocks : List RetryBlock) (cordoned : Finset Int) :
    ∀ (instances : List InstanceStatus) (sel : IndexSelection),
      sel.rankRows instances blocks cordoned =
        { sel with
          rows := instances.foldl (fun m s => update m s.index (some s)) sel.rows
          rank := instances.foldl (fun m s => update m s.index
            (scaleDownRank s blocks (decide (s.index ∈ cordoned) ||
              (sel.failedTargetOf s.index).any fun target => target ∈ cordoned))) sel.rank }
  | [], _ => rfl
  | s :: rest, sel => rankRows_eq blocks cordoned rest (rankRow blocks cordoned sel s)

section Release

variable {claims : Int → Nat}

theorem releasePromotedSource_other (distinct : (rows.map (·.index)).Nodup)
    (known : sel.rows = byIndex rows) (stays : ¬ Retires rows x) :
    releasePromotedSource claims sel x = sel := by
  rw [releasePromotedSource]
  cases x.operation.bind (·.surgeIndex) with
  | none => rfl
  | some target =>
    dsimp only
    cases found : sel.rows target with
    | none => rfl
    | some row =>
      rw [known] at found
      refine if_neg fun promoted => stays ⟨row, (byIndex_some distinct found).1, ?_⟩
      -- An index claimed once: the count of its claims adds nothing to the proof.
      rwa [(promoted_spec promoted).1] at promoted

theorem releasePromotedSource_promoted (well : WellClaimed rows) (known : sel.rows = byIndex rows)
    (counted : ∀ i, claims i = (rows.filterMap replacementOf).count i)
    (member : x ∈ rows) (there : t ∈ rows) (promoted : Promoted x t) :
    releasePromotedSource claims sel x =
      { sel with
        pairMembers := (sel.pairMembers.erase x.index).erase t.index
        pairSources := sel.pairSources.erase x.index
        retiring := insert x.index sel.retiring } := by
  obtain ⟨-, names, -⟩ := promoted_spec promoted
  have surge : x.operation.bind (·.surgeIndex) = some t.index := by
    rw [replacementOf] at names
    split at names
    · exact names
    · cases names
  have one : claims t.index = 1 := (counted t.index).trans 
    (count_eq_one_of_mem well.once (mem_filterMap.mpr ⟨x, member, names⟩))
  simp only [releasePromotedSource, surge, known, byIndex_of_mem well.distinct there, one]
  exact if_pos promoted

/-- The pairs whose replacement is promoted leave the sets. -/
def Releases (rows : List InstanceStatus) (sel : IndexSelection) (done : List InstanceStatus)
    (r : IndexSelection) : Prop :=
  ∃ members sources retiring,
    r = { sel with pairMembers := members, pairSources := sources, retiring := retiring } ∧
      (∀ i, i ∈ members ↔ i ∈ sel.pairMembers ∧
        ∀ s ∈ done, ∀ t ∈ rows, Promoted s t → i ≠ s.index ∧ i ≠ t.index) ∧
      (∀ i, i ∈ sources ↔ i ∈ sel.pairSources ∧ ∀ s ∈ done, Retires rows s → i ≠ s.index) ∧
      ∀ i, i ∈ retiring ↔ i ∈ sel.retiring ∨ ∃ s ∈ done, Retires rows s ∧ i = s.index

theorem releasePromotedSources_spec (well : WellClaimed rows) (known : sel.rows = byIndex rows)
    (counted : ∀ i, claims i = (rows.filterMap replacementOf).count i) :
    Releases rows sel rows (sel.releasePromotedSources rows claims) := by
  refine foldl_along (Releases rows sel)
    ⟨sel.pairMembers, sel.pairSources, sel.retiring, rfl, by simp⟩ ?_
  rintro done x rest now split ⟨members, sources, retiring, same, kept, charged, gone⟩
  have member : x ∈ rows := by simp [split]
  have still : now.rows = byIndex rows := by rw [same, ← known]
  by_cases retires : Retires rows x
  · obtain ⟨t, there, promoted⟩ := retires
    have retires : Retires rows x := ⟨t, there, promoted⟩
    -- The target is the one row that the source names.
    have only : ∀ t' ∈ rows, Promoted x t' → t' = t := by
      intro t' there' promoted'
      have same := (promoted_spec promoted').2.1.symm.trans (promoted_spec promoted).2.1
      exact row_eq well.distinct there' there (Option.some.inj same)
    rw [releasePromotedSource_promoted well still counted member there promoted, same]
    refine ⟨_, _, _, rfl, fun i => ?_, fun i => ?_, fun i => ?_⟩
    · simp only [Finset.mem_erase, kept, mem_append, mem_singleton, or_imp, forall_and,
        forall_eq]
      constructor
      · rintro ⟨notTarget, notSource, before, others⟩
        refine ⟨before, ⟨others.1, fun t' there' promoted' => notSource⟩,
          others.2, fun t' there' promoted' => ?_⟩
        rw [only t' there' promoted']
        exact notTarget
      · rintro ⟨before, ⟨firsts, first⟩, seconds, second⟩
        exact ⟨second t there promoted, first t there promoted, before, firsts, seconds⟩
    · simp [charged, retires, or_imp, forall_and, and_comm, and_left_comm]
    · simp [gone, retires, or_and_right, exists_or, or_comm, or_left_comm]
  · have never : ∀ t ∈ rows, ¬ Promoted x t := fun t there promoted =>
      retires ⟨t, there, promoted⟩
    rw [releasePromotedSource_other well.distinct still retires]
    refine ⟨members, sources, retiring, same, fun i => ?_, fun i => ?_, fun i => ?_⟩
    · rw [kept]
      refine and_congr_right fun _ => ⟨fun others s listed t there promoted => ?_,
        fun others s listed => others s (mem_append_left _ listed)⟩
      rcases mem_append.mp listed with before | last
      · exact others s before t there promoted
      · cases mem_singleton.mp last
        exact absurd promoted (never t there)
    · simp [charged, retires, or_imp, forall_and]
    · simp [gone, retires, or_and_right, exists_or]

end Release

end IndexSelection

/-! ## The reading -/

/-- Half of a pair in flight, whatever the proof of its replacement. -/
theorem mem_updateSurgeInFlightIndices (distinct : (rows.map (·.index)).Nodup)
    (member : s ∈ rows) : s.index ∈ updateSurgeInFlightIndices rows ↔ LiveGang rows s ∨
      ∃ source ∈ rows, LiveGang rows source ∧ replacementOf source = some s.index := by
  have live : ∀ t ∈ rows, (gangSurge t ∧ t.index ∉ failedGangSurgeSources rows ↔
      LiveGang rows t) := fun t there =>
    and_congr_right fun _ => not_congr (mem_failedGangSurgeSources distinct there)
  rw [updateSurgeInFlightIndices, Finset.mem_union]
  refine or_congr ?_ ?_
  · simp only [mem_toFinset, mem_map, mem_filter, decide_eq_true_eq]
    constructor
    · rintro ⟨t, ⟨there, holds⟩, same⟩
      rw [← row_eq distinct there member same]
      exact (live t there).mp holds
    · intro holds
      exact ⟨s, ⟨member, (live s member).mpr holds⟩, rfl⟩
  · rw [mem_indicesOf distinct member]
    simp only [decide_eq_true_eq, mem_toFinset, mem_filterMap, mem_filter]
    constructor
    · rintro ⟨t, ⟨there, holds⟩, names⟩
      exact ⟨t, there, (live t there).mp holds, (replacementOf_of_gangSurge holds.1).trans names⟩
    · rintro ⟨t, there, holds, names⟩
      exact ⟨t, ⟨there, (live t there).mpr holds⟩,
        (replacementOf_of_gangSurge holds.1).symm.trans names⟩

/-- What the selection says about the rows before anything is chosen. -/
structure Reading (rows : List InstanceStatus) (replicas : Int) (blocks : List RetryBlock)
    (cordoned : Finset Int) (sel : IndexSelection) : Prop where
  count : sel.replicas = replicas
  recorded : ∀ i, i ∈ sel.existing ↔ ∃ s ∈ rows, s.index = i
  ascending : sel.existing.Pairwise (· < ·)
  ranked : ∀ s ∈ rows, sel.rank s.index = rankOf rows blocks cordoned s
  pinned : ∀ s ∈ rows, s.index ∈ sel.pairMembers ↔ Pinned rows s
  sources : ∀ s ∈ rows, s.index ∈ sel.pairSources ↔ PairSource rows s
  retires : ∀ s ∈ rows, s.index ∈ sel.retiring ↔ Retires rows s
  leads : ∀ i marker, sel.failedTargetOf i = some marker ↔ Leads rows rows i marker
  follows : ∀ i marker, sel.failedSourceOf marker = some i ↔ Leads rows rows i marker
  unchosen : sel.chosen = [] ∧ sel.picked = ∅ ∧ sel.charged = 0

/-- A promoted source is no replacement, and a promoted replacement no source. -/
theorem pinned_iff (well : WellClaimed rows) (member : s ∈ rows) :
    Pinned rows s ↔ (migrationPinned s ∨ LiveGang rows s ∨
        ∃ source ∈ rows, replacementOf source = some s.index ∧ ¬ FailedGang rows source) ∧
      ∀ source ∈ rows, ∀ t ∈ rows, Promoted source t →
        s.index ≠ source.index ∧ s.index ≠ t.index := by
  constructor
  · rintro (⟨own, stays⟩ | ⟨source, there, names, live, unproven⟩)
    · refine ⟨own.elim .inl fun gang => .inr (.inl gang), fun source there t target promoted => ?_⟩
      obtain ⟨-, -, -, ready, idle⟩ := promoted_spec promoted
      refine ⟨fun same => stays ?_, fun same => ?_⟩
      · exact ⟨t, target, row_eq well.distinct member there same ▸ promoted⟩
      · cases row_eq well.distinct member target same
        rcases own with pinned | ⟨gang, -⟩
        · simp [migrationPinned, ready, idle] at pinned
        · simp [gangSurge, idle] at gang
    · refine ⟨.inr (.inr ⟨source, there, names, live⟩), fun other here t target promoted => ?_⟩
      have claim := (promoted_spec promoted).2.1
      refine ⟨fun same => ?_, fun same => unproven ?_⟩
      · cases row_eq well.distinct member here same
        rw [well.chainless source there s member names] at claim
        cases claim
      · cases row_eq well.distinct member target same
        rwa [claimant_eq well there here names claim]
  · rintro ⟨half, apart⟩
    have stays : ¬ Retires rows s := fun ⟨t, target, promoted⟩ =>
      (apart s member t target promoted).1 rfl
    rcases half with pinned | gang | ⟨source, there, names, live⟩
    · exact .inl ⟨.inl pinned, stays⟩
    · exact .inl ⟨.inr gang, stays⟩
    · exact .inr ⟨source, there, names, live, fun promoted =>
        (apart source there s member promoted).2 rfl⟩

theorem rank_eq (distinct : (rows.map (·.index)).Nodup) (member : s ∈ rows)
    {targetOf : Int → Option Int}
    (leads : ∀ i marker, targetOf i = some marker ↔ Leads rows rows i marker)
    {blocks : List RetryBlock} {cordoned : Finset Int} :
    scaleDownRank s blocks (decide (s.index ∈ cordoned) ||
      (targetOf s.index).any fun target => target ∈ cordoned) =
      rankOf rows blocks cordoned s := by
  have pair : (targetOf s.index).any (fun target => decide (target ∈ cordoned)) =
      decide (FailedGang rows s ∧
        ∃ t ∈ rows, replacementOf s = some t.index ∧ t.index ∈ cordoned) := by
    rw [Bool.eq_iff_iff, decide_eq_true_eq, Option.any_eq_true]
    constructor
    · rintro ⟨marker, leader, cordon⟩
      obtain ⟨failed, names, t, there, rfl⟩ :=
        (leads_row distinct member).mp ((leads _ _).mp leader)
      exact ⟨failed, t, there, names, of_decide_eq_true cordon⟩
    · rintro ⟨failed, t, there, names, cordon⟩
      have leader := (leads_row distinct member).mpr ⟨failed, names, t, there, rfl⟩
      exact ⟨t.index, (leads _ _).mpr leader, decide_eq_true cordon⟩
  rw [rankOf, pair, Bool.decide_or]

/-- The whole reading: each field of the selection in terms of the rows. -/
theorem readIndexSelection_reads (well : WellClaimed rows) (replicas : Int)
    (blocks : List RetryBlock) (cordoned : Finset Int) :
    Reading rows replicas blocks cordoned
      (readIndexSelection rows replicas blocks cordoned) := by
  obtain ⟨leads, follows⟩ := failedGangSurgeFollowers_spec well
  obtain ⟨⟨members, claimed, members_iff⟩, counted⟩ :=
    claimReplacements_spec well (scannedSelection rows replicas)
  have distinct := well.distinct
  rw [readIndexSelection]
  rw [rankRows_eq, claimed]
  -- from here on only the fields that the releases read matter
  generalize shape : mk _ _ _ _ _ _ _ _ _ _ _ _ = ranked
  have known : ranked.rows = byIndex rows := by
    subst shape
    rfl
  obtain ⟨kept, charged, retiring, released, kept_iff, charged_iff, retiring_iff⟩ :=
    releasePromotedSources_spec well known counted
  rw [released]
  subst shape
  have recorded : ∀ i, i ∈ (scannedSelection rows replicas).existing ↔
      ∃ s ∈ rows, s.index = i := by
    simp [scannedSelection]
  refine ⟨rfl, recorded, ?_, fun s member => ?_, fun s member => ?_, fun s member => ?_,
    fun s member => ?_, leads, follows, rfl, rfl, rfl⟩
  · exact pairwise_lt_insertionSort (nodup_dedup _)
  · exact (foldl_update_of_mem distinct member _).trans (rank_eq distinct member leads)
  · rw [pinned_iff well member, kept_iff]
    refine and_congr_left fun _ => ?_
    rw [members_iff, scannedSelection, Finset.mem_union, migrationInFlightIndices,
      mem_indicesOf distinct member, mem_updateSurgeInFlightIndices distinct member, or_assoc,
      or_assoc]
    refine or_congr_right (or_congr_right (or_iff_right_of_imp ?_))
    rintro ⟨source, there, live, names⟩
    exact ⟨source, there, names, live.2⟩
  · rw [charged_iff, PairSource]
    refine and_congr ?_ ⟨fun apart gone => apart s member gone rfl, fun stays t there gone same =>
      stays (row_eq distinct member there same ▸ gone)⟩
    rw [scannedSelection, Finset.mem_union, migrationSourceIndices, updateSurgeSourceIndices,
      mem_indicesOf distinct member, mem_indicesOf distinct member]
    simp only [decide_eq_true_eq, mem_failedGangSurgeSources distinct member, LiveGang, and_comm]
  · rw [retiring_iff]
    simp only [scannedSelection, Finset.notMem_empty, false_or]
    exact ⟨fun ⟨t, there, gone, same⟩ => row_eq distinct member there same ▸ gone,
      fun gone => ⟨s, member, gone, rfl⟩⟩

end Scans

end Ome.Workload
