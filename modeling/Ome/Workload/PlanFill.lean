/-
# Ome.Workload.PlanFill — the plan fills the count and gives up the worst first

The three steps of a selection, each as one statement about the rows: the pairs in
flight are kept (`keepPairsInFlight_holds`), the steady rows fill the rest of the count
in the order of their ranks (`fillCountByRank_holds`), and the lowest unrecorded indexes
round it out (`newIndexes_spec`).  `plan_fills_count` puts them together.

Two things are needed beyond well-claimed rows.  A marker that follows a failed source
and is itself migrating is kept for its phase, whatever becomes of its source
(`migrating_marker_outlives_source`).  And past `2 ^ 30` Instances the search for an
unused index overflows (`plan_overflows`).
-/
import Ome.Workload.PlanPairs
import Mathlib.Data.Int.Interval
import Mathlib.Data.Int.ConditionallyCompleteOrder
import Mathlib.Tactic.Positivity

namespace Ome.Workload

open Ome.Theory IndexSelection List

set_option autoImplicit false

variable {s : InstanceStatus} {i : Int}
variable {slot : Nat × Int}

/-! ## New indexes -/

/-- A run of used indexes is no longer than there are used ones. -/
theorem run_le_card {used : Finset Int} (start : Int) {n : Nat}
    (run : ∀ i < n, start + (i : Int) ∈ used) : n ≤ used.card := by
  rw [← Finset.card_range n]
  exact Finset.card_le_card_of_injOn (fun i : Nat => start + (i : Int))
    (fun i inside => run i (Finset.mem_range.mp inside)) (fun a _ b _ same => by simpa using same)

/-- The search ends at the first index that is not used, as long as its bound fits. -/
theorem lowestUnusedIndex_spec (used : Finset Int) {start : Int} (nonneg : 0 ≤ start)
    (fits : start + used.card < 2 ^ 31) :
    start ≤ lowestUnusedIndex used start ∧ lowestUnusedIndex used start ∉ used ∧
      ∀ j, start ≤ j → j < lowestUnusedIndex used start → j ∈ used := by
  have last : wrap32 (start + used.card) = start + used.card := wrap32_of_fits (by omega) fits
  have rounds : (start + used.card - start + 1).toNat = used.card + 1 := by omega
  simp only [lowestUnusedIndex, last, rounds, find?_map]
  cases found : (range (used.card + 1)).find? _ with
  | none =>
    -- All of more indexes than there are used ones cannot be used.
    rw [find?_eq_none] at found
    have crowd : used.card + 1 ≤ used.card := run_le_card start fun i inside => by
      simpa using found i (mem_range.mpr inside)
    omega
  | some i =>
    obtain ⟨unused, -, before⟩ := find?_range_eq_some.mp found
    simp only [Option.map_some, Option.getD_some]
    refine ⟨by omega, by simpa using unused, fun j low high => ?_⟩
    obtain ⟨k, rfl⟩ : ∃ k : Nat, j = start + k := ⟨(j - start).toNat, by omega⟩
    simpa using before k (by omega)

/-- So many indexes, ascending from the slot, each the lowest that is not taken. -/
def LowestFree (rounds : Nat) (slot : Int) (taken : Finset Int) (new : List Int) : Prop :=
  new.length = rounds ∧ new.Pairwise (· < ·) ∧
    ∀ i ∈ new, slot ≤ i ∧ i ∉ taken ∧ ∀ j, 0 ≤ j → j < i → j ∈ taken ∨ j ∈ new

/-- **The new indexes are the lowest ones that are not taken.** -/
theorem newIndexes_spec : ∀ (rounds : Nat) (slot : Int) (taken : Finset Int), 0 ≤ slot →
    (∀ j, 0 ≤ j → j < slot → j ∈ taken) → taken.card + rounds ≤ 2 ^ 30 →
    LowestFree rounds slot taken (newIndexes rounds slot taken)
  | 0, _, _, _, _, _ => ⟨rfl, .nil, fun i member => absurd member not_mem_nil⟩
  | rounds + 1, slot, taken, nonneg, below, fits => by
    have crowd : slot.toNat ≤ taken.card := run_le_card 0 fun i small =>
      below _ (by omega) (by omega)
    obtain ⟨low, unused, full⟩ := lowestUnusedIndex_spec taken nonneg (by omega)
    rw [newIndexes]
    generalize lowestUnusedIndex taken slot = next at low unused full
    have card : (insert next taken).card = taken.card + 1 := Finset.card_insert_of_notMem unused
    obtain ⟨length, sorted, fresh⟩ := newIndexes_spec rounds next
      (insert next taken) (by omega)
      (fun j zero high => Finset.mem_insert_of_mem
        ((lt_or_ge j slot).elim (below j zero) fun far => full j far high)) (by omega)
    have above : ∀ i ∈ newIndexes rounds next (insert next taken), next < i := by
      intro i member
      obtain ⟨far, outside, -⟩ := fresh i member
      exact lt_of_le_of_ne far fun same => outside (same ▸ Finset.mem_insert_self _ _)
    refine ⟨by rw [length_cons, length], pairwise_cons.mpr ⟨above, sorted⟩, ?_⟩
    intro i member
    rcases mem_cons.mp member with rfl | later
    · exact ⟨low, unused, fun j zero high => .inl
        ((lt_or_ge j slot).elim (below j zero) fun far => full j far high)⟩
    · obtain ⟨far, outside, lower⟩ := fresh i later
      refine ⟨by omega, fun taken => outside (Finset.mem_insert_of_mem taken), ?_⟩
      intro j zero high
      rcases lower j zero high with used | also
      · rcases Finset.mem_insert.mp used with rfl | before
        · exact .inr mem_cons_self
        · exact .inl before
      · exact .inr (mem_cons_of_mem _ also)

theorem newIndexes_subset : ∀ {fewer rounds : Nat} (slot : Int) (taken : Finset Int),
    fewer ≤ rounds → newIndexes fewer slot taken ⊆ newIndexes rounds slot taken
  | 0, _, _, _, _ => nil_subset _
  | _ + 1, 0, _, _, less => absurd less (Nat.not_succ_le_zero _)
  | _ + 1, _ + 1, _, _, less =>
    cons_subset_cons _ (newIndexes_subset _ _ (Nat.le_of_succ_le_succ less))

/-! ## Choosing -/

namespace IndexSelection

/-- Only choices and charges were made, and the choices are those listed. -/
def Holds (sel now : IndexSelection) (picks : List Int) (charged : Int) : Prop :=
  ∃ chosen picked, now = { sel with chosen := chosen, picked := picked, charged := charged } ∧
    chosen.Nodup ∧ (∀ j, j ∈ chosen ↔ j ∈ picks) ∧ ∀ j, j ∈ picked ↔ j ∈ picks

variable {sel now : IndexSelection} {picks : List Int} {charged : Int}

theorem Holds.choose (holds : Holds sel now picks charged) (idx : Int) :
    Holds sel (now.choose idx) (picks ++ [idx]) charged := by
  obtain ⟨chosen, picked, rfl, nodup, listed, known⟩ := holds
  rw [choose]
  split
  · rename_i already
    have already := (known idx).mp already
    have absorbed (j : Int) : j ∈ picks ↔ j ∈ picks ++ [idx] := by
      rw [mem_append, mem_singleton]
      exact (or_iff_left_of_imp fun same => same ▸ already).symm
    exact ⟨chosen, picked, rfl, nodup, fun j => (listed j).trans (absorbed j),
      fun j => (known j).trans (absorbed j)⟩
  · rename_i new
    refine ⟨chosen ++ [idx], insert idx picked, rfl, ?_, fun j => ?_, fun j => ?_⟩
    · refine Nodup.append nodup (nodup_singleton idx) ?_
      rw [disjoint_singleton, listed, ← known]
      exact new
    · simp [listed]
    · simp [known, or_comm]

theorem Holds.charge (holds : Holds sel now picks charged) (charge : Int) :
    Holds sel { now with charged := charge } picks charge := by
  obtain ⟨chosen, picked, rfl, rest⟩ := holds
  exact ⟨chosen, picked, rfl, rest⟩

/-- The members that exist are kept, and the sources among them charged. -/
theorem keepPairsInFlight_holds (empty : sel.chosen = [] ∧ sel.picked = ∅ ∧ sel.charged = 0) :
    Holds sel sel.keepPairsInFlight (sel.existing.filter (· ∈ sel.pairMembers))
      (sel.existing.countP fun i => i ∈ sel.pairMembers ∧ i ∈ sel.pairSources) := by
  rw [keepPairsInFlight]
  refine foldl_along (fun done now => Holds sel now (done.filter (· ∈ sel.pairMembers))
    (done.countP fun i => i ∈ sel.pairMembers ∧ i ∈ sel.pairSources)) ?_ ?_
  · obtain ⟨chosen, picked, charged⟩ := empty
    refine ⟨[], ∅, ?_, nodup_nil, by simp, by simp⟩
    cases sel
    simp_all
  · intro done idx rest now split holds
    obtain ⟨members, sources, replicas⟩ : now.pairMembers = sel.pairMembers ∧
        now.pairSources = sel.pairSources ∧
        now.charged = (done.countP fun i => i ∈ sel.pairMembers ∧ i ∈ sel.pairSources : Nat) := by
      obtain ⟨chosen, picked, rfl, -⟩ := holds
      exact ⟨rfl, rfl, rfl⟩
    rw [keepPair, members, sources, replicas, filter_append, countP_append]
    by_cases member : idx ∈ sel.pairMembers
    · rw [if_neg (not_not.mpr member)]
      have chosen := holds.choose idx
      by_cases source : idx ∈ sel.pairSources
      · rw [if_pos source]
        simpa [member, source] using chosen.charge _
      · rw [if_neg source]
        simpa [member, source] using chosen
    · rw [if_pos member]
      simpa [member] using holds

/-! ## Filling the count -/

/-- The slot's row may fill the count at its rank, when the listed rows are chosen first. -/
def fillable (sel : IndexSelection) (base : List Int) (slot : Nat × Int) : Bool :=
  slot.2 ∉ base ∧ slot.2 ∉ sel.retiring ∧ sel.failedSourceOf slot.2 = none ∧
    sel.rank slot.2 = slot.1

/-- The rows that may fill the count, in the order of the slots. -/
def candidates (sel : IndexSelection) (base : List Int) (slots : List (Nat × Int)) : List Int :=
  (slots.filter (sel.fillable base)).map Prod.snd

/-- A row with the marker that follows it. -/
def bring (sel : IndexSelection) (i : Int) : List Int := i :: (sel.failedTargetOf i).toList

section Fill

variable {base : List Int} {start : Int} {room : Nat}
  (follow : ∀ i marker, sel.failedTargetOf i = some marker → sel.failedSourceOf marker ≠ none)
variable {done : List (Nat × Int)}

include follow

/-- A row that is brought was fillable at its own rank, or follows another. -/
theorem unfillable_of_brought (new : slot ∉ done)
    (brought : slot.2 ∈ (sel.candidates base done).flatMap sel.bring) :
    ¬ sel.fillable base slot := by
  intro fits
  simp only [fillable, decide_eq_true_eq] at fits
  obtain ⟨i, candidate, carried⟩ := mem_flatMap.mp brought
  rcases mem_cons.mp carried with here | follows
  · obtain ⟨other, listed, same⟩ := mem_map.mp candidate
    obtain ⟨before, also⟩ := mem_filter.mp listed
    simp only [fillable, decide_eq_true_eq] at also
    have index : other.2 = slot.2 := same.trans here.symm
    have rank : other.1 = slot.1 := by rw [← also.2.2.2, index, fits.2.2.2]
    exact new (Prod.ext rank index ▸ before)
  · exact follow i slot.2 (Option.mem_toList.mp follows) fits.2.2.1

/-- One slot: taken exactly when there is room and its row may fill it. -/
theorem fillSlot_holds (new : slot ∉ done)
    (full : sel.replicas ≤ start + (min (sel.candidates base done).length room : Nat) ↔
      room ≤ (sel.candidates base done).length)
    (holds : Holds sel now (base ++ ((sel.candidates base done).take room).flatMap sel.bring)
      (start + (min (sel.candidates base done).length room : Nat))) :
    Holds sel (now.fillSlot slot)
      (base ++ ((sel.candidates base (done ++ [slot])).take room).flatMap sel.bring)
      (start + (min (sel.candidates base (done ++ [slot])).length room : Nat)) := by
  obtain ⟨replicas, charged, targetOf, fills⟩ : now.replicas = sel.replicas ∧
      now.charged = start + (min (sel.candidates base done).length room : Nat) ∧
      now.failedTargetOf = sel.failedTargetOf ∧
      (now.fillsSlot slot.2 slot.1 ↔ slot.2 ∉ base ++ ((sel.candidates base done).take room).flatMap
        sel.bring ∧ slot.2 ∉ sel.retiring ∧ sel.failedSourceOf slot.2 = none ∧
        sel.rank slot.2 = slot.1) := by
    obtain ⟨chosen, picked, rfl, -, -, known⟩ := holds
    refine ⟨rfl, rfl, rfl, ?_⟩
    rw [fillsSlot, decide_eq_true_eq, ← known]
  have split : sel.candidates base (done ++ [slot]) =
      sel.candidates base done ++ sel.candidates base [slot] := by
    simp only [candidates, filter_append, map_append]
  rw [fillSlot, replicas, charged, split]
  by_cases crowded : room ≤ (sel.candidates base done).length
  -- no room: the slots so far fill the plan
  · rw [if_pos (full.mpr crowded), take_append_of_le_length crowded, length_append,
      min_eq_right (by omega)]
    rwa [min_eq_right crowded] at holds
  · rw [if_neg (mt full.mp crowded)]
    rw [take_of_length_le (by omega)] at fills holds
    rw [min_eq_left (by omega)] at holds
    -- a row that was brought along with an earlier one fills no slot itself
    have open_iff : now.fillsSlot slot.2 slot.1 ↔ sel.fillable base slot := by
      rw [fills]
      constructor
      · rintro ⟨outside, rest⟩
        exact decide_eq_true ⟨fun first => outside (mem_append_left _ first), rest⟩
      · intro fits
        obtain ⟨outside, rest⟩ := of_decide_eq_true fits
        refine ⟨fun inside => ?_, rest⟩
        rcases mem_append.mp inside with first | brought
        · exact outside first
        · exact unfillable_of_brought follow new brought fits
    by_cases fits : sel.fillable base slot
    · have one : sel.candidates base [slot] = [slot.2] := by simp [candidates, fits]
      rw [if_pos (open_iff.mpr fits), one, take_of_length_le (by simp; omega),
        length_append, length_singleton, min_eq_left (by omega), min_eq_left (by omega),
        targetOf, flatMap_append, flatMap_singleton, ← append_assoc, bring]
      have kept := (holds.choose slot.2).charge (start + (sel.candidates base done).length + 1)
      cases sel.failedTargetOf slot.2 with
      | none => simpa [add_assoc] using kept
      | some target => simpa [add_assoc] using kept.choose target
    · have none : sel.candidates base [slot] = [] := by simp [candidates, fits]
      rw [if_neg (mt open_iff.mp fits), none, append_nil, take_of_length_le (by omega),
        min_eq_left (by omega)]
      exact holds

/-- **The steady rows fill the room that is left, in the order of the slots.** -/
theorem fillCountByRank_holds (distinct : sel.slots.Nodup) (holds : Holds sel now base start) :
    Holds sel now.fillCountByRank
      (base ++
        ((sel.candidates base sel.slots).take (sel.replicas - start).toNat).flatMap sel.bring)
      (start +
        (min (sel.candidates base sel.slots).length (sel.replicas - start).toNat : Nat)) := by
  have same : now.slots = sel.slots := by
    obtain ⟨chosen, picked, rfl, -⟩ := holds
    rfl
  rw [fillCountByRank, same]
  refine foldl_along (fun done now => Holds sel now
    (base ++ ((sel.candidates base done).take (sel.replicas - start).toNat).flatMap sel.bring)
    (start + (min (sel.candidates base done).length (sel.replicas - start).toNat : Nat))) ?_ ?_
  · simpa [candidates] using holds
  · intro done slot rest now split holds
    rw [split, nodup_append] at distinct
    refine fillSlot_holds follow (fun before => ?_) ?_ holds
    · exact distinct.2.2 slot before slot mem_cons_self rfl
    · omega

end Fill

end IndexSelection

/-! ## The order of the ranks -/

theorem scaleDownRank_le (s : InstanceStatus) (blocks : List RetryBlock) (onCordonedNode : Bool) :
    scaleDownRank s blocks onCordonedNode ≤ lowestScaleDownRank := by
  rw [scaleDownRank, lowestScaleDownRank]
  split_ifs <;> omega

section Order

variable (rows : List InstanceStatus) (blocks : List RetryBlock) (cordoned : Finset Int)

/-- A lower rank first, within a rank the lower index. -/
def RanksBefore (s t : InstanceStatus) : Prop :=
  rankOf rows blocks cordoned s < rankOf rows blocks cordoned t ∨
    rankOf rows blocks cordoned s = rankOf rows blocks cordoned t ∧ s.index ≤ t.index

instance : DecidableRel (RanksBefore rows blocks cordoned) := fun _ _ =>
  inferInstanceAs (Decidable (_ ∨ _))

instance : Std.Total (RanksBefore rows blocks cordoned) where
  total s t := by
    simp only [RanksBefore]
    omega

instance : IsTrans InstanceStatus (RanksBefore rows blocks cordoned) where
  trans s t u := by
    simp only [RanksBefore]
    omega

/-- The steady rows, the ones to keep first. -/
def byRank : List InstanceStatus :=
  (rows.filter (Steady rows)).insertionSort (RanksBefore rows blocks cordoned)

end Order

section Selection

variable {rows : List InstanceStatus} {replicas : Int} {blocks : List RetryBlock}
  {cordoned : Finset Int} {sel : IndexSelection}

theorem mem_byRank : s ∈ byRank rows blocks cordoned ↔ s ∈ rows ∧ Steady rows s := by
  simp [byRank, mem_insertionSort]

namespace IndexSelection

theorem slots_pairwise (ascending : sel.existing.Pairwise (· < ·)) :
    sel.slots.Pairwise fun a b => a.1 < b.1 ∨ a.1 = b.1 ∧ a.2 < b.2 := by
  rw [slots, pairwise_flatMap]
  refine ⟨fun rank _ => ?_, ?_⟩
  · rw [pairwise_map]
    exact ascending.imp fun less => .inr ⟨rfl, less⟩
  · refine pairwise_lt_range.imp fun {low high} less a first b second => .inl ?_
    obtain ⟨i, -, rfl⟩ := mem_map.mp first
    obtain ⟨j, -, rfl⟩ := mem_map.mp second
    exact less

theorem mem_slots : slot ∈ sel.slots ↔ slot.1 ≤ lowestScaleDownRank ∧ slot.2 ∈ sel.existing := by
  simp only [slots, mem_flatMap, mem_range, mem_map]
  constructor
  · rintro ⟨rank, small, i, member, rfl⟩
    exact ⟨Nat.lt_succ_iff.mp small, member⟩
  · rintro ⟨small, member⟩
    exact ⟨slot.1, Nat.lt_succ_of_le small, slot.2, member, rfl⟩

theorem candidates_pairwise (ascending : sel.existing.Pairwise (· < ·)) (base : List Int) :
    (sel.candidates base sel.slots).Pairwise fun i j =>
      sel.rank i < sel.rank j ∨ sel.rank i = sel.rank j ∧ i < j := by
  rw [candidates, pairwise_map]
  refine ((slots_pairwise ascending).filter _).imp_of_mem fun {a b} first second before => ?_
  have rank : ∀ slot ∈ sel.slots.filter (sel.fillable base), sel.rank slot.2 = slot.1 := by
    intro slot member
    exact (of_decide_eq_true (mem_filter.mp member).2).2.2.2
  rwa [rank a first, rank b second]

theorem slots_nodup (ascending : sel.existing.Pairwise (· < ·)) : sel.slots.Nodup :=
  (slots_pairwise ascending).imp fun {a b} before same => by
    subst same
    omega

end IndexSelection

/-- The members of the pairs that the selection keeps. -/
def keptPairs (sel : IndexSelection) : List Int := sel.existing.filter (· ∈ sel.pairMembers)

section Reads

variable (well : WellClaimed rows) (reading : Reading rows replicas blocks cordoned sel)

include reading

theorem mem_keptPairs : i ∈ keptPairs sel ↔ ∃ s ∈ rows, Pinned rows s ∧ s.index = i := by
  simp only [keptPairs, mem_filter, reading.recorded, decide_eq_true_eq]
  constructor
  · rintro ⟨⟨s, member, rfl⟩, kept⟩
    exact ⟨s, member, (reading.pinned s member).mp kept, rfl⟩
  · rintro ⟨s, member, pinned, rfl⟩
    exact ⟨⟨s, member, rfl⟩, (reading.pinned s member).mpr pinned⟩

theorem failedSourceOf_eq_none (member : s ∈ rows) :
    sel.failedSourceOf s.index = none ↔ ¬ Follows rows s := by
  rw [Option.eq_none_iff_forall_ne_some]
  constructor
  · rintro none ⟨source, there, failed, names⟩
    exact none source.index ((reading.follows _ _).mpr
      ⟨source, there, rfl, failed, names, s, member, rfl⟩)
  · intro free i found
    obtain ⟨source, there, -, failed, names, -⟩ := (reading.follows _ _).mp found
    exact free ⟨source, there, failed, names⟩

include well

theorem fillable_iff (member : s ∈ rows) (rank : Nat) :
    sel.fillable (keptPairs sel) (rank, s.index) ↔
      Steady rows s ∧ rankOf rows blocks cordoned s = rank := by
  have base : s.index ∈ keptPairs sel ↔ Pinned rows s := by
    rw [mem_keptPairs reading]
    refine ⟨fun ⟨t, there, pinned, same⟩ => ?_, fun pinned => ⟨s, member, pinned, rfl⟩⟩
    rwa [row_eq well.distinct there member same] at pinned
  simp only [fillable, decide_eq_true_eq, base, reading.retires s member,
    failedSourceOf_eq_none reading member, reading.ranked s member, Steady, and_assoc]

theorem mem_candidates : i ∈ sel.candidates (keptPairs sel) sel.slots ↔
    ∃ s ∈ rows, Steady rows s ∧ s.index = i := by
  simp only [candidates, mem_map, mem_filter, mem_slots]
  constructor
  · rintro ⟨⟨rank, idx⟩, ⟨⟨-, existing⟩, fits⟩, rfl⟩
    obtain ⟨s, member, rfl⟩ := (reading.recorded idx).mp existing
    exact ⟨s, member, ((fillable_iff well reading member rank).mp fits).1, rfl⟩
  · rintro ⟨s, member, steady, rfl⟩
    exact ⟨(rankOf rows blocks cordoned s, s.index),
      ⟨⟨scaleDownRank_le _ _ _, (reading.recorded _).mpr ⟨s, member, rfl⟩⟩,
        (fillable_iff well reading member _).mpr ⟨steady, rfl⟩⟩, rfl⟩

/-- The candidates of the loops are the steady rows by rank. -/
theorem candidates_eq : sel.candidates (keptPairs sel) sel.slots =
    (byRank rows blocks cordoned).map (·.index) := by
  have before := candidates_pairwise reading.ascending (keptPairs sel)
  have sorted : ((byRank rows blocks cordoned).map (·.index)).Pairwise fun i j =>
      sel.rank i < sel.rank j ∨ sel.rank i = sel.rank j ∧ i ≤ j := by
    rw [pairwise_map]
    refine (pairwise_insertionSort _ _).imp_of_mem fun {s t} first second ranks => ?_
    rwa [reading.ranked s (mem_byRank.mp first).1, reading.ranked t (mem_byRank.mp second).1]
  have nodup : ((byRank rows blocks cordoned).map (·.index)).Nodup := by
    refine (((perm_insertionSort _ _).map _).nodup_iff).mpr ?_
    exact (filter_sublist.map _).nodup well.distinct
  have distinct : (sel.candidates (keptPairs sel) sel.slots).Nodup :=
    before.imp fun {i j} ranks same => by
      subst same
      omega
  refine Perm.eq_of_pairwise (fun i j _ _ _ _ => by omega)
    (before.imp fun {i j} ranks => by omega) sorted ?_
  rw [perm_ext_iff_of_nodup distinct nodup]
  intro i
  simp only [mem_candidates well reading, mem_map, mem_byRank, and_assoc]

/-- The sources charged are the sources among the rows. -/
theorem charged_sources :
    sel.existing.countP (fun i => i ∈ sel.pairMembers ∧ i ∈ sel.pairSources) =
      rows.countP (PairSource rows) := by
  have same : sel.existing.Perm (rows.map (·.index)) := by
    rw [perm_ext_iff_of_nodup (reading.ascending.imp fun {i j} less => less.ne) well.distinct]
    intro i
    rw [reading.recorded, mem_map]
  rw [same.countP_eq, countP_map]
  refine countP_congr fun s member => ?_
  simp only [Function.comp_apply, decide_eq_true_eq, reading.pinned s member,
    reading.sources s member]
  exact and_iff_right_of_imp fun source => .inl ⟨source.1.imp_left fun moving => by
    simp [migrationPinned, moving], source.2⟩

end Reads

/-! ## The plan -/

section Plan

variable (rows : List InstanceStatus) (replicas : Int) (blocks : List RetryBlock)
  (cordoned : Finset Int)

/-- The pair sources that the plan keeps. -/
def keptSources : Nat := rows.countP (PairSource rows)

/-- What the pairs leave of the count. -/
def room : Nat := (replicas - keptSources rows).toNat

/-- The steady rows that the plan keeps. -/
def keptSteady : List InstanceStatus := (byRank rows blocks cordoned).take (room rows replicas)

/-- The new Instances that the plan adds. -/
def newCount : Nat :=
  (replicas - (keptSources rows + (keptSteady rows replicas blocks cordoned).length)).toNat

/-- The lowest indexes that are not recorded, for the new Instances. -/
def addedIndexes : List Int :=
  newIndexes (newCount rows replicas blocks cordoned) 0 (rows.map (·.index)).toFinset

/-- The recorded indexes that the plan keeps. -/
def Keeps (i : Int) : Prop :=
  (∃ s ∈ rows, Pinned rows s ∧ s.index = i) ∨
    ∃ s ∈ keptSteady rows replicas blocks cordoned, s.index = i ∨ Leads rows rows s.index i

variable {rows replicas blocks cordoned}

theorem instancePlanIndices_eq (well : WellClaimed rows) :
    ∃ chosen, instancePlanIndices rows replicas blocks cordoned =
        (chosen ++ addedIndexes rows replicas blocks cordoned).insertionSort (· ≤ ·) ∧
      chosen.Nodup ∧ ∀ i, i ∈ chosen ↔ Keeps rows replicas blocks cordoned i := by
  have reading := readIndexSelection_reads well replicas blocks cordoned
  rw [instancePlanIndices]
  generalize readIndexSelection rows replicas blocks cordoned = sel at reading
  have pairs := keepPairsInFlight_holds reading.unchosen
  have filled := fillCountByRank_holds (fun i marker leads => ?_)
    (slots_nodup reading.ascending) pairs
  · rw [charged_sources well reading, ← keptPairs, candidates_eq well reading,
      reading.count] at filled
    obtain ⟨chosen, picked, shape, nodup, listed, -⟩ := filled
    refine ⟨chosen, ?_, nodup, fun i => ?_⟩
    · have taken : sel.existing.toFinset = (rows.map (·.index)).toFinset := by
        ext i
        simp [reading.recorded]
      have rounds : (replicas - (keptSources rows + (min (byRank rows blocks cordoned).length
          (room rows replicas) : Nat))).toNat = newCount rows replicas blocks cordoned := by
        rw [newCount, keptSteady, length_take, min_comm]
      rw [length_map, ← keptSources, ← room] at shape
      simp only [shape, addNewIndexes, taken, reading.count, rounds, addedIndexes]
    · rw [listed, mem_append, mem_keptPairs reading, ← map_take]
      refine or_congr_right ?_
      simp only [mem_flatMap, mem_map, bring, mem_cons,
        Option.mem_toList, reading.leads]
      constructor
      · rintro ⟨_, ⟨s, kept, rfl⟩, here⟩
        exact ⟨s, kept, here.imp_left Eq.symm⟩
      · rintro ⟨s, kept, here⟩
        exact ⟨s.index, ⟨s, kept, rfl⟩, here.imp_left Eq.symm⟩
  · rw [reading.leads, ← reading.follows] at leads
    rw [leads]
    exact Option.some_ne_none i

theorem mem_instancePlanIndices (well : WellClaimed rows) :
    i ∈ instancePlanIndices rows replicas blocks cordoned ↔
      Keeps rows replicas blocks cordoned i ∨ i ∈ addedIndexes rows replicas blocks cordoned := by
  obtain ⟨chosen, plan, -, kept⟩ := @instancePlanIndices_eq rows replicas blocks cordoned well
  rw [plan, mem_insertionSort, mem_append, kept]

theorem Keeps.recorded (keeps : Keeps rows replicas blocks cordoned i) :
    ∃ s ∈ rows, s.index = i := by
  rcases keeps with ⟨s, member, -, same⟩ | ⟨s, kept, same | ⟨-, -, -, -, -, marker⟩⟩
  · exact ⟨s, member, same⟩
  · exact ⟨s, (mem_byRank.mp (mem_of_mem_take kept)).1, same⟩
  · exact marker

section Halves

variable (well : WellClaimed rows)

include well

theorem Retires.not_keeps (member : s ∈ rows) (retires : Retires rows s) :
    ¬ Keeps rows replicas blocks cordoned s.index := by
  obtain ⟨t, target, promoted⟩ := retires
  have claim := (promoted_spec promoted).2.1
  rintro (⟨r, there, pinned, same⟩ | ⟨r, kept, same | leads⟩)
  · rw [row_eq well.distinct there member same] at pinned
    exact (((pinned_iff well member).mp pinned).2 s member t target promoted).1 rfl
  · obtain ⟨there, -, stays, -⟩ := mem_byRank.mp (mem_of_mem_take kept)
    cases row_eq well.distinct there member same
    exact stays ⟨t, target, promoted⟩
  · obtain ⟨source, there, -, -, names, -⟩ := leads
    rw [well.chainless source there s member names] at claim
    cases claim

theorem Steady.keeps_iff (member : s ∈ rows) (steady : Steady rows s) :
    Keeps rows replicas blocks cordoned s.index ↔ s ∈ keptSteady rows replicas blocks cordoned := by
  refine ⟨?_, fun kept => .inr ⟨s, kept, .inl rfl⟩⟩
  rintro (⟨r, there, pinned, same⟩ | ⟨r, kept, same | leads⟩)
  · exact absurd (row_eq well.distinct there member same ▸ pinned) steady.1
  · rwa [row_eq well.distinct (mem_byRank.mp (mem_of_mem_take kept)).1 member same] at kept
  · obtain ⟨source, there, -, failed, names, -⟩ := leads
    exact absurd ⟨source, there, failed, names⟩ steady.2.2

theorem FailedGang.steady (member : s ∈ rows) (failed : FailedGang rows s) : Steady rows s := by
  obtain ⟨target, names⟩ := gangSurge_claims failed.2.1
  -- A claimed row would claim a replacement itself.
  have unclaimed : ∀ r ∈ rows, replacementOf r ≠ some s.index := by
    intro r there claims
    rw [well.chainless r there s member claims] at names
    cases names
  refine ⟨?_, ?_, fun ⟨r, there, _, claims⟩ => unclaimed r there claims⟩
  · rintro (⟨pinned | live, -⟩ | ⟨r, there, claims, -⟩)
    · obtain ⟨op, operation, updates, -⟩ := gangSurge_spec failed.2.1
      simp [migrationPinned, failed.1, operation, updates] at pinned
    · exact live.2 failed
    · exact unclaimed r there claims
  · rintro ⟨t, -, promoted⟩
    exact (promoted_spec promoted).2.2.1 failed.1

/-- The marker of a failed source is not pinned, unless it is migrating. -/
theorem Follows.not_pinned {t : InstanceStatus} (member : t ∈ rows) (follows : Follows rows t)
    (settled : t.phase ≠ .migrating) : ¬ Pinned rows t := by
  obtain ⟨s, there, failed, names⟩ := follows
  have marker := failed.2.2 t member names
  have silent := well.chainless s there t member names
  rintro (⟨pinned | live, -⟩ | ⟨r, here, claims, live, -⟩)
  · cases operation : t.operation with
    | none => simp [gangSurgeTargetMarker, operation] at marker
    | some op =>
      simp only [gangSurgeTargetMarker, operation, Option.any_some, decide_eq_true_eq] at marker
      simp [migrationPinned, settled, operation, marker.1] at pinned
  · obtain ⟨target, claims⟩ := gangSurge_claims live.1
    rw [silent] at claims
    cases claims
  · exact live (claimant_eq well there here names claims ▸ failed)

/-- **A failed pair is kept or given up as one.** -/
theorem FailedGang.pair {t : InstanceStatus} (member : s ∈ rows) (failed : FailedGang rows s)
    (target : t ∈ rows) (names : replacementOf s = some t.index) (settled : t.phase ≠ .migrating) :
    Keeps rows replicas blocks cordoned t.index ↔
      Keeps rows replicas blocks cordoned s.index := by
  have follows : Follows rows t := ⟨s, member, failed, names⟩
  rw [(failed.steady well member).keeps_iff well member]
  constructor
  · rintro (⟨r, there, pinned, same⟩ | ⟨r, kept, same | leads⟩)
    · cases row_eq well.distinct there target same
      exact absurd pinned (follows.not_pinned well target settled)
    · obtain ⟨there, -, -, free⟩ := mem_byRank.mp (mem_of_mem_take kept)
      exact absurd (row_eq well.distinct there target same ▸ follows) free
    · have there := (mem_byRank.mp (mem_of_mem_take kept)).1
      obtain ⟨-, claims, -⟩ := (leads_row well.distinct there).mp leads
      rwa [claimant_eq well there member claims names] at kept
  · intro kept
    exact .inr ⟨s, kept, .inr ⟨s, member, rfl, failed, names, t, target, rfl⟩⟩

end Halves

section

variable (well : WellClaimed rows) (nonneg : 0 ≤ replicas)
  (fits : rows.length + replicas ≤ 2 ^ 30)
include well nonneg fits

theorem newIndexes_plan : LowestFree (newCount rows replicas blocks cordoned) 0
    (rows.map (·.index)).toFinset (addedIndexes rows replicas blocks cordoned) := by
  refine newIndexes_spec _ 0 _ le_rfl (fun j low high => absurd low (not_le.mpr high)) ?_
  have card : (rows.map (·.index)).toFinset.card = rows.length := by
    rw [toFinset_card_of_nodup well.distinct, length_map]
  rw [card, newCount]
  omega

/-- The indexes of a plan that no row records are its new ones. -/
theorem mem_new :
    i ∈ (instancePlanIndices rows replicas blocks cordoned).filter
        (fun i => i ∉ rows.map (·.index)) ↔ i ∈ addedIndexes rows replicas blocks cordoned := by
  obtain ⟨-, -, fresh⟩ := @newIndexes_plan rows replicas blocks cordoned well nonneg fits
  rw [mem_filter, mem_instancePlanIndices well, decide_eq_true_eq]
  constructor
  · rintro ⟨keeps | isNew, unrecorded⟩
    · exact absurd (mem_map.mpr keeps.recorded) unrecorded
    · exact isNew
  · intro isNew
    exact ⟨.inr isNew, fun recorded => (fresh i isNew).2.1 (mem_toFinset.mpr recorded)⟩

theorem plan_pairwise : (instancePlanIndices rows replicas blocks cordoned).Pairwise (· < ·) := by
  obtain ⟨-, ascending, fresh⟩ := @newIndexes_plan rows replicas blocks cordoned well nonneg fits
  obtain ⟨chosen, plan, nodup, kept⟩ := @instancePlanIndices_eq rows replicas blocks cordoned well
  rw [plan]
  refine pairwise_lt_insertionSort (nodup.append (ascending.imp fun {i j} less => less.ne) ?_)
  intro i old isNew
  obtain ⟨s, member, rfl⟩ := ((kept i).mp old).recorded
  exact (fresh _ isNew).2.1 (mem_toFinset.mpr (mem_map_of_mem member))

end

theorem plan_subset (well : WellClaimed rows) {fewer : Int} (less : fewer ≤ replicas) :
    instancePlanIndices rows fewer blocks cordoned ⊆
      instancePlanIndices rows replicas blocks cordoned := by
  intro i
  rw [mem_instancePlanIndices well, mem_instancePlanIndices well]
  refine Or.imp (Or.imp_right fun ⟨s, kept, here⟩ => ⟨s, ?_, here⟩) fun isNew => ?_
  · have more : room rows fewer ≤ room rows replicas := by
      rw [room, room]
      omega
    exact take_subset_take_left _ more kept
  · refine newIndexes_subset 0 _ ?_ isNew
    simp only [newCount, keptSteady, room, length_take]
    omega

/-- **The plan fills the count exactly and gives up the worst first.** -/
theorem plan_fills_count (well : WellClaimed rows)
    (settled : ∀ s ∈ rows, Follows rows s → s.phase ≠ .migrating) (nonneg : 0 ≤ replicas)
    (fits : rows.length + replicas ≤ 2 ^ 30) :
    let plan := instancePlanIndices rows replicas blocks cordoned
    let steady := byRank rows blocks cordoned
    let k := min steady.length (replicas - keptSources rows).toNat
    let new := plan.filter fun i => i ∉ rows.map (·.index)
    plan.Pairwise (· < ·) ∧
    (∀ s ∈ rows, Pinned rows s → s.index ∈ plan) ∧
    (∀ s ∈ rows, Retires rows s → s.index ∉ plan) ∧
    (∀ s ∈ rows, Steady rows s → (s.index ∈ plan ↔ s ∈ steady.take k)) ∧
    (∀ s ∈ rows, FailedGang rows s → ∀ t ∈ rows, replacementOf s = some t.index →
      (t.index ∈ plan ↔ s.index ∈ plan)) ∧
    (∀ i ∈ new, 0 ≤ i ∧ ∀ j, 0 ≤ j → j < i → j ∈ rows.map (·.index) ∨ j ∈ new) ∧
    (keptSources rows + k + new.length : Int) = max replicas (keptSources rows) ∧
    ∀ fewer, 0 ≤ fewer → fewer ≤ replicas →
      instancePlanIndices rows fewer blocks cordoned ⊆ plan := by
  intro plan steady k new
  obtain ⟨length, ascending, fresh⟩ :=
    @newIndexes_plan rows replicas blocks cordoned well nonneg fits
  have isNew : ∀ i, i ∈ new ↔ _ := fun i => mem_new well nonneg fits
  have sorted : plan.Pairwise (· < ·) := plan_pairwise well nonneg fits
  -- A recorded index is kept, and never new.
  have old : ∀ s ∈ rows, (s.index ∈ plan ↔ Keeps rows replicas blocks cordoned s.index) := by
    intro s member
    refine (mem_instancePlanIndices well).trans (or_iff_left fun added => (fresh _ added).2.1 ?_)
    exact mem_toFinset.mpr (mem_map_of_mem member)
  refine ⟨sorted, fun s member pinned => ?_, fun s member retires => ?_,
    fun s member steadily => ?_, fun s member failed t target names => ?_, fun i added => ?_, ?_,
    fun fewer _ less => plan_subset well less⟩
  · exact (old s member).mpr (.inl ⟨s, member, pinned, rfl⟩)
  · exact mt (old s member).mp (retires.not_keeps well member)
  · have same : keptSteady rows replicas blocks cordoned = steady.take k := by
      rw [keptSteady, room, take_eq_take_iff]
      have number : steady.length = (byRank rows blocks cordoned).length := rfl
      omega
    rw [old s member, steadily.keeps_iff well member, same]
  · rw [old t target, old s member]
    exact failed.pair well member target names (settled t target ⟨s, member, failed, names⟩)
  · obtain ⟨low, -, lower⟩ := fresh i ((isNew i).mp added)
    refine ⟨low, fun j zero less => ?_⟩
    rw [isNew, ← mem_toFinset]
    exact lower j zero less
  · have count : new.length = newCount rows replicas blocks cordoned := by
      rw [← length]
      refine Perm.length_eq ((perm_ext_iff_of_nodup ?_ ?_).mpr isNew)
      · exact (sorted.filter _).imp fun {i j} less => less.ne
      · exact ascending.imp fun {i j} less => less.ne
    rw [count, newCount, keptSteady, length_take, room]
    have number : steady.length = (byRank rows blocks cordoned).length := rfl
    omega

/-- A settled row. -/
def settledRow (index : Int) (phase : InstancePhase) : InstanceStatus :=
  { index, incarnation := 1, phase, runningRevision := "r1", targetRevision := "",
    podCount := 1, servingPodCount := 1, readySince := none, operation := none,
    activeOrdinal := 0, lastFailure := none }

/-- A row of a gang surge. -/
def gangRow (index : Int) (phase : InstancePhase) (step : OperationStep)
    (surgeIndex : Option Int) : InstanceStatus :=
  { settledRow index phase with
    operation := some { type := .update, step, targetRevision := "r2", surgeIndex,
                        requestUUID := "" } }

/-- Two ready rows, a failed surge with its marker and a live surge with its marker. -/
def surgingFleet : List InstanceStatus :=
  [settledRow 0 .ready, gangRow 1 .failed .surge (some 4), settledRow 2 .ready,
    gangRow 3 .updating .surge (some 5), gangRow 4 .creating .gangSurgeTarget none,
    gangRow 5 .creating .gangSurgeTarget none]

theorem surgingFleet_wellClaimed : WellClaimed surgingFleet :=
  ⟨by decide, by decide, by decide, by decide⟩

theorem surgingFleet_planned :
    WellClaimed surgingFleet ∧ FailedGang surgingFleet (gangRow 1 .failed .surge (some 4)) ∧
      (4 ∈ instancePlanIndices surgingFleet 3 [] ∅ ↔ 1 ∈ instancePlanIndices surgingFleet 3 [] ∅) :=
  ⟨surgingFleet_wellClaimed, by decide,
    (plan_fills_count surgingFleet_wellClaimed (by decide) (by decide) (by decide)).2.2.2.2.1
      (gangRow 1 .failed .surge (some 4)) (by decide) (by decide)
      (gangRow 4 .creating .gangSurgeTarget none) (by decide) rfl⟩

/-- A healthy row is never given up for a failed pair. -/
example : instancePlanIndices surgingFleet 3 [] ∅ = [0, 2, 3, 5] ∧
    instancePlanIndices surgingFleet 5 [] ∅ = [0, 1, 2, 3, 4, 5, 6] := by
  decide +kernel

/-- **A marker in phase Migrating is kept when its failed source is given up.** -/
theorem migrating_marker_outlives_source :
    let source := gangRow 0 .failed .surge (some 1)
    let marker := gangRow 1 .migrating .gangSurgeTarget none
    WellClaimed [source, marker] ∧ FailedGang [source, marker] source ∧
      replacementOf source = some marker.index ∧
      instancePlanIndices [source, marker] 0 [] ∅ = [1] := by
  refine ⟨⟨by decide, by decide, by decide, by decide⟩, by decide, rfl, by decide +kernel⟩

/-! ## Past the bound -/

/-- Where the first `n` indexes are used, the next one is `n`. -/
theorem lowestUnusedIndex_Ico {n : Int} (positive : 0 < n) (fits : 2 * n ≤ 2 ^ 31) :
    lowestUnusedIndex (Finset.Ico 0 n) (n - 1) = n := by
  have card : ((Finset.Ico 0 n).card : Int) = n := by
    rw [Int.card_Ico]
    omega
  obtain ⟨low, unused, full⟩ :=
    lowestUnusedIndex_spec (Finset.Ico 0 n) (by omega : 0 ≤ n - 1) (by omega)
  generalize lowestUnusedIndex (Finset.Ico 0 n) (n - 1) = next at low unused full
  rw [Finset.mem_Ico] at unused
  by_contra other
  have beyond := Finset.mem_Ico.mp (full n (by omega) (by omega))
  omega

/-- With one index more the end of the search wraps, and is returned. -/
theorem lowestUnusedIndex_overflows :
    lowestUnusedIndex (Finset.Ico 0 (2 ^ 30 + 1)) (2 ^ 30) = 1 - 2 ^ 31 := by
  have card : ((Finset.Ico (0 : Int) (2 ^ 30 + 1)).card : Int) = 2 ^ 30 + 1 := by
    rw [Int.card_Ico]
    omega
  have last : wrap32 (2 ^ 30 + (2 ^ 30 + 1)) = 1 - 2 ^ 31 := by decide
  have rounds : ((1 - 2 ^ 31 : Int) - 2 ^ 30 + 1).toNat = 0 := by decide
  simp only [lowestUnusedIndex, card, last, rounds, range_zero, map_nil, find?_nil,
    Option.getD_none]

theorem newIndexes_overflow : ∀ (rounds : Nat) {n : Int}, 0 < n → n + rounds = 2 ^ 30 + 1 →
    1 - 2 ^ 31 ∈ newIndexes (rounds + 1) (n - 1) (Finset.Ico 0 n)
  | 0, n, _, total => by
    obtain rfl : n = 2 ^ 30 + 1 := by omega
    have slot : (2 ^ 30 + 1 : Int) - 1 = 2 ^ 30 := by omega
    rw [newIndexes, slot, lowestUnusedIndex_overflows]
    exact mem_cons_self
  | rounds + 1, n, positive, total => by
    have step : insert n (Finset.Ico 0 n) = Finset.Ico 0 (n + 1) := by
      ext i
      simp only [Finset.mem_insert, Finset.mem_Ico]
      omega
    have later := newIndexes_overflow rounds (n := n + 1) (by omega) (by omega)
    rw [Int.add_sub_cancel] at later
    rw [newIndexes, lowestUnusedIndex_Ico positive (by omega), step]
    exact mem_cons_of_mem _ later

theorem newIndexes_overflow_empty {rounds : Nat} (total : (rounds : Int) = 2 ^ 30 + 2) :
    1 - 2 ^ 31 ∈ newIndexes rounds 0 ∅ := by
  obtain ⟨rounds, rfl⟩ : ∃ n, rounds = n + 1 + 1 := ⟨rounds - 2, by omega⟩
  have first : lowestUnusedIndex ∅ 0 = 0 := by
    obtain ⟨low, -, full⟩ := lowestUnusedIndex_spec ∅ (le_refl 0) (by decide)
    by_contra other
    exact Finset.notMem_empty _ (full 0 le_rfl (lt_of_le_of_ne low (Ne.symm other)))
  have step : insert 0 ∅ = Finset.Ico (0 : Int) 1 := rfl
  rw [newIndexes, first, step]
  exact mem_cons_of_mem _ (newIndexes_overflow rounds Int.one_pos (by omega))

/-- **A plan of two Instances more than `2 ^ 30` has a negative index.** -/
theorem plan_overflows : 1 - 2 ^ 31 ∈ instancePlanIndices [] (2 ^ 30 + 2) [] ∅ := by
  have well : WellClaimed [] := ⟨nodup_nil, by simp, nodup_nil, by simp⟩
  refine (mem_instancePlanIndices well).mpr (.inr (newIndexes_overflow_empty ?_))
  show (((2 ^ 30 + 2 : Int) - 0).toNat : Int) = 2 ^ 30 + 2
  omega

end Plan

end Selection

end Ome.Workload
