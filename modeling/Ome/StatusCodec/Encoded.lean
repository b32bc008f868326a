/-
# Ome.StatusCodec.Encoded — what the encoder makes of a list of rows

`Encoded` says what the rows have to be to be accepted and what payload comes out
(`encodeColumns_eq_ok`).  The optional index sets and the entries have one lemma each
for both directions of the round trip: `encodeOptionalIndexSet_eq_ok` says which text a
set of the members has, `sort_entries_eq` that the sorted entries are the only ascending
list of their records.
-/
import Ome.StatusCodec.Checks

namespace Ome.StatusCodec

open Ome.Theory List

set_option autoImplicit false

variable {R : Records} {members : IndexSet} {rows : List (InstanceStatus R)}
  {columns : InstanceStatusColumns R} {limit : Nat}
variable {row : InstanceStatus R} {e : InstanceStatusEntry R}

/-! ## The payload -/

/-- The column of the payload is the one built from the rows. -/
def GroupedColumn.Built (c : GroupedColumn R) (rows : List (InstanceStatus R))
    (columns : InstanceStatusColumns R) : Prop :=
  let _ := c.order
  buildGroups (c.column.collected rows) rows.length = .ok (c.column.groups columns)

/-- The entries of the rows, ascending, or none. -/
def entriesOf (rows : List (InstanceStatus R)) : Option (List (InstanceStatusEntry R)) :=
  if (rows.filterMap entryOf).length = 0 then none
  else some ((rows.filterMap entryOf).insertionSort fun a b => a.index ≤ b.index)

/-- What the encoder accepts, with the payload it makes. -/
structure Encoded (rows : List (InstanceStatus R)) (limit : Nat) (members : IndexSet)
    (columns : InstanceStatusColumns R) : Prop where
  nonempty : rows ≠ []
  room : rows.length ≤ limit
  encodable : ∀ row ∈ rows, ¬ row.Unencodable
  made : indexSetFromIndices (rows.map (·.index)) limit = .ok members
  members : columns.members = members.text
  rowOrder : columns.rowOrder =
    if (rows.map (·.index)).IsChain (· < ·) then none else some (rows.map (·.index))
  grouped : ∀ c ∈ groupedColumns, c.Built rows columns
  admitted : encodeOptionalIndexSet ((rows.filter (·.admitted)).map (·.index)) rows.length =
    .ok columns.admitted
  activeOrdinalOne : encodeOptionalIndexSet ((rows.filter (·.activeOrdinal = 1)).map (·.index))
    rows.length = .ok columns.activeOrdinalOne
  entries : columns.entries = entriesOf rows

/-- The grouped columns are stored one after the other, each in its own field. -/
theorem foldlM_collect {start : InstanceStatusColumns R} :
    groupedColumns.foldlM (fun columns column => column.collect rows rows.length columns) start =
        .ok columns ↔
      (∀ c ∈ groupedColumns, c.Built rows columns) ∧
        columns =
          { start with
            phases := columns.phases
            runningRevisions := columns.runningRevisions
            targetRevisions := columns.targetRevisions
            incarnations := columns.incarnations
            podCounts := columns.podCounts
            servingPodCounts := columns.servingPodCounts
            availablePodCounts := columns.availablePodCounts } := by
  simp only [groupedColumns, foldlM_cons, foldlM_nil, GroupedColumn.collect,
    Column.collect, bind_eq_ok, pure_eq_ok, mem_cons, not_mem_nil, or_false,
    forall_eq_or_imp, forall_eq, GroupedColumn.Built]
  constructor
  · rintro ⟨_, ⟨_, b₁, rfl⟩, _, ⟨_, b₂, rfl⟩, _, ⟨_, b₃, rfl⟩, _, ⟨_, b₄, rfl⟩, _, ⟨_, b₅, rfl⟩,
      _, ⟨_, b₆, rfl⟩, _, ⟨_, b₇, rfl⟩, rfl⟩
    exact ⟨⟨b₁, b₂, b₃, b₄, b₅, b₆, b₇⟩, rfl⟩
  · rintro ⟨⟨b₁, b₂, b₃, b₄, b₅, b₆, b₇⟩, same⟩
    exact ⟨_, ⟨_, b₁, rfl⟩, _, ⟨_, b₂, rfl⟩, _, ⟨_, b₃, rfl⟩, _, ⟨_, b₄, rfl⟩, _, ⟨_, b₅, rfl⟩,
      _, ⟨_, b₆, rfl⟩, _, ⟨_, b₇, rfl⟩, same.symm⟩

theorem encodeColumns_eq_ok :
    encodeColumns rows limit = .ok columns ↔ ∃ members, Encoded rows limit members columns := by
  rw [encodeColumns, refuse_bind_eq_ok, refuse_bind_eq_ok, refuse_bind_eq_ok, bind_eq_ok]
  have sound (out : InstanceStatusColumns R) : (∀ c ∈ groupedColumns, c.Built rows out) ↔
      ∀ c ∈ groupedColumns, c.Built rows
        { out with
          admitted := columns.admitted
          activeOrdinalOne := columns.activeOrdinalOne
          entries := columns.entries } := by
    simp [groupedColumns, GroupedColumn.Built, phaseColumn, runningRevisionColumn,
      targetRevisionColumn, incarnationColumn, podCountColumn, servingPodCountColumn,
      availablePodCountColumn]
  constructor
  · rintro ⟨nonempty, room, encodable, members, made, run⟩
    simp only [bind_eq_ok, foldlM_collect, pure_eq_ok] at run
    obtain ⟨out, ⟨built, same⟩, admitted, first, one, second, rfl⟩ := run
    exact ⟨members, fun empty => nonempty (by simp [empty]), by omega,
      fun row member bad => encodable ⟨row, member, bad⟩, made, by rw [same], by rw [same],
      (sound out).mp built, first, second, rfl⟩
  · rintro ⟨members, nonempty, room, encodable, made, names, rowOrder, grouped, first, second,
      entries⟩
    have filled : rows.length ≠ 0 := fun zero => nonempty (length_eq_zero_iff.mp zero)
    refine ⟨filled, by omega, fun ⟨row, member, bad⟩ => encodable row member bad, members, made, ?_⟩
    simp only [bind_eq_ok, foldlM_collect, pure_eq_ok]
    refine ⟨{ columns with admitted := none, activeOrdinalOne := none, entries := none },
      ⟨(sound _).mpr grouped, ?_⟩, _, first, _, second, ?_⟩
    · rw [names, rowOrder]
    · rw [← entriesOf, ← entries]

/-! ## Optional index sets -/

/-- A list of members is encoded as the set of its indexes, or as nothing. -/
theorem encodeOptionalIndexSet_eq_ok (valid : members.Valid) {indices : List Int}
    (nodup : indices.Nodup) (inside : ∀ x ∈ indices, x ∈ members.values) {raw : Option String} :
    encodeOptionalIndexSet indices members.cardinality = .ok raw ↔
      ∃ set, OptionalSetOk members raw set ∧ indices.Perm (listedIn set) := by
  have fits (x : Int) (member : x ∈ indices) := (valid.mem_bounds (inside x member)).2
  have room : indices.length ≤ members.cardinality := by
    rw [valid.counted]
    exact (subperm_of_subset nodup inside).length_le
  unfold encodeOptionalIndexSet
  by_cases none : indices = []
  · rw [if_pos none, none, Except.ok.injEq]
    constructor
    · rintro rfl
      exact ⟨Option.none, ⟨by simp, fun _ => rfl, by simp [listedIn]⟩, List.Perm.refl _⟩
    · rintro ⟨set, ok, perm⟩
      cases set with
      | none => exact (ok.absent rfl).symm
      | some s =>
        obtain ⟨r, _, read⟩ := ok.parsed s rfl
        have filled := (parseIndexSet_eq_ok.mp read).1.values_ne_nil
        exact absurd (nil_perm.mp perm) (by simpa [listedIn] using filled)
  · rw [if_neg none, bind_eq_ok]
    constructor
    · rintro ⟨text, made, same⟩
      rw [pure_eq_ok] at same
      obtain ⟨s, read, lists⟩ := parseIndexSet_of_encode fits made room
      have perm : indices.Perm (listedIn (some s)) := by
        show indices.Perm s.values
        rw [lists]
        exact (perm_insertionSort (· ≤ ·) indices).symm
      refine ⟨some s, ⟨?_, by simp, fun x member => inside x (perm.mem_iff.mpr member)⟩, perm⟩
      rintro t same'
      rw [← Option.some.inj same']
      exact ⟨text, same.symm, read⟩
    · rintro ⟨set, ok, perm⟩
      cases set with
      | none => exact absurd (perm_nil.mp perm) none
      | some s =>
        obtain ⟨r, rfl, read⟩ := ok.parsed s rfl
        exact ⟨r, encodeIndexSet_of_parse read perm room, rfl⟩

/-! ## Entries -/

theorem pairwise_sort_entries (entries : List (InstanceStatusEntry R)) :
    (entries.insertionSort fun a b => a.index ≤ b.index).Pairwise fun a b => a.index ≤ b.index := by
  exact pairwise_insertionSort _ entries

theorem sort_entries_eq {made sorted : List (InstanceStatusEntry R)}
    (distinct : (made.map (·.index)).Nodup) (ascending : (sorted.map (·.index)).Pairwise (· < ·))
    (same : ∀ e, e ∈ made ↔ e ∈ sorted) :
    made.insertionSort (fun a b => a.index ≤ b.index) = sorted := by
  have perm : made.Perm sorted := by
    rw [perm_ext_iff_of_nodup distinct.of_map]
    · exact same
    · exact (pairwise_map.mp ascending).imp fun less equal => by simp [equal] at less
  have sort := perm_insertionSort (fun a b : InstanceStatusEntry R => a.index ≤ b.index) made
  apply List.Perm.eq_of_pairwise _ (pairwise_sort_entries made)
    ((pairwise_map.mp ascending).imp le_of_lt) (sort.trans perm)
  intro a b first second low high
  exact inj_on_of_nodup_map distinct (sort.mem_iff.mp first) (perm.mem_iff.mpr second)
    (le_antisymm low high)

theorem index_of_entryOf (made : entryOf row = some e) : e.index = row.index := by
  unfold entryOf at made
  split at made
  · cases made
  · rw [← Option.some.inj made]

@[simp] theorem present_present {α : Type} (list : Option (List α)) :
    present (present list) = present list := by
  simp [present]

theorem entryHasContent_of_entryOf (made : entryOf row = some e) : entryHasContent e = true := by
  unfold entryOf at made
  split at made
  · cases made
  · rename_i filled
    rw [← Option.some.inj made]
    unfold entryHasContent
    simp only [present_present]
    by_contra bare
    simp only [Bool.or_eq_true, Option.isSome_iff_ne_none, not_or, not_not, ne_eq] at bare
    exact filled (by simp [bare])

theorem entries_index_sublist (rows : List (InstanceStatus R)) :
    ((rows.filterMap entryOf).map (·.index)).Sublist (rows.map (·.index)) := by
  induction rows with
  | nil => exact List.Sublist.refl _
  | cons row rows ih =>
    rw [filterMap_cons, map_cons]
    cases made : entryOf row with
    | none => exact ih.cons _
    | some e =>
      rw [map_cons, index_of_entryOf made]
      exact ih.cons_cons _

theorem getD_entriesOf (rows : List (InstanceStatus R)) :
    (entriesOf rows).getD [] =
      (rows.filterMap entryOf).insertionSort fun a b => a.index ≤ b.index := by
  unfold entriesOf
  split
  · rename_i none
    rw [length_eq_zero_iff.mp none]
    rfl
  · rfl

theorem mem_entriesOf : e ∈ (entriesOf rows).getD [] ↔ ∃ row ∈ rows, entryOf row = some e := by
  rw [getD_entriesOf, (perm_insertionSort _ _).mem_iff, mem_filterMap]

/-- The entries of rows with distinct indexes are what the decoder asks for. -/
theorem entriesOk_entriesOf (nodup : (rows.map (·.index)).Nodup)
    (inside : ∀ row ∈ rows, row.index ∈ members.values) :
    entriesOf rows ≠ some [] ∧ EntriesOk members ((entriesOf rows).getD []) := by
  have perm := perm_insertionSort (fun a b : InstanceStatusEntry R => a.index ≤ b.index)
    (rows.filterMap entryOf)
  constructor
  · unfold entriesOf
    split
    · simp
    · rename_i filled
      rw [ne_eq, Option.some.injEq, ← length_eq_zero_iff, perm.length_eq]
      exact filled
  · refine ⟨?_, ?_, ?_⟩
    · rw [getD_entriesOf]
      have sorted := pairwise_sort_entries (rows.filterMap entryOf)
      have apart := (perm.map (·.index)).nodup_iff.mpr ((entries_index_sublist rows).nodup nodup)
      exact (pairwise_map.mpr sorted).imp₂ (fun _ _ => lt_of_le_of_ne) apart
    · intro e member
      obtain ⟨row, isRow, made⟩ := mem_entriesOf.mp member
      rw [index_of_entryOf made]
      exact inside row isRow
    · intro e member
      obtain ⟨row, isRow, made⟩ := mem_entriesOf.mp member
      exact entryHasContent_of_entryOf made

end Ome.StatusCodec
