/-
# Ome.StatusCodec.Checks — what a payload has to be to be accepted

One lemma for each check of the decoder besides the grouped columns: the optional
index sets, the entries and the row order.  `Accepted` puts them together
(`validateColumns_eq_ok`): it is all that the decoder knows of a payload, and all that
the encoder has to establish.
-/
import Ome.StatusCodec.GroupColumn

namespace Ome.StatusCodec

open Ome.Theory List

set_option autoImplicit false

variable {R : Records} {members : IndexSet}
variable {columns : InstanceStatusColumns R}

/-! ## Optional index sets -/

/-- The indexes of an optional set. -/
def listedIn (set : Option IndexSet) : List Int := (set.map (·.values)).getD []

/-- The set read from an optional text. -/
structure OptionalSetOk (members : IndexSet) (raw : Option String) (set : Option IndexSet) :
    Prop where
  parsed : ∀ s, set = some s → ∃ r, raw = some r ∧ parseIndexSet r members.cardinality = .ok s
  absent : set = none → raw = none
  inside : ∀ x ∈ listedIn set, x ∈ members.values

theorem validateOptionalIndexSet_eq_ok (valid : members.Valid) {raw : Option String}
    {set : Option IndexSet} :
    validateOptionalIndexSet raw members = .ok set ↔ OptionalSetOk members raw set := by
  cases raw with
  | none =>
    rw [validateOptionalIndexSet, Except.ok.injEq]
    constructor
    · rintro rfl
      exact ⟨by simp, fun _ => rfl, by simp [listedIn]⟩
    · rintro ⟨parsed, _, _⟩
      cases set with
      | none => rfl
      | some s =>
        obtain ⟨r, impossible, _⟩ := parsed s rfl
        cases impossible
  | some raw =>
    rw [validateOptionalIndexSet, bind_eq_ok]
    constructor
    · rintro ⟨s, read, rest⟩
      rw [refuse_bind_eq_ok, pure_eq_ok, Bool.not_eq_false] at rest
      obtain ⟨inside, rfl⟩ := rest
      refine ⟨?_, by simp, ?_⟩
      · rintro t same
        exact ⟨raw, rfl, Option.some.inj same ▸ read⟩
      · exact (isSubsetOf_iff (parseIndexSet_eq_ok.mp read).1 valid).mp inside
    · rintro ⟨parsed, absent, inside⟩
      cases set with
      | none => cases absent rfl
      | some s =>
        obtain ⟨r, same, read⟩ := parsed s rfl
        cases same
        refine ⟨s, read, ?_⟩
        rw [refuse_bind_eq_ok, pure_eq_ok, Bool.not_eq_false]
        exact ⟨(isSubsetOf_iff (parseIndexSet_eq_ok.mp read).1 valid).mpr inside, rfl⟩

/-! ## Entries -/

/-- Entries of members, ascending, each with a record. -/
structure EntriesOk (members : IndexSet) (entries : List (InstanceStatusEntry R)) : Prop where
  ascending : (entries.map (·.index)).Pairwise (· < ·)
  inside : ∀ e ∈ entries, e.index ∈ members.values
  content : ∀ e ∈ entries, entryHasContent e = true

/-- One entry passes behind the accepted ones exactly if all of them are in order. -/
theorem checkEntry_eq_ok (valid : members.Valid) {done : List (InstanceStatusEntry R)}
    {entry : InstanceStatusEntry R} {next : Option Int} (ok : EntriesOk members done) :
    checkEntry members (done.map (·.index)).getLast? entry = .ok next ↔
      EntriesOk members (done ++ [entry]) ∧ next = ((done ++ [entry]).map (·.index)).getLast? := by
  have order : (¬ (done.map (·.index)).getLast? = some entry.index ∧
      ¬ ∃ index ∈ (done.map (·.index)).getLast?, entry.index < index) ↔
        ∀ y ∈ done.map (·.index), y < entry.index := by
    rw [← not_le_last_iff ok.ascending]
    constructor
    · rintro ⟨other, behind⟩ ⟨last, isLast, before⟩
      rcases lt_or_eq_of_le before with less | same
      · exact behind ⟨last, isLast, less⟩
      · exact other (same ▸ isLast)
    · intro behind
      exact ⟨fun same => behind ⟨entry.index, same, le_refl _⟩,
        fun ⟨last, isLast, less⟩ => behind ⟨last, isLast, less.le⟩⟩
  rw [checkEntry, refuse_bind_eq_ok, refuse_bind_eq_ok, ← and_assoc, order, refuse_bind_eq_ok,
    refuse_bind_eq_ok, pure_eq_ok, Bool.not_eq_false, Bool.not_eq_false, contains_iff valid,
    map_append, map_singleton, List.getLast?_concat]
  constructor
  · rintro ⟨behind, inside, content, rfl⟩
    refine ⟨⟨?_, ?_, ?_⟩, rfl⟩
    · rw [map_append, map_singleton, pairwise_append]
      exact ⟨ok.ascending, pairwise_singleton _ _, by simpa using behind⟩
    · intro e member
      rcases mem_append.mp member with earlier | last
      · exact ok.inside e earlier
      · rw [mem_singleton.mp last]
        exact inside
    · intro e member
      rcases mem_append.mp member with earlier | last
      · exact ok.content e earlier
      · rw [mem_singleton.mp last]
        exact content
  · rintro ⟨⟨ascending, inside, content⟩, rfl⟩
    rw [map_append, map_singleton, pairwise_append] at ascending
    exact ⟨fun y member => ascending.2.2 y member entry.index (by simp),
      inside entry (by simp), content entry (by simp), rfl⟩

theorem EntriesOk.front {done : List (InstanceStatusEntry R)} {entry : InstanceStatusEntry R}
    (ok : EntriesOk members (done ++ [entry])) : EntriesOk members done := by
  refine ⟨?_, fun e member => ok.inside e (mem_append_left _ member),
    fun e member => ok.content e (mem_append_left _ member)⟩
  have ascending := ok.ascending
  rw [map_append] at ascending
  exact (pairwise_append.mp ascending).1

theorem EntriesOk.length_le {entries : List (InstanceStatusEntry R)} (valid : members.Valid)
    (ok : EntriesOk members entries) : entries.length ≤ members.cardinality := by
  have within : (entries.map (·.index)).Subperm members.values := by
    apply subperm_of_subset (ok.ascending.imp fun less => less.ne)
    intro x member
    obtain ⟨e, isEntry, rfl⟩ := mem_map.mp member
    exact ok.inside e isEntry
  simpa [valid.counted] using within.length_le

theorem validateEntries_eq_ok (valid : members.Valid)
    {entries : Option (List (InstanceStatusEntry R))} :
    validateEntries entries members = .ok () ↔
      entries ≠ some [] ∧ EntriesOk members (entries.getD []) := by
  have none : EntriesOk members ([] : List (InstanceStatusEntry R)) := by
    constructor <;> simp
  cases entries with
  | none => simp [validateEntries, none]
  | some entries =>
    have checked (last : Option Int) : entries.foldlM (checkEntry members) Option.none = .ok last ↔
        EntriesOk members entries ∧ last = (entries.map (·.index)).getLast? :=
      foldlM_eq_ok_of_spec none (fun _ _ => EntriesOk.front) fun _ _ _ => checkEntry_eq_ok valid
    rw [validateEntries, refuse_bind_eq_ok, refuse_bind_eq_ok, bind_eq_ok]
    simp only [checked, Option.getD_some, ne_eq, Option.some.injEq]
    constructor
    · rintro ⟨filled, _, _, ⟨ok, _⟩, _⟩
      exact ⟨fun empty => filled (by simp [empty]), ok⟩
    · rintro ⟨filled, ok⟩
      refine ⟨fun empty => filled (length_eq_zero_iff.mp empty), ?_, _, ⟨ok, rfl⟩, rfl⟩
      have := ok.length_le valid
      omega

/-! ## The row order -/

/-- A row order lists the members, and not in ascending order. -/
structure OrderOk (members : IndexSet) (order : List Int) : Prop where
  perm : order.Perm members.values
  unsorted : ¬ order.Pairwise (· < ·)

/-- The flags of the row order check once it has passed these indexes. -/
def OrderCheck.after (members : IndexSet) (done : List Int) : OrderCheck where
  seen := (done.map members.values.idxOf).reverse
  previous := done.getLast?
  ascending := done.Pairwise (· < ·)

/-- Members, each of them once. -/
def Distinct (members : IndexSet) (done : List Int) : Prop :=
  done.Nodup ∧ ∀ x ∈ done, x ∈ members.values

section

variable (valid : members.Valid)
include valid

theorem checkPosition_eq_ok {done : List Int} {x : Int} {s : OrderCheck}
    (distinct : Distinct members done) :
    checkPosition members members.prefixOffsets (OrderCheck.after members done) x = .ok s ↔
      Distinct members (done ++ [x]) ∧ s = OrderCheck.after members (done ++ [x]) := by
  have grown : Distinct members (done ++ [x]) ↔ x ∈ members.values ∧ x ∉ done := by
    rw [Distinct, ← concat_eq_append, nodup_concat, concat_eq_append, forall_mem_append,
      forall_mem_singleton]
    exact ⟨fun whole => ⟨whole.2.2, whole.1.1⟩, fun new => ⟨⟨new.2, distinct.1⟩, distinct.2, new.1⟩⟩
  have known : members.values.idxOf x ∈ (OrderCheck.after members done).seen ↔ x ∈ done := by
    simp only [OrderCheck.after, mem_reverse, mem_map]
    constructor
    · rintro ⟨y, earlier, same⟩
      rw [idxOf_inj (distinct.2 y earlier)] at same
      exact same ▸ earlier
    · intro earlier
      exact ⟨x, earlier, rfl⟩
  have behind : (!done.getLast?.any (x ≤ ·)) = true ↔ ¬ ∃ last ∈ done.getLast?, x ≤ last := by
    cases done.getLast? <;> simp
  have ascends : (decide (done.Pairwise (· < ·)) && !done.getLast?.any (x ≤ ·)) =
      decide ((done ++ [x]).Pairwise (· < ·)) := by
    rw [Bool.eq_iff_iff, Bool.and_eq_true, behind, decide_eq_true_iff, decide_eq_true_iff,
      pairwise_append]
    refine and_congr_right fun before => ?_
    rw [not_le_last_iff before]
    simp
  unfold checkPosition
  rw [rankOf_eq valid, grown]
  by_cases member : x ∈ members.values
  · rw [if_pos member]
    show refuse _ _ >>= _ = _ ↔ _
    rw [refuse_bind_eq_ok, pure_eq_ok, known, OrderCheck.after, OrderCheck.after, ascends]
    simp [member, eq_comm]
  · simp [member]

theorem validateRowOrder_eq_ok {order : Option (List Int)} :
    validateRowOrder order members members.prefixOffsets = .ok () ↔
      ∀ o, order = some o → OrderOk members o := by
  cases order with
  | none => simp [validateRowOrder]
  | some order =>
    have checked (s : OrderCheck) :
        order.foldlM (checkPosition members members.prefixOffsets) (.after members []) = .ok s ↔
          Distinct members order ∧ s = .after members order :=
      foldlM_eq_ok_of_spec (by simp [Distinct])
        (fun _ _ whole => ⟨(nodup_append.mp whole.1).1,
          fun x member => whole.2 x (mem_append_left _ member)⟩)
        fun _ _ _ => checkPosition_eq_ok valid
    have start : ({} : OrderCheck) = .after members [] := rfl
    rw [validateRowOrder, refuse_bind_eq_ok, refuse_bind_eq_ok, bind_eq_ok, start]
    simp only [refuse_eq_ok, Option.some.injEq, forall_eq', not_not, checked]
    constructor
    · rintro ⟨_, count, _, ⟨⟨nodup, inside⟩, rfl⟩, descends⟩
      refine ⟨?_, fun sorted => descends (decide_eq_true sorted)⟩
      apply (subperm_of_subset nodup inside).perm_of_length_le
      rw [count, valid.counted]
    · rintro ⟨perm, unsorted⟩
      refine ⟨?_, by rw [valid.counted, perm.length_eq], _,
        ⟨⟨perm.nodup_iff.mpr valid.nodup, fun x => perm.mem_iff.mp⟩, rfl⟩,
        fun sorted => unsorted (of_decide_eq_true sorted)⟩
      rw [perm.length_eq]
      exact fun empty => valid.values_ne_nil (length_eq_zero_iff.mp empty)

end

/-! ## The whole payload -/

/-- The column is absent or there, never empty, and its groups pass the check. -/
structure Column.Ok {V : Type} [LinearOrder V] (c : Column R V) (members : IndexSet)
    (columns : InstanceStatusColumns R) : Prop where
  filled : c.groups columns ≠ some []
  groups : GroupsOk members c.required c.inDomain ((c.groups columns).getD [])

def GroupedColumn.Ok (c : GroupedColumn R) (members : IndexSet)
    (columns : InstanceStatusColumns R) : Prop :=
  let _ := c.order
  c.column.Ok members columns

/-- The index sets of the column's groups. -/
def GroupedColumn.sets (c : GroupedColumn R) (members : IndexSet)
    (columns : InstanceStatusColumns R) : List IndexSet :=
  ((c.column.groups columns).getD []).map (·.set members.cardinality)

theorem GroupedColumn.validate_eq_ok (valid : members.Valid) (c : GroupedColumn R)
    {sets : List IndexSet} :
    c.validate columns members = .ok sets ↔
      c.Ok members columns ∧ sets = c.sets members columns := by
  let _ := c.order
  constructor
  · intro run
    obtain ⟨filled, groups, same⟩ := (validateGroupColumn_eq_ok valid).mp run
    exact ⟨⟨filled, groups⟩, same⟩
  · rintro ⟨⟨filled, groups⟩, same⟩
    exact (validateGroupColumn_eq_ok valid).mpr ⟨filled, groups, same⟩

/-- What the decoder accepts, with the index sets it reads. -/
structure Accepted (columns : InstanceStatusColumns R) (limit : Nat) (members : IndexSet)
    (admitted activeOrdinalOne : Option IndexSet) : Prop where
  parsed : parseIndexSet columns.members limit = .ok members
  grouped : ∀ c ∈ groupedColumns, c.Ok members columns
  admitted : OptionalSetOk members columns.admitted admitted
  activeOrdinalOne : OptionalSetOk members columns.activeOrdinalOne activeOrdinalOne
  filled : columns.entries ≠ some []
  entries : EntriesOk members (columns.entries.getD [])
  rowOrder : ∀ order, columns.rowOrder = some order → OrderOk members order

/-- The plan for an accepted payload. -/
def planOf (columns : InstanceStatusColumns R) (members : IndexSet)
    (admitted activeOrdinalOne : Option IndexSet) : DecodePlan where
  members := members
  memberOffsets := members.prefixOffsets
  rowOrder := columns.rowOrder
  groups := groupedColumns.map fun c : GroupedColumn R => c.sets members columns
  admitted := admitted
  activeOrdinalOne := activeOrdinalOne

theorem IndexSet.Valid.cardinality_le (valid : members.Valid) :
    members.cardinality ≤ maxInt32 + 1 := by
  have within :
      members.values.Subperm ((List.range (maxInt32 + 1)).map fun n : Nat => (n : Int)) := by
    apply subperm_of_subset valid.nodup
    intro x member
    obtain ⟨low, high⟩ := valid.mem_bounds member
    exact mem_map.mpr ⟨x.toNat, mem_range.mpr (by omega), by omega⟩
  have count := within.length_le
  rw [length_map, length_range] at count
  rw [valid.counted]
  exact count

theorem validateColumns_eq_ok {limit : Nat} {plan : DecodePlan} :
    validateColumns columns limit = .ok plan ↔
      ∃ members admitted activeOrdinalOne,
        Accepted columns limit members admitted activeOrdinalOne ∧
          plan = planOf columns members admitted activeOrdinalOne := by
  rw [validateColumns, refuse_bind_eq_ok, bind_eq_ok]
  constructor
  · rintro ⟨_, members, parsed, run⟩
    have valid := (parseIndexSet_eq_ok.mp parsed).1
    rw [refuse_bind_eq_ok] at run
    simp only [bind_eq_ok, pure_eq_ok, validateOptionalIndexSet_eq_ok valid,
      mapM_eq_ok_of_spec fun c sets => GroupedColumn.validate_eq_ok valid c] at run
    obtain ⟨_, _, ⟨grouped, rfl⟩, admitted, first, one, second, _, entries, _, rowOrder, rfl⟩ := run
    rw [validateEntries_eq_ok valid] at entries
    rw [validateRowOrder_eq_ok valid] at rowOrder
    exact ⟨members, admitted, one,
      ⟨parsed, grouped, first, second, entries.1, entries.2, rowOrder⟩, rfl⟩
  · rintro ⟨members, admitted, one, accepted, rfl⟩
    obtain ⟨valid, bound, _⟩ := parseIndexSet_eq_ok.mp accepted.parsed
    have some : 0 < members.cardinality := by
      rw [valid.counted]
      exact length_pos_iff.mpr valid.values_ne_nil
    have small := valid.cardinality_le
    unfold maxInt32 at small
    refine ⟨by omega, members, accepted.parsed, ?_⟩
    rw [refuse_bind_eq_ok]
    simp only [bind_eq_ok, pure_eq_ok, validateOptionalIndexSet_eq_ok valid,
      mapM_eq_ok_of_spec fun c sets => GroupedColumn.validate_eq_ok valid c]
    exact ⟨by omega, _, ⟨accepted.grouped, rfl⟩, admitted, accepted.admitted, one,
      accepted.activeOrdinalOne, (),
      (validateEntries_eq_ok valid).mpr ⟨accepted.filled, accepted.entries⟩, (),
      (validateRowOrder_eq_ok valid).mpr accepted.rowOrder, rfl⟩

/-- **What the decoder answers.** -/
theorem decodeColumns_eq_ok {limit : Nat} {rows : List (InstanceStatus R)} :
    decodeColumns (some columns) limit = .ok rows ↔
      ∃ members admitted activeOrdinalOne,
        Accepted columns limit members admitted activeOrdinalOne ∧
          rows = (planOf columns members admitted activeOrdinalOne).expand columns := by
  simp only [decodeColumns, bind_eq_ok, validateColumns_eq_ok, pure_eq_ok]
  constructor
  · rintro ⟨_, ⟨members, admitted, one, accepted, rfl⟩, rfl⟩
    exact ⟨members, admitted, one, accepted, rfl⟩
  · rintro ⟨members, admitted, one, accepted, rfl⟩
    exact ⟨_, ⟨members, admitted, one, accepted, rfl⟩, rfl⟩

end Ome.StatusCodec
