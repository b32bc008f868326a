/-
# Ome.StatusCodec.RoundTrip — the codec is a bijection

Decoding inverts encoding and encoding inverts decoding, up to what the codec does not
store: the counts that are observed from the Pods, and the difference between an empty
list and an absent one.

* `accepted_of_encoded`, `rowOf_of_encoded`: the encoder's payload is accepted, and each
  row comes back;
* `encoded_of_accepted`: the rows of an accepted payload are encoded as that payload.
-/
import Ome.StatusCodec.Encoded
import Ome.StatusCodec.Expand

namespace Ome.StatusCodec

open Ome.Theory InstanceStatusEntry List

set_option autoImplicit false

variable {R : Records} {members : IndexSet} {rows : List (InstanceStatus R)}
  {columns : InstanceStatusColumns R} {limit : Nat}
variable {row : InstanceStatus R} {carries : InstanceStatus R → Bool}

/-! ## What the codec stores -/

/-- The row as the codec stores it: the observed counts are cleared and empty lists are
absent. -/
def InstanceStatus.stored (row : InstanceStatus R) : InstanceStatus R :=
  { row with
    readyPodCount := 0
    scheduledPodCount := 0
    nodesOccupied := none
    conditions := present row.conditions
    announced := present row.announced }

/-- The entry with its empty lists absent. -/
def InstanceStatusEntry.plain (entry : InstanceStatusEntry R) : InstanceStatusEntry R :=
  { entry with
    conditions := present entry.conditions
    announced := present entry.announced }

/-- The payload with the empty lists of its entries absent. -/
def InstanceStatusColumns.plain (columns : InstanceStatusColumns R) : InstanceStatusColumns R :=
  { columns with entries := columns.entries.map (·.map InstanceStatusEntry.plain) }

/-! ## From rows to the payload and back -/

theorem entryOf_records (row : InstanceStatus R) :
    ((entryOf row).bind fun e => present e.conditions) = present row.conditions ∧
      (entryOf row).bind (·.readySince) = row.readySince ∧
      (entryOf row).bind (·.operation) = row.operation ∧
      (entryOf row).bind (·.lastFailure) = row.lastFailure ∧
      ((entryOf row).bind fun e => present e.announced) = present row.announced := by
  unfold entryOf
  split
  · rename_i bare
    simp only [Option.isNone_iff_eq_none] at bare
    simp [bare]
  · simp

section Encoded

variable (encoded : Encoded rows limit members columns)
  (fits : ∀ row ∈ rows, row.index ≤ maxInt32)

include encoded fits

theorem Encoded.facts :
    members.Valid ∧ members.values = (rows.map (·.index)).insertionSort (· ≤ ·) ∧
      (rows.map (·.index)).Nodup := by
  have bound : ∀ x ∈ rows.map (·.index), x ≤ (maxInt32 : Int) := by
    simpa using fits
  obtain ⟨_, nodup, _, valid, lists⟩ := (indexSetFromIndices_eq_ok bound).mp encoded.made
  exact ⟨valid, lists, nodup⟩

theorem Encoded.perm : (rows.map (·.index)).Perm members.values := by
  obtain ⟨_, lists, _⟩ := encoded.facts fits
  rw [lists]
  exact (perm_insertionSort (· ≤ ·) _).symm

theorem Encoded.cardinality_eq : members.cardinality = rows.length := by
  obtain ⟨valid, _, _⟩ := encoded.facts fits
  rw [valid.counted, ← (encoded.perm fits).length_eq, length_map]

theorem Encoded.index_mem (member : row ∈ rows) : row.index ∈ members.values :=
  (encoded.perm fits).mem_iff.mp (mem_map_of_mem member)

theorem Encoded.storedOrder_eq : storedOrder columns members = rows.map (·.index) := by
  obtain ⟨_, lists, _⟩ := encoded.facts fits
  unfold storedOrder
  rw [encoded.rowOrder]
  split
  · rename_i ascending
    rw [Option.getD_none, lists]
    exact (ascending.pairwise.imp le_of_lt).insertionSort_eq
  · rfl

/-- A grouped column is accepted, and gives every row its value back. -/
theorem Encoded.column {V : Type} [LinearOrder V] (c : Column R V) (zero : V)
    (built : buildGroups (c.collected rows) rows.length = .ok (c.groups columns))
    (covers : c.required = true → ∀ row ∈ rows, c.inDomain (c.field row) = true)
    (outside : ∀ row ∈ rows, c.inDomain (c.field row) = false → c.field row = zero) :
    c.Ok members columns ∧ ∀ row ∈ rows,
      (valueAt ((c.groups columns).getD []) members.cardinality row.index).getD zero =
        c.field row := by
  obtain ⟨valid, _, _⟩ := encoded.facts fits
  obtain ⟨filled, ok, values⟩ := Column.groupsOk_of_build valid (encoded.perm fits) covers built
  refine ⟨⟨filled, ok⟩, ?_⟩
  intro row member
  rw [values row member]
  by_cases domain : c.inDomain (c.field row) = true
  · rw [if_pos domain, Option.getD_some]
  · rw [if_neg domain, Option.getD_none, outside row member (by simpa using domain)]

/-- A flag is accepted, and marks the rows that carry it. -/
theorem Encoded.flag {raw : Option String}
    (made : encodeOptionalIndexSet ((rows.filter carries).map (·.index)) rows.length = .ok raw) :
    ∃ set, OptionalSetOk members raw set ∧
      ∀ row ∈ rows, row.index ∈ listedIn set ↔ carries row = true := by
  obtain ⟨valid, _, nodup⟩ := encoded.facts fits
  rw [← encoded.cardinality_eq fits, encodeOptionalIndexSet_eq_ok valid
    (((filter_sublist).map _).nodup nodup)] at made
  · obtain ⟨set, ok, perm⟩ := made
    refine ⟨set, ok, ?_⟩
    intro row member
    rw [← perm.mem_iff, mem_map]
    constructor
    · rintro ⟨other, isOther, same⟩
      obtain ⟨isRow, carried⟩ := mem_filter.mp isOther
      rw [← inj_on_of_nodup_map nodup isRow member same]
      exact carried
    · intro carried
      exact ⟨row, mem_filter.mpr ⟨member, carried⟩, rfl⟩
  · intro x member
    obtain ⟨row, isRow, rfl⟩ := mem_map.mp member
    exact encoded.index_mem fits (mem_filter.mp isRow).1

theorem Encoded.find_entry (member : row ∈ rows) :
    (columns.entries.getD []).find? (·.index = row.index) = entryOf row := by
  obtain ⟨_, _, nodup⟩ := encoded.facts fits
  rw [encoded.entries]
  cases found : ((entriesOf rows).getD []).find? (·.index = row.index) with
  | none =>
    cases made : entryOf row with
    | none => rfl
    | some e =>
      have missing := find?_eq_none.mp found e (mem_entriesOf.mpr ⟨row, member, made⟩)
      exact absurd (index_of_entryOf made) (by simpa using missing)
  | some e =>
    obtain ⟨other, isRow, made⟩ := mem_entriesOf.mp (mem_of_find?_eq_some found)
    have same : other.index = row.index := by
      rw [← index_of_entryOf made]
      simpa using find?_some found
    rw [← inj_on_of_nodup_map nodup isRow member same, made]

/-- **The encoder's payload is accepted, and every row comes back.** -/
theorem Encoded.accepted : ∃ admitted activeOrdinalOne,
    Accepted columns limit members admitted activeOrdinalOne ∧
      ∀ row ∈ rows, rowOf columns members admitted activeOrdinalOne row.index = row.stored := by
  obtain ⟨valid, lists, nodup⟩ := encoded.facts fits
  have encodable (row : InstanceStatus R) (member : row ∈ rows) :
      supportedPhase row.phase = true ∧ 0 ≤ row.podCount ∧ 0 ≤ row.servingPodCount ∧
        0 ≤ row.availablePodCount ∧ (row.activeOrdinal = 0 ∨ row.activeOrdinal = 1) := by
    have fine := encoded.encodable row member
    simp only [InstanceStatus.Unencodable, not_or, not_lt, not_and, not_not,
      Bool.not_eq_false] at fine
    exact ⟨fine.1, fine.2.1, fine.2.2.1, fine.2.2.2.1, by tauto⟩
  have built := encoded.grouped
  simp only [groupedColumns, mem_cons, not_mem_nil, or_false, forall_eq_or_imp,
    forall_eq] at built
  obtain ⟨phase, running, target, incarnation, pods, serving, available⟩ := built
  have revision {value : String} (outside : revisionDomain value = false) : value = "" := by
    simpa [revisionDomain] using outside
  have count {value : Int} (nonneg : 0 ≤ value) (outside : countDomain value = false) :
      value = 0 := by
    have : ¬ 0 < value := by simpa [countDomain] using outside
    omega
  have optional {P : Prop} (impossible : false = true) : P := by cases impossible
  -- each column passes the decoder's check, and a row reads its own value in it
  obtain ⟨phaseOk, phaseValue⟩ := encoded.column fits phaseColumn "" phase
    (fun _ row member => (encodable row member).1)
    (fun row member outside => absurd ((encodable row member).1.symm.trans outside) (by simp))
  obtain ⟨runningOk, runningValue⟩ := encoded.column fits runningRevisionColumn "" running
    optional (fun row member outside => revision outside)
  obtain ⟨targetOk, targetValue⟩ := encoded.column fits targetRevisionColumn "" target
    optional (fun row member outside => revision outside)
  obtain ⟨incarnationOk, incarnationValue⟩ := encoded.column fits incarnationColumn 0 incarnation
    optional (fun row member outside => by
      simpa [incarnationDomain, incarnationColumn] using outside)
  obtain ⟨podsOk, podsValue⟩ := encoded.column fits podCountColumn 0 pods
    optional (fun row member outside => count (encodable row member).2.1 outside)
  obtain ⟨servingOk, servingValue⟩ := encoded.column fits servingPodCountColumn 0 serving
    optional (fun row member outside => count (encodable row member).2.2.1 outside)
  obtain ⟨availableOk, availableValue⟩ := encoded.column fits availablePodCountColumn 0 available
    optional (fun row member outside => count (encodable row member).2.2.2.1 outside)
  obtain ⟨admitted, admittedOk, isAdmitted⟩ := encoded.flag fits encoded.admitted
  obtain ⟨one, oneOk, isOne⟩ := encoded.flag fits encoded.activeOrdinalOne
  obtain ⟨filled, entriesOk⟩ := entriesOk_entriesOf nodup fun row => encoded.index_mem fits
  refine ⟨admitted, one, ?_, ?_⟩
  · refine ⟨?_, ?_, admittedOk, oneOk, ?_, ?_, ?_⟩
    · refine parseIndexSet_eq_ok.mpr ⟨valid, ?_, encoded.members⟩
      rw [encoded.cardinality_eq fits]
      exact encoded.room
    · simp only [groupedColumns, mem_cons, not_mem_nil, or_false, forall_eq_or_imp,
        forall_eq]
      exact ⟨phaseOk, runningOk, targetOk, incarnationOk, podsOk, servingOk, availableOk⟩
    · rw [encoded.entries]
      exact filled
    · rw [encoded.entries]
      exact entriesOk
    · intro order present
      have rowOrder := encoded.rowOrder
      rw [present] at rowOrder
      split at rowOrder
      · cases rowOrder
      · rename_i descends
        rw [Option.some.inj rowOrder]
        exact ⟨encoded.perm fits, fun ascends => descends ascends.isChain⟩
  · intro row member
    -- field by field: the columns, the two flags, the sparse entry
    have records := entryOf_records row
    unfold rowOf groupedRow InstanceStatus.stored
    rw [encoded.find_entry fits member]
    simp only [InstanceStatus.mk.injEq, true_and]
    refine ⟨incarnationValue row member, phaseValue row member, runningValue row member,
      targetValue row member, podsValue row member, servingValue row member,
      availableValue row member, ?_, records.1, records.2.1, records.2.2.1, ?_,
      records.2.2.2.1, records.2.2.2.2⟩
    · simp only [isAdmitted row member, Bool.decide_eq_true]
    · simp only [isOne row member, decide_eq_true_eq]
      rcases (encodable row member).2.2.2.2 with zero | one
      · rw [if_neg (by omega), zero]
      · rw [if_pos one, one]

end Encoded

/-! ## From a payload to rows and back -/

section Decoded

variable {admitted activeOrdinalOne : Option IndexSet}
  (accepted : Accepted columns limit members admitted activeOrdinalOne)

/-- The rows of the payload. -/
def Accepted.decoded (_ : Accepted columns limit members admitted activeOrdinalOne) :
    List (InstanceStatus R) :=
  (storedOrder columns members).map (rowOf columns members admitted activeOrdinalOne)

theorem Accepted.map_index_decoded :
    accepted.decoded.map (·.index) = storedOrder columns members := by
  unfold decoded
  rw [map_map]
  exact map_id _

theorem Accepted.length_decoded : accepted.decoded.length = members.cardinality := by
  rw [decoded, length_map, accepted.perm.length_eq, accepted.valid.counted]

theorem Accepted.mem_decoded : row ∈ accepted.decoded ↔ ∃ k ∈ storedOrder columns members,
    rowOf columns members admitted activeOrdinalOne k = row := by
  rw [decoded, mem_map]

/-- An entry is made again from the row it was copied into. -/
theorem entryOf_rowOf (ok : EntriesOk members (columns.entries.getD [])) (k : Int) :
    entryOf (rowOf columns members admitted activeOrdinalOne k) =
      ((columns.entries.getD []).find? (·.index = k)).map plain := by
  unfold rowOf
  cases found : (columns.entries.getD []).find? (·.index = k) with
  | none => simp [entryOf, present]
  | some e =>
    have content := ok.content e (mem_of_find?_eq_some found)
    have same : e.index = k := by simpa using find?_some found
    unfold entryOf
    rw [if_neg]
    · simp [plain, groupedRow, same]
    · simp only [Option.bind_some, present_present, Option.isNone_iff_eq_none]
      rintro ⟨conditions, readySince, operation, lastFailure, announced⟩
      simp [entryHasContent, conditions, readySince, operation, lastFailure, announced] at content

include accepted

/-- A flag is encoded as the set it was read from. -/
theorem Accepted.flag {raw : Option String} {set : Option IndexSet}
    (ok : OptionalSetOk members raw set)
    (carry : ∀ k, carries (rowOf columns members admitted activeOrdinalOne k) = true ↔
      k ∈ listedIn set) :
    encodeOptionalIndexSet ((accepted.decoded.filter carries).map (·.index))
      accepted.decoded.length = .ok raw := by
  have nodup : ((accepted.decoded.filter carries).map (·.index)).Nodup := by
    apply ((filter_sublist).map _).nodup
    rw [accepted.map_index_decoded]
    exact accepted.sound.nodup
  have listed (k : Int) :
      k ∈ (accepted.decoded.filter carries).map (·.index) ↔ k ∈ listedIn set := by
    simp only [mem_map, mem_filter, accepted.mem_decoded]
    constructor
    · rintro ⟨_, ⟨⟨j, _, rfl⟩, carried⟩, rfl⟩
      exact (carry j).mp carried
    · intro inSet
      exact ⟨_, ⟨⟨k, accepted.perm.mem_iff.mpr (ok.inside k inSet), rfl⟩, (carry k).mpr inSet⟩, rfl⟩
  rw [accepted.length_decoded, encodeOptionalIndexSet_eq_ok accepted.valid nodup
    fun k member => ok.inside k ((listed k).mp member)]
  refine ⟨set, ok, (perm_ext_iff_of_nodup nodup ?_).mpr listed⟩
  cases set with
  | none => exact nodup_nil
  | some s =>
    obtain ⟨r, _, read⟩ := ok.parsed s rfl
    exact (parseIndexSet_eq_ok.mp read).1.nodup

/-- The entries are made again, with their empty lists absent. -/
theorem Accepted.entriesOf_eq :
    entriesOf accepted.decoded = columns.entries.map (·.map plain) := by
  have ok := accepted.entries
  have distinct : ((columns.entries.getD []).map (·.index)).Nodup :=
    ok.ascending.imp fun less => less.ne
  have same (e : InstanceStatusEntry R) :
      e ∈ accepted.decoded.filterMap entryOf ↔ e ∈ (columns.entries.getD []).map plain := by
    simp only [mem_filterMap, accepted.mem_decoded, mem_map]
    constructor
    · rintro ⟨_, ⟨k, _, rfl⟩, made⟩
      rw [entryOf_rowOf ok] at made
      obtain ⟨found, isFound, rfl⟩ := Option.map_eq_some_iff.mp made
      exact ⟨found, mem_of_find?_eq_some isFound, rfl⟩
    · rintro ⟨entry, isEntry, rfl⟩
      refine ⟨_, ⟨entry.index, accepted.perm.mem_iff.mpr (ok.inside entry isEntry), rfl⟩, ?_⟩
      rw [entryOf_rowOf ok, find?_key distinct isEntry]
      rfl
  have madeDistinct : ((accepted.decoded.filterMap entryOf).map (·.index)).Nodup := by
    apply (entries_index_sublist _).nodup
    rw [accepted.map_index_decoded]
    exact accepted.sound.nodup
  have filled := accepted.filled
  have ascending := ok.ascending
  cases stored : columns.entries with
  | none =>
    rw [stored, Option.getD_none, map_nil] at same
    rw [entriesOf, if_pos (length_eq_zero_iff.mpr (eq_nil_iff_forall_not_mem.mpr
      fun e member => not_mem_nil ((same e).mp member)))]
    rfl
  | some entries =>
    rw [stored, Option.getD_some] at same ascending
    rw [stored, ne_eq, Option.some.injEq] at filled
    obtain ⟨e, isEntry⟩ := exists_mem_of_ne_nil _ filled
    have made := (same _).mpr (mem_map_of_mem isEntry)
    rw [entriesOf, if_neg (fun none => by simp [length_eq_zero_iff.mp none] at made),
      Option.map_some, sort_entries_eq madeDistinct _ same]
    rw [map_map]
    exact ascending

/-- Every row of an accepted payload can be encoded. -/
theorem Accepted.encodable {k : Int} (member : k ∈ members.values) :
    ¬ (rowOf columns members admitted activeOrdinalOne k).Unencodable := by
  have grouped := accepted.grouped
  simp only [groupedColumns, mem_cons, not_mem_nil, or_false, forall_eq_or_imp,
    forall_eq] at grouped
  obtain ⟨phase, -, -, -, pods, serving, available⟩ := grouped
  have supported : supportedPhase (rowOf columns members admitted activeOrdinalOne k).phase =
      true := by
    obtain ⟨g, isGroup, listed⟩ := phase.groups.covering rfl k member
    have value := valueAt_of_mem phase.groups.disjoint isGroup listed
    show supportedPhase ((valueAt (columns.phases.getD []) members.cardinality k).getD "") = true
    rw [show valueAt (columns.phases.getD []) members.cardinality k = some g.value from value,
      Option.getD_some]
    exact phase.groups.domain g isGroup
  have count {gs : List (Group Int)} (ok : GroupsOk members false countDomain gs) :
      0 ≤ (valueAt gs members.cardinality k).getD 0 := by
    cases given : valueAt gs members.cardinality k with
    | none => exact le_refl 0
    | some v =>
      obtain ⟨g, isGroup, rfl, _⟩ := exists_of_valueAt given
      have positive : 0 < g.value := by simpa [countDomain] using ok.domain g isGroup
      exact positive.le
  have ordinal : (rowOf columns members admitted activeOrdinalOne k).activeOrdinal = 0 ∨
      (rowOf columns members admitted activeOrdinalOne k).activeOrdinal = 1 := by
    show (if k ∈ listedIn activeOrdinalOne then 1 else 0 : Int) = 0 ∨
      (if k ∈ listedIn activeOrdinalOne then 1 else 0 : Int) = 1
    split <;> simp
  rintro (bad | bad | bad | bad | ⟨notZero, notOne⟩)
  · rw [supported] at bad
    cases bad
  · exact absurd (count pods.groups) (not_le.mpr bad)
  · exact absurd (count serving.groups) (not_le.mpr bad)
  · exact absurd (count available.groups) (not_le.mpr bad)
  · exact ordinal.elim notZero notOne

/-- **The rows of an accepted payload are encoded as that payload.** -/
theorem Accepted.encoded :
    Encoded accepted.decoded limit members columns.plain := by
  have valid := accepted.valid
  have perm := accepted.perm
  have ascends : members.values.Pairwise (· < ·) := valid.canonical.pairwise_members
  have indexes := accepted.map_index_decoded
  have length := accepted.length_decoded
  obtain ⟨_, room, text⟩ := parseIndexSet_eq_ok.mp accepted.parsed
  constructor
  · intro none
    rw [none, valid.counted] at length
    exact valid.values_ne_nil (length_eq_zero_iff.mp length.symm)
  · omega
  · intro row member
    obtain ⟨k, isIndex, rfl⟩ := accepted.mem_decoded.mp member
    exact accepted.encodable (perm.mem_iff.mp isIndex)
  · rw [indexes]
    have bounds (x : Int) (member : x ∈ storedOrder columns members) :=
      valid.mem_bounds (perm.mem_iff.mp member)
    refine (indexSetFromIndices_eq_ok fun x member => (bounds x member).2).mpr
      ⟨fun x member => (bounds x member).1, accepted.sound.nodup, ?_, valid, ?_⟩
    · rw [← indexes, length_map, length]
      exact room
    · exact Perm.eq_of_pairwise' (r := (· ≤ ·)) (ascends.imp le_of_lt)
        (pairwise_insertionSort _ _)
        (perm.symm.trans (perm_insertionSort (· ≤ ·) _).symm)
  · exact text
  · rw [indexes]
    show columns.rowOrder = _
    unfold storedOrder
    cases stored : columns.rowOrder with
    | none => rw [Option.getD_none, if_pos ascends.isChain]
    | some order =>
      have unsorted := (accepted.rowOrder order stored).unsorted
      rw [Option.getD_some, if_neg fun chain => unsorted chain.pairwise]
  · have grouped := accepted.grouped
    simp only [groupedColumns, mem_cons, not_mem_nil, or_false, forall_eq_or_imp,
      forall_eq] at grouped ⊢
    obtain ⟨phase, running, target, incarnation, pods, serving, available⟩ := grouped
    -- a column rebuilt from the decoded rows has the groups it was read from
    have build {V : Type} [LinearOrder V] {c : Column R V} (ok : c.Ok members columns) (zero : V)
        (outside : c.inDomain zero = false)
        (carry : ∀ k, c.field (rowOf columns members admitted activeOrdinalOne k) =
          (valueAt ((c.groups columns).getD []) members.cardinality k).getD zero) :
        buildGroups (c.collected accepted.decoded) accepted.decoded.length =
          .ok (c.groups columns) := by
      refine Column.build_of_groupsOk valid (indexes ▸ perm) ok.filled ok.groups outside ?_
      intro row member
      obtain ⟨k, _, rfl⟩ := accepted.mem_decoded.mp member
      exact carry k
    have noPhase : phaseDomain "" = false := by decide
    have noRevision : revisionDomain "" = false := by decide
    have noIncarnation : incarnationDomain 0 = false := by decide
    have noCount : countDomain 0 = false := by decide
    exact ⟨build phase "" noPhase fun _ => rfl, build running "" noRevision fun _ => rfl,
      build target "" noRevision fun _ => rfl, build incarnation 0 noIncarnation fun _ => rfl,
      build pods 0 noCount fun _ => rfl, build serving 0 noCount fun _ => rfl,
      build available 0 noCount fun _ => rfl⟩
  · exact accepted.flag accepted.admitted fun k => decide_eq_true_iff
  · refine accepted.flag accepted.activeOrdinalOne fun k => ?_
    simp [rowOf]
  · exact accepted.entriesOf_eq.symm

end Decoded

/-! ## The codec -/

theorem decodeColumns_of_encodeColumns (fits : ∀ row ∈ rows, row.index ≤ maxInt32)
    (made : encodeColumns rows limit = .ok columns) :
    decodeColumns (some columns) limit = .ok (rows.map InstanceStatus.stored) := by
  obtain ⟨members, encoded⟩ := encodeColumns_eq_ok.mp made
  obtain ⟨admitted, one, accepted, back⟩ := encoded.accepted fits
  refine decodeColumns_eq_ok.mpr ⟨members, admitted, one, accepted, ?_⟩
  rw [expand_eq accepted, encoded.storedOrder_eq fits, map_map]
  exact map_congr_left fun row member => (back row member).symm

theorem encodeColumns_of_decodeColumns (read : decodeColumns (some columns) limit = .ok rows) :
    encodeColumns rows limit = .ok columns.plain := by
  obtain ⟨members, admitted, one, accepted, rfl⟩ := decodeColumns_eq_ok.mp read
  rw [expand_eq accepted]
  exact encodeColumns_eq_ok.mpr ⟨members, accepted.encoded⟩

theorem decodeColumns_bounds (read : decodeColumns (some columns) limit = .ok rows) :
    rows.length ≤ limit ∧ (rows.map (·.index)).Nodup ∧ ∀ row ∈ rows, 0 ≤ row.index := by
  obtain ⟨members, admitted, one, accepted, rfl⟩ := decodeColumns_eq_ok.mp read
  have valid := accepted.valid
  have perm := accepted.perm
  rw [expand_eq accepted]
  refine ⟨?_, ?_, ?_⟩
  · exact accepted.length_decoded.trans_le (parseIndexSet_eq_ok.mp accepted.parsed).2.1
  · show (accepted.decoded.map (·.index)).Nodup
    rw [accepted.map_index_decoded]
    exact accepted.sound.nodup
  · intro row member
    obtain ⟨k, isIndex, rfl⟩ := accepted.mem_decoded.mp member
    exact (valid.mem_bounds (perm.mem_iff.mp isIndex)).1

/-- **The columnar codec is a bijection.**  What the encoder accepts is decoded to the
same rows in the same order; what the decoder accepts is encoded to the same payload, so
two accepted payloads of the same rows are one; and the decoded rows are at most as many
as the limit allows, with distinct indexes that are not negative. -/
theorem columnar_codec_bijective (R : Records) (maxInstances : Nat) :
    (∀ (rows : List (InstanceStatus R)) (columns : InstanceStatusColumns R),
      (∀ row ∈ rows, row.index ≤ maxInt32) → encodeColumns rows maxInstances = .ok columns →
        decodeColumns (some columns) maxInstances = .ok (rows.map InstanceStatus.stored)) ∧
    (∀ (payload : Option (InstanceStatusColumns R)) (rows : List (InstanceStatus R)),
      decodeColumns payload maxInstances = .ok rows →
        ∃ columns, payload = some columns ∧ encodeColumns rows maxInstances = .ok columns.plain) ∧
    (∀ (one other : InstanceStatusColumns R) (rows : List (InstanceStatus R)),
      decodeColumns (some one) maxInstances = .ok rows →
        decodeColumns (some other) maxInstances = .ok rows → one.plain = other.plain) ∧
    (∀ (payload : Option (InstanceStatusColumns R)) (rows : List (InstanceStatus R)),
      decodeColumns payload maxInstances = .ok rows →
        rows.length ≤ maxInstances ∧ (rows.map (·.index)).Nodup ∧ ∀ row ∈ rows, 0 ≤ row.index) := by
  refine ⟨?_, ?_, ?_, ?_⟩
  · intro rows columns fits made
    exact decodeColumns_of_encodeColumns fits made
  · intro payload rows read
    cases payload with
    | none => cases read
    | some columns => exact ⟨columns, rfl, encodeColumns_of_decodeColumns read⟩
  · intro one other rows first second
    have same := (encodeColumns_of_decodeColumns first).symm.trans
      (encodeColumns_of_decodeColumns second)
    exact Except.ok.inj same
  · intro payload rows read
    cases payload with
    | none => cases read
    | some columns => exact decodeColumns_bounds read

/-- Three rows out of order, one of them with an empty list. -/
def unsortedRows : List (InstanceStatus ⟨Unit, Unit, Unit, Unit⟩) :=
  [{ index := 4, phase := "Ready", podCount := 2, readyPodCount := 2, admitted := true,
     conditions := some [] },
    { index := 1, phase := "Ready", incarnation := 3, operation := some (), activeOrdinal := 1 },
    { index := 2, phase := "Pending", announced := some ["a"] }]

theorem unsortedRows_comes_back :
    ∃ columns, encodeColumns unsortedRows 3 = .ok columns ∧
      decodeColumns (some columns) 3 = .ok (unsortedRows.map InstanceStatus.stored) := by
  have made : (encodeColumns unsortedRows 3).toOption.isSome = true := by decide +kernel
  cases encoded : encodeColumns unsortedRows 3 with
  | error reason => simp [encoded, Except.toOption] at made
  | ok columns =>
    exact ⟨columns, rfl, (columnar_codec_bijective _ 3).1 unsortedRows columns
      (by decide) encoded⟩

end Ome.StatusCodec
