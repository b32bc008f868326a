/-
# Ome.StatusCodec.GroupColumn — one spelling for each column

A column is built from the rows and checked against the members.

* `GroupsOk`: what the check of a column's groups says (`validateGroupColumn_eq_ok`);
* `groupsOk_of_build`: the groups built from rows pass the check, and give every row
  its value back (`valueAt`);
* `build_of_groupsOk`: groups that pass the check are the ones built from any rows that
  carry the values they give.
-/
import Ome.StatusCodec.Columns
import Ome.StatusCodec.IndexSetOperations

namespace Ome.StatusCodec

open Ome.Theory Coverage GoMap
open List hiding after

set_option autoImplicit false

variable {R : Records} {V : Type}
variable {g : Group V} {n : Nat} {groups : Option (List (Group V))} {m : GoMap V (List Int)}

/-! ## What a column's groups say -/

namespace Group

/-- The index set of a group, when it can be read under the limit. -/
def set (g : Group V) (n : Nat) : IndexSet :=
  (parseIndexSet g.indexes n).toOption.getD ⟨[], 0⟩

/-- The indexes of a group. -/
def listed (g : Group V) (n : Nat) : List Int := (g.set n).values

theorem set_eq {s : IndexSet} (read : parseIndexSet g.indexes n = .ok s) : g.set n = s := by
  rw [set, read]
  rfl

end Group

/-- The value that the groups give to an index. -/
def valueAt (gs : List (Group V)) (n : Nat) (x : Int) : Option V :=
  (gs.find? fun g => x ∈ g.listed n).map (·.value)

variable [LinearOrder V]

/-- The groups of a column are readable, within the members and disjoint, their values
in the domain and ascending; those of a required column cover the members. -/
structure GroupsOk (members : IndexSet) (required : Bool) (inDomain : V → Bool)
    (gs : List (Group V)) : Prop where
  parsed : ∀ g ∈ gs, parseIndexSet g.indexes members.cardinality =
    .ok (g.set members.cardinality)
  inside : ∀ g ∈ gs, ∀ x ∈ g.listed members.cardinality, x ∈ members.values
  domain : ∀ g ∈ gs, inDomain g.value = true
  ascending : (gs.map (·.value)).Pairwise (· < ·)
  disjoint : (gs.flatMap (·.listed members.cardinality)).Nodup
  covering : required = true → ∀ x ∈ members.values, ∃ g ∈ gs, x ∈ g.listed members.cardinality

variable {members : IndexSet} {required : Bool} {inDomain : V → Bool} {gs : List (Group V)}

theorem GroupsOk.valid (ok : GroupsOk members required inDomain gs)
    (member : g ∈ gs) : (g.set members.cardinality).Valid :=
  (parseIndexSet_eq_ok.mp (ok.parsed g member)).1

omit [LinearOrder V] in
theorem valueAt_of_mem (disjoint : (gs.flatMap (·.listed members.cardinality)).Nodup)
    (member : g ∈ gs) {x : Int} (inside : x ∈ g.listed members.cardinality) :
    valueAt gs members.cardinality x = some g.value := by
  induction gs with
  | nil => cases member
  | cons h gs ih =>
    rw [flatMap_cons, nodup_append] at disjoint
    unfold valueAt
    rcases mem_cons.mp member with rfl | later
    · rw [List.find?_cons_of_pos (by simpa using inside)]
      rfl
    · have other : x ∉ h.listed members.cardinality := by
        intro first
        exact disjoint.2.2 x first x (mem_flatMap.mpr ⟨g, later, inside⟩) rfl
      rw [List.find?_cons_of_neg (by simpa using other)]
      exact ih disjoint.2.1 later

omit [LinearOrder V] in
theorem exists_of_valueAt {x : Int} {v : V} (given : valueAt gs n x = some v) :
    ∃ g ∈ gs, g.value = v ∧ x ∈ g.listed n := by
  obtain ⟨g, found, same⟩ := Option.map_eq_some_iff.mp given
  exact ⟨g, mem_of_find?_eq_some found, same, by simpa using List.find?_some found⟩

/-! ## The check -/

theorem not_le_last_iff {l : List V} (ascending : l.Pairwise (· < ·)) (v : V) :
    (¬ ∃ last ∈ l.getLast?, v ≤ last) ↔ ∀ y ∈ l, y < v := by
  rcases eq_nil_or_concat' l with rfl | ⟨front, last, rfl⟩
  · simp
  · rw [List.getLast?_concat]
    have before := (pairwise_append.mp ascending).2.2
    constructor
    · intro behind y member
      have less : last < v := by simpa using behind
      rcases mem_append.mp member with earlier | rest
      · exact (before y earlier last (by simp)).trans less
      · rw [mem_singleton.mp rest]
        exact less
    · intro behind
      simpa using behind last (by simp)

/-- The check once it has passed these groups. -/
def Coverage.after (members : IndexSet) (gs : List (Group V)) : Coverage V :=
  ⟨(gs.map (·.value)).getLast?, (gs.map fun g => (g.set members.cardinality).cardinality).sum,
    gs.map (·.set members.cardinality)⟩

/-- What the check asks of each group: to be readable, within the members and of a
value in the domain. -/
structure GroupOk (members : IndexSet) (inDomain : V → Bool) (g : Group V) : Prop where
  parsed : parseIndexSet g.indexes members.cardinality = .ok (g.set members.cardinality)
  inside : ∀ x ∈ g.listed members.cardinality, x ∈ members.values
  domain : inDomain g.value = true

/-- What the check has established once it has passed these groups. -/
structure Passed (members : IndexSet) (inDomain : V → Bool) (gs : List (Group V)) : Prop where
  oks : ∀ g ∈ gs, GroupOk members inDomain g
  ascending : (gs.map (·.value)).Pairwise (· < ·)
  room : (gs.map fun g => (g.set members.cardinality).cardinality).sum ≤ members.cardinality

theorem Passed.front (passed : Passed members inDomain (gs ++ [g])) :
    Passed members inDomain gs := by
  obtain ⟨oks, ascending, room⟩ := passed
  rw [map_append] at ascending room
  rw [List.sum_append] at room
  exact ⟨fun h member => oks h (mem_append_left _ member), (pairwise_append.mp ascending).1,
    by omega⟩

theorem checkGroup_eq_ok (valid : members.Valid) {seen : Coverage V}
    (passed : Passed members inDomain gs) :
    checkGroup members inDomain (after members gs) g = .ok seen ↔
      Passed members inDomain (gs ++ [g]) ∧ seen = after members (gs ++ [g]) := by
  have order : (¬ ∃ previous ∈ (after members gs).previous, g.value ≤ previous) ↔
      ((gs ++ [g]).map (·.value)).Pairwise (· < ·) := by
    rw [show (after members gs).previous = (gs.map (·.value)).getLast? from rfl,
      not_le_last_iff passed.ascending]
    simp only [map_append, map_singleton, pairwise_append,
      pairwise_singleton, mem_singleton, forall_eq, passed.ascending, true_and]
  rw [checkGroup, refuse_bind_eq_ok, refuse_bind_eq_ok, order, Bool.not_eq_false]
  constructor
  · rintro ⟨domain, ascends, run⟩
    obtain ⟨set, read, rest⟩ := bind_eq_ok.mp run
    rw [refuse_bind_eq_ok, refuse_bind_eq_ok, pure_eq_ok, Bool.not_eq_false] at rest
    obtain ⟨inside, room, rfl⟩ := rest
    obtain rfl := Group.set_eq read
    have subset := (isSubsetOf_iff (parseIndexSet_eq_ok.mp read).1 valid).mp inside
    refine ⟨⟨?_, ascends, ?_⟩, ?_⟩
    · rw [forall_mem_append, forall_mem_singleton]
      exact ⟨passed.oks, read, subset, domain⟩
    · simpa [after] using room
    · simp [after]
  · rintro ⟨⟨oks, ascends, room⟩, rfl⟩
    obtain ⟨read, inside, domain⟩ := oks g (by simp)
    refine ⟨domain, ascends, bind_eq_ok.mpr ⟨_, read, ?_⟩⟩
    rw [refuse_bind_eq_ok, refuse_bind_eq_ok, pure_eq_ok, Bool.not_eq_false]
    refine ⟨(isSubsetOf_iff (parseIndexSet_eq_ok.mp read).1 valid).mpr inside, ?_, ?_⟩
    · simpa [after] using room
    · simp [after]

omit [LinearOrder V] in
theorem sum_cardinality (oks : ∀ g ∈ gs, GroupOk members inDomain g) :
    (gs.map fun g => (g.set members.cardinality).cardinality).sum =
      (gs.flatMap (·.listed members.cardinality)).length := by
  rw [length_flatMap]
  congr 1
  apply map_congr_left
  intro g member
  exact (parseIndexSet_eq_ok.mp (oks g member).parsed).1.counted

theorem GroupsOk.oks (ok : GroupsOk members required inDomain gs) :
    ∀ g ∈ gs, GroupOk members inDomain g := fun g member =>
  ⟨ok.parsed g member, ok.inside g member, ok.domain g member⟩

omit [LinearOrder V] in
/-- The groups list members, each at most once. -/
theorem subperm_members (inside : ∀ g ∈ gs, ∀ x ∈ g.listed members.cardinality, x ∈ members.values)
    (disjoint : (gs.flatMap (·.listed members.cardinality)).Nodup) :
    (gs.flatMap (·.listed members.cardinality)).Subperm members.values := by
  apply subperm_of_subset disjoint
  intro x member
  obtain ⟨g, isGroup, listed⟩ := mem_flatMap.mp member
  exact inside g isGroup x listed

omit [LinearOrder V] in
theorem disjointIndexSets_sets (oks : ∀ g ∈ gs, GroupOk members inDomain g) :
    disjointIndexSets (gs.map (·.set members.cardinality)) = true ↔
      (gs.flatMap (·.listed members.cardinality)).Nodup := by
  rw [disjointIndexSets_iff, flatMap_map]
  · rfl
  · intro s member
    obtain ⟨g, isGroup, rfl⟩ := mem_map.mp member
    exact (parseIndexSet_eq_ok.mp (oks g isGroup).parsed).1

theorem validateGroupColumn_some (valid : members.Valid) (nonempty : gs ≠ [])
    {sets : List IndexSet} :
    validateGroupColumn (some gs) members required inDomain = .ok sets ↔
      GroupsOk members required inDomain gs ∧ sets = gs.map (·.set members.cardinality) := by
  have shape : validateGroupColumn (some gs) members required inDomain = (do
      refuse (members.cardinality < gs.length) .cardinalityLimit
      let seen ← gs.foldlM (checkGroup members inDomain) {}
      refuse (required = true ∧ seen.covered ≠ members.cardinality) .coverage
      refuse (disjointIndexSets seen.sets = false) .coverage
      pure seen.sets) := by
    cases gs with
    | nil => exact absurd rfl nonempty
    | cons g gs => rfl
  have start : ({} : Coverage V) = after members [] := rfl
  have checked (seen : Coverage V) :
      gs.foldlM (checkGroup members inDomain) (after members []) = .ok seen ↔
        Passed members inDomain gs ∧ seen = after members gs :=
    foldlM_eq_ok_of_spec ⟨by simp, List.Pairwise.nil, by simp⟩ (fun _ _ => Passed.front)
      fun _ _ _ => checkGroup_eq_ok valid
  rw [shape, refuse_bind_eq_ok, start]
  constructor
  · rintro ⟨_, run⟩
    obtain ⟨seen, passes, rest⟩ := bind_eq_ok.mp run
    obtain ⟨⟨oks, ascending, bound⟩, rfl⟩ := (checked seen).mp passes
    rw [refuse_bind_eq_ok, refuse_bind_eq_ok, pure_eq_ok, Bool.not_eq_false] at rest
    obtain ⟨exactly, disjoint, rfl⟩ := rest
    have nodup := (disjointIndexSets_sets oks).mp disjoint
    have inside := fun g member => (oks g member).inside
    refine ⟨⟨fun g member => (oks g member).parsed, inside, fun g member => (oks g member).domain,
      ascending, nodup, ?_⟩, rfl⟩
    -- As many indexes as members, all different and members: every member.
    intro isRequired x member
    have count : (gs.flatMap (·.listed members.cardinality)).length = members.values.length := by
      rw [← sum_cardinality oks, ← valid.counted]
      by_contra differ
      exact exactly ⟨isRequired, differ⟩
    have perm := (subperm_members inside nodup).perm_of_length_le count.ge
    exact mem_flatMap.mp (perm.mem_iff.mpr member)
  · rintro ⟨ok, rfl⟩
    have total := sum_cardinality ok.oks
    have within := (subperm_members ok.inside ok.disjoint).length_le
    rw [← total, ← valid.counted] at within
    have several : gs.length ≤
        (gs.map fun g => (g.set members.cardinality).cardinality).sum := by
      have each := length_le_sum_of_one_le
        (gs.map fun g => (g.set members.cardinality).cardinality) ?_
      · simpa using each
      · intro count member
        obtain ⟨g, isGroup, rfl⟩ := mem_map.mp member
        rw [(ok.valid isGroup).counted]
        exact length_pos_iff.mpr (ok.valid isGroup).values_ne_nil
    refine ⟨by omega, bind_eq_ok.mpr
      ⟨_, (checked _).mpr ⟨⟨ok.oks, ok.ascending, within⟩, rfl⟩, ?_⟩⟩
    rw [refuse_bind_eq_ok, refuse_bind_eq_ok, pure_eq_ok, Bool.not_eq_false]
    refine ⟨?_, (disjointIndexSets_sets ok.oks).mpr ok.disjoint, rfl⟩
    rintro ⟨isRequired, differ⟩
    have covers : members.values.Subperm (gs.flatMap (·.listed members.cardinality)) := by
      apply subperm_of_subset valid.nodup
      intro x member
      exact mem_flatMap.mpr (ok.covering isRequired x member)
    have enough := covers.length_le
    rw [← total, ← valid.counted] at enough
    exact differ (le_antisymm within enough)

/-- **What the check of a column accepts.** -/
theorem validateGroupColumn_eq_ok (valid : members.Valid) {sets : List IndexSet} :
    validateGroupColumn groups members required inDomain = .ok sets ↔
      groups ≠ some [] ∧ GroupsOk members required inDomain (groups.getD []) ∧
        sets = (groups.getD []).map (·.set members.cardinality) := by
  match groups with
  | none =>
    cases required with
    | false =>
      have ok : GroupsOk members false inDomain [] := by
        constructor <;> simp
      simp [validateGroupColumn, ok, eq_comm]
    | true =>
      -- A required column that is absent covers nothing, and there are members.
      have uncovered : ¬ GroupsOk members true inDomain [] := by
        intro ok
        obtain ⟨x, rest, shape⟩ := exists_cons_of_ne_nil valid.values_ne_nil
        obtain ⟨g, member, _⟩ := ok.covering rfl x (by simp [shape])
        cases member
      simp [validateGroupColumn, uncovered]
  | some [] =>
    cases required with
    | false | true => simp [validateGroupColumn]
  | some (g :: rest) =>
    rw [validateGroupColumn_some valid (cons_ne_nil g rest)]
    simp

/-! ## Building a column -/

omit [LinearOrder V] in
theorem forall₂_groups {keys : List V} :
    List.Forall₂ (fun v g => (do
      let indexes ← encodeIndexSet (m.get v) n
      pure (⟨v, indexes⟩ : Group V)) = .ok g) keys gs ↔
      gs.map (·.value) = keys ∧ ∀ g ∈ gs, encodeIndexSet (m.get g.value) n = .ok g.indexes := by
  have each (v : V) (g : Group V) : (do
      let indexes ← encodeIndexSet (m.get v) n
      pure (⟨v, indexes⟩ : Group V)) = .ok g ↔
        encodeIndexSet (m.get g.value) n = .ok g.indexes ∧ g.value = v := by
    rw [bind_eq_ok]
    constructor
    · rintro ⟨indexes, encoded, same⟩
      obtain rfl := pure_eq_ok.mp same
      exact ⟨encoded, rfl⟩
    · rintro ⟨encoded, rfl⟩
      exact ⟨_, encoded, rfl⟩
  simp only [each]
  rw [and_comm, ← forall₂_eq_eq_eq, forall₂_map_left_iff, ← forall₂_and_left]
  exact ⟨List.Forall₂.flip, List.Forall₂.flip⟩

theorem buildGroups_eq_ok :
    buildGroups m n = .ok groups ↔
      groups ≠ some [] ∧ (groups.getD []).map (·.value) = m.sortedKeys ∧
        ∀ g ∈ groups.getD [], encodeIndexSet (m.get g.value) n = .ok g.indexes := by
  have empty : m.keys.length = 0 ↔ m.sortedKeys = [] := by
    rw [← m.sortedKeys_perm.length_eq, length_eq_zero_iff]
  unfold buildGroups
  by_cases none : m.keys.length = 0
  · rw [if_pos none, empty.mp none, Except.ok.injEq]
    cases groups with
    | none => simp
    | some gs =>
      constructor
      · intro impossible
        cases impossible
      · rintro ⟨filled, values, _⟩
        exact absurd (congrArg some (map_eq_nil_iff.mp values)) filled
  · rw [if_neg none, bind_eq_ok]
    rw [empty] at none
    constructor
    · rintro ⟨gs, made, same⟩
      rw [pure_eq_ok] at same
      subst same
      obtain ⟨values, each⟩ := forall₂_groups.mp (mapM_eq_ok.mp made)
      refine ⟨?_, values, each⟩
      intro nothing
      rw [Option.some.inj nothing] at values
      exact none values.symm
    · rintro ⟨_, values, each⟩
      cases groups with
      | none => exact absurd values.symm none
      | some gs => exact ⟨gs, mapM_eq_ok.mpr (forall₂_groups.mpr ⟨values, each⟩), rfl⟩

namespace Column

variable (c : Column R V) {rows : List (InstanceStatus R)}

theorem mem_collected {v : V} :
    v ∈ (c.collected rows).keys ↔ ∃ row ∈ rows, c.inDomain v = true ∧ c.field row = v := by
  rw [collected, mem_keys_group]
  simp only [empty_keys, not_mem_nil, mem_filter, false_or]
  constructor
  · rintro ⟨row, ⟨member, domain⟩, rfl⟩
    exact ⟨row, member, domain, rfl⟩
  · rintro ⟨row, member, domain, rfl⟩
    exact ⟨row, ⟨member, domain⟩, rfl⟩

theorem get_collected (v : V) :
    (c.collected rows).get v =
      ((rows.filter fun row => c.inDomain (c.field row)).filter
        (c.field · = v)).map (·.index) := by
  rw [collected, get_group, (empty).get_absent v (by simp)]
  rfl

theorem mem_get_collected {v : V} {x : Int} :
    x ∈ (c.collected rows).get v ↔
      ∃ row ∈ rows, c.inDomain v = true ∧ c.field row = v ∧ row.index = x := by
  rw [get_collected]
  simp only [mem_map, mem_filter, decide_eq_true_eq]
  constructor
  · rintro ⟨row, ⟨⟨member, domain⟩, rfl⟩, same⟩
    exact ⟨row, member, domain, rfl, same⟩
  · rintro ⟨row, member, domain, rfl, same⟩
    exact ⟨row, ⟨⟨member, domain⟩, rfl⟩, same⟩

theorem get_collected_sublist (rows : List (InstanceStatus R)) (v : V) :
    ((c.collected rows).get v).Sublist (rows.map (·.index)) := by
  rw [get_collected]
  exact (filter_sublist.trans filter_sublist).map _

variable {c}

/-- **Groups built from the rows of the members pass the check**, and give every row
its value back. -/
theorem groupsOk_of_build (valid : members.Valid) (perm : (rows.map (·.index)).Perm members.values)
    (covers : c.required = true → ∀ row ∈ rows, c.inDomain (c.field row) = true)
    (made : buildGroups (c.collected rows) rows.length = .ok groups) :
    groups ≠ some [] ∧ GroupsOk members c.required c.inDomain (groups.getD []) ∧
      ∀ row ∈ rows, valueAt (groups.getD []) members.cardinality row.index =
        if c.inDomain (c.field row) then some (c.field row) else none := by
  obtain ⟨filled, values, each⟩ := buildGroups_eq_ok.mp made
  generalize groups.getD [] = gs at values each
  have count : members.cardinality = rows.length := by
    rw [valid.counted, ← perm.length_eq, length_map]
  have nodup : (rows.map (·.index)).Nodup := perm.nodup_iff.mpr valid.nodup
  have bounds (x : Int) (member : x ∈ rows.map (·.index)) : x ≤ maxInt32 :=
    (valid.mem_bounds (perm.mem_iff.mp member)).2
  -- Each group is read as the set of the rows that carry its value.
  have read (g : Group V) (member : g ∈ gs) :
      parseIndexSet g.indexes members.cardinality = .ok (g.set members.cardinality) ∧
        ∀ x, x ∈ g.listed members.cardinality ↔
          ∃ row ∈ rows, c.inDomain g.value = true ∧ c.field row = g.value ∧ row.index = x := by
    have part := c.get_collected_sublist rows g.value
    have room : ((c.collected rows).get g.value).length ≤ members.cardinality := by
      simpa [count] using part.length_le
    obtain ⟨s, parsed, lists⟩ := parseIndexSet_of_encode
      (fun x inside => bounds x (part.subset inside)) (each g member) room
    rw [Group.listed, Group.set_eq parsed, lists]
    refine ⟨parsed, fun x => ?_⟩
    rw [← c.mem_get_collected]
    exact (perm_insertionSort _ _).mem_iff
  have keys (v : V) : (∃ g ∈ gs, g.value = v) ↔
      ∃ row ∈ rows, c.inDomain v = true ∧ c.field row = v := by
    rw [← c.mem_collected, ← mem_sortedKeys, ← values, mem_map]
  have ascending : (gs.map (·.value)).Pairwise (· < ·) := values ▸ strict_sortedKeys _
  have same {row row' : InstanceStatus R} (first : row ∈ rows) (second : row' ∈ rows)
      (index : row.index = row'.index) : row = row' :=
    inj_on_of_nodup_map nodup first second index
  have disjoint : (gs.flatMap (·.listed members.cardinality)).Nodup := by
    rw [nodup_flatMap]
    constructor
    · intro g member
      exact (parseIndexSet_eq_ok.mp (read g member).1).1.nodup
    · apply (pairwise_map.mp ascending).imp_of_mem
      intro g h isFirst isSecond less x inFirst inSecond
      obtain ⟨row, member, _, value, index⟩ := ((read g isFirst).2 x).mp inFirst
      obtain ⟨row', member', _, value', index'⟩ := ((read h isSecond).2 x).mp inSecond
      rw [same member member' (index.trans index'.symm), value'] at value
      exact less.ne value.symm
  refine ⟨filled, ⟨fun g member => (read g member).1, ?_, ?_, ascending, disjoint, ?_⟩, ?_⟩
  · intro g member x inside
    obtain ⟨row, isRow, _, _, rfl⟩ := ((read g member).2 x).mp inside
    exact perm.mem_iff.mp (mem_map_of_mem isRow)
  · intro g member
    obtain ⟨_, _, domain, _⟩ := (keys g.value).mp ⟨g, member, rfl⟩
    exact domain
  · intro isRequired x member
    obtain ⟨row, isRow, rfl⟩ := mem_map.mp (perm.mem_iff.mpr member)
    have domain := covers isRequired row isRow
    obtain ⟨g, isGroup, value⟩ := (keys (c.field row)).mpr ⟨row, isRow, domain, rfl⟩
    exact ⟨g, isGroup, ((read g isGroup).2 _).mpr
      ⟨row, isRow, value ▸ domain, value.symm, rfl⟩⟩
  · intro row isRow
    split
    · rename_i domain
      obtain ⟨g, isGroup, value⟩ := (keys (c.field row)).mpr ⟨row, isRow, domain, rfl⟩
      rw [← value]
      exact valueAt_of_mem disjoint isGroup (((read g isGroup).2 _).mpr
        ⟨row, isRow, value ▸ domain, value.symm, rfl⟩)
    · rename_i outside
      cases given : valueAt gs members.cardinality row.index with
      | none => rfl
      | some v =>
        obtain ⟨g, isGroup, rfl, inside⟩ := exists_of_valueAt given
        obtain ⟨row', isRow', domain, value, index⟩ := ((read g isGroup).2 _).mp inside
        rw [same isRow' isRow index] at value
        rw [value] at outside
        exact absurd domain outside

/-- **Groups that pass the check are built from rows that carry their values.** -/
theorem build_of_groupsOk (valid : members.Valid)
    (perm : (rows.map (·.index)).Perm members.values)
    (filled : groups ≠ some []) (ok : GroupsOk members c.required c.inDomain (groups.getD []))
    {zero : V} (outside : c.inDomain zero = false)
    (carry : ∀ row ∈ rows,
      c.field row = (valueAt (groups.getD []) members.cardinality row.index).getD zero) :
    buildGroups (c.collected rows) rows.length = .ok groups := by
  rw [buildGroups_eq_ok]
  refine ⟨filled, ?_⟩
  generalize groups.getD [] = gs at ok carry
  have nodup : (rows.map (·.index)).Nodup := perm.nodup_iff.mpr valid.nodup
  -- A row carries a value of the domain exactly when a group with it lists the row.
  have carries {row : InstanceStatus R} (isRow : row ∈ rows) {g : Group V} (isGroup : g ∈ gs) :
      c.field row = g.value ↔ row.index ∈ g.listed members.cardinality := by
    rw [carry row isRow]
    constructor
    · intro value
      cases given : valueAt gs members.cardinality row.index with
      | none =>
        rw [given, Option.getD_none] at value
        rw [value, ok.domain g isGroup] at outside
        cases outside
      | some v =>
        obtain ⟨h, isGroup', rfl, inside⟩ := exists_of_valueAt given
        rw [given, Option.getD_some] at value
        have distinct := inj_on_of_nodup_map (ok.ascending.imp fun less => less.ne)
        rw [← distinct isGroup' isGroup value]
        exact inside
    · intro inside
      rw [valueAt_of_mem ok.disjoint isGroup inside, Option.getD_some]
  have rowOf {g : Group V} (isGroup : g ∈ gs) {x : Int}
      (inside : x ∈ g.listed members.cardinality) : ∃ row ∈ rows, row.index = x :=
    mem_map.mp (perm.mem_iff.mpr (ok.inside g isGroup x inside))
  constructor
  · apply List.Perm.eq_of_pairwise' (ok.ascending.imp fun less => less.le)
      (pairwise_sortedKeys _)
    rw [perm_ext_iff_of_nodup (ok.ascending.imp fun less => less.ne)
      (nodup_sortedKeys _)]
    intro v
    rw [mem_sortedKeys, mem_collected, mem_map]
    constructor
    · rintro ⟨g, isGroup, rfl⟩
      obtain ⟨x, rest, shape⟩ := exists_cons_of_ne_nil (ok.valid isGroup).values_ne_nil
      have inside : x ∈ g.listed members.cardinality := by simp [Group.listed, shape]
      obtain ⟨row, isRow, rfl⟩ := rowOf isGroup inside
      exact ⟨row, isRow, ok.domain g isGroup, (carries isRow isGroup).mpr inside⟩
    · rintro ⟨row, isRow, domain, rfl⟩
      rw [carry row isRow] at domain ⊢
      cases given : valueAt gs members.cardinality row.index with
      | none =>
        rw [given, Option.getD_none, outside] at domain
        cases domain
      | some v =>
        obtain ⟨g, isGroup, value, _⟩ := exists_of_valueAt given
        exact ⟨g, isGroup, value⟩
  · intro g isGroup
    apply encodeIndexSet_of_parse (ok.parsed g isGroup)
    · rw [perm_ext_iff_of_nodup ((c.get_collected_sublist rows g.value).nodup nodup)
        (ok.valid isGroup).nodup]
      intro x
      rw [mem_get_collected]
      constructor
      · rintro ⟨row, isRow, _, value, rfl⟩
        exact (carries isRow isGroup).mp value
      · intro inside
        obtain ⟨row, isRow, rfl⟩ := rowOf isGroup inside
        exact ⟨row, isRow, ok.domain g isGroup, (carries isRow isGroup).mpr inside, rfl⟩
    · simpa using (c.get_collected_sublist rows g.value).length_le

end Column

end Ome.StatusCodec
