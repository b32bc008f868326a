/-
# Ome.StatusCodec.Expand — the rows of an accepted payload

The decoder writes the columns one after the other into the rows, at the positions
`rowAt` finds.  `expand_eq` says what comes out: one row for each index of the stored
order, with the value that each column gives to the index (`rowOf`).
-/
import Ome.StatusCodec.Checks
import Ome.Theory.Loops

namespace Ome.StatusCodec

open Ome.Theory DecodePlan List

set_option autoImplicit false

variable {R : Records} {members : IndexSet}

/-! ## Positions -/

namespace DecodePlan

/-- The indexes in their stored order. -/
def order (p : DecodePlan) : List Int := p.rowOrder.getD p.members.values

/-- The plan's sets are valid, and its row order lists the members. -/
structure Sound (p : DecodePlan) : Prop where
  valid : p.members.Valid
  offsets : p.memberOffsets = p.members.prefixOffsets
  perm : p.order.Perm p.members.values

variable {p : DecodePlan}

theorem Sound.nodup (sound : p.Sound) : p.order.Nodup :=
  sound.perm.nodup_iff.mpr sound.valid.nodup

theorem Sound.rank_eq (sound : p.Sound) {k : Int} (member : k ∈ p.members.values) :
    p.rank k = p.members.values.idxOf k := by
  rw [rank, sound.offsets, rankOf_eq sound.valid, if_pos member, Option.getD_some]

/-- The positions by rank are the positions in the row order. -/
theorem Sound.positionByRank_eq (sound : p.Sound) {o : List Int}
    (perm : o.Perm p.members.values) {k : Int} (member : k ∈ o) :
    (p.positionByRank o).getD (p.rank k) 0 = o.idxOf k := by
  have inside {x : Int} (listed : x ∈ o) : x ∈ p.members.values := perm.mem_iff.mp listed
  have nodup : o.Nodup := perm.nodup_iff.mpr sound.valid.nodup
  have listed {e : Int × Nat} (isEntry : e ∈ o.zipIdx) : e.1 ∈ o := by
    obtain ⟨bound, same⟩ := mem_zipIdx' isEntry
    rw [same]
    exact getElem_mem bound
  unfold positionByRank
  rw [getD_foldl_set]
  · have here : (k, o.idxOf k) ∈ o.zipIdx := by
      rw [mem_zipIdx_iff_getElem?]
      simp [getElem?_eq_getElem (idxOf_lt_length_of_mem member)]
    have distinct : (o.zipIdx.map fun e => p.rank e.1).Nodup := by
      have ranks : (o.zipIdx.map fun e => p.rank e.1) = o.map p.rank := by
        rw [← zipIdx_map_fst 0 o, map_map]
        simp [Function.comp_def]
      rw [ranks]
      apply Nodup.map_on _ nodup
      intro x first y second same
      rw [sound.rank_eq (inside first), sound.rank_eq (inside second),
        idxOf_inj (inside first)] at same
      exact same
    exact foldl_update_of_mem distinct here _
  · intro e isEntry
    rw [sound.rank_eq (inside (listed isEntry)), length_replicate, sound.valid.counted]
    exact idxOf_lt_length_of_mem (inside (listed isEntry))

/-- **The row of an index is at the index's place in the stored order.** -/
theorem Sound.rowAt_eq (sound : p.Sound) {k : Int} (member : k ∈ p.order) :
    p.rowAt k = p.order.idxOf k := by
  have perm := sound.perm
  unfold rowAt order at *
  cases stored : p.rowOrder with
  | none =>
    rw [stored, Option.getD_none] at member
    exact sound.rank_eq member
  | some o =>
    rw [stored, Option.getD_some] at member perm
    exact sound.positionByRank_eq perm member

end DecodePlan

/-! ## One column -/

section Writes

variable {order : List Int} {rowAt : Int → Nat} (nodup : order.Nodup)
  (places : ∀ k ∈ order, rowAt k = order.idxOf k) (cell : Int → InstanceStatus R)

include nodup places

/-- A grouped column writes its value at each index that it gives one. -/
theorem Column.expand_eq {V : Type} [LinearOrder V] {c : Column R V}
    (lens : ∀ row, c.write (c.field row) row = row) {columns : InstanceStatusColumns R}
    (ok : c.Ok members columns) (inside : ∀ x ∈ members.values, x ∈ order) :
    c.expand columns (((c.groups columns).getD []).map (·.set members.cardinality)) rowAt
        (order.map cell) =
      order.map fun k => c.write ((valueAt ((c.groups columns).getD []) members.cardinality
        k).getD (c.field (cell k))) (cell k) := by
  have ok := ok.groups
  unfold Column.expand
  generalize (c.groups columns).getD [] = gs at ok
  -- The two loops are one over all indexes of the groups, with the value of each.
  have one : (gs.zip (gs.map (·.set members.cardinality))).foldl
      (fun rows group => group.2.values.foldl
        (fun rows index => rows.modify (rowAt index) (c.write group.1.value)) rows)
        (order.map cell) =
      (gs.flatMap fun g => (g.listed members.cardinality).map fun x => (x, g.value)).foldl
        (fun rows item => rows.modify (rowAt item.1) (c.write item.2)) (order.map cell) := by
    have pairs : gs.zip (gs.map (·.set members.cardinality)) =
        gs.map fun g => (g, g.set members.cardinality) := by
      conv_lhs => rw [← map_id gs]
      rw [map_map, zip_map']
      rfl
    rw [pairs, foldl_map, foldl_flatMap]
    simp only [foldl_map]
    rfl
  have keys : (gs.flatMap fun g => (g.listed members.cardinality).map fun x => (x, g.value)).map
      Prod.fst = gs.flatMap (·.listed members.cardinality) := by
    rw [map_flatMap]
    simp [Function.comp_def]
  rw [one, foldl_modify nodup places]
  · apply map_congr_left
    intro k _
    cases given : valueAt gs members.cardinality k with
    | none =>
      rw [foldl_rewrite_of_not_mem, Option.getD_none, lens]
      rw [keys]
      intro member
      obtain ⟨g, isGroup, listed⟩ := mem_flatMap.mp member
      rw [valueAt_of_mem ok.disjoint isGroup listed] at given
      cases given
    | some v =>
      obtain ⟨g, isGroup, rfl, listed⟩ := exists_of_valueAt given
      have item : (k, g.value) ∈
          gs.flatMap fun g => (g.listed members.cardinality).map fun x => (x, g.value) :=
        mem_flatMap.mpr ⟨g, isGroup, mem_map.mpr ⟨k, listed, rfl⟩⟩
      rw [Option.getD_some]
      exact foldl_rewrite_of_mem (fun item => c.write item.2) (keys ▸ ok.disjoint) item cell
  · intro item member
    obtain ⟨g, isGroup, made⟩ := mem_flatMap.mp member
    obtain ⟨x, listed, rfl⟩ := mem_map.mp made
    exact inside x (ok.inside g isGroup x listed)

theorem mark_eq {p : DecodePlan} (rowAt_eq : p.rowAt = rowAt) {set : Option IndexSet}
    {raw : Option String} (ok : OptionalSetOk members raw set)
    (inside : ∀ x ∈ members.values, x ∈ order)
    (write : InstanceStatus R → InstanceStatus R) :
    p.mark set write (order.map cell) =
      order.map fun k => if k ∈ listedIn set then write (cell k) else cell k := by
  cases set with
  | none => simp [mark, listedIn]
  | some s =>
    obtain ⟨r, _, read⟩ := ok.parsed s rfl
    have distinct : (s.values.map fun x => x).Nodup := by
      simpa using (parseIndexSet_eq_ok.mp read).1.nodup
    have loop : s.values.foldl (fun rows x => rows.modify (rowAt x) write) (order.map cell) =
        order.map (s.values.foldl (fun m x => Function.update m x (write (m x))) cell) :=
      foldl_modify nodup places
        (fun x member => inside x (ok.inside x (by simpa [listedIn] using member))) cell
    unfold mark
    rw [rowAt_eq]
    show s.values.foldl (fun rows x => rows.modify (rowAt x) write) (order.map cell) = _
    rw [loop]
    apply map_congr_left
    intro k _
    by_cases listed : k ∈ s.values
    · rw [if_pos (by simpa [listedIn] using listed)]
      exact foldl_rewrite_of_mem (fun _ => write) distinct listed cell
    · rw [if_neg (by simpa [listedIn] using listed)]
      exact foldl_rewrite_of_not_mem (fun _ => write) (by simpa using listed) cell

theorem copyEntries_eq {entries : List (InstanceStatusEntry R)} (ok : EntriesOk members entries)
    (inside : ∀ x ∈ members.values, x ∈ order) :
    entries.foldl
        (fun rows entry => rows.modify (rowAt entry.index) (copyEntry entry))
        (order.map cell) =
      order.map fun k => (entries.find? (·.index = k)).elim (cell k)
        fun entry => copyEntry entry (cell k) := by
  have distinct : (entries.map (·.index)).Nodup := ok.ascending.imp fun less => less.ne
  rw [foldl_modify nodup places]
  · apply map_congr_left
    intro k _
    cases found : entries.find? (·.index = k) with
    | none =>
      rw [foldl_rewrite_of_not_mem, Option.elim_none]
      intro member
      obtain ⟨entry, isEntry, same⟩ := mem_map.mp member
      exact absurd same (by simpa using find?_eq_none.mp found entry isEntry)
    | some entry =>
      obtain rfl : entry.index = k := by simpa using find?_some found
      exact foldl_rewrite_of_mem copyEntry distinct
        (mem_of_find?_eq_some found) cell
  · intro entry member
    exact inside _ (ok.inside entry member)

end Writes

/-! ## The rows -/

/-- The row of an index as the grouped columns give it. -/
def groupedRow (columns : InstanceStatusColumns R) (members : IndexSet) (k : Int) :
    InstanceStatus R :=
  let n := members.cardinality
  { index := k
    phase := (valueAt (columns.phases.getD []) n k).getD ""
    runningRevision := (valueAt (columns.runningRevisions.getD []) n k).getD ""
    targetRevision := (valueAt (columns.targetRevisions.getD []) n k).getD ""
    incarnation := (valueAt (columns.incarnations.getD []) n k).getD 0
    podCount := (valueAt (columns.podCounts.getD []) n k).getD 0
    servingPodCount := (valueAt (columns.servingPodCounts.getD []) n k).getD 0
    availablePodCount := (valueAt (columns.availablePodCounts.getD []) n k).getD 0 }

/-- The row of an index in an accepted payload. -/
def rowOf (columns : InstanceStatusColumns R) (members : IndexSet)
    (admitted activeOrdinalOne : Option IndexSet) (k : Int) : InstanceStatus R :=
  let entry := (columns.entries.getD []).find? (·.index = k)
  { groupedRow columns members k with
    admitted := decide (k ∈ listedIn admitted)
    activeOrdinal := if k ∈ listedIn activeOrdinalOne then 1 else 0
    conditions := entry.bind fun e => present e.conditions
    readySince := entry.bind (·.readySince)
    operation := entry.bind (·.operation)
    lastFailure := entry.bind (·.lastFailure)
    announced := entry.bind fun e => present e.announced }

variable {columns : InstanceStatusColumns R} {limit : Nat}
  {admitted activeOrdinalOne : Option IndexSet}

theorem Accepted.valid (accepted : Accepted columns limit members admitted activeOrdinalOne) :
    members.Valid :=
  (parseIndexSet_eq_ok.mp accepted.parsed).1

/-- The stored order of a payload. -/
def storedOrder (columns : InstanceStatusColumns R) (members : IndexSet) : List Int :=
  columns.rowOrder.getD members.values

theorem Accepted.perm (accepted : Accepted columns limit members admitted activeOrdinalOne) :
    (storedOrder columns members).Perm members.values := by
  unfold storedOrder
  cases stored : columns.rowOrder with
  | none => exact Perm.refl _
  | some o => exact (accepted.rowOrder o stored).perm

theorem Accepted.sound (accepted : Accepted columns limit members admitted activeOrdinalOne) :
    (planOf columns members admitted activeOrdinalOne).Sound :=
  ⟨accepted.valid, rfl, accepted.perm⟩

/-- Each grouped column writes its own field, and nothing else. -/
theorem expandGrouped_eq {rowAt : Int → Nat} {order : List Int} (nodup : order.Nodup)
    (places : ∀ k ∈ order, rowAt k = order.idxOf k) (inside : ∀ x ∈ members.values, x ∈ order)
    (grouped : ∀ c ∈ groupedColumns, c.Ok members columns) :
    (groupedColumns.zip (groupedColumns.map fun c : GroupedColumn R =>
      c.sets members columns)).foldl (fun rows c => c.1.expand columns c.2 rowAt rows)
        (order.map fun index => ({ index } : InstanceStatus R)) =
      order.map (groupedRow columns members) := by
  simp only [groupedColumns, mem_cons, not_mem_nil, or_false, forall_eq_or_imp,
    forall_eq] at grouped
  obtain ⟨phase, running, target, incarnation, pods, serving, available⟩ := grouped
  have column {V : Type} [LinearOrder V] {c : Column R V}
      (lens : ∀ row, c.write (c.field row) row = row) (ok : c.Ok members columns)
      (cell : Int → InstanceStatus R) := c.expand_eq nodup places cell lens ok inside
  simp only [groupedColumns, map_cons, map_nil, zip_cons_cons,
    zip_nil_left, foldl_cons, foldl_nil, GroupedColumn.expand, GroupedColumn.sets]
  rw [column (fun _ => rfl) phase, column (fun _ => rfl) running, column (fun _ => rfl) target,
    column (fun _ => rfl) incarnation, column (fun _ => rfl) pods, column (fun _ => rfl) serving,
    column (fun _ => rfl) available]
  rfl

/-- **The decoder's rows.** -/
theorem expand_eq (accepted : Accepted columns limit members admitted activeOrdinalOne) :
    (planOf columns members admitted activeOrdinalOne).expand columns =
      (storedOrder columns members).map (rowOf columns members admitted activeOrdinalOne) := by
  have sound := accepted.sound
  have nodup : (storedOrder columns members).Nodup := sound.nodup
  have places (k : Int) (member : k ∈ storedOrder columns members) :=
    sound.rowAt_eq member
  have inside (x : Int) (member : x ∈ members.values) : x ∈ storedOrder columns members :=
    accepted.perm.mem_iff.mpr member
  have empty : (planOf columns members admitted activeOrdinalOne).emptyRows =
      (storedOrder columns members).map fun index => ({ index } : InstanceStatus R) := rfl
  unfold expand
  rw [empty, show (planOf columns members admitted activeOrdinalOne).groups =
    groupedColumns.map fun c : GroupedColumn R => c.sets members columns from rfl,
    show (planOf columns members admitted activeOrdinalOne).admitted = admitted from rfl,
    show (planOf columns members admitted activeOrdinalOne).activeOrdinalOne =
      activeOrdinalOne from rfl, expandGrouped_eq nodup places inside accepted.grouped]
  simp only [mark_eq nodup places _ rfl accepted.admitted inside,
    mark_eq nodup places _ rfl accepted.activeOrdinalOne inside,
    copyEntries_eq nodup places _ accepted.entries inside]
  apply map_congr_left
  intro k _
  have plain : (groupedRow columns members k).admitted = false ∧
      (groupedRow columns members k).activeOrdinal = 0 ∧
      (groupedRow columns members k).conditions = none ∧
      (groupedRow columns members k).readySince = none ∧
      (groupedRow columns members k).operation = none ∧
      (groupedRow columns members k).lastFailure = none ∧
      (groupedRow columns members k).announced = none := ⟨rfl, rfl, rfl, rfl, rfl, rfl, rfl⟩
  unfold rowOf
  generalize groupedRow columns members k = row at plain
  cases (columns.entries.getD []).find? (·.index = k) with
  | none =>
    by_cases isAdmitted : k ∈ listedIn admitted <;>
      by_cases isOne : k ∈ listedIn activeOrdinalOne <;>
      ext <;> simp [isAdmitted, isOne, plain]
  | some entry =>
    by_cases isAdmitted : k ∈ listedIn admitted <;>
      by_cases isOne : k ∈ listedIn activeOrdinalOne <;>
      ext <;> simp [isAdmitted, isOne, plain, copyEntry]

end Ome.StatusCodec
