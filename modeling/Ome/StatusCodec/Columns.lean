/-
# Ome.StatusCodec.Columns — the columnar status codec

Model of `EncodeColumns` and `DecodeColumns`: the rows of a replica's status are
stored as columns that group the Instance indexes by value, two index sets for flags
and one entry for each row with nested records.  The nested records are copied and
never read, so their types are parameters.  A slice that tells `nil` from empty is an
optional list; a phase is a string in the source and may be an unsupported one.

The loops of the source that write through `rowAt` into the row slice are loops over a
list of rows, written at the position that `rowAt` finds.
-/
import Ome.StatusCodec.IndexSet
import Ome.Theory.GoMap

namespace Ome.StatusCodec

open Ome.Theory

set_option autoImplicit false

/-! ## Rows and payloads -/

/-- The types of the records that the codec copies. -/
structure Records where
  Condition : Type
  Time : Type
  Operation : Type
  Termination : Type

/-- One row of the status. -/
@[ext] structure InstanceStatus (R : Records) where
  index : Int := 0
  incarnation : Int := 0
  phase : String := ""
  runningRevision : String := ""
  targetRevision : String := ""
  podCount : Int := 0
  readyPodCount : Int := 0
  servingPodCount : Int := 0
  availablePodCount : Int := 0
  scheduledPodCount : Int := 0
  admitted : Bool := false
  nodesOccupied : Option (List String) := none
  conditions : Option (List R.Condition) := none
  readySince : Option R.Time := none
  operation : Option R.Operation := none
  activeOrdinal : Int := 0
  lastFailure : Option R.Termination := none
  announced : Option (List String) := none

/-- The Instances that share a value of a column. -/
structure Group (V : Type) where
  value : V
  indexes : String
  deriving DecidableEq

/-- The nested records of one row. -/
@[ext] structure InstanceStatusEntry (R : Records) where
  index : Int
  conditions : Option (List R.Condition) := none
  readySince : Option R.Time := none
  operation : Option R.Operation := none
  lastFailure : Option R.Termination := none
  announced : Option (List String) := none

/-- The columnar payload. -/
@[ext] structure InstanceStatusColumns (R : Records) where
  members : String
  rowOrder : Option (List Int) := none
  phases : Option (List (Group String)) := none
  runningRevisions : Option (List (Group String)) := none
  targetRevisions : Option (List (Group String)) := none
  incarnations : Option (List (Group Int)) := none
  podCounts : Option (List (Group Int)) := none
  servingPodCounts : Option (List (Group Int)) := none
  availablePodCounts : Option (List (Group Int)) := none
  admitted : Option String := none
  activeOrdinalOne : Option String := none
  entries : Option (List (InstanceStatusEntry R)) := none

variable {R : Records}

def supportedPhase (phase : String) : Bool :=
  phase ∈ ["Pending", "Creating", "Ready", "Updating", "Restarting", "Migrating", "Failed",
    "Deleting"]

/-- An empty list reads as an absent one. -/
def present {α : Type} (list : Option (List α)) : Option (List α) :=
  list.filter fun l => !l.isEmpty

/-! ## Grouped columns -/

/-- A grouped column: the row field it carries, the payload field that stores it and
the values it can hold.  No domain contains the field's zero value. -/
structure Column (R : Records) (V : Type) where
  required : Bool := false
  field : InstanceStatus R → V
  write : V → InstanceStatus R → InstanceStatus R
  groups : InstanceStatusColumns R → Option (List (Group V))
  store : Option (List (Group V)) → InstanceStatusColumns R → InstanceStatusColumns R
  inDomain : V → Bool

def phaseDomain : String → Bool := supportedPhase

def revisionDomain (value : String) : Bool := value ≠ ""

def incarnationDomain (value : Int) : Bool := value ≠ 0

def countDomain (value : Int) : Bool := 0 < value

def phaseColumn : Column R String where
  required := true
  field row := row.phase
  write v row := { row with phase := v }
  groups columns := columns.phases
  store groups columns := { columns with phases := groups }
  inDomain := phaseDomain

def runningRevisionColumn : Column R String where
  field row := row.runningRevision
  write v row := { row with runningRevision := v }
  groups columns := columns.runningRevisions
  store groups columns := { columns with runningRevisions := groups }
  inDomain := revisionDomain

def targetRevisionColumn : Column R String where
  field row := row.targetRevision
  write v row := { row with targetRevision := v }
  groups columns := columns.targetRevisions
  store groups columns := { columns with targetRevisions := groups }
  inDomain := revisionDomain

def incarnationColumn : Column R Int where
  field row := row.incarnation
  write v row := { row with incarnation := v }
  groups columns := columns.incarnations
  store groups columns := { columns with incarnations := groups }
  inDomain := incarnationDomain

def podCountColumn : Column R Int where
  field row := row.podCount
  write v row := { row with podCount := v }
  groups columns := columns.podCounts
  store groups columns := { columns with podCounts := groups }
  inDomain := countDomain

def servingPodCountColumn : Column R Int where
  field row := row.servingPodCount
  write v row := { row with servingPodCount := v }
  groups columns := columns.servingPodCounts
  store groups columns := { columns with servingPodCounts := groups }
  inDomain := countDomain

def availablePodCountColumn : Column R Int where
  field row := row.availablePodCount
  write v row := { row with availablePodCount := v }
  groups columns := columns.availablePodCounts
  store groups columns := { columns with availablePodCounts := groups }
  inDomain := countDomain

/-- One group for each distinct value, in ascending order of the values. -/
def buildGroups {V : Type} [LinearOrder V] (groups : GoMap V (List Int)) (n : Nat) :
    Except ErrorReason (Option (List (Group V))) :=
  if groups.keys.length = 0 then .ok none
  else do
    let out ← groups.sortedKeys.mapM fun value => do
      let indexes ← encodeIndexSet (groups.get value) n
      pure ⟨value, indexes⟩
    pure (some out)

/-- What the check of a column has seen. -/
structure Coverage (V : Type) where
  previous : Option V := none
  covered : Nat := 0
  sets : List IndexSet := []

def checkGroup {V : Type} [LinearOrder V] (members : IndexSet) (inDomain : V → Bool)
    (seen : Coverage V) (group : Group V) : Except ErrorReason (Coverage V) := do
  refuse (inDomain group.value = false) .valueDomain
  refuse (∃ previous ∈ seen.previous, group.value ≤ previous) .canonicalOrder
  let set ← parseIndexSet group.indexes members.cardinality
  refuse (set.isSubsetOf members = false) .coverage
  let covered := seen.covered + set.cardinality
  refuse (members.cardinality < covered) .coverage
  pure ⟨some group.value, covered, seen.sets ++ [set]⟩

/-- The index sets of a column's groups.  An absent optional column is valid, an
empty one is not. -/
def validateGroupColumn {V : Type} [LinearOrder V] (groups : Option (List (Group V)))
    (members : IndexSet) (required : Bool) (inDomain : V → Bool) :
    Except ErrorReason (List IndexSet) :=
  match groups with
  | none => if required then .error .coverage else .ok []
  | some [] => if required then .error .coverage else .error .valueDomain
  | some groups => do
    refuse (members.cardinality < groups.length) .cardinalityLimit
    let seen ← groups.foldlM (checkGroup members inDomain) {}
    refuse (required = true ∧ seen.covered ≠ members.cardinality) .coverage
    refuse (disjointIndexSets seen.sets = false) .coverage
    pure seen.sets

namespace Column

variable {V : Type} [LinearOrder V] (column : Column R V)

/-- The indexes of the rows that carry each value of the domain. -/
def collected (rows : List (InstanceStatus R)) : GoMap V (List Int) :=
  GoMap.group column.field (·.index) (rows.filter fun row => column.inDomain (column.field row))
    GoMap.empty

/-- Collect the column from the rows and store it. -/
def collect (rows : List (InstanceStatus R)) (n : Nat) (columns : InstanceStatusColumns R) :
    Except ErrorReason (InstanceStatusColumns R) := do
  let groups ← buildGroups (column.collected rows) n
  pure (column.store groups columns)

def validate (columns : InstanceStatusColumns R) (members : IndexSet) :
    Except ErrorReason (List IndexSet) :=
  validateGroupColumn (column.groups columns) members column.required column.inDomain

/-- Write each group's value into the rows that its index set names. -/
def expand (columns : InstanceStatusColumns R) (sets : List IndexSet) (rowAt : Int → Nat)
    (rows : List (InstanceStatus R)) : List (InstanceStatus R) :=
  (((column.groups columns).getD []).zip sets).foldl
    (fun rows group => group.2.values.foldl
      (fun rows index => rows.modify (rowAt index) (column.write group.1.value)) rows) rows

end Column

/-- A grouped column with the type of its values. -/
structure GroupedColumn (R : Records) where
  Value : Type
  order : LinearOrder Value
  column : Column R Value

namespace GroupedColumn

variable (c : GroupedColumn R)

def collect (rows : List (InstanceStatus R)) (n : Nat) (columns : InstanceStatusColumns R) :
    Except ErrorReason (InstanceStatusColumns R) :=
  let _ := c.order
  c.column.collect rows n columns

def validate (columns : InstanceStatusColumns R) (members : IndexSet) :
    Except ErrorReason (List IndexSet) :=
  let _ := c.order
  c.column.validate columns members

def expand (columns : InstanceStatusColumns R) (sets : List IndexSet) (rowAt : Int → Nat)
    (rows : List (InstanceStatus R)) : List (InstanceStatus R) :=
  c.column.expand columns sets rowAt rows

end GroupedColumn

/-- The grouped columns in payload order. -/
def groupedColumns : List (GroupedColumn R) :=
  [⟨String, inferInstance, phaseColumn⟩,
    ⟨String, inferInstance, runningRevisionColumn⟩,
    ⟨String, inferInstance, targetRevisionColumn⟩,
    ⟨Int, inferInstance, incarnationColumn⟩,
    ⟨Int, inferInstance, podCountColumn⟩,
    ⟨Int, inferInstance, servingPodCountColumn⟩,
    ⟨Int, inferInstance, availablePodCountColumn⟩]

/-! ## Encoding -/

/-- The nested records of a row, if it has any. -/
def entryOf (row : InstanceStatus R) : Option (InstanceStatusEntry R) :=
  if (present row.conditions).isNone ∧ row.readySince.isNone ∧ row.operation.isNone ∧
      row.lastFailure.isNone ∧ (present row.announced).isNone then
    none
  else
    some
      { index := row.index
        conditions := present row.conditions
        readySince := row.readySince
        operation := row.operation
        lastFailure := row.lastFailure
        announced := present row.announced }

def encodeOptionalIndexSet (indices : List Int) (n : Nat) : Except ErrorReason (Option String) :=
  if indices = [] then .ok none
  else do
    let encoded ← encodeIndexSet indices n
    pure (some encoded)

/-- A row with a value that no column holds. -/
def InstanceStatus.Unencodable (row : InstanceStatus R) : Prop :=
  supportedPhase row.phase = false ∨ row.podCount < 0 ∨ row.servingPodCount < 0 ∨
    row.availablePodCount < 0 ∨ (row.activeOrdinal ≠ 0 ∧ row.activeOrdinal ≠ 1)

instance (row : InstanceStatus R) : Decidable row.Unencodable :=
  inferInstanceAs (Decidable (_ ∨ _ ∨ _ ∨ _ ∨ _))

def encodeColumns (rows : List (InstanceStatus R)) (maxInstances : Nat) :
    Except ErrorReason (InstanceStatusColumns R) := do
  refuse (rows.length = 0) .valueDomain
  refuse (maxInstances = 0 ∨ maxInstances < rows.length) .cardinalityLimit
  refuse (∃ row ∈ rows, row.Unencodable) .valueDomain
  let indices := rows.map (·.index)
  let ascending := indices.IsChain (· < ·)
  let members ← indexSetFromIndices indices maxInstances
  let n := rows.length
  let columns ← groupedColumns.foldlM (fun columns column => column.collect rows n columns)
    { members := members.text, rowOrder := if ascending then none else some indices }
  let admitted ← encodeOptionalIndexSet ((rows.filter (·.admitted)).map (·.index)) n
  let activeOrdinalOne ←
    encodeOptionalIndexSet ((rows.filter (·.activeOrdinal = 1)).map (·.index)) n
  let entries := rows.filterMap entryOf
  pure
    { columns with
      admitted
      activeOrdinalOne
      entries := if entries.length = 0 then none
        else some (entries.insertionSort fun a b => a.index ≤ b.index) }

/-! ## Decoding -/

/-- The parsed index sets of a validated payload. -/
structure DecodePlan where
  members : IndexSet
  memberOffsets : List Nat
  rowOrder : Option (List Int)
  groups : List (List IndexSet)
  admitted : Option IndexSet
  activeOrdinalOne : Option IndexSet

def validateOptionalIndexSet (raw : Option String) (members : IndexSet) :
    Except ErrorReason (Option IndexSet) :=
  match raw with
  | none => .ok none
  | some raw => do
    let set ← parseIndexSet raw members.cardinality
    refuse (set.isSubsetOf members = false) .coverage
    pure (some set)

/-- The entry carries a nested record. -/
def entryHasContent (entry : InstanceStatusEntry R) : Bool :=
  (present entry.conditions).isSome || entry.readySince.isSome || entry.operation.isSome ||
    entry.lastFailure.isSome || (present entry.announced).isSome

/-- One entry, behind the one of index `previous`. -/
def checkEntry (members : IndexSet) (previous : Option Int) (entry : InstanceStatusEntry R) :
    Except ErrorReason (Option Int) := do
  refuse (previous = some entry.index) .coverage
  refuse (∃ index ∈ previous, entry.index < index) .canonicalOrder
  refuse (members.contains entry.index = false) .coverage
  refuse (entryHasContent entry = false) .coverage
  pure (some entry.index)

def validateEntries (entries : Option (List (InstanceStatusEntry R))) (members : IndexSet) :
    Except ErrorReason Unit :=
  match entries with
  | none => .ok ()
  | some entries => do
    refuse (entries.length = 0) .valueDomain
    refuse (members.cardinality < entries.length) .cardinalityLimit
    let _ ← entries.foldlM (checkEntry members) none
    pure ()

/-- The flags of the row order check: the ranks seen, the index before and whether the
order ascends so far. -/
structure OrderCheck where
  seen : List Nat := []
  previous : Option Int := none
  ascending : Bool := true

def checkPosition (members : IndexSet) (offsets : List Nat) (s : OrderCheck) (index : Int) :
    Except ErrorReason OrderCheck :=
  match members.rankOf index offsets with
  | none => .error .coverage
  | some rank => do
    refuse (rank ∈ s.seen) .coverage
    pure ⟨rank :: s.seen, some index, s.ascending && !s.previous.any (index ≤ ·)⟩

/-- A present row order is a permutation of the members other than the ascending one. -/
def validateRowOrder (order : Option (List Int)) (members : IndexSet) (offsets : List Nat) :
    Except ErrorReason Unit :=
  match order with
  | none => .ok ()
  | some order => do
    refuse (order.length = 0) .valueDomain
    refuse (order.length ≠ members.cardinality) .coverage
    let s ← order.foldlM (checkPosition members offsets) {}
    refuse (s.ascending = true) .canonicalOrder

def validateColumns (columns : InstanceStatusColumns R) (maxInstances : Nat) :
    Except ErrorReason DecodePlan := do
  refuse (maxInstances = 0) .cardinalityLimit
  let members ← parseIndexSet columns.members maxInstances
  refuse (2 ^ 63 - 1 < members.cardinality) .rangeOverflow
  let groups ← groupedColumns.mapM fun column => column.validate columns members
  let admitted ← validateOptionalIndexSet columns.admitted members
  let activeOrdinalOne ← validateOptionalIndexSet columns.activeOrdinalOne members
  validateEntries columns.entries members
  validateRowOrder columns.rowOrder members members.prefixOffsets
  pure
    { members
      memberOffsets := members.prefixOffsets
      rowOrder := columns.rowOrder
      groups
      admitted
      activeOrdinalOne }

namespace DecodePlan

variable (p : DecodePlan)

/-- The rank of a member. -/
def rank (index : Int) : Nat := (p.members.rankOf index p.memberOffsets).getD 0

/-- The rows with their indexes. -/
def emptyRows : List (InstanceStatus R) :=
  (p.rowOrder.getD p.members.values).map fun index => { index }

/-- The position in a row order of the member of each rank. -/
def positionByRank (order : List Int) : List Nat :=
  order.zipIdx.foldl (fun positions entry => positions.set (p.rank entry.1) entry.2)
    (List.replicate p.members.cardinality 0)

/-- The position of the row of an index. -/
def rowAt (index : Int) : Nat :=
  match p.rowOrder with
  | none => p.rank index
  | some order => (p.positionByRank order).getD (p.rank index) 0

/-- Copy an entry's records into its row. -/
def copyEntry (entry : InstanceStatusEntry R) (row : InstanceStatus R) : InstanceStatus R :=
  { row with
    conditions := (present entry.conditions).or row.conditions
    readySince := entry.readySince
    operation := entry.operation
    lastFailure := entry.lastFailure
    announced := (present entry.announced).or row.announced }

/-- Write the rows of a set. -/
def mark (set : Option IndexSet) (write : InstanceStatus R → InstanceStatus R)
    (rows : List (InstanceStatus R)) : List (InstanceStatus R) :=
  match set with
  | none => rows
  | some set => set.values.foldl (fun rows index => rows.modify (p.rowAt index) write) rows

def expand (columns : InstanceStatusColumns R) : List (InstanceStatus R) :=
  let rows := (groupedColumns.zip p.groups).foldl
    (fun rows column => column.1.expand columns column.2 p.rowAt rows) p.emptyRows
  let rows := p.mark p.admitted (fun row => { row with admitted := true }) rows
  let rows := p.mark p.activeOrdinalOne (fun row => { row with activeOrdinal := 1 }) rows
  (columns.entries.getD []).foldl
    (fun rows entry => rows.modify (p.rowAt entry.index) (copyEntry entry)) rows

end DecodePlan

/-- The rows of a payload, in their stored order. -/
def decodeColumns (columns : Option (InstanceStatusColumns R)) (maxInstances : Nat) :
    Except ErrorReason (List (InstanceStatus R)) :=
  match columns with
  | none => .error .representationUnion
  | some columns => do
    let plan ← validateColumns columns maxInstances
    pure (plan.expand columns)

end Ome.StatusCodec
