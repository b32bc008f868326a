/-
# Ome.Quota.Tree — the quota tree

The model of `quota/tree/tree.go` and `violation.go`.  `build` assembles a list of
quotas into the tree their parent references describe and reports every invariant
they violate: repeated names, missing and circular parents, nodes without a
position, depth, the shape each role allows, and that the budgets of children fit
into their parent's.

A node is its name.  The fields of the nodes are functions of it (`parent`,
`children`, `depth`), so that a pointer to a node is its name, and two pointers
with one name are the same pointer.  The walks along pointers are those of
`Ome.Theory.ParentGraph` with one round more than there are nodes; `none` is a
walk that goes on after that.  Sums and comparisons of quantities are exact.
-/
import Ome.Quota.Shares
import Ome.Theory.GoMap
import Ome.Theory.ParentGraph

namespace Ome.Quota

open Ome.Theory

set_option autoImplicit false

/-! ## Quotas -/

inductive Role where
  | cohort
  | clusterQueue
  | other (text : String)
  deriving DecidableEq, Inhabited

inductive DistributionPolicy where
  | unset
  | explicit
  | proportional
  | other (text : String)
  deriving DecidableEq, Inhabited

instance : Inhabited Quantity := ⟨{ dec := ⟨0, 0⟩, format := .decimalExponent }⟩

/-- `Add`: the format of a zero is replaced. -/
def Quantity.add (q y : Quantity) : Quantity :=
  { dec := q.dec.add y.dec, format := if q.dec.unscaled = 0 then y.format else q.format }

structure AcceleratorClusterShare where
  cluster : String
  nominal : Quantity
  deriving DecidableEq

structure AcceleratorBudget where
  resourceName : String
  resourceFlavor : String
  policy : DistributionPolicy
  nominal : Quantity
  borrowingLimit : Option Quantity
  lendingLimit : Option Quantity
  perCluster : List AcceleratorClusterShare
  deriving DecidableEq, Inhabited

/-- The metadata a projection reads or writes, and the spec. -/
structure AcceleratorQuota where
  name : String
  uid : String
  generation : Int
  labels : List (String × String)
  annotations : List (String × String)
  role : Role
  parentRef : Option String
  priorityTier : String
  distribution : Option DistributionPolicy
  budgets : List AcceleratorBudget
  deriving DecidableEq, Inhabited

/-- The budget is one for the pair. -/
def AcceleratorBudget.IsFor (b : AcceleratorBudget) (resource flavor : String) : Prop :=
  b.resourceName = resource ∧ b.resourceFlavor = flavor

instance (resource flavor : String) : DecidablePred (AcceleratorBudget.IsFor · resource flavor) :=
  fun b => inferInstanceAs (Decidable (b.resourceName = resource ∧ b.resourceFlavor = flavor))

/-- A node carries a budget for the pair. -/
def AcceleratorQuota.Carries (q : AcceleratorQuota) (resource flavor : String) : Prop :=
  ∃ b ∈ q.budgets, b.IsFor resource flavor

instance (q : AcceleratorQuota) (resource flavor : String) :
    Decidable (q.Carries resource flavor) :=
  inferInstanceAs (Decidable (∃ b ∈ q.budgets, b.IsFor resource flavor))

/-- A quota that says nothing but its place. -/
def plainQuota (name : String) (role : Role) (parentRef : Option String) : AcceleratorQuota :=
  { (default : AcceleratorQuota) with name, role, parentRef }

structure Options where
  rootName : String
  maxDepth : Int
  deriving DecidableEq

inductive BuildError where
  | rootNameUnset
  deriving DecidableEq

/-! ## Violations -/

inductive Reason where
  | parentMissing
  | parentCycle
  | unreachable
  | duplicateNode
  | nodeKindInvalid
  | depthExceeded
  | containmentViolated
  | shareUnresolved
  deriving DecidableEq, Inhabited

/-- `reasonRank`: which reason to act on first. -/
def Reason.rank : Reason → Nat
  | .parentMissing => 0
  | .parentCycle => 1
  | .unreachable => 2
  | .duplicateNode => 3
  | .nodeKindInvalid => 4
  | .depthExceeded => 5
  | .containmentViolated => 6
  | .shareUnresolved => 7

inductive Message where
  | repeatedName
  | ownParent
  | parentUnresolved (ref : String)
  | cycle (members : List String)
  | insideCycle (id : String)
  | onlyRootOmits (rootName : String)
  | noPosition (cause : String)
  | tooDeep (depth maxDepth : Int)
  | unknownRole (role : Role)
  | parentTakesNoChildren (parent : String)
  | noBudget
  | cohortSets (fields : List String)
  | leafOnlyFields (key : String)
  | overrun (key : String) (nominal total : Quantity)
  deriving DecidableEq, Inhabited

structure Violation where
  node : String
  reason : Reason
  subject : String
  message : Message
  deriving DecidableEq, Inhabited

namespace Violation

/-- The order of a report: node, which reason to act on first, subject. -/
def Less (a b : Violation) : Prop :=
  if a.node ≠ b.node then a.node < b.node
  else if a.reason.rank ≠ b.reason.rank then a.reason.rank < b.reason.rank
  else a.subject < b.subject

instance : DecidableRel Less := fun _ _ => inferInstanceAs (Decidable (ite _ _ _))

end Violation

variable (vs : List Violation)

/-- `For`: the violations of one node. -/
def violationsFor (node : String) : List Violation :=
  vs.filter (·.node = node)

/-- `Primary`: the violation to report, the zero value for none. -/
def primary : List Violation → Violation
  | [] => default
  | v :: rest =>
    rest.foldl (fun best v => if v.reason.rank < best.reason.rank then v else best) v

/-- `Nodes`: the nodes with a violation, sorted. -/
def violationNodes : List String :=
  ((vs.map Violation.node).filter (· ≠ "")).dedup.insertionSort (· ≤ ·)

def sortViolations : List Violation :=
  vs.insertionSort fun a b => ¬ b.Less a

/-! ## The tree -/

structure Tree where
  root : Option String
  nodes : GoMap String AcceleratorQuota
  parent : String → Option String
  children : String → List String
  depth : String → Int

namespace Tree

variable (t : Tree)

/-- The node set `Build` starts from. -/
def initial : Tree where
  root := none
  nodes := .empty
  parent := fun _ => none
  children := fun _ => []
  depth := fun _ => -1

def quota (n : String) : AcceleratorQuota := t.nodes.get n

def isLeaf (n : String) : Bool := (t.quota n).role = .clusterQueue

/-- `Nodes`: every node, sorted by name. -/
def names : List String := t.nodes.sortedKeys

def len : Nat := t.nodes.keys.length

def leaves : List String := t.names.filter t.isLeaf

/-- The ancestors of a node, root first; a cycle is cut at the first repetition. -/
def ancestors (n : String) : Option (List String) :=
  (ParentGraph.climb t.parent (t.len + 1) [n] (t.parent n)).map fun up => up.1.tail.reverse

/-- A node and every descendant, parents before children. -/
def subtree (n : String) : Option (List String) :=
  if n ∈ t.nodes.keys then ParentGraph.descend t.children (t.len + 1) [] n else some []

/-- What a violation at `n` freezes: the nodes below it that are not frozen yet. -/
def freezeBelow (frozen : GoMap String Violation) (n : String) :
    Option (GoMap String Violation) :=
  let cause := frozen.get n
  (t.subtree n).map fun below => below.foldl
    (fun frozen d => if d ∈ frozen.keys then frozen else frozen.set d cause) frozen

/-- `Frozen`: every node a violation freezes, with that violation. -/
def frozen : Option (GoMap String Violation) :=
  let own : GoMap String Violation := (violationNodes vs).foldl
    (fun frozen n => frozen.set n (primary (violationsFor vs n))) .empty
  (violationNodes vs).foldlM t.freezeBelow own

end Tree

/-! ## Assembly -/

/-- One quota of the first loop; the first of a name is its node. -/
def addNode (s : Tree × List Violation) (q : AcceleratorQuota) : Tree × List Violation :=
  if q.name ∈ s.1.nodes.keys then
    (s.1, s.2 ++ [⟨q.name, .duplicateNode, "", .repeatedName⟩])
  else ({ s.1 with nodes := s.1.nodes.set q.name q }, s.2)

/-- One node of the loop that links parents. -/
def linkParent (s : Tree × List Violation) (n : String) : Tree × List Violation :=
  match (s.1.quota n).parentRef with
  | none => s
  | some ref =>
    if ref = n then (s.1, s.2 ++ [⟨n, .parentCycle, n, .ownParent⟩])
    else if ref ∉ s.1.nodes.keys then
      (s.1, s.2 ++ [⟨n, .parentMissing, ref, .parentUnresolved ref⟩])
    else
      ({ s.1 with
          parent := Function.update s.1.parent n (some ref)
          children := Function.update s.1.children ref (s.1.children ref ++ [n]) }, s.2)

/-- The cycle the parents of a node run into; `none` inside for none. -/
def cycleMembers (t : Tree) (n : String) : Option (Option (List String)) :=
  (ParentGraph.climb t.parent (t.len + 1) [] (some n)).map fun up =>
    up.2.map fun repeated => up.1.drop (up.1.idxOf repeated) ++ [repeated]

/-- The alphabetically first member of a cycle. -/
def cycleID : List String → String
  | [] => ""
  | first :: rest => rest.foldl (fun id m => if m < id then m else id) first

/-- One node of the cycle report, with the cycles spelled out so far. -/
def reportCycle (t : Tree) (s : List String × List Violation) (n : String) :
    Option (List String × List Violation) :=
  (cycleMembers t n).map fun
    | none => s
    | some members =>
      let id := cycleID members
      if id ∈ s.1 then (s.1, s.2 ++ [⟨n, .parentCycle, id, .insideCycle id⟩])
      else (id :: s.1, s.2 ++ [⟨n, .parentCycle, id, .cycle members⟩])

def reportCycles (t : Tree) : Option (List Violation) :=
  (t.names.foldlM (reportCycle t) ([], [])).map Prod.snd

def linkParents (t : Tree) : Option (Tree × List Violation) :=
  let linked := t.names.foldl linkParent (t, [])
  let t := { linked.1 with children := fun n => (linked.1.children n).insertionSort (· ≤ ·) }
  (reportCycles t).map fun cycles => (t, linked.2 ++ cycles)

/-- One node of the loop that looks for the root. -/
def resolveNode (rootName : String) (s : Tree × List Violation) (n : String) :
    Tree × List Violation :=
  if (s.1.quota n).parentRef ≠ none then s
  else if n = rootName then ({ s.1 with root := some n }, s.2)
  else (s.1, s.2 ++ [⟨n, .parentMissing, rootName, .onlyRootOmits rootName⟩])

def assignDepth (t : Tree) (root : String) : Option Tree :=
  (ParentGraph.levels t.children (t.len + 1) [root] (Function.update t.depth root 0)).map
    fun depth => { t with depth }

def resolveRoot (t : Tree) (rootName : String) : Option (Tree × List Violation) :=
  let resolved := t.names.foldl (resolveNode rootName) (t, [])
  match resolved.1.root with
  | none => some resolved
  | some root => (assignDepth resolved.1 root).map (·, resolved.2)

/-! ## Checks -/

/-- A node without a position, with the first ancestor at fault. -/
def checkReachable (t : Tree) (faulted : List String) (vs : List Violation) (n : String) :
    Option (List Violation) :=
  if 0 ≤ t.depth n then some vs
  else if n ∈ faulted then some vs
  else (t.ancestors n).map fun up =>
    let cause := (up.find? (· ∈ faulted)).getD n
    vs ++ [⟨n, .unreachable, cause, .noPosition cause⟩]

def checkUnreachable (t : Tree) (found : List Violation) : Option (List Violation) :=
  t.names.foldlM (checkReachable t (violationNodes found)) []

def checkDepth (t : Tree) (maxDepth : Int) : List Violation :=
  if maxDepth ≤ 0 then []
  else (t.names.filter (maxDepth < t.depth ·)).map fun n =>
    ⟨n, .depthExceeded, "", .tooDeep (t.depth n) maxDepth⟩

def budgetKey (resourceName flavor : String) : String := resourceName ++ " on " ++ flavor

def AcceleratorBudget.key (b : AcceleratorBudget) : String :=
  budgetKey b.resourceName b.resourceFlavor

def carriesLeafOnlyFields (b : AcceleratorBudget) : Bool :=
  b.policy ≠ .unset || b.borrowingLimit ≠ none || b.lendingLimit ≠ none || b.perCluster ≠ []

def checkClusterQueueNode (t : Tree) (n : String) : List Violation :=
  (t.children n).map (fun c => ⟨c, .nodeKindInvalid, n, .parentTakesNoChildren n⟩) ++
    if (t.quota n).budgets = [] then [⟨n, .nodeKindInvalid, "", .noBudget⟩] else []

/-- The fields a grouping sets and must not. -/
def cohortFields (q : AcceleratorQuota) : List String :=
  (if q.priorityTier ≠ "" then ["priorityTier"] else []) ++
    if q.distribution ≠ none then ["distribution"] else []

def checkCohortNode (q : AcceleratorQuota) : List Violation :=
  (if cohortFields q ≠ [] then
    [⟨q.name, .nodeKindInvalid, ",".intercalate (cohortFields q), .cohortSets (cohortFields q)⟩]
   else []) ++
    (q.budgets.filter carriesLeafOnlyFields).map fun b =>
      ⟨q.name, .nodeKindInvalid, b.key, .leafOnlyFields b.key⟩

def checkNodeKind (t : Tree) : List Violation :=
  t.names.flatMap fun n =>
    match (t.quota n).role with
    | .clusterQueue => checkClusterQueueNode t n
    | .cohort => checkCohortNode (t.quota n)
    | .other text => [⟨n, .nodeKindInvalid, "", .unknownRole (.other text)⟩]

/-- The nominals of one child added to the sums. -/
def addBudget (sums : GoMap String (Option Quantity)) (b : AcceleratorBudget) :
    GoMap String (Option Quantity) :=
  sums.set b.key (some (match sums.get b.key with
    | some cur => cur.add b.nominal
    | none => b.nominal))

/-- What the children of a node total, under every key. -/
def childSums (t : Tree) (n : String) : GoMap String (Option Quantity) :=
  (t.children n).foldl (fun sums c => (t.quota c).budgets.foldl addBudget sums) .empty

def checkContainment (t : Tree) : List Violation :=
  t.names.flatMap fun n =>
    if t.isLeaf n ∨ t.children n = [] ∨ (t.quota n).budgets = [] then []
    else (t.quota n).budgets.flatMap fun b =>
      match (childSums t n).get b.key with
      | none => []
      | some sum =>
        if b.nominal.dec.cmp sum.dec = .lt then
          [⟨n, .containmentViolated, b.key, .overrun b.key b.nominal sum⟩]
        else []

def build (quotas : List AcceleratorQuota) (opts : Options) :
    Option (Except BuildError (Tree × List Violation)) :=
  if opts.rootName = "" then some (.error .rootNameUnset)
  else
    let added := quotas.foldl addNode (.initial, [])
    (linkParents added.1).bind fun linked =>
    (resolveRoot linked.1 opts.rootName).bind fun resolved =>
    let t := resolved.1
    let found := added.2 ++ linked.2 ++ resolved.2
    (checkUnreachable t found).bind fun unreachable =>
    some (.ok (t, sortViolations (found ++ unreachable ++ checkDepth t opts.maxDepth ++
      checkNodeKind t ++ checkContainment t)))

end Ome.Quota
