/-
# Ome.Quota.Projection — the copy of the tree that belongs on one cluster

The model of `quota/projection/projection.go`.  `projectFor` renders the leaves that
have allowances on a cluster and every grouping between them and the root: leaves
with the resolved shares, groupings as topology only, parents before children.

The maps of the source are iterated in the order they are filled here; the order
decides which of several errors is returned and nothing else, because the copies
are sorted.
-/
import Ome.Quota.Tree

namespace Ome.Quota

open Ome.Theory

set_option autoImplicit false

/-- One budget's resolved share on one cluster. -/
structure Allowance where
  node : String
  resourceName : String
  resourceFlavor : String
  nominal : Quantity
  deriving DecidableEq

structure ProjectionOptions where
  origin : String
  deriving DecidableEq

inductive ProjectionError where
  | noCluster
  | noOrigin
  | notInTree (node : String)
  | notALeaf (node : String)
  | noBudget (node resourceName resourceFlavor : String)
  deriving DecidableEq

def originLabel : String := "ome.io/quota-origin"
def originUIDAnnotation : String := "ome.io/quota-origin-uid"
def sourceGenerationAnnotation : String := "ome.io/quota-source-generation"
def clusterAnnotation : String := "ome.io/quota-cluster"

/-- The loop that checks the allowances and groups them by node. -/
def groupAllowances (t : Tree) : List Allowance → GoMap String (List Allowance) →
    Except ProjectionError (GoMap String (List Allowance))
  | [], byNode => .ok byNode
  | a :: rest, byNode =>
    if a.node ∉ t.nodes.keys then .error (.notInTree a.node)
    else if ¬ t.isLeaf a.node then .error (.notALeaf a.node)
    else groupAllowances t rest (byNode.set a.node (byNode.get a.node ++ [a]))

/-- A leaf is included with every tier between it and the root. -/
def includeTiers (t : Tree) (included : List String) (name : String) : Option (List String) :=
  (t.ancestors name).map fun up =>
    (up.filter (t.parent · ≠ none)).foldl (fun included a => included.insert a)
      (included.insert name)

/-- The source budget of a pair: the last one wins, as in the map the source fills. -/
def sourceBudget (src : AcceleratorQuota) (resourceName resourceFlavor : String) :
    Option AcceleratorBudget :=
  (src.budgets.filter (·.IsFor resourceName resourceFlavor)).getLast?

/-- The resolved share of an allowance with the limits of its source budget. -/
def projectBudget (b : AcceleratorBudget) (a : Allowance) : AcceleratorBudget where
  resourceName := b.resourceName
  resourceFlavor := b.resourceFlavor
  policy := .unset
  nominal := a.nominal
  borrowingLimit := b.borrowingLimit
  lendingLimit := b.lendingLimit
  perCluster := []

/-- The loop over the allowances of one node. -/
def pairBudgets (src : AcceleratorQuota) :
    List Allowance → Except ProjectionError (List AcceleratorBudget)
  | [] => .ok []
  | a :: rest =>
    match sourceBudget src a.resourceName a.resourceFlavor with
    | none => .error (.noBudget src.name a.resourceName a.resourceFlavor)
    | some b => (pairBudgets src rest).map (projectBudget b a :: ·)

/-- The order of a pair of names. -/
def PairLess (a b : String × String) : Prop :=
  if a.1 ≠ b.1 then a.1 < b.1 else a.2 < b.2

instance : DecidableRel PairLess := fun _ _ => inferInstanceAs (Decidable (ite _ _ _))

def AcceleratorBudget.pair (b : AcceleratorBudget) : String × String :=
  (b.resourceName, b.resourceFlavor)

def projectBudgets (src : AcceleratorQuota) (given : List Allowance) :
    Except ProjectionError (List AcceleratorBudget) :=
  (pairBudgets src given).map fun out => out.insertionSort fun a b => ¬ PairLess b.pair a.pair

/-- The copy of one node. -/
def render (t : Tree) (n : String) (cluster : String) (given : List Allowance)
    (opts : ProjectionOptions) : Except ProjectionError AcceleratorQuota :=
  let src := t.quota n
  let out : AcceleratorQuota :=
    { name := src.name
      uid := ""
      generation := 0
      labels := [(originLabel, opts.origin)]
      annotations := [( originUIDAnnotation, src.uid),
        ( sourceGenerationAnnotation, toString src.generation), ( clusterAnnotation, cluster)]
      role := src.role
      parentRef := src.parentRef
      priorityTier := ""
      distribution := none
      budgets := [] }
  if ¬ t.isLeaf n then .ok out
  else (projectBudgets src given).map fun budgets =>
    { out with priorityTier := src.priorityTier, budgets }

/-- The copies of the included nodes. -/
def renderAll (t : Tree) (cluster : String) (byNode : GoMap String (List Allowance))
    (opts : ProjectionOptions) : List String → Except ProjectionError (List AcceleratorQuota)
  | [] => .ok []
  | n :: rest =>
    match render t n cluster (byNode.get n) opts with
    | .error e => .error e
    | .ok copy => (renderAll t cluster byNode opts rest).map (copy :: ·)

/-- Shallowest first, then by name. -/
def ShallowerLess (t : Tree) (a b : AcceleratorQuota) : Prop :=
  if t.depth a.name ≠ t.depth b.name then t.depth a.name < t.depth b.name else a.name < b.name

instance (t : Tree) : DecidableRel (ShallowerLess t) :=
  fun _ _ => inferInstanceAs (Decidable (ite _ _ _))

/-- `For`: every object that belongs on one cluster. -/
def projectFor (t : Tree) (cluster : String) (allowances : List Allowance)
    (opts : ProjectionOptions) : Option (Except ProjectionError (List AcceleratorQuota)) :=
  if cluster = "" then some (.error .noCluster)
  else if opts.origin = "" then some (.error .noOrigin)
  else match groupAllowances t allowances .empty with
  | .error e => some (.error e)
  | .ok byNode => (byNode.keys.foldlM (includeTiers t) []).map fun included =>
    (renderAll t cluster byNode opts included).map fun out =>
      out.insertionSort fun a b => ¬ ShallowerLess t b a

end Ome.Quota
