/-
# Ome.Quota.Allowances — every leaf split over the fleet

The model of `quota/projection/allowances.go`, and of `Sum` in `quota/shares/shares.go`.
`resolve` splits each budget of each leaf over the clusters, by the shares an admin
wrote or in proportion to what the members report, and records the leaves it cannot
split with the reason.

The weights of a pair are sorted by cluster.  A pair with two readings of one cluster
is refused in whatever order they come, so that the sort is stable here makes no
difference to what is granted.  When a reading was taken is carried along by the
source and decides nothing.
-/
import Ome.Quota.Projection

namespace Ome.Quota

open Ome.Theory

set_option autoImplicit false

/-! ## The fleet -/

/-- What one cluster has of one pair. -/
structure Capacity where
  cluster : String
  resourceName : String
  resourceFlavor : String
  allocatable : Quantity
  highWaterMark : Quantity
  deriving DecidableEq

structure Fleet where
  registered : List String
  reported : List String
  capacity : List Capacity
  deriving DecidableEq

/-- The registered members that did not report. -/
def Fleet.silent (f : Fleet) : List String :=
  (f.registered.filter (· ∉ f.reported)).insertionSort (· ≤ ·)

structure ResolveOptions where
  defaultPolicy : DistributionPolicy
  deriving DecidableEq

def Quantity.isZero (q : Quantity) : Bool := q.dec.unscaled = 0

/-- The weights and the homes of every pair, with one more reading. -/
def gather (s : GoMap (String × String) (List Weight) × GoMap (String × String) (List String))
    (c : Capacity) :
    GoMap (String × String) (List Weight) × GoMap (String × String) (List String) :=
  let k := (c.resourceName, c.resourceFlavor)
  (s.1.set k (s.1.get k ++ [⟨c.cluster, c.allocatable⟩]),
    if c.highWaterMark.isZero then s.2 else s.2.set k ((s.2.get k).insert c.cluster))

/-! ## One leaf -/

/-- Why a leaf is not split. -/
inductive Unresolved where
  | perClusterMissing (resourceName resourceFlavor : String)
  | clusterTwice (resourceName resourceFlavor cluster : String)
  | sumDiffers (resourceName resourceFlavor : String) (nominal sum : Quantity)
  | notReported (resourceName resourceFlavor : String) (silent : List String)
  | noCapacity (resourceName resourceFlavor : String)
  | splitting (resourceName resourceFlavor : String) (error : SharesError)
  | noPolicy (resourceName resourceFlavor : String)
  deriving DecidableEq, Inhabited

/-- An allowance with the cluster it landed on. -/
structure Placed where
  cluster : String
  /-- The cluster has installed capacity of the flavor. -/
  home : Bool
  allowance : Allowance
  deriving DecidableEq

/-- The budget's own policy, then the node's, then the default. -/
def effectivePolicy (q : AcceleratorQuota) (b : AcceleratorBudget) (opts : ResolveOptions) :
    DistributionPolicy :=
  if b.policy ≠ .unset then b.policy
  else match q.distribution with
    | some policy => if policy ≠ .unset then policy else opts.defaultPolicy
    | none => opts.defaultPolicy

def sumShares (shares : List Share) : Quantity :=
  shares.foldl (fun total s => total.add s.nominal) default

/-- The loop that takes the shares verbatim, with the clusters seen so far. -/
def takeShares (b : AcceleratorBudget) :
    List AcceleratorClusterShare → List String → Except Unresolved (List Share)
  | [], _ => .ok []
  | p :: rest, seen =>
    if p.cluster ∈ seen then
      .error (.clusterTwice b.resourceName b.resourceFlavor p.cluster)
    else (takeShares b rest (p.cluster :: seen)).map (⟨p.cluster, p.nominal⟩ :: ·)

/-- The admin's split, once it adds up. -/
def explicit (b : AcceleratorBudget) : Except Unresolved (List Share) :=
  if b.perCluster = [] then .error (.perClusterMissing b.resourceName b.resourceFlavor)
  else match takeShares b b.perCluster [] with
  | .error e => .error e
  | .ok out =>
    if (sumShares out).dec.cmp b.nominal.dec ≠ .eq then
      .error (.sumDiffers b.resourceName b.resourceFlavor b.nominal (sumShares out))
    else .ok (out.insertionSort fun a b => a.cluster ≤ b.cluster)

/-- A split with the budget it resolves. -/
def attach (node : String) (b : AcceleratorBudget) (split : List Share) : List Placed :=
  split.map fun s =>
    { cluster := s.cluster
      home := false
      allowance := ⟨node, b.resourceName, b.resourceFlavor, s.nominal⟩ }

/-- A proportional split is at home where the flavor is installed. -/
def atHome (homes : List String) (split : List Placed) : List Placed :=
  split.map fun a => { a with home := a.cluster ∈ homes }

section Leaf

variable (byPair : GoMap (String × String) (List Weight))
  (homes : GoMap (String × String) (List String)) (silent : List String) (opts : ResolveOptions)

/-- One budget of a leaf; `none` is a panic of the split. -/
def resolveBudget (node : String) (q : AcceleratorQuota) (b : AcceleratorBudget) :
    Option (Except Unresolved (List Placed)) :=
  match effectivePolicy q b opts with
  | .explicit => some ((explicit b).map (attach node b))
  | .proportional =>
    if silent ≠ [] then
      some (.error (.notReported b.resourceName b.resourceFlavor silent))
    else if byPair.get b.pair = [] then
      some (.error (.noCapacity b.resourceName b.resourceFlavor))
    else (proportional b.nominal (byPair.get b.pair)).map fun
      | .error e => .error (.splitting b.resourceName b.resourceFlavor e)
      | .ok split => .ok (atHome (homes.get b.pair) (attach node b split))
  | _ => some (.error (.noPolicy b.resourceName b.resourceFlavor))

/-- Every budget of a leaf, up to the first that cannot be split. -/
def resolveBudgets (node : String) (q : AcceleratorQuota) :
    List AcceleratorBudget → Option (Except Unresolved (List Placed))
  | [] => some (.ok [])
  | b :: rest =>
    (resolveBudget byPair homes silent opts node q b).bind fun
      | .error e => some (.error e)
      | .ok split => (resolveBudgets node q rest).map fun later => later.map (split ++ ·)

def resolveLeaf (t : Tree) (leaf : String) : Option (Except Unresolved (List Placed)) :=
  resolveBudgets byPair homes silent opts leaf (t.quota leaf) (t.quota leaf).budgets

end Leaf

/-- The allowances on the clusters where a leaf has something, or a home. -/
def onItsClusters (resolved : List Placed) : List Placed :=
  let keep := (resolved.filter fun a => a.home || !a.allowance.nominal.isZero).map Placed.cluster
  resolved.filter (·.cluster ∈ keep)

/-! ## The fleet's leaves -/

structure Resolution where
  byCluster : GoMap String (List Allowance)
  unresolved : GoMap String Unresolved

/-- The leaf's name, then its resource, then its flavor. -/
def Allowance.Less (a b : Allowance) : Prop :=
  if a.node ≠ b.node then a.node < b.node
  else if a.resourceName ≠ b.resourceName then a.resourceName < b.resourceName
  else a.resourceFlavor < b.resourceFlavor

instance : DecidableRel Allowance.Less := fun _ _ => inferInstanceAs (Decidable (ite _ _ _))

/-- One leaf of the pass, given how leaves are split. -/
def resolveNext (split : String → Option (Except Unresolved (List Placed))) (out : Resolution)
    (leaf : String) : Option Resolution :=
  (split leaf).map fun
    | .error reason => { out with unresolved := out.unresolved.set leaf reason }
    | .ok resolved =>
      { out with byCluster :=
          GoMap.group Placed.cluster Placed.allowance (onItsClusters resolved) out.byCluster }

/-- How a fleet report splits a leaf. -/
def splitLeaf (t : Tree) (fleet : Fleet) (opts : ResolveOptions) :
    String → Option (Except Unresolved (List Placed)) :=
  let gathered := fleet.capacity.foldl gather (.empty, .empty)
  let byPair := gathered.1.rewrite fun w => w.insertionSort fun a b => a.cluster ≤ b.cluster
  resolveLeaf byPair gathered.2 fleet.silent opts t

/-- `Resolve`: the allowances of every leaf, by cluster. -/
def resolve (t : Tree) (fleet : Fleet) (opts : ResolveOptions) : Option Resolution :=
  (t.leaves.foldlM (resolveNext (splitLeaf t fleet opts)) ⟨.empty, .empty⟩).map fun out =>
    { out with byCluster :=
        out.byCluster.rewrite fun a => a.insertionSort fun x y => ¬ y.Less x }

end Ome.Quota
