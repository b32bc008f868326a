/-
# Ome.Scheduler.Room — what a domain's nodes offer a gang

Model of the reading that the gang plugin takes of one domain: which unplaced members fit
each node on its own (`nodeFitsPod`), how many members each node can hold at once
(`newGangRoom`, counted in copies of the largest request in each dimension), whether the
whole gang fits (`currentCanJoin`), and which nodes leave room for the rest
(`candidates`).  The matching behind both is the augmenting-path search of
`Ome.Theory.Matching`, as in the source.

The pods are the values of an arbitrary type.  Their requests, the constraints that do not
depend on a node's load (cordons, taints, node name, required node affinity) and their
required anti-affinity terms are given by `Specs`.  Nodes are known by name.  The
quantities of a request are not negative, as the API server validates; of the `int64`
arithmetic only the product in `boundCopies` can leave the range.
-/
import Ome.Theory.GoMap
import Ome.Theory.MachineInt
import Ome.Theory.Matching

namespace Ome.Scheduler

open Ome.Theory

set_option autoImplicit false

/-! ## Nodes and requests -/

structure Resource where
  milliCPU : Int
  memory : Int
  ephemeralStorage : Int
  scalarResources : GoMap String Int

structure Request where
  milliCPU : Nat
  memory : Nat
  ephemeralStorage : Nat
  scalarResources : GoMap String Nat

structure NodeInfo where
  allocatable : Resource
  requested : Resource
  allowedPodNumber : Int
  /-- How many pods run there or are assumed to. -/
  pods : Nat

/-- The nodes of one domain. -/
structure DomainNodes where
  names : List String
  distinct : names.Nodup
  info : String → NodeInfo

/-- What the plugin reads off the members of a gang. -/
structure Specs (Pod : Type) where
  request : Pod → Request
  /-- The node is schedulable for the pod, carries the name it asks for, if it asks for
  one, and matches its required node affinity. -/
  placeable : String → Pod → Bool
  /-- The required anti-affinity terms, each with the pods it matches; none when they cannot
  be read. -/
  antiAffinityTerms : Pod → Option (List (Pod → Bool))

/-- The resource part of `nodeFitsPod`. -/
def NodeInfo.fitsRequest (ni : NodeInfo) (req : Request) : Bool :=
  !(decide (ni.allocatable.milliCPU - ni.requested.milliCPU < req.milliCPU) ||
    decide (ni.allocatable.memory - ni.requested.memory < req.memory) ||
    decide (ni.allocatable.ephemeralStorage - ni.requested.ephemeralStorage <
      req.ephemeralStorage) ||
    decide (ni.allowedPodNumber ≤ ni.pods)) &&
  req.scalarResources.keys.all fun name =>
    !decide (ni.allocatable.scalarResources.get name - ni.requested.scalarResources.get name <
      req.scalarResources.get name)

/-- `Resource.SetMaxResource`: the larger quantity in each dimension. -/
def Request.setMaxResource (r rl : Request) : Request where
  milliCPU := max r.milliCPU rl.milliCPU
  memory := max r.memory rl.memory
  ephemeralStorage := max r.ephemeralStorage rl.ephemeralStorage
  scalarResources := rl.scalarResources.keys.foldl (fun m name =>
    if m.get name < rl.scalarResources.get name then m.set name (rl.scalarResources.get name)
    else m) r.scalarResources

def Request.zero : Request := ⟨0, 0, 0, GoMap.empty⟩

def boundCopies (copies free : Int) (perCopy : Nat) : Int :=
  if perCopy = 0 ∨ copies ≤ 0 then copies
  else if free < wrap64 (perCopy * copies) then max free 0 / perCopy
  else copies

/-- How many pods of the request the node can take beside its load; a dimension the
request leaves at zero does not bound it. -/
def copiesThatFit (ni : NodeInfo) (request : Request) : Int :=
  let copies := ni.allowedPodNumber - ni.pods
  let copies := boundCopies copies (ni.allocatable.milliCPU - ni.requested.milliCPU)
    request.milliCPU
  let copies := boundCopies copies (ni.allocatable.memory - ni.requested.memory) request.memory
  let copies := boundCopies copies
    (ni.allocatable.ephemeralStorage - ni.requested.ephemeralStorage) request.ephemeralStorage
  request.scalarResources.keys.foldl (fun copies name => boundCopies copies
    (ni.allocatable.scalarResources.get name - ni.requested.scalarResources.get name)
    (request.scalarResources.get name)) copies

/-- The node with one more pod on it. -/
def NodeInfo.addPod (ni : NodeInfo) (req : Request) : NodeInfo :=
  { ni with
    requested :=
      { milliCPU := ni.requested.milliCPU + req.milliCPU
        memory := ni.requested.memory + req.memory
        ephemeralStorage := ni.requested.ephemeralStorage + req.ephemeralStorage
        scalarResources := req.scalarResources.keys.foldl (fun m name =>
          m.set name (m.get name + req.scalarResources.get name)) ni.requested.scalarResources }
    pods := ni.pods + 1 }

/-! ## The gang's room -/

section Pods

variable {Pod : Type} (specs : Specs Pod) (nodes : DomainNodes)

def nodeFitsPod (node : String) (pod : Pod) : Bool :=
  specs.placeable node pod && (nodes.info node).fitsRequest (specs.request pod)

/-- A required anti-affinity on some member matches a member, so no two may share a node. -/
def membersMustStayApart (pods : List Pod) : Bool :=
  pods.any fun pod =>
    match specs.antiAffinityTerms pod with
    | none => true
    | some terms => terms.any fun term => pods.any term

/-- What one domain's nodes offer the gang's remaining members, the current one first. -/
structure GangRoom (Pod : Type) where
  pods : List Pod
  nodes : List String
  fits : String → Pod → Bool
  room : String → Nat

/-- The largest request, in each dimension, of the members that fit the node. -/
def largestFitting (pods : List Pod) (node : String) : Request :=
  (pods.filter (nodeFitsPod specs nodes node)).foldl
    (fun largest pod => largest.setMaxResource (specs.request pod)) Request.zero

def newGangRoom (pods : List Pod) (need : Int) : GangRoom Pod where
  pods := pods
  nodes := nodes.names
  fits := nodeFitsPod specs nodes
  room node :=
    let perNode := if membersMustStayApart specs pods then 1 else need
    if pods.any (nodeFitsPod specs nodes node) then
      (max 1 (min perNode
        (copiesThatFit (nodes.info node) (largestFitting specs nodes pods node)))).toNat
    else 0

/-- The nodes after the pod went to one of them. -/
def DomainNodes.put (node : String) (pod : Pod) : DomainNodes :=
  { nodes with
    info := Function.update nodes.info node ((nodes.info node).addPod (specs.request pod)) }

end Pods

namespace GangRoom

variable {Pod : Type} (r : GangRoom Pod)

/-- How many of the members beside the current one can hold a place at once, up to the
limit. -/
def maxMatching (room : String → Nat) (limit : Int) : Nat :=
  if limit ≤ 0 then 0
  else Matching.grow r.fits room r.nodes limit r.pods.tail (fun _ => []) 0

def restFitsBeside (node : String) (count : Int) : Bool :=
  let left := Function.update r.room node (r.room node - 1)
  decide (count ≤ r.maxMatching left count)

/-- The node takes the current member and leaves room for `count` others. -/
def offers (current : Pod) (count : Int) (node : String) : Bool :=
  r.fits node current && decide (0 < r.room node) && r.restFitsBeside node count

def currentCanJoin (need : Int) : Bool :=
  if need ≤ 0 ∨ (r.pods.length : Int) < need then false
  else
    match r.pods with
    | [] => false
    | current :: _ => r.nodes.any (r.offers current (need - 1))

def candidates (count : Int) : List String :=
  match r.pods with
  | [] => []
  | current :: _ => r.nodes.filter (r.offers current count)

end GangRoom

end Ome.Scheduler
