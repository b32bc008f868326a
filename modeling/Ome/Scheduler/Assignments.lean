/-
# Ome.Scheduler.Assignments — the domains that gangs are committed to

Model of `DomainAssignments`, the scheduler's store of placement decisions, with the
best-fit choice it rests on.  The store keeps, beside the commitments, two indexes over
the outstanding reservations: by domain and by node.  Every method runs under the
store's lock, so a call is one step.

A commitment is a pointer in the source, changed in place; here the changed commitment
is put back under its group.  Counts and ids are unbounded numbers, `int` and `uint64`
in the source: they agree while fewer than `2 ^ 32` commitments, of `int32` members each,
are held at once and fewer than `2 ^ 64` are ever made.
-/
import Ome.Theory.Ledger

namespace Ome.Scheduler

open Ome.Theory

set_option autoImplicit false

/-! ## The best fit -/

/-- The better of the best domain so far and the next one. -/
def betterFit (free : GoMap String Int) (gangSize : Int) (best : String × Int) (d : String) :
    String × Int :=
  if free.get d < gangSize then best
  else if best.1 = "" ∨ free.get d < best.2 then (d, free.get d)
  else best

/-- The fitting domain with the least room, the first in name order among equals.  The
empty name stands for no domain. -/
def bestFit (free : GoMap String Int) (gangSize : Int) : Option String :=
  if gangSize ≤ 0 then none
  else
    let best := free.sortedKeys.foldl (betterFit free gangSize) ("", 0)
    if best.1 = "" then none else some best.1

/-! ## The store -/

/-- One domain under one topology key. -/
structure Domain where
  topologyKey : String
  name : String
  deriving DecidableEq, Inhabited

/-- The placement group a commitment belongs to. -/
structure Gang where
  group : String
  owner : String
  topologyKey : String

/-- A group's placement decision, with the whole nodes still reserved for its members. -/
structure Commitment where
  domain : Domain
  owner : String
  remaining : Int
  id : Nat
  nodes : List String
  soleFit : Bool
  nonneg : 0 ≤ remaining
  distinct : nodes.Nodup

instance : Inhabited Commitment :=
  ⟨⟨default, "", 0, 0, [], false, le_refl 0, List.nodup_nil⟩⟩

structure DomainAssignments where
  byGroup : GoMap String Commitment
  nextID : Nat
  reserved : GoMap Domain Int
  reservedNodes : GoMap String Int

/-- The set of the named nodes. -/
def nodeSet (nodes : List String) : List String := (nodes.filter (· ≠ "")).dedup

/-- A commitment with nothing reserved yet. -/
def Commitment.fresh (domain : Domain) (owner : String) (id : Nat) (nodes : List String)
    (soleFit : Bool) : Commitment where
  domain := domain
  owner := owner
  remaining := 0
  id := id
  nodes := nodeSet nodes
  soleFit := soleFit
  nonneg := le_refl 0
  distinct := List.nodup_dedup _

def Commitment.withRemaining (c : Commitment) (remaining : Int) : Commitment :=
  { c with
    remaining := max 0 remaining
    nonneg := le_max_left 0 remaining }

namespace DomainAssignments

/-- The empty store. -/
def new : DomainAssignments := ⟨GoMap.empty, 0, GoMap.empty, GoMap.empty⟩

variable (p : DomainAssignments)

/-- Change what a commitment has reserved, in both indexes. -/
def setRemaining (c : Commitment) (remaining : Int) : DomainAssignments × Commitment :=
  let c' := c.withRemaining remaining
  let wasReserved := 0 < c.remaining
  let willReserve := 0 < c'.remaining
  ({ p with
      reserved := p.reserved.bump c.domain (c'.remaining - c.remaining)
      reservedNodes :=
        if wasReserved ↔ willReserve then p.reservedNodes
        else c.nodes.foldl
          (fun index node => index.bump node (if willReserve then 1 else -1)) p.reservedNodes },
    c')

/-- The room of each domain that no outstanding reservation touches, by the domain or by a
node; none in the others. -/
def effective (gang : Gang) (free : GoMap String Int)
    (nodesByDomain : GoMap String (List String)) : GoMap String Int :=
  free.keys.foldl
    (fun eff d => eff.set d
      (if 0 < p.reserved.get ⟨gang.topologyKey, d⟩ ∨
          ∃ node ∈ nodesByDomain.get d, 0 < p.reservedNodes.get node then 0
      else free.get d))
    GoMap.empty

/-- The number of domains with room for the whole gang. -/
def fittingDomains (free : GoMap String Int) (gangSize : Int) : Nat :=
  (free.keys.filter fun d => gangSize ≤ free.get d).length

variable (group : String)

/-- Put a new commitment of the group into the store and reserve its nodes. -/
def commit (c : Commitment) (remaining : Int) : DomainAssignments :=
  let (p, c) := { p with nextID := p.nextID + 1 }.setRemaining c remaining
  { p with byGroup := p.byGroup.set group c }

/-- The domain the gang is committed to and the id that owns the commitment; a gang
without one is committed to the best fit. -/
def choose (gang : Gang) (free : GoMap String Int) (nodesByDomain : GoMap String (List String))
    (size : Int) : DomainAssignments × Option (String × Nat) :=
  if gang.group ∈ p.byGroup.keys then
    let c := p.byGroup.get gang.group
    if c.owner ≠ gang.owner then (p, none) else (p, some (c.domain.name, c.id))
  else
    let eff := p.effective gang free nodesByDomain
    match bestFit eff size with
    | none => (p, none)
    | some d =>
      let c := Commitment.fresh ⟨gang.topologyKey, d⟩ gang.owner (p.nextID + 1)
        (nodesByDomain.get d) (fittingDomains eff size < 2)
      (p.commit gang.group c size, some (d, c.id))

/-- Give up the reservation of the commitment that the group holds, if any. -/
def giveUp : DomainAssignments :=
  if group ∈ p.byGroup.keys then
    let (p, c) := p.setRemaining (p.byGroup.get group) 0
    { p with byGroup := p.byGroup.set group c }
  else p

/-- Rebuild a commitment from members already placed. -/
def set (gang : Gang) (domain : String) (remaining : Int) (nodes : List String) :
    DomainAssignments × Nat :=
  let remaining := max 0 remaining
  let p := p.giveUp gang.group
  let c := Commitment.fresh ⟨gang.topologyKey, domain⟩ gang.owner (p.nextID + 1) nodes true
  (p.commit gang.group c remaining, c.id)

/-- The id owns the group's commitment. -/
def Owns (id : Nat) : Prop :=
  group ∈ p.byGroup.keys ∧ (p.byGroup.get group).id = id

instance (group : String) (id : Nat) : Decidable (p.Owns group id) :=
  inferInstanceAs (Decidable (_ ∧ _))

/-- One member of the commitment has landed: whether it was counted, and whether it was the
last one. -/
def place (id : Nat) : DomainAssignments × Bool × Bool :=
  if p.Owns group id ∧ 0 < (p.byGroup.get group).remaining then
    let c := p.byGroup.get group
    let (p, c) := p.setRemaining c (c.remaining - 1)
    ({ p with byGroup := p.byGroup.set group c }, true, c.remaining = 0)
  else (p, false, false)

/-- Drop the commitment that the id owns, with its reservation. -/
def release (id : Nat) : DomainAssignments × Bool :=
  if p.Owns group id then
    let c := p.byGroup.get group
    let (p, _) := { p with byGroup := p.byGroup.erase group }.setRemaining c 0
    (p, true)
  else (p, false)

/-- Every slot that the commitment of this id reserved has been placed. -/
def committed (id : Nat) : Bool :=
  p.Owns group id ∧ (p.byGroup.get group).remaining = 0

end DomainAssignments

/-! ## Runs -/

/-- A call of the store. -/
inductive Call where
  | choose (gang : Gang) (free : GoMap String Int) (nodesByDomain : GoMap String (List String))
      (size : Int)
  | set (gang : Gang) (domain : String) (remaining : Int) (nodes : List String)
  | place (group : String) (id : Nat)
  | release (group : String) (id : Nat)

/-- A call other than `set`. -/
def Call.NotSet : Call → Prop
  | .set _ _ _ _ => False
  | _ => True

namespace DomainAssignments

def step (p : DomainAssignments) : Call → DomainAssignments
  | .choose gang free nodesByDomain size => (p.choose gang free nodesByDomain size).1
  | .set gang domain remaining nodes => (p.set gang domain remaining nodes).1
  | .place group id => (p.place group id).1
  | .release group id => (p.release group id).1

/-- The store after some calls. -/
def run (calls : List Call) : DomainAssignments := calls.foldl step new

/-- The id of the commitment that a call creates. -/
def created (p : DomainAssignments) : Call → Option Nat
  | .choose gang free nodesByDomain size =>
    if gang.group ∈ p.byGroup.keys then none
    else (p.choose gang free nodesByDomain size).2.map (·.2)
  | .set gang domain remaining nodes => some (p.set gang domain remaining nodes).2
  | .place _ _ => none
  | .release _ _ => none

/-- The ids of the commitments that some calls create, in order. -/
def createdIds (p : DomainAssignments) : List Call → List Nat
  | [] => []
  | call :: calls => (p.created call).toList ++ (p.step call).createdIds calls

end DomainAssignments

end Ome.Scheduler
