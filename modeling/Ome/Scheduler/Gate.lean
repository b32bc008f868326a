/-
# Ome.Scheduler.Gate — the gang gate

Model of the gang plugin's `Reserve`, `Permit` and `Unreserve` over the assignment store,
with the memory of the attempt each pod waits under, and of the framework's list of
waiting pods.  The loop in which `Permit` lets the waiting siblings go runs after its
check and without the store's lock, so it is a step of its own (`opening`); the loop in
which `Unreserve` rejects them runs under the lock of the release.

A pod is its attempt key, and `gangOf` reads its label.  `Logged` keeps what happened
beside the state; no step reads the log.
-/
import Ome.Scheduler.Assignments

namespace Ome.Scheduler

open Ome.Theory

set_option autoImplicit false

/-! ## The plugin -/

/-- What `PreFilter` recorded for the cycle of a gang member. -/
structure AssignmentState where
  gang : String
  timeout : Int
  commitment : Nat

structure GangPack where
  assignments : DomainAssignments
  attemptByPod : GoMap String Nat
  /-- The pods that wait at the gate. -/
  waiting : List String
  /-- The gangs whose waiting members are being let go, with the commitment. -/
  opening : List (String × Nat)

inductive PermitStatus where
  | success
  | wait
  | unschedulable
  | unschedulableAndUnresolvable
  deriving DecidableEq

namespace GangPack

variable (g : GangPack)

def attemptFor (pod : String) : Nat := g.attemptByPod.get pod

def rememberAttempt (pod : String) (token : Nat) : GangPack :=
  if pod = "" then g else { g with attemptByPod := g.attemptByPod.set pod token }

def forgetAttempt (pod : String) (token : Nat) : GangPack :=
  if g.attemptByPod.get pod = token then { g with attemptByPod := g.attemptByPod.erase pod }
  else g

section Callbacks

variable (gangOf : String → Option String)

/-- The waiting members of the gang that wait under this attempt. -/
def waitingAttempt (gang : String) (token : Nat) : List String :=
  g.waiting.filter fun pod => gangOf pod = some gang ∧ g.attemptFor pod = token

def reserve (assignment : Option AssignmentState) : GangPack :=
  match assignment with
  | none => g
  | some a => { g with assignments := (g.assignments.place a.gang a.commitment).1 }

/-- The member is let through once its commitment has nothing left to place; the waiting
siblings are then let go.  Before that it waits at the gate. -/
def permit (assignment : Option AssignmentState) (pod : String) : GangPack × PermitStatus :=
  match assignment with
  | none => (g, if (gangOf pod).isSome then .unschedulable else .success)
  | some a =>
    if a.timeout ≤ 0 then (g, .unschedulableAndUnresolvable)
    else
      let g := g.rememberAttempt pod a.commitment
      if g.assignments.committed a.gang a.commitment then
        ({ g with opening := (a.gang, a.commitment) :: g.opening }, .success)
      else ({ g with waiting := g.waiting.insert pod }, .wait)

/-- Drop the attempt's commitment: whether this call released it, and the waiting pods it
rejects. -/
def releaseAttempt (a : AssignmentState) (pod : String) : GangPack × Bool × List String :=
  let (assignments, released) := g.assignments.release a.gang a.commitment
  let rejected := if released then g.waitingAttempt gangOf a.gang a.commitment else []
  (({ g with assignments } : GangPack).forgetAttempt pod a.commitment, released, rejected)

def unreserve (assignment : Option AssignmentState) (pod : String) :
    GangPack × Bool × List String :=
  match assignment with
  | none => (g, false, [])
  | some a => g.releaseAttempt gangOf a pod

end Callbacks

end GangPack

/-! ## Runs -/

/-- What happened in a run. -/
inductive Outcome where
  /-- A commitment of the gang was made with this reservation. -/
  | created (gang : String) (id : Nat) (reservation : Int)
  /-- A member was reserved under a commitment. -/
  | reserved (gang : String) (id : Nat)
  /-- `Permit` let the arriving member through. -/
  | proceeded (pod gang : String) (id : Nat)
  /-- `Permit` let a waiting member go. -/
  | allowed (pod gang : String) (id : Nat)
  /-- A waiting member was rejected with its commitment. -/
  | rejected (pod gang : String) (id : Nat)
  deriving DecidableEq

/-- The plugin and what happened so far. -/
structure Logged where
  plugin : GangPack
  log : List Outcome

namespace Logged

/-- Nothing happened yet. -/
def start : Logged := ⟨⟨DomainAssignments.new, GoMap.empty, [], []⟩, []⟩

variable (s : Logged)

/-- A call of the store that may make a commitment. -/
def commit (gang : Gang) (call : Call) (reservation : Int) : Logged where
  plugin := { s.plugin with assignments := s.plugin.assignments.step call }
  log := s.log ++ ((s.plugin.assignments.created call).map
    (Outcome.created gang.group · reservation)).toList

def choose (gang : Gang) (free : GoMap String Int) (nodesByDomain : GoMap String (List String))
    (size : Int) : Logged :=
  s.commit gang (.choose gang free nodesByDomain size) size

def set (gang : Gang) (domain : String) (remaining : Int) (nodes : List String) : Logged :=
  s.commit gang (.set gang domain remaining nodes) (max 0 remaining)

def reserve (a : AssignmentState) : Logged where
  plugin := s.plugin.reserve (some a)
  log := s.log ++ [.reserved a.gang a.commitment]

section Callbacks

variable (gangOf : String → Option String)

def permit (a : AssignmentState) (pod : String) : Logged where
  plugin := (s.plugin.permit gangOf (some a) pod).1
  log := s.log ++
    if (s.plugin.permit gangOf (some a) pod).2 = .success then
      [.proceeded pod a.gang a.commitment]
    else []

/-- The loop in which `Permit` lets the waiting siblings go. -/
def openGate (gang : String) (id : Nat) : Logged where
  plugin := { s.plugin with opening := s.plugin.opening.erase (gang, id) }
  log := s.log ++
    (s.plugin.waitingAttempt gangOf gang id).map (Outcome.allowed · gang id)

def unreserve (a : AssignmentState) (pod : String) : Logged where
  plugin := (s.plugin.unreserve gangOf (some a) pod).1
  log := s.log ++
    (s.plugin.unreserve gangOf (some a) pod).2.2.map (Outcome.rejected · a.gang a.commitment)

end Callbacks

/-- `PreFilter` drops a stale commitment: its domain is gone, or too full for a gang that has
no member there yet. -/
def replan (gang : String) (id : Nat) : Logged :=
  { s with
    plugin := { s.plugin with assignments := (s.plugin.assignments.release gang id).1 } }

/-- The framework takes a pod from its waiting list: let go, rejected or timed out. -/
def leave (pod : String) : Logged :=
  { s with plugin := { s.plugin with waiting := s.plugin.waiting.erase pod } }

/-- The member took this commitment at `PreFilter`, at any time before. -/
def Took (gangOf : String → Option String) (pod : String) (a : AssignmentState) : Prop :=
  gangOf pod = some a.gang ∧ ∃ reservation, .created a.gang a.commitment reservation ∈ s.log

end Logged

/-- One step of the scheduler.  A callback carries a commitment that its member took, not
necessarily the one its gang holds now. -/
inductive GateMove (gangOf : String → Option String) : Logged → Logged → Prop
  | choose (s : Logged) (gang : Gang) (free : GoMap String Int)
      (nodesByDomain : GoMap String (List String)) (size : Int) :
      GateMove gangOf s (s.choose gang free nodesByDomain size)
  | set (s : Logged) (gang : Gang) (domain : String) (remaining : Int) (nodes : List String) :
      GateMove gangOf s (s.set gang domain remaining nodes)
  | reserve (s : Logged) (pod : String) (a : AssignmentState) (took : s.Took gangOf pod a) :
      GateMove gangOf s (s.reserve a)
  | permit (s : Logged) (pod : String) (a : AssignmentState) (took : s.Took gangOf pod a) :
      GateMove gangOf s (s.permit gangOf a pod)
  | openGate (s : Logged) (gang : String) (id : Nat)
      (pending : (gang, id) ∈ s.plugin.opening) : GateMove gangOf s (s.openGate gangOf gang id)
  | unreserve (s : Logged) (pod : String) (a : AssignmentState) (took : s.Took gangOf pod a) :
      GateMove gangOf s (s.unreserve gangOf a pod)
  | replan (s : Logged) (gang : String) (id : Nat) : GateMove gangOf s (s.replan gang id)
  | leave (s : Logged) (pod : String) : GateMove gangOf s (s.leave pod)

end Ome.Scheduler
