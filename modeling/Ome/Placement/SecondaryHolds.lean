/-
# Ome.Placement.SecondaryHolds — secondary floors fall without losing the fleet minimum

The model of `secondaryFloorHolds` in `placement/secondary_holds.go`.  A floor falls
to its next value as far as instances are not ready; ready ones are released in name
order while those on serving members exceed the fleet minimum.  The counts are `int32`
and not negative, so that their differences, and their `int64` sums, are integers.
-/
import Ome.Theory.GoMap
import Ome.Theory.Loops

namespace Ome.Placement

open Ome.Theory List

set_option autoImplicit false

structure SecondaryMember where
  applied : Int
  next : Int
  ready : Int
  known : Bool
  serving : Bool
  deriving DecidableEq, Inhabited

namespace SecondaryMember

variable (m : SecondaryMember)

/-- The ready instances that are known to carry traffic. -/
def carries : Int := if m.known && m.serving then m.ready else 0

/-- Where the floor of an observed member falls before a ready instance is lost. -/
def readyFloor : Int := max m.next (min m.applied m.ready)

/-- What an observed member gives up of its ready instances at a floor. -/
def released (floor : Int) : Int :=
  if m.known = true ∧ m.next < m.applied then m.readyFloor - floor else 0

/-- The ready instances a floor takes from a member that carries traffic. -/
def loss (floor : Int) : Int :=
  if m.known = true ∧ m.serving = true ∧ m.next < m.applied then
    max 0 (min m.applied m.ready - floor)
  else 0

end SecondaryMember

/-- The ready instances on serving members above the minimum. -/
def surplus (minimum : Int) (members : GoMap String SecondaryMember) : Int :=
  max 0 ((members.keys.map fun name => (members.get name).carries).sum - minimum)

/-- One member of the loop, with the surplus left and the floors held. -/
def holdFloor (members : GoMap String SecondaryMember) (s : Int × GoMap String Int)
    (name : String) : Int × GoMap String Int :=
  let member := members.get name
  if member.applied ≤ member.next then s
  else
    let release := if member.known then min (member.readyFloor - member.next) s.1 else 0
    let floor := (if member.known then member.readyFloor else member.applied) - release
    (s.1 - release, if member.next < floor then s.2.set name floor else s.2)

def secondaryFloorHolds (minimum : Int) (members : GoMap String SecondaryMember) :
    GoMap String Int :=
  (members.sortedKeys.foldl (holdFloor members) (surplus minimum members, .empty)).2

/-- The floor a member is left at. -/
def floorOf (members : GoMap String SecondaryMember) (holds : GoMap String Int)
    (name : String) : Int :=
  if name ∈ holds.keys then holds.get name else (members.get name).next

/-! ## The loop -/

/-- A floor a member may be lowered to, given the surplus left. -/
structure Lowered (m : SecondaryMember) (left floor : Int) : Prop where
  low : m.next ≤ floor
  high : floor ≤ m.applied
  ready : m.known = true → floor ≤ m.readyFloor
  unknown : m.known = false → floor = m.applied
  held : m.next < floor → m.known = false ∨ left = 0

/-- The loop once it has read these members. -/
structure Holding (minimum : Int) (members : GoMap String SecondaryMember) (done : List String)
    (s : Int × GoMap String Int) : Prop where
  nonneg : 0 ≤ s.1
  keys : ∀ k ∈ s.2.keys, k ∈ done
  spent : (done.map fun k => (members.get k).released (floorOf members s.2 k)).sum =
    surplus minimum members - s.1
  each : ∀ k ∈ done, (members.get k).next < (members.get k).applied →
    Lowered (members.get k) s.1 (floorOf members s.2 k)

variable {minimum : Int} {members : GoMap String SecondaryMember} {done : List String}
  {s : Int × GoMap String Int} {name : String}

theorem loss_le_released {m : SecondaryMember} {left floor : Int}
    (lowered : m.next < m.applied → Lowered m left floor) : m.loss floor ≤ m.released floor := by
  rw [SecondaryMember.loss, SecondaryMember.released]
  by_cases lowers : m.known = true ∧ m.next < m.applied
  · have ready := (lowered lowers.2).ready lowers.1
    rw [if_pos lowers]
    rw [SecondaryMember.readyFloor] at ready ⊢
    split <;> omega
  · rw [if_neg lowers, if_neg fun serves => lowers ⟨serves.1, serves.2.2⟩]

/-- One more member, whose floor takes its part of the surplus. -/
theorem Holding.visit (holding : Holding minimum members done s) (fresh : name ∉ done)
    {left floor : Int} (nonneg : 0 ≤ left) (low : (members.get name).next ≤ floor)
    (release : (members.get name).released floor = s.1 - left)
    (lowered : (members.get name).next < (members.get name).applied →
      Lowered (members.get name) left floor) (empty : s.1 = 0 → left = 0) :
    Holding minimum members (done ++ [name])
      (left, if (members.get name).next < floor then s.2.set name floor else s.2) := by
  have absent : name ∉ s.2.keys := fun held => fresh (holding.keys name held)
  have own : floorOf members (if (members.get name).next < floor then s.2.set name floor
      else s.2) name = floor := by
    split
    · simp [floorOf, GoMap.mem_keys_set]
    · rw [floorOf, if_neg absent]
      omega
  have frame (k : String) (read : k ∈ done) : floorOf members
      (if (members.get name).next < floor then s.2.set name floor else s.2) k =
        floorOf members s.2 k := by
    have other : k ≠ name := fun same => fresh (same ▸ read)
    split
    · simp [floorOf, GoMap.mem_keys_set, GoMap.get_set, other]
    · rfl
  refine ⟨nonneg, fun k held => ?_, ?_, fun k read lower => ?_⟩
  · rw [mem_append, mem_singleton]
    split at held
    · exact ((GoMap.mem_keys_set ..).mp held).imp_left (holding.keys k)
    · exact .inl (holding.keys k held)
  · rw [map_append, sum_append, map_singleton, sum_singleton, own, release,
      map_congr_left fun k read => by rw [frame k read], holding.spent]
    omega
  · rcases mem_append.mp read with before | here
    · obtain ⟨low, high, ready, unknown, held⟩ := holding.each k before lower
      rw [frame k before]
      exact ⟨low, high, ready, unknown, fun above => (held above).imp_right empty⟩
    · obtain rfl := mem_singleton.mp here
      rw [own]
      exact lowered lower

theorem Holding.round (holding : Holding minimum members done s) (fresh : name ∉ done) :
    Holding minimum members (done ++ [name]) (holdFloor members s name) := by
  have nonneg := holding.nonneg
  by_cases stays : (members.get name).applied ≤ (members.get name).next
  · have idle : (members.get name).released (members.get name).next = s.1 - s.1 := by
      rw [SecondaryMember.released, if_neg (by omega), sub_self]
    have same := holding.visit fresh nonneg le_rfl idle (by omega) id
    rw [if_neg (lt_irrefl _)] at same
    rw [holdFloor, if_pos stays]
    exact same
  · rw [holdFloor]
    simp only [if_neg stays]
    cases observed : (members.get name).known with
    | false =>
      refine holding.visit fresh (by simpa using nonneg) (by simp; omega) ?_ (fun _ => ?_) (by simp)
      · simp [SecondaryMember.released, observed]
      · exact ⟨by simp; omega, by simp, by simp [observed], by simp, fun _ => .inl observed⟩
    | true =>
      have bounds : (members.get name).next ≤ (members.get name).readyFloor ∧
          (members.get name).readyFloor ≤ (members.get name).applied := by
        rw [SecondaryMember.readyFloor]
        omega
      simp only [if_true]
      refine holding.visit fresh (by omega) (by omega) ?_ (fun _ => ?_) (by omega)
      · rw [SecondaryMember.released, if_pos ⟨observed, not_le.mp stays⟩]
        omega
      · exact ⟨by omega, by omega, fun _ => by omega, by simp [observed], fun _ => .inr (by omega)⟩

/-! ## The contract -/

/-- **Lowering the floors keeps the fleet minimum.**  What the floors take from the ready
instances on serving members leaves at least the minimum of them, or all there were;
every lowered floor is between the next and the applied one, an unobserved member
keeps its floor, and an observed one is held only when no surplus is left. -/
theorem holds_keep_fleet_minimum (minimum : Int) (members : GoMap String SecondaryMember) :
    let floor := floorOf members (secondaryFloorHolds minimum members)
    let ready := (members.keys.map fun name => (members.get name).carries).sum
    min ready minimum ≤ ready -
        (members.keys.map fun name => (members.get name).loss (floor name)).sum ∧
      ∃ left, (members.keys.map fun name => (members.get name).released (floor name)).sum =
          surplus minimum members - left ∧
        ∀ name ∈ members.keys, (members.get name).next < (members.get name).applied →
          Lowered (members.get name) left (floor name) := by
  have run : Holding minimum members members.sortedKeys
      (members.sortedKeys.foldl (holdFloor members) (surplus minimum members, .empty)) := by
    refine foldl_along (Holding minimum members) ⟨le_max_left _ _, by simp, by simp, by simp⟩
      fun done name rest s split holding => holding.round ?_
    have distinct := members.nodup_sortedKeys
    rw [split, nodup_append] at distinct
    exact fun read => distinct.2.2 name read name mem_cons_self rfl
  obtain ⟨nonneg, -, spent, each⟩ := run
  rw [← secondaryFloorHolds, (members.sortedKeys_perm.map _).sum_eq] at spent
  rw [← secondaryFloorHolds] at each
  have lowered := fun name member => each name ((members.mem_sortedKeys name).mpr member)
  have losses := sum_le_sum fun name member => loss_le_released (lowered name member)
  refine ⟨?_, _, spent, lowered⟩
  have top : surplus minimum members = max 0 (_ - minimum) := rfl
  omega

end Ome.Placement
