/-
# Ome.Coordination.BatchStep — the gate that paces a group in batches

The model of the batch step of `coordination/batch_step.go`: a member's counts
(`BatchMember`), the cumulative mark of a batch (`mark`), the batch its next start
belongs to (`nextBatch`) and the answer to that start (`BatchStep.hold`).

`mark` multiplies in `int32`, and `nextBatch` counts in `int32` without a bound:
the product and the counter wrap, and the loop takes fuel, with `none` for a call
that has not returned yet.  `batchMark` is what the source documents a mark to
be, the planned count or `b` steps, capped at the movable count; `mark_eq` says
up to where the code computes it.
-/
import Mathlib.Data.Int.ConditionallyCompleteOrder
import Mathlib.Data.List.GetD
import Mathlib.Tactic.Positivity
import Mathlib.Tactic.Ring
import Ome.Component
import Ome.Coordination.BatchPlan

namespace Ome.Coordination

open Ome.Theory List Option

set_option autoImplicit false

/-! ## Members -/

def pairingPeer : Component → Component
  | .decoder => .engine
  | _ => .decoder

theorem pairingPeer_ne (component : Component) : pairingPeer component ≠ component := by
  cases component <;> decide

/-- One member of the group as the batch step reads its replica. -/
structure BatchMember where
  component : Component
  desired : Int
  held : Int := 0
  step : Int
  /-- The count started after each planned batch; `none` means batches of `step`. -/
  marks : Option (List Int) := none
  promoted : Int := 0
  opened : Int := 0
  ended : Int := 0
  heldReason : String := ""
  deriving DecidableEq

namespace BatchMember

variable (m : BatchMember)

def movable : Int := if m.held ≥ m.desired then 0 else m.desired - m.held

def started : Int := m.promoted + m.opened + m.ended

/-- What a peer may stop waiting on. -/
def settled : Int := m.promoted + m.ended

/-- The cumulative count batch `b` should have started. -/
def mark (b : Int) : Int :=
  if b ≤ 0 then 0
  else match m.marks with
    | some marks =>
      if b > marks.length then m.movable else min (marks.getD (b - 1).toNat 0) m.movable
    | none =>
      let t := wrap32 (b * m.step)
      if t < m.movable then t else m.movable

/-- The loop of `nextBatch` from batch `b`. -/
def nextBatchFrom : Nat → Int → Option Int
  | 0, _ => none
  | fuel + 1, b =>
    if m.mark b > m.started then some b
    else if m.mark b ≥ m.movable then some (wrap32 (b + 1))
    else nextBatchFrom fuel (wrap32 (b + 1))

/-- The batch the member's next start belongs to, counted from one. -/
def nextBatch (fuel : Nat) : Option Int := m.nextBatchFrom fuel 1

/-- The mark of batch `b` as documented: the planned count, or `b` steps, capped
at the movable count. -/
def batchMark : Nat → Int
  | 0 => 0
  | b + 1 =>
    match m.marks with
    | some marks => min (marks.getD b m.movable) m.movable
    | none => min ((b + 1) * m.step) m.movable

end BatchMember

/-! ## The gate -/

inductive RolloutHoldGate where
  | ratio
  | held
  deriving DecidableEq

/-- One group's reading for one start.  `acting` is a position in the slice. -/
structure BatchStep (n : Nat) where
  members : Fin n → BatchMember
  acting : Fin n
  firstSide : Option Component := none
  released : Bool := false

/-- Names a member's ended attempts in a hold reason. -/
def failedNote (m : BatchMember) : String :=
  if m.ended > 0 then ", " ++ toString m.ended ++ " failed" else ""

/-- Names the Instances a member's partition lets the roll move. -/
def movableNote (m : BatchMember) : String :=
  if m.held > 0 then ", " ++ toString m.movable ++ " of " ++ toString m.desired ++ " movable"
  else ""

namespace BatchStep

variable {n : Nat} (s : BatchStep n)

def me : BatchMember := s.members s.acting

/-- Peers before self. -/
def order : List (Fin n) := (List.finRange n).filter (· ≠ s.acting) ++ [s.acting]

/-- The acting member's wait on batch `on` of member `x`, short of `mark`. -/
def wait (b : Int) (x : BatchMember) (on mark : Int) : RolloutHoldGate × String :=
  let first := if on = b then " first" else ""
  let text := s.me.component.text ++ " batch " ++ toString b ++ " waits for " ++
    x.component.text ++ " batch " ++ toString on ++ " to serve" ++ first ++ " (" ++
    toString x.promoted ++ " of " ++ toString mark ++ " serving" ++ failedNote x ++
    movableNote x ++ ")"
  if x.heldReason ≠ "" ∧ some x.component = s.firstSide ∧ x.component ≠ s.me.component then
    (.held, text ++ ", and the " ++ x.component.text ++ " is held: " ++ x.heldReason ++
      "; a corrected revision, or a release of the held revision on the " ++ x.component.text ++
      ", resumes both sides")
  else (.ratio, text)

/-- The first member of `members` whose batch `on` has not settled. -/
def firstShort (members : List (Fin n)) (waived : Option Component) (on : Int) :
    Option BatchMember :=
  (members.map s.members).find? fun x =>
    decide (some x.component ≠ waived) && decide (x.settled < x.mark on)

/-- The wait on the batch before, peers before self. -/
def previousBatchWait (waived : Option Component) (b : Int) : Option (RolloutHoldGate × String) :=
  if b > 1 then
    (s.firstShort s.order waived (b - 1)).map fun x => s.wait b x (b - 1) (x.mark (b - 1))
  else none

/-- The other pairing side's wait on the named side's own batch. -/
def firstSideWait (waived : Option Component) (b : Int) : Option (RolloutHoldGate × String) :=
  match s.firstSide with
  | none => none
  | some side =>
    if s.me.component = pairingPeer side then
      (s.firstShort ((List.finRange n).filter fun i => (s.members i).component = side) waived
        b).map fun x => s.wait b x b (x.mark b)
    else none

/-- The answer to the acting member's next start: `some none` lets it go, and
`none` is a call that has not returned within the fuel. -/
def hold (waived : Option Component) (fuel : Nat) : Option (Option (RolloutHoldGate × String)) :=
  if s.released then some none
  else match s.me.nextBatch fuel with
    | none => none
    | some b => some (match s.previousBatchWait waived b with
        | some held => some held
        | none => s.firstSideWait waived b)

end BatchStep

/-! ## Marks -/

namespace BatchMember

variable {m : BatchMember}

theorem movable_nonneg (m : BatchMember) : 0 ≤ m.movable := by
  simp only [movable]
  split <;> omega

theorem mark_eq (steps : 0 < m.step) {b : Nat} (fits : m.marks = none → b * m.step < 2 ^ 31) :
    m.mark b = m.batchMark b := by
  cases b with
  | zero => rfl
  | succ b =>
    have positive : ¬ ((b + 1 : Nat) : Int) ≤ 0 := by omega
    have index : ((b + 1 : Nat) : Int) - 1 = b := by omega
    simp only [mark, positive, if_false, batchMark, index, Int.toNat_natCast]
    cases planned : m.marks with
    | some marks =>
      simp only
      split
      · rename_i past
        rw [getD_eq_default _ _ (by omega), min_self]
      · rename_i listed
        have within : b < marks.length := by omega
        rw [getD_eq_getElem _ _ within, getD_eq_getElem _ _ within]
    | none =>
      have product : 0 ≤ ((b + 1 : Nat) : Int) * m.step := by positivity
      have small := fits planned
      simp only [wrap32_of_fits (by omega) small]
      push_cast
      split <;> omega

theorem batchMark_le (m : BatchMember) (b : Nat) : m.batchMark b ≤ m.movable := by
  cases b with
  | zero => exact m.movable_nonneg
  | succ b =>
    simp only [batchMark]
    split <;> exact min_le_right _ _

/-- A later batch ends no earlier, whether its marks are planned or counted. -/
theorem batchMark_mono (steps : 0 < m.step)
    (planned : ∀ marks, m.marks = some marks → Marks marks m.movable) : Monotone m.batchMark := by
  have movable := m.movable_nonneg
  apply monotone_nat_of_le_succ
  intro b
  cases marked : m.marks with
  | some marks =>
    have plan := planned marks marked
    have nonneg (k : Nat) : 0 ≤ marks.getD k m.movable := by
      by_cases within : k < marks.length
      · rw [getD_eq_getElem _ _ within]
        exact (plan.within _ (getElem_mem within)).1
      · rw [getD_eq_default _ _ (by omega)]
        exact movable
    cases b with
    | zero =>
      have := nonneg 0
      simp only [batchMark, marked]
      omega
    | succ b =>
      simp only [batchMark, marked]
      by_cases within : b + 1 < marks.length
      · rw [getD_eq_getElem _ _ within, getD_eq_getElem _ _ (by omega)]
        have ordered := pairwise_iff_getElem.mp plan.cumulative b (b + 1) (by omega) within
          (by omega)
        omega
      · rw [getD_eq_default marks m.movable (Nat.not_lt.mp within)]
        omega
  | none =>
    cases b with
    | zero =>
      simp only [batchMark, marked]
      push_cast
      omega
    | succ b =>
      have next : ((b + 1 : Nat) + 1 : Int) * m.step = (b + 1 : Int) * m.step + m.step := by
        push_cast
        ring
      simp only [batchMark, marked, next]
      omega

/-- **The loop of `nextBatch`**: from any batch up to the next one it ends there,
with one unit of fuel for each batch. -/
theorem nextBatchFrom_eq {n : Nat} (next : m.started < m.mark n)
    (reached : ∀ k : Nat, k < n → m.mark k ≤ m.started) (unfinished : m.started < m.movable)
    (number : n < 2 ^ 31) :
    ∀ (fuel k : Nat), k ≤ n →
      m.nextBatchFrom fuel k = if n < k + fuel then some (n : Int) else none
  | 0, k, below => by
    rw [if_neg (by omega)]
    rfl
  | fuel + 1, k, below => by
    rcases Nat.lt_or_eq_of_le below with earlier | rfl
    · have short := reached k earlier
      have counter : wrap32 ((k : Int) + 1) = ((k + 1 : Nat) : Int) := by
        rw [wrap32_of_fits (by omega) (by omega)]
        rfl
      simp only [nextBatchFrom]
      rw [if_neg (by omega), if_neg (by omega), counter,
        nextBatchFrom_eq next reached unfinished number fuel (k + 1) earlier,
        show k + 1 + fuel = k + (fuel + 1) by omega]
    · simp only [nextBatchFrom]
      rw [if_pos next, if_pos (by omega)]

end BatchMember

/-! ## When a start goes -/

namespace BatchStep

variable {n : Nat} {s : BatchStep n}

theorem mem_order (i : Fin n) : i ∈ s.order := by
  by_cases self : i = s.acting
  · simp [order, self]
  · simp [order, self]

theorem firstShort_eq_none {members : List (Fin n)} {on : Int} :
    s.firstShort members none on = none ↔
      ∀ i ∈ members, (s.members i).mark on ≤ (s.members i).settled := by
  simp [firstShort]

/-- A start of batch `b` goes when the batch before has settled everywhere, and
on the second side also the named side's own batch. -/
theorem hold_free_iff {fuel : Nat} {b : Int} (governed : s.released = false)
    (next : s.me.nextBatch fuel = some b) :
    s.hold none fuel = some none ↔
      (1 < b → ∀ i, (s.members i).mark (b - 1) ≤ (s.members i).settled) ∧
      ∀ side, s.firstSide = some side → s.me.component = pairingPeer side →
        ∀ i, (s.members i).component = side → (s.members i).mark b ≤ (s.members i).settled := by
  have previous : s.previousBatchWait none b = none ↔
      (1 < b → ∀ i, (s.members i).mark (b - 1) ≤ (s.members i).settled) := by
    simp only [previousBatchWait]
    split
    · rename_i later
      rw [map_eq_none_iff, firstShort_eq_none]
      exact ⟨fun settled _ i => settled i (mem_order i), fun settled i _ => settled later i⟩
    · rename_i first
      exact ⟨fun _ later => absurd later first, fun _ => rfl⟩
  have named : s.firstSideWait none b = none ↔
      ∀ side, s.firstSide = some side → s.me.component = pairingPeer side →
        ∀ i, (s.members i).component = side → (s.members i).mark b ≤ (s.members i).settled := by
    simp only [firstSideWait]
    split
    · rename_i unnamed
      simp [unnamed]
    · rename_i side isNamed
      rw [isNamed]
      split
      · rename_i second
        rw [map_eq_none_iff, firstShort_eq_none]
        simp only [mem_filter, mem_finRange, true_and, decide_eq_true_eq,
          some.injEq]
        constructor
        · rintro settled _ rfl _ i same
          exact settled i same
        · exact fun settled i same => settled side rfl second i same
      · rename_i other
        simp only [some.injEq, true_iff]
        rintro _ rfl second
        exact absurd second other
  simp only [hold, governed, Bool.false_eq_true, if_false, next, some.injEq]
  cases held : s.previousBatchWait none b with
  | some wait =>
    simp only [reduceCtorEq, false_iff, not_and]
    intro settled
    rw [previous.mpr settled] at held
    cases held
  | none =>
    simp only [named]
    exact ⟨fun settled => ⟨previous.mp held, settled⟩, And.right⟩

end BatchStep

end Ome.Coordination
