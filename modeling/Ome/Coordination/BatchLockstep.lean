/-
# Ome.Coordination.BatchLockstep — the group moves in step and never wedges

A roll of a group is a run of four moves: a start the batch step admits, an open
attempt that is promoted or ends, and an ended attempt that reopens.  The batch
step instantiates `Ome.Theory.Lockstep`: its marks are the members' documented
marks, and an admitted start has settled, hence started, the batch before.

* `batch_step_keeps_step`: from a fresh group whose batches fit `int32`, no member
  is past its batch `b` while another is short of its own, and as long as some
  member is not fully started and nothing is open, some start goes;
* `widestStep_wedges`: the fit is needed.  A step of `2 ^ 30` beside `2 ^ 31 - 1`
  movable Instances makes the mark of the second batch wrap below zero, and
  `nextBatch` never returns.
-/
import Mathlib.Tactic.FinCases
import Ome.Coordination.BatchStep
import Ome.Theory.Lockstep
import Ome.Theory.Runs

namespace Ome.Coordination

open Ome.Theory BatchStep

set_option autoImplicit false

/-! ## Rolls -/

/-- The member with other counts. -/
def BatchMember.withCounts (m : BatchMember) (promoted opened ended : Int) : BatchMember :=
  { m with promoted, opened, ended }

/-- The moves of a roll; `side` is the first side named when a start is judged. -/
inductive RollMove {n : Nat} (s : Fin n → BatchMember) : (Fin n → BatchMember) → Prop where
  | start (i : Fin n) (side : Option Component) (fuel : Nat)
      (unfinished : (s i).started < (s i).movable)
      (admitted : BatchStep.hold { members := s, acting := i, firstSide := side } none fuel =
        some none) :
      RollMove s (Function.update s i
        ((s i).withCounts (s i).promoted ((s i).opened + 1) (s i).ended))
  | promote (i : Fin n) (running : 0 < (s i).opened) :
      RollMove s (Function.update s i
        ((s i).withCounts ((s i).promoted + 1) ((s i).opened - 1) (s i).ended))
  | finish (i : Fin n) (running : 0 < (s i).opened) :
      RollMove s (Function.update s i
        ((s i).withCounts (s i).promoted ((s i).opened - 1) ((s i).ended + 1)))
  | reopen (i : Fin n) (failed : 0 < (s i).ended) :
      RollMove s (Function.update s i
        ((s i).withCounts (s i).promoted ((s i).opened + 1) ((s i).ended - 1)))

/-- The member paces itself by its own step, or `pairedBatchPlan` planned its
marks with some partner, as the prefill or as the decode side. -/
def BatchMember.Planned (m : BatchMember) : Prop :=
  m.marks = none ∨ ∃ partner partnerStep tolerancePercent prefillMarks decodeMarks,
    partner < 2 ^ 31 ∧
    ((pairedBatchPlan m.movable partner m.step partnerStep tolerancePercent =
          some (prefillMarks, decodeMarks) ∧ m.marks = some prefillMarks) ∨
      (pairedBatchPlan partner m.movable partnerStep m.step tolerancePercent =
          some (prefillMarks, decodeMarks) ∧ m.marks = some decodeMarks))

/-- A group before its roll. -/
structure Fresh {n : Nat} (roster : Fin n → BatchMember) : Prop where
  steps : ∀ i, 0 < (roster i).step
  counts : ∀ i, (roster i).movable < 2 ^ 31
  planned : ∀ i, (roster i).Planned
  promoted : ∀ i, (roster i).promoted = 0
  opened : ∀ i, (roster i).opened = 0
  ended : ∀ i, (roster i).ended = 0

/-- The group is done after `batches` batches, and no count of them wraps. -/
structure FitsIn {n : Nat} (roster : Fin n → BatchMember) (batches : Nat) : Prop where
  reached : ∀ i, (roster i).batchMark batches = (roster i).movable
  products : ∀ i, (roster i).marks = none → batches * (roster i).step < 2 ^ 31
  number : batches < 2 ^ 31

namespace BatchMember

/-- A member with nothing started. -/
def shape (m : BatchMember) : BatchMember := m.withCounts 0 0 0

theorem Planned.marks {m : BatchMember} (planned : m.Planned) (counts : m.movable < 2 ^ 31)
    (marks : List Int) (marked : m.marks = some marks) : Marks marks m.movable := by
  rcases planned with own | ⟨_, _, _, _, _, fits, ⟨plan, side⟩ | ⟨plan, side⟩⟩
  · rw [own] at marked
    cases marked
  · rw [side] at marked
    cases marked
    exact (pairedBatchPlan_marks counts fits plan).1
  · rw [side] at marked
    cases marked
    exact (pairedBatchPlan_marks fits counts plan).2

end BatchMember

/-! ## One move -/

/-- What every roll keeps. -/
structure Rolling {n : Nat} (roster s : Fin n → BatchMember) : Prop where
  shape : ∀ i, (s i).shape = (roster i).shape
  promoted : ∀ i, 0 ≤ (s i).promoted
  opened : ∀ i, 0 ≤ (s i).opened
  ended : ∀ i, 0 ≤ (s i).ended
  inStep : Lockstep (fun i => (roster i).batchMark) (fun i => (s i).started)

section Group

variable {n : Nat} {roster s : Fin n → BatchMember} {batches : Nat}

theorem Rolling.movable (rolling : Rolling roster s) (i : Fin n) :
    (s i).movable = (roster i).movable := by
  have sameShape := congrArg BatchMember.movable (rolling.shape i)
  exact sameShape

theorem Rolling.batchMark (rolling : Rolling roster s) (i : Fin n) (b : Nat) :
    (s i).batchMark b = (roster i).batchMark b := by
  have sameShape := congrArg (fun m => BatchMember.batchMark m b) (rolling.shape i)
  cases b <;> exact sameShape

theorem Rolling.mark (rolling : Rolling roster s) (fresh : Fresh roster)
    (fits : FitsIn roster batches) (i : Fin n) {b : Nat} (within : b ≤ batches) :
    (s i).mark b = (roster i).batchMark b := by
  have sameShape := congrArg (fun m => BatchMember.mark m b) (rolling.shape i)
  rw [show (s i).mark b = (roster i).mark b from sameShape]
  apply BatchMember.mark_eq (fresh.steps i)
  intro own
  have product := fits.products i own
  have steps := fresh.steps i
  have less : (b : Int) * (roster i).step ≤ batches * (roster i).step :=
    Int.mul_le_mul_of_nonneg_right (by exact_mod_cast within) steps.le
  omega

theorem Fresh.mono (fresh : Fresh roster) (i : Fin n) : Monotone (roster i).batchMark :=
  BatchMember.batchMark_mono (fresh.steps i)
    (fun marks => (fresh.planned i).marks (fresh.counts i) marks)

section

variable (rolling : Rolling roster s)
include rolling

theorem Rolling.started_nonneg (i : Fin n) : 0 ≤ (s i).started := by
  have promoted := rolling.promoted i
  have opened := rolling.opened i
  have ended := rolling.ended i
  simp only [BatchMember.started]
  omega

/-- The next batch of a member that is not fully started is one of the group's. -/
theorem Rolling.next_le (fits : FitsIn roster batches) {i : Fin n}
    (unfinished : (s i).started < (s i).movable) {k : Nat}
    (next : IsNext (fun i => (roster i).batchMark) (fun i => (s i).started) i k) :
    k ≤ batches := by
  by_contra past
  have reached := next.2 batches (by omega)
  simp only [fits.reached i] at reached
  rw [rolling.movable i] at unfinished
  omega

theorem Rolling.nextBatch (fresh : Fresh roster)
    (fits : FitsIn roster batches) {i : Fin n} (unfinished : (s i).started < (s i).movable)
    {k : Nat} (next : IsNext (fun i => (roster i).batchMark) (fun i => (s i).started) i k)
    (fuel : Nat) : (s i).nextBatch fuel = if k < 1 + fuel then some (k : Int) else none := by
  have zero : 0 < k := by
    by_contra none
    have first : k = 0 := by omega
    subst first
    have := rolling.started_nonneg i
    exact absurd next.1 (not_lt.mpr this)
  have within := rolling.next_le fits unfinished next
  have mark {b : Nat} (le : b ≤ batches) := rolling.mark fresh fits i le
  refine BatchMember.nextBatchFrom_eq ?_ ?_ unfinished ?_ fuel 1 zero
  · rw [mark within]
    exact next.1
  · intro b earlier
    rw [mark (by omega)]
    exact next.2 b earlier
  · have := fits.number
    omega

theorem Rolling.zero_mark (j : Fin n) :
    (roster j).batchMark 0 ≤ (s j).started := rolling.started_nonneg j

/-- An admitted start finds the batch before it started everywhere. -/
theorem Rolling.before_start (fresh : Fresh roster)
    (fits : FitsIn roster batches) {i : Fin n} {side : Option Component} {fuel : Nat}
    (unfinished : (s i).started < (s i).movable)
    (admitted : hold { members := s, acting := i, firstSide := side } none fuel =
      some none) :
    ∃ k, IsNext (fun i => (roster i).batchMark) (fun i => (s i).started) i k ∧
      ∀ j, (roster j).batchMark (k - 1) ≤ (s j).started := by
  classical
  have short : ∃ b, (s i).started < (roster i).batchMark b := by
    refine ⟨batches, ?_⟩
    rw [fits.reached i, ← rolling.movable i]
    exact unfinished
  let k := Nat.find short
  have next : IsNext (fun i => (roster i).batchMark) (fun i => (s i).started) i k :=
    ⟨Nat.find_spec short, fun b less => not_lt.mp (Nat.find_min short less)⟩
  refine ⟨k, next, fun j => ?_⟩
  have found := rolling.nextBatch fresh fits unfinished next fuel
  split at found
  · by_cases later : 1 < k
    · have free := (hold_free_iff (s := ⟨s, i, side, false⟩) rfl found).mp admitted
      have settled := free.1 (by exact_mod_cast later) j
      have within := rolling.next_le fits unfinished next
      have index : (k : Int) - 1 = ((k - 1 : Nat) : Int) := by omega
      rw [index, rolling.mark fresh fits j (by omega)] at settled
      have opened := rolling.opened j
      simp only [BatchMember.settled] at settled
      simp only [BatchMember.started]
      omega
    · have first : k - 1 = 0 := by omega
      rw [first]
      exact rolling.zero_mark j
  · rw [hold, if_neg (by simp), show me _ = s i from rfl, found] at admitted
    cases admitted

theorem Rolling.update (i : Fin n) {promoted opened ended : Int}
    (promotedNonneg : 0 ≤ promoted) (openedNonneg : 0 ≤ opened) (endedNonneg : 0 ≤ ended)
    (inStep : Lockstep (fun i => (roster i).batchMark)
      (Function.update (fun i => (s i).started) i (promoted + opened + ended))) :
    Rolling roster (Function.update s i ((s i).withCounts promoted opened ended)) := by
  have each (P : Fin n → BatchMember → Prop) (own : P i ((s i).withCounts promoted opened ended))
      (others : ∀ j, P j (s j)) :
      ∀ j, P j (Function.update s i ((s i).withCounts promoted opened ended) j) :=
    (Function.forall_update_iff s P).mpr ⟨own, fun j _ => others j⟩
  refine ⟨each (fun j m => m.shape = (roster j).shape) (rolling.shape i) rolling.shape,
    each (fun _ m => 0 ≤ m.promoted) promotedNonneg rolling.promoted,
    each (fun _ m => 0 ≤ m.opened) openedNonneg rolling.opened,
    each (fun _ m => 0 ≤ m.ended) endedNonneg rolling.ended, ?_⟩
  have starts : (fun j =>
      (Function.update s i ((s i).withCounts promoted opened ended) j).started) =
      Function.update (fun j => (s j).started) i (promoted + opened + ended) :=
    Function.comp_update BatchMember.started s i _
  rw [starts]
  exact inStep

end

/-- **One move** keeps the group in step. -/
theorem RollMove.rolling (fresh : Fresh roster) (fits : FitsIn roster batches)
    {s' : Fin n → BatchMember} (rolling : Rolling roster s) (move : RollMove s s') :
    Rolling roster s' := by
  -- Only a start changes how much a member has started.
  have unchanged {i : Fin n} {total : Int} (same : total = (s i).started) :
      Lockstep (fun i => (roster i).batchMark)
        (Function.update (fun i => (s i).started) i total) := by
    rw [same, Function.update_eq_self]
    exact rolling.inStep
  cases move with
  | start i side fuel unfinished admitted =>
    obtain ⟨k, next, before⟩ := rolling.before_start fresh fits unfinished admitted
    have opened := rolling.opened i
    apply rolling.update i (rolling.promoted i) (by omega) (rolling.ended i)
    have raised : (s i).promoted + ((s i).opened + 1) + (s i).ended = (s i).started + 1 := by
      simp only [BatchMember.started]
      omega
    rw [raised]
    exact rolling.inStep.start fresh.mono next before
  | promote i running =>
    have promoted := rolling.promoted i
    apply rolling.update i (by omega) (by omega) (rolling.ended i)
    apply unchanged
    simp only [BatchMember.started]
    omega
  | finish i running =>
    have ended := rolling.ended i
    apply rolling.update i (rolling.promoted i) (by omega) (by omega)
    apply unchanged
    simp only [BatchMember.started]
    omega
  | reopen i failed =>
    have opened := rolling.opened i
    apply rolling.update i (rolling.promoted i) (by omega) (by omega)
    apply unchanged
    simp only [BatchMember.started]
    omega

theorem Fresh.rolling (fresh : Fresh roster) : Rolling roster roster where
  shape _ := rfl
  promoted i := (fresh.promoted i).ge
  opened i := (fresh.opened i).ge
  ended i := (fresh.ended i).ge
  inStep := by
    intro i j b past
    have nonneg : 0 ≤ (roster i).batchMark b := fresh.mono i (Nat.zero_le b)
    simp only [BatchMember.started, fresh.promoted i, fresh.opened i, fresh.ended i] at past
    omega

/-- **A group at rest can go on**: with nothing open, the least next batch is
free for a member, or for the named side it would wait on. -/
theorem Rolling.someone_free (rolling : Rolling roster s) (fresh : Fresh roster)
    (fits : FitsIn roster batches) (idle : ∀ i, (s i).opened = 0)
    (unfinished : ∃ i, (s i).started < (s i).movable) (side : Option Component) :
    ∃ i, (s i).started < (s i).movable ∧ ∃ fuel,
      hold { members := s, acting := i, firstSide := side } none fuel = some none := by
  have total : ∀ i, ∃ b, (s i).movable ≤ (roster i).batchMark b := fun i =>
    ⟨batches, by rw [fits.reached i, rolling.movable i]⟩
  obtain ⟨k, i, positive, short, before, isNext⟩ :=
    exists_next (fun i => (roster i).batchMark) (fun i => (s i).started) total
      rolling.zero_mark unfinished
  have shortOf {j : Fin n} (less : (s j).started < (roster j).batchMark k) :
      (s j).started < (s j).movable := by
    rw [rolling.movable j]
    exact less.trans_le ((roster j).batchMark_le k)
  have within := rolling.next_le fits (shortOf short) (isNext i short)
  have settled (j : Fin n) : (s j).settled = (s j).started := by
    simp only [BatchMember.settled, BatchMember.started, idle j]
    omega
  -- A member that is short of batch `k` is let go unless it waits on the named side.
  have goes {j : Fin n} (less : (s j).started < (roster j).batchMark k)
      (noWait : ∀ first, side = some first → (s j).component = pairingPeer first →
        ∀ x, (s x).component = first → (roster x).batchMark k ≤ (s x).started) :
      ∃ fuel, hold { members := s, acting := j, firstSide := side } none fuel =
        some none := by
    refine ⟨k, ?_⟩
    have found := rolling.nextBatch fresh fits (shortOf less) (isNext j less) k
    rw [if_pos (by omega)] at found
    refine (hold_free_iff (s := ⟨s, j, side, false⟩) rfl found).mpr
      ⟨fun _ x => ?_, fun first named second x same => ?_⟩
    · have index : (k : Int) - 1 = ((k - 1 : Nat) : Int) := by omega
      rw [index, rolling.mark fresh fits x (by omega), settled x]
      exact before x
    · rw [rolling.mark fresh fits x within, settled x]
      exact noWait first named second x same
  by_cases waits : ∃ first x, side = some first ∧ (s i).component = pairingPeer first ∧
      (s x).component = first ∧ (s x).started < (roster x).batchMark k
  · obtain ⟨first, x, named, -, same, less⟩ := waits
    refine ⟨x, shortOf less, goes less ?_⟩
    intro other isOther second
    rw [named, Option.some.injEq] at isOther
    rw [same, ← isOther] at second
    exact absurd second.symm (pairingPeer_ne first)
  · refine ⟨i, shortOf short, goes short ?_⟩
    intro first named second x same
    by_contra less
    exact waits ⟨first, x, named, second, same, not_le.mp less⟩

/-- **The batch step keeps a group in step and never wedges it**, from a fresh
group whose batches fit, along every roll and with or without a first side. -/
theorem batch_step_keeps_step (fresh : Fresh roster) (fits : FitsIn roster batches)
    (run : Relation.ReflTransGen RollMove roster s) :
    (∀ i j b, i ≠ j → (s i).batchMark b < (s i).started → (s j).batchMark b ≤ (s j).started) ∧
      ((∀ i, (s i).opened = 0) → (∃ i, (s i).started < (s i).movable) → ∀ side,
        ∃ i, (s i).started < (s i).movable ∧ ∃ fuel,
          BatchStep.hold { members := s, acting := i, firstSide := side } none fuel =
            some none) := by
  have rolling : Rolling roster s := Runs.invariant_of_run
    (fun _ _ rolling move => move.rolling fresh fits rolling) run fresh.rolling
  refine ⟨fun i j b _ past => ?_, rolling.someone_free fresh fits⟩
  rw [rolling.batchMark i] at past
  rw [rolling.batchMark j]
  exact rolling.inStep i j b past

end Group

/-! ## A group whose batches fit, and one whose do not -/

/-- A group of two members. -/
def pairOf (engine decoder : BatchMember) : Fin 2 → BatchMember :=
  fun i => if i = 0 then engine else decoder

section Pair

variable {engine decoder : BatchMember}

theorem pairOf_update_engine {other : BatchMember} :
    Function.update (pairOf engine decoder) 0 other = pairOf other decoder := by
  funext i
  fin_cases i <;> rfl

theorem pairOf_update_decoder {other : BatchMember} :
    Function.update (pairOf engine decoder) 1 other = pairOf engine other := by
  funext i
  fin_cases i <;> rfl

theorem pairOf_start (unfinished : engine.started < engine.movable)
    (first : engine.nextBatch 1 = some 1) :
    RollMove (pairOf engine decoder)
      (pairOf (engine.withCounts engine.promoted (engine.opened + 1) engine.ended) decoder) := by
  have free : hold { members := pairOf engine decoder, acting := 0 } none 1 =
      some none := by
    refine (hold_free_iff (s := ⟨pairOf engine decoder, 0, none, false⟩) rfl first).mpr
      ⟨fun later => absurd later (lt_irrefl _), fun _ named => absurd named (by simp)⟩
  have move := RollMove.start (s := pairOf engine decoder) 0 none 1 unfinished free
  rwa [pairOf_update_engine] at move

end Pair

/-- Three prefill Instances in steps of two, and two decode Instances in steps of one. -/
def smallGroup : Fin 2 → BatchMember :=
  pairOf { component := .engine, desired := 3, step := 2 }
    { component := .decoder, desired := 2, step := 1 }

theorem smallGroup_fresh : Fresh smallGroup where
  steps := by decide
  counts := by decide
  planned i := Or.inl (by revert i; decide)
  promoted := by decide
  opened := by decide
  ended := by decide

theorem smallGroup_fits : FitsIn smallGroup 2 where
  reached := by decide
  products := by decide
  number := by decide

/-- The first engine start of the small group, and what holds after it. -/
theorem smallGroup_keeps_step :
    ∃ s, Relation.ReflTransGen RollMove smallGroup s ∧ (s 0).started = 1 ∧
      (∀ i j b, i ≠ j → (s i).batchMark b < (s i).started → (s j).batchMark b ≤ (s j).started) ∧
      ((∀ i, (s i).opened = 0) → (∃ i, (s i).started < (s i).movable) → ∀ side,
        ∃ i, (s i).started < (s i).movable ∧ ∃ fuel,
          BatchStep.hold { members := s, acting := i, firstSide := side } none fuel =
            some none) := by
  have run := Relation.ReflTransGen.single
    (RollMove.start (s := smallGroup) 0 none 1 (by decide) (by decide))
  exact ⟨_, run, by decide, batch_step_keeps_step smallGroup_fresh smallGroup_fits run⟩

/-- An engine at the widest `int32` count, in steps of `2 ^ 30`. -/
def widestEngine (promoted opened : Int) : BatchMember :=
  { component := .engine, desired := 2 ^ 31 - 1, step := 2 ^ 30, promoted, opened }

def oneDecoder (promoted opened : Int) : BatchMember :=
  { component := .decoder, desired := 1, step := 1, promoted, opened }

def widestStep : Fin 2 → BatchMember := pairOf (widestEngine 0 0) (oneDecoder 0 0)

section Widest

variable (promoted opened : Int)

theorem widestEngine_movable : (widestEngine promoted opened).movable = 2 ^ 31 - 1 := rfl

theorem widestEngine_started : (widestEngine promoted opened).started = promoted + opened :=
  Int.add_zero _

/-- The product of the mark is a multiple of `2 ^ 30`, so it never passes the first one. -/
theorem widestEngine_mark_le (b : Int) : (widestEngine promoted opened).mark b ≤ 2 ^ 30 := by
  have product : wrap32 (b * 2 ^ 30) ≤ 2 ^ 30 := by
    rw [wrap32, Int.bmod_def]
    split <;> omega
  have marks : (widestEngine promoted opened).marks = none := rfl
  have step : (widestEngine promoted opened).step = 2 ^ 30 := rfl
  simp only [BatchMember.mark, widestEngine_movable, marks, step]
  split
  · omega
  · split <;> omega

theorem widestEngine_mark_one : (widestEngine promoted opened).mark 1 = 2 ^ 30 := by
  have same : (widestEngine promoted opened).mark 1 = (widestEngine 0 0).mark 1 := rfl
  rw [same]
  decide

end Widest

/-- Once the first batch is started, `nextBatch` never returns. -/
theorem widestEngine_loops (fuel : Nat) :
    ∀ b, (widestEngine (2 ^ 30) 0).nextBatchFrom fuel b = none := by
  induction fuel with
  | zero => exact fun _ => rfl
  | succ fuel ih =>
    intro b
    have mark := widestEngine_mark_le (2 ^ 30) 0 b
    have reached : ¬ (widestEngine (2 ^ 30) 0).mark b > (widestEngine (2 ^ 30) 0).started := by
      rw [widestEngine_started]
      omega
    have unfinished : ¬ (widestEngine (2 ^ 30) 0).mark b ≥ (widestEngine (2 ^ 30) 0).movable := by
      rw [widestEngine_movable]
      omega
    rw [BatchMember.nextBatchFrom, if_neg reached, if_neg unfinished]
    exact ih _

theorem widestEngine_starts (decoder : BatchMember) (k : Nat) (below : k ≤ 2 ^ 30) :
    Relation.ReflTransGen RollMove (pairOf (widestEngine 0 0) decoder)
      (pairOf (widestEngine 0 k) decoder) := by
  induction k with
  | zero => exact .refl
  | succ k ih =>
    have next : (widestEngine 0 k).nextBatch 1 = some 1 := by
      simp only [BatchMember.nextBatch, BatchMember.nextBatchFrom, widestEngine_mark_one,
        widestEngine_started]
      rw [if_pos (by omega)]
    have unfinished : (widestEngine 0 k).started < (widestEngine 0 k).movable := by
      rw [widestEngine_started, widestEngine_movable]
      omega
    exact (ih (by omega)).tail (pairOf_start unfinished next)

theorem widestEngine_promotes (decoder : BatchMember) (k : Nat) :
    ∀ opened promoted : Int, opened = k →
      Relation.ReflTransGen RollMove (pairOf (widestEngine promoted opened) decoder)
        (pairOf (widestEngine (promoted + opened) 0) decoder) := by
  induction k with
  | zero =>
    rintro _ promoted rfl
    rw [Nat.cast_zero, Int.add_zero]
  | succ k ih =>
    intro opened promoted count
    have running : 0 < (widestEngine promoted opened).opened := by
      simp only [widestEngine]
      omega
    have rest := ih (opened - 1) (promoted + 1) (by omega)
    rw [show promoted + 1 + (opened - 1) = promoted + opened by omega] at rest
    have move := RollMove.promote (s := pairOf (widestEngine promoted opened) decoder) 0 running
    rw [pairOf_update_engine] at move
    exact rest.head move

/-- **Wide steps wedge a roll**: with one batch of the engine serving and the
decoder done, every call of the gate loops forever. -/
theorem widestStep_wedges :
    Fresh widestStep ∧ ∃ s, Relation.ReflTransGen RollMove widestStep s ∧
      (∀ i, (s i).opened = 0) ∧ (∃ i, (s i).started < (s i).movable) ∧
      ∀ i, (s i).started < (s i).movable → ∀ side fuel,
        BatchStep.hold { members := s, acting := i, firstSide := side } none fuel = none := by
  have fresh : Fresh widestStep :=
    { steps := by decide, counts := by decide
      planned := fun i => Or.inl (by revert i; decide)
      promoted := by decide, opened := by decide, ended := by decide }
  have decoderDone : Relation.ReflTransGen RollMove widestStep
      (pairOf (widestEngine 0 0) (oneDecoder 1 0)) := by
    have start := RollMove.start (s := widestStep) 1 none 1 (by decide) (by decide)
    rw [widestStep, pairOf_update_decoder] at start
    have serve := RollMove.promote (s := pairOf (widestEngine 0 0) (oneDecoder 0 1)) 1 (by decide)
    rw [pairOf_update_decoder] at serve
    exact (Relation.ReflTransGen.single start).tail serve
  have engineServes := widestEngine_promotes (oneDecoder 1 0) (2 ^ 30) (2 ^ 30) 0 (by norm_num)
  rw [Int.zero_add] at engineServes
  have engineStarts := widestEngine_starts (oneDecoder 1 0) (2 ^ 30) (le_refl _)
  rw [show ((2 ^ 30 : Nat) : Int) = 2 ^ 30 by norm_num] at engineStarts
  refine ⟨fresh, _, (decoderDone.trans engineStarts).trans engineServes, by decide,
    ⟨0, by decide⟩, ?_⟩
  intro i unfinished side fuel
  have engine : i = 0 := by
    by_contra other
    have decoder : i = 1 := by omega
    subst decoder
    exact absurd unfinished (by decide)
  subst engine
  have loops := widestEngine_loops fuel 1
  simp only [hold, Bool.false_eq_true, if_false]
  rw [show me _ = widestEngine (2 ^ 30) 0 from rfl, BatchMember.nextBatch, loops]

end Ome.Coordination
