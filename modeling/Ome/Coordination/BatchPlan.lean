/-
# Ome.Coordination.BatchPlan — the batches of a prefill/decode group

The model of `coordination/batch_plan.go`.  The ratio rule plans the batches of
the two pairing sides together: `fitBatch` ranks every batch up to the full steps
by `BatchChoice.beats`, and `pairedBatchPlan` takes the best one until both sides
are started.

Counts are `int32` and skews `int64`: the sums and products that can leave their
range are wrapped, so the ranking is the code's even where it overflows.  What a
plan is does not depend on the ranking (`PlanRun`): a batch is never empty, stays
within both steps, and the last one reaches both counts.
-/
import Mathlib.Data.List.Basic
import Ome.Theory.MachineInt

namespace Ome.Coordination

open Ome.Theory List

set_option autoImplicit false

/-! ## The model -/

/-- The gap between the two shares, scaled by 100 times both counts. -/
def scaledSkew (prefill decode pNew dNew : Int) : Int :=
  let skew := wrap64 (wrap64 (wrap64 (pNew * decode) - wrap64 (dNew * prefill)) * 100)
  if skew < 0 then wrap64 (-skew) else skew

/-- One candidate batch: how many of each side it starts, whether the picture
after it sits within the tolerance, and that picture's skew. -/
structure BatchChoice where
  p : Int
  d : Int
  fits : Bool
  skew : Int
  deriving DecidableEq

namespace BatchChoice

def size (c : BatchChoice) : Int := wrap32 (c.p + c.d)

/-- Within the tolerance before outside it; within it the larger batch, then the
smaller skew; outside it the smaller skew, then the larger batch; the decode side
moving more breaks the last tie. -/
def beats (c o : BatchChoice) : Bool :=
  if c.fits ≠ o.fits then c.fits
  else if c.fits ∧ c.size ≠ o.size then c.size > o.size
  else if c.skew ≠ o.skew then c.skew < o.skew
  else if c.size ≠ o.size then c.size > o.size
  else c.d > o.d

end BatchChoice

/-- `n, n - 1, …, 0`. -/
def downTo (n : Int) : List Int :=
  if n < 0 then [] else ((List.range (n.toNat + 1)).map Int.ofNat).reverse

/-- The batches on offer, in the order of the two loops. -/
def offers (fp fd : Int) : List (Int × Int) :=
  (downTo fp).flatMap fun bp => (downTo fd).map fun bd => (bp, bd)

/-- The body of the loops: keep the better of the best so far and this batch. -/
def considerBatch (prefill decode p d limit : Int) (best : Option BatchChoice)
    (batch : Int × Int) : Option BatchChoice :=
  if wrap32 (batch.1 + batch.2) = 0 then best
  else
    let skew := scaledSkew prefill decode (wrap32 (p + batch.1)) (wrap32 (d + batch.2))
    let c : BatchChoice := { p := batch.1, d := batch.2, fits := skew ≤ limit, skew }
    match best with
    | none => some c
    | some o => if c.beats o then some c else some o

def fitBatch (prefill decode p d fp fd tolerancePercent : Int) : Int × Int :=
  let limit := wrap64 (wrap64 (tolerancePercent * prefill) * decode)
  match (offers fp fd).foldl (considerBatch prefill decode p d limit) none with
  | none => (0, 0)
  | some c => (c.p, c.d)

section Plan

variable (prefill decode prefillStep decodeStep tolerancePercent : Int)

/-- The loop of `pairedBatchPlan` from the picture `p : d`, with the counts after
each batch; `none` when the fuel runs out. -/
def planFrom : Nat → Int → Int → Option (List (Int × Int))
  | 0, p, d => if p < prefill ∨ d < decode then none else some []
  | fuel + 1, p, d =>
    if p < prefill ∨ d < decode then
      let batch := fitBatch prefill decode p d (min prefillStep (prefill - p))
        (min decodeStep (decode - d)) tolerancePercent
      let p := wrap32 (p + batch.1)
      let d := wrap32 (d + batch.2)
      match planFrom fuel p d with
      | none => none
      | some rest => some ((p, d) :: rest)
    else some []

/-- The cumulative count each side has started after every batch, prefill then
decode.  `none` is the pair of nil slices: the sides then keep their own steps.
One batch starts at least one Instance, so the fuel is enough. -/
def pairedBatchPlan : Option (List Int × List Int) :=
  if prefill ≤ 0 ∨ decode ≤ 0 ∨ prefillStep ≤ 0 ∨ decodeStep ≤ 0 then none
  else (planFrom prefill decode prefillStep decodeStep tolerancePercent
    (prefill + decode).toNat 0 0).map fun marks => (marks.map Prod.fst, marks.map Prod.snd)

end Plan

/-! ## The chosen batch -/

@[simp] theorem mem_downTo {n x : Int} : x ∈ downTo n ↔ 0 ≤ x ∧ x ≤ n := by
  simp only [downTo]
  split
  · simp only [not_mem_nil, false_iff]
    omega
  · simp only [mem_reverse, mem_map, mem_range]
    constructor
    · rintro ⟨k, below, rfl⟩
      exact ⟨Int.natCast_nonneg k, by simp only [Int.ofNat_eq_natCast]; omega⟩
    · rintro ⟨nonneg, below⟩
      exact ⟨x.toNat, by omega, by simp only [Int.ofNat_eq_natCast]; omega⟩

@[simp] theorem mem_offers {fp fd bp bd : Int} :
    (bp, bd) ∈ offers fp fd ↔ (0 ≤ bp ∧ bp ≤ fp) ∧ 0 ≤ bd ∧ bd ≤ fd := by
  simp [offers]

section Choice

variable {prefill decode p d limit : Int}

/-- The best so far is what the loops started with, or a batch they met. -/
theorem foldl_considerBatch_mem (offered : List (Int × Int)) :
    ∀ {best : Option BatchChoice} {c : BatchChoice},
      offered.foldl (considerBatch prefill decode p d limit) best = some c →
        best = some c ∨ ((c.p, c.d) ∈ offered ∧ wrap32 (c.p + c.d) ≠ 0) := by
  induction offered with
  | nil => exact fun found => Or.inl found
  | cons batch rest ih =>
    intro best c found
    rcases ih found with earlier | ⟨listed, nonempty⟩
    · simp only [considerBatch] at earlier
      split at earlier
      · exact Or.inl earlier
      rename_i nonempty
      split at earlier
      · cases earlier
        exact Or.inr ⟨mem_cons_self, nonempty⟩
      · split at earlier
        · cases earlier
          exact Or.inr ⟨mem_cons_self, nonempty⟩
        · exact Or.inl earlier
    · exact Or.inr ⟨mem_cons_of_mem _ listed, nonempty⟩

theorem considerBatch_isSome {best : Option BatchChoice} {batch : Int × Int}
    (met : best.isSome ∨ wrap32 (batch.1 + batch.2) ≠ 0) :
    (considerBatch prefill decode p d limit best batch).isSome := by
  simp only [considerBatch]
  split
  · rename_i empty
    exact met.resolve_right (fun nonempty => nonempty empty)
  · split
    · rfl
    · split <;> rfl

theorem foldl_considerBatch_isSome (offered : List (Int × Int)) :
    ∀ {best : Option BatchChoice},
      (best.isSome ∨ ∃ batch ∈ offered, wrap32 (batch.1 + batch.2) ≠ 0) →
        (offered.foldl (considerBatch prefill decode p d limit) best).isSome := by
  induction offered with
  | nil =>
    intro best met
    simpa using met
  | cons batch rest ih =>
    intro best met
    apply ih
    rcases met with found | ⟨other, listed, nonempty⟩
    · exact Or.inl (considerBatch_isSome (Or.inl found))
    · rcases mem_cons.mp listed with rfl | later
      · exact Or.inl (considerBatch_isSome (Or.inr nonempty))
      · exact Or.inr ⟨other, later, nonempty⟩

end Choice

/-- No two `int32` counts wrap to zero unless both are zero. -/
theorem wrap32_ne_zero {x : Int} (positive : 0 < x) (fits : x < 2 ^ 32) : wrap32 x ≠ 0 := by
  intro zero
  rw [wrap32, Int.bmod_def] at zero
  split at zero <;> omega

/-- The chosen batch is one on offer, and not the empty one. -/
theorem fitBatch_bounds (prefill decode p d tolerancePercent : Int) {fp fd : Int}
    (prefillFull : 0 ≤ fp) (decodeFull : 0 ≤ fd) (onOffer : 0 < fp + fd)
    (prefillFits : fp < 2 ^ 31) (decodeFits : fd < 2 ^ 31) :
    let batch := fitBatch prefill decode p d fp fd tolerancePercent
    (0 ≤ batch.1 ∧ batch.1 ≤ fp) ∧ (0 ≤ batch.2 ∧ batch.2 ≤ fd) ∧ 0 < batch.1 + batch.2 := by
  have found : ((offers fp fd).foldl (considerBatch prefill decode p d
      (wrap64 (wrap64 (tolerancePercent * prefill) * decode))) none).isSome :=
    foldl_considerBatch_isSome _ (Or.inr ⟨(fp, fd), by simp [prefillFull, decodeFull],
      wrap32_ne_zero onOffer (by omega)⟩)
  obtain ⟨c, best⟩ := Option.isSome_iff_exists.mp found
  rcases foldl_considerBatch_mem _ best with start | ⟨listed, nonempty⟩
  · cases start
  · simp only [fitBatch, best]
    obtain ⟨prefillRange, decodeRange⟩ := mem_offers.mp listed
    refine ⟨prefillRange, decodeRange, ?_⟩
    by_contra empty
    have zero : c.p + c.d = 0 := by omega
    rw [zero] at nonempty
    exact nonempty rfl

/-! ## The plan -/

/-- A plan from the picture `p : d`, whatever batch was chosen at each step. -/
inductive PlanRun (prefill decode prefillStep decodeStep : Int) :
    Int → Int → List (Int × Int) → Prop where
  | done : PlanRun prefill decode prefillStep decodeStep prefill decode []
  | batch {p d bp bd : Int} {rest : List (Int × Int)}
      (prefillPart : 0 ≤ bp ∧ bp ≤ min prefillStep (prefill - p))
      (decodePart : 0 ≤ bd ∧ bd ≤ min decodeStep (decode - d)) (nonempty : 0 < bp + bd)
      (later : PlanRun prefill decode prefillStep decodeStep (p + bp) (d + bd) rest) :
      PlanRun prefill decode prefillStep decodeStep p d ((p + bp, d + bd) :: rest)

section Plan

variable {prefill decode prefillStep decodeStep : Int} (tolerancePercent : Int)

/-- **The loop ends** within one batch for each Instance still to start. -/
theorem planFrom_run (prefillFits : prefill < 2 ^ 31) (decodeFits : decode < 2 ^ 31)
    (prefillSteps : 0 < prefillStep) (decodeSteps : 0 < decodeStep) :
    ∀ (fuel : Nat) (p d : Int), 0 ≤ p → p ≤ prefill → 0 ≤ d → d ≤ decode →
      (prefill - p) + (decode - d) ≤ fuel →
      ∃ marks,
        planFrom prefill decode prefillStep decodeStep tolerancePercent fuel p d = some marks ∧
        PlanRun prefill decode prefillStep decodeStep p d marks
  | fuel, p, d, pNonneg, pLe, dNonneg, dLe, enough => by
    by_cases left : p < prefill ∨ d < decode
    · cases fuel with
      | zero => omega
      | succ fuel =>
        have prefillFull : 0 ≤ min prefillStep (prefill - p) := by omega
        have decodeFull : 0 ≤ min decodeStep (decode - d) := by omega
        obtain ⟨prefillPart, decodePart, nonempty⟩ := fitBatch_bounds prefill decode p d
          tolerancePercent prefillFull decodeFull (by omega) (by omega) (by omega)
        simp only [planFrom, left, if_true]
        generalize fitBatch prefill decode p d _ _ tolerancePercent = chosen at *
        rw [wrap32_of_fits (x := p + chosen.1) (by omega) (by omega),
          wrap32_of_fits (x := d + chosen.2) (by omega) (by omega)]
        obtain ⟨rest, planned, run⟩ := planFrom_run prefillFits decodeFits prefillSteps
          decodeSteps fuel (p + chosen.1) (d + chosen.2) (by omega) (by omega) (by omega)
          (by omega) (by omega)
        rw [planned]
        exact ⟨_, rfl, .batch prefillPart decodePart nonempty run⟩
    · have prefillDone : p = prefill := by omega
      have decodeDone : d = decode := by omega
      subst prefillDone decodeDone
      refine ⟨[], ?_, .done⟩
      cases fuel <;> simp [planFrom]

theorem PlanRun.within {p d : Int} {marks : List (Int × Int)}
    (run : PlanRun prefill decode prefillStep decodeStep p d marks) :
    p ≤ prefill ∧ d ≤ decode ∧
      ∀ mark ∈ marks, p ≤ mark.1 ∧ mark.1 ≤ prefill ∧ d ≤ mark.2 ∧ mark.2 ≤ decode := by
  induction run with
  | done => exact ⟨le_refl _, le_refl _, fun mark listed => absurd listed not_mem_nil⟩
  | batch prefillPart decodePart nonempty later ih =>
    obtain ⟨pLe, dLe, rest⟩ := ih
    refine ⟨by omega, by omega, fun mark listed => ?_⟩
    rcases mem_cons.mp listed with rfl | after
    · exact ⟨by omega, by omega, by omega, by omega⟩
    · have := rest mark after
      omega

theorem PlanRun.cumulative {p d : Int} {marks : List (Int × Int)}
    (run : PlanRun prefill decode prefillStep decodeStep p d marks) :
    marks.Pairwise fun earlier later => earlier.1 ≤ later.1 ∧ earlier.2 ≤ later.2 := by
  induction run with
  | done => exact List.Pairwise.nil
  | batch prefillPart decodePart nonempty later ih =>
    refine pairwise_cons.mpr ⟨fun mark listed => ?_, ih⟩
    have := later.within.2.2 mark listed
    exact ⟨this.1, this.2.2.1⟩

/-- Planned marks of a member that may move `movable` Instances. -/
structure Marks (marks : List Int) (movable : Int) : Prop where
  cumulative : marks.Pairwise (· ≤ ·)
  within : ∀ mark ∈ marks, 0 ≤ mark ∧ mark ≤ movable

theorem pairedBatchPlan_marks {tolerancePercent : Int} {prefillMarks decodeMarks : List Int}
    (prefillFits : prefill < 2 ^ 31)
    (decodeFits : decode < 2 ^ 31)
    (planned : pairedBatchPlan prefill decode prefillStep decodeStep tolerancePercent =
      some (prefillMarks, decodeMarks)) :
    Marks prefillMarks prefill ∧ Marks decodeMarks decode := by
  simp only [pairedBatchPlan] at planned
  split at planned
  · cases planned
  rename_i rolls
  push Not at rolls
  obtain ⟨marks, loop, run⟩ := planFrom_run tolerancePercent prefillFits
    decodeFits rolls.2.2.1 rolls.2.2.2 (prefill + decode).toNat 0 0 (le_refl _) rolls.1.le
    (le_refl _) rolls.2.1.le (by omega)
  rw [loop] at planned
  cases planned
  have within := run.within.2.2
  refine ⟨⟨?_, ?_⟩, ⟨?_, ?_⟩⟩
  · exact pairwise_map.mpr (run.cumulative.imp And.left)
  · intro mark listed
    obtain ⟨pair, member, rfl⟩ := mem_map.mp listed
    exact ⟨(within pair member).1, (within pair member).2.1⟩
  · exact pairwise_map.mpr (run.cumulative.imp And.right)
  · intro mark listed
    obtain ⟨pair, member, rfl⟩ := mem_map.mp listed
    exact ⟨(within pair member).2.2.1, (within pair member).2.2.2⟩

end Plan

end Ome.Coordination
