/-
# Ome.Coordination.RatioLockstep — the members of a paced group roll in step

A `RatioBalanced` group instantiates `Ome.Theory.Pacing`: a member's mark is its
progress reference, the slack is the tolerance, and a step that is admitted other
than by capacity recovery is taken by a member that is not ahead
(`notAhead_of_admitted`).

* `ratio_pacing_keeps_step`: such steps keep every member within the tolerance and
  one Instance of its own of every unfinished peer, and in a group that serves its
  references the unfinished member with the least share is admitted a single drain
  and a single surge;
* `drain_within_tolerance_keeps_ratio`: a drain admitted by the serving band leaves the
  ratio of any two members within it, the larger count over the smaller, whichever member
  has it; `twoToOne_inverts` shows a drain that is admitted where the smaller reference does.
-/
import Ome.Coordination.Ratio
import Ome.Theory.Pacing
import Ome.Theory.Runs

namespace Ome.Coordination

open Ome.Theory RatioState GoMap

set_option autoImplicit false

variable {delta : Int} {acting : Component}
variable {band : ℚ}

/-! ## Shares -/

namespace RatioState

variable (s : RatioState)

/-- The part of its roll that a member has behind it. -/
def share (c : Component) : ℚ := s.newPods.get c / s.progressReference.get c

/-- The member has not as many new-revision Instances as its spec asks for. -/
def Unfinished (c : Component) : Prop := s.newPods.get c < s.progressReference.get c

instance (c : Component) : Decidable (s.Unfinished c) :=
  inferInstanceAs (Decidable (_ < _))

/-- At least two members, each with references of one or more.  The counts are
`int32` in the source. -/
structure Referenced : Prop where
  several : 2 ≤ s.original.keys.length
  original : ∀ c ∈ s.original.keys, 1 ≤ s.original.get c
  fits : ∀ c ∈ s.original.keys, s.original.get c < 2 ^ 31
  progress : ∀ c ∈ s.original.keys, 1 ≤ s.progressReference.get c

/-- Every member serves its full reference, and nothing is unavailable. -/
structure FullService : Prop where
  serves : ∀ c ∈ s.original.keys, s.baseline.get c = s.original.get c
  idle : ∀ c ∈ s.original.keys, s.inFlightUnavail.get c = 0

/-- The member leads no unfinished peer by more than the tolerance. -/
def NotAhead (tolerance : Int) (c : Component) : Prop :=
  ∀ peer ∈ s.original.keys, s.Unfinished peer → s.share c - s.share peer ≤ bandOf tolerance

/-- No member leads an unfinished peer by more than the tolerance and one Instance of
its own reference. -/
def InStep (tolerance : Int) : Prop :=
  ∀ c ∈ s.original.keys, ∀ peer ∈ s.original.keys, s.Unfinished peer →
    s.share c - s.share peer ≤ bandOf tolerance + 1 / s.progressReference.get c

/-- The member is unfinished and no unfinished peer has a smaller share. -/
structure Slowest (c : Component) : Prop where
  member : c ∈ s.original.keys
  unfinished : s.Unfinished c
  least : ∀ peer ∈ s.original.keys, s.Unfinished peer → s.share c ≤ s.share peer

variable {s}

theorem mem_progressReference (c : Component) :
    c ∈ s.progressReference.keys ↔ c ∈ s.original.keys := by
  unfold progressReference
  split
  · rfl
  · simp [mem_keys_foldl_set]

/-- The group as a family of counters. -/
def course (referenced : s.Referenced) {tolerance : Int} (nonneg : 0 ≤ tolerance) :
    Course Component ℚ where
  members := s.original.keys.toFinset
  mark c := s.progressReference.get c
  slack := bandOf tolerance
  mark_pos c member := by
    have := referenced.progress c (List.mem_toFinset.mp member)
    exact_mod_cast Int.lt_of_lt_of_le Int.zero_lt_one this
  slack_nonneg := div_nonneg (by exact_mod_cast nonneg) (by norm_num)

/-- The new-revision Instances as counters. -/
def count (s : RatioState) (c : Component) : ℚ := s.newPods.get c

section Course

variable (referenced : s.Referenced) {tolerance : Int} (nonneg : 0 ≤ tolerance)

theorem unfinished_iff (c : Component) :
    s.Unfinished c ↔ s.count c < (course referenced nonneg).mark c :=
  Int.cast_lt.symm

theorem notAhead_iff (c : Component) :
    s.NotAhead tolerance c ↔ (course referenced nonneg).NotAhead s.count c := by
  simp only [NotAhead, Course.NotAhead, unfinished_iff referenced nonneg]
  simp [course, share, Course.share, count]

theorem inStep_iff : s.InStep tolerance ↔ (course referenced nonneg).InStep s.count := by
  simp only [InStep, Course.InStep, unfinished_iff referenced nonneg]
  simp [course, share, Course.share, count]

theorem slowest_iff (c : Component) : s.Slowest c ↔ (course referenced nonneg).Least s.count c := by
  constructor
  · rintro ⟨member, unfinished, least⟩
    refine ⟨by simpa [course] using member, (unfinished_iff referenced nonneg c).mp unfinished,
      fun peer isMember behind => ?_⟩
    exact least peer (by simpa [course] using isMember)
      ((unfinished_iff referenced nonneg peer).mpr behind)
  · rintro ⟨member, unfinished, least⟩
    refine ⟨by simpa [course] using member, (unfinished_iff referenced nonneg c).mpr unfinished,
      fun peer isMember behind => ?_⟩
    exact least peer (by simpa [course] using isMember)
      ((unfinished_iff referenced nonneg peer).mp behind)

end Course

end RatioState

/-! ## What an admitted step says -/

section Admission

variable {s : RatioState} {component : Component} {tolerance : Int}

theorem bandOf_nonneg (nonneg : 0 ≤ tolerance) : 0 ≤ bandOf tolerance :=
  div_nonneg (by exact_mod_cast nonneg) (by norm_num)

/-- The lockstep lets go the members that are not ahead. -/
theorem outpacesPeerProgress_eq_false (referenced : s.Referenced)
    (member : component ∈ s.original.keys) (nonneg : 0 ≤ tolerance) :
    outpacesPeerProgress s.progressReference s.newPods component (bandOf tolerance) = false ↔
      s.NotAhead tolerance component := by
  have own := referenced.progress component member
  have band := bandOf_nonneg nonneg
  rw [outpacesPeerProgress, if_neg (by omega), if_neg (not_lt.mpr band)]
  rw [List.any_eq_false]
  constructor
  · intro passed peer isMember unfinished
    by_cases same : peer = component
    · subst same
      simpa using band
    · have hers := referenced.progress peer isMember
      have lead := passed peer ((mem_progressReference peer).mpr isMember)
      rw [if_neg (by simp [same]; omega), if_neg (not_le.mpr unfinished)] at lead
      simpa [share] using lead
  · intro notAhead peer isMember
    by_cases skipped : peer = component ∨ s.progressReference.get peer ≤ 0
    · simp [skipped]
    · by_cases finished : s.progressReference.get peer ≤ s.newPods.get peer
      · simp [finished]
      · have lead := notAhead peer ((mem_progressReference peer).mp isMember)
          (not_le.mp finished)
        rw [if_neg skipped, if_neg finished]
        simpa [share] using lead

/-- The pacing balances the ratio with this tolerance. -/
structure CoordinationPacing.Balances (pacing : CoordinationPacing) (tolerance : Int) : Prop where
  type : pacing.type = .ratioBalanced
  resolved : pacing.ratioTolerancePercent = some tolerance

/-- The decision is one of the recovery fallback's. -/
def RatioDecision.ByRecovery (d : RatioDecision) : Prop :=
  d.reason = recoveryBootstrapReason ∨ d.reason = recoveryAdvanceReason

instance (d : RatioDecision) : Decidable d.ByRecovery :=
  inferInstanceAs (Decidable (_ ∨ _))

theorem recoverySurgeFallback_cases (serving : Counts) (rejected : RatioDecision) :
    recoverySurgeFallback s serving component rejected = rejected ∨
      (recoverySurgeFallback s serving component rejected).ByRecovery := by
  unfold recoverySurgeFallback
  split
  · exact Or.inl rfl
  · right
    by_cases bootstrap : serving.get component = 0
    · exact Or.inl (if_pos bootstrap)
    · exact Or.inr (if_neg bootstrap)

section

variable {pacing : CoordinationPacing} (balances : pacing.Balances tolerance)
include balances

theorem evaluateSurge_eq (several : 2 ≤ s.original.keys.length) (asked : delta ≠ 0) :
    evaluateSurge pacing s component delta =
      if delta < 0 then evaluateDrain s component tolerance delta
      else evaluateAddition s component tolerance delta := by
  rw [evaluateSurge, if_neg asked, if_neg (by simp [balances.type]), if_neg (by omega),
    balances.resolved]

/-- A member that outpaces a peer is admitted by recovery only. -/
theorem not_outpaces_of_admitted (several : 2 ≤ s.original.keys.length)
    (admitted : (evaluateSurge pacing s component delta).allowedSurgeDelta ≠ 0)
    (ordinary : ¬ (evaluateSurge pacing s component delta).ByRecovery) :
    outpacesPeerProgress s.progressReference s.newPods component (bandOf tolerance) = false := by
  by_contra ahead
  rw [Bool.not_eq_false] at ahead
  have asked : delta ≠ 0 := by
    rintro rfl
    exact admitted rfl
  rw [evaluateSurge_eq balances several asked] at admitted ordinary
  by_cases drain : delta < 0
  · rw [if_pos drain, evaluateDrain, if_pos ahead] at admitted
    exact admitted rfl
  · rw [if_neg drain, evaluateAddition, if_pos ahead] at admitted ordinary
    by_cases lost : !servingBelowAnchor s s.baseline component
    · rw [if_pos lost] at admitted
      exact admitted rfl
    · rw [if_neg lost] at admitted ordinary
      rcases recoverySurgeFallback_cases s.baseline _ with same | recovery
      · rw [same] at admitted
        exact admitted rfl
      · exact ordinary recovery

/-- **An admitted step is taken by a member that is not ahead.** -/
theorem notAhead_of_admitted (nonneg : 0 ≤ tolerance) (referenced : s.Referenced)
    (member : component ∈ s.original.keys)
    (admitted : (evaluateSurge pacing s component delta).allowedSurgeDelta ≠ 0)
    (ordinary : ¬ (evaluateSurge pacing s component delta).ByRecovery) :
    s.NotAhead tolerance component :=
  (outpacesPeerProgress_eq_false referenced member nonneg).mp
    (not_outpaces_of_admitted balances referenced.several admitted ordinary)

end

end Admission

/-! ## Rolls -/

/-- One step of a roll: a member whose step is admitted gains at most one
new-revision Instance.  The references stay; the other counts are observed anew. -/
structure RatioStep (pacing : CoordinationPacing) (s s' : RatioState) (acting : Component) :
    Prop where
  member : acting ∈ s.original.keys
  admitted : lockstepHold pacing s acting = none ∨
    ∃ delta, (evaluateSurge pacing s acting delta).allowedSurgeDelta ≠ 0 ∧
      ¬ (evaluateSurge pacing s acting delta).ByRecovery
  original : s'.original = s.original
  reference : s'.progressReference = s.progressReference
  rises : s.newPods.get acting ≤ s'.newPods.get acting
  adds : s'.newPods.get acting ≤ s.newPods.get acting + 1
  others : ∀ c, c ≠ acting → s'.newPods.get c = s.newPods.get c

/-- Any member may take the next step. -/
def RatioMove (pacing : CoordinationPacing) (s s' : RatioState) : Prop :=
  ∃ acting, RatioStep pacing s s' acting

section Rolls

variable {pacing : CoordinationPacing} {tolerance : Int} {s s' : RatioState}

theorem RatioStep.referenced (step : RatioStep pacing s s' acting)
    (referenced : s.Referenced) : s'.Referenced := by
  obtain ⟨several, original, fits, progress⟩ := referenced
  constructor
  · simpa only [step.original] using several
  · simpa only [step.original] using original
  · simpa only [step.original] using fits
  · simpa only [step.original, step.reference] using progress

theorem RatioStep.notAhead (step : RatioStep pacing s s' acting)
    (balances : pacing.Balances tolerance) (nonneg : 0 ≤ tolerance) (referenced : s.Referenced) :
    s.NotAhead tolerance acting := by
  rcases step.admitted with free | ⟨delta, admitted, ordinary⟩
  · apply (outpacesPeerProgress_eq_false referenced step.member nonneg).mp
    have several := referenced.several
    rw [lockstepHold, if_neg (by simp [balances.type]; omega), balances.resolved] at free
    simpa using free
  · exact notAhead_of_admitted balances nonneg referenced step.member admitted ordinary

theorem RatioStep.inStep (step : RatioStep pacing s s' acting)
    (balances : pacing.Balances tolerance) (nonneg : 0 ≤ tolerance) (referenced : s.Referenced)
    (inStep : s.InStep tolerance) : s'.InStep tolerance := by
  have held := step.notAhead balances nonneg referenced
  rw [notAhead_iff referenced nonneg] at held
  rw [inStep_iff referenced nonneg] at inStep
  rw [inStep_iff (step.referenced referenced) nonneg]
  have same : course (step.referenced referenced) nonneg =
      course referenced nonneg := by
    simp [course, step.original, step.reference]
  rw [same]
  apply inStep.advance held
  · exact Int.cast_le.mpr step.rises
  · unfold count
    exact_mod_cast step.adds
  · intro c other
    rw [count, count, step.others c other]

theorem inStep_of_roll (balances : pacing.Balances tolerance) (nonneg : 0 ≤ tolerance)
    (referenced : s.Referenced) (inStep : s.InStep tolerance)
    (roll : Relation.ReflTransGen (RatioMove pacing) s s') : s'.InStep tolerance := by
  have kept : ∀ s s' : RatioState, s.Referenced ∧ s.InStep tolerance → RatioMove pacing s s' →
      s'.Referenced ∧ s'.InStep tolerance := by
    rintro s s' ⟨referenced, inStep⟩ ⟨acting, step⟩
    exact ⟨step.referenced referenced, step.inStep balances nonneg referenced inStep⟩
  exact (Runs.invariant_of_run kept roll ⟨referenced, inStep⟩).2

/-- A roll that begins with no new-revision Instance begins in step. -/
theorem RatioState.inStep_of_none_new (nonneg : 0 ≤ tolerance) (referenced : s.Referenced)
    (none : ∀ c ∈ s.original.keys, s.newPods.get c = 0) : s.InStep tolerance := by
  rw [inStep_iff referenced nonneg]
  apply Course.inStep_of_zero
  intro c member
  simp only [course, List.mem_toFinset] at member
  simp [count, none c member]

end Rolls

/-! ## The slowest member is free -/

section Slowest

variable {s : RatioState} {component : Component} {tolerance : Int}

theorem projectedServing_self (counts : Counts) (delta : Int) :
    (projectedServing counts component delta).get component =
      max 0 (wrap32 (counts.get component + delta)) := by
  unfold projectedServing
  simp only [get_set_self]
  split
  · rw [get_set_self]
    omega
  · rw [get_set_self]
    omega

/-- Two members that serve their references are within every band. -/
theorem ratioInBand_of_reference (nonneg : 0 ≤ band) {a b : Int} (pos : 0 < b)
    (larger : b ≤ a) : ratioInBand band ⟨a, a⟩ ⟨b, b⟩ = true := by
  have ratio : 0 ≤ (a / b : ℚ) :=
    div_nonneg (by exact_mod_cast pos.le.trans larger) (by exact_mod_cast pos.le)
  have drift : 0 ≤ (a / b : ℚ) * band := mul_nonneg ratio nonneg
  simp only [ratioInBand, max_eq_left larger, min_eq_right larger]
  rw [if_neg (not_le.mpr pos)]
  have low : ¬ (a / b : ℚ) < a / b * (1 - band) := by linarith
  have high : ¬ (a / b : ℚ) * (1 + band) < a / b := by linarith
  simp [low, high]

theorem respectsBand_of_reference {original serving : Counts} (nonneg : 0 ≤ band)
    (serves : ∀ c ∈ original.keys, serving.get c = original.get c) :
    respectsBand original serving band = true := by
  unfold respectsBand
  simp only [if_neg (not_lt.mpr nonneg)]
  split
  · rfl
  rw [decide_eq_true_iff, bandEntries, List.pairwise_map]
  apply List.pairwise_of_forall_mem_list
  intro first isFirst second isSecond
  obtain ⟨firstMember, firstPos⟩ := List.mem_filter.mp isFirst
  obtain ⟨secondMember, secondPos⟩ := List.mem_filter.mp isSecond
  rw [decide_eq_true_iff] at firstPos secondPos
  rw [serves first firstMember, serves second secondMember]
  unfold pairInBand
  split
  · rename_i smaller
    exact ratioInBand_of_reference nonneg firstPos (le_of_lt smaller)
  · rename_i larger
    exact ratioInBand_of_reference nonneg secondPos (not_lt.mp larger)

section

variable (referenced : s.Referenced) (full : s.FullService) (nonneg : 0 ≤ tolerance)
  (member : component ∈ s.original.keys) (notAhead : s.NotAhead tolerance component)
include referenced full nonneg member notAhead

theorem drain_admitted : (evaluateDrain s component tolerance (-1)).allowedSurgeDelta = -1 := by
  have level := (outpacesPeerProgress_eq_false referenced member nonneg).mpr notAhead
  have balanced := respectsBand_of_reference (bandOf_nonneg nonneg) full.serves
  have serving := full.serves component member
  have idle := full.idle component member
  have own := referenced.original component member
  unfold evaluateDrain
  rw [if_neg (by simp [level])]
  dsimp only
  split
  · rfl
  · -- The band is narrower than a pod: the member is the one that may step outside it.
    have oneStep : 1 ≤ (projectedServing s.baseline component (-1)).get component ∨
        s.original.get component = 1 := by
      have fits := referenced.fits component member
      rw [projectedServing_self, serving, wrap32_of_fits (by omega) (by omega)]
      omega
    simp only [idle, serving, balanced, oneStep, decide_true, le_refl, Bool.true_and,
      Bool.or_eq_true, decide_eq_true_iff, Bool.and_eq_true, true_and, if_true]
    split <;> rfl

theorem surge_admitted : (evaluateAddition s component tolerance 1).allowedSurgeDelta = 1 := by
  have level := (outpacesPeerProgress_eq_false referenced member nonneg).mpr notAhead
  have balanced := respectsBand_of_reference (bandOf_nonneg nonneg) full.serves
  have serving := full.serves component member
  unfold evaluateAddition
  rw [if_neg (by simp [level])]
  rw [show (1 : Int).toNat = 0 + 1 from rfl, largestWithinBand]
  by_cases within : respectsBand s.original
      (projectedServing s.baseline component (↑(0 : Nat) + 1)) (bandOf tolerance) = true
  · rw [if_pos within]
    rfl
  · rw [if_neg within, largestWithinBand]
    simp [serving, balanced]

end

end Slowest

/-- **Ratio pacing keeps the roll in step and never wedges.** -/
theorem ratio_pacing_keeps_step {pacing : CoordinationPacing} {tolerance : Int}
    (balances : pacing.Balances tolerance) (nonneg : 0 ≤ tolerance) {s : RatioState}
    (referenced : s.Referenced) :
    (∀ component ∈ s.original.keys, ∀ delta,
      (evaluateSurge pacing s component delta).allowedSurgeDelta ≠ 0 →
      ¬ (evaluateSurge pacing s component delta).ByRecovery → s.NotAhead tolerance component) ∧
    ((∀ c ∈ s.original.keys, s.newPods.get c = 0) → s.InStep tolerance) ∧
    (s.InStep tolerance →
      ∀ s', Relation.ReflTransGen (RatioMove pacing) s s' → s'.InStep tolerance) ∧
    (s.FullService →
      (∀ component, s.Slowest component →
        (evaluateSurge pacing s component (-1)).allowedSurgeDelta = -1 ∧
          (evaluateSurge pacing s component 1).allowedSurgeDelta = 1) ∧
      ((∃ c ∈ s.original.keys, s.Unfinished c) → ∃ component, s.Slowest component)) := by
  refine ⟨?_, ?_, ?_, fun full => ⟨?_, ?_⟩⟩
  · intro component member delta admitted ordinary
    exact notAhead_of_admitted balances nonneg referenced member admitted ordinary
  · intro none
    exact inStep_of_none_new nonneg referenced none
  · intro inStep s' roll
    exact inStep_of_roll balances nonneg referenced inStep roll
  · intro component slowest
    have member := slowest.member
    have notAhead : s.NotAhead tolerance component := by
      rw [notAhead_iff referenced nonneg]
      exact ((slowest_iff referenced nonneg component).mp slowest).notAhead
    rw [evaluateSurge_eq balances referenced.several (by decide), if_pos (by decide),
      evaluateSurge_eq balances referenced.several (by decide), if_neg (by decide)]
    exact ⟨drain_admitted referenced full nonneg member notAhead,
      surge_admitted referenced full nonneg member notAhead⟩
  · rintro ⟨c, member, unfinished⟩
    rw [unfinished_iff referenced nonneg] at unfinished
    obtain ⟨slowest, least⟩ := Course.exists_least (c := course referenced nonneg)
      (List.mem_toFinset.mpr member) unfinished
    exact ⟨slowest, (slowest_iff referenced nonneg slowest).mpr least⟩

/-- Four engines beside two decoders, all serving. -/
def fourTwo (engineNew decoderNew : Int) : RatioState where
  original := ofList [(.engine, 4), (.decoder, 2)]
  current := ofList [(.engine, 4), (.decoder, 2)]
  desired := ofList [(.engine, 4), (.decoder, 2)]
  newPods := ofList [(.engine, engineNew), (.decoder, decoderNew)]
  serving := some (ofList [(.engine, 4), (.decoder, 2)])
  recoveryEligible := empty
  creating := empty
  inFlightSurge := empty
  inFlightUnavail := empty

/-- A tolerance of a quarter. -/
def quarter : CoordinationPacing := ⟨.ratioBalanced, some 25⟩

/-- Two engine steps in a row are admitted; they leave the group in step, and the
decoder is free to follow. -/
theorem fourTwo_keeps_step :
    (fourTwo 2 0).InStep 25 ∧
      (evaluateSurge quarter (fourTwo 2 0) .decoder (-1)).allowedSurgeDelta = -1 ∧
      (evaluateSurge quarter (fourTwo 2 0) .decoder 1).allowedSurgeDelta = 1 := by
  have balances : quarter.Balances 25 := ⟨rfl, rfl⟩
  have start : (fourTwo 0 0).Referenced := by
    constructor <;> decide +kernel
  have later : (fourTwo 2 0).Referenced := by
    constructor <;> decide +kernel
  have step (n : Int) (admitted : (evaluateSurge quarter (fourTwo n 0) .engine 1).allowedSurgeDelta
      ≠ 0 ∧ ¬ (evaluateSurge quarter (fourTwo n 0) .engine 1).ByRecovery) :
      RatioMove quarter (fourTwo n 0) (fourTwo (n + 1) 0) := by
    refine ⟨.engine, ?_, Or.inr ⟨1, admitted⟩, rfl, rfl, ?_, le_refl _, ?_⟩
    · show Component.engine ∈ [.engine, .decoder]
      decide
    · show n ≤ n + 1
      omega
    · intro c other
      cases c <;> first | rfl | exact absurd rfl other
  have roll : Relation.ReflTransGen (RatioMove quarter) (fourTwo 0 0) (fourTwo 2 0) :=
    (Relation.ReflTransGen.single (step 0 (by decide +kernel))).tail (step 1 (by decide +kernel))
  obtain ⟨-, fresh, kept, -⟩ := ratio_pacing_keeps_step balances (by decide) start
  obtain ⟨-, -, -, free⟩ := ratio_pacing_keeps_step balances (by decide) later
  have full : (fourTwo 2 0).FullService := by
    constructor <;> decide +kernel
  have slowest : (fourTwo 2 0).Slowest .decoder := by
    constructor <;> decide +kernel
  exact ⟨kept (fresh (by decide +kernel)) _ roll, (free full).1 .decoder slowest⟩

/-! ## The ratio after a drain -/

/-- The decision that admits a drain by the band. -/
def withinTolerance (delta : Int) : RatioDecision :=
  { allowedSurgeDelta := delta, reason := "drain within tolerance" }

theorem evaluateDrain_within {s : RatioState} {component : Component} {tolerance delta : Int}
    (admitted : evaluateDrain s component tolerance delta = withinTolerance delta) :
    respectsBand s.original (projectedServing s.baseline component delta) (bandOf tolerance) := by
  by_contra outside
  unfold evaluateDrain at admitted
  simp only [outside, if_false] at admitted
  split at admitted
  · cases congrArg RatioDecision.skewRejected admitted
  · split at admitted
    · simp [withinTolerance] at admitted
    · split at admitted
      · cases congrArg RatioDecision.outsideTolerance admitted
      · cases congrArg RatioDecision.skewRejected admitted

theorem pairInBand_comm (a b : BandEntry) (holds : pairInBand band a b = true) :
    pairInBand band b a = true := by
  unfold pairInBand at holds ⊢
  rcases lt_trichotomy a.orig b.orig with less | same | more
  · rw [if_neg less.not_gt]
    rwa [if_pos less] at holds
  · simpa only [same, lt_irrefl, if_false, ratioInBand, max_comm, min_comm] using holds
  · rw [if_pos more]
    rwa [if_neg more.not_gt] at holds

/-- Every pair of members is in the band, the larger reference on top. -/
theorem ratioInBand_of_respects {original projected : Counts} (nonneg : 0 ≤ band)
    (within : respectsBand original projected band = true) {first second : Component}
    (pos : 0 < original.get second) (larger : original.get second < original.get first) :
    ratioInBand band ⟨original.get first, projected.get first⟩
      ⟨original.get second, projected.get second⟩ = true := by
  have pairs : (bandEntries original projected).Pairwise fun a b => pairInBand band a b := by
    unfold respectsBand at within
    simp only [if_neg (not_lt.mpr nonneg)] at within
    split at within
    · rename_i few
      match bandEntries original projected, few with
      | [], _ => exact .nil
      | [_], _ => exact List.pairwise_singleton _ _
    · exact of_decide_eq_true within
  have : Std.Symm fun a b => pairInBand band a b = true := ⟨pairInBand_comm⟩
  have listed (c : Component) (positive : 0 < original.get c) :
      ⟨original.get c, projected.get c⟩ ∈ bandEntries original projected :=
    List.mem_map_of_mem (by simpa [positive] using original.mem_keys_of_pos positive)
  have pair := pairs.forall (listed first (pos.trans larger)) (listed second pos)
    fun same => larger.ne' (congrArg BandEntry.orig same)
  rwa [pairInBand, if_neg larger.not_gt] at pair

/-- **The ratio after a drain within tolerance**: the larger count over the smaller one,
whichever of the two members has it. -/
theorem drain_within_tolerance_keeps_ratio {pacing : CoordinationPacing} {tolerance : Int}
    (balances : pacing.Balances tolerance) (nonneg : 0 ≤ tolerance) {s : RatioState}
    {component : Component} {delta : Int} (drains : delta < 0)
    (admitted : evaluateSurge pacing s component delta = withinTolerance delta) {after : Counts}
    (leaves : projectedServing s.baseline component delta = after) {first second : Component}
    (referenced : 1 ≤ s.original.get second)
    (larger : s.original.get second < s.original.get first) :
    let ratio : ℚ := s.original.get first / s.original.get second
    let larger := max (after.get first) (after.get second)
    let smaller := min (after.get first) (after.get second)
    0 < smaller ∧ ratio * (1 - tolerance / 100) ≤ larger / smaller ∧
      larger / smaller ≤ ratio * (1 + tolerance / 100) := by
  have apart : [first, second].Nodup := by
    simpa using fun same => larger.ne' (congrArg s.original.get same)
  have several : 2 ≤ s.original.keys.length :=
    (List.subperm_of_subset apart (by simp [s.original.mem_keys_of_pos referenced,
      s.original.mem_keys_of_pos (referenced.trans larger.le)])).length_le
  rw [evaluateSurge_eq balances several drains.ne, if_pos drains] at admitted
  have within := evaluateDrain_within admitted
  rw [leaves] at within
  have pair := ratioInBand_of_respects (bandOf_nonneg nonneg) within referenced larger
  simp only [ratioInBand] at pair
  split at pair
  · cases pair
  · rename_i pos
    simp only [Bool.not_eq_true', Bool.or_eq_false_iff, decide_eq_false_iff_not, not_lt] at pair
    exact ⟨not_le.mp pos, pair⟩

/-- Two engines to a decoder, and these serving counts. -/
def twoToOne (engines decoders : Int) : RatioState :=
  { fourTwo 0 0 with
    original := ofList [(.engine, 2), (.decoder, 1)]
    serving := some (ofList [(.engine, engines), (.decoder, decoders)]) }

theorem twoToOne_keeps_ratio : evaluateSurge quarter (twoToOne 4 3) .decoder (-1) =
      withinTolerance (-1) ∧
    0 < min ((projectedServing (twoToOne 4 3).baseline .decoder (-1)).get .engine)
      ((projectedServing (twoToOne 4 3).baseline .decoder (-1)).get .decoder) := by
  have admitted : evaluateSurge quarter (twoToOne 4 3) .decoder (-1) = withinTolerance (-1) := by
    decide +kernel
  exact ⟨admitted, (drain_within_tolerance_keeps_ratio ⟨rfl, rfl⟩ (by decide) (by decide) admitted
    rfl (by decide) (by decide)).1⟩

/-- One engine beside two decoders is read as two to one. -/
theorem twoToOne_inverts :
    evaluateSurge quarter (twoToOne 1 3) .decoder (-1) = withinTolerance (-1) ∧
      (projectedServing (twoToOne 1 3).baseline .decoder (-1)).get .engine = 1 ∧
      (projectedServing (twoToOne 1 3).baseline .decoder (-1)).get .decoder = 2 ∧
      (1 / 2 : ℚ) < 2 / 1 * (1 - 25 / 100) := by
  refine ⟨by decide +kernel, by decide, by decide, by norm_num⟩

end Ome.Coordination
