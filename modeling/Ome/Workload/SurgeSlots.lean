/-
# Ome.Workload.SurgeSlots — what extra pods hold of a surge budget

The model of `ExtraPodSurgeInFlight` and its readers in `workload/escalation/budget.go`.
A pod beyond the count of its Instance holds a surge slot: a Terminating one until its
deadline, a live one as long as it exists.  Slots are counted per Instance and round up
to whole Instances, so the slots that live and Terminating pods hold together are at
most those that each kind would hold alone (`restSlots_le`).

The sums that a budget is compared with wrap as `int32` does.  Counts of pods are plain
numbers (a Component lists fewer than 2 ^ 31), times are numbers.  Nil pods, which the source
skips, are left out.
-/
import Ome.Theory.GoMap
import Ome.Theory.Loops
import Ome.Theory.MachineInt
import Ome.Workload.Row
import Mathlib.Algebra.Order.Group.Int

namespace Ome.Workload

open Ome.Theory List

set_option autoImplicit false

/-! ## Budgets -/

def budgetNoLimit : Int := -1

/-- One more start against a budget: the projected total and the verdict. -/
def budgetDenies (budget prior inFlight : Int) : Int × Bool :=
  if budget = budgetNoLimit then (0, false)
  else (wrap32 (prior + inFlight + 1), budget < wrap32 (prior + inFlight + 1))

/-- The steps of an update that keep an extra pod. -/
def surgeStep : OperationStep → Bool
  | .surge => true
  | .surgeDrain => true
  | .surgeDrainSettle => true
  | _ => false

/-! ## Extra pods -/

structure Pod where
  name : String
  /-- The deletion deadline of a Terminating pod. -/
  deletion : Option Int
  revisionHash : String
  deriving DecidableEq

structure InstancePlan where
  index : Int
  runnerSizes : List Int
  deriving DecidableEq

def InstancePlan.totalPods (i : InstancePlan) : Int := i.runnerSizes.sum

/-- The extra pods of a Component; live pods hold no negative number of slots. -/
structure ExtraPodSurge where
  slots : Int
  terminating : List String
  live : List String
  liveSlotsByInstance : GoMap Int Int
  /-- The earliest deadline among the Terminating pods counted. -/
  nextRelease : Option Int
  live_nonneg : ∀ i, 0 ≤ liveSlotsByInstance.get i

/-- The slots that no live extra pod holds, before they are read as an `int32`. -/
def ExtraPodSurge.restSlots (e : ExtraPodSurge) : Int := e.slots - e.liveSlotsByInstance.total

def ExtraPodSurge.terminatingSlots (e : ExtraPodSurge) : Int := wrap32 e.restSlots

/-- The hash of a revision's name: what follows its last dash. -/
def revisionHashOf (name : String) : String :=
  let rest := name.toList.drop 1
  if '-' ∈ rest then String.ofList (rest.reverse.takeWhile (· ≠ '-')).reverse else ""

/-- The names of the extra ones among live pods: off the running revision first, then from
the highest name down. -/
def liveExtraPodNames (pods : List Pod) (running : String) (n : Int) : List String :=
  let isOff := fun pod : Pod =>
    decide (running ≠ "" ∧ pod.revisionHash ≠ "" ∧ pod.revisionHash ≠ running)
  let off := (pods.filter isOff).map (·.name)
  let on := (pods.filter fun pod => !isOff pod).map (·.name)
  let split := if on = [] then ([], off) else (off, on)
  let names := split.1.insertionSort (· ≤ ·) ++ (split.2.insertionSort (· ≤ ·)).reverse
  (names.take n.toNat).insertionSort (· ≤ ·)

/-- What a scan of the pods of one Instance counts. -/
structure Bucket where
  listed : Int
  terminating : Int
  terminatingNames : List String
  live : List Pod
  release : Option Int

def earlier (release : Option Int) (deadline : Int) : Option Int :=
  match release with
  | none => some deadline
  | some known => some (if deadline < known then deadline else known)

/-- A Terminating pod counts until its deadline has passed. -/
def Bucket.read (now : Int) (b : Bucket) (pod : Pod) : Bucket :=
  match pod.deletion with
  | some deadline =>
    if deadline < now then b
    else
      { b with
        listed := b.listed + 1
        terminating := b.terminating + 1
        terminatingNames := b.terminatingNames ++ [pod.name]
        release := earlier b.release deadline }
  | none => { b with listed := b.listed + 1, live := b.live ++ [pod] }

def readBucket (now : Int) (pods : List Pod) : Bucket :=
  pods.foldl (Bucket.read now) ⟨0, 0, [], [], none⟩

/-- The readings of the plan and the rows that the count rests on. -/
structure SlotReading where
  instances : List InstancePlan
  statuses : List InstanceStatus
  byInstance : GoMap Int (List Pod)
  rolled : List Int
  now : Int

namespace SlotReading

variable (r : SlotReading)

/-- The Instances that another anchor charges. -/
def charged : Finset Int :=
  let surging := r.statuses.filter fun s => s.operation.any fun op => surgeStep op.step
  (surging.map (·.index) ++ surging.filterMap (fun s => s.operation.bind (·.surgeIndex)) ++
    r.rolled).toFinset

/-- The running revision of a row; of two rows the later counts. -/
def runningRevision : Int → String :=
  r.statuses.foldl (fun m s => Function.update m s.index (revisionHashOf s.runningRevision))
    fun _ => ""

def share : GoMap Int Int :=
  r.instances.foldl (fun m i => m.set i.index i.totalPods) GoMap.empty

def podsPerInstance : Int :=
  r.instances.foldl (fun most i => if most < i.totalPods then i.totalPods else most) 1

/-- Whole Instances, rounded up. -/
def slotsOf (pods : Int) : Int := (pods + r.podsPerInstance - 1).tdiv r.podsPerInstance

/-- The Terminating and the live pods of an Instance that are counted as extra; the live
pods of an Instance outside the plan are not. -/
def counted (idx : Int) : Int × Int :=
  let bucket := readBucket r.now (r.byInstance.get idx)
  let extra := bucket.listed - r.share.get idx
  if idx ∈ r.charged ∨ extra ≤ 0 then (0, 0)
  else
    let terminating := min extra bucket.terminating
    (terminating, if idx ∈ r.share.keys then extra - terminating else 0)

theorem podsPerInstance_pos : 0 < r.podsPerInstance := by
  rw [podsPerInstance]
  refine List.foldlRecOn (motive := fun most : Int => 0 < most) _ _ Int.one_pos ?_
  intro most positive i _
  split <;> omega

theorem slotsOf_eq {pods : Int} (nonneg : 0 ≤ pods) :
    r.slotsOf pods = (pods + r.podsPerInstance - 1) / r.podsPerInstance := by
  have positive := r.podsPerInstance_pos
  rw [slotsOf, Int.tdiv_eq_ediv_of_nonneg (by omega)]

theorem slotsOf_nonneg {pods : Int} (nonneg : 0 ≤ pods) : 0 ≤ r.slotsOf pods := by
  have positive := r.podsPerInstance_pos
  rw [slotsOf_eq r nonneg]
  exact Int.ediv_nonneg (by omega) positive.le

/-- Rounding up two counts together takes no more slots than rounding up each. -/
theorem slotsOf_add_le {a b : Int} (first : 0 ≤ a) (second : 0 ≤ b) :
    r.slotsOf (a + b) ≤ r.slotsOf a + r.slotsOf b := by
  have positive := r.podsPerInstance_pos
  have covers : ∀ {pods : Int}, 0 ≤ pods → pods ≤ r.slotsOf pods * r.podsPerInstance := by
    intro pods nonneg
    have whole := Int.lt_ediv_add_one_mul_self (pods + r.podsPerInstance - 1) positive
    rw [slotsOf_eq r nonneg]
    rw [Int.add_mul, Int.one_mul] at whole
    omega
  have left := covers first
  have right := covers second
  rw [slotsOf_eq r (by omega : 0 ≤ a + b), ← Int.lt_add_one_iff]
  refine Int.ediv_lt_of_lt_mul positive ?_
  rw [Int.add_mul, Int.add_mul, Int.one_mul]
  omega

theorem slotsOf_le_add {a b : Int} (first : 0 ≤ a) (second : 0 ≤ b) :
    r.slotsOf b ≤ r.slotsOf (a + b) := by
  rw [slotsOf_eq r second, slotsOf_eq r (by omega)]
  exact Int.ediv_le_ediv r.podsPerInstance_pos (by omega)

theorem read_terminating (now : Int) : ∀ (pods : List Pod) (b : Bucket), 0 ≤ b.terminating →
    0 ≤ (pods.foldl (Bucket.read now) b).terminating
  | [], _, nonneg => nonneg
  | pod :: rest, b, nonneg => by
    refine read_terminating now rest _ ?_
    rw [Bucket.read]
    split
    · split
      · exact nonneg
      · exact Int.add_nonneg nonneg Int.one_nonneg
    · exact nonneg

theorem counted_nonneg (idx : Int) : 0 ≤ (r.counted idx).1 ∧ 0 ≤ (r.counted idx).2 := by
  have some := read_terminating r.now (r.byInstance.get idx) ⟨0, 0, [], [], none⟩ le_rfl
  rw [← readBucket] at some
  simp only [counted]
  split_ifs <;> constructor <;> omega

/-- One Instance's extra pods. -/
def addBucket (out : ExtraPodSurge) (idx : Int) : ExtraPodSurge :=
  let bucket := readBucket r.now (r.byInstance.get idx)
  let terminating := (r.counted idx).1
  let live := (r.counted idx).2
  if terminating + live ≤ 0 then out
  else
    { slots := out.slots + r.slotsOf (terminating + live)
      terminating :=
        if 0 < terminating then out.terminating ++ bucket.terminatingNames.insertionSort (· ≤ ·)
        else out.terminating
      live :=
        if 0 < live then out.live ++ liveExtraPodNames bucket.live (r.runningRevision idx) live
        else out.live
      liveSlotsByInstance :=
        if 0 < live then out.liveSlotsByInstance.set idx (r.slotsOf live)
        else out.liveSlotsByInstance
      nextRelease :=
        if 0 < terminating then bucket.release.elim out.nextRelease (earlier out.nextRelease)
        else out.nextRelease
      live_nonneg := by
        intro i
        split
        · rename_i some
          rw [GoMap.get_set]
          split
          · exact r.slotsOf_nonneg some.le
          · exact out.live_nonneg i
        · exact out.live_nonneg i }

/-- The extra pods of every Instance that is not charged elsewhere, by index. -/
def extraPodSurgeInFlight : ExtraPodSurge :=
  r.byInstance.sortedKeys.foldl r.addBucket ⟨0, [], [], GoMap.empty, none, fun _ => le_rfl⟩

/-- The slots that the Terminating pods would hold alone. -/
def terminatingAlone : Int :=
  (r.byInstance.sortedKeys.map fun idx => r.slotsOf (r.counted idx).1).sum

/-- One Instance adds at most the slots that its Terminating pods hold alone. -/
theorem addBucket_spec (out : ExtraPodSurge) {idx : Int}
    (new : idx ∉ out.liveSlotsByInstance.keys) :
    (∀ i ∈ (r.addBucket out idx).liveSlotsByInstance.keys,
      i ∈ out.liveSlotsByInstance.keys ∨ i = idx) ∧
    out.restSlots ≤ (r.addBucket out idx).restSlots ∧
    (r.addBucket out idx).restSlots ≤ out.restSlots + r.slotsOf (r.counted idx).1 := by
  obtain ⟨ending, living⟩ := r.counted_nonneg idx
  have together := r.slotsOf_add_le ending living
  have more := r.slotsOf_le_add ending living
  rw [addBucket]
  split
  · exact ⟨fun i member => .inl member, le_rfl, by omega⟩
  · rename_i some
    by_cases live : 0 < (r.counted idx).2
    · simp only [if_pos live, ExtraPodSurge.restSlots, GoMap.total_set _ new]
      refine ⟨fun i member => ?_, by omega, by omega⟩
      rwa [GoMap.mem_keys_set] at member
    · have none : (r.counted idx).2 = 0 := by omega
      simp only [ExtraPodSurge.restSlots, none, lt_self_iff_false, if_false, add_zero]
      exact ⟨fun i member => .inl member, by omega, by omega⟩

/-- **What is charged for Terminating pods is at most what they hold alone**, whatever
live pods round up with them. -/
theorem restSlots_le : 0 ≤ r.extraPodSurgeInFlight.restSlots ∧
    r.extraPodSurgeInFlight.restSlots ≤ r.terminatingAlone := by
  have unique := r.byInstance.nodup_sortedKeys
  suffices counts : (∀ i ∈ r.extraPodSurgeInFlight.liveSlotsByInstance.keys,
      i ∈ r.byInstance.sortedKeys) ∧ 0 ≤ r.extraPodSurgeInFlight.restSlots ∧
      r.extraPodSurgeInFlight.restSlots ≤ r.terminatingAlone from counts.2
  rw [extraPodSurgeInFlight, terminatingAlone]
  -- Each Instance is met once, so its live slots are entered once.
  refine foldl_along (fun done (out : ExtraPodSurge) =>
    (∀ i ∈ out.liveSlotsByInstance.keys, i ∈ done) ∧ 0 ≤ out.restSlots ∧
      out.restSlots ≤ (done.map fun idx => r.slotsOf (r.counted idx).1).sum) ?_ ?_
  · refine ⟨fun i member => absurd member not_mem_nil, le_rfl, le_rfl⟩
  · rintro done idx rest out split ⟨known, nonneg, bound⟩
    rw [split, nodup_append] at unique
    have new : idx ∉ out.liveSlotsByInstance.keys := fun member =>
      unique.2.2 idx (known idx member) idx mem_cons_self rfl
    obtain ⟨keys, more, slots⟩ := r.addBucket_spec out new
    refine ⟨fun i member => ?_, by omega, ?_⟩
    · rcases keys i member with before | rfl
      · exact mem_append_left _ (known i before)
      · exact mem_append_right _ (mem_singleton_self i)
    · rw [map_append, sum_append, map_singleton, sum_singleton]
      omega

end SlotReading

end Ome.Workload
