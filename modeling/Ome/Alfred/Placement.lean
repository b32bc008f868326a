/-
# Ome.Alfred.Placement — what a placement of the arbiter claims

A target takes blocks at all if it is a known, available node that is neither evacuated,
nor landed on in this call, nor cooling (`takes`); it then fits what its free GPUs leave
beside the claims (`spare`).  The walk of a surge is the first-fit walk over the targets
that take blocks (`placeAll_eq_ok`), so that

* every node of a placement takes blocks and has the GPUs to spare (`selectTarget_spare`);
* a surge places every block on one node (`selectTarget_surge`).
-/
import Ome.Alfred.Arbiter
import Ome.Theory.FirstFit

namespace Ome.Alfred

open Ome.Theory FirstFit List GoMap

set_option autoImplicit false

variable {c : Candidate} {inst : Instance} {target : String} {placement : GoMap String Int}

namespace AdmitState

variable (st : AdmitState)

/-- Something may land on the node. -/
def takes (node : String) : Bool :=
  match st.snap.node node with
  | none => false
  | some n =>
    !n.unavailableAsTarget && !decide (node ∈ st.evacuating) && !decide (node ∈ st.landed) &&
      !st.nodeCooling node

/-- The GPUs free beside the claims. -/
def spare (node : String) : Int :=
  match st.snap.node node with
  | none => 0
  | some n => n.freeGPUs - st.claims.get node

theorem fits_iff (node : String) (gpus : Int) :
    st.fits node gpus = .fits ↔ st.takes node = true ∧ gpus ≤ st.spare node := by
  unfold fits takes spare
  cases st.snap.node node with
  | none => simp
  | some n =>
    simp only [Bool.and_eq_true, Bool.not_eq_true', decide_eq_false_iff_not]
    split_ifs <;> simp_all

theorem takes_iff {node : String} :
    st.takes node = true ↔ ∃ n, st.snap.node node = some n ∧ n.unavailableAsTarget = false ∧
      node ∉ st.evacuating ∧ node ∉ st.landed ∧ st.nodeCooling node = false := by
  unfold takes
  cases st.snap.node node with
  | none => simp
  | some n => simp [and_assoc]

/-- The hint a block goes to is the first one that takes blocks and has the room. -/
theorem find_hint (targets : List String) (gpus : Int) (placement : GoMap String Int) :
    targets.find? (fun hint => st.fits hint (gpus + placement.get hint) = .fits) =
      (targets.filter st.takes).find? fun n => decide (gpus ≤ st.spare n - placement.get n) := by
  rw [find?_filter]
  congr 1
  funext n
  rw [decide_eq_decide, decide_eq_true_eq, fits_iff]
  exact and_congr_right fun _ => by omega

theorem spare_set (placement : GoMap String Int) (hint : String) (gpus : Int) :
    (fun n => st.spare n - (placement.set hint (placement.get hint + gpus)).get n) =
      Function.update (fun n => st.spare n - placement.get n) hint
        (st.spare hint - placement.get hint - gpus) := by
  funext n
  rw [get_set]
  by_cases same : n = hint
  · subst same
    rw [Function.update_self, if_pos rfl]
    omega
  · rw [Function.update_of_ne same, if_neg same]

/-- The walk of a surge is the first-fit walk. -/
theorem placeAll_eq_ok {targets : List String} : ∀ {blocks : List Int} {first target : String}
    {placement placement' : GoMap String Int},
    st.placeAll targets blocks first placement = .ok (target, placement') →
      ∃ chosen, choose (targets.filter st.takes)
          (fun n => st.spare n - placement.get n) blocks = some chosen ∧
        (∀ n, placement'.get n = placement.get n + load blocks chosen n) ∧
        ∀ n, n ∈ placement'.keys ↔ n ∈ placement.keys ∨ n ∈ chosen := by
  intro blocks
  induction blocks with
  | nil =>
    intro first target placement placement' walk
    obtain ⟨rfl, rfl⟩ : first = target ∧ placement = placement' := by
      simpa [placeAll] using walk
    exact ⟨[], rfl, by simp [load], by simp⟩
  | cons gpus rest ih =>
    intro first target placement placement' walk
    rw [placeAll] at walk
    cases found : targets.find?
        (fun hint => st.fits hint (gpus + placement.get hint) = .fits) with
    | none => simp [found] at walk
    | some hint =>
      rw [found] at walk
      obtain ⟨chosen, later, gets, keys⟩ := ih walk
      refine ⟨hint :: chosen, ?_, ?_, ?_⟩
      · rw [choose_cons]
        refine ⟨hint, chosen, ?_, ?_, rfl⟩
        · rw [← find_hint, found]
        · rw [← later, spare_set]
      · intro n
        rw [gets n, get_set]
        show _ = placement.get n + ((if hint = n then gpus else 0) + _)
        by_cases same : n = hint
        · subst same
          simp
          omega
        · simp [same, Ne.symm same]
      · intro n
        rw [keys n, mem_keys_set, mem_cons]
        tauto

/-- The walk of a surge succeeds where the first-fit walk does. -/
theorem placeAll_of_choose {targets : List String} : ∀ {blocks : List Int} (first : String)
    {placement : GoMap String Int} {chosen : List String},
    choose (targets.filter st.takes) (fun n => st.spare n - placement.get n) blocks =
      some chosen →
      ∃ target placement',
        st.placeAll targets blocks first placement = .ok (target, placement') := by
  intro blocks
  induction blocks with
  | nil => intro first placement chosen _; exact ⟨first, placement, rfl⟩
  | cons gpus rest ih =>
    intro first placement chosen walk
    obtain ⟨hint, others, found, later, rfl⟩ := choose_cons.mp walk
    rw [← find_hint] at found
    rw [← spare_set] at later
    rw [placeAll, found]
    exact ih _ later

/-- Every node of a placement takes blocks and has the GPUs to spare. -/
theorem selectTarget_spare (ok : st.selectTarget c inst = .ok (target, placement)) :
    ∀ node ∈ placement.keys, st.takes node = true ∧ placement.get node ≤ st.spare node := by
  unfold selectTarget at ok
  split at ok
  · obtain ⟨-, rfl⟩ : "" = target ∧ empty = placement := by simpa using ok
    simp
  · simp only at ok
    split at ok
    · split at ok
      · rename_i hint found
        obtain ⟨-, rfl⟩ : hint = target ∧ empty.set hint c.footprintGPUs = placement := by
          simpa using ok
        have fits := (st.fits_iff hint _).mp (by simpa using find?_some found)
        intro node member
        obtain rfl : node = hint := by simpa using member
        rw [get_set_self]
        exact fits
      · obtain ⟨-, rfl⟩ : "" = target ∧ empty = placement := by simpa using ok
        simp
    · obtain ⟨chosen, walk, gets, keys⟩ := st.placeAll_eq_ok ok
      intro node member
      have used : node ∈ chosen := by simpa using (keys node).mp member
      refine ⟨(mem_filter.mp (mem_targets walk node used)).2, ?_⟩
      have load := load_le walk node used
      rw [gets node]
      exact (Int.zero_add _).le.trans (load.trans (Int.sub_zero _).le)

/-- A surge without a TPU slice places each of its blocks on one node. -/
theorem selectTarget_surge (ok : st.selectTarget c inst = .ok (target, placement))
    (noSlice : c.tpuSlice = false) (surge : c.surgeShaped = true) :
    ∃ chosen : List String, chosen.length = (surgeBlocks c inst).length ∧
      (∀ n, n ∈ placement.keys ↔ n ∈ chosen) ∧
      ∀ n, placement.get n = load (surgeBlocks c inst) chosen n := by
  unfold selectTarget at ok
  simp only [noSlice, surge, Bool.false_eq_true, if_false, Bool.true_eq_false] at ok
  obtain ⟨chosen, walk, gets, keys⟩ := st.placeAll_eq_ok ok
  refine ⟨chosen, length_choose walk, fun n => ?_, fun n => ?_⟩
  · simpa using keys n
  · exact (gets n).trans (Int.zero_add _)

/-- The GPU pods of an instance. -/
def gpuPods (inst : Instance) : List PodInfo := inst.pods.filter fun pod => 0 < pod.gpus

/-- **A surge places every GPU pod exactly once.** -/
theorem selectTarget_pods (ok : st.selectTarget c inst = .ok (target, placement))
    (noSlice : c.tpuSlice = false) (surge : c.surgeShaped = true) (some : gpuPods inst ≠ []) :
    ∃ placed : List (PodInfo × String), (placed.map Prod.fst).Perm (gpuPods inst) ∧
      (∀ pair ∈ placed, pair.2 ∈ placement.keys) ∧
      ∀ node, placement.get node =
        ((placed.filter (·.2 = node)).map fun pair => pair.1.gpus).sum := by
  obtain ⟨chosen, length, keys, gets⟩ := st.selectTarget_surge ok noSlice surge
  have perm := perm_insertionSort (fun a b : PodInfo => b.gpus ≤ a.gpus) (gpuPods inst)
  have blocks : surgeBlocks c inst =
      ((gpuPods inst).insertionSort fun a b => b.gpus ≤ a.gpus).map (·.gpus) := by
    apply if_neg
    rintro ⟨none, _⟩
    have empty : ((gpuPods inst).insertionSort fun a b => b.gpus ≤ a.gpus) = [] :=
      map_eq_nil_iff.mp none
    rw [empty] at perm
    exact some perm.nil_eq.symm
  rw [blocks] at gets
  refine ⟨((gpuPods inst).insertionSort fun a b => b.gpus ≤ a.gpus).zip chosen, ?_, ?_, ?_⟩
  · rw [map_fst_zip]
    · exact perm
    · rw [length, blocks, length_map]
  · rintro ⟨pod, node⟩ pair
    exact (keys node).mpr (of_mem_zip pair).2
  · intro node
    rw [gets node, load_map]

end AdmitState

end Ome.Alfred
