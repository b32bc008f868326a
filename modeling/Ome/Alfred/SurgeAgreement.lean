/-
# Ome.Alfred.SurgeAgreement — the planner, the arbiter and the simulator agree

The planner sorts pods and nodes its own way, the arbiter keeps claims beside the free GPUs
and the simulator takes capacity out of bins it finds by name.  All three make one
first-fit walk:

* a plan is the walk of the instance's GPU pods, largest first, over its targets with
  their free GPUs (`SurgePlan.Sound`, `planAtomicSurge_sound`);
* the arbiter's walk over the same targets is the same one, as nothing is claimed there
  (`SurgePlan.Sound.selected`);
* the simulator finds in its bins what the walk found free
  (`SurgePlan.Sound.simulated`).

`surge_plan_agrees` puts them together.
-/
import Ome.Alfred.Surge
import Ome.Alfred.Admission
import Ome.Theory.Loops

namespace Ome.Alfred

open Ome.Theory FirstFit AdmitState ClusterSnapshot GoMap List Function

set_option autoImplicit false

variable {n : Node} {name : String}
variable {w : Workload} {inst : Instance} {prints : List SurgeFootprint} {snap : ClusterSnapshot}

/-- The GPUs of the moves that go to a node. -/
def movedTo (moves : List SurgeMove) (node : String) : Int :=
  ((moves.filter (·.targetNode = node)).map (·.gpus)).sum

/-- The free GPUs of the node under a name. -/
def ClusterSnapshot.freeGPUs (snap : ClusterSnapshot) (name : String) : Int :=
  ((snap.node name).map (·.freeGPUs)).getD 0

def ClusterSnapshot.totalGPUs (snap : ClusterSnapshot) (name : String) : Int :=
  ((snap.node name).map (·.totalGPUs)).getD 0

/-- What a plan is: a first-fit walk of the footprints over the plan's targets. -/
structure SurgePlan.Sound (snap : ClusterSnapshot) (cfg : Config) (w : Workload)
    (inst : Instance) (plan : SurgePlan) (prints : List SurgeFootprint) (chosen : List String)
    (pool : String) : Prop where
  pods : prints.Perm ((AdmitState.gpuPods inst).map PodInfo.footprint)
  largestFirst : prints.Pairwise fun a b => b.gpus ≤ a.gpus
  nonempty : prints ≠ []
  moves : plan.moves = zipWith SurgeFootprint.moveTo prints chosen
  walk : FirstFit.choose plan.placementTargetNodes snap.freeGPUs (prints.map (·.gpus)) =
    some chosen
  sources : ∀ print ∈ prints, ∃ n, snap.node print.node = some n ∧ n.gpuPool = pool
  targets : ∀ name ∈ plan.placementTargetNodes, ∃ n ∈ snap.poolNodes pool, n.name = name ∧
    n.unavailableAsTarget = false ∧ (cfg.avoidAsTarget && n.preemptible) = false ∧
    (∀ pod ∈ inst.pods, pod.node ≠ name) ∧
    ∀ ready, modelTargetNodes snap w = some ready → name ∈ ready

/-! ## The footprints -/

/-- The walk over the pods gathers the footprint of every GPU pod and the node of every
pod. -/
theorem Footprints.gather_spec {f : Footprints}
    (gathered : inst.pods.foldlM (Footprints.gather w inst) ⟨[], empty, 0, ""⟩ = some f) :
    f.prints = (gpuPods inst).map PodInfo.footprint ∧
      ∀ pod ∈ inst.pods, pod.node ∈ f.sourceNodes.keys := by
  -- the invariant speaks of the pods read so far
  refine foldlM_along
    (fun done (f : Footprints) =>
      f.prints = (done.filter fun pod => 0 < pod.gpus).map PodInfo.footprint ∧
        ∀ pod ∈ done, pod.node ∈ f.sourceNodes.keys) gathered ⟨rfl, by simp⟩ ?_
  rintro done pod f f' ⟨prints, sources⟩ step
  unfold Footprints.gather at step
  split at step
  · cases step
  · rename_i belongs
    split at step
    · cases step
    · obtain rfl := Option.some.inj step
      have nonneg : ¬ pod.gpus < 0 := by
        simp only [PodInfo.belongs, Bool.not_eq_false, decide_eq_true_eq] at belongs
        exact belongs.2.2.2.1
      constructor
      · rw [filter_append, map_append, ← prints]
        by_cases zero : pod.gpus = 0
        · simp [zero]
        · have pos : 0 < pod.gpus := by omega
          simp [zero, pos]
      · intro other member
        rw [mem_keys_set]
        rcases mem_append.mp member with before | here
        · exact Or.inl (sources other before)
        · obtain rfl : other = pod := by simpa using here
          exact Or.inr rfl

theorem sorted_prints (prints : List SurgeFootprint) :
    (prints.insertionSort SurgeFootprint.Before).Pairwise SurgeFootprint.Before := by
  refine pairwise_sort_of_key (fun print => toLex (OrderDual.toDual print.gpus, print.pod))
    (fun a b => ?_) prints
  rw [Prod.Lex.toLex_le_toLex]
  rfl

theorem validatedSurgeFootprints_eq_some {sourceNodes : GoMap String Nat}
    (valid : validatedSurgeFootprints w inst = some (prints, sourceNodes)) :
    prints.Perm ((gpuPods inst).map PodInfo.footprint) ∧
      (prints.Pairwise fun a b => b.gpus ≤ a.gpus) ∧ prints ≠ [] ∧
      ∀ pod ∈ inst.pods, pod.node ∈ sourceNodes.keys := by
  unfold validatedSurgeFootprints at valid
  split at valid
  · cases valid
  · rename_i f gathered
    split at valid
    · cases valid
    · rename_i checks
      split at valid
      · cases valid
      · obtain ⟨rfl, rfl⟩ : _ = prints ∧ f.sourceNodes = sourceNodes := by simpa using valid
        obtain ⟨gathers, nodes⟩ := Footprints.gather_spec gathered
        have perm := perm_insertionSort SurgeFootprint.Before f.prints
        refine ⟨perm.trans (.of_eq gathers), ?_, fun empty => checks (Or.inl ?_), nodes⟩
        · refine (sorted_prints f.prints).imp ?_
          intro a b before
          rcases before with larger | ⟨same, _⟩
          · exact larger.le
          · exact same.ge
        · rw [empty] at perm
          exact perm.nil_eq.symm

theorem surgePool_eq_some : ∀ {prints : List SurgeFootprint}
    {seen pool : String}, surgePool snap prints seen = some pool →
      (seen ≠ "" → pool = seen) ∧
      ∀ print ∈ prints, ∃ n, snap.node print.node = some n ∧ n.gpuPool = pool := by
  intro prints
  induction prints with
  | nil =>
    intro seen pool found
    rw [surgePool] at found
    split at found
    · cases found
    · obtain rfl := Option.some.inj found
      exact ⟨fun _ => rfl, by simp⟩
  | cons print rest ih =>
    intro seen pool found
    rw [surgePool] at found
    cases known : snap.node print.node with
    | none => simp [known] at found
    | some n =>
      simp only [known] at found
      split_ifs at found with unpooled first other
      · obtain ⟨same, later⟩ := ih found
        refine ⟨fun started => absurd first started, ?_⟩
        intro print' member
        rcases mem_cons.mp member with rfl | member
        · exact ⟨n, known, (same unpooled).symm⟩
        · exact later print' member
      · obtain ⟨same, later⟩ := ih found
        refine ⟨same, ?_⟩
        intro print' member
        rcases mem_cons.mp member with rfl | member
        · exact ⟨n, known, (not_ne_iff.mp other).trans (same first).symm⟩
        · exact later print' member

/-! ## The targets -/

section Targets

variable {cfg : Config} {pool : String}
  {excluded : List String} {minimum : Int}

theorem mem_surgeTargets {target : SurgeTarget}
    (member : target ∈ surgeTargets snap cfg w pool excluded minimum) :
    ∃ n ∈ snap.poolNodes pool, target = ⟨n.name, n.freeGPUs⟩ ∧
      surgeEligible w cfg excluded (modelTargetNodes snap w) minimum n = true := by
  unfold surgeTargets at member
  rw [mem_insertionSort, mem_map] at member
  obtain ⟨n, listed, rfl⟩ := member
  obtain ⟨inPool, eligible⟩ := mem_filter.mp listed
  exact ⟨n, inPool, rfl, eligible⟩

theorem mem_nodes_of_poolNodes (member : n ∈ snap.poolNodes pool) : n ∈ snap.nodes :=
  (mem_filter.mp member).1

theorem freeGPUs_of_mem (member : n ∈ snap.nodes) : snap.freeGPUs n.name = n.freeGPUs := by
  unfold freeGPUs
  rw [snap.node_eq_some member]
  rfl

theorem totalGPUs_of_mem (member : n ∈ snap.nodes) : snap.totalGPUs n.name = n.totalGPUs := by
  unfold totalGPUs
  rw [snap.node_eq_some member]
  rfl

theorem nodup_names_filter (keep : Node → Bool) :
    (((snap.poolNodes pool).filter keep).map Node.name).Nodup := by
  refine snap.distinct.sublist (Sublist.map _ ?_)
  exact filter_sublist.trans filter_sublist

theorem nodup_surgeTargets :
    ((surgeTargets snap cfg w pool excluded minimum).map SurgeTarget.name).Nodup := by
  unfold surgeTargets
  rw [((perm_insertionSort _ _).map _).nodup_iff, map_map]
  exact nodup_names_filter _

theorem get_targets_free {target : SurgeTarget}
    (member : target ∈ surgeTargets snap cfg w pool excluded minimum) :
    ((surgeTargets snap cfg w pool excluded minimum).foldl
      (fun m target => m.set target.name target.free) empty).get target.name =
      snap.freeGPUs target.name := by
  rw [get_foldl_item SurgeTarget.name SurgeTarget.free,
    foldl_update_of_mem nodup_surgeTargets member]
  obtain ⟨n, inPool, rfl, _⟩ := mem_surgeTargets member
  exact (freeGPUs_of_mem (mem_nodes_of_poolNodes inPool)).symm

end Targets

/-! ## The plan -/

/-- The planner's walk is the first-fit walk over the names of the targets. -/
theorem placePrints_eq_some {targets : List SurgeTarget} : ∀ {prints : List SurgeFootprint}
    {free : GoMap String Int} {moves : List SurgeMove},
    placePrints targets prints free = some moves →
      ∃ chosen, choose (targets.map (·.name)) free.get (prints.map (·.gpus)) =
          some chosen ∧
        moves = zipWith SurgeFootprint.moveTo prints chosen := by
  intro prints
  induction prints with
  | nil =>
    intro free moves walk
    obtain rfl : [] = moves := by simpa [placePrints] using walk
    exact ⟨[], rfl, rfl⟩
  | cons print rest ih =>
    intro free moves walk
    rw [placePrints] at walk
    cases found : targets.find? (fun target => !decide (free.get target.name < print.gpus)) with
    | none => simp [found] at walk
    | some target =>
      rw [found] at walk
      obtain ⟨moves', later, rfl⟩ := Option.map_eq_some_iff.mp walk
      obtain ⟨chosen, walks, rfl⟩ := ih later
      refine ⟨target.name :: chosen, ?_, rfl⟩
      rw [map_cons, choose_cons]
      refine ⟨target.name, chosen, ?_, walks, rfl⟩
      rw [find?_map, Option.map_eq_some_iff]
      refine ⟨target, ?_, rfl⟩
      rw [← found]
      congr 1
      funext other
      rw [← decide_not]
      exact decide_eq_decide.mpr Int.not_lt.symm

/-- **A plan is a first-fit walk.** -/
theorem planAtomicSurge_sound {cfg : Config}
    {plan : SurgePlan} (planned : planAtomicSurge snap cfg w inst = some plan) :
    ∃ prints chosen pool, plan.Sound snap cfg w inst prints chosen pool := by
  unfold planAtomicSurge at planned
  split at planned
  · cases planned
  · split at planned
    · cases planned
    · rename_i prints sourceNodes valid
      split at planned
      · cases planned
      · split at planned
        · cases planned
        · rename_i pool pooled
          simp only at planned
          split at planned
          · cases planned
          · rename_i moves placed
            obtain rfl := Option.some.inj planned
            obtain ⟨pods, largestFirst, nonempty, nodes⟩ := validatedSurgeFootprints_eq_some valid
            obtain ⟨chosen, walk, isMoves⟩ := placePrints_eq_some placed
            refine ⟨prints, chosen, pool, pods, largestFirst, nonempty, isMoves, ?_,
              (surgePool_eq_some pooled).2, ?_⟩
            · rw [← walk]
              refine choose_congr fun name listed => ?_
              obtain ⟨target, member, rfl⟩ := mem_map.mp listed
              exact (get_targets_free member).symm
            · intro name listed
              obtain ⟨target, member, rfl⟩ := mem_map.mp listed
              obtain ⟨n, inPool, rfl, eligible⟩ := mem_surgeTargets member
              simp only [surgeEligible, workloadAvoidsSpotTarget, Bool.and_eq_true,
                decide_eq_true_eq, Bool.not_eq_true', Bool.or_eq_false_iff] at eligible
              obtain ⟨⟨notSource, ⟨available, spot⟩, _⟩, allowed⟩ := eligible
              refine ⟨n, inPool, rfl, available, ?_, ?_, ?_⟩
              · cases avoids : cfg.avoidAsTarget with
                | false => rfl
                | true => simpa [avoids] using spot
              · intro pod isPod same
                have listed := nodes pod isPod
                rw [same] at listed
                exact notSource listed
              · intro ready constrained
                rw [constrained] at allowed
                simpa using allowed

namespace SurgePlan.Sound

variable {cfg : Config} {plan : SurgePlan} {chosen : List String} {pool : String}

variable (sound : plan.Sound snap cfg w inst prints chosen pool)
include sound

theorem pos : ∀ print ∈ prints, 0 < print.gpus := by
  intro print member
  obtain ⟨pod, isPod, rfl⟩ := mem_map.mp (sound.pods.mem_iff.mp member)
  have positive : 0 < pod.gpus := by simpa using (mem_filter.mp isPod).2
  exact positive

theorem length : chosen.length = prints.length := by
  rw [length_choose sound.walk, length_map]

theorem moves_eq : plan.moves = (prints.zip chosen).map fun pair => pair.1.moveTo pair.2 := by
  rw [sound.moves, zip, map_zipWith]

/-- Each GPU pod moves once. -/
theorem covers :
    (plan.moves.map fun m => (m.pod, m.fromNode, m.gpus)).Perm
      ((gpuPods inst).map fun pod =>
        (pod.ns ++ "/" ++ pod.name, pod.node, pod.gpus)) := by
  have firsts : (plan.moves.map fun m => (m.pod, m.fromNode, m.gpus)) =
      prints.map fun print => (print.pod, print.node, print.gpus) := by
    rw [sound.moves_eq, map_map]
    have whole : (prints.zip chosen).map Prod.fst = prints := map_fst_zip sound.length.ge
    conv_rhs => rw [← whole, map_map]
    rfl
  have perm := sound.pods.map fun print => (print.pod, print.node, print.gpus)
  rw [map_map] at perm
  rw [firsts]
  exact perm

theorem movedTo_eq (node : String) :
    movedTo plan.moves node = load (prints.map (·.gpus)) chosen node := by
  rw [load_map, movedTo, sound.moves_eq, filter_map, map_map]
  rfl

theorem mem_chosen_iff (node : String) : node ∈ chosen ↔ ∃ m ∈ plan.moves, m.targetNode = node := by
  have seconds : plan.moves.map (·.targetNode) = chosen := by
    rw [sound.moves_eq, map_map]
    exact map_snd_zip sound.length.le
  rw [← seconds, mem_map]

/-- No node gets more than it has free. -/
theorem movedTo_le (known : snap.node name = some n) : movedTo plan.moves name ≤ n.freeGPUs := by
  rw [sound.movedTo_eq]
  by_cases used : name ∈ chosen
  · have load := load_le sound.walk name used
    simpa [freeGPUs, known] using load
  · rw [load_eq_zero _ _ used]
    exact n.freeGPUs_nonneg

/-! ## The arbiter -/

/-- The arbiter's blocks are the planner's footprints. -/
theorem blocks (c : Candidate) : surgeBlocks c inst = prints.map (·.gpus) := by
  have sorted := pairwise_insertionSort (fun a b : PodInfo => b.gpus ≤ a.gpus)
    (gpuPods inst)
  have perm := perm_insertionSort (fun a b : PodInfo => b.gpus ≤ a.gpus)
    (gpuPods inst)
  -- two lists of the same numbers, both in descending order
  have same : ((gpuPods inst).insertionSort fun a b => b.gpus ≤ a.gpus).map (·.gpus) =
      prints.map (·.gpus) := by
    have gpus := (sound.pods.map (·.gpus)).symm
    rw [map_map] at gpus
    have descending : (prints.map (·.gpus)).Pairwise fun a b => b ≤ a :=
      pairwise_map.mpr sound.largestFirst
    refine Perm.eq_of_pairwise ?_ (pairwise_map.mpr sorted) descending
      ((perm.map _).trans gpus)
    intro a b _ _ less more
    exact Int.le_antisymm more less
  show (if _ then _ else _) = _
  rw [if_neg]
  · exact same
  · rintro ⟨none, _⟩
    have empty : prints.map (·.gpus) = [] := same.symm.trans none
    exact sound.nonempty (map_eq_nil_iff.mp empty)

/-- **The arbiter accepts the plan and claims what it moves.** -/
theorem selected {st : AdmitState} (sameSnap : st.snap = snap) {c : Candidate}
    (surge : c.surgeShaped = true) (noSlice : c.tpuSlice = false)
    (sameTargets : c.placementTargetNodes = plan.placementTargetNodes)
    (untouched : ∀ name ∈ plan.placementTargetNodes, st.claims.get name = 0 ∧
      name ∉ st.landed ∧ name ∉ st.evacuating ∧ st.nodeCooling name = false) :
    ∃ target placement, st.selectTarget c inst = .ok (target, placement) ∧
      (∀ name, placement.get name = movedTo plan.moves name) ∧
      ∀ name, name ∈ placement.keys ↔ ∃ m ∈ plan.moves, m.targetNode = name := by
  subst sameSnap
  have takes : plan.placementTargetNodes.filter st.takes = plan.placementTargetNodes := by
    refine filter_eq_self.mpr fun name listed => ?_
    obtain ⟨n, inPool, rfl, available, _⟩ := sound.targets name listed
    obtain ⟨_, notLanded, notEvacuating, notCooling⟩ := untouched n.name listed
    exact st.takes_iff.mpr ⟨n, st.snap.node_eq_some (mem_nodes_of_poolNodes inPool), available,
      notEvacuating, notLanded, notCooling⟩
  have walk : choose (plan.placementTargetNodes.filter st.takes)
      (fun n => st.spare n - (empty : GoMap String Int).get n)
      (surgeBlocks c inst) = some chosen := by
    rw [takes, sound.blocks c, ← sound.walk]
    refine choose_congr fun name listed => ?_
    obtain ⟨n, inPool, rfl, _⟩ := sound.targets name listed
    have known := st.snap.node_eq_some (mem_nodes_of_poolNodes inPool)
    show st.spare n.name - 0 = _
    simp [spare, freeGPUs, known, (untouched n.name listed).1]
  have some : plan.placementTargetNodes ≠ [] := by
    intro none
    obtain ⟨print, rest, rfl⟩ := exists_cons_of_ne_nil sound.nonempty
    obtain ⟨m, others, found, _⟩ := choose_cons.mp sound.walk
    simp [none] at found
  obtain ⟨target, placement, ok⟩ := st.placeAll_of_choose "" walk
  refine ⟨target, placement, ?_, ?_⟩
  · unfold selectTarget
    simp only [noSlice, surge, sameTargets, some, Bool.false_eq_true, if_false, Bool.true_eq_false]
    exact ok
  · obtain ⟨chosen', walk', gets, keys⟩ := st.placeAll_eq_ok ok
    obtain rfl : chosen = chosen' := Option.some.inj (walk.symm.trans walk')
    constructor
    · intro name
      rw [gets name, sound.movedTo_eq, sound.blocks c]
      exact Int.zero_add _
    · intro name
      rw [keys name, ← sound.mem_chosen_iff]
      simp

end SurgePlan.Sound

/-! ## The simulator -/

section Bins

variable {order : List String}

/-- The bin of a node with so much left. -/
def binRow (left cap : String → Int) (name : String) : BinState := ⟨name, left name, cap name⟩

/-- The index finds each bin of the order at its place. -/
structure Indexes (index : GoMap String Nat) (order : List String) : Prop where
  nodup : order.Nodup
  keys : ∀ name, name ∈ index.keys ↔ name ∈ order
  places : ∀ name ∈ order, index.get name = order.idxOf name

/-- The capacities hold what is left. -/
def Within (order : List String) (left cap : String → Int) : Prop :=
  ∀ name ∈ order, 0 ≤ left name ∧ left name ≤ cap name

theorem Within.update {left cap : String → Int} (within : Within order left cap)
    {value : Int} (bounds : 0 ≤ value ∧ value ≤ cap name) :
    Within order (update left name value) cap := by
  intro other member
  by_cases same : other = name
  · subst same
    rw [update_self]
    exact bounds
  · rw [update_of_ne same]
    exact within other member

variable {index : GoMap String Nat} {left cap : String → Int}

variable (indexes : Indexes index order)
include indexes

/-- Rewriting what is left of one bin, found by the index. -/
theorem Indexes.modify (member : name ∈ order) (rewrite : BinState → Int) :
    ((order.map (binRow left cap)).modify (index.get name) fun bin =>
        { bin with free := rewrite bin }) =
      order.map (binRow (update left name (rewrite (binRow left cap name))) cap) := by
  rw [indexes.places name member, modify_idxOf indexes.nodup member]
  refine map_congr_left fun other _ => ?_
  by_cases same : other = name
  · subst same
    simp [binRow]
  · simp [binRow, same]

theorem Indexes.getElem? (member : name ∈ order) :
    (order.map (binRow left cap))[index.get name]? = some (binRow left cap name) := by
  rw [indexes.places name member, getElem?_map, getElem?_idxOf member]
  rfl

/-- The bins have room for the moves of a first-fit walk. -/
theorem Indexes.consumeMoves {targets : List String}
    (listed : ∀ name ∈ targets, name ∈ order) : ∀ {prints : List SurgeFootprint}
    {chosen : List String} {left : String → Int}, (∀ print ∈ prints, 0 < print.gpus) →
    choose targets left (prints.map (·.gpus)) = some chosen → Within order left cap →
      ∃ left', consumeMoves index (zipWith SurgeFootprint.moveTo prints chosen)
          (order.map (binRow left cap)) = some (order.map (binRow left' cap)) ∧
        Within order left' cap := by
  intro prints
  induction prints with
  | nil => intro chosen left _ _ within; exact ⟨left, rfl, within⟩
  | cons print rest ih =>
    intro chosen left pos walk within
    obtain ⟨name, others, found, later, rfl⟩ := choose_cons.mp walk
    have enough : print.gpus ≤ left name := by simpa using find?_some found
    have member := listed name (mem_of_find?_eq_some found)
    have positive := pos print (by simp)
    have bounds := within name member
    obtain ⟨left', ends, within'⟩ := ih (fun p member => pos p (by simp [member])) later
      (within.update (show 0 ≤ left name - print.gpus ∧ left name - print.gpus ≤ cap name by
        omega))
    refine ⟨left', ?_, within'⟩
    show Ome.Alfred.consumeMoves index (print.moveTo name :: _) _ = _
    have indexed : (print.moveTo name).targetNode ∈ index.keys := (indexes.keys name).mpr member
    rw [Ome.Alfred.consumeMoves, if_neg (not_not.mpr indexed)]
    have seat : (order.map (binRow left cap))[index.get (print.moveTo name).targetNode]? = _ :=
      indexes.getElem? member
    rw [seat]
    show (if print.gpus ≤ 0 ∨ left name < print.gpus then none else _) = _
    rw [if_neg (by omega), ← ends]
    congr 1
    exact indexes.modify member fun bin => bin.free - print.gpus

/-- Giving capacity back keeps every bin within its capacity. -/
theorem Indexes.releaseMoves : ∀ {moves : List SurgeMove}
    {left : String → Int}, (∀ m ∈ moves, 0 < m.gpus) → Within order left cap →
      ∃ left', releaseMoves index moves (order.map (binRow left cap)) =
          order.map (binRow left' cap) ∧ Within order left' cap := by
  intro moves
  induction moves with
  | nil => intro left _ within; exact ⟨left, rfl, within⟩
  | cons m rest ih =>
    intro left pos within
    have positive := pos m (by simp)
    have others := fun m' (member : m' ∈ rest) => pos m' (by simp [member])
    unfold Ome.Alfred.releaseMoves
    rw [foldl_cons]
    by_cases indexed : m.fromNode ∈ index.keys
    · have member := (indexes.keys m.fromNode).mp indexed
      have bounds := within m.fromNode member
      rw [if_pos indexed, indexes.modify member fun bin => min (bin.free + m.gpus) bin.cap]
      refine ih others (within.update ?_)
      show 0 ≤ min (left m.fromNode + m.gpus) (cap m.fromNode) ∧
        min (left m.fromNode + m.gpus) (cap m.fromNode) ≤ cap m.fromNode
      omega
    · rw [if_neg indexed]
      exact ih others within

end Bins

theorem binIndexByName_indexes {bins : List BinState} (nodup : (bins.map BinState.name).Nodup) :
    Indexes (binIndexByName bins) (bins.map BinState.name) := by
  have names : (bins.zipIdx.map fun entry => entry.1.name) = bins.map BinState.name := by
    conv_rhs => rw [← zipIdx_map_fst 0 bins, map_map]
    rfl
  refine ⟨nodup, fun name => ?_, fun name member => ?_⟩
  · unfold binIndexByName
    rw [mem_keys_foldl_item (fun entry : BinState × Nat => entry.1.name) Prod.snd, names]
    simp
  · have bound := idxOf_lt_length_of_mem member
    have inside : (bins.map BinState.name).idxOf name < bins.length := by simpa using bound
    have here : (bins[(bins.map BinState.name).idxOf name],
        (bins.map BinState.name).idxOf name) ∈ bins.zipIdx := by
      rw [mem_zipIdx_iff_getElem?]
      simp [inside]
    have named : bins[(bins.map BinState.name).idxOf name].name = name := by
      have found := getElem_idxOf bound
      rwa [getElem_map] at found
    unfold binIndexByName
    rw [get_foldl_item (fun entry : BinState × Nat => entry.1.name) Prod.snd]
    have distinct : (bins.zipIdx.map fun entry => entry.1.name).Nodup := names ▸ nodup
    have stored : bins.zipIdx.foldl
        (fun m entry => update m entry.1.name entry.2)
        (empty : GoMap String Nat).get
        bins[(bins.map BinState.name).idxOf name].name = (bins.map BinState.name).idxOf name :=
      foldl_update_of_mem distinct here _
    rwa [named] at stored

section Schedulable

variable (snap : ClusterSnapshot) (cfg : Config) (pool : String)

variable {snap cfg pool} in
theorem mem_schedulableBins {bin : BinState} :
    bin ∈ schedulableBins snap cfg pool ↔ ∃ n ∈ snap.poolNodes pool,
      nodeSchedulable n cfg.avoidAsTarget = true ∧ ⟨n.name, n.freeGPUs, n.totalGPUs⟩ = bin := by
  unfold schedulableBins
  rw [mem_insertionSort, mem_map]
  simp only [mem_filter, and_assoc]

theorem nodup_schedulableBins : ((schedulableBins snap cfg pool).map BinState.name).Nodup := by
  unfold schedulableBins
  rw [((perm_insertionSort _ _).map _).nodup_iff, map_map]
  exact nodup_names_filter _

theorem schedulableBins_eq : schedulableBins snap cfg pool =
    ((schedulableBins snap cfg pool).map BinState.name).map
      (binRow snap.freeGPUs snap.totalGPUs) := by
  rw [map_map]
  refine (map_id _).symm.trans (map_congr_left fun bin member => ?_)
  obtain ⟨n, inPool, _, rfl⟩ := mem_schedulableBins.mp member
  have isNode := mem_nodes_of_poolNodes inPool
  simp [binRow, freeGPUs_of_mem isNode, totalGPUs_of_mem isNode]

theorem schedulableBins_within : Within ((schedulableBins snap cfg pool).map BinState.name)
    snap.freeGPUs snap.totalGPUs := by
  intro name listed
  obtain ⟨bin, member, rfl⟩ := mem_map.mp listed
  obtain ⟨n, inPool, _, rfl⟩ := mem_schedulableBins.mp member
  have isNode := mem_nodes_of_poolNodes inPool
  rw [freeGPUs_of_mem isNode, totalGPUs_of_mem isNode]
  exact ⟨n.freeGPUs_nonneg, n.freeGPUs_le⟩

end Schedulable

/-- **The simulator accepts the plan and keeps every bin within its capacity.** -/
theorem SurgePlan.Sound.simulated {cfg : Config}
    {plan : SurgePlan} {chosen : List String}
    {pool : String} (sound : plan.Sound snap cfg w inst prints chosen pool) :
    ∃ bins, simulateSurgePlan (schedulableBins snap cfg pool) plan.moves = some bins ∧
      (bins.map fun bin => (bin.name, bin.cap)) =
        (schedulableBins snap cfg pool).map (fun bin => (bin.name, bin.cap)) ∧
      ∀ bin ∈ bins, 0 ≤ bin.free ∧ bin.free ≤ bin.cap := by
  have indexes := binIndexByName_indexes (nodup_schedulableBins snap cfg pool)
  have isBins := schedulableBins_eq snap cfg pool
  have within := schedulableBins_within snap cfg pool
  have listed : ∀ name ∈ plan.placementTargetNodes,
      name ∈ (schedulableBins snap cfg pool).map BinState.name := by
    intro name listed
    obtain ⟨n, inPool, rfl, available, notSpot, _⟩ := sound.targets name listed
    have schedulable : nodeSchedulable n cfg.avoidAsTarget = true := by
      unfold nodeSchedulable
      rw [available, notSpot]
      rfl
    exact mem_map.mpr ⟨_, mem_schedulableBins.mpr ⟨n, inPool, schedulable, rfl⟩, rfl⟩
  have positive : ∀ m ∈ plan.moves, 0 < m.gpus := by
    rw [sound.moves_eq]
    intro m member
    obtain ⟨⟨print, node⟩, pair, rfl⟩ := mem_map.mp member
    exact sound.pos print (of_mem_zip pair).1
  obtain ⟨taken, consumes, within'⟩ := indexes.consumeMoves listed sound.pos sound.walk within
  obtain ⟨left, releases, within''⟩ := indexes.releaseMoves positive within'
  refine ⟨((schedulableBins snap cfg pool).map BinState.name).map (binRow left snap.totalGPUs),
    ?_, ?_, ?_⟩
  · unfold simulateSurgePlan
    rw [sound.moves] at releases ⊢
    rw [← isBins] at consumes
    rw [consumes, Option.map_some, releases]
  · conv_rhs => rw [isBins]
    simp only [map_map]
    rfl
  · intro bin member
    obtain ⟨name, isName, rfl⟩ := mem_map.mp member
    exact within'' name isName

/-- **The planner, the arbiter and the simulator agree on a surge.** -/
theorem surge_plan_agrees {snap : ClusterSnapshot} {cfg : Config} {w : Workload}
    {inst : Instance} {plan : SurgePlan} (planned : planAtomicSurge snap cfg w inst = some plan) :
    (plan.moves.map fun m => (m.pod, m.fromNode, m.gpus)).Perm
        ((AdmitState.gpuPods inst).map fun pod =>
          (pod.ns ++ "/" ++ pod.name, pod.node, pod.gpus)) ∧
      (∀ m ∈ plan.moves, m.targetNode ∈ plan.placementTargetNodes) ∧
      (∀ name ∈ plan.placementTargetNodes, ∀ pod ∈ inst.pods, pod.node ≠ name) ∧
      ∃ pool, (∀ pod ∈ AdmitState.gpuPods inst, ∃ n, snap.node pod.node = some n ∧
          n.gpuPool = pool) ∧
        (∀ name ∈ plan.placementTargetNodes, ∃ n, snap.node name = some n ∧
          n.unavailableAsTarget = false ∧ n.gpuPool = pool ∧
          ∀ ready, modelTargetNodes snap w = some ready → name ∈ ready) ∧
        (∀ name n, snap.node name = some n → movedTo plan.moves name ≤ n.freeGPUs) ∧
        (∀ (st : AdmitState) (c : Candidate), st.snap = snap → c.surgeShaped = true →
          c.tpuSlice = false → c.placementTargetNodes = plan.placementTargetNodes →
          (∀ name ∈ plan.placementTargetNodes, st.claims.get name = 0 ∧ name ∉ st.landed ∧
            name ∉ st.evacuating ∧ st.nodeCooling name = false) →
          ∃ target placement, st.selectTarget c inst = .ok (target, placement) ∧
            (∀ name, placement.get name = movedTo plan.moves name) ∧
            ∀ name, name ∈ placement.keys ↔ ∃ m ∈ plan.moves, m.targetNode = name) ∧
        ∃ bins, simulateSurgePlan (schedulableBins snap cfg pool) plan.moves = some bins ∧
          (bins.map fun bin => (bin.name, bin.cap)) =
            (schedulableBins snap cfg pool).map (fun bin => (bin.name, bin.cap)) ∧
          ∀ bin ∈ bins, 0 ≤ bin.free ∧ bin.free ≤ bin.cap := by
  obtain ⟨prints, chosen, pool, sound⟩ := planAtomicSurge_sound planned
  refine ⟨sound.covers, ?_, ?_, pool, ?_, ?_, fun name n known => sound.movedTo_le known, ?_,
    sound.simulated⟩
  · intro m member
    exact mem_targets sound.walk _ ((sound.mem_chosen_iff _).mpr ⟨m, member, rfl⟩)
  · intro name listed
    obtain ⟨_, _, _, _, _, apart, _⟩ := sound.targets name listed
    exact apart
  · intro pod isPod
    exact sound.sources _ (sound.pods.mem_iff.mpr (mem_map_of_mem isPod))
  · intro name listed
    obtain ⟨n, inPool, rfl, available, _, _, ready⟩ := sound.targets name listed
    have inPool' := mem_filter.mp inPool
    refine ⟨n, snap.node_eq_some inPool'.1, available, ?_, ready⟩
    exact (by simpa using inPool'.2 : n.gpuPool = pool ∧ 0 < n.totalGPUs).1
  · intro st c sameSnap surge noSlice sameTargets untouched
    exact sound.selected sameSnap surge noSlice sameTargets untouched

/-! ## An instance of two pods -/

def threeNodeSnapshot : ClusterSnapshot where
  nodes := [freeNode "n1",
    { freeNode "n2" with
      freeGPUs := 3
      freeGPUs_nonneg := by decide
      freeGPUs_le := by decide },
    freeNode "n3"]
  distinct := by decide
  workloads := GoMap.ofList [(⟨"d", "w"⟩, some steadyWorkload)]
  models := GoMap.empty

def twoPodInstance : Instance :=
  ⟨0, 1, [gpuPod "n1" 2, gpuPod "n1" 4], GoMap.ofList [("n1", 2)], 6⟩

/-- The larger pod does not fit on the tighter node, the smaller one does. -/
def twoPodPlan : SurgePlan where
  moves := [(gpuPod "n1" 4).footprint.moveTo "n3", (gpuPod "n1" 2).footprint.moveTo "n2"]
  hintTargetNodes := ["n2", "n3"]
  placementTargetNodes := ["n2", "n3"]

def twoPodCandidate : Candidate :=
  { surgeToSecond with placementTargetNodes := twoPodPlan.placementTargetNodes }

theorem twoPodPlan_planned :
    planAtomicSurge threeNodeSnapshot smallConfig steadyWorkload twoPodInstance =
      some twoPodPlan := by
  rfl

/-- The arbiter accepts the plan of the two pods in an otherwise empty call. -/
theorem twoPodPlan_agrees :
    planAtomicSurge threeNodeSnapshot smallConfig steadyWorkload twoPodInstance =
      some twoPodPlan ∧
    ∃ target placement,
      (newAdmitState ⟨none, none⟩ threeNodeSnapshot smallConfig [twoPodCandidate] 0).selectTarget
        twoPodCandidate twoPodInstance = .ok (target, placement) ∧
      ∀ name, placement.get name = movedTo twoPodPlan.moves name := by
  refine ⟨twoPodPlan_planned, ?_⟩
  obtain ⟨_, _, _, _, _, _, _, selects, _⟩ := surge_plan_agrees twoPodPlan_planned
  obtain ⟨target, placement, ok, gets, _⟩ :=
    selects (newAdmitState ⟨none, none⟩ threeNodeSnapshot smallConfig [twoPodCandidate] 0)
      twoPodCandidate rfl rfl rfl rfl (by decide)
  exact ⟨target, placement, ok, gets⟩

end Ome.Alfred
