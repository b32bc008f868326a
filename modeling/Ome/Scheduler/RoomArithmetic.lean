/-
# Ome.Scheduler.RoomArithmetic — how the room of a node adds up and shrinks

The room of a node is counted in copies of the largest request of the members that fit
it.  The dimensions of a request are CPU, memory, ephemeral storage and the scalar
resources it lists; read through them, the checks of the source are one condition each:

* `fitsRequest_iff`: the node has a pod slot and each dimension of the request free;
* `le_copiesThatFit_iff`: that many copies fit in every dimension;
* `two_le_room_iff`: a node has room for two or more members when that many copies of
  the largest request fit.

The last two hold where no product of a request and the free pod slots leaves the `int64`
range (`NoWrap`).  Then: as many members as a node has room for fit there together
(`holds_of_le_room`), a member still fits where another has just been put if there was room for
two (`fits_after_put`), and the room shrinks by no more than what was taken (`le_room_of_le`).
-/
import Mathlib.Tactic.Linarith
import Ome.Scheduler.Room

namespace Ome.Scheduler

open Ome.Theory List NodeInfo

set_option autoImplicit false

/-! ## Dimensions -/

inductive Dimension where
  | milliCPU
  | memory
  | ephemeralStorage
  | scalar (name : String)
  deriving DecidableEq

/-- What the request asks for in one dimension. -/
def Request.amount (r : Request) : Dimension → Nat
  | .milliCPU => r.milliCPU
  | .memory => r.memory
  | .ephemeralStorage => r.ephemeralStorage
  | .scalar name => r.scalarResources.get name

/-- The dimensions that a request names. -/
def Request.dimensions (r : Request) : List Dimension :=
  .milliCPU :: .memory :: .ephemeralStorage :: r.scalarResources.keys.map .scalar

variable (ni : NodeInfo)

def NodeInfo.free : Dimension → Int
  | .milliCPU => ni.allocatable.milliCPU - ni.requested.milliCPU
  | .memory => ni.allocatable.memory - ni.requested.memory
  | .ephemeralStorage => ni.allocatable.ephemeralStorage - ni.requested.ephemeralStorage
  | .scalar name =>
    ni.allocatable.scalarResources.get name - ni.requested.scalarResources.get name

def NodeInfo.slots : Int := ni.allowedPodNumber - ni.pods

theorem Request.amount_of_not_mem {r : Request} {d : Dimension} (absent : d ∉ r.dimensions) :
    r.amount d = 0 := by
  cases d with
  | scalar name =>
    apply r.scalarResources.get_absent
    intro listed
    apply absent
    simp [dimensions, listed]
  | _ => simp [dimensions] at absent

theorem NodeInfo.fitsRequest_iff (req : Request) :
    ni.fitsRequest req = true ↔
      0 < ni.slots ∧ ∀ d ∈ req.dimensions, (req.amount d : Int) ≤ ni.free d := by
  unfold fitsRequest slots Request.dimensions
  simp only [Bool.and_eq_true, Bool.not_eq_true', Bool.or_eq_false_iff, decide_eq_false_iff_not,
    not_lt, not_le, all_eq_true, mem_cons, mem_map, forall_eq_or_imp,
    forall_exists_index, and_imp, forall_apply_eq_imp_iff₂, Request.amount, free]
  constructor
  · rintro ⟨⟨⟨⟨cpu, memory⟩, storage⟩, slot⟩, scalars⟩
    exact ⟨by omega, cpu, memory, storage, scalars⟩
  · rintro ⟨slot, cpu, memory, storage, scalars⟩
    exact ⟨⟨⟨⟨cpu, memory⟩, storage⟩, by omega⟩, scalars⟩

/-! ## The largest request -/

theorem get_raise (m : GoMap String Nat) (v : Nat) (name k : String) :
    (if m.get name < v then m.set name v else m).get k =
      if k = name then max (m.get name) v else m.get k := by
  by_cases same : k = name
  · subst same
    rw [if_pos rfl]
    split
    · rename_i smaller
      rw [GoMap.get_set_self]
      exact (max_eq_right smaller.le).symm
    · rename_i larger
      exact (max_eq_left (not_lt.mp larger)).symm
  · rw [if_neg same]
    split
    · exact GoMap.get_set_ne m _ same
    · rfl

theorem Request.amount_setMaxResource (r rl : Request) (d : Dimension) :
    (r.setMaxResource rl).amount d = max (r.amount d) (rl.amount d) := by
  cases d with
  | scalar name =>
    show (rl.scalarResources.keys.foldl _ r.scalarResources).get name = _
    rw [GoMap.get_foldl_each (fun name v => max v (rl.scalarResources.get name))
      (fun m name k => get_raise m _ name k) name rl.scalarResources.nodup]
    split
    · rfl
    · rename_i absent
      have none : rl.amount (.scalar name) = 0 := rl.scalarResources.get_absent name absent
      rw [none]
      exact (Nat.max_zero _).symm
  | _ => rfl

theorem amount_foldl_setMaxResource_le_iff {Pod : Type} (request : Pod → Request) (d : Dimension)
    {bound : Nat} : ∀ (pods : List Pod) (r : Request),
      (pods.foldl (fun largest p => largest.setMaxResource (request p)) r).amount d ≤ bound ↔
        r.amount d ≤ bound ∧ ∀ p ∈ pods, (request p).amount d ≤ bound
  | [], r => by simp
  | p :: rest, r => by
    rw [foldl_cons, amount_foldl_setMaxResource_le_iff request d rest,
      Request.amount_setMaxResource, max_le_iff, forall_mem_cons, and_assoc]

/-! ## Copies -/

/-- The bound is exact where the product does not wrap. -/
theorem le_boundCopies_iff {k : Int} (positive : 0 < k) {copies : Int} (free : Int)
    {perCopy : Nat} (exact : perCopy * copies < 2 ^ 63) :
    k ≤ boundCopies copies free perCopy ↔ k ≤ copies ∧ (0 < perCopy → k * perCopy ≤ free) := by
  unfold boundCopies
  by_cases trivially : perCopy = 0 ∨ copies ≤ 0
  · rw [if_pos trivially]
    constructor
    · intro few
      exact ⟨few, fun some => by omega⟩
    · exact fun both => both.1
  · rw [if_neg trivially]
    simp only [not_or, not_le] at trivially
    have some : (0 : Int) < perCopy := by omega
    have product := Int.mul_pos some trivially.2
    rw [wrap64_of_fits (by omega) exact]
    split
    · rename_i tight
      -- no room for all copies: the quotient bounds them
      rw [Int.le_ediv_iff_mul_le some]
      constructor
      · intro fits
        have used : 0 < k * perCopy := Int.mul_pos positive some
        have enough : k * perCopy ≤ free := by
          rcases le_total free 0 with none | _
          · rw [max_eq_right none] at fits
            omega
          · rwa [max_eq_left ‹0 ≤ free›] at fits
        refine ⟨?_, fun _ => enough⟩
        have : perCopy * k < perCopy * copies := by
          rw [mul_comm (perCopy : Int) k]
          omega
        exact (lt_of_mul_lt_mul_left this some.le).le
      · intro both
        exact (both.2 (by omega)).trans (le_max_left _ _)
    · rename_i ample
      -- room for all copies
      constructor
      · intro few
        refine ⟨few, fun _ => ?_⟩
        calc k * (perCopy : Int) ≤ copies * perCopy := mul_le_mul_of_nonneg_right few some.le
          _ = perCopy * copies := mul_comm _ _
          _ ≤ free := not_lt.mp ample
      · exact fun both => both.1

/-- Fewer copies make no larger product. -/
theorem mul_boundCopies_lt {copies : Int} (free : Int) {perCopy : Nat}
    (exact : perCopy * copies < 2 ^ 63) {amount : Nat} (exact' : amount * copies < 2 ^ 63) :
    amount * boundCopies copies free perCopy < 2 ^ 63 := by
  have natural := Int.natCast_nonneg amount
  rcases le_or_gt (boundCopies copies free perCopy) 0 with none | some
  · have := mul_nonpos_of_nonneg_of_nonpos natural none
    omega
  · have fewer := ((le_boundCopies_iff some free exact).mp le_rfl).1
    exact (mul_le_mul_of_nonneg_left fewer natural).trans_lt exact'

theorem le_foldl_boundCopies_iff {k : Int} (positive : 0 < k) (free : Dimension → Int)
    (amount : Dimension → Nat) : ∀ (dimensions : List Dimension) (copies : Int),
      (∀ d, amount d * copies < 2 ^ 63) →
      (k ≤ dimensions.foldl (fun copies d => boundCopies copies (free d) (amount d)) copies ↔
        k ≤ copies ∧ ∀ d ∈ dimensions, 0 < amount d → k * amount d ≤ free d) := by
  intro dimensions
  induction dimensions with
  | nil => intro copies _; simp
  | cons d rest ih =>
    intro copies exact
    rw [foldl_cons, ih _ fun d' => mul_boundCopies_lt _ (exact d) (exact d'),
      le_boundCopies_iff positive _ (exact d)]
    simp only [mem_cons, forall_eq_or_imp]
    exact and_assoc

theorem le_copiesThatFit_iff {k : Int} (positive : 0 < k) {ni : NodeInfo} {request : Request}
    (exact : ∀ d, request.amount d * ni.slots < 2 ^ 63) :
    k ≤ copiesThatFit ni request ↔
      k ≤ ni.slots ∧ ∀ d, 0 < request.amount d → k * request.amount d ≤ ni.free d := by
  have unfolded : copiesThatFit ni request =
      request.dimensions.foldl (fun copies d => boundCopies copies (ni.free d) (request.amount d))
        ni.slots := by
    unfold copiesThatFit Request.dimensions
    simp only [foldl_cons, foldl_map]
    rfl
  rw [unfolded, le_foldl_boundCopies_iff positive _ _ _ _ exact]
  refine and_congr_right fun _ => ⟨fun listed d asks => ?_, fun all d _ => all d⟩
  apply listed d _ asks
  by_contra absent
  rw [Request.amount_of_not_mem absent] at asks
  exact absurd asks (lt_irrefl 0)

/-! ## One more pod -/

theorem NodeInfo.free_addPod (req : Request) (d : Dimension) :
    (ni.addPod req).free d = ni.free d - req.amount d := by
  cases d with
  | scalar name =>
    show _ - (req.scalarResources.keys.foldl _ ni.requested.scalarResources).get name = _
    rw [GoMap.get_foldl_each (fun name (v : Int) => v + req.scalarResources.get name)
      (fun m k j => m.get_set k j _) name req.scalarResources.nodup]
    split
    · exact (sub_sub _ _ _).symm
    · rename_i absent
      have none : req.amount (.scalar name) = 0 := req.scalarResources.get_absent name absent
      rw [none]
      exact (sub_zero _).symm
  | _ => exact (sub_sub _ _ _).symm

theorem NodeInfo.slots_addPod (req : Request) : (ni.addPod req).slots = ni.slots - 1 := by
  show ni.allowedPodNumber - ((ni.pods + 1 : Nat) : Int) = ni.allowedPodNumber - ni.pods - 1
  omega

/-! ## The room of a node -/

section Pods

variable {Pod : Type} {specs : Specs Pod} {nodes : DomainNodes} {pods : List Pod}

theorem nodeFitsPod_iff {node : String} {pod : Pod} :
    nodeFitsPod specs nodes node pod = true ↔
      specs.placeable node pod = true ∧ 0 < (nodes.info node).slots ∧
        ∀ d ∈ (specs.request pod).dimensions,
          ((specs.request pod).amount d : Int) ≤ (nodes.info node).free d := by
  unfold nodeFitsPod
  rw [Bool.and_eq_true, fitsRequest_iff]

theorem amount_le_largestFitting {node : String} {pod : Pod} (member : pod ∈ pods)
    (fits : nodeFitsPod specs nodes node pod = true) (d : Dimension) :
    (specs.request pod).amount d ≤ (largestFitting specs nodes pods node).amount d :=
  ((amount_foldl_setMaxResource_le_iff specs.request d _ _).mp (le_refl _)).2 pod
    (mem_filter.mpr ⟨member, fits⟩)

theorem largestFitting_le {nodes' : DomainNodes} {pods' : List Pod} {node : String}
    (listed : ∀ q ∈ pods', nodeFitsPod specs nodes' node q = true →
      q ∈ pods ∧ nodeFitsPod specs nodes node q = true) (d : Dimension) :
    (largestFitting specs nodes' pods' node).amount d ≤
      (largestFitting specs nodes pods node).amount d := by
  refine (amount_foldl_setMaxResource_le_iff specs.request d _ _).mpr ⟨?_, ?_⟩
  · cases d <;> exact Nat.zero_le _
  · intro q isFitting
    obtain ⟨member, fits⟩ := mem_filter.mp isFitting
    obtain ⟨member', fits'⟩ := listed q member fits
    exact amount_le_largestFitting member' fits' d

/-- The largest request that fits the node, times its free pod slots, stays in the `int64`
range in every dimension. -/
def NoWrap (specs : Specs Pod) (nodes : DomainNodes) (pods : List Pod) (node : String) : Prop :=
  ∀ d, (largestFitting specs nodes pods node).amount d * (nodes.info node).slots < 2 ^ 63

/-- A load and fewer members make no product larger. -/
theorem NoWrap.of_le {node : String} (exact : NoWrap specs nodes pods node)
    {nodes' : DomainNodes} {pods' : List Pod}
    (listed : ∀ q ∈ pods', nodeFitsPod specs nodes' node q = true →
      q ∈ pods ∧ nodeFitsPod specs nodes node q = true)
    (slots : (nodes'.info node).slots ≤ (nodes.info node).slots) :
    NoWrap specs nodes' pods' node := by
  intro d
  have smaller := Int.ofNat_le.mpr (largestFitting_le listed d)
  rcases le_or_gt (nodes'.info node).slots 0 with none | some
  · have := mul_nonpos_of_nonneg_of_nonpos (Int.natCast_nonneg
      ((largestFitting specs nodes' pods' node).amount d)) none
    omega
  · exact (mul_le_mul smaller slots some.le (by omega)).trans_lt (exact d)

/-- How many members may share a node at most. -/
def perNode (specs : Specs Pod) (pods : List Pod) (need : Int) : Int :=
  if membersMustStayApart specs pods then 1 else need

theorem room_pos_iff (need : Int) {node : String} :
    0 < (newGangRoom specs nodes pods need).room node ↔
      ∃ pod ∈ pods, nodeFitsPod specs nodes node pod = true := by
  show 0 < (if pods.any _ then _ else 0) ↔ _
  rw [← any_eq_true]
  split
  · rename_i some
    simp [some]
  · rename_i none
    simp [none]

theorem le_perNode_of_le_room {need : Int} {node : String} {k : Nat} (several : 2 ≤ k)
    (room : k ≤ (newGangRoom specs nodes pods need).room node) :
    (k : Int) ≤ perNode specs pods need := by
  change k ≤ (if pods.any _ then (max 1 (min (perNode specs pods need) _)).toNat else 0) at room
  split at room <;> omega

/-- Room for two or more members is room for that many copies of the largest request. -/
theorem two_le_room_iff {need : Int} {node : String} {k : Nat} (several : 2 ≤ k)
    (exact : NoWrap specs nodes pods node) :
    k ≤ (newGangRoom specs nodes pods need).room node ↔
      (∃ pod ∈ pods, nodeFitsPod specs nodes node pod = true) ∧
      (k : Int) ≤ perNode specs pods need ∧ (k : Int) ≤ (nodes.info node).slots ∧
      ∀ d, 0 < (largestFitting specs nodes pods node).amount d →
        k * ((largestFitting specs nodes pods node).amount d : Int) ≤ (nodes.info node).free d := by
  rw [← le_copiesThatFit_iff (by omega) exact, ← room_pos_iff need]
  show k ≤ (if pods.any _ then (max 1 (min (perNode specs pods need) _)).toNat else 0) ↔
    0 < (if pods.any _ then (max 1 (min (perNode specs pods need) _)).toNat else 0) ∧ _
  split
  · omega
  · omega

/-- The requests fit beside the node's load, all of them at once: there is a pod slot for
each, and in each dimension that one of them names they ask for no more than is free. -/
def NodeInfo.Holds (requests : List Request) : Prop :=
  (requests.length : Int) ≤ ni.slots ∧
    ∀ d, (∃ r ∈ requests, d ∈ r.dimensions) →
      ((requests.map fun r => (r.amount d : Int)).sum ≤ ni.free d)

/-- As many members as there is room for, of those that fit the node, fit it together. -/
theorem holds_of_le_room {pods : List Pod} (need : Int) {node : String}
    (exact : NoWrap specs nodes pods node) {members : List Pod} (some : members ≠ [])
    (listed : ∀ m ∈ members, m ∈ pods)
    (fit : ∀ m ∈ members, nodeFitsPod specs nodes node m = true)
    (few : members.length ≤ (newGangRoom specs nodes pods need).room node) :
    (nodes.info node).Holds (members.map specs.request) := by
  by_cases one : members.length = 1
  · obtain ⟨m, rfl⟩ := length_eq_one_iff.mp one
    obtain ⟨_, slot, free⟩ := nodeFitsPod_iff.mp (fit m mem_cons_self)
    constructor
    · show (1 : Int) ≤ _
      omega
    · rintro d ⟨r, isMember, asked⟩
      obtain rfl : r = specs.request m := by simpa using isMember
      simpa using free d asked
  · have several : 2 ≤ members.length := by
      have := length_pos_iff.mpr some
      omega
    obtain ⟨_, _, slots, free⟩ := (two_le_room_iff several exact).mp few
    constructor
    · simpa using slots
    · rintro d ⟨_, isRequest, asked⟩
      obtain ⟨m, isMember, rfl⟩ := mem_map.mp isRequest
      have each : ∀ x ∈ (members.map specs.request).map fun r => (r.amount d : Int),
          x ≤ (largestFitting specs nodes pods node).amount d := by
        intro x isAmount
        simp only [map_map, mem_map, Function.comp_apply] at isAmount
        obtain ⟨q, isOne, rfl⟩ := isAmount
        exact Int.ofNat_le.mpr (amount_le_largestFitting (listed q isOne) (fit q isOne) d)
      have sum := sum_le_card_nsmul _ _ each
      rw [length_map, length_map, nsmul_eq_mul] at sum
      by_cases asks : 0 < (largestFitting specs nodes pods node).amount d
      · exact sum.trans (free d asks)
      · -- nobody asks for any of it, and the check of the member that names it has passed
        have none : (largestFitting specs nodes pods node).amount d = 0 := by omega
        rw [none, Nat.cast_zero, mul_zero] at sum
        have passed := (nodeFitsPod_iff.mp (fit m isMember)).2.2 d asked
        omega

/-! ## After a member is put -/

variable {node : String} {p : Pod}

theorem info_put_self : (nodes.put specs node p).info node =
    (nodes.info node).addPod (specs.request p) :=
  Function.update_self _ _ _

theorem info_put_of_ne {other : String} (isOther : other ≠ node) :
    (nodes.put specs node p).info other = nodes.info other :=
  Function.update_of_ne isOther _ _

theorem slots_put_le (other : String) :
    ((nodes.put specs node p).info other).slots ≤ (nodes.info other).slots := by
  by_cases same : other = node
  · rw [same, info_put_self, slots_addPod]
    omega
  · rw [info_put_of_ne same]

/-- A load only takes away: what fits a node after the member is put fitted before. -/
theorem fits_of_fits_put {other : String} {q : Pod}
    (fits : nodeFitsPod specs (nodes.put specs node p) other q = true) :
    nodeFitsPod specs nodes other q = true := by
  by_cases same : other = node
  · subst same
    rw [nodeFitsPod_iff, info_put_self, slots_addPod] at fits
    obtain ⟨placeable, slot, free⟩ := fits
    rw [nodeFitsPod_iff]
    refine ⟨placeable, by omega, fun d asked => ?_⟩
    have left := free d asked
    rw [free_addPod] at left
    omega
  · rw [nodeFitsPod_iff, info_put_of_ne same] at fits
    exact nodeFitsPod_iff.mpr fits

theorem fits_after_put (need : Int) (exact : NoWrap specs nodes pods node) {q : Pod}
    (member : p ∈ pods) (member' : q ∈ pods)
    (fits : nodeFitsPod specs nodes node p = true) (fits' : nodeFitsPod specs nodes node q = true)
    (room : 2 ≤ (newGangRoom specs nodes pods need).room node) :
    nodeFitsPod specs (nodes.put specs node p) node q = true := by
  obtain ⟨_, _, slots, free⟩ := (two_le_room_iff (Nat.le_refl 2) exact).mp room
  rw [nodeFitsPod_iff, info_put_self, slots_addPod]
  obtain ⟨placeable, _, alone⟩ := nodeFitsPod_iff.mp fits'
  refine ⟨placeable, by omega, fun d asked => ?_⟩
  rw [free_addPod]
  have first := amount_le_largestFitting member fits d
  have second := amount_le_largestFitting member' fits' d
  have here := alone d asked
  by_cases asks : 0 < (largestFitting specs nodes pods node).amount d
  · have twice := free d asks
    omega
  · omega

/-- The room for what is left.  If the node had room for `taken` more members than these,
and lost no more than that many of the largest request, it still has room for them. -/
theorem le_room_of_le {pods : List Pod} (need : Int) (taken : Nat) {need' : Int}
    {nodes' : DomainNodes} {pods' : List Pod} {k : Nat} (exact : NoWrap specs nodes pods node)
    (room : k + taken ≤ (newGangRoom specs nodes pods need).room node)
    (listed : ∀ q ∈ pods', nodeFitsPod specs nodes' node q = true →
      q ∈ pods ∧ nodeFitsPod specs nodes node q = true)
    (most : (nodes'.info node).slots ≤ (nodes.info node).slots)
    (slots : (nodes.info node).slots - taken ≤ (nodes'.info node).slots)
    (free : ∀ d, (nodes.info node).free d -
      taken * (largestFitting specs nodes pods node).amount d ≤ (nodes'.info node).free d)
    (some : 0 < k → ∃ q ∈ pods', nodeFitsPod specs nodes' node q = true)
    (may : (k : Int) ≤ perNode specs pods' need') :
    k ≤ (newGangRoom specs nodes' pods' need').room node := by
  by_cases few : k ≤ 1
  · by_cases none : k = 0
    · omega
    · have positive := (room_pos_iff need').mpr (some (by omega))
      omega
  · have several : 2 ≤ k := by omega
    obtain ⟨_, _, slots', free'⟩ := (two_le_room_iff (by omega) exact).mp room
    refine (two_le_room_iff several (exact.of_le listed most)).mpr
      ⟨some (by omega), may, by omega, fun d asks => ?_⟩
    have smaller := largestFitting_le listed d
    have all := free' d (by omega)
    have left := free d
    push_cast at all
    calc (k : Int) * (largestFitting specs nodes' pods' node).amount d
        ≤ k * (largestFitting specs nodes pods node).amount d :=
          mul_le_mul_of_nonneg_left (Int.ofNat_le.mpr smaller) (Int.natCast_nonneg k)
      _ ≤ (nodes.info node).free d - taken * (largestFitting specs nodes pods node).amount d := by
          linarith
      _ ≤ (nodes'.info node).free d := left

end Pods

end Ome.Scheduler
