/-
# Ome.Quota.Writes — what an admitted write may break

The model of the webhook that judges a write to a quota (`acceleratorquota/validator.go`,
`Splice`, `Without` and `Diff`): it builds the tree of the live set and the tree of the set
with the write, and refuses the write if a violation has a key that none had before.

* `admitted_write_keeps`: an admitted write raises no overrun, except on a pair the check does
  not judge or has already reported, and there only as the written object itself does
  (`Raises`);
* `widened_overrun_admitted`: on such pairs a write that raises the overrun is admitted.

The schema of the resource lists each pair once and its names have no blank, so that a key
stands for one pair (`Keyed`).
-/
import Ome.Quota.Containment

namespace Ome.Quota

open Ome.Theory List

set_option autoImplicit false

/-! ## The webhook -/

/-- `Key`: the identity of a violation across builds. -/
def Violation.key (v : Violation) : String × Reason × String := (v.node, v.reason, v.subject)

/-- `Diff`: the violations with a key that is not among the earlier ones. -/
def diff (vs before : List Violation) : List Violation :=
  vs.filter fun v => v.key ∉ before.map Violation.key

def splice (existing : List AcceleratorQuota) (incoming : AcceleratorQuota) :
    List AcceleratorQuota :=
  let out := existing.map fun q => if q.name = incoming.name then incoming else q
  if existing.any (·.name = incoming.name) then out else out ++ [incoming]

def without (existing : List AcceleratorQuota) (name : String) : List AcceleratorQuota :=
  existing.filter (·.name ≠ name)

/-- A request the webhook judges; a create and an update are treated alike. -/
inductive Write where
  | put (incoming : AcceleratorQuota)
  | delete (name : String)

def proposedSet (live : List AcceleratorQuota) : Write → List AcceleratorQuota
  | .put incoming => splice live incoming
  | .delete name => without live name

inductive Response where
  | allowed
  | denied (newly : List Violation)
  | errored (error : BuildError)
  deriving DecidableEq

def handle (opts : Options) (live : List AcceleratorQuota) (write : Write) : Option Response :=
  (build live opts).bind fun before =>
  (build (proposedSet live write) opts).map fun after =>
    match before, after with
    | .error e, _ => .errored e
    | .ok _, .error e => .errored e
    | .ok (_, before), .ok (_, after) =>
      if diff after before ≠ [] then .denied (diff after before) else .allowed

/-! ## Overruns -/

/-- By how much the children of a node exceed its budget for the pair; a node without one
is not bounded. -/
def Tree.overrun (t : Tree) (n resource flavor : String) : ℚ :=
  if (t.quota n).Carries resource flavor then
    max 0 (((t.children n).map fun c => (t.quota c).nominalFor resource flavor).sum -
      (t.quota n).nominalFor resource flavor)
  else 0

variable {quotas : List AcceleratorQuota} {opts : Options} {t : Tree} {vs : List Violation}
  {n resource flavor : String}

theorem build_reports_containment (built : build quotas opts = some (.ok (t, vs)))
    {v : Violation} (found : v ∈ checkContainment t) : v ∈ vs := by
  unfold build at built
  split at built
  · cases built
  · obtain ⟨linked, -, built⟩ := Option.bind_eq_some_iff.mp built
    obtain ⟨resolved, -, built⟩ := Option.bind_eq_some_iff.mp built
    obtain ⟨unreachable, -, built⟩ := Option.bind_eq_some_iff.mp built
    cases built
    exact (sortViolations_perm _).mem_iff.mpr (mem_append_right _ found)

/-- The quota lists the pair once, and no other pair has its key. -/
structure AcceleratorQuota.Keyed (q : AcceleratorQuota) (resource flavor : String) : Prop where
  once : (q.budgets.filter (·.IsFor resource flavor)).length ≤ 1
  pair : ∀ b ∈ q.budgets, b.key = budgetKey resource flavor → b.IsFor resource flavor

theorem AcceleratorQuota.Keyed.total {q : AcceleratorQuota} (keyed : q.Keyed resource flavor) :
    keyTotal q.budgets (budgetKey resource flavor) = q.nominalFor resource flavor := by
  rw [keyTotal, AcceleratorQuota.nominalFor]
  congr 2
  refine filter_congr fun b own => decide_eq_decide.mpr ⟨keyed.pair b own, fun isFor => ?_⟩
  rw [AcceleratorBudget.key, isFor.1, isFor.2]

/-- What the check judges and does not report is not overrun. -/
theorem overrun_eq_zero (built : build quotas opts = some (.ok (t, vs)))
    (schema : ∀ q ∈ quotas, q.Keyed resource flavor) (grouping : t.isLeaf n = false)
    (nonneg : 0 ≤ (t.quota n).nominalFor resource flavor)
    (silent : (n, .containmentViolated, budgetKey resource flavor) ∉ vs.map Violation.key) :
    t.overrun n resource flavor = 0 := by
  obtain ⟨t', vs', ends, assembled, -, linked, -⟩ := build_ends quotas (build_named built)
  cases built.symm.trans ends
  have keyed (m : String) (known : m ∈ t.nodes.keys) : (t.quota m).Keyed resource flavor :=
    schema _ (assembled.quota_mem ((assembled.mem_keys m).mp known)).1
  rw [Tree.overrun]
  split
  · rename_i carries
    obtain ⟨b, own, pair⟩ := carries
    have key : b.key = budgetKey resource flavor := by rw [AcceleratorBudget.key, pair.1, pair.2]
    have known : n ∈ t.nodes.keys := by
      by_contra absent
      rw [Tree.quota, t.nodes.get_absent n absent] at own
      cases own
    have nominal := nominalFor_eq_value own pair (keyed n known).once
    have fits := t.children_fit known grouping own (nominal ▸ nonneg) fun sum found =>
      silent (mem_map.mpr ⟨_, build_reports_containment built found, by rw [← key]; rfl⟩)
    rw [max_eq_left_iff, sub_nonpos, nominal]
    refine le_of_eq_of_le (congrArg sum (map_congr_left fun c child => ?_)) fits
    rw [key, (keyed c (linked.children_known n child)).total]
  · rfl

/-! ## What a write changes -/

def Write.name : Write → String
  | .put incoming => incoming.name
  | .delete name => name

/-- What a node counts against another one: its nominal, if it is its child. -/
def Tree.share (t : Tree) (n c resource flavor : String) : ℚ :=
  if c ∈ t.children n then (t.quota c).nominalFor resource flavor else 0

/-- The written object itself raises the overrun of `n`: it is the node, with a budget for the
pair that is new or smaller, or it counts more against the node. -/
def Raises (before after : Tree) (write : Write) (n resource flavor : String) : Prop :=
  if write.name = n then
    (before.quota n).Carries resource flavor →
      (after.quota n).nominalFor resource flavor < (before.quota n).nominalFor resource flavor
  else before.share n write.name resource flavor < after.share n write.name resource flavor

section

variable {live : List AcceleratorQuota} {write : Write} {before after : Tree} {c : String}

theorem nodeOf_proposedSet (other : n ≠ write.name) :
    nodeOf (proposedSet live write) n = nodeOf live n := by
  cases write with
  | delete name =>
    rw [nodeOf, nodeOf, proposedSet, without, find?_filter]
    congr
    funext q
    by_cases same : q.name = n
    · have apart : ¬ n = name := other
      simp [same, apart]
    · simp [same]
  | put incoming =>
    have apart : ¬ incoming.name = n := Ne.symm other
    have replaced : (live.map fun q => if q.name = incoming.name then incoming else q).find?
        (·.name = n) = live.find? (·.name = n) := by
      induction live with
      | nil => rfl
      | cons q rest ih =>
        rw [map_cons, find?_cons, find?_cons, ih]
        by_cases written : q.name = incoming.name
        · rw [if_pos written, written]
          simp [apart]
        · rw [if_neg written]
    simp only [nodeOf, proposedSet, splice]
    split
    · exact replaced
    · rw [find?_append, replaced]
      simp [apart]

theorem linkOf_proposedSet (other : c ≠ write.name)
    (known : n ∈ nodeNames (proposedSet live write) ↔ n ∈ nodeNames live) :
    linkOf (proposedSet live write) c = some n ↔ linkOf live c = some n := by
  rw [linkOf_eq_some, linkOf_eq_some, parentRefOf, parentRefOf, nodeOf_proposedSet other, known]

variable {rootName : String} (assembled : Assembled live rootName before)
  (assembled' : Assembled (proposedSet live write) rootName after)
include assembled assembled'

theorem quota_proposedSet (other : n ≠ write.name) : after.quota n = before.quota n := by
  rw [assembled'.quota_eq, assembled.quota_eq, nodeOf_proposedSet other]

omit assembled assembled' in
theorem Tree.total_eq (t : Tree) (c : String) :
    ((t.children n).map fun m => (t.quota m).nominalFor resource flavor).sum =
      t.share n c resource flavor + (((t.children n).erase c).map fun m =>
        (t.quota m).nominalFor resource flavor).sum := by
  rw [Tree.share]
  split
  · rename_i child
    exact (sum_map_erase _ child).symm
  · rename_i stranger
    rw [erase_of_not_mem stranger, zero_add]

/-- Beside the written object, a node that is there before and after has the same children,
with the same nominals. -/
theorem others_proposedSet (resource flavor : String)
    (known : n ∈ nodeNames (proposedSet live write) ↔ n ∈ nodeNames live) :
    (((after.children n).erase write.name).map fun c =>
      (after.quota c).nominalFor resource flavor).sum =
    (((before.children n).erase write.name).map fun c =>
      (before.quota c).nominalFor resource flavor).sum := by
  have nodup : (before.children n).Nodup := (assembled.sorted_children n).imp ne_of_lt
  have nodup' : (after.children n).Nodup := (assembled'.sorted_children n).imp ne_of_lt
  have same :
      ((after.children n).erase write.name).Perm ((before.children n).erase write.name) := by
    refine (perm_ext_iff_of_nodup (nodup'.erase _) (nodup.erase _)).mpr fun c => ?_
    rw [nodup'.mem_erase_iff, nodup.mem_erase_iff, assembled'.mem_children, assembled.mem_children]
    exact and_congr_right fun other => linkOf_proposedSet other known
  rw [(same.map _).sum_eq]
  refine congrArg sum (map_congr_left fun c member => ?_)
  rw [quota_proposedSet assembled assembled' (nodup.mem_erase_iff.mp member).1]

omit assembled' in
theorem Assembled.mem_of_carries (carries : (before.quota n).Carries resource flavor) :
    n ∈ nodeNames live := by
  obtain ⟨b, own, -⟩ := carries
  by_contra absent
  rw [Tree.quota, before.nodes.get_absent n (mt (assembled.mem_keys n).mp absent)] at own
  cases own

omit assembled' in
theorem Assembled.share_self : before.share n n resource flavor = 0 := by
  refine if_neg fun child => ?_
  exact (linkOf_eq_some.mp ((assembled.mem_children n n).mp child)).2.1 rfl

/-- **Only the written object raises an overrun.** -/
theorem overrun_of_not_raises (keeps : ¬ Raises before after write n resource flavor) :
    after.overrun n resource flavor ≤ before.overrun n resource flavor ∨
      after.overrun n resource flavor = 0 := by
  by_cases carries' : (after.quota n).Carries resource flavor
  · left
    by_cases own : write.name = n
    · rw [Raises, if_pos own, Classical.not_imp, not_lt] at keeps
      have total := others_proposedSet assembled assembled' resource flavor (iff_of_true
        (assembled'.mem_of_carries carries') (assembled.mem_of_carries keeps.1))
      rw [Tree.overrun, Tree.overrun, if_pos carries', if_pos keeps.1, after.total_eq write.name,
        before.total_eq write.name, total, own, assembled.share_self, assembled'.share_self]
      exact max_le_max le_rfl (sub_le_sub_left keeps.2 _)
    · rw [Raises, if_neg own, not_lt] at keeps
      have quota := quota_proposedSet assembled assembled' (Ne.symm own)
      have total := others_proposedSet assembled assembled' resource flavor
        (by rw [mem_nodeNames, mem_nodeNames, nodeOf_proposedSet (Ne.symm own)])
      rw [Tree.overrun, Tree.overrun, if_pos carries', if_pos (quota ▸ carries'),
        after.total_eq write.name, before.total_eq write.name, total, quota]
      exact max_le_max le_rfl (sub_le_sub_right (add_le_add_left keeps _) _)
  · exact .inr (if_neg carries')

end

/-- **An admitted write raises an overrun only where the check does not judge it**: on a pair
that was already reported, on a leaf, or against a negative nominal, and only as the written
object does. -/
theorem admitted_write_keeps {live : List AcceleratorQuota} {write : Write} {before : Tree}
    {after : Tree} {vs vs' : List Violation}
    (admitted : handle opts live write = some .allowed)
    (found : build live opts = some (.ok (before, vs)))
    (built : build (proposedSet live write) opts = some (.ok (after, vs')))
    (schema : ∀ q ∈ proposedSet live write, q.Keyed resource flavor) :
    after.overrun n resource flavor ≤ before.overrun n resource flavor ∨
      after.overrun n resource flavor = 0 ∨
      ((n, .containmentViolated, budgetKey resource flavor) ∈ vs.map Violation.key ∨
        after.isLeaf n = true ∨ (after.quota n).nominalFor resource flavor < 0) ∧
        Raises before after write n resource flavor := by
  have none : diff vs' vs = [] := by
    by_contra some
    rw [handle, found, built] at admitted
    simp [some] at admitted
  obtain ⟨_, _, ends, assembled, -⟩ := build_ends live (build_named found)
  cases found.symm.trans ends
  obtain ⟨_, _, ends', assembled', -⟩ := build_ends _ (build_named built)
  cases built.symm.trans ends'
  by_cases raises : Raises before after write n resource flavor
  · by_cases judged : (n, .containmentViolated, budgetKey resource flavor) ∈ vs.map Violation.key ∨
        after.isLeaf n = true ∨ (after.quota n).nominalFor resource flavor < 0
    · exact .inr (.inr ⟨judged, raises⟩)
    · rw [not_or, not_or, not_lt, Bool.not_eq_true] at judged
      refine .inr (.inl (overrun_eq_zero built schema judged.2.1 judged.2.2 fun reported =>
        judged.1 ?_))
      obtain ⟨v, isNew, key⟩ := mem_map.mp reported
      have known := filter_eq_nil_iff.mp none v isNew
      rw [← key]
      simpa using known
  · exact (overrun_of_not_raises assembled assembled' raises).imp_right .inl

def tenant (parent : String) (nominal : Int) : AcceleratorQuota :=
  { plainQuota "a" .clusterQueue (some parent) with budgets := [gpuBudget nominal] }

def rootWith (nominal : Int) : AcceleratorQuota :=
  { plainQuota "root" .cohort none with budgets := [gpuBudget nominal] }

/-- A grouping with a budget of two and one tenant. -/
def tightTeam (nominal : Int) : List AcceleratorQuota := [rootWith 2, tenant "root" nominal]

/-- A write to the small set is admitted and takes the overrun of a node from one amount to
another. -/
def Takes (live : List AcceleratorQuota) (write : Write) (n : String) (amount amount' : ℚ) :
    Prop :=
  ∃ before vs after vs', handle ⟨"root", 0⟩ live write = some .allowed ∧
    build live ⟨"root", 0⟩ = some (.ok (before, vs)) ∧
    build (proposedSet live write) ⟨"root", 0⟩ = some (.ok (after, vs')) ∧
    before.overrun n "gpu" "h100" = amount ∧ after.overrun n "gpu" "h100" = amount'

theorem tightTeam_keeps : Takes (tightTeam 1) (.put (tenant "root" 2)) "root" 0 0 := by
  have admitted : handle ⟨"root", 0⟩ (tightTeam 1) (.put (tenant "root" 2)) = some .allowed := by
    decide
  have found : build (tightTeam 1) ⟨"root", 0⟩ = some (.ok (_, [])) := rfl
  have schema : ∀ q ∈ proposedSet (tightTeam 1) (.put (tenant "root" 2)), q.Keyed "gpu" "h100" :=
    fun q member => by constructor <;> revert q <;> decide
  refine ⟨_, _, _, _, admitted, found, rfl, by decide +kernel, ?_⟩
  rcases admitted_write_keeps (n := "root") admitted found rfl schema with kept | zero | ⟨odd, -⟩
  · exact le_antisymm (kept.trans (by decide +kernel)) (le_max_left _ _)
  · exact zero
  · revert odd
    decide +kernel

/-- A leaf with a budget of two and a child, which it may not have. -/
def leafWithChild : List AcceleratorQuota :=
  [plainQuota "root" .cohort none,
    { plainQuota "queue" .clusterQueue (some "root") with budgets := [gpuBudget 2] },
    tenant "queue" 1]

/-- **Overruns an admitted write raises**: one that was reported keeps its key whatever the
amount, a leaf is not checked, and a budget below zero is not compared where no child has one. -/
theorem widened_overrun_admitted :
    Takes (tightTeam 3) (.put (tenant "root" 5)) "root" 1 3 ∧
    Takes leafWithChild (.put (tenant "queue" 5)) "queue" 0 3 ∧
    Takes [rootWith 1, plainQuota "team" .cohort (some "root")] (.put (rootWith (-1))) "root" 0 1 :=
  ⟨⟨_, _, _, _, by decide, rfl, rfl, by decide +kernel, by decide +kernel⟩,
    ⟨_, _, _, _, by decide, rfl, rfl, by decide +kernel, by decide +kernel⟩,
    ⟨_, _, _, _, by decide, rfl, rfl, by decide +kernel, by decide +kernel⟩⟩

end Ome.Quota
