/-
# Ome.Quota.Containment — budgets contain the leaves below them

The containment check compares a node with its children, one level at a time.  On
a tree without a violation it contains every leaf: what the leaves below a node
total for a (resource, flavor) pair is at most the node's own nominal, when the
groupings between them carry the pair too (`leaves_fit_budget`).

Sums are kept under `budgetKey`, which two pairs may share; with nominals that are
not negative a shared key only makes the check stricter (`nominalFor_le_keyTotal`).
-/
import Ome.Quota.Assembly
import Ome.Theory.Forest

namespace Ome.Quota

open Ome.Theory ParentGraph List AcceleratorBudget

set_option autoImplicit false

variable {q : AcceleratorQuota} {b : AcceleratorBudget} {n m : String}

/-! ## Budgets of a pair -/

def AcceleratorBudget.value (b : AcceleratorBudget) : ℚ := b.nominal.dec.value

/-- What a node's budgets for the pair total. -/
def AcceleratorQuota.nominalFor (q : AcceleratorQuota) (resource flavor : String) : ℚ :=
  ((q.budgets.filter (·.IsFor resource flavor)).map value).sum

/-! ## The sums of the check -/

/-- The value under a key of the sums, zero for none. -/
def sumValue (sum : Option Quantity) : ℚ := sum.elim 0 fun q => q.dec.value

/-- What a list of budgets adds under a key. -/
def keyTotal (bs : List AcceleratorBudget) (key : String) : ℚ :=
  ((bs.filter (·.key = key)).map value).sum

theorem sumValue_addBudgets (key : String) : ∀ (bs : List AcceleratorBudget)
    (sums : GoMap String (Option Quantity)),
    sumValue ((bs.foldl addBudget sums).get key) = sumValue (sums.get key) + keyTotal bs key
  | [], sums => by simp [keyTotal]
  | b :: rest, sums => by
    rw [foldl_cons, sumValue_addBudgets key rest, addBudget, GoMap.get_set]
    by_cases same : key = b.key
    · subst same
      rw [if_pos rfl, keyTotal, keyTotal, filter_cons_of_pos (by simp), map_cons,
        sum_cons, ← add_assoc]
      congr 1
      cases sums.get b.key with
      | none => exact (zero_add _).symm
      | some cur => exact Decimal.value_add cur.dec b.nominal.dec
    · rw [if_neg same, keyTotal, keyTotal,
        filter_cons_of_neg (by simpa using Ne.symm same)]

theorem sumValue_childSums (t : Tree) (n : String) (key : String) :
    sumValue ((childSums t n).get key) =
      ((t.children n).map fun c => keyTotal (t.quota c).budgets key).sum := by
  have run : ∀ (cs : List String) (sums : GoMap String (Option Quantity)),
      sumValue ((cs.foldl (fun sums c => (t.quota c).budgets.foldl addBudget sums) sums).get key) =
        sumValue (sums.get key) + (cs.map fun c => keyTotal (t.quota c).budgets key).sum := by
    intro cs
    induction cs with
    | nil => simp
    | cons c rest ih =>
      intro sums
      rw [foldl_cons, ih, sumValue_addBudgets, map_cons, sum_cons, add_assoc]
  rw [childSums, run]
  exact zero_add _

section

variable (nonneg : ∀ b ∈ q.budgets, 0 ≤ b.value)
include nonneg

theorem nominalFor_le_keyTotal (resource flavor : String) :
    q.nominalFor resource flavor ≤ keyTotal q.budgets (budgetKey resource flavor) := by
  rw [AcceleratorQuota.nominalFor, keyTotal]
  refine List.Sublist.sum_le_sum (List.Sublist.map _ (monotone_filter_right _ ?_)) ?_
  · intro b pair
    simp only [decide_eq_true_eq] at pair ⊢
    rw [key, pair.1, pair.2]
  · intro x member
    obtain ⟨b, listed, rfl⟩ := mem_map.mp member
    exact nonneg b (mem_of_mem_filter listed)

theorem nominalFor_nonneg (resource flavor : String) : 0 ≤ q.nominalFor resource flavor := by
  refine sum_nonneg fun x member => ?_
  obtain ⟨b, listed, rfl⟩ := mem_map.mp member
  exact nonneg b (mem_of_mem_filter listed)

theorem value_le_nominalFor (own : b ∈ q.budgets) {resource flavor : String}
    (pair : b.IsFor resource flavor) : b.value ≤ q.nominalFor resource flavor := by
  refine single_le_sum (fun x member => ?_) _ ?_
  · obtain ⟨b, listed, rfl⟩ := mem_map.mp member
    exact nonneg b (mem_of_mem_filter listed)
  · exact mem_map_of_mem (mem_filter.mpr ⟨own, by simpa using pair⟩)

end

theorem nominalFor_eq_value (own : b ∈ q.budgets)
    {resource flavor : String} (pair : b.IsFor resource flavor)
    (single : (q.budgets.filter (·.IsFor resource flavor)).length ≤ 1) :
    q.nominalFor resource flavor = b.value := by
  have member : b ∈ q.budgets.filter (·.IsFor resource flavor) :=
    mem_filter.mpr ⟨own, by simpa using pair⟩
  have only : q.budgets.filter (·.IsFor resource flavor) = [b] := by
    generalize q.budgets.filter (·.IsFor resource flavor) = l at single member
    match l, single, member with
    | [c], _, member => rw [mem_singleton.mp member]
    | _ :: _ :: _, single, _ => simp at single
  rw [AcceleratorQuota.nominalFor, only]
  simp

/-- Where the check reports nothing, the children fit into the budget. -/
theorem Tree.children_fit (t : Tree) (known : n ∈ t.nodes.keys) (grouping : t.isLeaf n = false)
    (own : b ∈ (t.quota n).budgets) (positive : 0 ≤ b.value)
    (silent : ∀ sum, ⟨n, .containmentViolated, b.key, .overrun b.key b.nominal sum⟩ ∉
      checkContainment t) :
    ((t.children n).map fun c => keyTotal (t.quota c).budgets b.key).sum ≤ b.value := by
  by_cases childless : t.children n = []
  · simpa [childless] using positive
  have given : ¬ (t.isLeaf n ∨ t.children n = [] ∨ (t.quota n).budgets = []) := by
    rintro (leaf | none | none)
    · rw [grouping] at leaf
      cases leaf
    · exact childless none
    · rw [none] at own
      cases own
  rw [← sumValue_childSums]
  cases held : (childSums t n).get b.key with
  | none => exact positive
  | some sum =>
    by_contra exceeds
    refine silent sum (mem_flatMap.mpr ⟨n, Tree.mem_names.mpr known, ?_⟩)
    rw [if_neg given]
    refine mem_flatMap.mpr ⟨b, own, ?_⟩
    rw [held]
    simp only [(Decimal.cmp_lt _ _).mpr (not_le.mp exceeds), if_true]
    exact mem_singleton_self _

/-! ## What a clean tree is -/

section Clean

variable {quotas : List AcceleratorQuota} {opts : Options} {t : Tree}
  (assembled : Assembled quotas opts.rootName t) (clean : Clean quotas opts t)

include assembled

theorem Assembled.quota_mem (node : n ∈ nodeNames quotas) :
    t.quota n ∈ quotas ∧ (t.quota n).name = n := by
  obtain ⟨q, held, named⟩ := mem_nodeNames.mp node
  rw [assembled.quota_eq, held]
  exact ⟨mem_of_find?_eq_some held, named⟩

include clean

theorem Clean.graded : Graded t.parent t.depth := by
  intro a b up
  rw [assembled.parent_eq] at up
  obtain ⟨k, level⟩ := Int.eq_ofNat_of_zero_le (clean.placed a (linkOf_mem up))
  obtain ⟨root, leads⟩ := (assembled.depth_eq a k).mp level
  cases leads with
  | root =>
    rw [linkOf, root.2] at up
    cases up
  | @link _ c k up' rest =>
    cases up.symm.trans up'
    rw [level, (assembled.depth_eq b k).mpr ⟨root, rest⟩]
    rfl

theorem Clean.role (node : n ∈ nodeNames quotas) :
    (t.quota n).role = .cohort ∨ (t.quota n).role = .clusterQueue := by
  have checked := flatMap_eq_nil_iff.mp clean.kinds n
    (Tree.mem_names.mpr ((assembled.mem_keys n).mpr node))
  cases role : (t.quota n).role with
  | cohort => exact .inl rfl
  | clusterQueue => exact .inr rfl
  | other text =>
    rw [role] at checked
    cases checked

theorem Clean.childless (node : n ∈ nodeNames quotas) (leaf : t.isLeaf n = true) :
    t.children n = [] := by
  have checked := flatMap_eq_nil_iff.mp clean.kinds n
    (Tree.mem_names.mpr ((assembled.mem_keys n).mpr node))
  have role : (t.quota n).role = .clusterQueue := by simpa [Tree.isLeaf] using leaf
  rw [role] at checked
  exact map_eq_nil_iff.mp (append_eq_nil_iff.mp checked).1

end Clean

/-! ## The roll-up -/

/-- What a leaf adds to the total of the pair. -/
def leafNominal (t : Tree) (resource flavor : String) (n : String) : ℚ :=
  if t.isLeaf n then (t.quota n).nominalFor resource flavor else 0

/-- What the leaves at or below a node total. -/
noncomputable def leafTotal (t : Tree) (resource flavor : String) (n : String) : ℚ :=
  ∑ a ∈ below t.nodes.keys t.parent n, leafNominal t resource flavor a

theorem Tree.Linked.onChain_known {t : Tree} (linked : t.Linked) {a : String}
    (node : n ∈ t.nodes.keys) (chain : OnChain t.parent a n) : a ∈ t.nodes.keys := by
  cases Relation.ReflTransGen.cases_head chain with
  | inl same => exact same ▸ node
  | inr first =>
    obtain ⟨p, up, -⟩ := first
    rw [linked.parent_eq] at up
    exact (Tree.linkOf_known up).1

/-- A walk down lists what lies below, once. -/
theorem Tree.Linked.subtree_below {t : Tree} (linked : t.Linked)
    (node : n ∈ t.nodes.keys) {under : List String} (walked : t.subtree n = some under) :
    under.Nodup ∧ ∀ a, a ∈ under ↔ a ∈ below t.nodes.keys t.parent n := by
  rw [Tree.subtree, if_pos node] at walked
  refine ⟨(descended_of_descend walked).distinct nodup_nil, fun a => ?_⟩
  rw [mem_below, mem_descend linked.mem_children_iff walked]
  exact (and_iff_right_of_imp fun chain => linked.onChain_known node chain).symm

theorem Tree.Linked.sum_leaves {t : Tree} (linked : t.Linked)
    (node : n ∈ t.nodes.keys) {under : List String} (walked : t.subtree n = some under)
    (f : String → ℚ) : ((under.filter t.isLeaf).map f).sum =
      ∑ a ∈ below t.nodes.keys t.parent n, if t.isLeaf a then f a else 0 := by
  classical
  obtain ⟨distinct, members⟩ := linked.subtree_below node walked
  have same : under.toFinset = below t.nodes.keys t.parent n :=
    Finset.ext fun a => mem_toFinset.trans (members a)
  rw [← same, ← sum_toFinset _ (distinct.filter _), toFinset_filter, Finset.sum_filter]

section RollUp

variable {quotas : List AcceleratorQuota} {opts : Options} {t : Tree}
  (assembled : Assembled quotas opts.rootName t) (clean : Clean quotas opts t) (linked : t.Linked)
  {resource flavor : String}

include assembled clean linked

theorem leafTotal_eq (node : m ∈ nodeNames quotas) :
    leafTotal t resource flavor m = leafNominal t resource flavor m +
      ((t.children m).map (leafTotal t resource flavor)).sum :=
  (clean.graded assembled).sum_below linked.mem_children_iff ((assembled.mem_keys m).mpr node)
    (linked.nodup_children m) _

theorem leafTotal_leaf (node : m ∈ nodeNames quotas) (leaf : t.isLeaf m = true) :
    leafTotal t resource flavor m = (t.quota m).nominalFor resource flavor := by
  rw [leafTotal_eq assembled clean linked node, clean.childless assembled node leaf, leafNominal,
    if_pos leaf]
  exact add_zero _

/-- One level: children within their own budgets are within their parent's. -/
theorem grouping_fits (nonneg : ∀ q ∈ quotas, ∀ b ∈ q.budgets, 0 ≤ b.value)
    (node : m ∈ nodeNames quotas) (grouping : t.isLeaf m = false)
    (lower : ∀ c ∈ t.children m,
      leafTotal t resource flavor c ≤ (t.quota c).nominalFor resource flavor)
    (own : b ∈ (t.quota m).budgets) (pair : b.IsFor resource flavor) :
    leafTotal t resource flavor m ≤ b.value := by
  have key : b.key = budgetKey resource flavor := by rw [key, pair.1, pair.2]
  have known (c : String) (child : c ∈ t.children m) : c ∈ nodeNames quotas :=
    (assembled.mem_keys c).mp (linked.children_known m child)
  calc leafTotal t resource flavor m
      = ((t.children m).map (leafTotal t resource flavor)).sum := by
        rw [leafTotal_eq assembled clean linked node, leafNominal, if_neg (by simp [grouping]),
          zero_add]
    _ ≤ ((t.children m).map fun c => keyTotal (t.quota c).budgets b.key).sum := by
        refine sum_le_sum fun c child => (lower c child).trans ?_
        rw [key]
        exact nominalFor_le_keyTotal (nonneg _ (assembled.quota_mem (known c child)).1) _ _
    _ ≤ b.value := t.children_fit ((assembled.mem_keys _).mpr node) grouping own
      (nonneg _ (assembled.quota_mem node).1 b own) (by simp [clean.contained])

omit assembled clean linked in
/-- What no leaf below a node carries totals zero. -/
theorem leafTotal_eq_zero (none : ∀ leaf ∈ below t.nodes.keys t.parent m, t.isLeaf leaf = true →
      ¬ (t.quota leaf).Carries resource flavor) : leafTotal t resource flavor m = 0 := by
  refine Finset.sum_eq_zero fun a under => ?_
  rw [leafNominal]
  split
  · rename_i leaf
    have absent : (t.quota a).budgets.filter (·.IsFor resource flavor) = [] := by
      refine filter_eq_nil_iff.mpr fun b own pair => none a under leaf ⟨b, own, ?_⟩
      simpa using pair
    rw [AcceleratorQuota.nominalFor, absent]
    rfl
  · rfl

/-- Every node below `n` holds what the leaves below it total: the induction from
the leaves up, with the budget of a grouping where a leaf below it needs one. -/
theorem leafTotal_le_nominalFor (nonneg : ∀ q ∈ quotas, ∀ b ∈ q.budgets, 0 ≤ b.value)
    (carried : ∀ m ∈ below t.nodes.keys t.parent n, (t.quota m).role = .cohort →
      (∃ leaf ∈ below t.nodes.keys t.parent m, t.isLeaf leaf = true ∧
        (t.quota leaf).Carries resource flavor) → (t.quota m).Carries resource flavor) :
    ∀ m ∈ t.nodes.keys, OnChain t.parent m n →
      leafTotal t resource flavor m ≤ (t.quota m).nominalFor resource flavor := by
  refine (clean.graded assembled).induction linked.mem_children_iff linked.children_known ?_
  intro m known lower under
  have node := (assembled.mem_keys m).mp known
  have own := nonneg _ (assembled.quota_mem node).1
  rcases clean.role assembled node with cohort | queue
  · have grouping : t.isLeaf m = false := by simp [Tree.isLeaf, cohort]
    by_cases needed : ∃ leaf ∈ below t.nodes.keys t.parent m, t.isLeaf leaf = true ∧
        (t.quota leaf).Carries resource flavor
    · obtain ⟨b, held, pair⟩ := carried m (mem_below.mpr ⟨known, under⟩) cohort needed
      refine (grouping_fits assembled clean linked nonneg node grouping (fun c child => ?_) held
        pair).trans (value_le_nominalFor own held pair)
      exact lower c child (.head ((linked.mem_children_iff c m).mp child) under)
    · rw [leafTotal_eq_zero fun leaf below isLeaf carries =>
        needed ⟨leaf, below, isLeaf, carries⟩]
      exact nominalFor_nonneg own _ _
  · have leaf : t.isLeaf m = true := by simp [Tree.isLeaf, queue]
    exact (leafTotal_leaf assembled clean linked node leaf).le

end RollUp

/-- **Budgets contain the leaves below them.**  On a tree without a violation whose
nominals are not negative, the leaves below a node total at most the budget the node
has for the pair, if every grouping on the way to such a leaf carries the pair. -/
theorem leaves_fit_budget {quotas : List AcceleratorQuota} {opts : Options} {t : Tree}
    (built : build quotas opts = some (.ok (t, []))) {resource flavor : String}
    (single : ∀ q ∈ quotas, (q.budgets.filter (·.IsFor resource flavor)).length ≤ 1)
    (nonneg : ∀ q ∈ quotas, ∀ b ∈ q.budgets, 0 ≤ b.value)
    {n : String} (node : n ∈ nodeNames quotas) {under : List String}
    (walked : t.subtree n = some under)
    (carried : ∀ m ∈ under, (t.quota m).role = .cohort → ∀ lower, t.subtree m = some lower →
      (∃ leaf ∈ lower, t.isLeaf leaf = true ∧ (t.quota leaf).Carries resource flavor) →
      (t.quota m).Carries resource flavor)
    {b : AcceleratorBudget} (own : b ∈ (t.quota n).budgets) (pair : b.IsFor resource flavor) :
    ((under.filter t.isLeaf).map fun leaf => (t.quota leaf).nominalFor resource flavor).sum ≤
      b.value := by
  obtain ⟨assembled, clean, linked, -⟩ := build_clean built
  have known : n ∈ t.nodes.keys := (assembled.mem_keys n).mpr node
  rw [linked.sum_leaves known walked]
  change leafTotal t resource flavor n ≤ b.value
  rcases clean.role assembled node with cohort | queue
  · refine grouping_fits assembled clean linked nonneg node (by simp [Tree.isLeaf, cohort])
      (fun c child => ?_) own pair
    have up := (linked.mem_children_iff c n).mp child
    refine leafTotal_le_nominalFor assembled clean linked nonneg (n := n) ?_ c
      (linked.children_known n child) (.single up)
    intro m under cohort needed
    have held : m ∈ t.nodes.keys := (mem_below.mp under).1
    obtain ⟨lower, walk⟩ := linked.subtree_ends m
    refine carried m (((linked.subtree_below known walked).2 m).mpr under) cohort lower walk ?_
    obtain ⟨leaf, below, rest⟩ := needed
    exact ⟨leaf, ((linked.subtree_below held walk).2 leaf).mpr below, rest⟩
  · rw [leafTotal_leaf assembled clean linked node (by simp [Tree.isLeaf, queue]),
      nominalFor_eq_value own pair (single _ (assembled.quota_mem node).1)]

def gpuBudget (units : Int) : AcceleratorBudget :=
  { (default : AcceleratorBudget) with
    resourceName := "gpu", resourceFlavor := "h100", nominal := ⟨⟨units, 0⟩, .decimalSI⟩ }

/-- A team of two tenants, and a third tenant beside it. -/
def smallFleet : List AcceleratorQuota :=
  [{ plainQuota "root" .cohort none with budgets := [gpuBudget 8] },
    { plainQuota "team" .cohort (some "root") with budgets := [gpuBudget 5] },
    { plainQuota "a" .clusterQueue (some "team") with budgets := [gpuBudget 4] },
    { plainQuota "b" .clusterQueue (some "team") with budgets := [gpuBudget 1] },
    { plainQuota "c" .clusterQueue (some "root") with budgets := [gpuBudget 2] }]

theorem smallFleet_fits : ∃ t under, build smallFleet ⟨"root", 0⟩ = some (.ok (t, [])) ∧
    t.subtree "root" = some under ∧ under.filter t.isLeaf = ["c", "a", "b"] ∧
    ((under.filter t.isLeaf).map fun leaf => (t.quota leaf).nominalFor "gpu" "h100").sum ≤
      (gpuBudget 8).value := by
  have nonneg : ∀ q ∈ smallFleet, ∀ b ∈ q.budgets, 0 ≤ b.value := by
    simp only [value, Decimal.value_nonneg]
    decide
  have built : build smallFleet ⟨"root", 0⟩ = some (.ok (_, [])) := rfl
  refine ⟨_, _, built, rfl, by decide, ?_⟩
  exact leaves_fit_budget (n := "root") built (by decide) nonneg (by decide) rfl
    (fun m member cohort _ _ _ => by clear * - member cohort; revert m; decide)
    (mem_singleton_self _) ⟨rfl, rfl⟩

end Ome.Quota
