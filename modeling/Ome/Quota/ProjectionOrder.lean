/-
# Ome.Quota.ProjectionOrder — a projected tree can be applied one object at a time

`projectFor` succeeds on every set of leaves of a clean tree, and its copies keep
the place of their sources (`Copy`).  With a bare root, any part of the copies that
holds the parents of what it holds is accepted by `build` again
(`build_accepts_copies`), and the order of the result makes every part from its
start such a part.
-/
import Ome.Quota.Containment
import Ome.Quota.Projection
import Ome.Theory.StableSort

namespace Ome.Quota

open Ome.Theory ParentGraph List AcceleratorBudget

set_option autoImplicit false

variable {n leaf : String}

/-- What a member creates by itself. -/
def bareRoot (rootName : String) : AcceleratorQuota := plainQuota rootName .cohort none

/-- A copy keeps the place of its source and nothing of its split. -/
structure Copy (t : Tree) (copy : AcceleratorQuota) : Prop where
  known : copy.name ∈ t.nodes.keys
  role : copy.role = (t.quota copy.name).role
  parentRef : copy.parentRef = (t.quota copy.name).parentRef
  untiered : copy.role ≠ .clusterQueue → copy.priorityTier = ""
  unbudgeted : copy.role ≠ .clusterQueue → copy.budgets = []
  budgeted : copy.role = .clusterQueue → copy.budgets ≠ []
  undistributed : copy.distribution = none
  resolved : ∀ b ∈ copy.budgets, b.policy = .unset ∧ b.perCluster = []

/-! ## Rendering -/

def AcceleratorBudget.share (b : AcceleratorBudget) : (String × String) × Quantity :=
  (b.pair, b.nominal)

def Allowance.share (a : Allowance) : (String × String) × Quantity :=
  ((a.resourceName, a.resourceFlavor), a.nominal)

theorem groupAllowances_ok {t : Tree} : ∀ (allowances : List Allowance)
    (byNode : GoMap String (List Allowance)),
    (∀ a ∈ allowances, a.node ∈ t.nodes.keys ∧ t.isLeaf a.node = true) →
    ∃ byNode', groupAllowances t allowances byNode = .ok byNode' ∧ ∀ n,
      byNode'.get n = byNode.get n ++ allowances.filter (·.node = n) ∧
      (n ∈ byNode'.keys ↔ n ∈ byNode.keys ∨ ∃ a ∈ allowances, a.node = n)
  | [], byNode, _ => ⟨byNode, rfl, by simp⟩
  | a :: rest, byNode, leaves => by
    rw [forall_mem_cons] at leaves
    obtain ⟨byNode', grouped, entries⟩ := groupAllowances_ok rest
      (byNode.set a.node (byNode.get a.node ++ [a])) leaves.2
    refine ⟨byNode', ?_, fun n => ?_⟩
    · rw [groupAllowances, if_neg (not_not.mpr leaves.1.1), if_neg (not_not.mpr leaves.1.2),
        grouped]
    · obtain ⟨given, keys⟩ := entries n
      rw [given, keys, GoMap.get_set, GoMap.mem_keys_set]
      by_cases same : n = a.node
      · subst same
        simp
      · have other : a.node ≠ n := Ne.symm same
        simp [same, other]

theorem pairBudgets_ok {src : AcceleratorQuota} : ∀ (given : List Allowance),
    (∀ a ∈ given, src.Carries a.resourceName a.resourceFlavor) →
    ∃ budgets, pairBudgets src given = .ok budgets ∧
      budgets.map share = given.map Allowance.share ∧
      ∀ b ∈ budgets, b.policy = .unset ∧ b.perCluster = []
  | [], _ => ⟨[], rfl, rfl, by simp⟩
  | a :: rest, carried => by
    rw [forall_mem_cons] at carried
    obtain ⟨budgets, paired, shares, resolved⟩ := pairBudgets_ok rest carried.2
    obtain ⟨b, own, pair⟩ := carried.1
    have some : (sourceBudget src a.resourceName a.resourceFlavor).isSome := by
      rw [sourceBudget, List.getLast?_isSome]
      exact ne_nil_of_mem (mem_filter.mpr ⟨own, by simpa using pair⟩)
    obtain ⟨source, found⟩ := Option.isSome_iff_exists.mp some
    have isFor : source.IsFor a.resourceName a.resourceFlavor := by
      simpa using (mem_filter.mp (mem_of_getLast? found)).2
    refine ⟨projectBudget source a :: budgets, ?_, ?_, ?_⟩
    · simp only [pairBudgets, found, paired]
      rfl
    · rw [map_cons, map_cons, shares]
      exact congrArg (· :: _) (Prod.ext (Prod.ext isFor.1 isFor.2) rfl)
    · rw [forall_mem_cons]
      exact ⟨⟨rfl, rfl⟩, resolved⟩

section Render

variable {t : Tree} (cluster : String) (opts : ProjectionOptions)

/-- The copy of a node; a leaf needs allowances for budgets it carries. -/
theorem render_ok (known : n ∈ t.nodes.keys) (named : (t.quota n).name = n)
    {given : List Allowance}
    (carried : t.isLeaf n = true → given ≠ [] ∧
      ∀ a ∈ given, (t.quota n).Carries a.resourceName a.resourceFlavor) :
    ∃ copy, render t n cluster given opts = .ok copy ∧ copy.name = n ∧ Copy t copy ∧
      (copy.role = .clusterQueue →
        (copy.budgets.map share).Perm (given.map Allowance.share)) := by
  rw [render]
  by_cases leaf : t.isLeaf n = true
  · obtain ⟨some, carried⟩ := carried leaf
    obtain ⟨budgets, paired, shares, resolved⟩ := pairBudgets_ok given carried
    have role : (t.quota n).role = .clusterQueue := by simpa [Tree.isLeaf] using leaf
    rw [if_neg (not_not.mpr leaf), projectBudgets, paired]
    have held := (perm_insertionSort (fun a b => ¬ PairLess b.pair a.pair) budgets).map
      share
    rw [shares] at held
    refine ⟨_, rfl, named, ?_, fun _ => held⟩
    refine ⟨by rwa [named], by rw [named], by rw [named], fun other => absurd role other,
      fun other => absurd role other, fun _ empty => some ?_, rfl, fun b listed => ?_⟩
    · have same := held.length_eq
      rw [length_map, length_map] at same
      exact length_eq_zero_iff.mp (same.symm.trans (congrArg length empty))
    · exact resolved b ((mem_insertionSort _).mp listed)
  · have role : (t.quota n).role ≠ .clusterQueue := by simpa [Tree.isLeaf] using leaf
    rw [if_pos leaf]
    refine ⟨_, rfl, named, ?_, fun queue => absurd queue role⟩
    exact ⟨by rwa [named], by rw [named], by rw [named], fun _ => rfl, fun _ => rfl,
      fun queue => absurd queue role, rfl, fun b listed => absurd listed not_mem_nil⟩

theorem renderAll_ok {byNode : GoMap String (List Allowance)} : ∀ (ns : List String),
    (∀ n ∈ ns, n ∈ t.nodes.keys ∧ (t.quota n).name = n ∧ (t.isLeaf n = true → byNode.get n ≠ [] ∧
      ∀ a ∈ byNode.get n, (t.quota n).Carries a.resourceName a.resourceFlavor)) →
    ∃ copies, renderAll t cluster byNode opts ns = .ok copies ∧
      copies.map AcceleratorQuota.name = ns ∧ ∀ copy ∈ copies, Copy t copy ∧
        (copy.role = .clusterQueue → (copy.budgets.map share).Perm
          ((byNode.get copy.name).map Allowance.share))
  | [], _ => ⟨[], rfl, rfl, by simp⟩
  | n :: rest, each => by
    rw [forall_mem_cons] at each
    obtain ⟨known, named, carried⟩ := each.1
    obtain ⟨copy, rendered, same, isCopy, shares⟩ := render_ok cluster opts known named carried
    obtain ⟨copies, run, names, all⟩ := renderAll_ok rest each.2
    refine ⟨copy :: copies, ?_, by rw [map_cons, same, names], ?_⟩
    · simp only [renderAll, rendered, run]
      rfl
    · rw [forall_mem_cons]
      exact ⟨⟨isCopy, same ▸ shares⟩, all⟩

end Render

theorem foldl_insert (ns : List String) : ∀ (l : List String), l.Nodup →
    (ns.foldl (fun l a => l.insert a) l).Nodup ∧
      ∀ n, n ∈ ns.foldl (fun l a => l.insert a) l ↔ n ∈ l ∨ n ∈ ns := by
  induction ns with
  | nil => simp
  | cons a rest ih =>
    intro l distinct
    obtain ⟨nodup, mem⟩ := ih (l.insert a) (distinct.insert)
    refine ⟨nodup, fun n => ?_⟩
    rw [foldl_cons, mem, mem_insert_iff, mem_cons]
    tauto

section Included

variable {quotas : List AcceleratorQuota} {opts : Options} {t : Tree}
  (assembled : Assembled quotas opts.rootName t) (clean : Clean quotas opts t) (linked : t.Linked)
  (measured : t.Measured opts.rootName)

include assembled clean linked measured

/-- What is included: the leaves, and what lies between them and the root. -/
theorem includeTiers_ok : ∀ (leaves included : List String),
    (∀ leaf ∈ leaves, leaf ∈ t.nodes.keys) → included.Nodup →
    ∃ included', leaves.foldlM (includeTiers t) included = some included' ∧ included'.Nodup ∧
      ∀ n, n ∈ included' ↔ n ∈ included ∨ ∃ leaf ∈ leaves, n = leaf ∨
        n ≠ leaf ∧ OnChain t.parent leaf n ∧ t.parent n ≠ none
  | [], included, _, distinct => ⟨included, rfl, distinct, by simp⟩
  | leaf :: rest, included, known, distinct => by
    rw [forall_mem_cons] at known
    have placed := clean.placed leaf ((assembled.mem_keys leaf).mp known.1)
    obtain ⟨up, ancestors, members⟩ := linked.mem_ancestors measured placed
    obtain ⟨nodup, mem⟩ := foldl_insert (up.filter (t.parent · ≠ none)) (included.insert leaf)
      distinct.insert
    obtain ⟨included', run, distinct', mem'⟩ := includeTiers_ok rest _ known.2 nodup
    refine ⟨included', ?_, distinct', fun n => ?_⟩
    · rw [foldlM_cons, includeTiers, ancestors]
      exact run
    · rw [mem', mem, mem_insert_iff, mem_filter, members]
      simp only [mem_cons, exists_eq_or_imp, decide_eq_true_eq]
      rw [and_assoc, @or_comm (n = leaf), or_assoc, or_assoc, or_assoc]

omit assembled in
theorem Clean.root_of_parentless (node : n ∈ nodeNames quotas)
    (parentless : t.parent n = none) : n = opts.rootName := by
  have resolved := measured.resolved (clean.placed n node)
  exact resolved.2 (resolved.1.trans (linked.parent_eq ▸ parentless))

end Included

/-! ## Parts of the copies -/

/-- A root and copies, with the parent of every copy among them. -/
structure Partial (t : Tree) (rootName : String) (live : List AcceleratorQuota) : Prop where
  distinct : (nodeNames live).Nodup
  root : bareRoot rootName ∈ live
  copies : ∀ q ∈ live, q = bareRoot rootName ∨ q.name ≠ rootName ∧ Copy t q
  closed : ∀ q ∈ live, ∀ p, t.parent q.name = some p → p ∈ nodeNames live

theorem nodeOf_of_mem {live : List AcceleratorQuota} (distinct : (nodeNames live).Nodup)
    {q : AcceleratorQuota} (member : q ∈ live) : nodeOf live q.name = some q :=
  find?_key distinct member

namespace Partial

variable {quotas live : List AcceleratorQuota} {opts : Options} {t t' : Tree}
  (part : Partial t opts.rootName live) (assembled : Assembled quotas opts.rootName t)
  (clean : Clean quotas opts t) (linked : t.Linked) (measured : t.Measured opts.rootName)
  (assembled' : Assembled live opts.rootName t')

include part

theorem hasRoot : HasRoot live opts.rootName := by
  have found : nodeOf live opts.rootName = some (bareRoot opts.rootName) :=
    nodeOf_of_mem part.distinct part.root
  refine ⟨mem_nodeNames.mpr ⟨_, found, rfl⟩, ?_⟩
  rw [parentRefOf, found]
  rfl

include assembled' in
theorem quota_cases (node : n ∈ nodeNames live) :
    n = opts.rootName ∧ t'.quota n = bareRoot opts.rootName ∨
      n ≠ opts.rootName ∧ (t'.quota n).name = n ∧ Copy t (t'.quota n) := by
  obtain ⟨q, member, rfl⟩ := mem_map.mp node
  have quota : t'.quota q.name = q := by
    rw [assembled'.quota_eq, nodeOf_of_mem part.distinct member]
    rfl
  rw [quota]
  rcases part.copies q member with rfl | ⟨other, copy⟩
  · exact .inl ⟨rfl, rfl⟩
  · exact .inr ⟨other, rfl, copy⟩

include linked in
theorem linkOf_of_parent {p : String} (node : n ∈ nodeNames live) (other : n ≠ opts.rootName)
    (up : t.parent n = some p) : linkOf live n = some p := by
  obtain ⟨q, member, rfl⟩ := mem_map.mp node
  rcases part.copies q member with rfl | ⟨-, copy⟩
  · exact absurd rfl other
  have closed := part.closed q member p up
  rw [linked.parent_eq] at up
  obtain ⟨given, apart⟩ := Option.filter_eq_some_iff.mp up
  simp only [decide_eq_true_eq] at apart
  refine linkOf_eq_some.mpr ⟨?_, apart.1, closed⟩
  rw [parentRefOf, nodeOf_of_mem part.distinct member, Option.bind_some, copy.parentRef, given]

include linked in
theorem leads_live {k : Nat} (rootless : (t.quota opts.rootName).parentRef = none)
    (leads : Leads t.linkOf opts.rootName n k) (node : n ∈ nodeNames live) :
    Leads (linkOf live) opts.rootName n k := by
  induction leads with
  | root => exact .root
  | @link a b k up _ ih =>
    have other : a ≠ opts.rootName := by
      rintro rfl
      rw [Tree.linkOf, rootless] at up
      cases up
    rw [← linked.parent_eq] at up
    have above := part.linkOf_of_parent linked node other up
    exact .link above (ih (linkOf_eq_some.mp above).2.2)

include assembled in
theorem known (node : n ∈ nodeNames live) (other : n ≠ opts.rootName) : n ∈ nodeNames quotas := by
  obtain ⟨q, member, rfl⟩ := mem_map.mp node
  rcases part.copies q member with rfl | ⟨-, copy⟩
  · exact absurd rfl other
  · exact (assembled.mem_keys _).mp copy.known

include assembled clean linked measured assembled'

theorem depth_eq (node : n ∈ nodeNames live) :
    t'.depth n = 0 ∨ n ∈ nodeNames quotas ∧ 0 ≤ t'.depth n ∧ t'.depth n = t.depth n := by
  by_cases root : n = opts.rootName
  · exact .inl ((assembled'.depth_eq n 0).mpr ⟨part.hasRoot, root ▸ .root⟩)
  · have known := part.known assembled node root
    obtain ⟨k, level⟩ := Int.eq_ofNat_of_zero_le (clean.placed n known)
    obtain ⟨⟨-, rootless⟩, leads⟩ := (measured.depth_eq n k).mp level
    have same := (assembled'.depth_eq n k).mpr
      ⟨part.hasRoot, part.leads_live linked rootless leads node⟩
    exact .inr ⟨known, same ▸ Int.natCast_nonneg k, same.trans level.symm⟩

/-- What no child of a leaf can be: its source would hang below a leaf. -/
theorem leaf_childless (node : n ∈ nodeNames live) (other : n ≠ opts.rootName)
    (leaf : (t.quota n).role = .clusterQueue) : t'.children n = [] := by
  refine eq_nil_iff_forall_not_mem.mpr fun c child => ?_
  have up := (assembled'.mem_children c n).mp child
  have below := linkOf_mem up
  have apart : c ≠ opts.rootName := by
    rintro rfl
    rw [linkOf, part.hasRoot.2] at up
    cases up
  have known := part.known assembled below apart
  have hangs : t.parent c ≠ none := fun parentless =>
    apart (clean.root_of_parentless linked measured known parentless)
  obtain ⟨p, above⟩ := Option.ne_none_iff_exists'.mp hangs
  cases up.symm.trans (part.linkOf_of_parent linked below apart above)
  have none := clean.childless assembled (part.known assembled node other)
    (by simpa [Tree.isLeaf] using leaf)
  have listed := (linked.mem_children_iff c n).mpr above
  rw [none] at listed
  cases listed

theorem shallow : checkDepth t' opts.maxDepth = [] := by
  rw [checkDepth]
  split
  · rfl
  rename_i limited
  refine map_eq_nil_iff.mpr (filter_eq_nil_iff.mpr fun n member => ?_)
  have node := (assembled'.mem_keys n).mp (Tree.mem_names.mp member)
  rcases part.depth_eq assembled clean linked measured assembled' node with
    zero | ⟨known, -, same⟩
  · rw [zero]
    simpa using Int.le_of_lt (Int.not_le.mp limited)
  · have all := clean.shallow
    rw [checkDepth, if_neg limited] at all
    rw [same]
    exact filter_eq_nil_iff.mp (map_eq_nil_iff.mp all) n
      (Tree.mem_names.mpr ((assembled.mem_keys n).mpr known))

theorem kinds : checkNodeKind t' = [] := by
  refine flatMap_eq_nil_iff.mpr fun n member => ?_
  have node := (assembled'.mem_keys n).mp (Tree.mem_names.mp member)
  rcases part.quota_cases assembled' node with ⟨-, root⟩ | ⟨other, named, copy⟩
  · rw [root]
    rfl
  have role := copy.role
  rw [named] at role
  rcases clean.role assembled (part.known assembled node other) with grouping | leaf
  · have cohort := role.trans grouping
    have grouped : (t'.quota n).role ≠ .clusterQueue := by
      rw [cohort]
      decide
    rw [cohort]
    simp [checkCohortNode, cohortFields, copy.untiered grouped, copy.undistributed,
      copy.unbudgeted grouped]
  · have queue := role.trans leaf
    rw [queue]
    simp [checkClusterQueueNode, copy.budgeted queue,
      part.leaf_childless assembled clean linked measured assembled' node other leaf]

/-- A part passes every check: its groupings have no budget to contain anything. -/
theorem passes : Clean live opts t' := by
  refine ⟨part.distinct, fun n node => ?_,
    part.shallow assembled clean linked measured assembled',
    part.kinds assembled clean linked measured assembled', ?_⟩
  · rcases part.depth_eq assembled clean linked measured assembled' node with
      zero | ⟨-, placed, -⟩
    · exact zero ▸ Int.le_refl 0
    · exact placed
  · refine flatMap_eq_nil_iff.mpr fun n member => if_pos ?_
    have node := (assembled'.mem_keys n).mp (Tree.mem_names.mp member)
    rcases part.quota_cases assembled' node with ⟨-, root⟩ | ⟨-, -, copy⟩
    · rw [root]
      exact .inr (.inr rfl)
    · by_cases leaf : (t'.quota n).role = .clusterQueue
      · exact .inl (by simpa [Tree.isLeaf] using leaf)
      · exact .inr (.inr (copy.unbudgeted leaf))

end Partial

/-! ## Prefixes of a projection -/

section Applied

variable {quotas : List AcceleratorQuota} {opts : Options} {t : Tree}
  (assembled : Assembled quotas opts.rootName t) (clean : Clean quotas opts t) (linked : t.Linked)
  (measured : t.Measured opts.rootName)

/-- What a projection holds. -/
structure Projected (t : Tree) (rootName : String) (out : List AcceleratorQuota) : Prop where
  distinct : (nodeNames out).Nodup
  sorted : out.Pairwise fun a b => ¬ ShallowerLess t b a
  copies : ∀ q ∈ out, q.name ≠ rootName ∧ Copy t q
  closed : ∀ q ∈ out, ∀ p, t.parent q.name = some p → p = rootName ∨ p ∈ nodeNames out

/-- Every allowance is on the copy of its node, and the copy of a leaf holds no other. -/
structure Renders (allowances : List Allowance) (out : List AcceleratorQuota) : Prop where
  placed : ∀ a ∈ allowances, a.node ∈ nodeNames out
  shares : ∀ copy ∈ out, copy.role = .clusterQueue → (copy.budgets.map (·.share)).Perm
    ((allowances.filter (·.node = copy.name)).map (·.share))

include assembled clean

theorem Clean.root_parentRef (node : opts.rootName ∈ nodeNames quotas) :
    (t.quota opts.rootName).parentRef = none := by
  obtain ⟨k, level⟩ := Int.eq_ofNat_of_zero_le (clean.placed _ node)
  obtain ⟨q, held, -⟩ := mem_nodeNames.mp node
  have rootless := ((assembled.depth_eq _ k).mp level).1.2
  rw [parentRefOf, held] at rootless
  rw [assembled.quota_eq, held]
  exact rootless

theorem Clean.root_parentless (linked : t.Linked) : t.parent opts.rootName = none := by
  rw [linked.parent_eq, Tree.linkOf]
  by_cases node : opts.rootName ∈ nodeNames quotas
  · rw [clean.root_parentRef assembled node]
    rfl
  · rw [Tree.quota, t.nodes.get_absent _ (mt (assembled.mem_keys _).mp node)]
    rfl

/-- With its root, every part from the start of a projection is closed: a parent is
shallower than its child. -/
theorem Projected.part (linked : t.Linked) {out : List AcceleratorQuota}
    (projected : Projected t opts.rootName out) {pre live : List AcceleratorQuota}
    (start : pre <+: out) (listed : live.Perm (bareRoot opts.rootName :: pre)) :
    Partial t opts.rootName live := by
  have names : (nodeNames live).Perm (opts.rootName :: nodeNames pre) := listed.map _
  have copies : ∀ q ∈ pre, q.name ≠ opts.rootName ∧ Copy t q := fun q member =>
    projected.copies q (start.subset member)
  refine ⟨names.nodup_iff.mpr (nodup_cons.mpr ⟨fun root => ?_, ?_⟩),
    listed.mem_iff.mpr mem_cons_self, fun q member => ?_, fun q member p up => ?_⟩
  · obtain ⟨q, member, same⟩ := mem_map.mp root
    exact (copies q member).1 same
  · exact projected.distinct.sublist (start.sublist.map _)
  · exact (mem_cons.mp (listed.mem_iff.mp member)).imp_right (copies q)
  · rw [names.mem_iff, mem_cons]
    rcases mem_cons.mp (listed.mem_iff.mp member) with rfl | inside
    · rw [show (bareRoot opts.rootName).name = opts.rootName from rfl,
        clean.root_parentless assembled linked] at up
      cases up
    · refine (projected.closed q (start.subset inside) p up).imp_right fun held => ?_
      obtain ⟨later, rfl⟩ := start
      rw [nodeNames, map_append] at held
      refine (mem_append.mp held).resolve_right fun after => ?_
      obtain ⟨q', member', rfl⟩ := mem_map.mp after
      refine (pairwise_append.mp projected.sorted).2.2 q inside q' member' ?_
      have deeper := clean.graded assembled _ _ up
      rw [ShallowerLess, if_pos (by omega)]
      omega

omit assembled clean in
theorem not_shallowerLess_iff {a b : AcceleratorQuota} : ¬ ShallowerLess t b a ↔
    toLex (t.depth a.name, a.name) ≤ toLex (t.depth b.name, b.name) := by
  rw [Prod.Lex.toLex_le_toLex, ShallowerLess, not_lexLess_iff, not_lt]

omit assembled clean in
theorem sorted_shallower (copies : List AcceleratorQuota) :
    (copies.insertionSort fun a b => ¬ ShallowerLess t b a).Pairwise
      fun a b => ¬ ShallowerLess t b a :=
  pairwise_sort_of_key (fun q => toLex (t.depth q.name, q.name))
    (fun _ _ => not_shallowerLess_iff) copies

/-- What lies between a leaf and the root: its part of the tree, without the root. -/
def Between (t : Tree) (leaf n : String) : Prop :=
  n = leaf ∨ n ≠ leaf ∧ OnChain t.parent leaf n ∧ t.parent n ≠ none

theorem Between.parent (linked : t.Linked) (measured : t.Measured opts.rootName)
    {p : String} (between : Between t leaf n) (up : t.parent n = some p) :
    p = opts.rootName ∨ Between t leaf p := by
  have chain : OnChain t.parent leaf n := by
    rcases between with rfl | ⟨-, chain, -⟩
    · exact .refl
    · exact chain
  have graded := clean.graded assembled
  have shallower := graded n p up
  have apart : p ≠ leaf := by
    rintro rfl
    have := graded.le_of_onChain chain
    omega
  have node := (assembled.mem_keys p).mp (linked.parent_known n p up)
  by_cases parentless : t.parent p = none
  · exact .inl (clean.root_of_parentless linked measured node parentless)
  · exact .inr (.inr ⟨apart, chain.tail up, parentless⟩)

omit assembled clean in
theorem Between.known (linked : t.Linked) (between : Between t leaf n)
    (known : leaf ∈ t.nodes.keys) : n ∈ t.nodes.keys := by
  rcases between with rfl | ⟨-, -, hangs⟩
  · exact known
  · obtain ⟨p, up⟩ := Option.ne_none_iff_exists'.mp hangs
    rw [linked.parent_eq] at up
    exact (Tree.linkOf_known up).1

theorem Between.eq_of_isLeaf (linked : t.Linked) (between : Between t leaf n)
    (known : leaf ∈ t.nodes.keys) (isLeaf : t.isLeaf n = true) : n = leaf := by
  have node := (assembled.mem_keys n).mp (between.known linked known)
  rcases between with same | ⟨apart, chain, -⟩
  · exact same
  · rcases Relation.ReflTransGen.cases_tail chain with same | ⟨c, -, up⟩
    · exact absurd same apart
    · have child := (linked.mem_children_iff c n).mpr up
      rw [clean.childless assembled node isLeaf] at child
      cases child

/-- A projection of allowances on leaves that carry their budgets. -/
theorem projectFor_ok (linked : t.Linked) (measured : t.Measured opts.rootName)
    (hung : ∀ q ∈ quotas, q.role = .clusterQueue → q.parentRef ≠ none)
    {cluster : String} (named : cluster ≠ "") {popts : ProjectionOptions}
    (configured : popts.origin ≠ "") {allowances : List Allowance}
    (carried : ∀ a ∈ allowances, a.node ∈ t.leaves ∧
      (t.quota a.node).Carries a.resourceName a.resourceFlavor) :
    ∃ out, projectFor t cluster allowances popts = some (.ok out) ∧
      Projected t opts.rootName out ∧ Renders allowances out := by
  have leaves (a : Allowance) (given : a ∈ allowances) :
      a.node ∈ t.nodes.keys ∧ t.isLeaf a.node = true := by
    have leaf := mem_filter.mp (carried a given).1
    exact ⟨Tree.mem_names.mp leaf.1, leaf.2⟩
  obtain ⟨byNode, grouped, entries⟩ := groupAllowances_ok allowances .empty leaves
  have keys (n : String) : n ∈ byNode.keys ↔ ∃ a ∈ allowances, a.node = n := by
    rw [(entries n).2]
    exact or_iff_right not_mem_nil
  have known (n : String) (leaf : n ∈ byNode.keys) : n ∈ t.nodes.keys := by
    obtain ⟨a, given, rfl⟩ := (keys n).mp leaf
    exact (leaves a given).1
  -- the tiers between the root and the leaves that have an allowance
  obtain ⟨included, tiers, distinct, members⟩ :=
    includeTiers_ok assembled clean linked measured byNode.keys [] known nodup_nil
  have between (n : String) : n ∈ included ↔ ∃ leaf ∈ byNode.keys, Between t leaf n := by
    rw [members]
    exact or_iff_right not_mem_nil
  have each (n : String) (member : n ∈ included) : n ∈ t.nodes.keys ∧ (t.quota n).name = n ∧
      (t.isLeaf n = true → byNode.get n ≠ [] ∧
        ∀ a ∈ byNode.get n, (t.quota n).Carries a.resourceName a.resourceFlavor) := by
    obtain ⟨leaf, given, tier⟩ := (between n).mp member
    have node := tier.known linked (known leaf given)
    refine ⟨node, (assembled.quota_mem ((assembled.mem_keys n).mp node)).2, fun isLeaf => ?_⟩
    have same := tier.eq_of_isLeaf assembled clean linked (known leaf given) isLeaf
    obtain ⟨a, listed, own⟩ := (keys n).mp (same ▸ given)
    rw [(entries n).1]
    refine ⟨ne_nil_of_mem (mem_filter.mpr ⟨listed, by simpa using own⟩), ?_⟩
    intro a' member'
    obtain ⟨listed', own'⟩ := mem_filter.mp member'
    exact of_decide_eq_true own' ▸ (carried a' listed').2
  obtain ⟨copies, rendered, names, areCopies⟩ := renderAll_ok cluster popts included each
  -- sorting the copies changes their order only
  have sorted : (nodeNames (copies.insertionSort fun a b => ¬ ShallowerLess t b a)).Perm included :=
    names ▸ (perm_insertionSort _ copies).map _
  refine ⟨copies.insertionSort fun a b => ¬ ShallowerLess t b a, ?_,
    ⟨sorted.nodup_iff.mpr distinct, sorted_shallower copies, fun q member => ?_,
      fun q member p up => ?_⟩, fun a given => ?_, fun q member queue => ?_⟩
  · rw [projectFor, if_neg named, if_neg configured, grouped]
    simp only [tiers, Option.map_some, rendered]
    rfl
  · obtain ⟨leaf, given, tier⟩ :=
      (between q.name).mp (sorted.mem_iff.mp (mem_map_of_mem member))
    refine ⟨fun root => ?_, (areCopies q ((mem_insertionSort _).mp member)).1⟩
    -- the root is not copied: a leaf names a parent, and a tier hangs below the root
    rcases tier with same | ⟨-, -, hangs⟩
    · obtain ⟨a, listed, own⟩ := (keys leaf).mp given
      obtain ⟨node, isLeaf⟩ := leaves a listed
      rw [own, ← same, root] at node isLeaf
      have member := (assembled.mem_keys _).mp node
      exact hung _ (assembled.quota_mem member).1 (by simpa [Tree.isLeaf] using isLeaf)
        (clean.root_parentRef assembled member)
    · exact hangs (root ▸ clean.root_parentless assembled linked)
  · obtain ⟨leaf, given, tier⟩ :=
      (between q.name).mp (sorted.mem_iff.mp (mem_map_of_mem member))
    refine (tier.parent assembled clean linked measured up).imp_right fun above => ?_
    exact sorted.mem_iff.mpr ((between p).mpr ⟨leaf, given, above⟩)
  · exact sorted.mem_iff.mpr ((between _).mpr ⟨_, (keys _).mpr ⟨a, given, rfl⟩, .inl rfl⟩)
  · have shares := (areCopies q ((mem_insertionSort _).mp member)).2 queue
    rwa [(entries q.name).1] at shares

end Applied

/-- **A projected tree can be applied one object at a time.**  The leaves of a tree
without violations hang below a grouping; then every set of allowances they carry
is projected, on a named cluster with a configured origin.  The result holds no
root; every part from its start is accepted without a violation once the bare root
is there, in whatever order the objects are listed; and each copy keeps the name,
role and parent of its source and nothing of its split. -/
theorem every_part_accepted {quotas : List AcceleratorQuota} {opts : Options} {t : Tree}
    (built : build quotas opts = some (.ok (t, [])))
    (hung : ∀ q ∈ quotas, q.role = .clusterQueue → q.parentRef ≠ none)
    {cluster : String} (named : cluster ≠ "") {popts : ProjectionOptions}
    (configured : popts.origin ≠ "") {allowances : List Allowance}
    (carried : ∀ a ∈ allowances, a.node ∈ t.leaves ∧
      (t.quota a.node).Carries a.resourceName a.resourceFlavor) :
    ∃ out, projectFor t cluster allowances popts = some (.ok out) ∧
      (∀ copy ∈ out, copy.name ≠ opts.rootName) ∧
      (∀ pre live, pre <+: out → live.Perm (bareRoot opts.rootName :: pre) →
        ∃ t', build live opts = some (.ok (t', []))) ∧
      ∀ copy ∈ out, ∃ source ∈ quotas, copy.name = source.name ∧ copy.role = source.role ∧
        copy.parentRef = source.parentRef ∧
        (source.role ≠ .clusterQueue → copy.budgets = []) ∧ copy.distribution = none ∧
        ∀ b ∈ copy.budgets, b.policy = .unset ∧ b.perCluster = [] := by
  obtain ⟨assembled, clean, linked, measured⟩ := build_clean built
  obtain ⟨out, run, projected, -⟩ :=
    projectFor_ok assembled clean linked measured hung named configured carried
  refine ⟨out, run, fun copy member => (projected.copies copy member).1,
    fun pre live start listed => ?_, fun copy member => ?_⟩
  · have part := projected.part assembled clean linked start listed
    exact build_of_clean (build_named built) fun t' assembled' _ =>
      part.passes assembled clean linked measured assembled'
  · have copied := (projected.copies copy member).2
    have source := assembled.quota_mem ((assembled.mem_keys _).mp copied.known)
    refine ⟨_, source.1, source.2.symm, copied.role, copied.parentRef, fun grouping => ?_,
      copied.undistributed, copied.resolved⟩
    exact copied.unbudgeted (copied.role ▸ grouping)

/-- The share of one tenant on a cluster. -/
def tenantShare : Allowance := ⟨"a", "gpu", "h100", ⟨⟨3, 0⟩, .decimalSI⟩⟩

theorem smallFleet_parts_accepted : ∃ t out, build smallFleet ⟨"root", 0⟩ = some (.ok (t, [])) ∧
    projectFor t "east" [tenantShare] ⟨"hub"⟩ = some (.ok out) ∧
    out.map AcceleratorQuota.name = ["team", "a"] ∧
    ∀ pre live, pre <+: out → live.Perm (bareRoot "root" :: pre) →
      ∃ t', build live ⟨"root", 0⟩ = some (.ok (t', [])) := by
  have built : build smallFleet ⟨"root", 0⟩ = some (.ok (_, [])) := rfl
  obtain ⟨out, run, -, accepted, -⟩ := @every_part_accepted _ _ _ built (by decide)
    "east" (by decide) ⟨"hub"⟩ (by decide) [tenantShare] (by decide)
  refine ⟨_, out, built, run, ?_, accepted⟩
  cases run
  decide

/-- Without a cluster name or an origin nothing is projected, whatever the tree. -/
theorem unconfigured_not_projected : ∃ t, build smallFleet ⟨"root", 0⟩ = some (.ok (t, [])) ∧
    (∀ q ∈ smallFleet, q.role = .clusterQueue → q.parentRef ≠ none) ∧
    tenantShare.node ∈ t.leaves ∧
    (t.quota tenantShare.node).Carries tenantShare.resourceName tenantShare.resourceFlavor ∧
    projectFor t "" [tenantShare] ⟨"hub"⟩ = some (.error .noCluster) ∧
    projectFor t "east" [tenantShare] ⟨""⟩ = some (.error .noOrigin) := by
  have built : build smallFleet ⟨"root", 0⟩ = some (.ok (_, [])) := rfl
  exact ⟨_, built, by decide, by decide, by decide, rfl, rfl⟩

end Ome.Quota
