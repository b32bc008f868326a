/-
# Ome.Quota.Assembly — what the quota tree is built as

`build` ends on every list of quotas (`build_ends`), and `Assembled` says what its
tree is in terms of the list alone: the first quota of a name is its node, a parent
is a reference to another node, and the depth of a node is the number of links
between it and the reserved root.

`Reported` says what the report holds, pass by pass.  `Clean` is what a list is
that no pass has anything to say about, and `build_clean` that such lists are
exactly those that `build` accepts.
-/
import Ome.Quota.Tree

namespace Ome.Quota

open Ome.Theory ParentGraph Function List Option

set_option autoImplicit false

variable {quotas : List AcceleratorQuota} {n p rootName : String} {opts : Options}
variable {t : Tree}

/-! ## The list as a graph -/

def nodeNames (quotas : List AcceleratorQuota) : List String := quotas.map AcceleratorQuota.name

/-- The node of a name: the first quota with it. -/
def nodeOf (quotas : List AcceleratorQuota) (n : String) : Option AcceleratorQuota :=
  quotas.find? (·.name = n)

def parentRefOf (quotas : List AcceleratorQuota) (n : String) : Option String :=
  (nodeOf quotas n).bind AcceleratorQuota.parentRef

/-- The parent of a node: what it refers to, if that is another node. -/
def linkOf (quotas : List AcceleratorQuota) (n : String) : Option String :=
  (parentRefOf quotas n).filter fun ref => ref ≠ n ∧ ref ∈ nodeNames quotas

/-- The reserved root is there and has no parent. -/
def HasRoot (quotas : List AcceleratorQuota) (rootName : String) : Prop :=
  rootName ∈ nodeNames quotas ∧ parentRefOf quotas rootName = none

/-- What `build` assembles from a list. -/
structure Assembled (quotas : List AcceleratorQuota) (rootName : String) (t : Tree) : Prop where
  mem_keys : ∀ n, n ∈ t.nodes.keys ↔ n ∈ nodeNames quotas
  quota_eq : ∀ n, t.quota n = (nodeOf quotas n).getD default
  parent_eq : t.parent = linkOf quotas
  mem_children : ∀ c p, c ∈ t.children p ↔ linkOf quotas c = some p
  sorted_children : ∀ p, (t.children p).Pairwise (· < ·)
  depth_eq : ∀ (n : String) (k : Nat), t.depth n = k ↔
    HasRoot quotas rootName ∧ Leads (linkOf quotas) rootName n k
  depth_unset : ∀ n, t.depth n < 0 → t.depth n = -1

theorem nodeNames_cons (q : AcceleratorQuota) (rest : List AcceleratorQuota) :
    nodeNames (q :: rest) = q.name :: nodeNames rest := rfl

theorem mem_nodeNames : n ∈ nodeNames quotas ↔ ∃ q, nodeOf quotas n = some q ∧ q.name = n := by
  constructor
  · intro member
    obtain ⟨q, listed, same⟩ := mem_map.mp member
    have found : (nodeOf quotas n).isSome := find?_isSome.mpr ⟨q, listed, by simpa using same⟩
    obtain ⟨first, held⟩ := isSome_iff_exists.mp found
    exact ⟨first, held, by simpa using find?_some held⟩
  · rintro ⟨q, held, same⟩
    exact mem_map.mpr ⟨q, mem_of_find?_eq_some held, same⟩

theorem linkOf_eq_some :
    linkOf quotas n = some p ↔
      parentRefOf quotas n = some p ∧ p ≠ n ∧ p ∈ nodeNames quotas := by
  simp only [linkOf, filter_eq_some_iff, decide_eq_true_eq]

theorem parentRefOf_mem (ref : parentRefOf quotas n = some p) : n ∈ nodeNames quotas := by
  obtain ⟨q, held, -⟩ := bind_eq_some_iff.mp ref
  exact mem_nodeNames.mpr ⟨q, held, by simpa using find?_some held⟩

theorem linkOf_mem (up : linkOf quotas n = some p) : n ∈ nodeNames quotas :=
  parentRefOf_mem (linkOf_eq_some.mp up).1

/-! ## Nodes -/

/-- The first loop keeps the first quota of every name. -/
theorem addNode_foldl : ∀ (quotas : List AcceleratorQuota) (s : Tree × List Violation),
    (quotas.foldl addNode s).1 = { s.1 with
      nodes := quotas.foldl (fun m q => if q.name ∈ m.keys then m else m.set q.name q) s.1.nodes }
  | [], s => rfl
  | q :: rest, s => by
    rw [foldl_cons, addNode_foldl rest, foldl_cons, addNode]
    split <;> rfl

theorem addNode_reports : ∀ (quotas : List AcceleratorQuota) (s : Tree × List Violation),
    (quotas.foldl addNode s).2 = [] ↔ s.2 = [] ∧ (nodeNames quotas).Nodup ∧
      ∀ n ∈ nodeNames quotas, n ∉ s.1.nodes.keys
  | [], s => by simp [nodeNames]
  | q :: rest, s => by
    rw [foldl_cons, addNode_reports rest, addNode, nodeNames_cons, nodup_cons,
      forall_mem_cons]
    by_cases held : q.name ∈ s.1.nodes.keys
    · simp [held]
    · rw [if_neg held]
      simp only [GoMap.mem_keys_set, not_or]
      constructor
      · rintro ⟨empty, distinct, fresh⟩
        exact ⟨empty, ⟨fun member => (fresh _ member).2 rfl, distinct⟩, held,
          fun n member => (fresh n member).1⟩
      · rintro ⟨empty, ⟨apart, distinct⟩, -, fresh⟩
        exact ⟨empty, distinct, fun n member => ⟨fresh n member, fun same =>
          apart (same ▸ member)⟩⟩

/-! ## Links -/

/-- The parent a node of a tree refers to, if that is another node. -/
def Tree.linkOf (t : Tree) (n : String) : Option String :=
  (t.quota n).parentRef.filter fun ref => ref ≠ n ∧ ref ∈ t.nodes.keys

/-- What the link loop over a list of names makes of a tree. -/
def Tree.withLinks (t : Tree) (ns : List String) : Tree :=
  { t with
    parent := fun n => if n ∈ ns then (t.linkOf n).or (t.parent n) else t.parent n
    children := fun p => t.children p ++ ns.filter (t.linkOf · = some p) }

theorem linkParent_tree (s : Tree × List Violation) (n : String) :
    (linkParent s n).1 = s.1.withLinks [n] := by
  have unlinked (none : s.1.linkOf n = none) : s.1 = s.1.withLinks [n] := by
    change Tree.mk .. = Tree.mk ..
    congr 1
    · funext m
      by_cases same : m = n
      · simp [same, none]
      · simp [same]
    · simp [none]
  rw [linkParent]
  cases ref : (s.1.quota n).parentRef with
  | none => exact unlinked (by rw [Tree.linkOf, ref]; rfl)
  | some p =>
    have link : s.1.linkOf n = if p ≠ n ∧ p ∈ s.1.nodes.keys then some p else none := by
      rw [Tree.linkOf, ref, filter_some]
      simp only [decide_eq_true_eq]
    dsimp only
    split
    · rename_i own
      exact unlinked (by rw [link, if_neg (fun apart => apart.1 own)])
    split
    · rename_i missing
      exact unlinked (by rw [link, if_neg (fun held => missing held.2)])
    · rename_i own held
      rw [if_pos ⟨own, not_not.mp held⟩] at link
      change Tree.mk .. = Tree.mk ..
      congr 1
      · funext m
        by_cases same : m = n
        · simp [same, link]
        · simp [same]
      · funext q
        by_cases same : q = p
        · simp [same, link]
        · simp [same, link, Ne.symm same]

theorem Tree.withLinks_cons {ns : List String} (fresh : n ∉ ns) :
    (t.withLinks [n]).withLinks ns = t.withLinks (n :: ns) := by
  rw [withLinks, withLinks, withLinks]
  congr 1
  · funext m
    change (if m ∈ ns then (t.linkOf m).or _ else _) = _
    by_cases same : m = n
    · simp [same, fresh]
    · simp [same]
  · funext p
    change _ ++ _ ++ ns.filter (t.linkOf · = some p) = _
    rw [append_assoc, ← filter_append]
    rfl

theorem linkParent_foldl : ∀ (ns : List String) (s : Tree × List Violation), ns.Nodup →
    (ns.foldl linkParent s).1 = s.1.withLinks ns
  | [], s, _ => by simp [Tree.withLinks]
  | n :: rest, s, distinct => by
    obtain ⟨fresh, distinct⟩ := nodup_cons.mp distinct
    rw [foldl_cons, linkParent_foldl rest _ distinct, linkParent_tree,
      Tree.withLinks_cons fresh]

theorem linkParent_reports : ∀ (ns : List String) (s : Tree × List Violation),
    (ns.foldl linkParent s).2 = [] ↔ s.2 = [] ∧
      ∀ n ∈ ns, (s.1.quota n).parentRef = s.1.linkOf n
  | [], s => by simp
  | n :: rest, s => by
    rw [foldl_cons, linkParent_reports rest, linkParent_tree, forall_mem_cons,
      ← and_assoc]
    refine and_congr_left fun _ => ?_
    rw [linkParent, Tree.linkOf]
    cases (s.1.quota n).parentRef with
    | none => simp
    | some ref =>
      by_cases own : ref = n
      · simp [own, filter_some]
      · by_cases held : ref ∈ s.1.nodes.keys <;> simp [own, held, filter_some]

/-! ## The linked tree -/

/-- A tree between the passes: its links are those its quotas refer to. -/
structure Tree.Linked (t : Tree) : Prop where
  parent_eq : t.parent = t.linkOf
  mem_children : ∀ c p, c ∈ t.children p ↔ t.linkOf c = some p
  sorted_children : ∀ p, (t.children p).Pairwise (· < ·)

namespace Tree

theorem linkOf_known (up : t.linkOf n = some p) : n ∈ t.nodes.keys ∧ p ∈ t.nodes.keys := by
  obtain ⟨ref, apart⟩ := filter_eq_some_iff.mp up
  simp only [decide_eq_true_eq] at apart
  refine ⟨?_, apart.2⟩
  by_contra absent
  rw [quota, t.nodes.get_absent n absent] at ref
  cases ref

theorem mem_names : n ∈ t.names ↔ n ∈ t.nodes.keys := t.nodes.mem_sortedKeys n

theorem unseen_lt_len (seen : List String) : unseen t.nodes.keys seen < t.len + 1 :=
  Nat.lt_succ_of_le (length_filter_le _ _)

namespace Linked

variable (linked : t.Linked)

include linked

theorem parent_known (n p : String) (up : t.parent n = some p) : p ∈ t.nodes.keys := by
  rw [linked.parent_eq] at up
  exact (linkOf_known up).2

theorem children_known (n : String) : t.children n ⊆ t.nodes.keys :=
  fun c child => (linkOf_known ((linked.mem_children c n).mp child)).1

theorem mem_children_iff (c p : String) : c ∈ t.children p ↔ t.parent c = some p := by
  rw [linked.parent_eq]
  exact linked.mem_children c p

theorem nodup_children (p : String) : (t.children p).Nodup :=
  (linked.sorted_children p).imp fun less => ne_of_lt less

theorem ancestors_ends (n : String) : ∃ up, t.ancestors n = some up := by
  obtain ⟨up, climbed⟩ := climb_ends linked.parent_known (t.len + 1) [n] (t.parent n)
    (linked.parent_known n) (t.unseen_lt_len _)
  exact ⟨_, by rw [ancestors, climbed]; rfl⟩

theorem subtree_ends (n : String) : ∃ below, t.subtree n = some below := by
  rw [subtree]
  split
  · rename_i known
    exact descend_ends linked.children_known known (t.unseen_lt_len _)
  · exact ⟨[], rfl⟩

theorem cycleMembers_ends (known : n ∈ t.nodes.keys) :
    ∃ members, cycleMembers t n = some members := by
  obtain ⟨up, climbed⟩ := climb_ends linked.parent_known (t.len + 1) [] (some n)
    (fun a same => some.inj same ▸ known) (t.unseen_lt_len _)
  exact ⟨_, by rw [cycleMembers, climbed]; rfl⟩

theorem reportCycles_ends : ∃ cycles, reportCycles t = some cycles := by
  have each (s : List String × List Violation) (_ : True) (n : String) (member : n ∈ t.names) :
      ∃ s', reportCycle t s n = some s' ∧ True := by
    obtain ⟨members, ends⟩ := linked.cycleMembers_ends (mem_names.mp member)
    exact ⟨_, by rw [reportCycle, ends]; rfl, trivial⟩
  obtain ⟨s, ends, -⟩ := Runs.foldlM_ends _ each trivial
  exact ⟨s.2, by rw [reportCycles, ends]; rfl⟩

end Linked

end Tree

theorem reportCycles_nil (acyclic : ∀ n ∈ t.names, cycleMembers t n = some none) :
    reportCycles t = some [] := by
  have each (s : List String × List Violation) (empty : s = ([], [])) (n : String)
      (member : n ∈ t.names) : ∃ s', reportCycle t s n = some s' ∧ s' = ([], []) := by
    rw [reportCycle, acyclic n member]
    exact ⟨s, rfl, empty⟩
  obtain ⟨s, ends, empty⟩ := Runs.foldlM_ends _ each rfl
  rw [reportCycles, ends, empty]
  rfl

/-- A tree without links, as the first loop leaves it. -/
theorem linkParents_ends (orphans : t.parent = fun _ => none)
    (childless : t.children = fun _ => []) :
    ∃ parent children vs cycles,
      linkParents t = some ({ t with parent, children }, vs ++ cycles) ∧
      Tree.Linked { t with parent, children } ∧
      reportCycles { t with parent, children } = some cycles ∧
      (vs = [] ↔ ∀ n ∈ t.names, (t.quota n).parentRef = t.linkOf n) := by
  have tree := linkParent_foldl t.names (t, []) t.nodes.nodup_sortedKeys
  have children (p : String) :
      (t.withLinks t.names).children p = t.names.filter (t.linkOf · = some p) := by
    rw [Tree.withLinks, childless]
    rfl
  set sorted : Tree := { t.withLinks t.names with
    children := fun n => ((t.withLinks t.names).children n).insertionSort (· ≤ ·) }
  have linked : sorted.Linked := by
    refine ⟨?_, fun c p => ?_, fun p => ?_⟩
    · funext n
      change (if n ∈ t.names then (t.linkOf n).or (t.parent n) else t.parent n) = t.linkOf n
      rw [orphans, or_none]
      split
      · rfl
      · rename_i absent
        by_contra up
        obtain ⟨p, up⟩ := ne_none_iff_exists'.mp (Ne.symm up)
        exact absent (Tree.mem_names.mpr (Tree.linkOf_known up).1)
    · change c ∈ ((t.withLinks t.names).children p).insertionSort _ ↔ t.linkOf c = some p
      rw [mem_insertionSort, children, mem_filter, decide_eq_true_eq]
      exact and_iff_right_of_imp fun up => Tree.mem_names.mpr (Tree.linkOf_known up).1
    · have distinct : (((t.withLinks t.names).children p).insertionSort (· ≤ ·)).Nodup := by
        rw [(perm_insertionSort _ _).nodup_iff, children]
        exact t.nodes.nodup_sortedKeys.filter _
      exact (pairwise_insertionSort (· ≤ ·) ((t.withLinks t.names).children p)).imp₂
        (fun _ _ le ne => lt_of_le_of_ne le ne) distinct
  obtain ⟨cycles, ends⟩ := linked.reportCycles_ends
  refine ⟨_, _, (t.names.foldl linkParent (t, [])).2, cycles, ?_, linked, ends, ?_⟩
  · rw [linkParents, tree]
    change (reportCycles sorted).map _ = _
    rw [ends]
    rfl
  · simpa using linkParent_reports t.names (t, [])

/-! ## Root and depth -/

theorem resolveNode_foldl (rootName : String) : ∀ (ns : List String) (s : Tree × List Violation),
    (ns.foldl (resolveNode rootName) s).1 = { s.1 with
      root := if rootName ∈ ns ∧ (s.1.quota rootName).parentRef = none then some rootName
        else s.1.root } ∧
    ((ns.foldl (resolveNode rootName) s).2 = [] ↔ s.2 = [] ∧
      ∀ n ∈ ns, (s.1.quota n).parentRef = none → n = rootName)
  | [], s => by simp
  | n :: rest, s => by
    obtain ⟨tree, reports⟩ := resolveNode_foldl rootName rest (resolveNode rootName s n)
    rw [foldl_cons, tree, reports, resolveNode]
    by_cases ref : (s.1.quota n).parentRef = none
    · by_cases same : n = rootName
      · subst same
        have kept : Tree.quota { s.1 with root := some n } = s.1.quota := rfl
        simp [ref, kept]
      · have other : rootName ≠ n := Ne.symm same
        simp [ref, same, other]
    · have apart : (s.1.quota rootName).parentRef = none → rootName ≠ n := by
        rintro none rfl
        exact ref none
      simp only [ref, ne_eq, not_false_eq_true, if_true, mem_cons, forall_eq_or_imp,
        false_implies, true_and, and_true]
      congr 2
      by_cases none : (s.1.quota rootName).parentRef = none
      · simp [none, apart none]
      · simp [none]

theorem assignDepth_ends (linked : t.Linked) (unset : t.depth = fun _ => -1)
    {root : String} (parentless : t.parent root = none) :
    ∃ depth, assignDepth t root = some { t with depth } ∧
      (∀ (n : String) (k : Nat), depth n = k ↔ Leads t.parent root n k) ∧
      ∀ n, depth n < 0 → depth n = -1 := by
  have start : Leveled t.parent root t.children [root] (update t.depth root 0) := by
    have only {n : String} (given : 0 ≤ update t.depth root 0 n) : n = root := by
      by_contra other
      rw [update_of_ne other, unset] at given
      simp at given
    refine ⟨fun n given => ?_, fun n member => ?_, fun n given => ?_, fun n less => ?_, by simp⟩
    · rw [only given]
      exact ⟨0, update_self .., .root⟩
    · rw [mem_singleton.mp member, update_self]
    · exact .inl (mem_singleton.mpr (only given))
    · by_cases same : n = root
      · rw [same, update_self] at less
        exact absurd less (lt_irrefl 0)
      · rw [update_of_ne same, unset]
  have enough : [root].length +
      (t.nodes.keys.filter (update t.depth root 0 · < 0)).length ≤ t.len + 1 := by
    have few := length_filter_le (update t.depth root 0 · < 0) t.nodes.keys
    simp only [length_singleton, Tree.len]
    omega
  obtain ⟨depth, ends, leveled⟩ := levels_ends linked.nodup_children linked.mem_children_iff
    linked.children_known t.nodes.nodup start enough
  refine ⟨depth, by rw [assignDepth, ends]; rfl, fun n k => ?_, leveled.unset⟩
  exact leveled.depth_eq linked.mem_children_iff parentless

/-- The depths of a tree are the links below its reserved root. -/
structure Tree.Measured (t : Tree) (rootName : String) : Prop where
  depth_eq : ∀ (n : String) (k : Nat), t.depth n = k ↔
    (rootName ∈ t.nodes.keys ∧ (t.quota rootName).parentRef = none) ∧
      Leads t.linkOf rootName n k
  depth_unset : ∀ n, t.depth n < 0 → t.depth n = -1

theorem resolveRoot_ends (linked : t.Linked) (unset : t.depth = fun _ => -1)
    (rootless : t.root = none) (rootName : String) :
    ∃ root depth vs, resolveRoot t rootName = some ({ t with root, depth }, vs) ∧
      Tree.Measured { t with root, depth } rootName ∧
      (vs = [] ↔ ∀ n ∈ t.names, (t.quota n).parentRef = none → n = rootName) := by
  obtain ⟨tree, reports⟩ := resolveNode_foldl rootName t.names (t, [])
  have quiet := reports.trans (and_iff_right rfl)
  rw [resolveRoot]
  by_cases found : rootName ∈ t.names ∧ (t.quota rootName).parentRef = none
  · rw [if_pos found] at tree
    have parentless : t.parent rootName = none := by
      rw [linked.parent_eq, Tree.linkOf, found.2]
      rfl
    have kept : Tree.Linked { t with root := some rootName } := { linked with }
    obtain ⟨depth, ends, levels, negative⟩ := assignDepth_ends kept unset parentless
    refine ⟨some rootName, depth, _, ?_, ⟨fun n k => ?_, negative⟩, quiet⟩
    · simp only [tree, ends]
      rfl
    · change depth n = k ↔ _ ∧ Leads t.linkOf rootName n k
      rw [levels, ← linked.parent_eq]
      exact (and_iff_right ⟨Tree.mem_names.mp found.1, found.2⟩).symm
  · rw [if_neg found] at tree
    refine ⟨none, t.depth, (t.names.foldl (resolveNode rootName) (t, [])).2, ?_,
      ⟨fun n k => ?_, fun n _ => by rw [unset]⟩, quiet⟩
    · simp only [tree, rootless]
      rw [← rootless, ← tree]
    · rw [unset]
      refine iff_of_false (by simp) fun lead => found ?_
      exact ⟨Tree.mem_names.mpr lead.1.1, lead.1.2⟩

/-! ## Nodes without a position -/

theorem checkUnreachable_ends (linked : t.Linked) (found : List Violation) :
    ∃ vs, checkUnreachable t found = some vs ∧
      (∀ n ∈ t.names, t.depth n < 0 → n ∈ violationNodes found ∨ ∃ v ∈ vs, v.node = n) ∧
      ((∀ n ∈ t.names, 0 ≤ t.depth n) → vs = []) := by
  choose up ends using linked.ancestors_ends
  set faulted := violationNodes found
  let cause (n : String) := ((up n).find? (· ∈ faulted)).getD n
  -- What a node adds to the report.
  let stray (n : String) : List Violation :=
    if 0 ≤ t.depth n ∨ n ∈ faulted then []
    else [⟨n, .unreachable, cause n, .noPosition (cause n)⟩]
  have step (vs : List Violation) (n : String) :
      checkReachable t faulted vs n = some (vs ++ stray n) := by
    rw [checkReachable, ends]
    by_cases placed : 0 ≤ t.depth n
    · simp [stray, placed]
    · by_cases member : n ∈ faulted <;> simp [stray, placed, member, cause]
  have run : ∀ (ns : List String) (vs : List Violation),
      ns.foldlM (checkReachable t faulted) vs = some (vs ++ ns.flatMap stray) := by
    intro ns
    induction ns with
    | nil => simp
    | cons n rest ih => simp [step, ih]
  refine ⟨t.names.flatMap stray, run t.names [], fun n member less => ?_, fun placed => ?_⟩
  · refine or_iff_not_imp_left.mpr fun sound => ⟨⟨n, .unreachable, cause n, .noPosition (cause n)⟩,
      mem_flatMap.mpr ⟨n, member, ?_⟩, rfl⟩
    simp [stray, less, sound]
  · exact flatMap_eq_nil_iff.mpr fun n member => if_pos (.inl (placed n member))

/-! ## The report -/

theorem mem_violationNodes {vs : List Violation} :
    n ∈ violationNodes vs ↔ n ≠ "" ∧ ∃ v ∈ vs, v.node = n := by
  simp [violationNodes, and_comm]

/-- A list no pass reports anything about. -/
structure Clean (quotas : List AcceleratorQuota) (opts : Options) (t : Tree) : Prop where
  distinct : (nodeNames quotas).Nodup
  placed : ∀ n ∈ nodeNames quotas, 0 ≤ t.depth n
  shallow : checkDepth t opts.maxDepth = []
  kinds : checkNodeKind t = []
  contained : checkContainment t = []

/-- What `build` reports. -/
structure Reported (quotas : List AcceleratorQuota) (opts : Options) (t : Tree)
    (vs : List Violation) : Prop where
  unplaced : ∀ n ∈ nodeNames quotas, t.depth n < 0 → ∃ v ∈ vs, v.node = n
  clean_iff : vs = [] ↔ Clean quotas opts t

theorem sortViolations_perm (vs : List Violation) : (sortViolations vs).Perm vs :=
  perm_insertionSort _ _

namespace Tree

section

variable (linked : t.Linked) (measured : t.Measured rootName) (placed : 0 ≤ t.depth n)
include linked measured placed

theorem Linked.climb_placed :
    ∃ rest : List String, (n :: rest).getLast? = some rootName ∧ (n :: rest).Nodup ∧
      (n :: rest).IsChain (fun a b => t.parent a = some b) ∧
      climb t.parent (t.len + 1) [] (some n) = some (n :: rest, none) ∧
      climb t.parent (t.len + 1) [n] (t.parent n) = some (n :: rest, none) := by
  obtain ⟨k, level⟩ := Int.eq_ofNat_of_zero_le placed
  obtain ⟨⟨known, ref⟩, leads⟩ := (measured.depth_eq n k).mp level
  rw [← linked.parent_eq] at leads
  have parentless : t.parent rootName = none := by
    rw [linked.parent_eq, linkOf, ref]
    rfl
  obtain ⟨rest, last, distinct, linkedUp, levels⟩ := leads.chain parentless
  have ends (a : String) (same : (n :: rest).getLast? = some a) : t.parent a = none := by
    rw [last] at same
    exact some.inj same ▸ parentless
  have known (a : String) (member : a ∈ n :: rest) : a ∈ t.nodes.keys := by
    obtain ⟨m, -, level⟩ := levels a member
    cases level with
    | root => exact known
    | link up _ =>
      rw [linked.parent_eq] at up
      exact (linkOf_known up).1
  have short : (n :: rest).length ≤ t.len := (subperm_of_subset distinct known).length_le
  refine ⟨rest, last, distinct, linkedUp, climb_chain linkedUp distinct ends (by omega), ?_⟩
  have next : t.parent n = rest.head? := by
    cases rest with
    | nil => exact ends n rfl
    | cons b rest => exact (isChain_cons_cons.mp linkedUp).1
  rw [next]
  have start : ([n] ++ rest).Nodup := distinct
  refine climb_chain linkedUp.tail start (fun a same => ends a ?_) ?_
  · cases rest with
    | nil => cases same
    | cons b rest => rwa [getLast?_cons_cons]
  · rw [length_cons] at short
    exact (Nat.le_of_succ_le short).trans (Nat.le_succ _)

theorem Linked.cycleMembers_placed : cycleMembers t n = some none := by
  obtain ⟨rest, -, -, -, climbed, -⟩ := linked.climb_placed measured placed
  rw [cycleMembers, climbed]
  rfl

/-- The ancestors of a node with a position are what its parents lead to. -/
theorem Linked.mem_ancestors :
    ∃ up, t.ancestors n = some up ∧ ∀ a, a ∈ up ↔ a ≠ n ∧ OnChain t.parent n a := by
  obtain ⟨rest, last, distinct, chain, -, climbed⟩ := linked.climb_placed measured placed
  obtain ⟨k, level⟩ := Int.eq_ofNat_of_zero_le placed
  have ref := ((measured.depth_eq n k).mp level).1.2
  have ends (b : String) (same : (n :: rest).getLast? = some b) : t.parent b = none := by
    cases last.symm.trans same
    rw [linked.parent_eq, linkOf, ref]
    rfl
  refine ⟨rest.reverse, by rw [ancestors, climbed]; rfl, fun a => ?_⟩
  rw [mem_reverse, ← mem_chain_iff chain ends, mem_cons]
  have fresh := (nodup_cons.mp distinct).1
  constructor
  · exact fun member => ⟨fun same => fresh (same ▸ member), .inr member⟩
  · rintro ⟨other, same | member⟩
    · exact absurd same other
    · exact member

end

end Tree

/-- A tree with the nodes, links and depths of a list is what the list describes. -/
theorem assembled_of (keys : ∀ n, n ∈ t.nodes.keys ↔ n ∈ nodeNames quotas)
    (quota : ∀ n, t.quota n = (nodeOf quotas n).getD default) (linked : t.Linked)
    (measured : t.Measured rootName) : Assembled quotas rootName t := by
  have ref (n : String) : (t.quota n).parentRef = parentRefOf quotas n := by
    rw [quota, parentRefOf]
    cases nodeOf quotas n <;> rfl
  have link : t.linkOf = linkOf quotas := by
    funext n
    simp only [Tree.linkOf, linkOf, ref, keys]
  refine ⟨keys, quota, link ▸ linked.parent_eq, link ▸ linked.mem_children,
    linked.sorted_children, fun n k => ?_, measured.depth_unset⟩
  rw [measured.depth_eq, link, keys, ref]
  rfl

/-- Where every node has a position, the passes before the last three are silent. -/
theorem Tree.Measured.resolved (measured : t.Measured rootName)
    (placed : 0 ≤ t.depth n) : (t.quota n).parentRef = t.linkOf n ∧
      ((t.quota n).parentRef = none → n = rootName) := by
  obtain ⟨k, level⟩ := Int.eq_ofNat_of_zero_le placed
  obtain ⟨⟨-, ref⟩, leads⟩ := (measured.depth_eq n k).mp level
  cases leads with
  | root => exact ⟨by rw [Tree.linkOf, ref]; rfl, fun _ => rfl⟩
  | link up _ =>
    have given := (filter_eq_some_iff.mp up).1
    exact ⟨given.trans up.symm, fun none => absurd (given.symm.trans none) (by simp)⟩

/-- What the passes over a list report, in their order; `t` is the tree they leave. -/
structure Passed (quotas : List AcceleratorQuota) (rootName : String) (t : Tree)
    (repeated missing cycles strays unreachable : List Violation) : Prop where
  repeated_nil : repeated = [] ↔ (nodeNames quotas).Nodup
  missing_nil : missing = [] ↔ ∀ n ∈ nodeNames quotas, (t.quota n).parentRef = t.linkOf n
  cycles_eq : reportCycles t = some cycles
  strays_nil : strays = [] ↔
    ∀ n ∈ nodeNames quotas, (t.quota n).parentRef = none → n = rootName
  unplaced : ∀ n ∈ nodeNames quotas, t.depth n < 0 →
    ∃ v ∈ repeated ++ (missing ++ cycles) ++ strays ++ unreachable, v.node = n
  unreachable_nil : (∀ n ∈ nodeNames quotas, 0 ≤ t.depth n) → unreachable = []

theorem Passed.reported
    {repeated missing cycles strays unreachable : List Violation}
    (passed : Passed quotas opts.rootName t repeated missing cycles strays unreachable)
    (linked : t.Linked) (measured : t.Measured opts.rootName)
    (known : ∀ n, n ∈ t.nodes.keys ↔ n ∈ nodeNames quotas) :
    Reported quotas opts t (sortViolations (repeated ++ (missing ++ cycles) ++ strays ++
      unreachable ++ checkDepth t opts.maxDepth ++ checkNodeKind t ++ checkContainment t)) where
  unplaced := by
    intro n member less
    obtain ⟨v, found, at_node⟩ := passed.unplaced n member less
    refine ⟨v, (sortViolations_perm _).mem_iff.mpr ?_, at_node⟩
    exact mem_append_left _ (mem_append_left _ (mem_append_left _ found))
  clean_iff := by
    rw [← length_eq_zero_iff, (sortViolations_perm _).length_eq, length_eq_zero_iff]
    simp only [append_eq_nil_iff]
    constructor
    · rintro ⟨⟨⟨⟨⟨⟨once, found⟩, strays⟩, unreachable⟩, shallow⟩, kinds⟩, contained⟩
      refine ⟨passed.repeated_nil.mp once, fun n member => ?_, shallow, kinds, contained⟩
      by_contra less
      obtain ⟨v, reported, -⟩ := passed.unplaced n member (not_le.mp less)
      simp only [once, found, strays, unreachable, append_nil] at reported
      cases reported
    · intro clean
      have resolved (n : String) (member : n ∈ nodeNames quotas) :=
        measured.resolved (clean.placed n member)
      have acyclic (n : String) (member : n ∈ t.names) : cycleMembers t n = some none :=
        linked.cycleMembers_placed measured
          (clean.placed n ((known n).mp (Tree.mem_names.mp member)))
      have cycles : cycles = [] :=
        some.inj (passed.cycles_eq.symm.trans (reportCycles_nil acyclic))
      exact ⟨⟨⟨⟨⟨⟨passed.repeated_nil.mpr clean.distinct,
        passed.missing_nil.mpr fun n member => (resolved n member).1, cycles⟩,
        passed.strays_nil.mpr fun n member => (resolved n member).2⟩,
        passed.unreachable_nil clean.placed⟩, clean.shallow⟩, clean.kinds⟩, clean.contained⟩

/-- **`build` ends on every list**, with the tree the list describes and a report
that is empty exactly for the clean lists. -/
theorem build_ends (quotas : List AcceleratorQuota) (named : opts.rootName ≠ "") :
    ∃ t vs, build quotas opts = some (.ok (t, vs)) ∧ Assembled quotas opts.rootName t ∧
      Reported quotas opts t vs ∧ t.Linked ∧ t.Measured opts.rootName := by
  have frame := addNode_foldl quotas (.initial, [])
  have repeated := addNode_reports quotas (.initial, [])
  rw [build, if_neg named]
  generalize quotas.foldl addNode (.initial, []) = added at frame repeated
  obtain ⟨parent, children, missing, cycles, linkRun, linked, cycleRun, quiet⟩ :=
    linkParents_ends (t := added.1) (by rw [frame]; rfl) (by rw [frame]; rfl)
  obtain ⟨root, depth, strays, rootRun, measured, rooted⟩ := resolveRoot_ends linked
    (by rw [frame]; rfl) (by rw [frame]; rfl) opts.rootName
  -- Every pass reads the nodes of the first loop.
  set t : Tree := { added.1 with parent, children, root, depth }
  have placed : t.Linked := { linked with }
  obtain ⟨unreachable, reachRun, reported, allPlaced⟩ := checkUnreachable_ends placed
    (added.2 ++ (missing ++ cycles) ++ strays)
  have keys (n : String) : n ∈ t.nodes.keys ↔ n ∈ nodeNames quotas := by
    change n ∈ added.1.nodes.keys ↔ _
    rw [frame, GoMap.mem_keys_foldl_first AcceleratorQuota.name fun q => q]
    simp [Tree.initial, nodeNames]
  have names (n : String) : n ∈ t.names ↔ n ∈ nodeNames quotas := Tree.mem_names.trans (keys n)
  have passed : Passed quotas opts.rootName t added.2 missing cycles strays unreachable := by
    refine ⟨by simpa [Tree.initial] using repeated, ?_, cycleRun, ?_, ?_, ?_⟩
    · rw [quiet]
      exact forall_congr' fun n => imp_congr_left (names n)
    · rw [rooted]
      exact forall_congr' fun n => imp_congr_left (names n)
    · intro n member less
      rcases reported n ((names n).mpr member) less with early | ⟨v, late, at_node⟩
      · obtain ⟨v, found, at_node⟩ := (mem_violationNodes.mp early).2
        exact ⟨v, mem_append_left _ found, at_node⟩
      · exact ⟨v, mem_append_right _ late, at_node⟩
    · exact fun all => allPlaced fun n member => all n ((names n).mp member)
  refine ⟨t, _, ?_, assembled_of keys (fun n => ?_) placed measured,
    passed.reported placed measured keys, placed, measured⟩
  · simp only [linkRun, rootRun, reachRun, bind_some]
  · change added.1.quota n = _
    rw [frame, Tree.quota, GoMap.get_foldl_first AcceleratorQuota.name fun q => q]
    simp [Tree.initial, nodeOf]

theorem build_named
    {result : Tree × List Violation} (built : build quotas opts = some (.ok result)) :
    opts.rootName ≠ "" := by
  intro unset
  rw [build, if_pos unset] at built
  cases built

/-- What `build` accepts without a violation. -/
theorem build_clean (built : build quotas opts = some (.ok (t, []))) :
    Assembled quotas opts.rootName t ∧ Clean quotas opts t ∧ t.Linked ∧
      t.Measured opts.rootName := by
  obtain ⟨t', vs, ends, assembled, reported, linked, measured⟩ :=
    build_ends quotas (build_named built)
  cases built.symm.trans ends
  exact ⟨assembled, reported.clean_iff.mp rfl, linked, measured⟩

theorem build_of_clean (named : opts.rootName ≠ "")
    (clean : ∀ t, Assembled quotas opts.rootName t → t.Linked → Clean quotas opts t) :
    ∃ t, build quotas opts = some (.ok (t, [])) := by
  obtain ⟨t, vs, ends, assembled, reported, linked, -⟩ := build_ends quotas named
  have silent := reported.clean_iff.mpr (clean t assembled linked)
  exact ⟨t, silent ▸ ends⟩

end Ome.Quota
