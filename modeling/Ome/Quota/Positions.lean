/-
# Ome.Quota.Positions — a node is clear when its path to the root is sound

`RootChain` is a path of parent references from a node to the reserved root that
repeats no name.  The depth of a node is the length of that path, a node without
one is reported, and what a report freezes is exactly what has a reported node on
its chain of parents (`Tree.Linked.frozen_keys`).  A violation at the empty name
counts as one of the input as a whole and freezes nothing.  A node below several
reported ones is frozen by the one that sorts first, nearest or not
(`frozen_names_nearest`, `nestedGroups_names_farther`).
-/
import Ome.Quota.Assembly

namespace Ome.Quota

open Ome.Theory ParentGraph Relation.ReflTransGen GoMap List

set_option autoImplicit false

variable {n : String} {vs : List Violation}

/-! ## Paths to the root -/

/-- A path of parent references through existing, pairwise different names to the
reserved root, which has no parent. -/
structure RootChain (quotas : List AcceleratorQuota) (rootName n : String)
    (chain : List String) : Prop where
  starts : chain.head? = some n
  ends : chain.getLast? = some rootName
  distinct : chain.Nodup
  existing : ∀ m ∈ chain, m ∈ nodeNames quotas
  linked : chain.IsChain fun child parent => parentRefOf quotas child = some parent
  parentless : parentRefOf quotas rootName = none

variable {quotas : List AcceleratorQuota} {rootName : String}

theorem RootChain.hasRoot {chain : List String}
    (path : RootChain quotas rootName n chain) : HasRoot quotas rootName :=
  ⟨path.existing _ (mem_of_getLast? path.ends), path.parentless⟩

theorem RootChain.leads : ∀ {chain : List String} {n : String},
    RootChain quotas rootName n chain → ∃ k, chain.length = k + 1 ∧
      Leads (linkOf quotas) rootName n k
  | [], _, path => nomatch path.starts
  | [m], n, path => by
    cases path.starts
    cases path.ends
    exact ⟨0, rfl, .root⟩
  | m :: p :: rest, n, path => by
    cases path.starts
    obtain ⟨ref, above⟩ := isChain_cons_cons.mp path.linked
    obtain ⟨fresh, distinct⟩ := nodup_cons.mp path.distinct
    have higher : RootChain quotas rootName p (p :: rest) := by
      refine ⟨rfl, ?_, distinct, fun m member => path.existing m (.tail _ member), above,
        path.parentless⟩
      rw [← path.ends, List.getLast?_cons_cons]
    obtain ⟨k, length, leads⟩ := higher.leads
    have apart : p ≠ m := fun same => fresh (same ▸ mem_cons_self)
    refine ⟨k + 1, by rw [length_cons, length], .link (linkOf_eq_some.mpr ⟨ref, apart, ?_⟩)
      leads⟩
    exact path.existing p (.tail _ mem_cons_self)

theorem rootChain_of_leads (root : HasRoot quotas rootName) {k : Nat}
    (leads : Leads (linkOf quotas) rootName n k) : ∃ chain, RootChain quotas rootName n chain := by
  have parentless : linkOf quotas rootName = none := by
    rw [linkOf, root.2]
    rfl
  obtain ⟨rest, last, distinct, linked, levels⟩ := leads.chain parentless
  refine ⟨n :: rest, rfl, last, distinct, fun m member => ?_,
    linked.imp fun child parent up => (linkOf_eq_some.mp up).1, root.2⟩
  obtain ⟨j, -, level⟩ := levels m member
  cases level with
  | root => exact root.1
  | link up _ => exact linkOf_mem up

theorem Assembled.placed_iff {t : Tree} (assembled : Assembled quotas rootName t) (n : String) :
    0 ≤ t.depth n ↔ ∃ chain, RootChain quotas rootName n chain := by
  constructor
  · intro placed
    obtain ⟨k, level⟩ := Int.eq_ofNat_of_zero_le placed
    obtain ⟨root, leads⟩ := (assembled.depth_eq n k).mp level
    exact rootChain_of_leads root leads
  · rintro ⟨chain, path⟩
    obtain ⟨k, -, leads⟩ := path.leads
    rw [(assembled.depth_eq n k).mpr ⟨path.hasRoot, leads⟩]
    exact Int.natCast_nonneg k

/-! ## What is frozen -/

/-- `parent` is the node `child` refers to. -/
def ParentOf (quotas : List AcceleratorQuota) (child parent : String) : Prop :=
  parentRefOf quotas child = some parent ∧ parent ∈ nodeNames quotas

/-- A node that refers to itself adds nothing to a chain. -/
theorem onChain_iff {m : String} :
    OnChain (linkOf quotas) n m ↔ Relation.ReflTransGen (ParentOf quotas) n m := by
  constructor
  · intro chain
    refine mono (fun a b up => ?_) _ _ chain
    obtain ⟨ref, -, known⟩ := linkOf_eq_some.mp up
    exact ⟨ref, known⟩
  · intro chain
    induction chain using head_induction_on with
    | refl => exact .refl
    | @head a b up _ ih =>
      by_cases own : b = a
      · exact own ▸ ih
      · exact .head (linkOf_eq_some.mpr ⟨up.1, own, up.2⟩) ih

namespace Tree

variable {t : Tree}

theorem Linked.mem_subtree (linked : t.Linked) {below : List String}
    (walked : t.subtree n = some below) {d : String} :
    d ∈ below ↔ n ∈ t.nodes.keys ∧ OnChain t.parent d n := by
  rw [subtree] at walked
  split at walked
  · rename_i known
    rw [mem_descend linked.mem_children_iff walked, and_iff_right known]
  · rename_i unknown
    cases walked
    simp [unknown]

/-- What one reported node changes: it gives its own violation to what lies below it
and is not frozen yet. -/
theorem Linked.freezeBelow_ends (linked : t.Linked) (n : String) (frozen : GoMap String Violation) :
    ∃ frozen', t.freezeBelow frozen n = some frozen' ∧ ∀ d,
      (d ∈ frozen'.keys ↔ d ∈ frozen.keys ∨ n ∈ t.nodes.keys ∧ OnChain t.parent d n) ∧
      (d ∈ frozen.keys → frozen'.get d = frozen.get d) ∧
      (d ∉ frozen.keys → n ∈ t.nodes.keys ∧ OnChain t.parent d n →
        frozen'.get d = frozen.get n) := by
  obtain ⟨below, walked⟩ := linked.subtree_ends n
  have get (d : String) := get_foldl_first (fun d => d) (fun _ => frozen.get n) d below frozen
  refine ⟨_, by rw [freezeBelow, walked]; rfl, fun d => ⟨?_, fun held => ?_, fun fresh under => ?_⟩⟩
  · rw [mem_keys_foldl_first (fun d => d), map_id', linked.mem_subtree walked]
  · rw [get, if_pos held]
  · have found : (below.find? (· = d)).isSome :=
      List.find?_isSome.mpr ⟨d, (linked.mem_subtree walked).mpr under, by simp⟩
    obtain ⟨e, found⟩ := Option.isSome_iff_exists.mp found
    rw [get, if_neg fresh, found]
    rfl

/-- **What a report freezes**: the nodes it names and what lies below them. -/
theorem Linked.frozen_keys (linked : t.Linked) (vs : List Violation) :
    ∃ frozen, t.frozen vs = some frozen ∧ ∀ d, d ∈ frozen.keys ↔
      d ∈ violationNodes vs ∨ ∃ n ∈ violationNodes vs, n ∈ t.nodes.keys ∧ OnChain t.parent d n := by
  have run : ∀ (ns : List String) (frozen : GoMap String Violation),
      ∃ frozen', ns.foldlM t.freezeBelow frozen = some frozen' ∧ ∀ d, d ∈ frozen'.keys ↔
        d ∈ frozen.keys ∨ ∃ n ∈ ns, n ∈ t.nodes.keys ∧ OnChain t.parent d n := by
    intro ns
    induction ns with
    | nil => exact fun frozen => ⟨frozen, rfl, by simp⟩
    | cons n rest ih =>
      intro frozen
      obtain ⟨next, step, below⟩ := linked.freezeBelow_ends n frozen
      obtain ⟨last, ends, keys⟩ := ih next
      refine ⟨last, ?_, fun d => ?_⟩
      · rw [foldlM_cons, step]
        exact ends
      · rw [keys, (below d).1, or_assoc]
        simp only [mem_cons, exists_eq_or_imp]
  obtain ⟨frozen, ends, keys⟩ := run (violationNodes vs) ((violationNodes vs).foldl
    (fun frozen n => frozen.set n (primary (violationsFor vs n))) .empty)
  refine ⟨frozen, ends, fun d => ?_⟩
  rw [keys, mem_keys_foldl_set]
  simp

/-- What is frozen once keeps its cause. -/
theorem Linked.freeze_keeps (linked : t.Linked) {d : String} :
    ∀ {ns : List String} {frozen last : GoMap String Violation}, d ∈ frozen.keys →
      ns.foldlM t.freezeBelow frozen = some last → last.get d = frozen.get d
  | [], _, _, _, rfl => rfl
  | n :: rest, frozen, last, held, run => by
    obtain ⟨next, step, below⟩ := linked.freezeBelow_ends n frozen
    rw [foldlM_cons, step] at run
    rw [linked.freeze_keeps ((below d).1.mpr (.inl held)) run, (below d).2.1 held]

/-- Nodes visited in name order: the first one above a node freezes it. -/
theorem Linked.freeze_least (linked : t.Linked) {d m : String} (known : m ∈ t.nodes.keys)
    (above : OnChain t.parent d m) :
    ∀ {ns : List String} {frozen last : GoMap String Violation}, ns.Pairwise (· ≤ ·) →
      m ∈ ns → (∀ k ∈ ns, OnChain t.parent d k → m ≤ k) → d ∉ frozen.keys → m ∈ frozen.keys →
      ns.foldlM t.freezeBelow frozen = some last → last.get d = frozen.get m
  | n :: rest, frozen, last, sorted, member, least, fresh, own, run => by
    rw [pairwise_cons] at sorted
    obtain ⟨next, step, below⟩ := linked.freezeBelow_ends n frozen
    rw [foldlM_cons, step] at run
    by_cases here : n ∈ t.nodes.keys ∧ OnChain t.parent d n
    · have same : m = n := by
        rcases mem_cons.mp member with same | later
        · exact same
        · exact le_antisymm (least n mem_cons_self here.2) (sorted.1 m later)
      rw [linked.freeze_keeps ((below d).1.mpr (.inr here)) run, (below d).2.2 fresh here, same]
    · have later : m ∈ rest := (mem_cons.mp member).resolve_left fun same =>
        here (same ▸ ⟨known, above⟩)
      rw [← (below m).2.1 own]
      refine linked.freeze_least known above sorted.2 later
        (fun k listed => least k (mem_cons_of_mem n listed)) ?_
        ((below m).1.mpr (.inl own)) run
      rw [(below d).1]
      exact fun held => held.elim fresh here

end Tree

section

variable {t : Tree} (assembled : Assembled quotas rootName t)
include assembled

theorem Assembled.chain_known (linked : t.Linked) {m : String} (node : n ∈ nodeNames quotas)
    (chain : OnChain t.parent n m) : m ∈ t.nodes.keys := by
  cases cases_tail chain with
  | inl same => exact same ▸ (assembled.mem_keys n).mpr node
  | inr last =>
    obtain ⟨below, -, up⟩ := last
    exact linked.parent_known below m up

theorem Assembled.chain_iff {m : String} :
    OnChain t.parent n m ↔ Relation.ReflTransGen (ParentOf quotas) n m := by
  rw [assembled.parent_eq, onChain_iff]

/-- A node is clear when no node on its chain is reported under a name. -/
theorem Assembled.clear_iff
    (linked : t.Linked) {frozen : GoMap String Violation}
    (keys : ∀ d, d ∈ frozen.keys ↔ d ∈ violationNodes vs ∨
      ∃ n ∈ violationNodes vs, n ∈ t.nodes.keys ∧ OnChain t.parent d n)
    (node : n ∈ nodeNames quotas) :
    n ∉ frozen.keys ↔ ∀ m, Relation.ReflTransGen (ParentOf quotas) n m → m ≠ "" →
      ∀ v ∈ vs, v.node ≠ m := by
  rw [keys, not_or]
  constructor
  · rintro ⟨-, above⟩ m chain nonempty v reported rfl
    have chain := assembled.chain_iff.mpr chain
    exact above ⟨v.node, mem_violationNodes.mpr ⟨nonempty, v, reported, rfl⟩,
      assembled.chain_known linked node chain, chain⟩
  · intro clear
    have silent {m : String} (chain : OnChain t.parent n m) : m ∉ violationNodes vs := by
      intro reported
      obtain ⟨nonempty, v, found, same⟩ := mem_violationNodes.mp reported
      exact clear m (assembled.chain_iff.mp chain) nonempty v found same
    exact ⟨silent .refl, fun ⟨m, reported, _, chain⟩ => silent chain reported⟩

end

/-- **A node is clear exactly when its path to the root is sound.**  On every list
of quotas and for every root name `build` ends.  A node has a depth exactly when a
path of existing, different names leads from it to the parent-less root, and then
its depth is the length of the path; a node without a depth is reported; a node is
clear exactly when no node on its chain of parents is reported; and every walk
along the links ends. -/
theorem clear_iff_sound_path (quotas : List AcceleratorQuota) (opts : Options)
    (named : opts.rootName ≠ "") :
    ∃ t vs frozen, build quotas opts = some (.ok (t, vs)) ∧ t.frozen vs = some frozen ∧
      (∀ n ∈ nodeNames quotas,
        (0 ≤ t.depth n ↔ ∃ chain, RootChain quotas opts.rootName n chain) ∧
        (∀ chain, RootChain quotas opts.rootName n chain → t.depth n + 1 = chain.length) ∧
        (¬ 0 ≤ t.depth n → t.depth n = -1 ∧ ∃ v ∈ vs, v.node = n) ∧
        (n ∉ frozen.keys ↔ ∀ m, Relation.ReflTransGen (ParentOf quotas) n m → m ≠ "" →
          ∀ v ∈ vs, v.node ≠ m) ∧
        (t.ancestors n).isSome ∧ (t.subtree n).isSome) ∧
      (reportCycles t).isSome := by
  obtain ⟨t, vs, built, assembled, reported, linked, -⟩ := build_ends quotas named
  obtain ⟨frozen, ends, keys⟩ := linked.frozen_keys vs
  refine ⟨t, vs, frozen, built, ends, fun n node => ?_,
    Option.isSome_iff_exists.mpr linked.reportCycles_ends⟩
  refine ⟨assembled.placed_iff n, fun _ path => ?_, fun unplaced => ?_,
    assembled.clear_iff linked keys node, Option.isSome_iff_exists.mpr (linked.ancestors_ends n),
    Option.isSome_iff_exists.mpr (linked.subtree_ends n)⟩
  · obtain ⟨k, length, leads⟩ := path.leads
    rw [length, (assembled.depth_eq n k).mpr ⟨path.hasRoot, leads⟩]
    rfl
  · have less := not_le.mp unplaced
    exact ⟨assembled.depth_unset n less, reported.unplaced n node less⟩

/-- A root, a grouping below it, and two groupings that refer to each other. -/
def twoTrees : List AcceleratorQuota :=
  [plainQuota "root" .cohort none, plainQuota "team" .cohort (some "root"),
    plainQuota "a" .cohort (some "b"), plainQuota "b" .cohort (some "a")]

theorem twoTrees_positions : ∃ t vs frozen,
    build twoTrees ⟨"root", 0⟩ = some (.ok (t, vs)) ∧ t.frozen vs = some frozen ∧
      t.depth "team" = 1 ∧ (t.subtree "a").isSome := by
  obtain ⟨t, vs, frozen, built, ends, positions, -⟩ :=
    clear_iff_sound_path twoTrees ⟨"root", 0⟩ (by decide)
  have path : RootChain twoTrees "root" "team" ["team", "root"] :=
    ⟨rfl, rfl, by decide, by decide, by decide, rfl⟩
  obtain ⟨-, depth, -⟩ := positions "team" (by decide)
  obtain ⟨-, -, -, -, -, below⟩ := positions "a" (by decide)
  have level : t.depth "team" + 1 = 2 := depth _ path
  exact ⟨t, vs, frozen, built, ends, by omega, below⟩

/-- A grouping without a name that sets a tier, and a tenant below it. -/
def namelessGroup : List AcceleratorQuota :=
  [plainQuota "root" .cohort none,
    { plainQuota "" .cohort (some "root") with priorityTier := "gold" },
    { plainQuota "tenant" .clusterQueue (some "") with budgets := [default] }]

/-- **A violation at the empty name freezes nothing**: the tenant is clear although
its parent is reported. -/
theorem namelessGroup_not_frozen : ∃ t vs frozen,
    build namelessGroup ⟨"root", 0⟩ = some (.ok (t, vs)) ∧ t.frozen vs = some frozen ∧
      t.parent "tenant" = some "" ∧ (∃ v ∈ vs, v.node = "") ∧ "tenant" ∉ frozen.keys ∧
      "" ∉ frozen.keys := by
  refine ⟨_, _, _, rfl, rfl, ?_⟩
  decide

/-! ## The cause a node is frozen by -/

/-- `m` is the nearest reported node at or above `n`: the walk up from `n` passes only
nodes without a violation before it. -/
def NearestCause (quotas : List AcceleratorQuota) (vs : List Violation) (n m : String) : Prop :=
  Relation.ReflTransGen (fun child parent => ParentOf quotas child parent ∧
    child ∉ violationNodes vs) n m ∧ m ∈ violationNodes vs

theorem exists_nearestCause {m : String} (chain : Relation.ReflTransGen (ParentOf quotas) n m)
    (reported : m ∈ violationNodes vs) : ∃ k, NearestCause quotas vs n k := by
  induction chain using head_induction_on with
  | refl => exact ⟨m, .refl, reported⟩
  | @head a b up _ ih =>
    by_cases own : a ∈ violationNodes vs
    · exact ⟨a, .refl, own⟩
    · obtain ⟨k, walk, found⟩ := ih
      exact ⟨k, .head ⟨up, own⟩ walk, found⟩

theorem NearestCause.above {m : String}
    (nearest : NearestCause quotas vs n m) : Relation.ReflTransGen (ParentOf quotas) n m :=
  mono (fun _ _ step => step.1) _ _ nearest.1

theorem primary_mem : ∀ {vs : List Violation}, vs ≠ [] → primary vs ∈ vs
  | v :: rest, _ => by
    rw [primary]
    refine foldlRecOn rest _ mem_cons_self fun best held w listed => ?_
    split
    · exact mem_cons_of_mem v listed
    · exact held

theorem primary_node {m : String} (reported : m ∈ violationNodes vs) :
    (primary (violationsFor vs m)).node = m := by
  obtain ⟨-, v, listed, own⟩ := mem_violationNodes.mp reported
  have some : violationsFor vs m ≠ [] := ne_nil_of_mem (mem_filter.mpr ⟨listed, by simpa using own⟩)
  exact of_decide_eq_true (mem_filter.mp (primary_mem some)).2

/-- The reported nodes are sorted, so one of those with a property comes first. -/
theorem exists_least_reported {P : String → Prop} {m : String} (reported : m ∈ violationNodes vs)
    (holds : P m) :
    ∃ first ∈ violationNodes vs, P first ∧ ∀ k ∈ violationNodes vs, P k → first ≤ k := by
  classical
  have sorted := (pairwise_insertionSort (· ≤ ·)
    ((vs.map Violation.node).filter (· ≠ "")).dedup).filter P
  rw [← violationNodes] at sorted
  have member {k : String} : k ∈ (violationNodes vs).filter P ↔ k ∈ violationNodes vs ∧ P k := by
    simp
  cases listed : (violationNodes vs).filter P with
  | nil => exact absurd (listed ▸ member.mpr ⟨reported, holds⟩) not_mem_nil
  | cons first rest =>
    obtain ⟨isReported, isP⟩ := member.mp (listed ▸ mem_cons_self)
    rw [listed, pairwise_cons] at sorted
    refine ⟨first, isReported, isP, fun k isK isPk => ?_⟩
    have isListed := member.mpr ⟨isK, isPk⟩
    rw [listed, mem_cons] at isListed
    rcases isListed with rfl | later
    · exact le_rfl
    · exact sorted.1 k later

/-- **A frozen node names its nearest cause exactly when that sorts first.**  On every list of
quotas, a frozen node without a violation of its own has a nearest reported node on
its chain of parents, and is frozen by the primary violation of that node exactly when no
other reported node on the chain has a smaller name. -/
theorem frozen_names_nearest (quotas : List AcceleratorQuota) (opts : Options)
    (named : opts.rootName ≠ "") :
    ∃ t vs frozen, build quotas opts = some (.ok (t, vs)) ∧ t.frozen vs = some frozen ∧
      ∀ n ∈ nodeNames quotas, n ∈ frozen.keys → n ∉ violationNodes vs →
        ∃ m, NearestCause quotas vs n m ∧
          (frozen.get n = primary (violationsFor vs m) ↔
            ∀ k ∈ violationNodes vs, Relation.ReflTransGen (ParentOf quotas) n k → m ≤ k) := by
  obtain ⟨t, vs, built, assembled, -, linked, -⟩ := build_ends quotas named
  obtain ⟨frozen, ends, keys⟩ := linked.frozen_keys vs
  refine ⟨t, vs, frozen, built, ends, fun n node held clean => ?_⟩
  obtain ⟨k, reported, -, chain⟩ := ((keys n).mp held).resolve_left clean
  obtain ⟨m, nearest⟩ := exists_nearestCause (assembled.chain_iff.mp chain) reported
  have own (d : String) : d ∈ ((violationNodes vs).foldl (fun frozen n => frozen.set n
      (primary (violationsFor vs n))) (empty : GoMap String Violation)).keys ↔
      d ∈ violationNodes vs := by
    rw [mem_keys_foldl_set]
    simp
  -- The cause is the primary violation of the reported node on the chain that sorts first.
  have cause {k : String} (reported : k ∈ violationNodes vs)
      (up : Relation.ReflTransGen (ParentOf quotas) n k)
      (least : ∀ k' ∈ violationNodes vs, Relation.ReflTransGen (ParentOf quotas) n k' → k ≤ k') :
      frozen.get n = primary (violationsFor vs k) := by
    have above := assembled.chain_iff.mpr up
    rw [linked.freeze_least (assembled.chain_known linked node above) above
      (pairwise_insertionSort _ _) reported
      (fun k' listed up' => least k' listed (assembled.chain_iff.mp up')) (mt (own n).mp clean)
      ((own k).mpr reported) ends, get_foldl_set, if_pos reported]
  refine ⟨m, nearest, fun named => ?_, fun least => cause nearest.2 nearest.above least⟩
  obtain ⟨first, listed, up, least⟩ := exists_least_reported nearest.2 nearest.above
  have same := congrArg Violation.node ((cause listed up least).symm.trans named)
  rw [primary_node listed, primary_node nearest.2] at same
  exact same ▸ least

/-- A grouping below another below the root, all but the leaf with a tier of their own. -/
def nestedGroups (outer inner : String) : List AcceleratorQuota :=
  [plainQuota "root" .cohort none,
    { plainQuota outer .cohort (some "root") with priorityTier := "gold" },
    { plainQuota inner .cohort (some outer) with priorityTier := "gold" },
    plainQuota "leaf" .cohort (some inner)]

theorem nestedGroups_names_nearest : ∃ t vs frozen m,
    build (nestedGroups "b" "a") ⟨"root", 0⟩ = some (.ok (t, vs)) ∧ t.frozen vs = some frozen ∧
      NearestCause (nestedGroups "b" "a") vs "leaf" m ∧
      frozen.get "leaf" = primary (violationsFor vs "a") := by
  obtain ⟨t, vs, frozen, built, ends, names⟩ :=
    frozen_names_nearest (nestedGroups "b" "a") ⟨"root", 0⟩ (by decide)
  cases built
  cases ends
  obtain ⟨m, nearest, -⟩ := names "leaf" (by decide) (by decide) (by decide)
  exact ⟨_, _, _, m, rfl, rfl, nearest, by decide⟩

/-- **A farther cause that sorts first is named instead.**  With the outer grouping
visited before the inner one, the leaf is frozen by the outer one's violation. -/
theorem nestedGroups_names_farther : ∃ t vs frozen,
    build (nestedGroups "a" "b") ⟨"root", 0⟩ = some (.ok (t, vs)) ∧ t.frozen vs = some frozen ∧
      "leaf" ∉ violationNodes vs ∧ NearestCause (nestedGroups "a" "b") vs "leaf" "b" ∧
      frozen.get "leaf" = primary (violationsFor vs "a") ∧
      frozen.get "leaf" ≠ primary (violationsFor vs "b") := by
  refine ⟨_, _, _, rfl, rfl, by decide, ⟨.single ⟨⟨rfl, by decide⟩, by decide⟩, by decide⟩, ?_⟩
  decide

end Ome.Quota
