/-
# Ome.Quota.Granted — the hub grants what was authored

Each budget is divided exactly or not at all (`Divides`, for the admin's own shares
and for proportional ones), so the allowances of a resolved leaf add up to its
budgets, pair by pair (`LeafSplit`).  A cluster is dropped only where every share of
the leaf is zero, and grouping by cluster loses nothing (`GoMap.sum_group`).
-/
import Ome.Quota.Allowances
import Ome.Quota.Conservation
import Ome.Quota.Containment
import Ome.Quota.ProjectionOrder

namespace Ome.Quota

open Ome.Theory GoMap List Decimal

set_option autoImplicit false

variable {b : AcceleratorBudget} {leaf : String} {a : Placed}
variable {out : List Placed} {budgets : List AcceleratorBudget}

/-! ## One budget -/

/-- Shares on distinct clusters that add up to a total. -/
structure Divides (total : Quantity) (shares : List Share) : Prop where
  distinct : (shares.map Share.cluster).Nodup
  sum : (shares.map fun s => s.nominal.dec.value).sum = total.dec.value

theorem Divides.perm {total : Quantity} {shares shares' : List Share}
    (divides : Divides total shares) (perm : shares'.Perm shares) : Divides total shares' where
  distinct := (perm.map _).nodup_iff.mpr divides.distinct
  sum := (perm.map _).sum_eq.trans divides.sum

theorem proportional_divides {total : Quantity} {weights : List Weight} {out : List Share}
    (run : proportional total weights = some (.ok out)) : Divides total out := by
  rcases proportional_cases total weights with ⟨e, refused⟩ | ⟨splittable, nonneg⟩
  · rw [refused] at run
    cases run
  · cases run.symm.trans (proportional_eq splittable nonneg)
    refine ⟨?_, ?_⟩
    · rw [map_map]
      exact (map_id (clusters weights)).symm ▸
        (clusters_perm weights).nodup_iff.mpr splittable.distinct
    · rw [map_map]
      exact splittable.sum_nominal nonneg

theorem takeShares_ok (b : AcceleratorBudget) : ∀ (ps : List AcceleratorClusterShare)
    (seen : List String) (out : List Share), takeShares b ps seen = .ok out →
    (out.map Share.cluster).Nodup ∧ ∀ s ∈ out, s.cluster ∉ seen
  | [], seen, out, run => by
    cases run
    simp
  | p :: rest, seen, out, run => by
    rw [takeShares] at run
    split at run
    · cases run
    rename_i fresh
    cases later : takeShares b rest (p.cluster :: seen) with
    | error e =>
      rw [later] at run
      cases run
    | ok shares =>
      rw [later] at run
      cases run
      obtain ⟨distinct, apart⟩ := takeShares_ok b rest _ shares later
      simp only [mem_cons, not_or] at apart
      rw [map_cons, nodup_cons, forall_mem_cons]
      refine ⟨⟨fun repeated => ?_, distinct⟩, fresh, fun s member => (apart s member).2⟩
      obtain ⟨s, member, same⟩ := mem_map.mp repeated
      exact (apart s member).1 same

theorem value_sumShares (shares : List Share) :
    (sumShares shares).dec.value = (shares.map fun s => s.nominal.dec.value).sum := by
  have run : shares.foldl (fun v s => v + s.nominal.dec.value) (Quantity.dec default).value =
      (sumShares shares).dec.value :=
    foldl_hom (fun q : Quantity => q.dec.value) fun total s =>
      (value_add total.dec s.nominal.dec).symm
  have zero : (Quantity.dec default).value = 0 := value_eq_zero _ |>.mpr rfl
  rw [← run, zero, sum_eq_foldl, foldl_map]

theorem explicit_divides {out : List Share} (run : explicit b = .ok out) :
    Divides b.nominal out := by
  rw [explicit] at run
  split at run
  · cases run
  split at run
  · cases run
  rename_i shares taken
  split at run
  · cases run
  rename_i equal
  cases run
  have sum := (cmp_eq _ _).mp (not_not.mp equal)
  have divides : Divides b.nominal shares :=
    ⟨(takeShares_ok b _ _ _ taken).1, (value_sumShares shares).symm.trans sum⟩
  exact divides.perm (perm_insertionSort _ _)

/-- What an allowance adds to the pair on the leaf. -/
def Allowance.weigh (leaf resource flavor : String) (a : Allowance) : ℚ :=
  if a.node = leaf ∧ a.resourceName = resource ∧ a.resourceFlavor = flavor then
    a.nominal.dec.value
  else 0

def Placed.pair (a : Placed) : String × String :=
  (a.allowance.resourceName, a.allowance.resourceFlavor)

/-- The allowances a budget of a leaf is split into. -/
structure BudgetSplit (leaf : String) (b : AcceleratorBudget) (out : List Placed) : Prop where
  own : ∀ a ∈ out, a.allowance.node = leaf ∧ a.pair = b.pair
  distinct : (out.map Placed.cluster).Nodup
  sum : (out.map fun a => a.allowance.nominal.dec.value).sum = b.value

theorem attach_split {shares : List Share}
    (divides : Divides b.nominal shares) : BudgetSplit leaf b (attach leaf b shares) where
  own := forall_mem_map.mpr fun _ _ => ⟨rfl, rfl⟩
  distinct := by
    rw [attach, map_map]
    exact divides.distinct
  sum := by
    rw [attach, map_map]
    exact divides.sum

theorem BudgetSplit.atHome (split : BudgetSplit leaf b out) (homes : List String) :
    BudgetSplit leaf b (atHome homes out) where
  own := forall_mem_map.mpr split.own
  distinct := by
    rw [Quota.atHome, map_map]
    exact split.distinct
  sum := by
    rw [Quota.atHome, map_map]
    exact split.sum

section Leaf

variable (byPair : GoMap (String × String) (List Weight))
  (homes : GoMap (String × String) (List String)) (silent : List String) (opts : ResolveOptions)

/-- A budget is divided exactly or not at all, and a proportional one not while a
member is silent. -/
theorem resolveBudget_cases (leaf : String) (q : AcceleratorQuota) (b : AcceleratorBudget) :
    (∃ e, resolveBudget byPair homes silent opts leaf q b = some (.error e)) ∨
      ∃ out, resolveBudget byPair homes silent opts leaf q b = some (.ok out) ∧
        BudgetSplit leaf b out ∧ (silent ≠ [] → effectivePolicy q b opts ≠ .proportional) := by
  rw [resolveBudget]
  split
  · rename_i policy
    cases taken : explicit b with
    | error e => exact .inl ⟨e, rfl⟩
    | ok shares =>
      refine .inr ⟨_, rfl, attach_split (explicit_divides taken), fun _ => ?_⟩
      rw [policy]
      decide
  · split
    · exact .inl ⟨_, rfl⟩
    rename_i all
    split
    · exact .inl ⟨_, rfl⟩
    rcases proportional_cases b.nominal (byPair.get b.pair) with ⟨e, refused⟩ | ⟨splittable, nonneg⟩
    · rw [refused]
      exact .inl ⟨_, rfl⟩
    · have run := proportional_eq splittable nonneg
      rw [run]
      exact .inr ⟨_, rfl, (attach_split (proportional_divides run)).atHome _,
        fun silence => absurd silence all⟩
  · exact .inl ⟨_, rfl⟩

/-! ## One leaf -/

/-- What an allowance is on its leaf. -/
def Placed.slot (a : Placed) : String × String × String := (a.cluster, a.pair)

/-- The allowances of a leaf. -/
structure LeafSplit (leaf : String) (budgets : List AcceleratorBudget) (out : List Placed) :
    Prop where
  own : ∀ a ∈ out, a.allowance.node = leaf ∧ ∃ b ∈ budgets, a.pair = b.pair
  distinct : (budgets.map AcceleratorBudget.pair).Nodup → (out.map Placed.slot).Nodup
  sum : ∀ resource flavor, (out.map fun a => a.allowance.weigh leaf resource flavor).sum =
    ((budgets.filter (·.IsFor resource flavor)).map AcceleratorBudget.value).sum

theorem BudgetSplit.weigh (split : BudgetSplit leaf b out) (resource flavor : String) :
    (out.map fun a => a.allowance.weigh leaf resource flavor).sum =
      if b.IsFor resource flavor then b.value else 0 := by
  have each (a : Placed) (member : a ∈ out) : a.allowance.weigh leaf resource flavor =
      if b.IsFor resource flavor then a.allowance.nominal.dec.value else 0 := by
    obtain ⟨node, pair⟩ := split.own a member
    have same : (a.allowance.resourceName = resource ∧ a.allowance.resourceFlavor = flavor) ↔
        b.IsFor resource flavor := by
      rw [AcceleratorBudget.IsFor, (Prod.mk.inj pair).1, (Prod.mk.inj pair).2]
    simp only [Allowance.weigh, node, true_and, same]
  rw [map_congr_left each]
  split
  · exact split.sum
  · simp

theorem LeafSplit.cons {first later : List Placed} (split : BudgetSplit leaf b first)
    (rest : LeafSplit leaf budgets later) : LeafSplit leaf (b :: budgets) (first ++ later) where
  own := by
    intro a member
    rcases mem_append.mp member with here | there
    · exact ⟨(split.own a here).1, b, mem_cons_self, (split.own a here).2⟩
    · obtain ⟨node, c, listed, pair⟩ := rest.own a there
      exact ⟨node, c, mem_cons_of_mem b listed, pair⟩
  distinct := by
    intro pairs
    rw [map_cons, nodup_cons] at pairs
    rw [map_append, nodup_append]
    refine ⟨?_, rest.distinct pairs.2, ?_⟩
    · refine List.Nodup.of_map Prod.fst ?_
      rw [map_map]
      exact split.distinct
    · -- The pairs differ, so the slots do.
      rintro slot here slot' there rfl
      obtain ⟨a, member, rfl⟩ := mem_map.mp here
      obtain ⟨a', member', same⟩ := mem_map.mp there
      obtain ⟨-, c, listed, pair⟩ := rest.own a' member'
      apply pairs.1
      rw [← (split.own a member).2, ← (Prod.mk.inj same).2, pair]
      exact mem_map_of_mem listed
  sum := by
    intro resource flavor
    rw [map_append, List.sum_append, split.weigh, rest.sum, filter_cons]
    by_cases own : b.IsFor resource flavor
    · simp [own]
    · simp [own]

/-- A leaf is split budget by budget, or not at all. -/
theorem resolveBudgets_cases (leaf : String) (q : AcceleratorQuota) :
    ∀ budgets : List AcceleratorBudget,
      (∃ e, resolveBudgets byPair homes silent opts leaf q budgets = some (.error e)) ∨
      ∃ out, resolveBudgets byPair homes silent opts leaf q budgets = some (.ok out) ∧
        LeafSplit leaf budgets out ∧
        (silent ≠ [] → ∀ b ∈ budgets, effectivePolicy q b opts ≠ .proportional)
  | [] => .inr ⟨[], rfl, ⟨by simp, by simp, by simp⟩, by simp⟩
  | b :: rest => by
    rcases resolveBudget_cases byPair homes silent opts leaf q b with
      ⟨e, refused⟩ | ⟨first, run, split, policy⟩
    · refine .inl ⟨e, ?_⟩
      rw [resolveBudgets, refused]
      rfl
    · rcases resolveBudgets_cases leaf q rest with ⟨e, refused⟩ | ⟨later, runs, splits, policies⟩
      · refine .inl ⟨e, ?_⟩
        rw [resolveBudgets, run, Option.bind_some, refused]
        rfl
      · refine .inr ⟨first ++ later, ?_, .cons split splits, fun silence => ?_⟩
        · rw [resolveBudgets, run, Option.bind_some, runs]
          rfl
        · rw [forall_mem_cons]
          exact ⟨policy silence, policies silence⟩

end Leaf

/-! ## Clusters -/

theorem dropped_zero {resolved : List Placed} (member : a ∈ resolved)
    (dropped : a ∉ onItsClusters resolved) : a.allowance.nominal.dec.value = 0 := by
  by_contra some
  refine dropped (mem_filter.mpr ⟨member, ?_⟩)
  rw [decide_eq_true_eq]
  refine mem_map_of_mem (mem_filter.mpr ⟨member, ?_⟩)
  have nonzero := mt (value_eq_zero _).mpr some
  simp [Quantity.isZero, nonzero]

theorem onItsClusters_sublist (resolved : List Placed) :
    (onItsClusters resolved).Sublist resolved := filter_sublist

theorem sum_onItsClusters (resolved : List Placed) (leaf resource flavor : String) :
    ((onItsClusters resolved).map fun a => a.allowance.weigh leaf resource flavor).sum =
      (resolved.map fun a => a.allowance.weigh leaf resource flavor).sum := by
  have each (a : Placed) (member : a ∈ resolved) : a.allowance.weigh leaf resource flavor =
      if a ∈ onItsClusters resolved then a.allowance.weigh leaf resource flavor else 0 := by
    split
    · rfl
    · rename_i dropped
      rw [Allowance.weigh, dropped_zero member dropped, ite_self]
  have kept : resolved.filter (· ∈ onItsClusters resolved) = onItsClusters resolved := by
    refine filter_congr fun a member => decide_eq_decide.mpr ?_
    rw [onItsClusters, mem_filter, decide_eq_true_eq]
    exact and_iff_right member
  rw [map_congr_left each, sum_map_ite, kept]
  simp

/-! ## The pass -/

/-- What a pass keeps of a leaf. -/
def kept (split : String → Option (Except Unresolved (List Placed))) (leaf : String) :
    List Placed :=
  match split leaf with
  | some (.ok resolved) => onItsClusters resolved
  | _ => []

theorem resolveNext_run {split : String → Option (Except Unresolved (List Placed))}
    (ends : ∀ leaf, ∃ result, split leaf = some result) :
    ∀ (leaves : List String) (out : Resolution),
      ∃ unresolved : GoMap String Unresolved,
        leaves.foldlM (resolveNext split) out = some
          ⟨group Placed.cluster Placed.allowance (leaves.flatMap (kept split)) out.byCluster,
            unresolved⟩ ∧
        ∀ leaf, leaf ∈ unresolved.keys ↔
          leaf ∈ out.unresolved.keys ∨ leaf ∈ leaves ∧ ∃ e, split leaf = some (.error e)
  | [], out => ⟨out.unresolved, rfl, by simp⟩
  | leaf :: rest, out => by
    obtain ⟨result, run⟩ := ends leaf
    cases result with
    | error e =>
      obtain ⟨unresolved, pass, keys⟩ := resolveNext_run ends rest
        { out with unresolved := out.unresolved.set leaf e }
      refine ⟨unresolved, ?_, fun n => ?_⟩
      · rw [foldlM_cons, resolveNext, run, flatMap_cons, kept, run]
        exact pass
      · rw [keys]
        simp only [mem_keys_set, mem_cons]
        by_cases same : n = leaf
        · simp [same, run]
        · simp [same]
    | ok resolved =>
      obtain ⟨unresolved, pass, keys⟩ := resolveNext_run ends rest
        ⟨group Placed.cluster Placed.allowance (onItsClusters resolved) out.byCluster,
          out.unresolved⟩
      refine ⟨unresolved, ?_, fun n => ?_⟩
      · rw [foldlM_cons, resolveNext, run, flatMap_cons, kept, run, group,
          foldl_append]
        exact pass
      · rw [keys]
        simp only [mem_cons]
        by_cases same : n = leaf
        · simp [same, run]
        · simp [same]


/-- What is granted for a pair of a leaf, over all clusters. -/
def Resolution.granted (res : Resolution) (leaf resource flavor : String) : ℚ :=
  (res.byCluster.keys.map fun c =>
    ((res.byCluster.get c).map (Allowance.weigh leaf resource flavor)).sum).sum

section Pass

variable (t : Tree) (fleet : Fleet) (opts : ResolveOptions)

theorem splitLeaf_cases (leaf : String) :
    (∃ e, splitLeaf t fleet opts leaf = some (.error e)) ∨
      ∃ out, splitLeaf t fleet opts leaf = some (.ok out) ∧
        LeafSplit leaf (t.quota leaf).budgets out ∧
        (fleet.silent ≠ [] → ∀ b ∈ (t.quota leaf).budgets,
          effectivePolicy (t.quota leaf) b opts ≠ .proportional) :=
  resolveBudgets_cases _ _ _ _ leaf _ _

theorem splitLeaf_ends (leaf : String) : ∃ result, splitLeaf t fleet opts leaf = some result := by
  rcases splitLeaf_cases t fleet opts leaf with ⟨e, run⟩ | ⟨out, run, -⟩
  · exact ⟨_, run⟩
  · exact ⟨_, run⟩

/-- What is kept of a leaf: nothing, or what its budgets were split into. -/
theorem mem_kept (member : a ∈ kept (splitLeaf t fleet opts) leaf) :
    ∃ out, splitLeaf t fleet opts leaf = some (.ok out) ∧ a ∈ out ∧
      LeafSplit leaf (t.quota leaf).budgets out ∧
      (fleet.silent ≠ [] → ∀ b ∈ (t.quota leaf).budgets,
        effectivePolicy (t.quota leaf) b opts ≠ .proportional) := by
  rcases splitLeaf_cases t fleet opts leaf with ⟨e, run⟩ | ⟨out, run, split, held⟩
  · rw [kept, run] at member
    cases member
  · rw [kept, run] at member
    exact ⟨out, run, (onItsClusters_sublist out).subset member, split, held⟩

theorem node_of_kept
    (member : a ∈ kept (splitLeaf t fleet opts) leaf) : a.allowance.node = leaf := by
  obtain ⟨out, -, listed, split, -⟩ := mem_kept t fleet opts member
  exact (split.own a listed).1

theorem nodup_kept (pairs : ((t.quota leaf).budgets.map AcceleratorBudget.pair).Nodup) :
    ((kept (splitLeaf t fleet opts) leaf).map Placed.slot).Nodup := by
  rcases splitLeaf_cases t fleet opts leaf with ⟨e, run⟩ | ⟨out, run, split, -⟩
  · rw [kept, run]
    exact nodup_nil
  · rw [kept, run]
    exact (split.distinct pairs).sublist ((onItsClusters_sublist out).map _)

theorem resolve_run : ∃ res, resolve t fleet opts = some res ∧
    (∀ leaf, leaf ∈ res.unresolved.keys ↔
      leaf ∈ t.leaves ∧ ∃ e, splitLeaf t fleet opts leaf = some (.error e)) ∧
    (∀ c, (res.byCluster.get c).Perm (((t.leaves.flatMap (kept (splitLeaf t fleet opts))).filter
      (·.cluster = c)).map Placed.allowance)) ∧
    ∀ leaf resource flavor, res.granted leaf resource flavor =
      ((t.leaves.flatMap (kept (splitLeaf t fleet opts))).map fun a =>
        a.allowance.weigh leaf resource flavor).sum := by
  obtain ⟨unresolved, pass, keys⟩ := resolveNext_run (splitLeaf_ends t fleet opts) t.leaves
    ⟨.empty, .empty⟩
  refine ⟨_, by rw [resolve, pass]; rfl, fun leaf => ?_, fun c => ?_,
    fun leaf resource flavor => ?_⟩
  · rw [keys]
    exact or_iff_right not_mem_nil
  · rw [get_rewrite rfl, get_group]
    exact perm_insertionSort _ _
  · rw [Resolution.granted]
    refine (sum_rewrite rfl (fun v : List Allowance =>
      (v.map (Allowance.weigh leaf resource flavor)).sum) rfl (fun v => ?_) _).trans ?_
    · exact ((perm_insertionSort _ v).map _).sum_eq
    · exact (sum_group _ _ _ _ _).trans (zero_add _)

/-- A leaf that is split is granted what its budgets total. -/
theorem granted_eq (node : leaf ∈ t.leaves)
    (run : splitLeaf t fleet opts leaf = some (.ok out)) (resource flavor : String) :
    ((t.leaves.flatMap (kept (splitLeaf t fleet opts))).map fun a =>
      a.allowance.weigh leaf resource flavor).sum =
      (t.quota leaf).nominalFor resource flavor := by
  have distinct : t.leaves.Nodup := t.nodes.nodup_sortedKeys.filter _
  have others (other : String) (apart : other ≠ leaf) (_ : other ∈ t.leaves) :
      ((kept (splitLeaf t fleet opts) other).map fun a =>
        a.allowance.weigh leaf resource flavor).sum = 0 := by
    refine sum_eq_zero fun x member => ?_
    obtain ⟨a, listed, rfl⟩ := mem_map.mp member
    have node := node_of_kept t fleet opts listed
    rw [Allowance.weigh, if_neg fun same => apart (node.symm.trans same.1)]
  have own : ((kept (splitLeaf t fleet opts) leaf).map fun a =>
      a.allowance.weigh leaf resource flavor).sum = (t.quota leaf).nominalFor resource flavor := by
    rcases splitLeaf_cases t fleet opts leaf with ⟨e, refused⟩ | ⟨_, again, split, -⟩
    · rw [refused] at run
      cases run
    · cases run.symm.trans again
      rw [kept, run]
      exact (sum_onItsClusters out leaf resource flavor).trans (split.sum resource flavor)
  calc ((t.leaves.flatMap (kept (splitLeaf t fleet opts))).map fun a =>
        a.allowance.weigh leaf resource flavor).sum
      = (t.leaves.map fun other => ((kept (splitLeaf t fleet opts) other).map fun a =>
          a.allowance.weigh leaf resource flavor).sum).sum := by
        rw [map_flatMap, flatMap_def, sum_flatten, map_map]
        rfl
    _ = t.leaves.count leaf • (t.quota leaf).nominalFor resource flavor := by
        rw [sum_map_eq_nsmul_single leaf _ others, own]
    _ = (t.quota leaf).nominalFor resource flavor := by
        rw [count_eq_one_of_mem distinct node, one_nsmul]

/-- The pass puts no two allowances under one leaf, cluster and pair. -/
theorem nodup_slots (pairs : ∀ leaf ∈ t.leaves,
    ((t.quota leaf).budgets.map AcceleratorBudget.pair).Nodup) :
    ((t.leaves.flatMap (kept (splitLeaf t fleet opts))).map fun a =>
      (a.allowance.node, a.slot)).Nodup := by
  have distinct : t.leaves.Nodup := t.nodes.nodup_sortedKeys.filter _
  rw [map_flatMap, nodup_flatMap]
  refine ⟨fun leaf node => ?_, distinct.imp fun {leaf other} apart => ?_⟩
  · refine List.Nodup.of_map Prod.snd ?_
    rw [map_map]
    exact nodup_kept t fleet opts (pairs leaf node)
  · intro slot here there
    obtain ⟨a, listed, rfl⟩ := mem_map.mp here
    obtain ⟨a', listed', same⟩ := mem_map.mp there
    apply apart
    rw [← node_of_kept t fleet opts listed, ← node_of_kept t fleet opts listed']
    exact (Prod.mk.inj same).1.symm

end Pass

theorem nodup_pairs
    (single : ∀ resource flavor, (budgets.filter (·.IsFor resource flavor)).length ≤ 1) :
    (budgets.map AcceleratorBudget.pair).Nodup := by
  refine nodup_iff_count_le_one.mpr fun pair => ?_
  have count : (budgets.map AcceleratorBudget.pair).count pair =
      (budgets.filter (·.IsFor pair.1 pair.2)).length := by
    rw [count_eq_countP, countP_map, countP_eq_length_filter]
    congr 2
    funext b
    rw [Bool.eq_iff_iff, decide_eq_true_eq]
    simp [AcceleratorBudget.pair, AcceleratorBudget.IsFor, Prod.ext_iff]
  exact count ▸ single pair.1 pair.2

/-- **The hub never grants more or less than was authored.**  For every tree whose
leaves carry at most one budget per pair, every fleet report and every default
policy the pass ends.  No leaf has both an allowance and a reason why it has none;
what is granted for a pair of a leaf that is resolved is its budget, because what is
dropped is zero; no two allowances on a cluster are for one pair of one leaf; and
while a registered member is silent no leaf with a proportional budget has any. -/
theorem resolve_grants_authored (t : Tree)
    (single : ∀ leaf ∈ t.leaves, ∀ resource flavor,
      ((t.quota leaf).budgets.filter (·.IsFor resource flavor)).length ≤ 1)
    (fleet : Fleet) (opts : ResolveOptions) :
    ∃ res, resolve t fleet opts = some res ∧
      (∀ c, ∀ a ∈ res.byCluster.get c, a.node ∉ res.unresolved.keys) ∧
      (∀ leaf ∈ t.leaves, leaf ∉ res.unresolved.keys → ∀ b ∈ (t.quota leaf).budgets,
        res.granted leaf b.resourceName b.resourceFlavor = b.value) ∧
      (∀ leaf out, splitLeaf t fleet opts leaf = some (.ok out) →
        ∀ a ∈ out, a ∉ onItsClusters out → a.allowance.nominal.dec.value = 0) ∧
      (∀ c, ((res.byCluster.get c).map fun a =>
        (a.node, a.resourceName, a.resourceFlavor)).Nodup) ∧
      ((∃ m ∈ fleet.registered, m ∉ fleet.reported) → ∀ leaf ∈ t.leaves,
        (∃ b ∈ (t.quota leaf).budgets, effectivePolicy (t.quota leaf) b opts = .proportional) →
        ∀ c, ∀ a ∈ res.byCluster.get c, a.node ≠ leaf) := by
  obtain ⟨res, run, unresolved, onCluster, granted⟩ := resolve_run t fleet opts
  have origin (c : String) (a : Allowance) (member : a ∈ res.byCluster.get c) :
      ∃ placed, placed ∈ kept (splitLeaf t fleet opts) a.node ∧ placed.allowance = a := by
    obtain ⟨placed, listed, rfl⟩ := mem_map.mp ((onCluster c).mem_iff.mp member)
    obtain ⟨leaf, -, kept⟩ := mem_flatMap.mp (mem_of_mem_filter listed)
    exact ⟨placed, node_of_kept t fleet opts kept ▸ kept, rfl⟩
  refine ⟨res, run, fun c a member refused => ?_, fun leaf node clear b own => ?_,
    fun leaf out _ a member dropped => dropped_zero member dropped, fun c => ?_,
    fun silence leaf node proportional c a member same => ?_⟩
  · obtain ⟨placed, kept, rfl⟩ := origin c a member
    obtain ⟨out, split, -⟩ := mem_kept t fleet opts kept
    obtain ⟨-, e, error⟩ := (unresolved _).mp refused
    cases split.symm.trans error
  · rcases splitLeaf_cases t fleet opts leaf with refused | ⟨out, split, -⟩
    · exact absurd ((unresolved leaf).mpr ⟨node, refused⟩) clear
    · rw [granted, granted_eq t fleet opts node split]
      exact nominalFor_eq_value own ⟨rfl, rfl⟩ (single leaf node _ _)
  · have slots := nodup_slots t fleet opts fun leaf node => nodup_pairs (single leaf node)
    rw [((onCluster c).map _).nodup_iff, map_map]
    -- On one cluster the leaf and the pair determine the slot.
    refine List.Nodup.of_map (fun key => (key.1, c, key.2)) ?_
    rw [map_map]
    have same : ∀ a ∈ (t.leaves.flatMap (kept (splitLeaf t fleet opts))).filter (·.cluster = c),
        (a.allowance.node, a.slot) = (a.allowance.node, c, a.pair) := by
      intro a member
      rw [← of_decide_eq_true (mem_filter.mp member).2]
      rfl
    change (List.map (fun a : Placed => (a.allowance.node, c, a.pair)) _).Nodup
    rw [← map_congr_left same]
    exact slots.sublist (filter_sublist.map _)
  · obtain ⟨placed, kept, rfl⟩ := origin c a member
    obtain ⟨out, -, -, -, held⟩ := mem_kept t fleet opts kept
    obtain ⟨m, registered, missing⟩ := silence
    have silent : fleet.silent ≠ [] := ne_nil_of_mem
      ((mem_insertionSort _).mpr (mem_filter.mpr ⟨registered, by simpa using missing⟩))
    obtain ⟨b, own, policy⟩ := proportional
    exact held silent b (same ▸ own) (same ▸ policy)

/-- Two members with four chips between them. -/
def twoMembers : Fleet where
  registered := ["east", "west"]
  reported := ["west", "east"]
  capacity := [⟨"west", "gpu", "h100", ⟨⟨1, 0⟩, .decimalSI⟩, ⟨⟨1, 0⟩, .decimalSI⟩⟩,
    ⟨"east", "gpu", "h100", ⟨⟨3, 0⟩, .decimalSI⟩, ⟨⟨3, 0⟩, .decimalSI⟩⟩]

theorem smallFleet_grants_authored : ∃ t res, build smallFleet ⟨"root", 0⟩ = some (.ok (t, [])) ∧
    resolve t twoMembers ⟨.proportional⟩ = some res ∧ res.unresolved.keys = [] ∧
    (res.byCluster.get "east").map (fun a => (a.node, a.nominal.dec.unscaled)) =
      [("a", 3), ("b", 1), ("c", 2)] ∧
    res.granted "a" "gpu" "h100" = (gpuBudget 4).value := by
  have built : build smallFleet ⟨"root", 0⟩ = some (.ok (_, [])) := rfl
  have small : ∀ q ∈ smallFleet, q.budgets.length ≤ 1 := by decide
  obtain ⟨assembled, -⟩ := build_clean built
  obtain ⟨res, run, -, granted, -⟩ := resolve_grants_authored _ (fun leaf node _ _ =>
    (length_filter_le _ _).trans (small _ (assembled.quota_mem ((assembled.mem_keys leaf).mp
      (Tree.mem_names.mp (mem_of_mem_filter node)))).1)) twoMembers ⟨.proportional⟩
  refine ⟨_, res, built, run, ?_, ?_, ?_⟩
  · cases run
    rfl
  · cases run
    decide
  · exact granted "a" (by decide) (by cases run; decide) (gpuBudget 4) (by decide)

/-! ## The pass of the hub -/

/-- A member's allowances without the nodes that are held. -/
def withholdHeldAllowances (heldBy : List String) (allowances : List Allowance) :
    List Allowance :=
  allowances.filter (·.node ∉ heldBy)

/-- **What the hub resolves it can project**: over a tree without a violation, whatever the
fleet reports and whichever nodes are held, every member gets its part of the tree, shallowest
first, with exactly its allowances on the leaves. -/
theorem resolution_projects {quotas : List AcceleratorQuota} {opts : Options} {t : Tree}
    (built : build quotas opts = some (.ok (t, [])))
    (hung : ∀ q ∈ quotas, q.role = .clusterQueue → q.parentRef ≠ none)
    {popts : ProjectionOptions} (configured : popts.origin ≠ "") (fleet : Fleet)
    (ropts : ResolveOptions) (heldBy : List String) :
    ∃ res, resolve t fleet ropts = some res ∧ ∀ cluster ≠ "", ∃ out,
      projectFor t cluster (withholdHeldAllowances heldBy (res.byCluster.get cluster)) popts =
        some (.ok out) ∧ Projected t opts.rootName out ∧
      Renders (withholdHeldAllowances heldBy (res.byCluster.get cluster)) out := by
  obtain ⟨assembled, clean, linked, measured⟩ := build_clean built
  obtain ⟨res, run, -, onCluster, -⟩ := resolve_run t fleet ropts
  refine ⟨res, run, fun cluster named => ?_⟩
  have carried : ∀ a ∈ withholdHeldAllowances heldBy (res.byCluster.get cluster),
      a.node ∈ t.leaves ∧ (t.quota a.node).Carries a.resourceName a.resourceFlavor := by
    intro a member
    obtain ⟨placed, listed, rfl⟩ :=
      mem_map.mp ((onCluster cluster).mem_iff.mp (mem_of_mem_filter member))
    obtain ⟨leaf, node, kept⟩ := mem_flatMap.mp (mem_of_mem_filter listed)
    obtain ⟨out, -, given, split, -⟩ := mem_kept t fleet ropts kept
    obtain ⟨rfl, b, own, pair⟩ := split.own placed given
    exact ⟨node, b, own, Prod.mk.inj pair.symm⟩
  exact projectFor_ok assembled clean linked measured hung named configured carried

theorem smallFleet_projects : ∃ t res, build smallFleet ⟨"root", 0⟩ = some (.ok (t, [])) ∧
    resolve t twoMembers ⟨.proportional⟩ = some res ∧ ∃ out,
      projectFor t "east" (withholdHeldAllowances ["b"] (res.byCluster.get "east")) ⟨"hub"⟩ =
        some (.ok out) ∧
      out.map (fun q => (q.name, q.budgets.map (·.nominal.dec.unscaled))) =
        [("c", [2]), ("team", []), ("a", [3])] ∧ Projected t "root" out := by
  obtain ⟨res, run, projects⟩ := @resolution_projects smallFleet ⟨"root", 0⟩ _ rfl (by decide)
    ⟨"hub"⟩ (by decide) twoMembers ⟨.proportional⟩ ["b"]
  obtain ⟨out, projected, holds, -⟩ := projects "east" (by decide)
  refine ⟨_, res, rfl, run, out, projected, ?_, holds⟩
  cases run
  cases projected
  decide

end Ome.Quota
