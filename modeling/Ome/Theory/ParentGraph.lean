/-
# Ome.Theory.ParentGraph — walks over parent links

Every node of a finite graph has at most one parent.  A chain of parents may end
at any node or run into a cycle, so a walk along the links has to remember what
it has seen.  Three walks, each with a bound on its rounds; `none` is a walk that
is not over within the bound.

* `climb` follows the parents of a node until there is none or one repeats;
* `descend` lists what lies below a node, parents first;
* `levels` counts the links between a root and what lies below it, breadth first.

`climb_ends`, `descend_ends` and `levels_ends`: the number of nodes bounds every
walk, cycles included.  `mem_descend` and `levels_eq` say what the last two find.
-/
import Ome.Theory.Runs
import Mathlib.Data.List.Chain
import Mathlib.Data.List.Dedup
import Mathlib.Data.List.Perm.Subperm

namespace Ome.Theory.ParentGraph

open List Function

set_option autoImplicit false
set_option linter.unusedSectionVars false

variable {α : Type}
variable {a n : α} {nodes : List α}

/-- `b` is `a` or a parent of a parent of `a`. -/
def OnChain (parent : α → Option α) : α → α → Prop :=
  Relation.ReflTransGen fun a b => parent a = some b

/-- `a` is `n` links below `root`. -/
inductive Leads (parent : α → Option α) (root : α) : α → Nat → Prop
  | root : Leads parent root root 0
  | link {a b : α} {n : Nat} (up : parent a = some b) (rest : Leads parent root b n) :
      Leads parent root a (n + 1)

variable {parent : α → Option α} {root : α}

/-- A root has no parent, so the links below it are counted in one way. -/
theorem Leads.unique (parentless : parent root = none) {n m : Nat}
    (leads : Leads parent root a n) (other : Leads parent root a m) : n = m := by
  induction leads generalizing m with
  | root =>
    cases other with
    | root => rfl
    | link up _ => rw [parentless] at up; cases up
  | link up _ ih =>
    cases other with
    | root => rw [parentless] at up; cases up
    | link up' rest' =>
      cases up.symm.trans up'
      rw [ih rest']

/-- The chain from a node up to the root repeats nothing: every member is at a
level of its own. -/
theorem Leads.chain (parentless : parent root = none) {n : Nat} (leads : Leads parent root a n) :
    ∃ rest : List α, (a :: rest).getLast? = some root ∧ (a :: rest).Nodup ∧
      (a :: rest).IsChain (fun a b => parent a = some b) ∧
      ∀ b ∈ a :: rest, ∃ m ≤ n, Leads parent root b m := by
  induction leads with
  | root =>
    refine ⟨[], rfl, nodup_singleton _, .singleton _, fun b member => ?_⟩
    exact ⟨0, Nat.le_refl 0, mem_singleton.mp member ▸ .root⟩
  | @link a b n up rest ih =>
    obtain ⟨above, last, distinct, linked, levels⟩ := ih
    have fresh : a ∉ b :: above := by
      intro member
      obtain ⟨m, low, other⟩ := levels a member
      have := other.unique parentless (.link up rest)
      omega
    refine ⟨b :: above, by rwa [getLast?_cons_cons],
      nodup_cons.mpr ⟨fresh, distinct⟩, isChain_cons_cons.mpr ⟨up, linked⟩, ?_⟩
    intro c member
    rcases mem_cons.mp member with rfl | higher
    · exact ⟨n + 1, Nat.le_refl _, .link up rest⟩
    · obtain ⟨m, low, level⟩ := levels c higher
      exact ⟨m, by omega, level⟩

/-- A chain that ends at a node without a parent lists everything above its first. -/
theorem mem_chain_iff : ∀ {a : α} {rest : List α},
    (a :: rest).IsChain (fun a b => parent a = some b) →
    (∀ b, (a :: rest).getLast? = some b → parent b = none) →
    ∀ b, b ∈ a :: rest ↔ OnChain parent a b
  | a, [], _, ends, b => by
    rw [mem_singleton]
    constructor
    · rintro rfl
      exact .refl
    · intro chain
      cases Relation.ReflTransGen.cases_head chain with
      | inl same => exact same.symm
      | inr first =>
        obtain ⟨c, up, -⟩ := first
        rw [ends a rfl] at up
        cases up
  | a, c :: rest, linked, ends, b => by
    obtain ⟨up, above⟩ := isChain_cons_cons.mp linked
    rw [mem_cons, mem_chain_iff above (by simpa [getLast?_cons_cons] using ends) b]
    constructor
    · rintro (rfl | chain)
      · exact .refl
      · exact .head up chain
    · intro chain
      cases Relation.ReflTransGen.cases_head chain with
      | inl same => exact .inl same.symm
      | inr first =>
        obtain ⟨d, up', higher⟩ := first
        cases up.symm.trans up'
        exact .inr higher

/-! ## What is not seen yet -/

variable [DecidableEq α]

/-- The number of nodes outside a list. -/
def unseen (nodes seen : List α) : Nat := (nodes.filter (· ∉ seen)).length

theorem unseen_mono {seen more : List α} (subset : seen ⊆ more) :
    unseen nodes more ≤ unseen nodes seen := by
  apply Sublist.length_le
  apply monotone_filter_right
  intro a fresh
  simp only [decide_eq_true_eq] at fresh ⊢
  exact fun member => fresh (subset member)

theorem unseen_lt {seen : List α} (node : a ∈ nodes) (fresh : a ∉ seen) :
    unseen nodes (seen ++ [a]) < unseen nodes seen := by
  have split : nodes.filter (· ∉ seen ++ [a]) =
      (nodes.filter (· ∉ seen)).filter (· ≠ a) := by
    rw [filter_filter]
    refine filter_congr fun b _ => ?_
    simp [not_or, Bool.decide_and, Bool.and_comm]
  rw [unseen, unseen, split]
  refine length_filter_lt_length_iff_exists.mpr ⟨a, ?_, by simp⟩
  simpa using ⟨node, fresh⟩

/-! ## Up -/

/-- Follow the parents from `next`, collecting them behind `path`.  The walk stops
at a node without a parent, or at one it has collected, which it returns. -/
def climb (parent : α → Option α) : Nat → List α → Option α → Option (List α × Option α)
  | _, path, none => some (path, none)
  | 0, _, some _ => none
  | rounds + 1, path, some a =>
    if a ∈ path then some (path, some a)
    else climb parent rounds (path ++ [a]) (parent a)

/-- **A climb ends**, on every chain. -/
theorem climb_ends (closed : ∀ a p, parent a = some p → p ∈ nodes) :
    ∀ (rounds : Nat) (path : List α) (next : Option α), (∀ a, next = some a → a ∈ nodes) →
      unseen nodes path < rounds → ∃ result, climb parent rounds path next = some result
  | rounds, path, none, _, _ => ⟨(path, none), by cases rounds <;> rfl⟩
  | 0, _, some _, _, enough => absurd enough (Nat.not_lt_zero _)
  | rounds + 1, path, some a, known, enough => by
    rw [climb]
    split
    · exact ⟨_, rfl⟩
    · rename_i fresh
      have fewer := unseen_lt (known a rfl) fresh
      exact climb_ends closed rounds _ _ (closed a) (by omega)

/-- A chain without a repetition is climbed to its end. -/
theorem climb_chain : ∀ {chain path : List α} {rounds : Nat},
    chain.IsChain (fun a b => parent a = some b) → (path ++ chain).Nodup →
    (∀ a, chain.getLast? = some a → parent a = none) → chain.length ≤ rounds →
    climb parent rounds path chain.head? = some (path ++ chain, none)
  | [], path, rounds, _, _, _, _ => by cases rounds <;> simp [climb]
  | a :: rest, path, 0, _, _, _, enough => absurd enough (by simp)
  | a :: rest, path, rounds + 1, linked, distinct, ends, enough => by
    have fresh : a ∉ path := fun member =>
      (disjoint_of_nodup_append distinct) member mem_cons_self
    have next : parent a = rest.head? := by
      cases rest with
      | nil => exact ends a rfl
      | cons b rest => exact (isChain_cons_cons.mp linked).1
    rw [head?_cons, climb, if_neg fresh, next]
    have behind : path ++ [a] ++ rest = path ++ a :: rest := by simp
    have last : ∀ b, rest.getLast? = some b → parent b = none := by
      intro b last
      apply ends b
      cases rest with
      | nil => cases last
      | cons c rest => rwa [getLast?_cons_cons]
    rw [← behind] at distinct ⊢
    exact climb_chain linked.tail distinct last (by simpa using enough)

/-! ## Down -/

/-- List `n` and what is below it behind `out`, parents first, skipping what is
listed. -/
def descend (children : α → List α) : Nat → List α → α → Option (List α)
  | 0, _, _ => none
  | rounds + 1, out, n =>
    if n ∈ out then some out
    else (children n).foldlM (descend children rounds) (out ++ [n])

variable {children : α → List α}

/-- What a walk down from `n` adds to a list. -/
structure Descended (children : α → List α) (out : List α) (ns : List α) (out' : List α) :
    Prop where
  keeps : out ⊆ out'
  starts : ns ⊆ out'
  closed : ∀ a ∈ out', a ∉ out → children a ⊆ out'
  below : ∀ a ∈ out', a ∈ out ∨
    ∃ n ∈ ns, Relation.ReflTransGen (fun c p => c ∈ children p) a n
  distinct : out.Nodup → out'.Nodup

theorem descended_nil (out : List α) : Descended children out [] out where
  keeps := Subset.refl _
  starts := nil_subset _
  closed := fun _ member fresh => absurd member fresh
  below := fun _ member => .inl member
  distinct := id

theorem Descended.cons {out mid out' ns : List α}
    (first : Descended children out [n] mid) (rest : Descended children mid ns out') :
    Descended children out (n :: ns) out' where
  keeps := Subset.trans first.keeps rest.keeps
  starts := cons_subset.mpr
    ⟨rest.keeps (first.starts mem_cons_self), rest.starts⟩
  closed := by
    intro a member fresh
    by_cases early : a ∈ mid
    · exact Subset.trans (first.closed a early fresh) rest.keeps
    · exact rest.closed a member early
  below := by
    intro a member
    rcases rest.below a member with early | ⟨m, later, chain⟩
    · rcases first.below a early with old | ⟨m, start, chain⟩
      · exact .inl old
      · exact .inr ⟨m, mem_cons.mpr (.inl (mem_singleton.mp start)), chain⟩
    · exact .inr ⟨m, mem_cons_of_mem _ later, chain⟩
  distinct := fun nodup => rest.distinct (first.distinct nodup)

theorem descended_of_descend : ∀ {rounds : Nat} {out out' : List α} {n : α},
    descend children rounds out n = some out' → Descended children out [n] out'
  | 0, _, _, _, walked => nomatch walked
  | rounds + 1, out, out', n, walked => by
    rw [descend] at walked
    split at walked
    · rename_i listed
      cases walked
      exact ⟨Subset.refl _, by simpa using listed, fun _ member fresh => absurd member fresh,
        fun _ member => .inl member, id⟩
    · rename_i fresh
      -- The walks from the children of `n`, one after the other.
      have each : ∀ (ns : List α) {mid : List α},
          ns.foldlM (descend children rounds) mid = some out' →
          Descended children mid ns out' := by
        intro ns
        induction ns with
        | nil =>
          intro mid done
          cases done
          exact descended_nil _
        | cons c ns ih =>
          intro mid walked
          rw [foldlM_cons] at walked
          obtain ⟨next, first, rest⟩ := Option.bind_eq_some_iff.mp walked
          exact (descended_of_descend first).cons (ih rest)
      have below := each (children n) walked
      have here : n ∈ out' := below.keeps (by simp)
      refine ⟨fun a member => below.keeps (mem_append_left _ member), by simpa using here,
        ?_, ?_, ?_⟩
      · intro a member old
        by_cases same : a = n
        · subst same
          exact below.starts
        · exact below.closed a member (by simp [old, same])
      · intro a member
        rcases below.below a member with early | ⟨c, child, chain⟩
        · rcases mem_append.mp early with old | same
          · exact .inl old
          · exact .inr ⟨n, mem_singleton_self n, mem_singleton.mp same ▸ .refl⟩
        · exact .inr ⟨n, mem_singleton_self n, chain.tail child⟩
      · intro nodup
        apply below.distinct
        rw [nodup_append]
        refine ⟨nodup, nodup_singleton n, ?_⟩
        rintro a old b same rfl
        exact fresh (mem_singleton.mp same ▸ old)

/-- **A walk down ends**, cycles included. -/
theorem descend_ends (closed : ∀ n, children n ⊆ nodes) :
    ∀ {rounds : Nat} {out : List α} {n : α}, n ∈ nodes → unseen nodes out < rounds →
      ∃ out', descend children rounds out n = some out'
  | 0, _, _, _, enough => absurd enough (Nat.not_lt_zero _)
  | rounds + 1, out, n, known, enough => by
    rw [descend]
    split
    · exact ⟨out, rfl⟩
    · rename_i fresh
      have fewer := unseen_lt known fresh
      have each (mid : List α) (enough : unseen nodes mid < rounds) (c : α)
          (child : c ∈ children n) : ∃ next, descend children rounds mid c = some next ∧
            unseen nodes next < rounds := by
        obtain ⟨next, walked⟩ := descend_ends closed (closed n child) enough
        exact ⟨next, walked, (unseen_mono (descended_of_descend walked).keeps).trans_lt enough⟩
      have start : unseen nodes (out ++ [n]) < rounds := by omega
      obtain ⟨out', walked, -⟩ := Runs.foldlM_ends _ each start
      exact ⟨out', walked⟩

/-- **What a walk down lists.** -/
theorem mem_descend (link : ∀ a p, a ∈ children p ↔ parent a = some p) {rounds : Nat} {out : List α}
    (walked : descend children rounds [] n = some out) : a ∈ out ↔ OnChain parent a n := by
  have descended := descended_of_descend walked
  have same : (fun c p => c ∈ children p) = fun a b => parent a = some b :=
    funext₂ fun a p => propext (link a p)
  constructor
  · intro member
    rcases descended.below a member with old | ⟨m, start, chain⟩
    · cases old
    · rw [mem_singleton.mp start, same] at chain
      exact chain
  · intro chain
    induction chain using Relation.ReflTransGen.head_induction_on with
    | refl => exact descended.starts (mem_singleton_self n)
    | head up _ ih => exact descended.closed _ ih not_mem_nil ((link _ _).mpr up)

/-! ## Levels -/

/-- One node of the breadth-first walk: its children without a level are given the
next one and put in the queue. -/
def visit (n : α) (cs : List α) (depth : α → Int) (queue : List α) : (α → Int) × List α :=
  cs.foldl (fun s c => if 0 ≤ s.1 c then s
    else (update s.1 c (s.1 n + 1), s.2 ++ [c])) (depth, queue)

/-- Levels of what is in the queue and below it. -/
def levels (children : α → List α) : Nat → List α → (α → Int) → Option (α → Int)
  | _, [], depth => some depth
  | 0, _ :: _, _ => none
  | rounds + 1, n :: queue, depth =>
    let (depth, queue) := visit n (children n) depth queue
    levels children rounds queue depth

theorem visit_eq : ∀ {cs : List α} {depth : α → Int} {queue : List α}, cs.Nodup →
    0 ≤ depth n → visit n cs depth queue =
      (fun a => if a ∈ cs ∧ depth a < 0 then depth n + 1 else depth a,
        queue ++ cs.filter (depth · < 0))
  | [], depth, queue, _, _ => by simp [visit]
  | c :: cs, depth, queue, distinct, reached => by
    obtain ⟨fresh, distinct⟩ := nodup_cons.mp distinct
    have unfold : visit n (c :: cs) depth queue = if 0 ≤ depth c then visit n cs depth queue
        else visit n cs (update depth c (depth n + 1)) (queue ++ [c]) := by
      rw [visit, foldl_cons]
      split <;> rfl
    rw [unfold]
    split
    · rename_i given
      rw [visit_eq distinct reached, filter_cons_of_neg (by simpa using given)]
      refine Prod.ext (funext fun a => ?_) rfl
      by_cases same : a = c
      · subst same
        simp [fresh, Int.not_lt.mpr given]
      · simp [same]
    · rename_i unset
      have apart : n ≠ c := fun same => unset (same ▸ reached)
      have kept : cs.filter (update depth c (depth n + 1) · < 0) =
          cs.filter (depth · < 0) := filter_congr fun a member => by
        have other : a ≠ c := fun same => fresh (same ▸ member)
        rw [update_of_ne other]
      rw [visit_eq distinct (by rwa [update_of_ne apart]), kept,
        filter_cons_of_pos (by simpa using unset), update_of_ne apart]
      refine Prod.ext (funext fun a => ?_) (by simp)
      by_cases same : a = c
      · subst same
        simp [fresh, Int.not_le.mp unset]
      · simp [same]

section Levels

variable (distinct : ∀ n, (children n).Nodup)
variable {depth : α → Int}

/-- What holds between two rounds: levels are right, and only what is in the queue
may have children without one. -/
structure Leveled (parent : α → Option α) (root : α) (children : α → List α) (queue : List α)
    (depth : α → Int) : Prop where
  sound : ∀ a, 0 ≤ depth a → ∃ n : Nat, depth a = n ∧ Leads parent root a n
  queued : ∀ a ∈ queue, 0 ≤ depth a
  closed : ∀ a, 0 ≤ depth a → a ∈ queue ∨ ∀ c ∈ children a, 0 ≤ depth c
  unset : ∀ a, depth a < 0 → depth a = -1
  root : 0 ≤ depth root

include distinct

/-- The step lemma of the breadth-first walk. -/
theorem Leveled.visit (link : ∀ a p, a ∈ children p ↔ parent a = some p) {queue : List α}
    (leveled : Leveled parent root children (n :: queue) depth) :
    Leveled parent root children (visit n (children n) depth queue).2
      (visit n (children n) depth queue).1 := by
  have reached := leveled.queued n mem_cons_self
  rw [visit_eq (distinct n) reached]
  have grows (a : α) (given : 0 ≤ depth a) :
      0 ≤ if a ∈ children n ∧ depth a < 0 then depth n + 1 else depth a := by
    rw [if_neg (fun new => absurd new.2 (Int.not_lt.mpr given))]
    exact given
  refine ⟨?_, ?_, ?_, ?_, grows root leveled.root⟩
  -- the children without a depth get one more than their parent
  · intro a given
    dsimp only at given ⊢
    split at given
    · rename_i new
      rw [if_pos new]
      obtain ⟨level, here, leads⟩ := leveled.sound n reached
      exact ⟨level + 1, by omega, .link ((link a n).mp new.1) leads⟩
    · rename_i old
      rw [if_neg old]
      exact leveled.sound a given
  · intro a member
    dsimp only
    rcases mem_append.mp member with old | new
    · exact grows a (leveled.queued a (mem_cons_of_mem _ old))
    · simp only [mem_filter, decide_eq_true_eq] at new
      rw [if_pos new]
      omega
  · intro a given
    dsimp only at given ⊢
    by_cases new : a ∈ children n ∧ depth a < 0
    · exact .inl (mem_append_right _ (by simpa using new))
    rw [if_neg new] at given
    rcases leveled.closed a given with waiting | done
    · rcases mem_cons.mp waiting with rfl | later
      · refine .inr fun c child => ?_
        by_cases level : 0 ≤ depth c
        · exact grows c level
        · rw [if_pos ⟨child, Int.not_le.mp level⟩]
          omega
      · exact .inl (mem_append_left _ later)
    · exact .inr fun c child => grows c (done c child)
  · intro a unset
    dsimp only at unset ⊢
    split at unset
    · omega
    · rename_i old
      rw [if_neg old]
      exact leveled.unset a unset

/-- A visit queues exactly what it gives a level. -/
theorem visit_unset (closed : ∀ n, children n ⊆ nodes) (unique : nodes.Nodup)
    (queue : List α) (reached : 0 ≤ depth n) :
    (visit n (children n) depth queue).2.length +
        (nodes.filter ((visit n (children n) depth queue).1 · < 0)).length ≤
      queue.length + (nodes.filter (depth · < 0)).length := by
  rw [visit_eq (distinct n) reached, length_append]
  dsimp only
  have joined : ((children n).filter (depth · < 0) ++ nodes.filter fun a =>
      (if a ∈ children n ∧ depth a < 0 then depth n + 1 else depth a) < 0).Nodup := by
    rw [nodup_append]
    refine ⟨(distinct n).filter _, unique.filter _, ?_⟩
    rintro a new b old rfl
    simp only [mem_filter, decide_eq_true_eq] at new old
    rw [if_pos new] at old
    omega
  have early : ((children n).filter (depth · < 0) ++ nodes.filter fun a =>
      (if a ∈ children n ∧ depth a < 0 then depth n + 1 else depth a) < 0) ⊆
      nodes.filter (depth · < 0) := by
    intro a member
    simp only [mem_append, mem_filter, decide_eq_true_eq] at member ⊢
    rcases member with ⟨child, unset⟩ | ⟨node, unset⟩
    · exact ⟨closed n child, unset⟩
    · refine ⟨node, ?_⟩
      split at unset
      · omega
      · exact unset
  have within := (subperm_of_subset joined early).length_le
  rw [length_append] at within
  omega

/-- **The breadth-first walk ends.** -/
theorem levels_ends (link : ∀ a p, a ∈ children p ↔ parent a = some p)
    (closed : ∀ n, children n ⊆ nodes) (unique : nodes.Nodup) :
    ∀ {rounds : Nat} {queue : List α} {depth : α → Int},
      Leveled parent root children queue depth →
      queue.length + (nodes.filter (depth · < 0)).length ≤ rounds →
      ∃ depth', levels children rounds queue depth = some depth' ∧
        Leveled parent root children [] depth'
  | rounds, [], depth, leveled, _ => ⟨depth, by cases rounds <;> rfl, leveled⟩
  | 0, n :: queue, depth, _, enough => absurd enough (by simp)
  | rounds + 1, n :: queue, depth, leveled, enough => by
    have fewer := visit_unset distinct closed unique queue
      (leveled.queued n mem_cons_self)
    simp only [length_cons] at enough
    have later := levels_ends link closed unique (leveled.visit distinct link)
      (by omega : _ ≤ rounds)
    exact later

omit distinct in
/-- **What the levels are**: the links below the root, or none. -/
theorem Leveled.depth_eq (link : ∀ a p, a ∈ children p ↔ parent a = some p)
    (parentless : parent root = none) (leveled : Leveled parent root children [] depth) {n : Nat} :
    depth a = n ↔ Leads parent root a n := by
  have reached {a : α} {n : Nat} (leads : Leads parent root a n) : 0 ≤ depth a := by
    induction leads with
    | root => exact leveled.root
    | @link a b n up _ ih =>
      rcases leveled.closed b ih with waiting | done
      · cases waiting
      · exact done a ((link a b).mpr up)
  constructor
  · intro level
    obtain ⟨m, same, leads⟩ := leveled.sound a (by omega)
    rwa [show n = m by omega]
  · intro leads
    obtain ⟨m, same, other⟩ := leveled.sound a (reached leads)
    rw [same, leads.unique parentless other]

end Levels

end Ome.Theory.ParentGraph
