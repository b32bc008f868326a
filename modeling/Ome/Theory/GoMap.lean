/-
# Ome.Theory.GoMap — finite maps read with a zero value

A map of the modelled language is a finite set of keys and a total read: a key
the map does not hold reads the element type's zero value.  `GoMap` keeps both
as one value.  The key list is the order the map is iterated in, so a statement
over every `GoMap` is a statement over every iteration order; `get_absent` makes
the total read and the key list one object, and no map can be built that reads
something under a key it does not hold.

* `set` is assignment: the read changes at one key and the key is held after it;
  `erase` is deletion.
* `sortedKeys` is the keys in ascending order, whatever the iteration order.
* `tally` counts a list, as a loop that adds one under each key does.
* `rewrite` assigns to every key what a function makes of its value.
* `group` appends the members of a list under their keys; `sum_group` says that
  nothing is lost or counted twice.
* `total` sums a map of integers; `total_eq_sum_map` reads it off any larger list
  of names, which is how two maps with different keys are compared.
-/
import Mathlib.Algebra.BigOperators.Group.Finset.Piecewise
import Mathlib.Algebra.Order.BigOperators.Group.Finset
import Mathlib.Algebra.Order.Ring.Int
import Mathlib.Data.List.Sort
import Mathlib.Data.String.Basic

namespace Ome.Theory

open List Function

set_option autoImplicit false
set_option linter.unusedSectionVars false

/-- The element of a key that no other has. -/
theorem find?_key {α β : Type} [DecidableEq β] {key : α → β} {l : List α}
    (distinct : (l.map key).Nodup) {a : α} (member : a ∈ l) :
    l.find? (key · = key a) = some a := by
  cases found : l.find? (key · = key a) with
  | none => exact absurd (List.find?_eq_none.mp found a member) (by simp)
  | some b =>
    have same : key b = key a := by simpa using List.find?_some found
    rw [inj_on_of_nodup_map distinct (mem_of_find?_eq_some found) member same]

/-- A finite map with its iteration order; an absent key reads `default`. -/
structure GoMap (K V : Type) [Inhabited V] where
  keys : List K
  nodup : keys.Nodup
  get : K → V
  get_absent : ∀ k, k ∉ keys → get k = default

namespace GoMap

variable {K V : Type} [DecidableEq K] [Inhabited V]

instance : Inhabited (GoMap K V) :=
  ⟨{ keys := [], nodup := nodup_nil, get := fun _ => default, get_absent := fun _ _ => rfl }⟩

/-- The map that holds no key. -/
def empty : GoMap K V := default

/-- Assignment of `v` under `k`. -/
def set (m : GoMap K V) (k : K) (v : V) : GoMap K V where
  keys := if k ∈ m.keys then m.keys else m.keys ++ [k]
  nodup := by
    split
    · exact m.nodup
    · rename_i absent
      exact nodup_append.mpr ⟨m.nodup, nodup_singleton k, by
        rintro a ha b hb rfl
        exact absent (mem_singleton.mp hb ▸ ha)⟩
  get := update m.get k v
  get_absent := by
    intro j hj
    have ne : j ≠ k := by
      rintro rfl
      split at hj <;> simp_all
    rw [update_of_ne ne]
    apply m.get_absent
    intro member
    apply hj
    split
    · exact member
    · exact mem_append_left _ member

/-- The map a literal writes, a later entry over an earlier one. -/
def ofList (entries : List (K × V)) : GoMap K V :=
  entries.foldl (fun m e => m.set e.1 e.2) empty

@[simp] theorem empty_keys : (empty : GoMap K V).keys = [] := by
  rfl

@[simp] theorem get_set_self (m : GoMap K V) (k : K) (v : V) : (m.set k v).get k = v := by
  simp [set]

theorem get_set_ne (m : GoMap K V) {k j : K} (v : V) (ne : j ≠ k) :
    (m.set k v).get j = m.get j := by
  simp [set, update_of_ne ne]

theorem get_set (m : GoMap K V) (k j : K) (v : V) :
    (m.set k v).get j = if j = k then v else m.get j := by
  by_cases h : j = k
  · subst h
    simp
  · rw [get_set_ne m v h, if_neg h]

@[simp] theorem mem_keys_set (m : GoMap K V) (k j : K) (v : V) :
    j ∈ (m.set k v).keys ↔ j ∈ m.keys ∨ j = k := by
  by_cases h : k ∈ m.keys
  · simp only [set, if_pos h]
    constructor
    · exact Or.inl
    · rintro (member | rfl)
      · exact member
      · exact h
  · simp [set, h]

theorem get_foldl_set (value : K → V) (j : K) :
    ∀ (ks : List K) (m : GoMap K V),
      (ks.foldl (fun m k => m.set k (value k)) m).get j = if j ∈ ks then value j else m.get j
  | [], m => by simp
  | k :: rest, m => by
    rw [foldl_cons, get_foldl_set value j rest, get_set]
    by_cases same : j = k
    · subst same
      simp
    · simp [same]

theorem mem_keys_foldl_set (value : K → V) (j : K) :
    ∀ (ks : List K) (m : GoMap K V),
      j ∈ (ks.foldl (fun m k => m.set k (value k)) m).keys ↔ j ∈ ks ∨ j ∈ m.keys
  | [], m => by simp
  | k :: rest, m => by
    rw [foldl_cons, mem_keys_foldl_set value j rest, mem_keys_set, mem_cons]
    tauto

/-- What a fold that treats each listed key leaves at one of them. -/
theorem get_foldl_each (step : K → V → V) {f : GoMap K V → K → GoMap K V}
    (each : ∀ m k j, (f m k).get j = if j = k then step k (m.get k) else m.get j) (j : K)
    {ks : List K} (distinct : ks.Nodup) (m : GoMap K V) :
    (ks.foldl f m).get j = if j ∈ ks then step j (m.get j) else m.get j := by
  induction ks generalizing m with
  | nil => simp
  | cons k rest ih =>
    rw [nodup_cons] at distinct
    rw [foldl_cons, ih distinct.2, each]
    by_cases same : j = k
    · subst same
      simp [distinct.1]
    · simp [same]

section Items

variable {α : Type} (key : α → K) (value : α → V)

theorem get_foldl_item (items : List α) (m : GoMap K V) :
    (items.foldl (fun m x => m.set (key x) (value x)) m).get =
      items.foldl (fun m x => update m (key x) (value x)) m.get := by
  induction items generalizing m with
  | nil => rfl
  | cons x rest ih => exact ih (m.set (key x) (value x))

theorem mem_keys_foldl_item (j : K) (items : List α) (m : GoMap K V) :
    j ∈ (items.foldl (fun m x => m.set (key x) (value x)) m).keys ↔
      j ∈ items.map key ∨ j ∈ m.keys := by
  induction items generalizing m with
  | nil => simp
  | cons x rest ih =>
    rw [foldl_cons, ih, mem_keys_set, map_cons, mem_cons]
    tauto

/-- What a loop that keeps the first item of every key leaves, and under which keys. -/
theorem mem_keys_foldl_first (j : K) : ∀ (items : List α) (m : GoMap K V),
    j ∈ (items.foldl (fun m x => if key x ∈ m.keys then m else m.set (key x) (value x)) m).keys ↔
      j ∈ m.keys ∨ j ∈ items.map key
  | [], m => by simp
  | x :: rest, m => by
    rw [foldl_cons, mem_keys_foldl_first j rest, map_cons, mem_cons]
    split
    · rename_i held
      constructor
      · exact Or.imp_right .inr
      · rintro (old | rfl | later)
        · exact .inl old
        · exact .inl held
        · exact .inr later
    · rw [mem_keys_set, or_assoc]

theorem get_foldl_first (j : K) : ∀ (items : List α) (m : GoMap K V),
    (items.foldl (fun m x => if key x ∈ m.keys then m else m.set (key x) (value x)) m).get j =
      if j ∈ m.keys then m.get j else ((items.find? (key · = j)).map value).getD default
  | [], m => by
    by_cases held : j ∈ m.keys
    · simp [held]
    · simp [held, m.get_absent j held]
  | x :: rest, m => by
    rw [foldl_cons, get_foldl_first j rest]
    by_cases same : key x = j
    · subst same
      by_cases held : key x ∈ m.keys <;> simp [held]
    · by_cases held : key x ∈ m.keys <;> simp [held, same, Ne.symm same, get_set]

end Items

/-- Deletion of a key. -/
def erase (m : GoMap K V) (k : K) : GoMap K V where
  keys := m.keys.erase k
  nodup := m.nodup.erase k
  get := update m.get k default
  get_absent := by
    intro j absent
    by_cases same : j = k
    · rw [same, update_self]
    · rw [update_of_ne same]
      exact m.get_absent j fun member => absent ((mem_erase_of_ne same).mpr member)

theorem get_erase (m : GoMap K V) (k j : K) :
    (m.erase k).get j = if j = k then default else m.get j := by
  by_cases same : j = k
  · rw [same, if_pos rfl]
    exact update_self k default m.get
  · rw [if_neg same]
    exact update_of_ne same default m.get

@[simp] theorem mem_keys_erase (m : GoMap K V) (k j : K) :
    j ∈ (m.erase k).keys ↔ j ∈ m.keys ∧ j ≠ k :=
  m.nodup.mem_erase_iff.trans And.comm

/-- The loop over a map that replaces every value. -/
def rewrite (f : V → V) (m : GoMap K V) : GoMap K V :=
  m.keys.foldl (fun out k => out.set k (f (m.get k))) m

theorem get_rewrite {f : V → V} (fixes : f default = default) (m : GoMap K V) (k : K) :
    (m.rewrite f).get k = f (m.get k) := by
  rw [rewrite, get_foldl_set fun k => f (m.get k)]
  split
  · rfl
  · rename_i absent
    rw [m.get_absent k absent, fixes]

theorem mem_keys_rewrite (f : V → V) (m : GoMap K V) (k : K) :
    k ∈ (m.rewrite f).keys ↔ k ∈ m.keys := by
  rw [rewrite, mem_keys_foldl_set fun k => f (m.get k), or_self]

/-- The keys in ascending order. -/
def sortedKeys [LinearOrder K] (m : GoMap K V) : List K :=
  m.keys.insertionSort (· ≤ ·)

section Sorted

variable [LinearOrder K] (m : GoMap K V)

theorem sortedKeys_perm : m.sortedKeys.Perm m.keys :=
  perm_insertionSort _ _

@[simp] theorem mem_sortedKeys (k : K) : k ∈ m.sortedKeys ↔ k ∈ m.keys :=
  m.sortedKeys_perm.mem_iff

theorem nodup_sortedKeys : m.sortedKeys.Nodup :=
  m.sortedKeys_perm.nodup_iff.mpr m.nodup

theorem pairwise_sortedKeys : m.sortedKeys.Pairwise (· ≤ ·) :=
  pairwise_insertionSort _ _

theorem strict_sortedKeys : m.sortedKeys.Pairwise (· < ·) :=
  m.pairwise_sortedKeys.imp₂ (fun _ _ le ne => lt_of_le_of_ne le ne) m.nodup_sortedKeys

end Sorted

/-! ## Maps of integers -/

section Total

variable (m : GoMap K Int)

/-- The sum of a map's values. -/
def total : Int := (m.keys.map m.get).sum

theorem get_int_absent {k : K} (absent : k ∉ m.keys) : m.get k = 0 :=
  m.get_absent k absent

theorem total_set {k : K} (absent : k ∉ m.keys) (v : Int) : (m.set k v).total = m.total + v := by
  have same : m.keys.map (m.set k v).get = m.keys.map m.get :=
    map_congr_left fun j member => m.get_set_ne v fun here => absent (here ▸ member)
  have keys : (m.set k v).keys = m.keys ++ [k] := if_neg absent
  rw [total, keys, map_append, sum_append, same, map_singleton,
    sum_singleton, get_set_self, total]

theorem get_add (k j : K) (v : Int) :
    (m.set k (m.get k + v)).get j = m.get j + if j = k then v else 0 := by
  rw [get_set]
  split
  · rename_i same
    rw [same]
  · rw [add_zero]

theorem mem_keys_of_pos {k : K} (pos : 0 < m.get k) : k ∈ m.keys := by
  by_contra absent
  rw [m.get_int_absent absent] at pos
  exact absurd pos (lt_irrefl 0)

theorem sum_map_nonneg {α : Type} {f : α → Int} {names : List α}
    (nonneg : ∀ k ∈ names, 0 ≤ f k) : 0 ≤ (names.map f).sum :=
  sum_nonneg (forall_mem_map.mpr nonneg)

theorem total_nonneg (nonneg : ∀ k, 0 ≤ m.get k) : 0 ≤ m.total :=
  sum_map_nonneg fun k _ => nonneg k

/-- A sum over names, read off any other list that misses no nonzero term. -/
theorem sum_map_eq_of_vanish {M : Type} [AddCommMonoid M] {f : K → M}
    {names others : List K} (unique : names.Nodup) (othersUnique : others.Nodup)
    (outside : ∀ k, k ∉ names → f k = 0) (othersOutside : ∀ k, k ∉ others → f k = 0) :
    (names.map f).sum = (others.map f).sum := by
  have extend {l : List K} (nodup : l.Nodup) (vanish : ∀ k, k ∉ l → f k = 0) (rest : Finset K) :
      (l.map f).sum = ∑ k ∈ l.toFinset ∪ rest, f k := by
    rw [← sum_toFinset _ nodup]
    apply Finset.sum_subset Finset.subset_union_left
    intro k _ absent
    exact vanish k (fun member => absent (mem_toFinset.mpr member))
  rw [extend unique outside others.toFinset, extend othersUnique othersOutside names.toFinset,
    Finset.union_comm]

/-- What a map weighs, after a loop that changes no weight. -/
theorem sum_rewrite {V M : Type} [Inhabited V] [AddCommMonoid M] {f : V → V}
    (fixes : f default = default) (weigh : V → M) (none : weigh default = 0)
    (same : ∀ v, weigh (f v) = weigh v) (m : GoMap K V) :
    ((m.rewrite f).keys.map fun k => weigh ((m.rewrite f).get k)).sum =
      (m.keys.map fun k => weigh (m.get k)).sum := by
  simp only [get_rewrite fixes, same]
  have outside (k : K) (absent : k ∉ m.keys) : weigh (m.get k) = 0 := by
    rw [m.get_absent k absent, none]
  exact sum_map_eq_of_vanish (GoMap.nodup _) m.nodup
    (fun k absent => outside k fun member => absent ((mem_keys_rewrite f m k).mpr member)) outside

/-- The total, read off any list of names without repetition that covers the keys. -/
theorem total_eq_sum_map {names : List K} (unique : names.Nodup)
    (covers : ∀ k ∈ m.keys, k ∈ names) : m.total = (names.map m.get).sum := by
  apply sum_map_eq_of_vanish m.nodup unique (fun k absent => m.get_int_absent absent)
  intro k absent
  exact m.get_int_absent (fun member => absent (covers k member))

theorem total_eq_sum_sorted {K : Type} [LinearOrder K] (m : GoMap K Int) :
    m.total = (m.sortedKeys.map m.get).sum :=
  (m.sortedKeys_perm.map _).sum_eq.symm

end Total

/-! ## Grouping -/

section Grouping

variable {α W : Type} (key : α → K) (value : α → W)

/-- A loop that appends every member of a list under its key. -/
def group (l : List α) (m : GoMap K (List W)) : GoMap K (List W) :=
  l.foldl (fun m a => m.set (key a) (m.get (key a) ++ [value a])) m

theorem get_group (k : K) : ∀ (l : List α) (m : GoMap K (List W)),
    (group key value l m).get k = m.get k ++ (l.filter (key · = k)).map value
  | [], m => by simp [group]
  | a :: rest, m => by
    rw [group, foldl_cons, ← group, get_group k rest, get_set]
    by_cases same : k = key a
    · subst same
      simp
    · rw [if_neg same, filter_cons_of_neg (by simpa using Ne.symm same)]

theorem mem_keys_group (k : K) : ∀ (l : List α) (m : GoMap K (List W)),
    k ∈ (group key value l m).keys ↔ k ∈ m.keys ∨ ∃ a ∈ l, key a = k
  | [], m => by simp [group]
  | a :: rest, m => by
    rw [group, foldl_cons, ← group, mem_keys_group k rest, mem_keys_set]
    have turned : k = key a ↔ key a = k := eq_comm
    simp only [mem_cons, exists_eq_or_imp, or_assoc, turned]

/-- What a map of lists weighs, with one member more. -/
theorem sum_append {M : Type} [AddCommMonoid M] (weigh : W → M) (m : GoMap K (List W)) (k : K)
    (v : W) :
    ((m.set k (m.get k ++ [v])).keys.map fun j =>
      (((m.set k (m.get k ++ [v])).get j).map weigh).sum).sum =
      (m.keys.map fun j => ((m.get j).map weigh).sum).sum + weigh v := by
  have read (j : K) : (((m.set k (m.get k ++ [v])).get j).map weigh).sum =
      ((m.get j).map weigh).sum + if j = k then weigh v else 0 := by
    rw [get_set]
    split
    · rename_i same
      simp [same]
    · rw [add_zero]
  have outside (j : K) (absent : j ∉ m.keys) : ((m.get j).map weigh).sum = 0 := by
    rw [m.get_absent j absent]
    rfl
  have wider : (m.keys.map fun j => ((m.get j).map weigh).sum).sum =
      ((m.set k (m.get k ++ [v])).keys.map fun j => ((m.get j).map weigh).sum).sum :=
    sum_map_eq_of_vanish m.nodup (GoMap.nodup _) outside fun j absent =>
      outside j fun member => absent ((mem_keys_set _ _ _ _).mpr (.inl member))
  have single : ((m.set k (m.get k ++ [v])).keys.map fun j => if j = k then weigh v else 0).sum =
      weigh v := by
    rw [← sum_toFinset _ (GoMap.nodup _), Finset.sum_ite_eq', if_pos]
    exact mem_toFinset.mpr ((mem_keys_set _ _ _ _).mpr (.inr rfl))
  simp only [read]
  rw [sum_map_add, single, wider]

/-- What the members weigh together, however they are grouped. -/
theorem sum_group {M : Type} [AddCommMonoid M] (weigh : W → M) :
    ∀ (l : List α) (m : GoMap K (List W)),
      ((group key value l m).keys.map fun k =>
        (((group key value l m).get k).map weigh).sum).sum =
      (m.keys.map fun k => ((m.get k).map weigh).sum).sum + (l.map fun a => weigh (value a)).sum
  | [], m => by simp [group]
  | a :: rest, m => by
    rw [group, foldl_cons, ← group, sum_group weigh rest, sum_append, map_cons,
      sum_cons, add_assoc]

end Grouping

/-! ## Counting -/

/-- How often each key occurs in a list. -/
def tally (l : List K) : GoMap K Int :=
  l.foldl (fun m k => m.set k (m.get k + 1)) empty

theorem get_tally (l : List K) (k : K) : (tally l).get k = l.count k := by
  have counted : ∀ (l : List K) (m : GoMap K Int),
      (l.foldl (fun m k => m.set k (m.get k + 1)) m).get k = m.get k + l.count k := by
    intro l
    induction l with
    | nil => simp
    | cons j rest ih =>
      intro m
      rw [foldl_cons, ih, get_add, count_cons]
      by_cases same : k = j
      · subst same
        simp
        omega
      · simp [same, Ne.symm same]
  rw [tally, counted l empty]
  exact zero_add _

end GoMap

end Ome.Theory
