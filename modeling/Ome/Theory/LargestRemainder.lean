/-
# Ome.Theory.LargestRemainder — splitting a total by weight

A `Split` is a total, a list of names without repetition and a weight for each,
not all zero.  Every name is given the floor of its exact part; what the floors
leave is handed out in units, one to a name, to the names with the largest
remainders, the smaller name first among equals.

* `sum_share`: the shares add up to the total;
* `share_near`: a share is less than one unit from the exact part;
* `rest_pos_of_served`: a unit only goes to a name with a remainder, so that a name
  of weight zero is given nothing;
* `share_mono`: a larger weight is never given less;
* `Alike.share_eq`: a share depends on neither the order of the names nor a common
  factor of the weights;
* `insertionSort_stable`: a stable sort by remainder of names in ascending order
  is the order units are handed out in.
-/
import Mathlib.Algebra.Order.BigOperators.Group.List
import Mathlib.Algebra.BigOperators.Ring.List
import Mathlib.Data.List.Perm.Subperm
import Mathlib.Data.Rat.Cast.Order
import Mathlib.Tactic.Linarith
import Ome.Theory.StableSort

namespace Ome.Theory

open List

set_option autoImplicit false
set_option linter.unusedSectionVars false

/-- A total to split over names by weight. -/
structure Split (K : Type) where
  total : Nat
  names : List K
  weight : K → Nat
  nodup : names.Nodup
  basis_pos : 0 < (names.map weight).sum

namespace Split

variable {K : Type} [LinearOrder K] (s : Split K)
variable {k : K}

def basis : Nat := (s.names.map s.weight).sum

/-- The whole units of the exact part `total * weight / basis`. -/
def floor (k : K) : Nat := s.total * s.weight k / s.basis

def rest (k : K) : Nat := s.total * s.weight k % s.basis

/-- `a` is served no later than `b`. -/
def Ahead (a b : K) : Prop := s.rest b < s.rest a ∨ s.rest a = s.rest b ∧ a ≤ b

instance : DecidableRel s.Ahead := fun _ _ => inferInstanceAs (Decidable (_ ∨ _))

def order : List K := s.names.insertionSort s.Ahead

/-- The units the floors leave. -/
def leftover : Nat := s.total - (s.names.map s.floor).sum

/-- The names that are handed a unit. -/
def served : List K := s.order.take s.leftover

def share (k : K) : Nat := s.floor k + if k ∈ s.served then 1 else 0

/-! ## What the floors leave -/

theorem floor_rest (k : K) : s.basis * s.floor k + s.rest k = s.total * s.weight k :=
  Nat.div_add_mod _ _

theorem rest_lt (k : K) : s.rest k < s.basis := Nat.mod_lt _ s.basis_pos

theorem sum_floor_rest :
    s.basis * (s.names.map s.floor).sum + (s.names.map s.rest).sum = s.total * s.basis := by
  rw [← sum_map_mul_left, ← sum_map_add, basis, ← sum_map_mul_left]
  exact congrArg sum (map_congr_left fun k _ => s.floor_rest k)

theorem sum_floor_le : (s.names.map s.floor).sum ≤ s.total := by
  have parts := s.sum_floor_rest
  refine Nat.le_of_mul_le_mul_left ?_ s.basis_pos
  change s.basis * _ ≤ s.basis * _
  rw [Nat.mul_comm s.total] at parts
  omega

/-- What is left over is the remainders, in units of the basis. -/
theorem basis_mul_leftover : s.basis * s.leftover = (s.names.map s.rest).sum := by
  have parts := s.sum_floor_rest
  rw [leftover, Nat.mul_sub, Nat.mul_comm s.basis s.total]
  omega

theorem leftover_le : s.leftover ≤ (s.names.filter fun k => 0 < s.rest k).length := by
  refine Nat.le_of_mul_le_mul_left ?_ s.basis_pos
  change s.basis * _ ≤ s.basis * _
  rw [s.basis_mul_leftover]
  generalize s.names = names
  induction names with
  | nil => simp
  | cons k rest ih =>
    have small := s.rest_lt k
    by_cases positive : 0 < s.rest k
    · simp only [map_cons, sum_cons, filter_cons, positive, decide_true, if_true,
        length_cons, Nat.mul_add, Nat.mul_one]
      omega
    · simp only [map_cons, sum_cons, filter_cons, positive, decide_false,
        Bool.false_eq_true, if_false]
      omega

theorem leftover_le_length : s.leftover ≤ s.names.length :=
  s.leftover_le.trans (length_filter_le _ _)

/-! ## The order units are handed out in -/

theorem Ahead.antisymm {a b : K} (first : s.Ahead a b) (second : s.Ahead b a) : a = b := by
  rcases first with first | ⟨same, before⟩
  · rcases second with second | ⟨same, -⟩ <;> omega
  · rcases second with second | ⟨-, after⟩
    · omega
    · exact le_antisymm before after

theorem order_perm : s.order.Perm s.names := perm_insertionSort _ _

theorem order_nodup : s.order.Nodup := s.order_perm.nodup_iff.mpr s.nodup

theorem order_pairwise : s.order.Pairwise s.Ahead := by
  refine pairwise_sort_of_key (fun k => toLex (OrderDual.toDual (s.rest k), k)) (fun a b => ?_) _
  rw [Prod.Lex.toLex_le_toLex]
  rfl

theorem served_sublist : s.served.Sublist s.order := take_sublist _ _

theorem mem_names_of_served (member : k ∈ s.served) : k ∈ s.names :=
  s.order_perm.mem_iff.mp (s.served_sublist.mem member)

theorem served_length : s.served.length = s.leftover := by
  rw [served, length_take, s.order_perm.length_eq]
  exact Nat.min_eq_left s.leftover_le_length

theorem served_of_ahead {a b : K} (listed : a ∈ s.names) (ahead : s.Ahead a b)
    (member : b ∈ s.served) : a ∈ s.served := by
  by_contra unserved
  have cut : s.served ++ s.order.drop s.leftover = s.order := take_append_drop _ _
  have later : a ∈ s.order.drop s.leftover := by
    have placed : a ∈ s.served ++ s.order.drop s.leftover := by
      rw [cut]
      exact s.order_perm.mem_iff.mpr listed
    exact (mem_append.mp placed).resolve_left unserved
  have sorted := s.order_pairwise
  rw [← cut, pairwise_append] at sorted
  have same := Ahead.antisymm s ahead (sorted.2.2 b member a later)
  exact unserved (same ▸ member)

/-- **A unit goes only to a name with a remainder.**  Otherwise every name with a
remainder would be served as well, which is more names than units. -/
theorem rest_pos_of_served (member : k ∈ s.served) : 0 < s.rest k := by
  by_contra none
  have whole : s.rest k = 0 := by omega
  have fits : (k :: s.names.filter fun j => 0 < s.rest j).Subperm s.served := by
    refine Nodup.subperm (nodup_cons.mpr ⟨?_, s.nodup.filter _⟩) ?_
    · simp [whole]
    · intro j listed
      rcases mem_cons.mp listed with rfl | listed
      · exact member
      · obtain ⟨named, positive⟩ := mem_filter.mp listed
        have positive : 0 < s.rest j := of_decide_eq_true positive
        exact s.served_of_ahead named (.inl (by omega)) member
  have room := fits.length_le
  rw [length_cons, s.served_length] at room
  have := s.leftover_le
  omega

/-! ## The shares -/

theorem floor_le_share (k : K) : s.floor k ≤ s.share k := Nat.le_add_right _ _

theorem share_le (k : K) : s.share k ≤ s.floor k + 1 := by
  rw [share]
  split <;> omega

/-- **The shares add up to the total.** -/
theorem sum_share : (s.names.map s.share).sum = s.total := by
  have units : (s.names.map fun k => if k ∈ s.served then 1 else 0).sum = s.leftover := by
    rw [← (s.order_perm.map _).sum_eq, ← s.served_length]
    have cut : s.served ++ s.order.drop s.leftover = s.order := take_append_drop _ _
    have apart := s.order_nodup
    rw [← cut, nodup_append] at apart
    rw [← cut, map_append, sum_append, map_congr_left (g := fun _ => 1)
      (fun k member => if_pos member), map_congr_left (l := s.order.drop s.leftover)
      (g := fun _ => 0) (fun k member => if_neg fun served => apart.2.2 k served k member rfl)]
    simp
  have floors := s.sum_floor_le
  rw [show s.share = fun k => s.floor k + if k ∈ s.served then 1 else 0 from rfl,
    sum_map_add, units, leftover]
  omega

theorem share_lt (k : K) : s.basis * s.share k < s.total * s.weight k + s.basis := by
  have parts := s.floor_rest k
  have positive := s.basis_pos
  change 0 < s.basis at positive
  rw [share]
  split
  · rename_i member
    have := s.rest_pos_of_served member
    rw [Nat.mul_add]
    omega
  · rw [Nat.mul_add]
    omega

theorem lt_share (k : K) : s.total * s.weight k < s.basis * s.share k + s.basis := by
  have parts := s.floor_rest k
  have small := s.rest_lt k
  have := Nat.mul_le_mul_left s.basis (s.floor_le_share k)
  omega

theorem share_zero (idle : s.weight k = 0) : s.share k = 0 := by
  have below := s.share_lt k
  rw [idle, Nat.mul_zero, Nat.zero_add] at below
  exact Nat.lt_one_iff.mp (Nat.lt_of_mul_lt_mul_left (by rwa [Nat.mul_one]))

theorem share_near (k : K) : |(s.share k : ℚ) - s.total * (s.weight k / s.basis)| < 1 := by
  have positive : (0 : ℚ) < s.basis := by exact_mod_cast s.basis_pos
  have above : (s.basis : ℚ) * s.share k < s.total * s.weight k + s.basis := by
    exact_mod_cast s.share_lt k
  have below : (s.total : ℚ) * s.weight k < s.basis * s.share k + s.basis := by
    exact_mod_cast s.lt_share k
  have low : (s.share k : ℚ) - 1 < s.total * s.weight k / s.basis := by
    rw [lt_div_iff₀ positive]
    linarith
  have high : s.total * s.weight k / s.basis < (s.share k : ℚ) + 1 := by
    rw [div_lt_iff₀ positive]
    linarith
  rw [← mul_div_assoc, abs_sub_lt_iff]
  constructor <;> linarith

theorem share_le_total (listed : k ∈ s.names) : s.share k ≤ s.total := by
  rw [← s.sum_share]
  exact single_le_sum (fun _ _ => Nat.zero_le _) _ (mem_map_of_mem listed)

/-- **A larger weight is never given less.** -/
theorem share_mono {a b : K} (listed : b ∈ s.names) (less : s.weight a < s.weight b) :
    s.share a ≤ s.share b := by
  have floors : s.floor a ≤ s.floor b :=
    Nat.div_le_div_right (Nat.mul_le_mul_left _ less.le)
  rcases floors.lt_or_eq with apart | level
  · exact (s.share_le a).trans (apart.trans_le (s.floor_le_share b))
  -- On one floor the larger weight has the larger remainder, and is served first.
  rw [share, share, level]
  by_cases member : a ∈ s.served
  · have partsA := s.floor_rest a
    have partsB := s.floor_rest b
    rw [level] at partsA
    have positive := s.rest_pos_of_served member
    have grows : s.total * s.weight a < s.total * s.weight b := by
      refine Nat.mul_lt_mul_of_pos_left less (Nat.pos_of_ne_zero fun zero => ?_)
      rw [rest, zero, Nat.zero_mul, Nat.zero_mod] at positive
      omega
    have served := s.served_of_ahead listed (.inl (by omega)) member
    rw [if_pos member, if_pos served]
  · rw [if_neg member]
    omega

/-! ## What a share depends on -/

section Congruence

variable {s} {s' : Split K} {c c' : Nat}

/-- Two splits of one total over the same names, with weights in one proportion. -/
structure Alike (s s' : Split K) (c c' : Nat) : Prop where
  total_eq : s'.total = s.total
  names_perm : s'.names.Perm s.names
  pos : 0 < c
  pos' : 0 < c'
  weights : ∀ k ∈ s.names, c * s.weight k = c' * s'.weight k

variable (alike : Alike s s' c c')
include alike

theorem Alike.basis_eq : c * s.basis = c' * s'.basis := by
  rw [basis, basis, (alike.names_perm.map _).sum_eq, ← sum_map_mul_left,
    ← sum_map_mul_left]
  exact congrArg sum (map_congr_left alike.weights)

theorem Alike.scaled (listed : k ∈ s.names) :
    c * (s.total * s.weight k) = c' * (s'.total * s'.weight k) := by
  rw [Nat.mul_left_comm, alike.weights k listed, alike.total_eq, Nat.mul_left_comm]

theorem Alike.floor_eq (listed : k ∈ s.names) : s'.floor k = s.floor k := by
  calc s'.floor k
      = c' * (s'.total * s'.weight k) / (c' * s'.basis) :=
        (Nat.mul_div_mul_left _ _ alike.pos').symm
    _ = c * (s.total * s.weight k) / (c * s.basis) := by
        rw [alike.scaled listed, alike.basis_eq]
    _ = s.floor k := Nat.mul_div_mul_left _ _ alike.pos

theorem Alike.rest_eq (listed : k ∈ s.names) : c * s.rest k = c' * s'.rest k := by
  rw [rest, rest, ← Nat.mul_mod_mul_left, ← Nat.mul_mod_mul_left, alike.scaled listed,
    alike.basis_eq]

theorem Alike.ahead_iff {a b : K} (listed : a ∈ s.names) (listed' : b ∈ s.names) :
    s'.Ahead a b ↔ s.Ahead a b := by
  have less : s'.rest b < s'.rest a ↔ s.rest b < s.rest a := by
    rw [← Nat.mul_lt_mul_left alike.pos', ← alike.rest_eq listed, ← alike.rest_eq listed',
      Nat.mul_lt_mul_left alike.pos]
  have same : s'.rest a = s'.rest b ↔ s.rest a = s.rest b := by
    rw [← Nat.mul_right_inj alike.pos'.ne', ← alike.rest_eq listed, ← alike.rest_eq listed',
      Nat.mul_right_inj alike.pos.ne']
  rw [Ahead, Ahead, less, same]

theorem Alike.order_eq : s'.order = s.order := by
  have listed {k : K} (member : k ∈ s'.order) : k ∈ s.names :=
    alike.names_perm.mem_iff.mp (s'.order_perm.mem_iff.mp member)
  have sorted : s'.order.Pairwise s.Ahead :=
    s'.order_pairwise.imp_of_mem fun member member' ahead =>
      (alike.ahead_iff (listed member) (listed member')).mp ahead
  exact Perm.eq_of_pairwise (fun _ _ _ _ => Ahead.antisymm s) sorted s.order_pairwise
    (s'.order_perm.trans (alike.names_perm.trans s.order_perm.symm))

/-- **A share depends on neither the order of the names nor a common factor.** -/
theorem Alike.share_eq (listed : k ∈ s.names) : s'.share k = s.share k := by
  have left : s'.leftover = s.leftover := by
    rw [leftover, leftover, (alike.names_perm.map _).sum_eq, alike.total_eq,
      map_congr_left fun k member => alike.floor_eq member]
  rw [share, share, served, served, alike.floor_eq listed, alike.order_eq, left]

end Congruence

/-! ## Stable sorts -/

/-- Inserting by two relations that agree on the values already placed. -/
theorem map_orderedInsert_congr {α β : Type} {r : α → α → Prop} {q : β → β → Prop}
    [DecidableRel r] [DecidableRel q] (f : α → β) (a : α) :
    ∀ l : List α, (∀ b ∈ l, r a b ↔ q (f a) (f b)) →
      (l.orderedInsert r a).map f = (l.map f).orderedInsert q (f a)
  | [], _ => rfl
  | b :: l, agree => by
    have here := agree b mem_cons_self
    rw [orderedInsert_cons, map_cons, orderedInsert_cons]
    by_cases before : r a b
    · rw [if_pos before, if_pos (here.mp before), map_cons, map_cons]
    · rw [if_neg before, if_neg (mt here.mpr before), map_cons,
        map_orderedInsert_congr f a l fun b member => agree b (mem_cons_of_mem _ member)]

/-- A stable sort by remainder, largest first, of names in ascending order is the
order units are handed out in.  Each name is inserted before the later names of
its remainder, where the tie break puts it. -/
theorem insertionSort_stable {α : Type} (name : α → K) (value : α → Nat) :
    ∀ l : List α, (l.map name).Pairwise (· < ·) → (∀ a ∈ l, value a = s.rest (name a)) →
      (l.insertionSort fun a b => value b ≤ value a).map name = (l.map name).insertionSort s.Ahead
  | [], _, _ => rfl
  | a :: l, ascending, values => by
    rw [map_cons, pairwise_cons] at ascending
    have later := insertionSort_stable name value l ascending.2
      fun b member => values b (mem_cons_of_mem _ member)
    rw [insertionSort_cons, map_cons, insertionSort_cons, ← later]
    refine map_orderedInsert_congr name a _ fun b member => ?_
    rw [mem_insertionSort] at member
    have before := ascending.1 (name b) (mem_map_of_mem member)
    rw [values a mem_cons_self, values b (mem_cons_of_mem _ member), Ahead]
    constructor
    · intro upTo
      rcases upTo.lt_or_eq with less | same
      · exact .inl less
      · exact .inr ⟨same.symm, before.le⟩
    · rintro (less | ⟨same, -⟩)
      · exact less.le
      · exact same.ge

end Split

end Ome.Theory
