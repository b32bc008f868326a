/-
# Ome.StatusCodec.IndexSetOperations — the operations of index sets are those of sets

The codec asks four things of the index sets it has read, all answered on intervals:
whether an index is in a set (`contains_iff`), at which position (`rankOf_eq`), whether
a set is inside another (`isSubsetOf_iff`), and whether no index is in two of them
(`disjointIndexSets_iff`).  `index_sets_exact` says the same of the finite sets that the
texts stand for.
-/
import Mathlib.Data.Finset.Sort
import Mathlib.Data.Int.ConditionallyCompleteOrder
import Mathlib.Data.Int.Interval
import Mathlib.Data.List.Lattice
import Ome.StatusCodec.IndexSetText

namespace Ome.StatusCodec

open Ome.Theory Ome.Theory.Intervals IndexSet Finset

set_option autoImplicit false

variable {l others : List Interval} {i : Interval} {x : Int} {s t : IndexSet}

/-- An index in front of the first gap is in the first interval or nowhere. -/
theorem mem_members_of_le_last (canonical : Canonical (i :: l)) (small : x ≤ i.last) :
    x ∈ members (i :: l) ↔ i.first ≤ x := by
  rw [mem_members]
  constructor
  · rintro ⟨j, member, low, _⟩
    rcases List.mem_cons.mp member with rfl | later
    · exact low
    · have := (canonical_cons.mp canonical).2.1 j later
      omega
  · intro low
    exact ⟨i, by simp, low, small⟩

/-- An index behind the first interval is in the rest or nowhere. -/
theorem mem_members_of_last_lt (large : i.last < x) : x ∈ members (i :: l) ↔ x ∈ members l := by
  rw [members_cons, List.mem_append, Interval.mem_values]
  constructor
  · rintro (⟨_, high⟩ | later)
    · omega
    · exact later
  · exact Or.inr

/-! ## One index -/

theorem find?_last (canonical : Canonical l) (x : Int) :
    (match l.find? fun i => x ≤ i.last with
      | none => false
      | some i => decide (i.first ≤ x)) = true ↔ x ∈ members l := by
  induction l with
  | nil => simp
  | cons i l ih =>
    by_cases small : x ≤ i.last
    · rw [List.find?_cons_of_pos (by simpa using small), mem_members_of_le_last canonical small]
      simp
    · rw [List.find?_cons_of_neg (by simpa using small), mem_members_of_last_lt (by omega)]
      exact ih (canonical_cons.mp canonical).2.2

/-- **`Contains` is membership.** -/
theorem contains_iff (valid : s.Valid) (x : Int) : s.contains x = true ↔ x ∈ s.values := by
  unfold contains
  by_cases negative : x < 0
  · rw [if_pos negative]
    constructor
    · intro impossible
      cases impossible
    · intro member
      have := (valid.mem_bounds member).1
      omega
  · rw [if_neg negative]
    exact find?_last valid.canonical x

theorem idxOf_values (low : i.first ≤ x) (high : x ≤ i.last) :
    i.values.idxOf x = (x - i.first).toNat := by
  have small : (x - i.first).toNat < i.values.length := by
    simp only [Interval.length_values, Interval.width]
    omega
  have here : i.values[(x - i.first).toNat] = x := by
    simp only [Interval.values, List.getElem_map, List.getElem_range]
    omega
  have nodup : i.values.Nodup := Interval.pairwise_values.imp fun less => less.ne
  conv_lhs => rw [← here]
  exact nodup.idxOf_getElem _ _

/-- The search for an index, with the number of indexes in front of each interval. -/
theorem search_rank (canonical : Canonical l) (total : Nat) :
    (match l[l.findIdx fun i => x ≤ i.last]? with
      | none => none
      | some i =>
        if x < i.first then none
        else some ((offsetsFrom l total).getD (l.findIdx fun i => x ≤ i.last) 0 +
          (x - i.first).toNat)) =
      if x ∈ members l then some (total + (members l).idxOf x) else none := by
  induction l generalizing total with
  | nil => simp
  | cons i l ih =>
    by_cases small : x ≤ i.last
    · have here : (i :: l).findIdx (fun i => x ≤ i.last) = 0 := by
        simp [List.findIdx_cons, small]
      rw [here]
      simp only [List.getElem?_cons_zero, offsetsFrom, List.getD_cons_zero,
        mem_members_of_le_last canonical small]
      by_cases low : i.first ≤ x
      · have inside : x ∈ i.values := Interval.mem_values.mpr ⟨low, small⟩
        rw [if_neg (by omega), if_pos low, members_cons, List.idxOf_append_of_mem inside,
          idxOf_values low small]
      · rw [if_pos (by omega), if_neg low]
    · have behind : (i :: l).findIdx (fun i => x ≤ i.last) =
          l.findIdx (fun i => x ≤ i.last) + 1 := by
        simp [List.findIdx_cons, small]
      have outside : x ∉ i.values := by
        rw [Interval.mem_values]
        omega
      rw [behind]
      simp only [List.getElem?_cons_succ, offsetsFrom, List.getD_cons_succ,
        mem_members_of_last_lt (not_le.mp small)]
      rw [ih (canonical_cons.mp canonical).2.2, members_cons,
        List.idxOf_append_of_notMem outside, Interval.length_values, Nat.add_assoc]

/-- **`rankOf` is the position in the ascending enumeration.** -/
theorem rankOf_eq (valid : s.Valid) (x : Int) :
    s.rankOf x s.prefixOffsets = if x ∈ s.values then some (s.values.idxOf x) else none := by
  unfold rankOf
  by_cases negative : x < 0
  · rw [if_pos negative, if_neg]
    intro member
    have := (valid.mem_bounds member).1
    omega
  · rw [if_neg negative]
    have search := search_rank (x := x) valid.canonical 0
    rw [Nat.zero_add] at search
    exact search

/-! ## Subsets -/

theorem mem_dropWhile_of_neg {α : Type} {p : α → Bool} {l : List α} {a : α} (member : a ∈ l)
    (fails : p a = false) : a ∈ l.dropWhile p := by
  induction l with
  | nil => cases member
  | cons b l ih =>
    by_cases skipped : p b = true
    · rw [List.dropWhile_cons_of_pos skipped]
      rcases List.mem_cons.mp member with rfl | later
      · rw [skipped] at fails
        cases fails
      · exact ih later
    · rw [List.dropWhile_cons_of_neg skipped]
      exact member

/-- The walk over both lists finds for each interval the one it is in. -/
theorem coversFrom_iff (canonical : Canonical l) (outer : Canonical others) :
    coversFrom l others = true ↔
      ∀ i ∈ l, ∃ o ∈ others, o.first ≤ i.first ∧ i.last ≤ o.last := by
  induction l generalizing others with
  | nil => simp [coversFrom]
  | cons i rest ih =>
    obtain ⟨proper, gap, restCanonical⟩ := canonical_cons.mp canonical
    have suffix : others.dropWhile (fun o => o.last < i.first) <:+ others :=
      List.dropWhile_suffix _
    -- What covers `i` or an interval behind it is not skipped.
    have kept {j o : Interval} (member : j ∈ i :: rest) (isOuter : o ∈ others)
        (covers : j.last ≤ o.last) :
        o ∈ others.dropWhile fun o => o.last < i.first := by
      apply mem_dropWhile_of_neg isOuter
      have behind : i.first ≤ j.last := by
        rcases List.mem_cons.mp member with rfl | later
        · exact proper
        · have := gap j later
          have := restCanonical.proper j later
          omega
      simp only [decide_eq_false_iff_not]
      omega
    unfold coversFrom
    split
    · rename_i none
      constructor
      · intro impossible
        cases impossible
      · intro covered
        obtain ⟨o, isOuter, _, high⟩ := covered i (by simp)
        have := kept (j := i) (by simp) isOuter high
        rw [none] at this
        cases this
    · rename_i o more shape
      have inner : Canonical (o :: more) := by
        rw [← shape]
        exact ⟨fun j member => outer.proper j (suffix.subset member),
          outer.apart.sublist suffix.sublist⟩
      by_cases fails : i.first < o.first ∨ o.last < i.last
      · rw [if_pos fails]
        constructor
        · intro impossible
          cases impossible
        · intro covered
          obtain ⟨o', isOuter, low, high⟩ := covered i (by simp)
          have member := kept (j := i) (by simp) isOuter high
          rw [shape] at member
          -- `o` reaches `i`, so an interval behind it begins too late.
          have reaches : i.first ≤ o.last := by
            have first := List.head?_dropWhile_not (fun o => decide (o.last < i.first)) others
            rw [shape] at first
            simpa using first
          rcases List.mem_cons.mp member with rfl | later
          · omega
          · have := (canonical_cons.mp inner).2.1 o' later
            omega
      · rw [if_neg fails, ih restCanonical inner]
        rw [not_or, not_lt, not_lt] at fails
        constructor
        · intro covered j member
          rcases List.mem_cons.mp member with rfl | later
          · exact ⟨o, suffix.subset (by simp [shape]), fails⟩
          · obtain ⟨o', isInner, covers⟩ := covered j later
            exact ⟨o', suffix.subset (shape ▸ isInner), covers⟩
        · intro covered j member
          obtain ⟨o', isOuter, covers⟩ := covered j (by simp [member])
          have inside := kept (by simp [member]) isOuter covers.2
          exact ⟨o', shape ▸ inside, covers⟩

/-- **`IsSubsetOf` is inclusion.** -/
theorem isSubsetOf_iff (valid : s.Valid) (valid' : t.Valid) :
    s.isSubsetOf t = true ↔ ∀ x ∈ s.values, x ∈ t.values := by
  have covers : coversFrom s.intervals t.intervals = true ↔
      ∀ x ∈ s.values, x ∈ t.values :=
    (coversFrom_iff valid.canonical valid'.canonical).trans
      (valid'.canonical.subset_iff valid.canonical.proper).symm
  unfold isSubsetOf
  by_cases larger : t.cardinality < s.cardinality
  · rw [if_pos larger]
    constructor
    · intro impossible
      cases impossible
    · intro subset
      have := (List.subperm_of_subset valid.nodup subset).length_le
      rw [valid.counted, valid'.counted] at larger
      omega
  · rw [if_neg larger]
    exact covers

/-! ## Disjoint sets -/

/-- **`disjointIndexSets` says that no index is in two sets.** -/
theorem disjointIndexSets_iff {sets : List IndexSet} (valid : ∀ s ∈ sets, s.Valid) :
    disjointIndexSets sets = true ↔ (sets.flatMap (·.values)).Nodup := by
  unfold disjointIndexSets
  by_cases few : sets.length < 2
  · rw [if_pos few]
    simp only [true_iff]
    match sets, few with
    | [], _ => exact List.nodup_nil
    | [s], _ => simpa using (valid s (by simp)).nodup
  · rw [if_neg few, decide_eq_true_iff]
    have perm := List.perm_insertionSort (fun a b : Interval => a.first ≤ b.first)
      (sets.flatMap (·.intervals))
    have pooled : (members (sets.flatMap (·.intervals))) = sets.flatMap (·.values) := by
      rw [members, List.flatMap_assoc]
      rfl
    rw [← nodup_members_iff _ (List.pairwise_insertionSort _ _), members,
      (perm.flatMap_right _).nodup_iff, ← members, pooled]
    intro i member
    obtain ⟨s, isSet, isInterval⟩ := List.mem_flatMap.mp (perm.mem_iff.mp member)
    exact (valid s isSet).canonical.proper i isInterval

/-! ## The finite set an index set stands for -/

/-- There are no more indexes than 32-bit numbers that are not negative. -/
theorem length_members_le (canonical : Canonical l) (indexes : ∀ i ∈ l, IndexInterval i) :
    (members l).length ≤ 2 ^ 31 := by
  have distinct : (members l).Nodup := canonical.pairwise_members.imp fun less => less.ne
  have inside : (members l).toFinset ⊆ Icc 0 (maxInt32 : Int) := by
    intro x member
    obtain ⟨i, isMember, low, high⟩ := mem_members.mp (List.mem_toFinset.mp member)
    have ⟨nonneg, _, fits⟩ := indexes i isMember
    exact mem_Icc.mpr ⟨nonneg.trans low, high.trans fits⟩
  calc (members l).length = (members l).toFinset.card :=
      (List.toFinset_card_of_nodup distinct).symm
    _ ≤ (Icc 0 (maxInt32 : Int)).card := card_le_card inside
    _ = 2 ^ 31 := by simp [maxInt32]

/-- What the set has read are the elements of the finite set, ascending. -/
def IndexSet.StandsFor (s : IndexSet) (S : Finset Int) : Prop := s.Valid ∧ s.values = S.sort

variable {S T : Finset Int} {xs : List Int} {limit : Nat}

/-- Ascending indexes are the members of intervals that are not adjacent. -/
theorem exists_canonical (ascends : xs.Pairwise (· < ·)) (fits : ∀ x ∈ xs, x ≤ maxInt32) :
    ∃ l, Canonical l ∧ members l = xs := by
  induction xs using List.reverseRecOn with
  | nil => exact ⟨[], canonical_nil, members_nil⟩
  | append_singleton xs x ih =>
    obtain ⟨front, -, below⟩ := List.pairwise_append.mp ascends
    obtain ⟨l, canonical, rfl⟩ := ih front fun y member => fits y (by simp [member])
    have last (y : Int) (member : y ∈ members l) : y < x := below y member x (by simp)
    obtain ⟨l', -, canonical', lists⟩ := addIndex_new canonical
      (fun y member => (last y member).le) (fits x (by simp)) fun member => (last x member).false
    exact ⟨l', canonical', lists⟩

theorem exists_standsFor (nonempty : S.Nonempty) (bounds : ∀ x ∈ S, 0 ≤ x ∧ x ≤ maxInt32) :
    ∃ s : IndexSet, s.StandsFor S := by
  obtain ⟨l, canonical, lists⟩ := exists_canonical S.sortedLT_sort.pairwise
    fun x member => (bounds x ((S.mem_sort _).mp member)).2
  have inside (i : Interval) (member : i ∈ l) (x : Int) (low : i.first ≤ x) (high : x ≤ i.last) :
      0 ≤ x ∧ x ≤ maxInt32 := by
    apply bounds
    rw [← S.mem_sort (· ≤ ·), ← lists, mem_members]
    exact ⟨i, member, low, high⟩
  refine ⟨⟨l, (members l).length⟩, ⟨canonical, ?_, ?_, ?_, rfl⟩, lists⟩
  · rintro rfl
    obtain ⟨x, member⟩ := nonempty
    rw [← S.mem_sort (· ≤ ·), ← lists] at member
    cases member
  · exact fun i member => (inside i member _ le_rfl (canonical.proper i member)).1
  · exact fun i member => (inside i member _ (canonical.proper i member) le_rfl).2

theorem IndexSet.Valid.standsFor (valid : s.Valid) : s.StandsFor s.values.toFinset :=
  ⟨valid, ((List.toFinset_sort _ valid.nodup).mpr
    (valid.canonical.pairwise_members.imp fun less => less.le)).symm⟩

/-- The position in an ascending list is the number of smaller elements. -/
theorem idxOf_eq_card (ascends : xs.Pairwise (· < ·)) (member : x ∈ xs) :
    xs.idxOf x = (xs.toFinset.filter (· < x)).card := by
  induction xs with
  | nil => cases member
  | cons y rest ih =>
    obtain ⟨below, ascends⟩ := List.pairwise_cons.mp ascends
    rcases List.mem_cons.mp member with rfl | later
    · have none : (x :: rest).toFinset.filter (· < x) = ∅ := by
        simpa [filter_eq_empty_iff] using fun z later => (below z later).le
      rw [none, List.idxOf_cons_self, card_empty]
    · have less := below x later
      have fresh : y ∉ rest.toFinset.filter (· < x) := by
        simpa using fun again => absurd (below y again) (lt_irrefl y)
      rw [List.idxOf_cons_ne _ less.ne, ih ascends later, List.toFinset_cons,
        filter_insert, if_pos less, card_insert_of_notMem fresh]

namespace IndexSet.StandsFor

variable (stands : s.StandsFor S)
include stands

theorem mem_values : x ∈ s.values ↔ x ∈ S := by rw [stands.2, mem_sort]

theorem cardinality_eq : s.cardinality = S.card := by
  rw [stands.1.counted, stands.2, length_sort]

theorem bounds (x : Int) (member : x ∈ S) : 0 ≤ x ∧ x ≤ maxInt32 :=
  stands.1.mem_bounds (stands.mem_values.mpr member)

theorem equal_iff (stands' : t.StandsFor T) : s.equal t = true ↔ S = T := by
  simp only [equal, Bool.and_eq_true, decide_eq_true_eq]
  constructor
  · rintro ⟨-, same⟩
    ext x
    rw [← stands.mem_values, ← stands'.mem_values, IndexSet.values, same, IndexSet.values]
  · rintro rfl
    exact ⟨stands.cardinality_eq.trans stands'.cardinality_eq.symm,
      stands.1.canonical.ext stands'.1.canonical (stands.2.trans stands'.2.symm)⟩

theorem valuesWithin_eq (room : S.card ≤ limit) : s.valuesWithin limit = .ok S.sort := by
  have ⟨canonical, _, nonneg, fits, counted⟩ := stands.1
  have small := length_members_le canonical fun i member =>
    ⟨nonneg i member, canonical.proper i member, fits i member⟩
  have some := List.length_pos_iff.mpr stands.1.values_ne_nil
  rw [← counted] at some
  rw [← values, ← counted] at small
  rw [← stands.cardinality_eq] at room
  rw [valuesWithin, refuse_bind_eq_ok, refuse_bind_eq_ok, pure_eq_ok]
  exact ⟨by omega, by omega, stands.2⟩

theorem encode_eq (room : S.card ≤ limit) {indices : List Int} (distinct : indices.Nodup)
    (same : indices.toFinset = S) : encodeIndexSet indices limit = .ok s.text := by
  subst same
  rw [List.toFinset_card_of_nodup distinct] at room
  have read : parseIndexSet s.text s.cardinality = .ok s :=
    parseIndexSet_eq_ok.mpr ⟨stands.1, le_rfl, rfl⟩
  apply encodeIndexSet_of_parse read _ room
  rw [stands.2]
  exact (List.perm_ext_iff_of_nodup distinct (sort_nodup _ _)).mpr (by simp)

theorem rank_eq (x : Int) : s.rankOf x s.prefixOffsets =
    if x ∈ S then some (S.filter (· < x)).card else none := by
  rw [rankOf_eq stands.1]
  by_cases member : x ∈ S
  · rw [if_pos (stands.mem_values.mpr member), if_pos member, stands.2,
      idxOf_eq_card S.sortedLT_sort.pairwise ((S.mem_sort _).mpr member), sort_toFinset]
  · rw [if_neg (mt stands.mem_values.mp member), if_neg member]

end IndexSet.StandsFor

theorem disjoint_iff {sets : List (IndexSet × Finset Int)}
    (stands : ∀ p ∈ sets, p.1.StandsFor p.2) :
    disjointIndexSets (sets.map Prod.fst) = true ↔ (sets.map Prod.snd).Pairwise Disjoint := by
  rw [disjointIndexSets_iff (List.forall_mem_map.mpr fun p member => (stands p member).1),
    List.flatMap_map, List.nodup_flatMap, List.pairwise_map,
    and_iff_right fun p member => (stands p member).1.nodup]
  refine List.Pairwise.iff_of_mem fun {p q} first second => ?_
  rw [Function.onFun, List.disjoint_left, disjoint_left]
  simp only [(stands p first).mem_values, (stands q second).mem_values]

/-- **The texts are those of finite sets of indexes, and the operations are theirs.** -/
theorem index_sets_exact (limit : Nat) :
    (∀ S : Finset Int, S.Nonempty → (∀ x ∈ S, 0 ≤ x ∧ x ≤ maxInt32) → S.card ≤ limit →
      ∃ s, StandsFor s S ∧ ∀ indices : List Int, indices.Nodup → indices.toFinset = S →
        encodeIndexSet indices limit = .ok s.text) ∧
    (∀ raw s, parseIndexSet raw limit = .ok s ↔
      ∃ S, s.StandsFor S ∧ S.card ≤ limit ∧ raw = s.text) ∧
    (∀ s S, StandsFor s S →
      S.Nonempty ∧ (∀ x ∈ S, 0 ≤ x ∧ x ≤ maxInt32) ∧ s.cardinality = S.card ∧
      (S.card ≤ limit → s.valuesWithin limit = .ok S.sort) ∧
      (∀ x, s.contains x = true ↔ x ∈ S) ∧
      (∀ x, s.rankOf x s.prefixOffsets =
        if x ∈ S then some (S.filter (· < x)).card else none) ∧
      ∀ t T, StandsFor t T → (s.isSubsetOf t = true ↔ S ⊆ T) ∧ (s.equal t = true ↔ S = T)) ∧
    (∀ sets : List (IndexSet × Finset Int), (∀ p ∈ sets, p.1.StandsFor p.2) →
      (disjointIndexSets (sets.map Prod.fst) = true ↔ (sets.map Prod.snd).Pairwise Disjoint)) ∧
    (∀ word value, readDigits word 0 = .ok value → value ≤ maxInt32) ∧
    ∀ (terms : List (List Char)) scan term i, terms.foldlM (scanTerm limit) {} = .ok scan →
      parseIndexInterval term = .ok i → scan.cardinality + i.width ≤ 2 ^ 32 := by
  refine ⟨fun S nonempty bounds room => ?_, fun raw s => ?_, fun s S stands => ?_,
    fun sets => disjoint_iff,
    fun word value read => ((readDigits_eq_ok (Nat.zero_le _)).mp read).2.2, ?_⟩
  · obtain ⟨s, stands⟩ := exists_standsFor nonempty bounds
    exact ⟨s, stands, fun indices => stands.encode_eq room⟩
  · rw [parseIndexSet_eq_ok]
    constructor
    · rintro ⟨valid, room, text⟩
      have stands := valid.standsFor
      exact ⟨_, stands, stands.cardinality_eq ▸ room, text⟩
    · rintro ⟨S, stands, room, text⟩
      exact ⟨stands.1, stands.cardinality_eq ▸ room, text⟩
  · refine ⟨?_, stands.bounds, stands.cardinality_eq, stands.valuesWithin_eq, fun x => ?_,
      stands.rank_eq, fun t T stands' => ⟨?_, stands.equal_iff stands'⟩⟩
    · obtain ⟨x, member⟩ := List.exists_mem_of_ne_nil _ stands.1.values_ne_nil
      exact ⟨x, stands.mem_values.mp member⟩
    · rw [contains_iff stands.1, stands.mem_values]
    · rw [isSubsetOf_iff stands.1 stands'.1]
      simp only [stands.mem_values, stands'.mem_values]
      rfl
  · intro terms scan term i run read
    obtain ⟨more, indexes, -, canonical, -, rfl⟩ :=
      (foldlM_scanTerm canonical_nil (Nat.zero_le limit)).mp run
    have ⟨nonneg, _, fits⟩ := (parseIndexInterval_eq_ok.mp read).1
    have small : (members more).length ≤ 2 ^ 31 := length_members_le canonical indexes
    have wide : i.width ≤ 2 ^ 31 := by
      simp only [Interval.width, maxInt32] at fits ⊢
      omega
    exact Nat.add_le_add small wide

end Ome.StatusCodec
