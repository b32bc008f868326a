/-
# Ome.Quota.HighWater — the high-water mark of installed capacity

The model of `quota/capacity/highwater.go`.  A history is the list of the observations fed to
`TrackAll`, the last one first, each call on the marks of the one before.

* `markOf_trackAll_observed` and `markOf_trackAll_missing`: what one call makes of a mark;
* `mark_mem_observedSince`: a mark is a value installed since it was last dropped;
* `marks_within_band`: after every history the marks are within the band.
-/
import Ome.Quota.Allowances

namespace Ome.Quota.HighWater

open Ome.Theory List Decimal

set_option autoImplicit false

/-! ## The source -/

structure Key where
  resource : String
  flavor : String
  deriving DecidableEq

structure Capacity where
  resourceName : String
  resourceFlavor : String
  allocatable : Quantity
  unavailable : Quantity
  deriving DecidableEq

structure Mark where
  resourceName : String
  resourceFlavor : String
  allocatable : Quantity
  highWaterMark : Quantity
  deriving DecidableEq

def Capacity.key (c : Capacity) : Key := ⟨c.resourceName, c.resourceFlavor⟩

def Mark.key (m : Mark) : Key := ⟨m.resourceName, m.resourceFlavor⟩

def installed (c : Capacity) : Quantity := c.allocatable.add c.unavailable

/-- A decimal times a whole number. -/
def times (d : Decimal) (factor : Int) : Decimal := ⟨d.unscaled * factor, d.scale⟩

def track (mark observed : Quantity) (bandPercent : Int) : Quantity :=
  if observed.dec.cmp mark.dec ≠ .lt then observed
  else if bandPercent ≤ 0 then observed
  else if 100 ≤ bandPercent then mark
  else if (times observed.dec 100).cmp (times mark.dec (100 - bandPercent)) = .lt then observed
  else mark

/-- The marks of a status, the first one of a pair; the keys of the map are in their order. -/
def marksOf (previous : List Mark) : GoMap Key Quantity :=
  previous.foldl (fun m p => if p.key ∈ m.keys then m else m.set p.key p.highWaterMark) .empty

def trackAll (previous : List Mark) (observed : List Capacity) (bandPercent : Int) : List Mark :=
  let marks := marksOf previous
  let out := observed.map fun c =>
    ⟨c.resourceName, c.resourceFlavor, c.allocatable,
      track (marks.get c.key) (installed c) bandPercent⟩
  let unseen := marks.keys.filter (· ∉ observed.map Capacity.key)
  let carried := (unseen.filter fun k => ¬ (marks.get k).isZero).map fun k =>
    ⟨k.resource, k.flavor, default, marks.get k⟩
  (out ++ carried).insertionSort fun a b => a.resourceName < b.resourceName ∨
    a.resourceName = b.resourceName ∧ a.resourceFlavor ≤ b.resourceFlavor

/-- The mark a status has for a pair. -/
def markOf (marks : List Mark) (k : Key) : Option Quantity :=
  (marks.find? (·.key = k)).map Mark.highWaterMark

/-- The marks after a history. -/
def marksAfter (bandPercent : Int) : List (List Capacity) → List Mark
  | [] => []
  | observed :: earlier => trackAll (marksAfter bandPercent earlier) observed bandPercent

/-- What was observed to be installed for a pair since its mark was last dropped. -/
def observedSince (bandPercent : Int) (k : Key) : List (List Capacity) → List Quantity
  | [] => []
  | observed :: earlier =>
    match observed.find? (·.key = k) with
    | some c => installed c :: observedSince bandPercent k earlier
    | none =>
      if markOf (marksAfter bandPercent (observed :: earlier)) k = none then []
      else observedSince bandPercent k earlier

variable {previous : List Mark} {observed : List Capacity} {bandPercent : Int} {c : Capacity}
  {k : Key}

/-! ## One call -/

section

variable (distinct : (observed.map Capacity.key).Nodup)

theorem get_marksOf (k : Key) : (marksOf previous).get k = (markOf previous k).getD default :=
  GoMap.get_foldl_first Mark.key Mark.highWaterMark k previous .empty

theorem mem_marksOf : k ∈ (marksOf previous).keys ↔ ∃ mark, markOf previous k = some mark := by
  rw [marksOf, GoMap.mem_keys_foldl_first Mark.key, ← Option.isSome_iff_exists, markOf]
  simp

theorem mem_trackAll {m : Mark} : m ∈ trackAll previous observed bandPercent ↔
    (∃ c ∈ observed, m = ⟨c.resourceName, c.resourceFlavor, c.allocatable,
      track ((markOf previous c.key).getD default) (installed c) bandPercent⟩) ∨
    ∃ k mark, markOf previous k = some mark ∧ k ∉ observed.map Capacity.key ∧ ¬ mark.isZero ∧
      m = ⟨k.resource, k.flavor, default, mark⟩ := by
  rw [trackAll, mem_insertionSort, mem_append]
  refine or_congr ?_ ?_
  · simp only [mem_map, get_marksOf, eq_comm]
  · simp only [mem_map, mem_filter, mem_marksOf, get_marksOf, decide_eq_true_eq]
    constructor
    · rintro ⟨k, ⟨⟨⟨mark, held⟩, unseen⟩, nonzero⟩, rfl⟩
      rw [held] at nonzero ⊢
      exact ⟨k, mark, held, unseen, nonzero, rfl⟩
    · rintro ⟨k, mark, held, unseen, nonzero, rfl⟩
      exact ⟨k, by simp [held, nonzero, unseen], by simp [held]⟩

include distinct

theorem trackAll_distinct : ((trackAll previous observed bandPercent).map Mark.key).Nodup := by
  rw [trackAll, ((perm_insertionSort _ _).map Mark.key).nodup_iff, map_append,
    map_map, map_map]
  refine nodup_append.mpr ⟨distinct, ?_, ?_⟩
  · exact (map_id _).symm ▸ ((marksOf previous).nodup.filter _).filter _
  · rintro _ seen _ carried rfl
    obtain ⟨k, member, rfl⟩ := mem_map.mp carried
    exact of_decide_eq_true (mem_filter.mp (mem_filter.mp member).1).2 seen

theorem markOf_trackAll_observed (member : c ∈ observed) :
    markOf (trackAll previous observed bandPercent) c.key =
      some (track ((markOf previous c.key).getD default) (installed c) bandPercent) :=
  congrArg (Option.map _) (find?_key (trackAll_distinct distinct)
    (mem_trackAll.mpr (.inl ⟨c, member, rfl⟩)))

theorem markOf_trackAll_missing (missing : k ∉ observed.map Capacity.key) :
    markOf (trackAll previous observed bandPercent) k =
      (markOf previous k).filter fun mark => ¬ mark.isZero := by
  cases kept : (markOf previous k).filter fun mark => ¬ mark.isZero with
  | some mark =>
    obtain ⟨held, nonzero⟩ := Option.filter_eq_some_iff.mp kept
    exact congrArg (Option.map _) (find?_key (trackAll_distinct distinct)
      (mem_trackAll.mpr (.inr ⟨k, mark, held, missing, by simpa using nonzero, rfl⟩)))
  | none =>
    refine Option.map_eq_none_iff.mpr (List.find?_eq_none.mpr fun m member same => ?_)
    obtain rfl : m.key = k := by simpa using same
    rcases mem_trackAll.mp member with ⟨c, seen, rfl⟩ | ⟨k, mark, held, -, nonzero, rfl⟩
    · exact missing (mem_map_of_mem seen)
    · rw [show Mark.key _ = k from rfl, held, Option.filter_some] at kept
      simp [nonzero] at kept

end

/-! ## Histories -/

theorem value_times (d : Decimal) (factor : Int) : (times d factor).value = d.value * factor := by
  rw [value, value, times]
  push_cast
  ring

theorem installed_nonneg (nonneg : 0 ≤ c.allocatable.dec.unscaled ∧
    0 ≤ c.unavailable.dec.unscaled) : 0 ≤ (installed c).dec.value := by
  rw [installed, Quantity.add, value_add]
  exact add_nonneg ((value_nonneg _).mpr nonneg.1) ((value_nonneg _).mpr nonneg.2)

section

variable (damps : 0 < bandPercent) (follows : bandPercent < 100)
include damps follows

/-- A new mark is what is installed, or an old mark above it but within the band. -/
theorem track_cases {mark installed : Quantity} : track mark installed bandPercent = installed ∨
    track mark installed bandPercent = mark ∧ installed.dec.value < mark.dec.value ∧
      mark.dec.value * (100 - bandPercent) ≤ installed.dec.value * 100 := by
  rw [track]
  split_ifs with above _ _ past
  · exact .inl rfl
  · exact .inl rfl
  · omega
  · exact .inl rfl
  · rw [cmp_lt, value_times, value_times, not_lt] at past
    refine .inr ⟨rfl, (cmp_lt ..).mp (not_not.mp above), ?_⟩
    exact_mod_cast past

theorem mark_mem_observedSince {k : Key} {mark : Quantity} : ∀ {history : List (List Capacity)},
    (∀ observed ∈ history, (observed.map Capacity.key).Nodup) →
    (∀ observed ∈ history, ∀ c ∈ observed,
      0 ≤ c.allocatable.dec.unscaled ∧ 0 ≤ c.unavailable.dec.unscaled) →
    markOf (marksAfter bandPercent history) k = some mark →
      mark ∈ observedSince bandPercent k history
  | [], _, _, marked => nomatch marked
  | observed :: earlier, distinct, nonneg, marked => by
    rw [forall_mem_cons] at distinct nonneg
    rw [observedSince]
    cases found : observed.find? (·.key = k) with
    | none =>
      have missing : k ∉ observed.map Capacity.key := by
        simpa using List.find?_eq_none.mp found
      dsimp only
      rw [if_neg (by simp [marked])]
      rw [marksAfter, markOf_trackAll_missing distinct.1 missing] at marked
      exact mark_mem_observedSince distinct.2 nonneg.2 (Option.filter_eq_some_iff.mp marked).1
    | some c =>
      obtain rfl : c.key = k := by simpa using List.find?_some found
      have member := mem_of_find?_eq_some found
      rw [marksAfter, markOf_trackAll_observed distinct.1 member] at marked
      obtain rfl := Option.some.inj marked
      refine mem_cons.mpr ((track_cases damps follows).imp_right fun ⟨same, above, _⟩ => ?_)
      rw [same]
      cases held : markOf (marksAfter bandPercent earlier) c.key with
      | some mark => exact mark_mem_observedSince distinct.2 nonneg.2 held
      | none =>
        -- a pair without a mark reads as zero, and nothing that is installed is below it
        rw [held] at above
        have below : (installed c).dec.value < 0 := above.trans_eq (zero_mul _)
        exact absurd below (not_lt.mpr (installed_nonneg (nonneg.1 c member)))

/-- **The marks stay within the band**: an observed pair has one mark, no lower than what is
installed, no further above it than the band, and installed once since the pair was last
dropped; a pair that is not observed keeps its mark unless it is zero. -/
theorem marks_within_band {earlier : List (List Capacity)}
    (distinct : ∀ o ∈ observed :: earlier, (o.map Capacity.key).Nodup)
    (nonneg : ∀ o ∈ observed :: earlier, ∀ c ∈ o,
      0 ≤ c.allocatable.dec.unscaled ∧ 0 ≤ c.unavailable.dec.unscaled) :
    ((marksAfter bandPercent (observed :: earlier)).map Mark.key).Nodup ∧
    (∀ c ∈ observed, ∃ mark,
      markOf (marksAfter bandPercent (observed :: earlier)) c.key = some mark ∧
      (installed c).dec.value ≤ mark.dec.value ∧
      mark.dec.value * (100 - bandPercent) ≤ (installed c).dec.value * 100 ∧
      mark ∈ observedSince bandPercent c.key (observed :: earlier)) ∧
    ∀ k, k ∉ observed.map Capacity.key →
      markOf (marksAfter bandPercent (observed :: earlier)) k =
        (markOf (marksAfter bandPercent earlier) k).filter fun mark => ¬ mark.isZero := by
  have once := distinct observed mem_cons_self
  refine ⟨trackAll_distinct once, fun c member => ?_, fun k => markOf_trackAll_missing once⟩
  have marked : markOf (marksAfter bandPercent (observed :: earlier)) c.key = some _ :=
    markOf_trackAll_observed once member
  have since := mark_mem_observedSince damps follows distinct nonneg marked
  refine ⟨_, marked, and_assoc.mp ⟨?_, since⟩⟩
  rcases track_cases damps follows with same | ⟨same, above, near⟩
  · have less : (100 - bandPercent : ℚ) ≤ 100 := sub_le_self _ (by exact_mod_cast damps.le)
    rw [same]
    exact ⟨le_rfl, mul_le_mul_of_nonneg_left less
      (installed_nonneg (nonneg observed mem_cons_self c member))⟩
  · rw [same]
    exact ⟨above.le, near⟩

end

/-- Ten chips, a call that does not see the pair, and nine. -/
theorem nine_of_ten_within_band :
    let chips (n : Int) : Capacity := ⟨"gpu", "h100", ⟨⟨n, 0⟩, .decimalSI⟩, default⟩
    ∃ mark, markOf (marksAfter 25 [[chips 9], [], [chips 10]]) (chips 9).key = some mark ∧
      mark.dec.value * (100 - (25 : Int)) ≤ (installed (chips 9)).dec.value * 100 := by
  intro chips
  have distinct : ∀ o ∈ [[chips 9], [], [chips 10]], (o.map Capacity.key).Nodup := by decide
  obtain ⟨-, observed, -⟩ := marks_within_band (by decide : 0 < (25 : Int)) (by decide) distinct
    (by decide)
  obtain ⟨mark, marked, -, near, -⟩ := observed (chips 9) mem_cons_self
  exact ⟨mark, marked, near⟩

end Ome.Quota.HighWater
