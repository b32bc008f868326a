/-
# Ome.StatusCodec.IndexSetText — one text for each index set

* `parseIndexSet_eq_ok`: a text is accepted, as a given set, exactly when the set is
  valid, within the limit, and the text is the one the set is written as;
* `indexSetFromIndices_eq_ok`: a list of indexes makes a set exactly when it is within
  the limit, none of its indexes is negative and none is there twice; the set lists
  the indexes in ascending order.
-/
import Ome.StatusCodec.IndexSet
import Ome.Theory.Numerals

namespace Ome.StatusCodec

open Ome.Theory Ome.Theory.Intervals Scan
open List hiding after

set_option autoImplicit false

variable {x : Int} {i : Interval} {l : List Interval} {limit : Nat} {indices : List Int}
variable {s : IndexSet} {raw : String}

/-- What every index set of the codec is: canonical, not empty, within 32 bits and
with its indexes counted. -/
structure IndexSet.Valid (s : IndexSet) : Prop where
  canonical : Canonical s.intervals
  nonempty : s.intervals ≠ []
  nonneg : ∀ i ∈ s.intervals, 0 ≤ i.first
  fits : ∀ i ∈ s.intervals, i.last ≤ maxInt32
  counted : s.cardinality = s.values.length

theorem IndexSet.Valid.values_ne_nil (valid : s.Valid) : s.values ≠ [] := by
  obtain ⟨i, rest, shape⟩ := exists_cons_of_ne_nil valid.nonempty
  have member : i.first ∈ s.values :=
    mem_members.mpr ⟨i, by simp [shape], le_refl _, valid.canonical.proper i (by simp [shape])⟩
  exact ne_nil_of_mem member

/-! ## Numerals -/

theorem readDigits_eq_ok {word : List Char} {value n : Nat} (fits : value ≤ maxInt32) :
    readDigits word value = .ok n ↔
      (∀ c ∈ word, c.isDigit = true) ∧ Nat.ofDigitChars 10 word value = n ∧ n ≤ maxInt32 := by
  induction word generalizing value with
  | nil =>
    simp only [readDigits, Except.ok.injEq, not_mem_nil, false_implies, implies_true,
      true_and, Nat.ofDigitChars_nil]
    constructor
    · rintro rfl
      exact ⟨rfl, fits⟩
    · exact fun holds => holds.1
  | cons c rest ih =>
    rw [readDigits, refuse_bind_eq_ok, Bool.not_eq_false]
    constructor
    · rintro ⟨digit, run⟩
      rw [refuse_bind_eq_ok] at run
      obtain ⟨room, run⟩ := run
      obtain ⟨small, _⟩ := digitChar_of_isDigit digit
      have next : value * 10 + (c.toNat - '0'.toNat) ≤ maxInt32 := by
        unfold maxInt32 at *
        omega
      obtain ⟨digits, read, bound⟩ := (ih next).mp run
      refine ⟨?_, ?_, bound⟩
      · intro d member
        rcases mem_cons.mp member with rfl | later
        · exact digit
        · exact digits d later
      · rw [Nat.ofDigitChars_cons, Nat.mul_comm]
        exact read
    · rintro ⟨digits, read, bound⟩
      have digit := digits c (by simp)
      rw [Nat.ofDigitChars_cons, Nat.mul_comm] at read
      -- The value only grows, so it is within bounds already at this digit.
      have grows : value * 10 + (c.toNat - '0'.toNat) ≤ n := by
        rw [← read, Nat.ofDigitChars_eq_ofDigitChars_zero]
        have scaled : 1 * (value * 10 + (c.toNat - '0'.toNat)) ≤
            10 ^ rest.length * (value * 10 + (c.toNat - '0'.toNat)) :=
          Nat.mul_le_mul_right _ (Nat.one_le_pow _ _ (by decide))
        omega
      refine ⟨digit, refuse_bind_eq_ok.mpr ⟨?_, (ih (grows.trans bound)).mpr
        ⟨fun d member => digits d (by simp [member]), read, bound⟩⟩⟩
      omega

theorem formatInt_natCast (n : Nat) : formatInt (n : Int) = Nat.toDigits 10 n := by
  rw [formatInt, if_neg (by omega), Int.toNat_natCast]

theorem isDigit_of_mem_formatInt (nonneg : 0 ≤ x) {c : Char}
    (member : c ∈ formatInt x) : c.isDigit = true := by
  rw [formatInt, if_neg (by omega)] at member
  exact Nat.isDigit_of_mem_toDigits (by decide) (by decide) member

theorem parseIndex_eq_ok {raw : List Char} :
    parseIndex raw = .ok x ↔ 0 ≤ x ∧ x ≤ maxInt32 ∧ raw = formatInt x := by
  rw [parseIndex, refuse_bind_eq_ok]
  constructor
  · rintro ⟨plain, run⟩
    obtain ⟨value, read, same⟩ := bind_eq_ok.mp run
    rw [pure_eq_ok] at same
    subst same
    obtain ⟨digits, rfl, bound⟩ := (readDigits_eq_ok (Nat.zero_le _)).mp read
    rw [not_or, not_and_or, not_lt] at plain
    refine ⟨by omega, by exact_mod_cast bound, ?_⟩
    rw [formatInt_natCast, toDigits_ofDigitChars raw plain.1 digits]
    rcases plain.2 with short | first
    · have := length_pos_iff.mpr plain.1
      exact Or.inl (by omega)
    · exact Or.inr first
  · rintro ⟨nonneg, bound, rfl⟩
    obtain ⟨n, rfl⟩ := Int.eq_ofNat_of_zero_le nonneg
    have small : n ≤ maxInt32 := by exact_mod_cast bound
    rw [formatInt_natCast]
    constructor
    · rw [not_or, not_and]
      refine ⟨Nat.toDigits_ne_nil, fun long => head_toDigits_ne_zero ?_⟩
      apply Nat.pos_of_ne_zero
      rintro rfl
      rw [Nat.toDigits_zero] at long
      exact absurd long (by decide)
    · refine bind_eq_ok.mpr ⟨n, (readDigits_eq_ok (Nat.zero_le _)).mpr ⟨?_, ?_, small⟩, rfl⟩
      · intro c member
        exact Nat.isDigit_of_mem_toDigits (by decide) (by decide) member
      · exact Nat.ofDigitChars_ten_toDigits

/-! ## Intervals -/

/-- A nonempty interval of indexes. -/
structure IndexInterval (i : Interval) : Prop where
  nonneg : 0 ≤ i.first
  proper : i.first ≤ i.last
  fits : i.last ≤ maxInt32

theorem formatInt_ne_nil (nonneg : 0 ≤ x) : formatInt x ≠ [] := by
  rw [formatInt, if_neg (by omega)]
  exact Nat.toDigits_ne_nil

theorem not_mem_formatInt (nonneg : 0 ≤ x) {c : Char} (other : c.isDigit = false) :
    c ∉ formatInt x := by
  intro member
  rw [isDigit_of_mem_formatInt nonneg member] at other
  cases other

theorem splitOn_intervalText (index : IndexInterval i) :
    (intervalText i).splitOn '-' =
      if i.first = i.last then [formatInt i.first] else [formatInt i.first, formatInt i.last] := by
  have first : '-' ∉ formatInt i.first := not_mem_formatInt index.nonneg (by decide)
  have last : '-' ∉ formatInt i.last :=
    not_mem_formatInt (index.nonneg.trans index.proper) (by decide)
  unfold intervalText
  by_cases single : i.first = i.last
  · rw [if_neg (by simpa using single), if_pos single, splitOn_eq_singleton first]
  · rw [if_pos single, if_neg single, splitOn_append_cons_self_of_not_mem first,
      splitOn_eq_singleton last]

/-- An interval is read from its text, and from nothing else. -/
theorem parseIndexInterval_eq_ok {term : List Char} :
    parseIndexInterval term = .ok i ↔ IndexInterval i ∧ term = intervalText i := by
  constructor
  · intro run
    have whole : ['-'].intercalate (term.splitOn '-') = term := intercalate_splitOn '-'
    unfold parseIndexInterval at run
    split at run
    · rename_i single parts
      obtain ⟨x, read, same⟩ := bind_eq_ok.mp run
      rw [pure_eq_ok] at same
      subst same
      obtain ⟨nonneg, bound, rfl⟩ := parseIndex_eq_ok.mp read
      rw [parts] at whole
      refine ⟨⟨nonneg, le_refl _, bound⟩, ?_⟩
      rw [← whole, intervalText, if_neg (by simp)]
      simp [List.intercalate]
    · rename_i low high parts
      obtain ⟨_, run⟩ := refuse_bind_eq_ok.mp run
      obtain ⟨first, readFirst, run⟩ := bind_eq_ok.mp run
      obtain ⟨last, readLast, run⟩ := bind_eq_ok.mp run
      obtain ⟨ascends, run⟩ := refuse_bind_eq_ok.mp run
      rw [pure_eq_ok] at run
      subst run
      obtain ⟨nonneg, _, rfl⟩ := parseIndex_eq_ok.mp readFirst
      obtain ⟨_, bound, rfl⟩ := parseIndex_eq_ok.mp readLast
      rw [parts] at whole
      refine ⟨⟨nonneg, by simp only; omega, bound⟩, ?_⟩
      rw [← whole, intervalText, if_pos (by simp only; omega)]
      simp [List.intercalate]
    · cases run
  · rintro ⟨index, rfl⟩
    have ⟨nonneg, proper, bound⟩ := index
    have readFirst : parseIndex (formatInt i.first) = .ok i.first :=
      parseIndex_eq_ok.mpr ⟨nonneg, proper.trans bound, rfl⟩
    have readLast : parseIndex (formatInt i.last) = .ok i.last :=
      parseIndex_eq_ok.mpr ⟨nonneg.trans proper, bound, rfl⟩
    rw [parseIndexInterval, splitOn_intervalText index]
    by_cases single : i.first = i.last
    · rw [if_pos single]
      refine bind_eq_ok.mpr ⟨i.first, readFirst, pure_eq_ok.mpr ?_⟩
      cases i
      simp_all
    · rw [if_neg single]
      refine refuse_bind_eq_ok.mpr ⟨?_, bind_eq_ok.mpr ⟨i.first, readFirst,
        bind_eq_ok.mpr ⟨i.last, readLast, refuse_bind_eq_ok.mpr ⟨by omega, rfl⟩⟩⟩⟩
      rw [not_or]
      exact ⟨formatInt_ne_nil nonneg, formatInt_ne_nil (nonneg.trans proper)⟩

theorem intervalText_ne_nil (index : IndexInterval i) : intervalText i ≠ [] := by
  unfold intervalText
  split
  · simp
  · exact formatInt_ne_nil index.nonneg

theorem comma_not_mem_intervalText (index : IndexInterval i) : ',' ∉ intervalText i := by
  have first : ',' ∉ formatInt i.first := not_mem_formatInt index.nonneg (by decide)
  have last : ',' ∉ formatInt i.last :=
    not_mem_formatInt (index.nonneg.trans index.proper) (by decide)
  unfold intervalText
  split
  · simp [first, last]
  · exact first

/-! ## The scan -/

/-- The scan once it has read these intervals. -/
def Scan.after (l : List Interval) : Scan := ⟨l, l.getLast?, (members l).length⟩

theorem checkOrder_eq_ok (canonical : Canonical l)
    (index : IndexInterval i) : checkOrder l.getLast? i = .ok () ↔ Canonical (l ++ [i]) := by
  rcases eq_nil_or_concat' l with rfl | ⟨front, p, rfl⟩
  · simp only [List.getLast?_nil, checkOrder, true_iff, nil_append]
    exact canonical_append_singleton.mpr ⟨canonical_nil, index.proper, by simp⟩
  · rw [List.getLast?_concat, checkOrder, refuse_bind_eq_ok, refuse_eq_ok]
    have bound : i.first ≤ maxInt32 := index.proper.trans index.fits
    constructor
    · rintro ⟨behind, gap⟩
      exact canonical.concat index.proper (by omega)
    · intro grown
      have gap := (canonical_append_singleton.mp grown).2.2 p (by simp)
      omega

theorem scanTerm_eq_ok {term : List Char} {s : Scan} (canonical : Canonical l) :
    scanTerm limit (after l) term = .ok s ↔
      ∃ i, IndexInterval i ∧ term = intervalText i ∧ Canonical (l ++ [i]) ∧
        (members (l ++ [i])).length ≤ limit ∧ s = after (l ++ [i]) := by
  have counted (i : Interval) :
      (after l).cardinality + i.width = (members (l ++ [i])).length := by
    simp [after]
  rw [scanTerm, refuse_bind_eq_ok]
  constructor
  · rintro ⟨_, run⟩
    obtain ⟨i, read, checks⟩ := bind_eq_ok.mp run
    obtain ⟨_, order, counts⟩ := bind_eq_ok.mp checks
    obtain ⟨room, same⟩ := refuse_bind_eq_ok.mp counts
    rw [pure_eq_ok, counted] at same
    rw [counted, not_lt] at room
    obtain ⟨index, text⟩ := parseIndexInterval_eq_ok.mp read
    refine ⟨i, index, text, (checkOrder_eq_ok canonical index).mp order, room, ?_⟩
    rw [← same, after, after, List.getLast?_concat]
  · rintro ⟨i, index, rfl, grown, room, rfl⟩
    refine ⟨intervalText_ne_nil index, bind_eq_ok.mpr ⟨i, parseIndexInterval_eq_ok.mpr ⟨index, rfl⟩,
      bind_eq_ok.mpr ⟨(), (checkOrder_eq_ok canonical index).mpr grown,
        refuse_bind_eq_ok.mpr ⟨?_, ?_⟩⟩⟩⟩
    · rw [counted, not_lt]
      exact room
    · rw [pure_eq_ok, counted, after, after, List.getLast?_concat]

/-- The scan reads a canonical list of intervals, term by term. -/
theorem foldlM_scanTerm {terms : List (List Char)} {s : Scan}
    (canonical : Canonical l) (room : (members l).length ≤ limit) :
    terms.foldlM (scanTerm limit) (after l) = .ok s ↔
      ∃ more, (∀ i ∈ more, IndexInterval i) ∧ terms = more.map intervalText ∧
        Canonical (l ++ more) ∧ (members (l ++ more)).length ≤ limit ∧
        s = after (l ++ more) := by
  induction terms generalizing l with
  | nil =>
    rw [foldlM_nil, pure_eq_ok]
    constructor
    · rintro rfl
      exact ⟨[], by simp, rfl, by simpa using canonical, by simpa using room, by simp⟩
    · rintro ⟨more, _, none, _, _, rfl⟩
      rw [map_eq_nil_iff.mp none.symm, append_nil]
  | cons term terms ih =>
    rw [foldlM_cons, bind_eq_ok]
    constructor
    · rintro ⟨next, step, run⟩
      obtain ⟨i, index, rfl, grown, fits, rfl⟩ := (scanTerm_eq_ok canonical).mp step
      obtain ⟨more, indexes, rfl, whole, bound, rfl⟩ := (ih grown fits).mp run
      rw [append_assoc] at whole bound ⊢
      refine ⟨i :: more, ?_, rfl, whole, bound, rfl⟩
      intro j member
      rcases mem_cons.mp member with rfl | later
      · exact index
      · exact indexes j later
    · rintro ⟨more, indexes, texts, whole, bound, same⟩
      cases more with
      | nil => cases texts
      | cons i more =>
        obtain ⟨rfl, rest⟩ := List.cons.inj texts
        have regroup : l ++ i :: more = l ++ [i] ++ more := by simp
        rw [regroup] at whole bound same
        have grown : Canonical (l ++ [i]) :=
          ⟨fun j member => whole.proper j (mem_append_left _ member),
            (pairwise_append.mp whole.apart).1⟩
        have fits : (members (l ++ [i])).length ≤ limit := by
          rw [members_append, length_append] at bound
          omega
        refine ⟨after (l ++ [i]), (scanTerm_eq_ok canonical).mpr
          ⟨i, indexes i (by simp), rfl, grown, fits, rfl⟩, (ih grown fits).mpr
          ⟨more, fun j member => indexes j (by simp [member]), rest, whole, bound, same⟩⟩

/-! ## Texts and sets -/

/-- **A text is accepted as a set exactly when it is the text of the set.** -/
theorem parseIndexSet_eq_ok :
    parseIndexSet raw limit = .ok s ↔ s.Valid ∧ s.cardinality ≤ limit ∧ raw = s.text := by
  have start : ({} : Scan) = after [] := rfl
  rw [parseIndexSet, bind_eq_ok]
  constructor
  · rintro ⟨scan, run, same⟩
    rw [scanIndexSet, refuse_bind_eq_ok, refuse_bind_eq_ok, start,
      foldlM_scanTerm canonical_nil (by simp)] at run
    obtain ⟨_, _, more, indexes, texts, canonical, bound, rfl⟩ := run
    rw [pure_eq_ok] at same
    subst same
    refine ⟨⟨canonical, ?_, fun i member => (indexes i member).nonneg,
      fun i member => (indexes i member).fits, rfl⟩, bound, ?_⟩
    · rintro none
      rw [show more = [] from none] at texts
      exact splitOn_ne_nil _ _ texts
    -- joining the terms gives the text back
    · have whole : [','].intercalate (raw.toList.splitOn ',') = raw.toList :=
        intercalate_splitOn ','
      rw [texts] at whole
      rw [IndexSet.text, show (after ([] ++ more)).intervals = more from rfl, whole,
        String.ofList_toList]
  · rintro ⟨valid, bound, rfl⟩
    have ⟨canonical, nonempty, nonneg, fits, counted⟩ := valid
    have indexes : ∀ i ∈ s.intervals, IndexInterval i := fun i member =>
      ⟨nonneg i member, canonical.proper i member, fits i member⟩
    -- a term has no comma, so splitting the text gives the terms back
    have texts : s.text.toList.splitOn ',' = s.intervals.map intervalText := by
      rw [IndexSet.text, String.toList_ofList, splitOn_intercalate]
      · intro text member
        obtain ⟨i, isMember, rfl⟩ := mem_map.mp member
        exact comma_not_mem_intervalText (indexes i isMember)
      · simpa using nonempty
    refine ⟨after s.intervals, ?_, ?_⟩
    · rw [scanIndexSet, refuse_bind_eq_ok, refuse_bind_eq_ok, start, texts,
        foldlM_scanTerm canonical_nil (by simp)]
      refine ⟨?_, ?_, s.intervals, indexes, rfl, canonical, ?_, rfl⟩
      · intro empty
        rw [empty] at texts
        obtain ⟨i, rest, shape⟩ := exists_cons_of_ne_nil nonempty
        rw [shape, map_cons] at texts
        exact intervalText_ne_nil (indexes i (by simp [shape])) (List.cons.inj texts).1.symm
      · rintro rfl
        rw [counted, Nat.le_zero, length_eq_zero_iff] at bound
        exact valid.values_ne_nil bound
      · exact counted ▸ bound
    · rw [pure_eq_ok]
      show IndexSet.mk s.intervals s.values.length = s
      rw [← counted]

/-! ## Sets from indexes -/

/-- One index behind the others joins the last interval or begins a new one. -/
theorem addIndex_new (canonical : Canonical l)
    (ascends : ∀ y ∈ members l, y ≤ x) (fits : x ≤ maxInt32) (new : x ∉ members l) :
    ∃ l', addIndex l x = .ok l' ∧ Canonical l' ∧ members l' = members l ++ [x] := by
  have single : members [⟨x, x⟩] = [x] := by simp [Interval.values, Interval.width]
  rcases eq_nil_or_concat' l with rfl | ⟨front, p, rfl⟩
  · refine ⟨[⟨x, x⟩], rfl, ?_, single⟩
    exact canonical_append_singleton (l := []).mpr ⟨canonical_nil, le_refl _, by simp⟩
  · have inside : p.last ∈ members (front ++ [p]) :=
      mem_members.mpr ⟨p, by simp, canonical.proper p (by simp), le_refl _⟩
    have behind := ascends p.last inside
    have other : x ≠ p.last := fun same => new (same ▸ inside)
    unfold addIndex
    rw [List.getLast?_concat]
    by_cases joins : p.last ≠ maxInt32 ∧ x = p.last + 1
    · obtain ⟨grown, lists⟩ := canonical.extend
      rw [← joins.2] at grown lists
      refine ⟨_, refuse_bind_eq_ok.mpr ⟨other, ?_⟩, grown, lists⟩
      rw [if_pos joins, dropLast_concat]
      rfl
    · refine ⟨_, refuse_bind_eq_ok.mpr ⟨other, if_neg joins⟩,
        canonical.concat (le_refl _) (by simp only; omega), ?_⟩
      rw [members_append, single]

theorem addIndex_again (canonical : Canonical l) (ascends : ∀ y ∈ members l, y ≤ x)
    (member : x ∈ members l) (l' : List Interval) : addIndex l x ≠ .ok l' := by
  rcases eq_nil_or_concat' l with rfl | ⟨front, p, rfl⟩
  · cases member
  · have inside : p.last ∈ members (front ++ [p]) :=
      mem_members.mpr ⟨p, by simp, canonical.proper p (by simp), le_refl _⟩
    have same : x = p.last := le_antisymm (canonical.le_last member) (ascends p.last inside)
    unfold addIndex
    rw [List.getLast?_concat]
    intro run
    exact (refuse_bind_eq_ok.mp run).1 same

/-- The loop makes the canonical list of ascending indexes, unless one is there twice. -/
theorem foldlM_addIndex {l' : List Interval} {rest : List Int} (canonical : Canonical l)
    (ascends : (members l ++ rest).Pairwise (· ≤ ·)) (fits : ∀ x ∈ rest, x ≤ maxInt32) :
    rest.foldlM addIndex l = .ok l' ↔
      (members l ++ rest).Nodup ∧ Canonical l' ∧ members l' = members l ++ rest := by
  induction rest generalizing l with
  | nil =>
    rw [foldlM_nil, pure_eq_ok, append_nil]
    constructor
    · rintro rfl
      exact ⟨canonical.pairwise_members.imp fun less => less.ne, canonical, rfl⟩
    · rintro ⟨_, canonical', same⟩
      exact canonical.ext canonical' same.symm
  | cons x rest ih =>
    have before : ∀ y ∈ members l, y ≤ x := fun y member =>
      (pairwise_append.mp ascends).2.2 y member x (by simp)
    have regroup : members l ++ x :: rest = members l ++ [x] ++ rest := by simp
    have later : ∀ y ∈ rest, y ≤ maxInt32 := fun y member => fits y (by simp [member])
    by_cases again : x ∈ members l
    · constructor
      · intro run
        rw [foldlM_cons] at run
        obtain ⟨next, step, _⟩ := bind_eq_ok.mp run
        exact absurd step (addIndex_again canonical before again next)
      · rintro ⟨nodup, _⟩
        exact absurd rfl ((nodup_append.mp nodup).2.2 x again x (by simp))
    · obtain ⟨next, step, grown, lists⟩ := addIndex_new canonical before (fits x (by simp)) again
      rw [regroup, ← lists] at ascends ⊢
      rw [foldlM_cons, step]
      exact ih grown ascends later

section

variable (fits : ∀ x ∈ indices, x ≤ maxInt32)
include fits

/-- **A list of indexes makes a set exactly when no index is negative or there twice.** -/
theorem indexSetFromIndices_eq_ok :
    indexSetFromIndices indices limit = .ok s ↔
      (∀ x ∈ indices, 0 ≤ x) ∧ indices.Nodup ∧ indices.length ≤ limit ∧
        s.Valid ∧ s.values = indices.insertionSort (· ≤ ·) := by
  have perm := perm_insertionSort (· ≤ ·) indices
  -- the loop builds the canonical intervals, unless an index is there twice
  have loop (l : List Interval) :
      (indices.insertionSort (· ≤ ·)).foldlM addIndex [] = .ok l ↔
        indices.Nodup ∧ Canonical l ∧ members l = indices.insertionSort (· ≤ ·) := by
    rw [foldlM_addIndex canonical_nil
      (by simpa using pairwise_insertionSort (· ≤ ·) indices)
      (fun x member => fits x (perm.mem_iff.mp member)), members_nil, nil_append,
      perm.nodup_iff]
  rw [indexSetFromIndices, refuse_bind_eq_ok, refuse_bind_eq_ok, refuse_bind_eq_ok]
  constructor
  · rintro ⟨nonempty, bound, nonneg, run⟩
    obtain ⟨l, made, same⟩ := bind_eq_ok.mp run
    obtain ⟨nodup, canonical, lists⟩ := (loop l).mp made
    rw [pure_eq_ok] at same
    subst same
    rw [not_or, not_lt] at bound
    have above : ∀ x ∈ indices, 0 ≤ x := by
      intro x member
      by_contra negative
      exact nonneg ⟨x, member, by omega⟩
    have listed (x : Int) (member : x ∈ members l) : x ∈ indices := by
      rw [lists] at member
      exact perm.mem_iff.mp member
    refine ⟨above, nodup, bound.2, ⟨canonical, ?_, ?_, ?_, ?_⟩, lists⟩
    · rintro rfl
      rw [← lists, members_nil] at perm
      exact nonempty perm.nil_eq.symm
    · intro i member
      exact above _ (listed _ (mem_members.mpr ⟨i, member, le_refl _, canonical.proper i member⟩))
    · intro i member
      exact fits _ (listed _ (mem_members.mpr ⟨i, member, canonical.proper i member, le_refl _⟩))
    · exact congrArg List.length lists.symm
  · rintro ⟨above, nodup, bound, valid, lists⟩
    have count : s.cardinality = indices.length := by
      rw [valid.counted, lists, perm.length_eq]
    have some : 0 < indices.length := by
      rw [← count, valid.counted]
      exact length_pos_iff.mpr valid.values_ne_nil
    refine ⟨length_pos_iff.mp some, by omega, ?_, bind_eq_ok.mpr ⟨s.intervals,
      (loop s.intervals).mpr ⟨nodup, valid.canonical, lists⟩, ?_⟩⟩
    · rintro ⟨x, member, negative⟩
      have := above x member
      omega
    · rw [pure_eq_ok, perm.length_eq, ← count]

/-! ## Back and forth -/

theorem encodeIndexSet_eq_ok :
    encodeIndexSet indices limit = .ok raw ↔
      (∀ x ∈ indices, 0 ≤ x) ∧ indices.Nodup ∧ indices.length ≤ limit ∧
        ∃ s : IndexSet, s.Valid ∧ s.values = indices.insertionSort (· ≤ ·) ∧ raw = s.text := by
  rw [encodeIndexSet, bind_eq_ok]
  constructor
  · rintro ⟨s, made, same⟩
    obtain ⟨nonneg, nodup, bound, valid, lists⟩ := (indexSetFromIndices_eq_ok fits).mp made
    exact ⟨nonneg, nodup, bound, s, valid, lists, (pure_eq_ok.mp same).symm⟩
  · rintro ⟨nonneg, nodup, bound, s, valid, lists, rfl⟩
    exact ⟨s, (indexSetFromIndices_eq_ok fits).mpr ⟨nonneg, nodup, bound, valid, lists⟩, rfl⟩

/-- The text made from indexes is read as the set of them. -/
theorem parseIndexSet_of_encode {limit' : Nat} (made : encodeIndexSet indices limit = .ok raw)
    (room : indices.length ≤ limit') :
    ∃ s, parseIndexSet raw limit' = .ok s ∧ s.values = indices.insertionSort (· ≤ ·) := by
  obtain ⟨_, _, _, s, valid, lists, rfl⟩ := (encodeIndexSet_eq_ok fits).mp made
  have count : s.cardinality = indices.length := by
    rw [valid.counted, lists, (perm_insertionSort (· ≤ ·) indices).length_eq]
  exact ⟨s, parseIndexSet_eq_ok.mpr ⟨valid, by omega, rfl⟩, lists⟩

end

theorem IndexSet.Valid.mem_bounds (valid : s.Valid)
    (member : x ∈ s.values) : 0 ≤ x ∧ x ≤ maxInt32 := by
  obtain ⟨i, isMember, low, high⟩ := mem_members.mp member
  have := valid.nonneg i isMember
  have := valid.fits i isMember
  omega

theorem IndexSet.Valid.nodup (valid : s.Valid) : s.values.Nodup :=
  valid.canonical.pairwise_members.imp fun less => less.ne

/-- The text of a set is made from its indexes, in any order. -/
theorem encodeIndexSet_of_parse {limit' : Nat}
    (read : parseIndexSet raw limit = .ok s) (perm : indices.Perm s.values)
    (room : indices.length ≤ limit') : encodeIndexSet indices limit' = .ok raw := by
  obtain ⟨valid, _, rfl⟩ := parseIndexSet_eq_ok.mp read
  have bounds (x : Int) (member : x ∈ indices) := valid.mem_bounds (perm.mem_iff.mp member)
  refine (encodeIndexSet_eq_ok fun x member => (bounds x member).2).mpr
    ⟨fun x member => (bounds x member).1, perm.nodup_iff.mpr valid.nodup, room, s, valid, ?_, rfl⟩
  have ascends : s.values.Pairwise (· ≤ ·) :=
    valid.canonical.pairwise_members.imp fun less => less.le
  exact List.Perm.eq_of_pairwise' ascends (pairwise_insertionSort (· ≤ ·) indices)
    (perm.symm.trans (perm_insertionSort (· ≤ ·) indices).symm)

end Ome.StatusCodec
