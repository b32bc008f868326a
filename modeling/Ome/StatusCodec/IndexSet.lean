/-
# Ome.StatusCodec.IndexSet — sets of Instance indexes

Model of the index sets of the columnar status codec: sorted, disjoint, nonadjacent
intervals of nonnegative 32-bit indexes, their text, and the operations on them.  An
index is an `int32` in the source and an integer here.  The two scans of
`parseIndexSet` are the same, so the model scans once; `sort.Search` is read by its
contract, the first interval that passes.
-/
import Mathlib.Algebra.Order.Ring.Int
import Mathlib.Data.List.Sort
import Ome.Theory.Attempts
import Ome.Theory.Intervals

namespace Ome.StatusCodec

open Ome.Theory Ome.Theory.Intervals

set_option autoImplicit false

/-- Why a status cannot be encoded or decoded. -/
inductive ErrorReason where
  | unknownEncoding
  | representationUnion
  | rangeSyntax
  | rangeOrder
  | rangeOverflow
  | cardinalityLimit
  | coverage
  | canonicalOrder
  | valueDomain
  deriving DecidableEq

/-- The largest index. -/
def maxInt32 : Nat := 2 ^ 31 - 1

structure IndexSet where
  intervals : List Interval
  cardinality : Nat
  deriving DecidableEq

/-! ## Reading a text -/

/-- The loop of `parseIndex`; the value stays within 32 bits. -/
def readDigits : List Char → Nat → Except ErrorReason Nat
  | [], value => .ok value
  | c :: rest, value => do
    refuse (c.isDigit = false) .rangeSyntax
    let digit := c.toNat - '0'.toNat
    refuse ((maxInt32 - digit) / 10 < value) .rangeOverflow
    readDigits rest (value * 10 + digit)

def parseIndex (raw : List Char) : Except ErrorReason Int := do
  refuse (raw = [] ∨ (1 < raw.length ∧ raw.head? = some '0')) .rangeSyntax
  let value ← readDigits raw 0
  pure (value : Int)

/-- One index, or two with a dash between them. -/
def parseIndexInterval (term : List Char) : Except ErrorReason Interval :=
  match term.splitOn '-' with
  | [single] => do
    let value ← parseIndex single
    pure ⟨value, value⟩
  | [low, high] => do
    refuse (low = [] ∨ high = []) .rangeSyntax
    let first ← parseIndex low
    let last ← parseIndex high
    refuse (last ≤ first) .rangeOrder
    pure ⟨first, last⟩
  | _ => .error .rangeSyntax

/-- What the scan has seen. -/
structure Scan where
  intervals : List Interval := []
  previous : Option Interval := none
  cardinality : Nat := 0

/-- An interval behind the one before it, with a gap. -/
def checkOrder (previous : Option Interval) (interval : Interval) : Except ErrorReason Unit :=
  match previous with
  | none => .ok ()
  | some previous => do
    refuse (interval.first ≤ previous.last) .rangeOrder
    refuse (previous.last ≠ maxInt32 ∧ interval.first = previous.last + 1) .canonicalOrder

def scanTerm (maxCardinality : Nat) (s : Scan) (term : List Char) : Except ErrorReason Scan := do
  refuse (term = []) .rangeSyntax
  let interval ← parseIndexInterval term
  checkOrder s.previous interval
  let nextCardinality := s.cardinality + interval.width
  refuse (maxCardinality < nextCardinality) .cardinalityLimit
  pure ⟨s.intervals ++ [interval], some interval, nextCardinality⟩

/-- The terms are what stands between the commas; a comma at the end leaves an empty
term behind it. -/
def scanIndexSet (raw : String) (maxCardinality : Nat) : Except ErrorReason Scan := do
  refuse (raw = "") .rangeSyntax
  refuse (maxCardinality = 0) .cardinalityLimit
  (raw.toList.splitOn ',').foldlM (scanTerm maxCardinality) {}

def parseIndexSet (raw : String) (maxCardinality : Nat) : Except ErrorReason IndexSet := do
  let s ← scanIndexSet raw maxCardinality
  pure ⟨s.intervals, s.cardinality⟩

/-! ## Writing a text -/

/-- `strconv.FormatInt` in base ten. -/
def formatInt (n : Int) : List Char :=
  if n < 0 then '-' :: Nat.toDigits 10 n.natAbs else Nat.toDigits 10 n.toNat

def intervalText (interval : Interval) : List Char :=
  if interval.first ≠ interval.last then
    formatInt interval.first ++ '-' :: formatInt interval.last
  else formatInt interval.first

/-- The text of an index set. -/
def IndexSet.text (s : IndexSet) : String :=
  String.ofList ([','].intercalate (s.intervals.map intervalText))

/-- One more index, not below the ones that are there. -/
def addIndex (intervals : List Interval) (index : Int) : Except ErrorReason (List Interval) :=
  match intervals.getLast? with
  | none => .ok [⟨index, index⟩]
  | some last => do
    refuse (index = last.last) .valueDomain
    if last.last ≠ maxInt32 ∧ index = last.last + 1 then
      pure (intervals.dropLast ++ [⟨last.first, index⟩])
    else pure (intervals ++ [⟨index, index⟩])

def indexSetFromIndices (indices : List Int) (maxCardinality : Nat) :
    Except ErrorReason IndexSet := do
  refuse (indices = []) .valueDomain
  refuse (maxCardinality = 0 ∨ maxCardinality < indices.length) .cardinalityLimit
  refuse (∃ index ∈ indices, index < 0) .valueDomain
  let ordered := indices.insertionSort (· ≤ ·)
  let intervals ← ordered.foldlM addIndex []
  pure ⟨intervals, ordered.length⟩

def encodeIndexSet (indices : List Int) (maxCardinality : Nat) : Except ErrorReason String := do
  let set ← indexSetFromIndices indices maxCardinality
  pure set.text

/-! ## Operations -/

namespace IndexSet

variable (s : IndexSet)

/-- The indexes that `forEach` visits. -/
def values : List Int := members s.intervals

def contains (index : Int) : Bool :=
  if index < 0 then false
  else
    match s.intervals.find? fun i => index ≤ i.last with
    | none => false
    | some i => i.first ≤ index

/-- Both lists ascend, so the search for the next interval goes on where the last ended. -/
def coversFrom : List Interval → List Interval → Bool
  | [], _ => true
  | i :: rest, others =>
    match others.dropWhile fun o => o.last < i.first with
    | [] => false
    | o :: more =>
      if i.first < o.first ∨ o.last < i.last then false else coversFrom rest (o :: more)

def isSubsetOf (other : IndexSet) : Bool :=
  if other.cardinality < s.cardinality then false else coversFrom s.intervals other.intervals

/-- How many indexes precede each interval. -/
def offsetsFrom : List Interval → Nat → List Nat
  | [], _ => []
  | i :: rest, total => total :: offsetsFrom rest (total + i.width)

def prefixOffsets : List Nat := offsetsFrom s.intervals 0

/-- The position of an index in the ascending enumeration. -/
def rankOf (index : Int) (offsets : List Nat) : Option Nat :=
  if index < 0 then none
  else
    let position := s.intervals.findIdx fun i => index ≤ i.last
    match s.intervals[position]? with
    | none => none
    | some i =>
      if index < i.first then none
      else some (offsets.getD position 0 + (index - i.first).toNat)

/-- `Equal`: the same count and the same intervals. -/
def equal (other : IndexSet) : Bool :=
  s.cardinality = other.cardinality && s.intervals = other.intervals

/-- `Values`: the indexes, if they are within a limit. -/
def valuesWithin (limit : Nat) : Except ErrorReason (List Int) := do
  refuse (limit = 0 ∨ limit < s.cardinality) .cardinalityLimit
  refuse (2 ^ 63 - 1 < s.cardinality) .rangeOverflow
  pure s.values

end IndexSet

/-- No index belongs to two of the sets. -/
def disjointIndexSets (sets : List IndexSet) : Bool :=
  if sets.length < 2 then true
  else
    let pooled := (sets.flatMap (·.intervals)).insertionSort fun a b => a.first ≤ b.first
    pooled.IsChain fun a b => a.last < b.first

end Ome.StatusCodec
