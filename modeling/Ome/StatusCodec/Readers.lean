/-
# Ome.StatusCodec.Readers — readers with different bounds

Model of `ObservedEncoding` and `DecodeStatus`, which every reader of a stored status calls
with a bound of its own, and of Alfred's `Rows`.

* `readers_agree`: a bound decides whether a status is read, never what is read.
-/
import Ome.StatusCodec.RoundTrip

namespace Ome.StatusCodec

open Ome.Theory

set_option autoImplicit false

inductive Encoding where
  | denseV1
  | columnarV2

/-- The fields of a replica's status that carry its rows. -/
structure ReplicaStatus (R : Records) where
  instanceStatuses : List (InstanceStatus R) := []
  instanceStatusEncoding : Option String := none
  instanceStatusColumns : Option (InstanceStatusColumns R) := none

variable {R : Records}

def observedEncoding : Option (ReplicaStatus R) → Except ErrorReason Encoding
  | none => .ok .denseV1
  | some status =>
    match status.instanceStatusEncoding with
    | none =>
      if status.instanceStatusColumns.isSome then .error .representationUnion else .ok .denseV1
    | some "ColumnarV2" =>
      if status.instanceStatusColumns.isNone ∨ status.instanceStatuses ≠ [] then
        .error .representationUnion
      else .ok .columnarV2
    | some _ => .error .unknownEncoding

def decodeStatus (status : Option (ReplicaStatus R)) (maxInstances : Nat) :
    Except ErrorReason (List (InstanceStatus R) × Encoding) :=
  match observedEncoding status with
  | .error reason => .error reason
  | .ok .denseV1 => .ok ((status.map (·.instanceStatuses)).getD [], .denseV1)
  | .ok .columnarV2 => do
    let rows ← decodeColumns (status.bind (·.instanceStatusColumns)) maxInstances
    pure (rows, .columnarV2)

/-- Alfred's limit. -/
def maxRows : Nat := 10000

inductive RowsError where
  | codec (reason : ErrorReason)
  | exceedsLimit (rows : Nat)

def alfredRows (status : Option (ReplicaStatus R)) :
    Except RowsError (List (InstanceStatus R)) :=
  match decodeStatus status maxRows with
  | .error reason => .error (.codec reason)
  | .ok (rows, _) => if maxRows < rows.length then .error (.exceedsLimit rows.length) else .ok rows

variable {rows : List (InstanceStatus R)}

theorem decodeColumns_bounded {payload : Option (InstanceStatusColumns R)} {limit other : Nat}
    (read : decodeColumns payload other = .ok rows) :
    decodeColumns payload limit = .ok rows ↔ rows.length ≤ limit := by
  cases payload with
  | none => cases read
  | some columns =>
    refine ⟨fun again => (decodeColumns_bounds again).1, fun room => ?_⟩
    obtain ⟨members, admitted, one, accepted, rfl⟩ := decodeColumns_eq_ok.mp read
    obtain ⟨valid, -, text⟩ := parseIndexSet_eq_ok.mp accepted.parsed
    rw [expand_eq accepted] at room
    have few : members.cardinality ≤ limit := accepted.length_decoded.symm.trans_le room
    -- the parser of the members is the only one that reads the bound
    exact decodeColumns_eq_ok.mpr ⟨members, admitted, one,
      { accepted with parsed := parseIndexSet_eq_ok.mpr ⟨valid, few, text⟩ }, rfl⟩

/-- **A bound decides whether a status is read, never what**: once one reader has read it, any
other reads the same rows or refuses too many columns.  Alfred refuses a long list too. -/
theorem readers_agree (status : Option (ReplicaStatus R)) :
    (∀ limit other one, decodeStatus status other = .ok one →
      ∀ two, decodeStatus status limit = .ok two ↔
        two = one ∧ (one.2 = .columnarV2 → one.1.length ≤ limit)) ∧
    ∀ rows, alfredRows status = .ok rows ↔ rows.length ≤ maxRows ∧
      ∃ other encoding, decodeStatus status other = .ok (rows, encoding) := by
  have bounded (limit other : Nat) (one : List (InstanceStatus R) × Encoding)
      (read : decodeStatus status other = .ok one) (two : List (InstanceStatus R) × Encoding) :
      decodeStatus status limit = .ok two ↔
        two = one ∧ (one.2 = .columnarV2 → one.1.length ≤ limit) := by
    unfold decodeStatus at read ⊢
    split at read
    · cases read
    · cases read
      simp [eq_comm]
    · obtain ⟨rows, columns, same⟩ := bind_eq_ok.mp read
      cases same
      constructor
      · intro again
        obtain ⟨rows', columns', same⟩ := bind_eq_ok.mp again
        cases same
        -- under a bound that is large enough for both, the two readings are one call
        have wide := (decodeColumns_bounded columns).mpr (le_max_left rows.length rows'.length)
        have wide' := (decodeColumns_bounded columns').mpr (le_max_right rows.length rows'.length)
        obtain rfl := Except.ok.inj (wide.symm.trans wide')
        exact ⟨rfl, fun _ => (decodeColumns_bounded columns).mp columns'⟩
      · rintro ⟨rfl, room⟩
        exact bind_eq_ok.mpr ⟨rows, (decodeColumns_bounded columns).mpr (room rfl), rfl⟩
  refine ⟨bounded, fun rows => ?_⟩
  unfold alfredRows
  constructor
  · intro fits
    split at fits
    · cases fits
    · rename_i read
      split at fits
      · cases fits
      · cases fits
        exact ⟨not_lt.mp ‹_›, maxRows, _, read⟩
  · rintro ⟨few, other, encoding, read⟩
    rw [(bounded maxRows other _ read _).mpr ⟨rfl, fun _ => few⟩]
    exact if_neg (not_lt.mpr few)

end Ome.StatusCodec
