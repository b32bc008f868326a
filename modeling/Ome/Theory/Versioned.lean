/-
# Ome.Theory.Versioned — a cell written by compare and swap

A cell holds a value and the number of writes it has seen.  A writer that read the
cell swaps in a new value only at the version it read, so that what it computed
from is what it replaces.

`Fresh cell seen` is what a reader keeps of its read while others write: no write
can make the version it saw current again.
-/
import Mathlib.Order.Basic

namespace Ome.Theory

set_option autoImplicit false

structure Versioned (α : Type) where
  value : α
  version : Nat
  deriving DecidableEq

namespace Versioned

variable {α : Type} {cell seen : Versioned α}

/-- A write. -/
def put (cell : Versioned α) (value : α) : Versioned α := ⟨value, cell.version + 1⟩

/-- What was read is not newer than the cell and, at its version, is its value. -/
structure Fresh (cell seen : Versioned α) : Prop where
  old : seen.version ≤ cell.version
  same : seen.version = cell.version → seen = cell

theorem Fresh.refl (cell : Versioned α) : Fresh cell cell := ⟨Nat.le_refl _, fun _ => rfl⟩

theorem Fresh.put (fresh : Fresh cell seen) (value : α) : Fresh (cell.put value) seen := by
  have old := fresh.old
  refine ⟨Nat.le_succ_of_le old, fun current => ?_⟩
  rw [Versioned.put] at current
  exact absurd old (current ▸ Nat.not_succ_le_self _)

end Versioned

end Ome.Theory
