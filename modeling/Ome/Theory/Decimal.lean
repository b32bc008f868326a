/-
# Ome.Theory.Decimal — arbitrary-precision decimals

A decimal is an integer and the number of its digits after the point, which may
be negative.  The integer is unbounded, the scale is a 32-bit register.  `value`
is the rational the pair denotes; several pairs denote one rational.  Sums and
comparisons are made at the finer of the two scales, and are exact; an
implementation may give a sum with a zero operand the scale of the other one.
-/
import Mathlib.Algebra.Order.Field.Basic
import Mathlib.Tactic.NormNum
import Mathlib.Tactic.Ring

namespace Ome.Theory

set_option autoImplicit false

/-- The decimal `unscaled * 10 ^ (-scale)`. -/
structure Decimal where
  unscaled : Int
  scale : Int32
  deriving DecidableEq

namespace Decimal

variable (d : Decimal)

/-- One in the last digit of a scale. -/
def unit (scale : Int32) : ℚ := 10 ^ (-scale.toInt)

def value : ℚ := d.unscaled * unit d.scale

theorem unit_pos (scale : Int32) : 0 < unit scale := zpow_pos (by norm_num) _

theorem one_le_unit {scale : Int32} (coarse : scale.toInt ≤ 0) : 1 ≤ unit scale :=
  one_le_zpow₀ (by norm_num) (by omega)

theorem unit_inj {a b : Int32} : unit a = unit b ↔ a = b := by
  rw [unit, unit, zpow_right_inj₀ (by norm_num) (by norm_num), neg_inj, Int32.toInt_inj]

theorem value_nonneg : 0 ≤ d.value ↔ 0 ≤ d.unscaled := by
  rw [value, mul_nonneg_iff_of_pos_right (unit_pos d.scale), Int.cast_nonneg_iff]

theorem value_eq_zero : d.value = 0 ↔ d.unscaled = 0 := by
  rw [value, mul_eq_zero, or_iff_left (unit_pos d.scale).ne', Int.cast_eq_zero]

theorem value_finer {fine : Int32} {shift : Nat} (finer : fine.toInt = d.scale.toInt + shift) :
    d.value = ((d.unscaled * 10 ^ shift : Int) : ℚ) * unit fine := by
  have split : unit d.scale = 10 ^ shift * unit fine := by
    rw [unit, unit, ← zpow_natCast, ← zpow_add₀ (by norm_num : (10 : ℚ) ≠ 0), finer]
    congr 1
    ring
  rw [value, split]
  push_cast
  ring

/-! ## Sums and comparisons -/

/-- The unscaled part at a scale that is no coarser. -/
def unscaledAt (scale : Int32) : Int := d.unscaled * 10 ^ (scale.toInt - d.scale.toInt).toNat

theorem value_unscaledAt {scale : Int32} (finer : d.scale.toInt ≤ scale.toInt) :
    d.value = (d.unscaledAt scale : ℚ) * unit scale :=
  d.value_finer (by omega)

/-- The finer of two scales. -/
def finest (a b : Decimal) : Int32 := if a.scale.toInt ≤ b.scale.toInt then b.scale else a.scale

theorem finest_left (a b : Decimal) : a.scale.toInt ≤ (finest a b).toInt := by
  rw [finest]
  split <;> omega

theorem finest_right (a b : Decimal) : b.scale.toInt ≤ (finest a b).toInt := by
  rw [finest]
  split <;> omega

def add (a b : Decimal) : Decimal :=
  ⟨a.unscaledAt (finest a b) + b.unscaledAt (finest a b), finest a b⟩

theorem value_add (a b : Decimal) : (a.add b).value = a.value + b.value := by
  rw [a.value_unscaledAt (finest_left a b), b.value_unscaledAt (finest_right a b), ← add_mul,
    ← Int.cast_add]
  rfl

def cmp (a b : Decimal) : Ordering :=
  compare (a.unscaledAt (finest a b)) (b.unscaledAt (finest a b))

theorem cmp_lt (a b : Decimal) : a.cmp b = .lt ↔ a.value < b.value := by
  rw [a.value_unscaledAt (finest_left a b), b.value_unscaledAt (finest_right a b),
    mul_lt_mul_iff_of_pos_right (unit_pos _), Int.cast_lt]
  exact compare_lt_iff_lt

theorem cmp_eq (a b : Decimal) : a.cmp b = .eq ↔ a.value = b.value := by
  rw [a.value_unscaledAt (finest_left a b), b.value_unscaledAt (finest_right a b),
    mul_left_inj' (unit_pos _).ne', Int.cast_inj]
  exact compare_eq_iff_eq

end Decimal

end Ome.Theory
