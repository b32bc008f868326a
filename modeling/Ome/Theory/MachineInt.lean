/-
# Ome.Theory.MachineInt — fixed-width registers

A signed `w`-bit register holds an integer up to multiples of `2 ^ w`, read back
in `[-2 ^ (w - 1), 2 ^ (w - 1))`.  A model applies `wrap32` or `wrap64` to every
operation whose result may leave that range; a value that fits is read back as
it is.

`mul64` and `div64` are the 128-bit product of two unsigned registers and its
division by a third, which has no result when the quotient needs more than 64
bits.
-/
import Mathlib.Algebra.Order.Ring.Int

namespace Ome.Theory

set_option autoImplicit false

/-- An integer as a signed 32-bit register reads it. -/
def wrap32 (x : Int) : Int := x.bmod (2 ^ 32)

/-- An integer as a signed 64-bit register reads it. -/
def wrap64 (x : Int) : Int := x.bmod (2 ^ 64)

theorem wrap32_of_fits {x : Int} (low : -2 ^ 31 ≤ x) (high : x < 2 ^ 31) : wrap32 x = x :=
  Int.bmod_eq_of_le (by omega) (by omega)

theorem wrap64_of_fits {x : Int} (low : -2 ^ 63 ≤ x) (high : x < 2 ^ 63) : wrap64 x = x :=
  Int.bmod_eq_of_le (by omega) (by omega)

theorem wrap32_emod (x : Int) : wrap32 x % 2 ^ 32 = x % 2 ^ 32 := Int.bmod_emod

theorem wrap32_congr {x y : Int} (same : x % 2 ^ 32 = y % 2 ^ 32) : wrap32 x = wrap32 y := by
  rw [wrap32, wrap32, ← Int.emod_bmod x, ← Int.emod_bmod y]
  exact congrArg (Int.bmod · _) same

/-- A register that did not wrap upwards holds no less. -/
theorem le_wrap32 {x : Int} (high : x < 2 ^ 31) : x ≤ wrap32 x := by
  rw [wrap32, Int.bmod]
  split <;> omega

/-- An integer as an unsigned 64-bit register reads it. -/
def uint64 (x : Int) : Nat := (x % 2 ^ 64).toNat

theorem uint64_of_fits {x : Int} (low : 0 ≤ x) (high : x < 2 ^ 64) : uint64 x = x.toNat := by
  rw [uint64, Int.emod_eq_of_lt low high]

/-- The high and the low word of a product. -/
def mul64 (x y : Nat) : Nat × Nat := (x * y / 2 ^ 64, x * y % 2 ^ 64)

/-- Quotient and remainder of a double word; `none` when the quotient overflows. -/
def div64 (hi lo y : Nat) : Option (Nat × Nat) :=
  if y ≤ hi then none else some ((hi * 2 ^ 64 + lo) / y, (hi * 2 ^ 64 + lo) % y)

theorem div64_mul64 {x y z : Nat} (fits : x * y < z * 2 ^ 64) :
    div64 (mul64 x y).1 (mul64 x y).2 z = some (x * y / z, x * y % z) := by
  have high : ¬ z ≤ x * y / 2 ^ 64 := by
    rw [Nat.mul_comm z] at fits
    exact not_le.mpr (Nat.div_lt_of_lt_mul fits)
  have whole : x * y / 2 ^ 64 * 2 ^ 64 + x * y % 2 ^ 64 = x * y := Nat.div_add_mod' _ _
  simp only [div64, mul64, if_neg high, whole]

end Ome.Theory
