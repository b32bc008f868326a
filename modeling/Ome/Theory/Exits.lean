/-
# Ome.Theory.Exits — computations that may end early

A computation in `Except` that ends early hands its exit over instead of a value.  `Ends
onExit onGo` is what both ways of leaving it keep; the rules follow the shape of the
program, so that a long computation is read once, from its first line to its last.
-/
import Mathlib.Logic.Basic

namespace Ome.Theory

set_option autoImplicit false

variable {ε α β : Type}

/-- Every exit meets the one condition and every value the other. -/
def Ends (onExit : ε → Prop) (onGo : α → Prop) : Except ε α → Prop
  | .error e => onExit e
  | .ok a => onGo a

namespace Ends

variable {onExit : ε → Prop} {onGo : α → Prop}

theorem exit {e : ε} (holds : onExit e) : Ends onExit onGo (.error e) := holds

theorem go {a : α} (holds : onGo a) : Ends onExit onGo (.ok a) := holds

/-- **One part after another.** -/
theorem bind {after : β → Prop} {x : Except ε α} {f : α → Except ε β}
    (first : Ends onExit onGo x) (rest : ∀ a, onGo a → Ends onExit after (f a)) :
    Ends onExit after (x >>= f) := by
  cases x with
  | error e => exact first
  | ok a => exact rest a first

theorem ite {c : Prop} [Decidable c] {x y : Except ε α} (yes : c → Ends onExit onGo x)
    (no : ¬ c → Ends onExit onGo y) : Ends onExit onGo (if c then x else y) := by
  by_cases holds : c
  · rw [if_pos holds]
    exact yes holds
  · rw [if_neg holds]
    exact no holds

end Ends

end Ome.Theory
