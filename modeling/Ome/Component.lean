/-
# Ome.Component — the kinds of components a service has

A component kind is a string in the source, and lists of components are sorted as
strings; `Component` is ordered by its text.
-/
import Mathlib.Data.String.Basic

namespace Ome

set_option autoImplicit false

/-- The kinds of components a service has. -/
inductive Component where
  | router
  | engine
  | decoder
  | encoder
  deriving DecidableEq

namespace Component

def text : Component → String
  | router => "router"
  | engine => "engine"
  | decoder => "decoder"
  | encoder => "encoder"

theorem text_injective : Function.Injective text := by
  intro a b same
  cases a <;> cases b <;> first | rfl | exact absurd same (by decide)

instance : LinearOrder Component := LinearOrder.lift' text text_injective

end Component

end Ome
