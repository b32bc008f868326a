/-
# Ome.Theory.Lockstep — parties that advance batch by batch

Each party starts units one at a time.  Its batches are given by cumulative
marks: batch `b` is started once `mark i b` units are.  The next unit of a party
belongs to the first batch whose mark its starts have not reached (`IsNext`), and
it may start once every party has started the batch before.

* `Lockstep.start`: such a start keeps the parties in step: nobody is past its
  batch `b` while somebody is short of its own batch `b`;
* `exists_next`: as long as somebody is not done, some party's next batch is open
  to it, and so is that batch to every party that is short of it.
-/
import Mathlib.Algebra.Order.Ring.Int
import Mathlib.Data.Nat.Find
import Mathlib.Data.Int.ConditionallyCompleteOrder
import Mathlib.Tactic.Positivity

namespace Ome.Theory

open Function

set_option autoImplicit false

variable {ι : Type} {mark : ι → Nat → Int} {started : ι → Int}

/-- Nobody is past its batch `b` while somebody is short of its own. -/
def Lockstep (mark : ι → Nat → Int) (started : ι → Int) : Prop :=
  ∀ i j b, mark i b < started i → mark j b ≤ started j

/-- `n` is the first batch whose mark the starts of `i` have not reached. -/
def IsNext (mark : ι → Nat → Int) (started : ι → Int) (i : ι) (n : Nat) : Prop :=
  started i < mark i n ∧ ∀ k < n, mark i k ≤ started i

/-- **A start keeps the parties in step** when every party has started the batch
before the one it belongs to. -/
theorem Lockstep.start [DecidableEq ι] (mono : ∀ i, Monotone (mark i))
    (inStep : Lockstep mark started) {i : ι} {n : Nat} (next : IsNext mark started i n)
    (before : ∀ j, mark j (n - 1) ≤ started j) :
    Lockstep mark (update started i (started i + 1)) := by
  have raised (j : ι) : started j ≤ update started i (started i + 1) j := by
    by_cases same : j = i
    · subst same
      simp
    · rw [update_of_ne same]
  intro a j b past
  by_cases same : a = i
  · subst same
    rw [update_self] at past
    rcases lt_or_eq_of_le (Int.lt_add_one_iff.mp past) with earlier | exact
    · exact (inStep a j b earlier).trans (raised j)
    · have earlier : b ≤ n - 1 := by
        by_contra later
        have reached : mark a n ≤ mark a b := mono a (by omega)
        have := next.1
        omega
      exact ((mono j earlier).trans (before j)).trans (raised j)
  · rw [update_of_ne same] at past
    exact (inStep a j b past).trans (raised j)

/-- **Somebody can always go on**: the least next batch is open to every party
that is short of it. -/
theorem exists_next (mark : ι → Nat → Int) (started : ι → Int) {total : ι → Int}
    (reaches : ∀ i, ∃ b, total i ≤ mark i b)
    (zero : ∀ i, mark i 0 ≤ started i) (unfinished : ∃ i, started i < total i) :
    ∃ n i, 0 < n ∧ started i < mark i n ∧ (∀ j, mark j (n - 1) ≤ started j) ∧
      ∀ j, started j < mark j n → IsNext mark started j n := by
  classical
  have someNext : ∃ n i, started i < mark i n := by
    obtain ⟨i, short⟩ := unfinished
    obtain ⟨b, reached⟩ := reaches i
    exact ⟨b, i, short.trans_le reached⟩
  obtain ⟨i, short⟩ := Nat.find_spec someNext
  have least (k : Nat) (less : k < Nat.find someNext) (j : ι) : mark j k ≤ started j := by
    by_contra past
    exact Nat.find_min someNext less ⟨j, not_le.mp past⟩
  have positive : 0 < Nat.find someNext := by
    by_contra none
    have first : Nat.find someNext = 0 := by omega
    rw [first] at short
    exact absurd short (not_lt.mpr (zero i))
  exact ⟨Nat.find someNext, i, positive, short, least _ (by omega),
    fun j shortOf => ⟨shortOf, fun k less => least k less j⟩⟩

end Ome.Theory
