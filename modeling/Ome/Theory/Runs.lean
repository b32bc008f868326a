/-
# Ome.Theory.Runs — what holds along every run

A component is a relation of moves on its states.  A run is a finite chain of
moves (`Relation.ReflTransGen`), in any order and of any length.

* `invariant_of_run`: what every move keeps, every run keeps;
* `bound_of_run`: a quantity that every move leaves below the larger of itself
  and a cap, when the cap never falls, stays below the larger of its first value
  and the last cap;
* `finishes_of_measure`: a sequence of states in which every state that is not
  done has a successor of smaller measure reaches a state that is done;
* `foldlM_ends`: a loop over a list ends with an invariant if every round does.
-/
import Mathlib.Order.Lattice

namespace Ome.Theory.Runs

set_option autoImplicit false

variable {σ : Type} {move : σ → σ → Prop}

/-- **The invariant rule.** -/
theorem invariant_of_run {inv : σ → Prop} (kept : ∀ s s', inv s → move s s' → inv s')
    {s t : σ} (run : Relation.ReflTransGen move s t) (holds : inv s) : inv t := by
  induction run with
  | refl => exact holds
  | tail _ last ih => exact kept _ _ ih last

/-- **The capped-growth rule.**  No move takes the quantity above the cap unless
it was there before, and the cap only rises. -/
theorem bound_of_run (inv : σ → Prop) (quantity cap : σ → Int)
    (kept : ∀ s s', inv s → move s s' → inv s')
    (rises : ∀ s s', inv s → move s s' → cap s ≤ cap s')
    (capped : ∀ s s', inv s → move s s' → quantity s' ≤ max (quantity s) (cap s'))
    {s t : σ} (run : Relation.ReflTransGen move s t) (holds : inv s) :
    inv t ∧ quantity t ≤ max (quantity s) (cap t) := by
  induction run with
  | refl => exact ⟨holds, le_max_left _ _⟩
  | tail _ last ih =>
    obtain ⟨before, bound⟩ := ih
    have rise := rises _ _ before last
    have step := capped _ _ before last
    exact ⟨kept _ _ before last, by omega⟩

/-- **The finishing rule**, with the states before the first one that is done. -/
theorem finishes_of_measure (inv done : σ → Prop) (measure : σ → Nat) :
    ∀ (bound : Nat) (states : Nat → σ), measure (states 0) ≤ bound → inv (states 0) →
      (∀ n, inv (states n) → ¬ done (states n) →
        inv (states (n + 1)) ∧ measure (states (n + 1)) < measure (states n)) →
      ∃ n ≤ bound, inv (states n) ∧ done (states n) ∧
        ∀ k < n, inv (states k) ∧ ¬ done (states k)
  | bound, states, below, holds, falls => by
    by_cases finished : done (states 0)
    · exact ⟨0, Nat.zero_le _, holds, finished, fun k h => absurd h (Nat.not_lt_zero k)⟩
    obtain ⟨next, less⟩ := falls 0 holds finished
    cases bound with
    | zero => omega
    | succ bound =>
      obtain ⟨n, within, last, ends, earlier⟩ := finishes_of_measure inv done measure bound
        (fun n => states (n + 1)) (by omega) next (fun n => falls (n + 1))
      refine ⟨n + 1, by omega, last, ends, ?_⟩
      intro k h
      cases k with
      | zero => exact ⟨holds, finished⟩
      | succ k => exact earlier k (by omega)

/-! ## Loops that may give up -/

/-- **The loop rule**: a loop whose body never gives up under an invariant ends with it. -/
theorem foldlM_ends {α : Type} {body : σ → α → Option σ} (inv : σ → Prop) :
    ∀ {items : List α} {s : σ}, (∀ s, inv s → ∀ x ∈ items, ∃ s', body s x = some s' ∧ inv s') →
      inv s → ∃ s', items.foldlM body s = some s' ∧ inv s'
  | [], s, _, holds => ⟨s, rfl, holds⟩
  | x :: rest, s, each, holds => by
    obtain ⟨next, first, kept⟩ := each s holds x List.mem_cons_self
    obtain ⟨last, ends, done⟩ := foldlM_ends inv
      (fun s holds y member => each s holds y (List.mem_cons_of_mem x member)) kept
    exact ⟨last, by rw [List.foldlM_cons, first]; exact ends, done⟩

end Ome.Theory.Runs
