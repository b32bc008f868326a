/-
# Ome.Theory.Attempts — computations that stop at their first error

`refuse` is a check that stops a computation.  The lemmas say when a computation in
`Except` succeeds, and with what: a bind, a check, a map over a list and a loop.
-/
import Mathlib.Data.List.Forall2
import Mathlib.Data.List.Induction

namespace Ome.Theory

open List

set_option autoImplicit false

universe u

variable {ε β : Type} {α : Type u}
variable {f : α → Except ε β} {l : List α}

/-- Stop with the error where the condition holds. -/
def refuse (bad : Prop) [Decidable bad] (error : ε) : Except ε Unit :=
  if bad then .error error else .ok ()

theorem bind_eq_ok {γ : Type} {x : Except ε γ} {f : γ → Except ε β} {b : β} :
    x >>= f = .ok b ↔ ∃ a, x = .ok a ∧ f a = .ok b := by
  cases x with
  | error e | ok a => simp [bind, Except.bind]

theorem refuse_eq_ok {bad : Prop} [Decidable bad] {error : ε} :
    refuse bad error = .ok () ↔ ¬ bad := by
  unfold refuse
  by_cases holds : bad
  · simp [holds]
  · simp [holds]

theorem refuse_bind_eq_ok {bad : Prop} [Decidable bad] {error : ε} {f : Unit → Except ε β}
    {b : β} : refuse bad error >>= f = .ok b ↔ ¬ bad ∧ f () = .ok b := by
  unfold refuse
  by_cases holds : bad
  · simp [holds, bind, Except.bind]
  · simp [holds, bind, Except.bind]

theorem pure_eq_ok {a b : β} : (pure a : Except ε β) = .ok b ↔ a = b := by
  simp [pure, Except.pure]

theorem mapM_eq_ok {out : List β} :
    l.mapM f = .ok out ↔ Forall₂ (fun a b => f a = .ok b) l out := by
  induction l generalizing out with
  | nil =>
    rw [mapM_nil, pure_eq_ok, forall₂_nil_left_iff]
    exact eq_comm
  | cons a l ih =>
    rw [mapM_cons, bind_eq_ok]
    constructor
    · rintro ⟨b, first, rest⟩
      obtain ⟨bs, tail, same⟩ := bind_eq_ok.mp rest
      rw [pure_eq_ok] at same
      subst same
      exact Forall₂.cons first (ih.mp tail)
    · intro both
      cases both with
      | cons first tail =>
        exact ⟨_, first, bind_eq_ok.mpr ⟨_, ih.mpr tail, rfl⟩⟩

theorem exists_of_mem_right {γ : Type} {R : α → γ → Prop} {l' : List γ}
    (related : Forall₂ R l l') {c : γ} (member : c ∈ l') : ∃ a ∈ l, R a c := by
  induction related with
  | nil => cases member
  | cons first _ ih =>
    rcases mem_cons.mp member with rfl | later
    · exact ⟨_, mem_cons_self, first⟩
    · obtain ⟨a, isIn, holds⟩ := ih later
      exact ⟨a, mem_cons_of_mem _ isIn, holds⟩

/-- A map whose calls succeed under a condition, with a known result. -/
theorem mapM_eq_ok_of_spec {good : α → Prop} {result : α → β}
    (spec : ∀ a b, f a = .ok b ↔ good a ∧ b = result a) {out : List β} :
    l.mapM f = .ok out ↔ (∀ a ∈ l, good a) ∧ out = l.map result := by
  have each : (fun a b => f a = .ok b) = fun a b => good a ∧ result a = b := by
    funext a b
    rw [spec, eq_comm (a := b)]
  rw [mapM_eq_ok, each, forall₂_and_left, eq_comm (a := out),
    ← forall₂_eq_eq_eq, forall₂_map_left_iff]

/-- A loop of checks.  What it accepts and the state it is in are known from the part of
the list that is behind it. -/
theorem foldlM_eq_ok_of_spec {σ : Type} {check : σ → α → Except ε σ} {good : List α → Prop}
    {after : List α → σ} (start : good []) (closed : ∀ l a, good (l ++ [a]) → good l)
    (spec : ∀ l a s, good l →
      (check (after l) a = .ok s ↔ good (l ++ [a]) ∧ s = after (l ++ [a]))) {s : σ} :
    l.foldlM check (after []) = .ok s ↔ good l ∧ s = after l := by
  induction l using reverseRecOn generalizing s with
  | nil =>
    rw [foldlM_nil, pure_eq_ok]
    simp [start, eq_comm]
  | append_singleton l a ih =>
    rw [foldlM_append, bind_eq_ok]
    simp only [foldlM_cons, foldlM_nil, bind_pure]
    constructor
    · rintro ⟨before, run, step⟩
      obtain ⟨ok, rfl⟩ := ih.mp run
      exact (spec l a s ok).mp step
    · intro whole
      have ok := closed l a whole.1
      exact ⟨_, ih.mpr ⟨ok, rfl⟩, (spec l a s ok).mpr whole⟩

end Ome.Theory
