/-
# Ome.Theory.KeyedPass — one pass over distinct keys that spends an allowance

A loop visits the elements of a list whose keys are distinct.  Visiting `a`
rewrites only what the state records under `key a`, and pays for the rewrite out
of quantities kept in the same state.  The rules here turn a fact about one
visit into a fact about the whole pass:

* `foldl_frame`: nothing is rewritten under a key that is not visited;
* `foldl_adds`: no key appears that is not visited;
* `foldl_visit`: what the pass leaves under `key a` is what the visit of `a`
  left there, in a state that satisfies the invariant of the pass;
* `foldl_spend`: if every visit's cost is covered by the fall of a potential,
  the costs of all visits together are covered by the fall over the pass.
-/
import Mathlib.Algebra.Order.BigOperators.Group.List
import Mathlib.Algebra.Order.Ring.Int
import Mathlib.Data.List.Nodup

namespace Ome.Theory.KeyedPass

open List

set_option autoImplicit false

variable {σ α κ β : Type} {f : σ → α → σ} {key : α → κ} {val : σ → κ → β}

/-- Visiting `a` rewrites nothing outside the key of `a`. -/
def Frame (f : σ → α → σ) (key : α → κ) (val : σ → κ → β) : Prop :=
  ∀ s a k, k ≠ key a → val (f s a) k = val s k

/-- Visiting `a` adds no key but the key of `a`. -/
def Adds (f : σ → α → σ) (key : α → κ) (holds : σ → κ → Prop) : Prop :=
  ∀ s a k, holds (f s a) k → holds s k ∨ k = key a

theorem foldl_frame (frame : Frame f key val) (k : κ) :
    ∀ (l : List α) (s : σ), k ∉ l.map key → val (l.foldl f s) k = val s k
  | [], _, _ => rfl
  | a :: l, s, absent => by
    simp only [map_cons, mem_cons, not_or] at absent
    rw [foldl_cons, foldl_frame frame k l (f s a) absent.2, frame s a k absent.1]

/-- A pass whose visits add no key but their own adds only visited keys. -/
theorem foldl_adds {holds : σ → κ → Prop} (adds : Adds f key holds) (k : κ) :
    ∀ (l : List α) (s : σ), holds (l.foldl f s) k → holds s k ∨ k ∈ l.map key
  | [], _, held => Or.inl held
  | a :: l, s, held => by
    rcases foldl_adds adds k l (f s a) held with earlier | later
    · rcases adds s a k earlier with start | rfl
      · exact Or.inl start
      · exact Or.inr mem_cons_self
    · exact Or.inr (mem_cons_of_mem _ later)

/-- An element later in the list still has its initial record after a visit. -/
theorem frame_tail (frame : Frame f key val) {initial : α → β} {b : α} {l : List α} {s : σ}
    (unique : key b ∉ l.map key) (start : ∀ a ∈ b :: l, val s (key a) = initial a) :
    ∀ a ∈ l, val (f s b) (key a) = initial a := by
  intro a member
  have ne : key a ≠ key b := fun h => unique (h ▸ mem_map_of_mem member)
  rw [frame s b (key a) ne]
  exact start a (mem_cons_of_mem b member)

/-- What a pass leaves under the key of an element is what that element's own
visit left, at a state of the pass that still held the initial record there.  A
step of the invariant may use that its visit left the final record. -/
theorem foldl_visit (frame : Frame f key val) (inv : σ → Prop) (initial : α → β) :
    ∀ (l : List α) (s : σ), (l.map key).Nodup →
      (∀ t, ∀ a ∈ l, inv t → val t (key a) = initial a →
        val (f t a) (key a) = val (l.foldl f s) (key a) → inv (f t a)) →
      inv s → (∀ a ∈ l, val s (key a) = initial a) →
      ∀ a ∈ l, ∃ t, inv t ∧ val t (key a) = initial a ∧
        val (l.foldl f s) (key a) = val (f t a) (key a)
  | [], _, _, _, _, _, a, member => absurd member not_mem_nil
  | b :: l, s, unique, step, holds, start, a, member => by
    simp only [map_cons, nodup_cons] at unique
    have head := foldl_frame frame (key b) l (f s b) unique.1
    rcases mem_cons.mp member with rfl | later
    · exact ⟨s, holds, start a member, head⟩
    · exact foldl_visit frame inv initial l (f s b) unique.2
        (fun t c hc => step t c (mem_cons_of_mem b hc))
        (step s b mem_cons_self holds (start b mem_cons_self) head.symm)
        (frame_tail frame unique.1 start) a later

/-- **The spending rule.**  When each visit costs at most what the potential
falls by, the whole pass costs at most what the potential falls by. -/
theorem foldl_spend (frame : Frame f key val) (inv : σ → Prop) (initial : α → β)
    (potential : σ → Int) (cost : α → β → Int) :
    ∀ (l : List α) (s : σ), (l.map key).Nodup →
      (∀ t, ∀ a ∈ l, inv t → val t (key a) = initial a →
        inv (f t a) ∧ cost a (val (f t a) (key a)) ≤ potential t - potential (f t a)) →
      inv s → (∀ a ∈ l, val s (key a) = initial a) →
      inv (l.foldl f s) ∧ (l.map fun a => cost a (val (l.foldl f s) (key a))).sum ≤
        potential s - potential (l.foldl f s)
  | [], s, _, _, holds, _ => by simpa using holds
  | b :: l, s, unique, step, holds, start => by
    simp only [map_cons, nodup_cons] at unique
    obtain ⟨next, paid⟩ := step s b mem_cons_self holds (start b mem_cons_self)
    obtain ⟨last, spent⟩ := foldl_spend frame inv initial potential cost l (f s b) unique.2
      (fun t a member => step t a (mem_cons_of_mem b member)) next
      (frame_tail frame unique.1 start)
    refine ⟨last, ?_⟩
    have head := foldl_frame frame (key b) l (f s b) unique.1
    simp only [foldl_cons, map_cons, sum_cons, head]
    omega

end Ome.Theory.KeyedPass
