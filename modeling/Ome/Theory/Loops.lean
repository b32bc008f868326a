/-
# Ome.Theory.Loops — loops over a list

* `foldl_along`, `foldlM_along`: an invariant of what a loop has read so far holds at its
  end;
* `foldl_update_of_mem`: a loop that stores one value per item, under distinct keys,
  leaves each of them;
* `foldl_modify`: a loop that rewrites rows of a list at the places of their keys.
-/
import Mathlib.Data.List.Basic

namespace Ome.Theory

open List

open Function

set_option autoImplicit false

variable {α σ : Type}

/-- **The loop rule**, with the items read so far. -/
theorem foldl_along {body : σ → α → σ} {items : List α} {s : σ} (inv : List α → σ → Prop)
    (start : inv [] s)
    (round : ∀ done x rest s, items = done ++ x :: rest → inv done s →
      inv (done ++ [x]) (body s x)) : inv items (items.foldl body s) := by
  suffices rounds : ∀ (rest done : List α) (s : σ), items = done ++ rest → inv done s →
      inv items (rest.foldl body s) from rounds items [] s rfl start
  intro rest
  induction rest with
  | nil =>
    intro done s split holds
    rw [split, append_nil]
    exact holds
  | cons x rest ih =>
    intro done s split holds
    refine ih (done ++ [x]) (body s x) ?_ (round done x rest s split holds)
    rw [split, append_assoc]
    rfl

/-- The loop rule of a loop that may give up, when it did not. -/
theorem foldlM_along {body : σ → α → Option σ} {items : List α} {s last : σ}
    (inv : List α → σ → Prop) (ends : items.foldlM body s = some last) (start : inv [] s)
    (round : ∀ done x s s', inv done s → body s x = some s' → inv (done ++ [x]) s') :
    inv items last := by
  suffices rounds : ∀ (rest done : List α) (s : σ), inv done s → rest.foldlM body s = some last →
      inv (done ++ rest) last from rounds items [] s start ends
  intro rest
  induction rest with
  | nil =>
    intro done s holds ends
    obtain rfl : s = last := by simpa using ends
    rwa [append_nil]
  | cons x rest ih =>
    intro done s holds ends
    rw [foldlM_cons, Option.bind_eq_bind, Option.bind_eq_some_iff] at ends
    obtain ⟨next, first, later⟩ := ends
    have kept := ih (done ++ [x]) next (round done x s next holds first) later
    rwa [append_assoc] at kept

section Update

variable {κ β : Type} [DecidableEq κ] {key : α → κ} {items : List α}

/-- A loop leaves alone what none of its items is about. -/
theorem foldl_rewrite_of_not_mem (write : α → β → β) {i : κ} (absent : i ∉ items.map key)
    (m : κ → β) : (items.foldl (fun m x => update m (key x) (write x (m (key x)))) m) i = m i := by
  induction items generalizing m with
  | nil => rfl
  | cons x rest ih =>
    rw [map_cons, mem_cons, not_or] at absent
    rw [foldl_cons, ih absent.2, update_of_ne absent.1]

/-- A loop over items of distinct keys rewrites each of their values once. -/
theorem foldl_rewrite_of_mem (write : α → β → β) (distinct : (items.map key).Nodup) {x : α}
    (member : x ∈ items) (m : κ → β) :
    (items.foldl (fun m x => update m (key x) (write x (m (key x)))) m) (key x) =
      write x (m (key x)) := by
  induction items generalizing m with
  | nil => cases member
  | cons y rest ih =>
    rw [map_cons, nodup_cons] at distinct
    rw [foldl_cons]
    rcases mem_cons.mp member with rfl | later
    · rw [foldl_rewrite_of_not_mem write distinct.1, update_self]
    · have other : key x ≠ key y := by
        intro same
        exact distinct.1 (same ▸ mem_map_of_mem later)
      rw [ih distinct.2 later, update_of_ne other]

theorem foldl_update_of_mem {value : α → β} (distinct : (items.map key).Nodup) {x : α}
    (member : x ∈ items) (m : κ → β) :
    (items.foldl (fun m x => update m (key x) (value x)) m) (key x) = value x :=
  foldl_rewrite_of_mem (fun x _ => value x) distinct member m

end Update

/-! ## Loops over the places of a list -/

section Places

variable {κ β : Type} {items : List α}

/-- Stores into the places of a list, read back as stores into a function. -/
theorem getD_foldl_set {place : α → Nat} {value : α → β} (l : List β)
    (inside : ∀ x ∈ items, place x < l.length) (default : β) (j : Nat) :
    (items.foldl (fun l x => l.set (place x) (value x)) l).getD j default =
      (items.foldl (fun m x => update m (place x) (value x))
        (fun j => l.getD j default)) j := by
  induction items generalizing l with
  | nil => rfl
  | cons x rest ih =>
    have stored : (fun j => (l.set (place x) (value x)).getD j default) =
        update (fun j => l.getD j default) (place x) (value x) := by
      funext j
      by_cases same : j = place x
      · subst same
        have room := inside x (by simp)
        simp [getD_eq_getElem?_getD, room]
      · rw [update_of_ne same]
        simp [getD_eq_getElem?_getD, List.getElem?_set_ne (Ne.symm same)]
    rw [foldl_cons, foldl_cons, ih (l.set (place x) (value x)), stored]
    · intro y member
      rw [length_set]
      exact inside y (by simp [member])

variable [DecidableEq κ] {order : List κ}

/-- Rows listed by distinct keys: rewriting the row at a key's place rewrites the
row of the key. -/
theorem modify_idxOf (nodup : order.Nodup) {k : κ} (member : k ∈ order) (cell : κ → β)
    (write : β → β) :
    (order.map cell).modify (order.idxOf k) write =
      order.map (update cell k (write (cell k))) := by
  apply ext_getElem
  · simp
  · intro j first second
    have bound : j < order.length := by simpa using second
    rw [getElem_modify]
    by_cases here : order.idxOf k = j
    · subst here
      simp [getElem_idxOf]
    · have other : order[j] ≠ k := by
        rintro rfl
        exact here (nodup.idxOf_getElem _ _)
      simp [here, other]

/-- A loop that rewrites rows at the places of their keys. -/
theorem foldl_modify {key : α → κ} {write : α → β → β} {place : κ → Nat}
    (nodup : order.Nodup) (places : ∀ k ∈ order, place k = order.idxOf k)
    (inside : ∀ x ∈ items, key x ∈ order) (cell : κ → β) :
    items.foldl (fun rows x => rows.modify (place (key x)) (write x)) (order.map cell) =
      order.map (items.foldl
        (fun m x => update m (key x) (write x (m (key x)))) cell) := by
  induction items generalizing cell with
  | nil => rfl
  | cons x rest ih =>
    have member := inside x (by simp)
    rw [foldl_cons, places _ member, modify_idxOf nodup member,
      ih fun y later => inside y (by simp [later])]
    rfl

end Places

end Ome.Theory
