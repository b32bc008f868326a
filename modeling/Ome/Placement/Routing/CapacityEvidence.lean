/-
# Ome.Placement.Routing.CapacityEvidence — no stale, repeated or superseded evidence

A run of the poller is any sequence of its operations, each with the clock reading
it acts on.  The history of a run says which poll is outstanding for a key without
looking at the state (`Outstanding`); the poller agrees with it after every
operation, and the value of every key is the estimate of its window (`Sound`).
-/
import Ome.Placement.Routing.Capacity

namespace Ome.Placement.Routing

open Ome.Theory CapacitySample Function List

set_option autoImplicit false
set_option linter.unusedSectionVars false

variable {K M α : Type} [DecidableEq K] [DecidableEq M] [LinearOrder α]

/-! ## Windows -/

theorem CapacityPolicy.quorum_pos (policy : CapacityPolicy) : 0 < policy.quorum := by
  have accepted := policy.accepted
  rw [CapacityConfig.validate, Option.or_eq_none_iff] at accepted
  by_contra none
  have windowed := accepted.2
  rw [CapacityConfig.validateWindow] at windowed
  split at windowed
  · cases windowed
  split at windowed
  · cases windowed
  rw [if_pos (Int.not_lt.mp none)] at windowed
  cases windowed

theorem estimate_isSome (policy : CapacityPolicy) (window : List (CapacitySample α)) :
    (estimate policy.toCapacityConfig window).isSome ↔ policy.quorum ≤ window.length := by
  have positive := policy.quorum_pos
  rw [estimate]
  split
  · simp
    omega
  · rename_i enough
    have enough := Int.not_lt.mp enough
    have readings : (window.map servable).length = window.length := length_map _
    refine iff_of_true ?_ enough
    dsimp only
    split
    · obtain ⟨v, found⟩ := nthSmallest_some (l := window.map servable)
        (i := ((window.map servable).length - 1) / 2) (by omega)
      rw [found]
      rfl
    · obtain ⟨v, found⟩ := nthSmallest_some (l := window.map servable)
        (i := policy.quorum.toNat - 1) (by omega)
      rw [found]
      rfl

section Estimate

variable {policy : CapacityPolicy} {window : List (CapacitySample α)} {v : α}
  (value : estimate policy.toCapacityConfig window = some v)

include value

/-- A ceiling is no lower than some of the readings that remain when fewer than a
quorum are left out. -/
theorem exists_le_ceiling (mode : policy.mode = .ceiling) {kept rest : List α}
    (split : (kept ++ rest).Perm (window.map servable))
    (few : (rest.length : Int) < policy.quorum) : ∃ r ∈ kept, r ≤ v := by
  have other : ¬ policy.mode = .reported := by rw [mode]; nofun
  rw [estimate, if_neg other] at value
  split at value
  · cases value
  · exact exists_le_nthSmallest value split (by omega)

/-- Of three readings or more, one that changes leaves a report among the others. -/
theorem report_between_others (mode : policy.mode = .reported) (three : 3 ≤ window.length) {i : Nat}
    (inside : i < window.length) (changed : CapacitySample α) :
    ∃ v', estimate policy.toCapacityConfig (window.set i changed) = some v' ∧
      (∃ r ∈ (window.eraseIdx i).map servable, r ≤ v') ∧
      ∃ r ∈ (window.eraseIdx i).map servable, v' ≤ r := by
  have enough := (estimate_isSome policy window).mp (by rw [value]; rfl)
  have same : (window.set i changed).length = window.length := length_set
  obtain ⟨v', value'⟩ := Option.isSome_iff_exists.mp
    ((estimate_isSome policy (window.set i changed)).mpr (by rwa [same]))
  refine ⟨v', value', ?_⟩
  have split : ((window.eraseIdx i).map servable ++ [changed.servable]).Perm
      ((window.set i changed).map servable) := by
    rw [← insertIdx_eraseIdx_self inside.ne]
    refine (perm_append_singleton _ _).trans ?_
    rw [← map_cons]
    have within : i ≤ (window.eraseIdx i).length := by
      rw [length_eraseIdx_of_lt inside]
      omega
    exact (perm_insertIdx changed _ within).symm.map _
  rw [estimate, if_pos mode] at value'
  split at value'
  · cases value'
  · exact ⟨exists_le_nthSmallest value' split (by simp; omega),
      exists_ge_nthSmallest value' split (by simp; omega)⟩

end Estimate

namespace CapacityState

variable {st : CapacityState α} (config : CapacityConfig) (now : Int)

/-- The value is that of the window. -/
def Current (st : CapacityState α) (config : CapacityConfig) : Prop :=
  st.reported = estimate config st.window

theorem Current.expire {config : CapacityConfig} (current : st.Current config) :
    (st.expire config now).Current config := by
  rw [CapacityState.expire]
  split
  · exact current
  · rfl

theorem expire_fresh (st : CapacityState α) :
    ∀ sample ∈ (st.expire config now).window, now < sample.expires := by
  intro sample member
  rw [CapacityState.expire] at member
  split at member
  · rename_i all
    exact of_decide_eq_true (length_filter_eq_length_iff.mp all sample member)
  · exact of_decide_eq_true (mem_filter.mp member).2

theorem expire_inFlight (st : CapacityState α) :
    (st.expire config now).inFlight = st.inFlight ∧
      (st.expire config now).generation = st.generation := by
  rw [CapacityState.expire]
  split <;> exact ⟨rfl, rfl⟩

/-- The value is that of the window again, and the poll is where it was. -/
def Settled (st : CapacityState α) (config : CapacityConfig) (after : CapacityState α) : Prop :=
  after.Current config ∧ after.inFlight = st.inFlight

section

variable (st : CapacityState α) (policy : CapacityPolicy)

theorem recordFailure_settled (reason : CapacityReason) : st.Settled policy.toCapacityConfig
    (st.recordFailure policy.toCapacityConfig reason now) := by
  by_cases mode : policy.mode = .reported
  · simp only [recordFailure, if_pos mode, Settled, Current]
    exact ⟨trivial, (st.expire_inFlight _ now).1⟩
  · simp only [recordFailure, if_neg mode, Settled, Current]
    exact ⟨(if_pos policy.quorum_pos).symm, trivial⟩

/-- The outcome of a poll leaves the value of the window, whichever branch it takes. -/
theorem recordLocked_settled (reported : Option α) (observedAt : Int) (reason : String) :
    st.Settled policy.toCapacityConfig
      (st.recordLocked policy.toCapacityConfig reported observedAt reason now) := by
  cases reported with
  | none => exact recordFailure_settled now st policy _
  | some v =>
    simp only [recordLocked]
    generalize (if observedAt = 0 then now else observedAt) + policy.maxAge = expires
    split
    · exact recordFailure_settled now st policy _
    · exact ⟨rfl, (st.expire_inFlight _ now).1⟩

end

end CapacityState

/-! ## Runs -/

/-- One operation of the poller. -/
inductive Operation (K M α : Type) where
  | prepare (now : Int) (map : M) (targets : List K)
  | complete (now : Int) (key : K) (generation : Nat) (reported : Option α) (observedAt : Int)
      (reason : String)
  | abandon (now : Int) (key : K) (generation : Nat)
  | forget (map : M)
  | observe (now : Int) (key : K)

/-- An operation with the polls it handed out. -/
structure Entry (K M α : Type) where
  operation : Operation K M α
  work : List (K × Nat)

namespace Entry

variable (e : Entry K M α)

def Issues (k : K) (g : Nat) : Prop := (k, g) ∈ e.work

/-- The operation drops the history of the key. -/
def Drops (mapOf : K → M) (k : K) : Prop :=
  match e.operation with
  | .prepare _ map targets => mapOf k = map ∧ k ∉ targets
  | .forget map => mapOf k = map
  | _ => False

/-- The operation completes or abandons the poll. -/
def Finishes (k : K) (g : Nat) : Prop :=
  match e.operation with
  | .complete _ key generation _ _ _ => k = key ∧ g = generation
  | .abandon _ key generation => k = key ∧ g = generation
  | _ => False

end Entry

/-- The poll is the latest handed out for the key since its history was last dropped,
and it has been neither completed nor abandoned; the newest entry comes first. -/
def Outstanding (mapOf : K → M) (history : List (Entry K M α)) (k : K) (g : Nat) : Prop :=
  ∃ later e earlier, history = later ++ e :: earlier ∧ e.Issues k g ∧
    ∀ d ∈ later, ¬ d.Drops mapOf k ∧ ¬ d.Finishes k g ∧ ∀ g', ¬ d.Issues k g'

theorem outstanding_cons {mapOf : K → M} {e : Entry K M α} {history : List (Entry K M α)} {k : K}
    {g : Nat} : Outstanding mapOf (e :: history) k g ↔ e.Issues k g ∨
      (¬ e.Drops mapOf k ∧ ¬ e.Finishes k g ∧ ∀ g', ¬ e.Issues k g') ∧
        Outstanding mapOf history k g := by
  constructor
  · rintro ⟨later, d, earlier, split, issues, quiet⟩
    cases later with
    | nil =>
      cases split
      exact .inl issues
    | cons first later =>
      cases split
      rw [forall_mem_cons] at quiet
      exact .inr ⟨quiet.1, later, d, earlier, rfl, issues, quiet.2⟩
  · rintro (issues | ⟨quiet, later, d, earlier, rfl, issues, rest⟩)
    · exact ⟨[], e, history, rfl, issues, fun d member => absurd member not_mem_nil⟩
    · exact ⟨e :: later, d, earlier, rfl, issues, forall_mem_cons.mpr ⟨quiet, rest⟩⟩

section Run

variable (config : K → CapacityPolicy) (mapOf : K → M)

/-- What an operation does to the poller, and the polls it hands out. -/
def step (c : CapacityPoller K α) : Operation K M α → CapacityPoller K α × List (K × Nat)
  | .prepare now map targets => c.prepare config mapOf now map targets
  | .complete now key generation reported observedAt reason =>
    ((c.recordCurrent config now key generation reported observedAt reason).1, [])
  | .abandon now key generation => (c.abandon now key generation, [])
  | .forget map => (c.forget mapOf map, [])
  | .observe now key => ((c.observation config now key).1, [])

/-- A run from an empty poller, with its history. -/
def run : List (Operation K M α) → CapacityPoller K α × List (Entry K M α)
  | [] => (.initial, [])
  | operation :: earlier =>
    let before := run earlier
    let after := step config mapOf before.1 operation
    (after.1, ⟨operation, after.2⟩ :: before.2)

end Run

namespace CapacityPoller

variable {key : K} {st : CapacityState α}

/-- The poll in flight for a key. -/
def InFlight (c : CapacityPoller K α) (k : K) (g : Nat) : Prop :=
  ∃ st, c.state k = some st ∧ st.inFlight = true ∧ st.generation = g

/-- Every value is that of its window. -/
def Current (config : K → CapacityPolicy) (c : CapacityPoller K α) : Prop :=
  ∀ k st, c.state k = some st → st.Current (config k).toCapacityConfig

variable {config : K → CapacityPolicy} {c : CapacityPoller K α}

theorem Current.update (current : c.Current config)
    (own : st.Current (config key).toCapacityConfig) (token : Nat) :
    Current config { nextToken := token, state := update c.state key (some st) } := by
  intro k st' held
  by_cases same : k = key
  · subst same
    simp only [update_self, Option.some.injEq] at held
    exact held ▸ own
  · simp only [update_of_ne same] at held
    exact current k st' held

theorem inFlight_update {token : Nat} {k : K} {g : Nat} :
    InFlight { nextToken := token, state := update c.state key (some st) } k g ↔
      (k = key ∧ st.inFlight = true ∧ st.generation = g) ∨ (k ≠ key ∧ c.InFlight k g) := by
  by_cases same : k = key
  · subst same
    simp [InFlight]
  · simp [InFlight, same]

/-- A history is the one there was, or a new one that waits for its first poll. -/
theorem historyOf_inFlight (config : K → CapacityPolicy) (c : CapacityPoller K α) (key : K)
    (now : Int) (g : Nat) :
    ((c.historyOf config key now).inFlight = true ∧
      (c.historyOf config key now).generation = g) ↔ c.InFlight key g := by
  rw [historyOf, (CapacityState.expire_inFlight _ _ _).1, (CapacityState.expire_inFlight _ _ _).2]
  cases held : c.state key with
  | none | some st => simp [InFlight, held]

theorem Current.historyOf (current : c.Current config) (key : K) (now : Int) :
    (c.historyOf config key now).Current (config key).toCapacityConfig := by
  refine CapacityState.Current.expire now ?_
  cases held : c.state key with
  | none => exact (if_pos (config key).quorum_pos).symm
  | some st => exact current key st held

/-! ## What each operation does -/

/-- What becomes of the targets: a poll in flight stays, and for the others a new one may be
handed out. -/
def Prepares (config : K → CapacityPolicy) (s : CapacityPoller K α × List (K × Nat))
    (targets : List K) (s' : CapacityPoller K α × List (K × Nat)) : Prop :=
  s'.1.Current config ∧ ∃ issued, s'.2 = s.2 ++ issued ∧
    (∀ k g, (k, g) ∈ issued → k ∈ targets ∧ ∀ g', ¬ s.1.InFlight k g') ∧
    ∀ k g, s'.1.InFlight k g ↔ s.1.InFlight k g ∨ (k, g) ∈ issued

theorem prepareTarget_spec (now : Int) (s : CapacityPoller K α × List (K × Nat)) (key : K)
    (current : s.1.Current config) :
    Prepares config s [key] (prepareTarget config now s key) := by
  have own := current.historyOf key now
  have flight := historyOf_inFlight config s.1 key now
  rw [prepareTarget]
  generalize s.1.historyOf config key now = st at own flight
  dsimp only
  split
  · refine ⟨current.update own _, [], (append_nil _).symm, by simp, fun k g => ?_⟩
    rw [inFlight_update]
    by_cases same : k = key
    · subst same
      simp [flight]
    · simp [same]
  · rename_i idle
    rw [not_or] at idle
    have idle : ∀ g', ¬ s.1.InFlight key g' := fun g' busy =>
      idle.1 ((flight g').mpr busy).1
    refine ⟨current.update ?_ _, _, rfl, fun k g member => ?_, fun k g => ?_⟩
    · exact own
    · cases mem_singleton.mp member
      exact ⟨mem_cons_self, idle⟩
    · rw [inFlight_update]
      by_cases same : k = key
      · subst same
        simp [idle, eq_comm]
      · simp [same]

theorem prepareTargets_spec (now : Int) : ∀ (targets : List K)
    (s : CapacityPoller K α × List (K × Nat)), s.1.Current config →
    Prepares config s targets (targets.foldl (prepareTarget config now) s)
  | [], s, current => ⟨current, [], (append_nil _).symm, by simp, by simp⟩
  | key :: rest, s, current => by
    obtain ⟨next, first, work, fresh, flight⟩ := prepareTarget_spec now s key current
    obtain ⟨last, later, works, freshes, flights⟩ :=
      prepareTargets_spec now rest (prepareTarget config now s key) next
    refine ⟨last, first ++ later, ?_, fun k g member => ?_, fun k g => ?_⟩
    · rw [foldl_cons, works, work, append_assoc]
    · rcases mem_append.mp member with here | there
      · obtain ⟨only, idle⟩ := fresh k g here
        exact ⟨mem_singleton.mp only ▸ mem_cons_self, idle⟩
      · obtain ⟨listed, idle⟩ := freshes k g there
        exact ⟨mem_cons_of_mem key listed, fun g' busy =>
          idle g' ((flight k g').mpr (.inl busy))⟩
    · rw [foldl_cons, flights, flight, mem_append, or_assoc]

theorem prepare_spec {mapOf : K → M} (current : c.Current config) (now : Int) (map : M)
    (targets : List K) :
    (c.prepare config mapOf now map targets).1.Current config ∧
    (∀ k g, (k, g) ∈ (c.prepare config mapOf now map targets).2 →
      k ∈ targets ∧ ∀ g', ¬ c.InFlight k g') ∧
    ∀ k g, (c.prepare config mapOf now map targets).1.InFlight k g ↔
      ¬ (mapOf k = map ∧ k ∉ targets) ∧
        (c.InFlight k g ∨ (k, g) ∈ (c.prepare config mapOf now map targets).2) := by
  obtain ⟨next, issued, work, fresh, flight⟩ := prepareTargets_spec now targets (c, []) current
  rw [nil_append] at work
  rw [prepare, work]
  refine ⟨fun k st held => ?_, fresh, fun k g => ?_⟩
  · simp only at held
    split at held
    · cases held
    · exact next k st held
  · rw [← flight]
    by_cases gone : mapOf k = map ∧ k ∉ targets
    · simp [InFlight, gone]
    · simp only [InFlight, gone, not_false_eq_true, true_and]
      rfl

/-- A completion or an abandonment counts exactly for the poll in flight. -/
theorem inFlight_iff (held : c.state key = some st) (generation : Nat) : c.InFlight key generation ↔
      ¬ (st.inFlight = false ∨ st.generation ≠ generation) := by
  simp [InFlight, held]

/-- What taking a poll back does: nothing, or the key's poll is no longer in flight. -/
inductive Settles (config : K → CapacityPolicy) (c : CapacityPoller K α) (key : K)
    (generation : Nat) : CapacityPoller K α → Prop
  | refused (idle : ¬ c.InFlight key generation) : Settles config c key generation c
  | taken {st : CapacityState α} (busy : c.InFlight key generation) (landed : st.inFlight = false)
      (own : st.Current (config key).toCapacityConfig) :
      Settles config c key generation { c with state := Function.update c.state key (some st) }

theorem recordCurrent_settles (config : K → CapacityPolicy) (c : CapacityPoller K α) (now : Int)
    (key : K) (generation : Nat) (reported : Option α) (observedAt : Int) (reason : String) :
    Settles config c key generation
      (c.recordCurrent config now key generation reported observedAt reason).1 := by
  rw [recordCurrent]
  cases held : c.state key with
  | none => exact .refused (by simp [InFlight, held])
  | some st =>
    dsimp only
    split
    · rename_i other
      exact .refused fun busy => (inFlight_iff held generation).mp busy other
    · rename_i own
      exact .taken ((inFlight_iff held generation).mpr own)
        (CapacityState.recordLocked_settled _ _ _ _ _ _).2
        (CapacityState.recordLocked_settled _ _ _ _ _ _).1

theorem abandon_settles (current : c.Current config) (now : Int) (key : K) (generation : Nat) :
    Settles config c key generation (c.abandon now key generation) := by
  rw [abandon]
  cases held : c.state key with
  | none => exact .refused (by simp [InFlight, held])
  | some st =>
    dsimp only
    split
    · rename_i other
      exact .refused fun busy => (inFlight_iff held generation).mp busy other
    · rename_i own
      exact .taken ((inFlight_iff held generation).mpr own) rfl (current key st held)

namespace Settles

variable {generation : Nat} {after : CapacityPoller K α}
  (settles : Settles config c key generation after)

include settles

theorem current (current : c.Current config) : after.Current config := by
  cases settles with
  | refused => exact current
  | taken busy landed own => exact current.update own _

theorem inFlight (k : K) (g : Nat) :
    after.InFlight k g ↔ c.InFlight k g ∧ ¬ (k = key ∧ g = generation) := by
  cases settles with
  | refused idle =>
    refine (and_iff_left_of_imp fun busy same => idle ?_).symm
    exact same.1 ▸ same.2 ▸ busy
  | @taken st busy landed own =>
    rw [inFlight_update, landed]
    by_cases same : k = key
    · subst same
      obtain ⟨st', held, -, number⟩ := busy
      have one : c.InFlight k g → g = generation := by
        rintro ⟨st'', held', -, rfl⟩
        cases held.symm.trans held'
        exact number
      simpa using one
    · simp [same]

theorem changes : after.state key ≠ c.state key ↔ c.InFlight key generation := by
  cases settles with
  | refused idle => simp [idle]
  | @taken st busy landed own =>
    refine iff_of_true (fun same => ?_) busy
    obtain ⟨st', held, flying, -⟩ := busy
    rw [held] at same
    simp only [update_self, Option.some.injEq] at same
    rw [← same, landed] at flying
    cases flying

theorem others {k : K} (other : k ≠ key) : after.state k = c.state k := by
  cases settles with
  | refused => rfl
  | taken => exact update_of_ne other _ _

end Settles

theorem observation_current (current : c.Current config) (now : Int) (key : K) :
    (c.observation config now key).1.Current config := by
  rw [observation]
  cases held : c.state key with
  | none => exact current
  | some st => exact current.update ((current key st held).expire now) _

/-- A value that is read is that of the readings left after the expiry. -/
theorem observation_some {now : Int} {v : α} (read : (c.observation config now key).2.1 = some v) :
    ∃ st, c.state key = some st ∧
      (c.observation config now key).1.state key =
        some (st.expire (config key).toCapacityConfig now) ∧
      (st.expire (config key).toCapacityConfig now).reported = some v := by
  rw [observation] at read ⊢
  cases held : c.state key with
  | none =>
    rw [held] at read
    cases read
  | some st =>
    rw [held] at read
    exact ⟨st, rfl, update_self .., read⟩

theorem observation_inFlight (now : Int) (key k : K) (g : Nat) :
    (c.observation config now key).1.InFlight k g ↔ c.InFlight k g := by
  rw [observation]
  cases held : c.state key with
  | none => rfl
  | some st =>
    rw [inFlight_update, (CapacityState.expire_inFlight _ _ _).1,
      (CapacityState.expire_inFlight _ _ _).2]
    by_cases same : k = key
    · subst same
      simp [InFlight, held]
    · simp [same]

end CapacityPoller

/-! ## Every run -/

/-- The poller agrees with its history. -/
structure Sound (config : K → CapacityPolicy) (mapOf : K → M)
    (s : CapacityPoller K α × List (Entry K M α)) : Prop where
  current : s.1.Current config
  outstanding : ∀ k g, s.1.InFlight k g ↔ Outstanding mapOf s.2 k g

section Run

variable {config : K → CapacityPolicy} {mapOf : K → M}

open CapacityPoller

/-- Every operation keeps the polls in flight and the journal in step. -/
theorem step_sound {s : CapacityPoller K α × List (Entry K M α)} (sound : Sound config mapOf s)
    (operation : Operation K M α) :
    Sound config mapOf ((step config mapOf s.1 operation).1,
      ⟨operation, (step config mapOf s.1 operation).2⟩ :: s.2) := by
  obtain ⟨current, outstanding⟩ := sound
  cases operation with
  | prepare now map targets =>
    -- a poll that is issued has a new generation
    obtain ⟨next, fresh, flight⟩ := prepare_spec current now map targets
    refine ⟨next, fun k g => ?_⟩
    rw [outstanding_cons, ← outstanding]
    simp only [step, Entry.Issues, Entry.Drops, Entry.Finishes, flight]
    constructor
    · rintro ⟨kept, busy | issued⟩
      · exact .inr ⟨⟨kept, id, fun g' issued => (fresh k g' issued).2 g busy⟩, busy⟩
      · exact .inl issued
    · rintro (issued | ⟨⟨kept, -, -⟩, busy⟩)
      · exact ⟨fun gone => gone.2 (fresh k g issued).1, .inr issued⟩
      · exact ⟨kept, .inl busy⟩
  | complete now key generation reported observedAt reason =>
    have settles := recordCurrent_settles config s.1 now key generation reported observedAt reason
    refine ⟨settles.current current, fun k g => ?_⟩
    rw [outstanding_cons, ← outstanding]
    simp [step, settles.inFlight, Entry.Issues, Entry.Drops, Entry.Finishes, and_comm]
  | abandon now key generation =>
    have settles := abandon_settles current now key generation
    refine ⟨settles.current current, fun k g => ?_⟩
    rw [outstanding_cons, ← outstanding]
    simp [step, settles.inFlight, Entry.Issues, Entry.Drops, Entry.Finishes, and_comm]
  | forget map =>
    refine ⟨fun k st held => ?_, fun k g => ?_⟩
    · simp only [step, forget] at held
      split at held
      · cases held
      · exact current k st held
    · rw [outstanding_cons, ← outstanding]
      by_cases same : mapOf k = map
      · simp [step, forget, InFlight, Entry.Issues, Entry.Drops, Entry.Finishes, same]
      · simp [step, forget, InFlight, Entry.Issues, Entry.Drops, Entry.Finishes, same]
  | observe now key =>
    refine ⟨observation_current current now key, fun k g => ?_⟩
    rw [outstanding_cons, ← outstanding]
    simp [step, observation_inFlight, Entry.Issues, Entry.Drops, Entry.Finishes]

theorem run_sound (config : K → CapacityPolicy) (mapOf : K → M)
    (operations : List (Operation K M α)) : Sound config mapOf (run config mapOf operations) := by
  induction operations with
  | nil =>
    refine ⟨fun k st held => ?_, fun k g => ?_⟩
    · cases held
    · simp [run, InFlight, initial, Outstanding]
  | cons operation earlier ih => exact step_sound ih operation

/-- **After any operations, a completion counts exactly for the outstanding poll, every
value is that of its window, and a read answers from readings that have not expired.** -/
theorem evidence_is_current (operations : List (Operation K M α)) :
    let c := (run config mapOf operations).1
    (∀ now key generation reported observedAt reason,
      ((c.recordCurrent config now key generation reported observedAt reason).1.state key ≠
        c.state key ↔ Outstanding mapOf (run config mapOf operations).2 key generation) ∧
      ∀ k ≠ key, (c.recordCurrent config now key generation reported observedAt reason).1.state k =
        c.state k) ∧
    (∀ key st, c.state key = some st →
      (st.reported.isSome ↔ (config key).quorum ≤ st.window.length) ∧
      st.reported = estimate (config key).toCapacityConfig st.window) ∧
    ∀ now key v, (c.observation config now key).2.1 = some v →
      ∃ st, (c.observation config now key).1.state key = some st ∧
        (∀ sample ∈ st.window, now < sample.expires) ∧
        estimate (config key).toCapacityConfig st.window = some v ∧
        ((config key).mode = .ceiling → ∀ kept rest : List α,
          (kept ++ rest).Perm (st.window.map CapacitySample.servable) →
          rest.length < (config key).quorum → ∃ r ∈ kept, r ≤ v) ∧
        ((config key).mode = .reported → 3 ≤ st.window.length →
          ∀ i < st.window.length, ∀ changed : CapacitySample α,
            ∃ v', estimate (config key).toCapacityConfig (st.window.set i changed) = some v' ∧
              (∃ r ∈ (st.window.eraseIdx i).map CapacitySample.servable, r ≤ v') ∧
              ∃ r ∈ (st.window.eraseIdx i).map CapacitySample.servable, v' ≤ r) := by
  intro c
  obtain ⟨current, outstanding⟩ := run_sound config mapOf operations
  refine ⟨fun now key generation reported observedAt reason => ?_, fun key st held => ?_,
    fun now key v read => ?_⟩
  · have settles := recordCurrent_settles config c now key generation reported observedAt reason
    exact ⟨settles.changes.trans (outstanding key generation), fun k other => settles.others other⟩
  · have own : st.reported = _ := current key st held
    exact ⟨own ▸ estimate_isSome (config key) st.window, own⟩
  · obtain ⟨st, held, after, rests⟩ := observation_some read
    have value := ((current key st held).expire now).symm.trans rests
    exact ⟨_, after, st.expire_fresh _ now, value,
      fun mode kept rest split few => exists_le_ceiling value mode split few,
      fun mode three i inside changed => report_between_others value mode three inside changed⟩

end Run

end Ome.Placement.Routing
