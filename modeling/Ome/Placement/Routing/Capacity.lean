/-
# Ome.Placement.Routing.Capacity — polled capacity reports

The model of `placement/routing/capacity.go`: the windows of accepted readings, the
value each gives, and the operations of the poller on them.  `prepare` hands out a
generation with every poll; `recordCurrent` and `abandon` take it back; `forget` and
the pruning of `prepare` drop whole histories; `observation` reads.  Each operation
holds the lock of the poller, so a run is a sequence of operations, and carries the
clock reading it acts on.

A key is opaque and belongs to a TrafficMap.  Its policy digest is part of it, so
that a key has one configuration, and only configurations that `Validate` accepts
reach the poller (`CapacityPolicy`).  Readings are of any ordered type.  Times are
nanoseconds after the zero time; durations are 64-bit.  What `recordLocked` answers
is dropped by its caller and left out.
-/
import Ome.Placement.Routing.Weight
import Ome.Theory.Rank

namespace Ome.Placement.Routing

open Ome.Theory Function

set_option autoImplicit false

/-! ## Configuration -/

structure CapacityConfig where
  mode : RoutingCapacityMode
  period : Int
  timeout : Int
  samples : Int
  quorum : Int
  maxAge : Int
  deriving DecidableEq

inductive ConfigError where
  | periodNotPositive
  | timeoutNotPositive
  | timeoutReachesPeriod (timeout period : Int)
  | maxAgeNotPositive
  | samplesNotPositive
  | quorumNotPositive
  | quorumExceedsSamples (quorum samples : Int)
  | maxAgeBelowQuorum (maxAge quorum : Int)
  | maxAgeBelowPeriod (maxAge period : Int)
  deriving DecidableEq

namespace CapacityConfig

variable (c : CapacityConfig)

def validateCadence : Option ConfigError :=
  if c.period ≤ 0 then some .periodNotPositive
  else if c.timeout ≤ 0 then some .timeoutNotPositive
  else if c.period ≤ c.timeout then some (.timeoutReachesPeriod c.timeout c.period)
  else none

def validateWindow : Option ConfigError :=
  if c.maxAge ≤ 0 then some .maxAgeNotPositive
  else if c.samples ≤ 0 then some .samplesNotPositive
  else if c.quorum ≤ 0 then some .quorumNotPositive
  else if c.samples < c.quorum then some (.quorumExceedsSamples c.quorum c.samples)
  else if 1 < c.quorum ∧ c.maxAge.tdiv c.period < c.quorum then
    some (.maxAgeBelowQuorum c.maxAge c.quorum)
  else if c.maxAge < c.period then some (.maxAgeBelowPeriod c.maxAge c.period)
  else none

/-- The checks of `Validate` on the numbers of a configuration. -/
def validate : Option ConfigError := c.validateCadence.or c.validateWindow

end CapacityConfig

/-- A configuration that reaches the poller. -/
structure CapacityPolicy extends CapacityConfig where
  accepted : toCapacityConfig.validate = none

/-! ## The window of one key -/

structure CapacitySample (α : Type) where
  servable : α
  expires : Int
  deriving DecidableEq

/-- Why there is no value, or why the last poll failed; empty for neither. -/
inductive CapacityReason where
  | given (text : String)
  | noReport
  | unavailable
  | stale (maxAge : Int)
  | awaitingQuorum (accepted : Nat) (quorum : Int)
  | awaitingAfterExpiry (accepted : Nat) (quorum : Int)
  deriving DecidableEq

structure CapacityState (α : Type) where
  generation : Nat
  window : List (CapacitySample α)
  reported : Option α
  reason : CapacityReason
  nextPollTime : Int
  inFlight : Bool
  deriving DecidableEq

variable {α : Type} [LinearOrder α]

/-- The value of a window: the quorum-th smallest reading as a ceiling, the lower
median as a report. -/
def estimate (config : CapacityConfig) (window : List (CapacitySample α)) : Option α :=
  if (window.length : Int) < config.quorum then none
  else
    let readings := window.map CapacitySample.servable
    if config.mode = .reported then nthSmallest readings ((readings.length - 1) / 2)
    else nthSmallest readings (config.quorum.toNat - 1)

namespace CapacityState

variable (st : CapacityState α) (config : CapacityConfig)

/-- The window with one more reading, as long as `samples` at most. -/
def observe (v : α) (expires : Int) : List (CapacitySample α) :=
  let window := st.window ++ [⟨v, expires⟩]
  if config.samples < window.length then
    window.drop (window.length - config.samples.toNat)
  else window

/-- Readings at the end of their age are dropped, and the value follows. -/
def expire (now : Int) : CapacityState α :=
  let kept := st.window.filter fun sample => now < sample.expires
  if kept.length = st.window.length then st
  else
    { st with
      window := kept
      reported := estimate config kept
      reason :=
        if (estimate config kept).isSome then st.reason
        else if kept = [] then .stale config.maxAge
        else .awaitingAfterExpiry kept.length config.quorum }

/-- A poll without a usable reading: a report stands while it is fresh, a ceiling is
released. -/
def recordFailure (reason : CapacityReason) (now : Int) : CapacityState α :=
  let reason := if reason = .given "" then .unavailable else reason
  if config.mode = .reported then
    let st := st.expire config now
    { st with reported := estimate config st.window, reason }
  else { st with window := [], reported := none, reason }

/-- The outcome of a poll; a zero `observedAt` is now. -/
def recordLocked (reported : Option α) (observedAt : Int) (reason : String) (now : Int) :
    CapacityState α :=
  match reported with
  | none => st.recordFailure config (.given reason) now
  | some v =>
    let observedAt := if observedAt = 0 then now else observedAt
    let expires := observedAt + config.maxAge
    if expires ≤ now then st.recordFailure config (.stale config.maxAge) now
    else
      let st := st.expire config now
      let window := st.observe config v expires
      { st with
        window
        reported := estimate config window
        reason :=
          if (estimate config window).isSome then .given ""
          else if reason = "" then .awaitingQuorum window.length config.quorum
          else .given reason }

end CapacityState

/-! ## The poller -/

/-- `Sub` of two times: the difference, as far as a duration holds it. -/
def durationBetween (later earlier : Int) : Int :=
  max (-2 ^ 63) (min (later - earlier) (2 ^ 63 - 1))

def advanceCapacityDeadline (deadline now period : Int) : Int :=
  if deadline = 0 then now + period
  else if now < deadline then deadline
  else deadline + wrap64 (wrap64 ((durationBetween now deadline).tdiv period + 1) * period)

structure CapacityPoller (K α : Type) where
  nextToken : Nat
  state : K → Option (CapacityState α)

/-- The token after a token: a 64-bit counter that skips zero. -/
def tokenAfter (token : Nat) : Nat :=
  if (token + 1) % 2 ^ 64 = 0 then 1 else (token + 1) % 2 ^ 64

namespace CapacityPoller

variable {K M : Type} [DecidableEq K] [DecidableEq M] (config : K → CapacityPolicy)
  (mapOf : K → M)

/-- A poller without histories. -/
def initial : CapacityPoller K α := { nextToken := 0, state := fun _ => none }

/-- The history of a target, a new one where there is none. -/
def historyOf (c : CapacityPoller K α) (key : K) (now : Int) : CapacityState α :=
  ((c.state key).getD
    { generation := 0, window := [], reported := none, reason := .noReport, nextPollTime := now,
      inFlight := false }).expire (config key).toCapacityConfig now

/-- One target of `prepare`, with the polls handed out so far. -/
def prepareTarget (now : Int) (s : CapacityPoller K α × List (K × Nat)) (key : K) :
    CapacityPoller K α × List (K × Nat) :=
  let state := s.1.historyOf config key now
  if state.inFlight ∨ now < state.nextPollTime then
    ({ s.1 with state := update s.1.state key (some state) }, s.2)
  else
    let token := tokenAfter s.1.nextToken
    ({ nextToken := token
       state := update s.1.state key (some { state with
         generation := token
         inFlight := true
         nextPollTime := advanceCapacityDeadline state.nextPollTime now (config key).period }) },
      s.2 ++ [(key, token)])

/-- The polls that are due for one TrafficMap; its other histories are dropped. -/
def prepare (c : CapacityPoller K α) (now : Int) (map : M) (targets : List K) :
    CapacityPoller K α × List (K × Nat) :=
  let prepared := targets.foldl (prepareTarget config now) (c, [])
  ({ prepared.1 with
      state := fun key =>
        if mapOf key = map ∧ key ∉ targets then none else prepared.1.state key }, prepared.2)

/-- The completion of a poll; it counts if it is the one in flight. -/
def recordCurrent (c : CapacityPoller K α) (now : Int) (key : K) (generation : Nat)
    (reported : Option α) (observedAt : Int) (reason : String) : CapacityPoller K α × Bool :=
  match c.state key with
  | none => (c, false)
  | some st =>
    if st.inFlight = false ∨ st.generation ≠ generation then (c, false)
    else
      ({ c with
          state := update c.state key
            (some (CapacityState.recordLocked { st with inFlight := false }
              (config key).toCapacityConfig reported observedAt reason now)) }, true)

/-- A poll given up: the next one is due at once. -/
def abandon (c : CapacityPoller K α) (now : Int) (key : K) (generation : Nat) :
    CapacityPoller K α :=
  match c.state key with
  | none => c
  | some st =>
    if st.inFlight = false ∨ st.generation ≠ generation then c
    else
      { c with
        state := update c.state key
          (some { st with inFlight := false, nextPollTime := now }) }

def forget (c : CapacityPoller K α) (map : M) : CapacityPoller K α :=
  { c with state := fun key => if mapOf key = map then none else c.state key }

/-- A read: what has expired is dropped first. -/
def observation (c : CapacityPoller K α) (now : Int) (key : K) :
    CapacityPoller K α × Option α × CapacityReason :=
  match c.state key with
  | none => (c, none, .noReport)
  | some st =>
    let st := st.expire (config key).toCapacityConfig now
    ({ c with state := update c.state key (some st) }, st.reported, st.reason)

end CapacityPoller

end Ome.Placement.Routing
