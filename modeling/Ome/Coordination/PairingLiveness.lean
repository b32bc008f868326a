/-
# Ome.Coordination.PairingLiveness — the pair-floor gate never deadlocks

A transition has started, a pair serves and nothing is in flight.  Then some
start of either side is admitted.

A start that is not admitted is held short (by a floor or by the first-mover
rule) or would leave no pair.  If one of them is held short, the dead end chooses
a start that is held short and admits it.  It remains that every start would
leave no pair (`NoStartKeepsPair`), which `not_noStartKeepsPair` refutes: every
pair then rests on the one Instance of a side's only old cohort, and the picture
is a last hop of one of the sides or the one-by-one wall, where the two sides
cannot both be waiting for the other's surge.
-/
import Ome.Coordination.Pairing

namespace Ome.Coordination

open Ome.Theory

set_option autoImplicit false

/-- The call for one Instance of a known cohort, with nothing in flight. -/
def PairingCall.alone (side : Component) (proto : String) : PairingCall :=
  { component := side, fromProto := some proto }

namespace PairingPicture

variable (p : PairingPicture)
variable {side : Component} {proto : String}

/-! ## A call alone -/

theorem loss_alone (side : Component) (proto k : String) :
    loss (.alone side proto) k = if k = proto then 1 else 0 := by
  simp [loss, PairingCall.alone]

theorem charged_alone (serves : 0 < (p.serving side).get proto) :
    p.charged (.alone side proto) proto = (p.start side proto).simulate p.serving p.target := by
  have left : max 0 ((p.serving side).get proto - 1) = (p.serving side).get proto - 1 := by omega
  simp only [charged, loss_alone, CandidateStart.simulate, start]
  simp only [PairingCall.alone, serves, if_true, left, add_zero]

section

variable (admits : (p.judgeAlone (p.start side proto)).1 = .startAllowed ∨
  p.HeldShort (p.start side proto) ∧ (p.deadEndMover (p.start side proto)).isSome)
include admits

/-- A start that is allowed, or held short and the mover of the dead end, does not
end the loop with a refusal. -/
theorem conclude_alone {rest : PairingVerdict} (later : rest.allowed = true) :
    (p.conclude (.alone side proto) (p.start side proto) rest
      (p.judgeAlone (p.start side proto))).allowed = true := by
  unfold HeldShort at admits
  generalize p.judgeAlone (p.start side proto) = answer at admits ⊢
  obtain ⟨verdict, reason⟩ := answer
  have mover (short : verdict = .heldByFloor ∨ verdict = .heldAsFirstMover) :
      (p.heldVerdict (.alone side proto) (p.start side proto) reason).allowed = true := by
    rcases admits with rfl | ⟨_, chosen⟩
    · rcases short with impossible | impossible <;> cases impossible
    · obtain ⟨why, chosen⟩ := Option.isSome_iff_exists.mp chosen
      simp [heldVerdict, settled, PairingCall.alone, chosen]
  cases verdict with
  | startAllowed =>
    cases reason with
    | none => exact later
    | _ => rfl
  | heldByFloor => exact mover (.inl rfl)
  | heldAsFirstMover => exact mover (.inr rfl)
  | heldNoPair => rcases admits with impossible | ⟨impossible | impossible, _⟩ <;> cases impossible

/-- Visiting the cohorts admits it. -/
theorem visitCohorts_alone :
    ∀ cohorts : List String, (p.visitCohorts (.alone side proto) cohorts).allowed = true
  | [] => rfl
  | k :: rest => by
    have later := visitCohorts_alone rest
    rw [visitCohorts, loss_alone]
    split
    · exact later
    rename_i old
    by_cases leaves : k = proto
    · subst leaves
      have serves : 0 < (p.serving side).get k := not_le.mp (not_or.mp old).2
      have answer : p.judge (p.start side k) (p.charged (.alone side k) k) =
          p.judgeAlone (p.start side k) := by
        rw [p.charged_alone serves, judgeAlone]
      rw [if_neg (by simp)]
      change (p.conclude (.alone side k) (p.start side k) _
        (p.judge (p.start side k) (p.charged (.alone side k) k))).allowed = true
      rw [answer]
      exact p.conclude_alone admits later
    · rw [if_neg leaves, if_pos rfl]
      exact later

/-- A start whose cohort is known is admitted by `judge` or by the dead end. -/
theorem pairingVerdict_alone : (p.pairingVerdict (.alone side proto)).allowed = true := by
  unfold pairingVerdict pairingVerdictIn
  repeat' split
  all_goals first | rfl | exact p.visitCohorts_alone admits _

end

/-! ## The dead end -/

/-- When no start is allowed and one is held short, the dead end admits a start
that is held short. -/
theorem exists_deadEndMover (refused : ∀ c ∈ p.candidates, (p.judgeAlone c).1 ≠ .startAllowed)
    {c : CandidateStart} (member : c ∈ p.candidates) (short : p.HeldShort c) :
    ∃ mover ∈ p.candidates, p.HeldShort mover ∧ (p.deadEndMover mover).isSome := by
  obtain ⟨r, best, origin⟩ := p.bestHeld_exists p.candidates none refused (.inr ⟨c, member, short⟩)
  rcases origin with impossible | ⟨mover, listed, held, rfl⟩
  · cases impossible
  · refine ⟨mover, listed, held, ?_⟩
    simp [deadEndMover, best, rank]

/-! ## Pictures in which every start would leave no pair -/

/-- Every start either side could open is held because it would leave no pair. -/
def NoStartKeepsPair : Prop :=
  ∀ c ∈ p.candidates, (p.judgeAlone c).1 = .heldNoPair

theorem start_mem_candidates (pairing : side ∈ pairingComponents) (old : proto ≠ p.target)
    (serves : 0 < (p.serving side).get proto) : p.start side proto ∈ p.candidates :=
  (p.mem_candidates _).mpr ⟨side, pairing, proto, old, serves, rfl⟩

theorem heldNoPair_cases {c : CandidateStart} (held : (p.judgeAlone c).1 = .heldNoPair) :
    pairableServingPairExists (c.simulate p.serving p.target) = false ∧
      (mutualPairingWall p.serving c.side (pairingPeer c.side) p.target = true ∧
          p.surgeOfTheOtherSideKeepsThePair c = true ∨
        mutualPairingWall p.serving c.side (pairingPeer c.side) p.target = false ∧
          lastHopEscape p.serving c.side (pairingPeer c.side) p.target = false) := by
  have judged := p.judge_judged c (c.simulate p.serving p.target)
  rw [judgeAlone] at held
  revert judged held
  generalize p.judge c (c.simulate p.serving p.target) = answer
  intro held judged
  cases judged with
  | surgeWait noPair wall waits => exact ⟨noPair, .inl ⟨wall, waits⟩⟩
  | noPair noPair wall hop => exact ⟨noPair, .inr ⟨wall, hop⟩⟩
  | free _ | floor _ _ | firstMover _ _ | wall _ _ | lastHop _ _ => cases held

namespace NoStartKeepsPair

variable {p} (stuck : p.NoStartKeepsPair) (pairing : side ∈ pairingComponents)
  {mine theirs : String}

include stuck pairing

/-- Every pair rests on the last Instance of whatever old cohort the side has. -/
theorem rests_on {k : String} (old : k ≠ p.target) (serves : 0 < (p.serving side).get k)
    (pair : PairsAt p.serving side mine theirs) : k = mine ∧ (p.serving side).get mine = 1 := by
  have held := stuck _ (p.start_mem_candidates pairing old serves)
  have broken := (p.heldNoPair_cases held).1
  have survives := (p.start side k).simulate_keeps_pair p.serving p.target pairing
    (mechanicsOf_credit _) pair
  have last : ¬ (mine = k → 2 ≤ (p.serving side).get mine) := by
    intro spare
    rw [survives spare] at broken
    cases broken
  have same : mine = k := by
    by_contra ne
    exact last (fun same => absurd same ne)
  refine ⟨same.symm, ?_⟩
  have least := pair.mine_serves
  omega

section

variable (old : mine ≠ p.target) (pair : PairsAt p.serving side mine theirs)
include old pair

/-- A side with an old cohort in a pair has one Instance, if none on the target. -/
theorem total_eq_one
    (fresh : ¬ 0 < (p.serving side).get p.target) : totalServing (p.serving side) = 1 := by
  have others (k : String) (ne : k ∉ [mine]) : (p.serving side).get k = 0 := by
    have idle : ¬ 0 < (p.serving side).get k := by
      intro serves
      by_cases old' : k = p.target
      · exact fresh (old' ▸ serves)
      · exact ne (List.mem_singleton.mpr (stuck.rests_on pairing old' serves pair).1)
    exact le_antisymm (not_lt.mp idle) (p.counts side k)
  have sole := (stuck.rests_on pairing old pair.mine_serves pair).2
  rw [totalServing, GoMap.total, GoMap.sum_map_eq_of_vanish (p.serving side).nodup
    (List.nodup_singleton mine) (fun k absent => GoMap.get_int_absent _ absent) others]
  simpa using sole

/-- The target does not serve on both sides of a pair that has an old cohort. -/
theorem not_both_on_target (fresh : 0 < (p.serving side).get p.target) :
    ¬ 0 < (p.serving (pairingPeer side)).get p.target := by
  intro peerFresh
  exact old (stuck.rests_on pairing old pair.mine_serves
    ⟨fresh, peerFresh, pairable_self p.target⟩).1

/-- No last hop is open to a side with an old cohort in a pair. -/
theorem not_lastHop (fresh : ¬ 0 < (p.serving side).get p.target) :
    ¬ 0 < (p.serving (pairingPeer side)).get p.target := by
  intro peerFresh
  have held := stuck _ (p.start_mem_candidates pairing old pair.mine_serves)
  have one := stuck.total_eq_one pairing old pair fresh
  rcases (p.heldNoPair_cases held).2 with ⟨wall, _⟩ | ⟨_, hop⟩
  · simp [start, mutualPairingWall, peerFresh] at wall
  · simp [start, lastHopEscape, peerFresh, one] at hop

/-- At the one-by-one wall a held side takes its pod out at once and the other
side keeps its pod. -/
theorem waits_for_surge
    (wall : mutualPairingWall p.serving side (pairingPeer side) p.target = true) :
    (p.mechanics side).leavesRotationNow = true ∧
      (p.mechanics (pairingPeer side)).leavesRotationNow = false := by
  have held := stuck _ (p.start_mem_candidates pairing old pair.mine_serves)
  rcases (p.heldNoPair_cases held).2 with ⟨_, waits⟩ | ⟨noWall, _⟩
  · simp only [surgeOfTheOtherSideKeepsThePair, start, Bool.and_eq_true, Bool.not_eq_true'] at waits
    exact ⟨waits.1.1.2, waits.2⟩
  · exact absurd (wall.symm.trans noWall) (by decide)

end

theorem not_old_pair (pair : PairsAt p.serving side mine theirs) (old : mine ≠ p.target) :
    False := by
  have peerPairing := pairingPeer_mem side
  have flipped := pair.flip pairing
  have back := pairingPeer_pairingPeer pairing
  by_cases fresh : 0 < (p.serving side).get p.target
  · -- The peer is on its old cohort alone, so its own last hop is open.
    have peerFresh := stuck.not_both_on_target pairing old pair fresh
    have peerOld : theirs ≠ p.target := fun same => peerFresh (same ▸ pair.theirs_serves)
    have hop := stuck.not_lastHop peerPairing peerOld flipped peerFresh
    rw [back] at hop
    exact hop fresh
  · have peerFresh := stuck.not_lastHop pairing old pair fresh
    have peerOld : theirs ≠ p.target := fun same => peerFresh (same ▸ pair.theirs_serves)
    have one := stuck.total_eq_one pairing old pair fresh
    have peerOne := stuck.total_eq_one peerPairing peerOld flipped peerFresh
    have wall : mutualPairingWall p.serving side (pairingPeer side) p.target = true := by
      simp [mutualPairingWall, fresh, peerFresh, one, peerOne]
    have peerWall : mutualPairingWall p.serving (pairingPeer side)
        (pairingPeer (pairingPeer side)) p.target = true := by
      simp [back, mutualPairingWall, fresh, peerFresh, one, peerOne]
    have mineLeaves := (stuck.waits_for_surge pairing old pair wall).1
    have mineStays := (stuck.waits_for_surge peerPairing peerOld flipped peerWall).2
    rw [back, mineLeaves] at mineStays
    cases mineStays

end NoStartKeepsPair

theorem exists_old_of_transition (moving : p.transition = true) :
    ∃ side ∈ pairingComponents, ∃ proto, proto ≠ p.target ∧ 0 < (p.serving side).get proto := by
  simp only [transition, List.any_eq_true, Bool.and_eq_true, decide_eq_true_eq] at moving
  obtain ⟨side, pairing, proto, _, ⟨serves, _⟩, old⟩ := moving
  exact ⟨side, pairing, proto, old, serves⟩

theorem not_noStartKeepsPair (pair : pairableServingPairExists p.serving = true)
    (moving : p.transition = true) : ¬ p.NoStartKeepsPair := by
  intro stuck
  obtain ⟨side, pairing, proto, old, serves⟩ := p.exists_old_of_transition moving
  obtain ⟨mine, theirs, found⟩ := (pairExists_iff p.serving pairing).mp pair
  -- The pair rests on the old cohort that is still serving.
  have same := (stuck.rests_on pairing old serves found).1
  exact stuck.not_old_pair pairing found (same ▸ old)

/-- **The pairing gate never deadlocks.**  While a pair serves and some Instance is
still on another non-empty protocol, with nothing in flight, some start of either
side is admitted, by `judge` or as the mover of the dead end. -/
theorem pairing_gate_never_deadlocks (pair : pairableServingPairExists p.serving = true)
    (moving : p.transition = true) :
    ∃ side ∈ pairingComponents, ∃ proto, proto ≠ p.target ∧ 0 < (p.serving side).get proto ∧
      (p.pairingVerdict (.alone side proto)).allowed = true ∧
      ((p.judgeAlone (p.start side proto)).1 = .startAllowed ∨
        (p.deadEndMover (p.start side proto)).isSome) := by
  have admitted : ∃ c ∈ p.candidates, (p.judgeAlone c).1 = .startAllowed ∨
      p.HeldShort c ∧ (p.deadEndMover c).isSome := by
    by_cases allowed : ∃ c ∈ p.candidates, (p.judgeAlone c).1 = .startAllowed
    · obtain ⟨c, member, free⟩ := allowed
      exact ⟨c, member, .inl free⟩
    have refused (c : CandidateStart) (member : c ∈ p.candidates) :
        (p.judgeAlone c).1 ≠ .startAllowed := fun free => allowed ⟨c, member, free⟩
    by_cases short : ∃ c ∈ p.candidates, p.HeldShort c
    · obtain ⟨c, member, held⟩ := short
      obtain ⟨mover, listed, chosen⟩ := p.exists_deadEndMover refused member held
      exact ⟨mover, listed, .inr chosen⟩
    · refine absurd ?_ (p.not_noStartKeepsPair pair moving)
      intro c member
      have held := fun h => short ⟨c, member, h⟩
      cases answer : (p.judgeAlone c).1 with
      | startAllowed => exact absurd answer (refused c member)
      | heldByFloor => exact absurd (.inl answer) held
      | heldAsFirstMover => exact absurd (.inr answer) held
      | heldNoPair => rfl
  obtain ⟨c, member, how⟩ := admitted
  obtain ⟨side, pairing, proto, old, serves, rfl⟩ := (p.mem_candidates c).mp member
  exact ⟨side, pairing, proto, old, serves, p.pairingVerdict_alone how, how.imp_right And.right⟩

/-- Two engines and two decoders of one old cohort that all drain first, with a
floor of two on both sides. -/
def floorsHoldAll : PairingPicture :=
  ofCohorts "new" (fun _ => ["old", "old"]) (fun _ => .recreatePod)
    (fun _ => { known := true, floor := 2 })

theorem floorsHoldAll_admits_one :
    pairableServingPairExists floorsHoldAll.serving = true ∧ floorsHoldAll.transition = true ∧
      ∃ side ∈ pairingComponents, ∃ proto, proto ≠ "new" ∧
        0 < (floorsHoldAll.serving side).get proto ∧
        (floorsHoldAll.pairingVerdict (.alone side proto)).allowed = true ∧
        ((floorsHoldAll.judgeAlone (floorsHoldAll.start side proto)).1 = .startAllowed ∨
          (floorsHoldAll.deadEndMover (floorsHoldAll.start side proto)).isSome) :=
  ⟨by decide, by decide, floorsHoldAll.pairing_gate_never_deadlocks (by decide) (by decide)⟩

end PairingPicture

end Ome.Coordination
