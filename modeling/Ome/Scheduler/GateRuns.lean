/-
# Ome.Scheduler.GateRuns — the gate is all or nothing for each attempt

What a commitment has left to place and the `Reserve` calls that carried its id add up to
at least the reservation it was made with (`Sound.live`), so a commitment with nothing
left has seen as many calls as it reserved members.  Only such a commitment opens the
gate, and every callback acts on the commitment its id owns or on none.
-/
import Ome.Scheduler.AssignmentBooks
import Ome.Scheduler.Gate
import Ome.Theory.Runs

namespace Ome.Scheduler

open Ome.Theory GoMap Outcome List

set_option autoImplicit false

variable {group k : String} {id : Nat} {more : List Outcome} {a : AssignmentState}
variable {gang : String}

/-! ## What a call does to the live commitments -/

namespace DomainAssignments

variable {p : DomainAssignments}

/-- The gang's commitment was there and is unchanged. -/
def Keeps (p p' : DomainAssignments) (k : String) : Prop :=
  k ∈ p.byGroup.keys ∧ p'.byGroup.get k = p.byGroup.get k

/-- The call made the gang's commitment, for so many members. -/
def Makes (p : DomainAssignments) (call : Call) (gang : Gang) (size : Int) (k : String) : Prop :=
  k = gang.group ∧ ((p.step call).byGroup.get k).remaining = size ∧
    p.created call = some ((p.step call).byGroup.get k).id

theorem live_commit {c : Commitment} {remaining : Int}
    (live : k ∈ (p.commit group c remaining).byGroup.keys) :
    p.Keeps (p.commit group c remaining) k ∨
      k = group ∧ (p.commit group c remaining).byGroup.get k = c.withRemaining remaining := by
  rw [byGroup_commit, mem_keys_set] at live
  rw [Keeps, byGroup_commit]
  by_cases same : k = group
  · rw [same]
    exact Or.inr ⟨rfl, get_set_self _ _ _⟩
  · exact Or.inl ⟨live.resolve_right same, get_set_ne _ _ same⟩

theorem live_choose {gang : Gang} {free : GoMap String Int}
    {nodesByDomain : GoMap String (List String)} {size : Int}
    (live : k ∈ (p.step (.choose gang free nodesByDomain size)).byGroup.keys) :
    p.Keeps (p.step (.choose gang free nodesByDomain size)) k ∨
      p.Makes (.choose gang free nodesByDomain size) gang size k := by
  have shape : p.step (.choose gang free nodesByDomain size) =
    (p.choose gang free nodesByDomain size).1 := rfl
  have makes : p.created (.choose gang free nodesByDomain size) =
    if gang.group ∈ p.byGroup.keys then none
    else (p.choose gang free nodesByDomain size).2.map (·.2) := rfl
  rw [Makes, makes]
  rw [shape] at live ⊢
  rcases choose_cases p gang free nodesByDomain size with ⟨same, _⟩ | ⟨absent, d, fit, made⟩
  · rw [same] at live ⊢
    exact Or.inl ⟨live, rfl⟩
  · rw [made] at live ⊢
    obtain ⟨positive, _⟩ := bestFit_eq_some fit
    rcases live_commit live with before | ⟨rfl, here⟩
    · exact Or.inl before
    · refine Or.inr ⟨rfl, ?_, ?_⟩
      · rw [here]
        exact max_eq_right positive.le
      · rw [if_neg absent, here]
        rfl

theorem live_set {gang : Gang} {domain : String} {remaining : Int} {nodes : List String}
    (live : k ∈ (p.step (.set gang domain remaining nodes)).byGroup.keys) :
    p.Keeps (p.step (.set gang domain remaining nodes)) k ∨
      p.Makes (.set gang domain remaining nodes) gang (max 0 remaining) k := by
  by_cases same : k = gang.group
  · subst same
    refine Or.inr ⟨rfl, ?_, ?_⟩
    · show (((p.giveUp gang.group).byGroup.set gang.group _).get gang.group).remaining = _
      rw [get_set_self]
      exact max_eq_right (le_max_left 0 remaining)
    · show some ((p.giveUp gang.group).nextID + 1) =
        some (((p.giveUp gang.group).byGroup.set gang.group _).get gang.group).id
      rw [get_set_self]
      rfl
  · left
    rcases live_commit live with ⟨before, kept⟩ | ⟨here, _⟩
    · have through : p.Keeps (p.giveUp gang.group) k := by
        by_cases member : gang.group ∈ p.byGroup.keys
        · rw [giveUp_of_mem member] at before
          rw [Keeps, giveUp_of_mem member]
          exact ⟨((mem_keys_set _ _ _ _).mp before).resolve_right same,
            get_set_ne _ _ same⟩
        · rw [giveUp, if_neg member] at before
          exact ⟨before, by rw [giveUp, if_neg member]⟩
      exact ⟨through.1, kept.trans through.2⟩
    · exact absurd here same

/-- A placed member takes one from the commitment that its id owns, and changes nothing
else. -/
theorem live_place (live : k ∈ (p.place group id).1.byGroup.keys) :
    k ∈ p.byGroup.keys ∧
      ((p.place group id).1.byGroup.get k = p.byGroup.get k ∨
        p.Owns group id ∧ k = group ∧ ((p.place group id).1.byGroup.get k).id = id ∧
          ((p.place group id).1.byGroup.get k).remaining = (p.byGroup.get k).remaining - 1) := by
  unfold place at live ⊢
  split at live
  · rename_i owns
    rw [if_pos owns]
    by_cases same : k = group
    · subst same
      refine ⟨owns.1.1, Or.inr ⟨owns.1, rfl, ?_⟩⟩
      show ((p.byGroup.set k _).get k).id = id ∧ ((p.byGroup.set k _).get k).remaining = _
      rw [get_set_self]
      exact ⟨owns.1.2, max_eq_right (by omega)⟩
    · exact ⟨((mem_keys_set _ _ _ _).mp live).resolve_right same,
        Or.inl (get_set_ne _ _ same)⟩
  · rename_i notOwner
    rw [if_neg notOwner]
    exact ⟨live, Or.inl rfl⟩

theorem live_release (live : k ∈ (p.release group id).1.byGroup.keys) :
    p.Keeps (p.release group id).1 k := by
  unfold release at live ⊢
  split at live
  · rename_i owns
    rw [if_pos owns]
    obtain ⟨member, other⟩ := (mem_keys_erase _ _ _).mp live
    refine ⟨member, ?_⟩
    show (p.byGroup.erase group).get k = _
    rw [get_erase, if_neg other]
  · rename_i notOwner
    rw [if_neg notOwner]
    exact ⟨live, rfl⟩

end DomainAssignments

/-! ## The invariant -/

/-- The gang's commitment has seen as many `Reserve` calls as it reserved members. -/
def Complete (log : List Outcome) (gang : String) (id : Nat) : Prop :=
  ∃ reservation : Int, .created gang id reservation ∈ log ∧
    reservation ≤ log.count (.reserved gang id)

/-- The outcome lets a member of the gang through under this commitment. -/
def Outcome.Opens (o : Outcome) (gang : String) (id : Nat) : Prop :=
  ∃ pod, o = .proceeded pod gang id ∨ o = .allowed pod gang id

/-- What holds after every run. -/
structure Sound (gangOf : String → Option String) (s : Logged) : Prop where
  /-- The ids in the log were handed out. -/
  ids : ∀ gang id reservation, .created gang id reservation ∈ s.log →
    0 < id ∧ id ≤ s.plugin.assignments.nextID
  /-- An id belongs to one gang. -/
  unique : ∀ gang other id r r', .created gang id r ∈ s.log → .created other id r' ∈ s.log →
    gang = other
  /-- What is left to place and the calls seen cover the reservation. -/
  live : ∀ gang ∈ s.plugin.assignments.byGroup.keys, ∃ reservation : Int,
    .created gang (s.plugin.assignments.byGroup.get gang).id reservation ∈ s.log ∧
      reservation ≤ (s.plugin.assignments.byGroup.get gang).remaining +
        s.log.count (.reserved gang (s.plugin.assignments.byGroup.get gang).id)
  /-- Only complete commitments open the gate. -/
  opening : ∀ gate ∈ s.plugin.opening, Complete s.log gate.1 gate.2
  /-- The gate has only been opened for complete commitments. -/
  opened : ∀ before o after gang id, s.log = before ++ o :: after → o.Opens gang id →
    Complete before gang id
  /-- A pod remembers a commitment of its own gang. -/
  attempts : ∀ pod, s.plugin.attemptFor pod ≠ 0 → ∃ gang reservation, gangOf pod = some gang ∧
    .created gang (s.plugin.attemptFor pod) reservation ∈ s.log

variable {gangOf : String → Option String} {s : Logged}

theorem Complete.mono {log : List Outcome}
    (complete : Complete log gang id) : Complete (log ++ more) gang id := by
  obtain ⟨reservation, made, seen⟩ := complete
  refine ⟨reservation, mem_append_left _ made, seen.trans ?_⟩
  rw [count_append]
  omega

theorem sound_start : Sound gangOf Logged.start := by
  constructor
  · nofun
  · nofun
  · nofun
  · nofun
  · intro before o after gang id shape
    simp [Logged.start] at shape
  · intro pod some
    exact absurd rfl some

/-- Outcomes that are appended to the log open only complete gates. -/
theorem Sound.opened_append (sound : Sound gangOf s)
    (complete : ∀ o ∈ more, ∀ gang id, o.Opens gang id → Complete s.log gang id)
    {before after : List Outcome} {o : Outcome}
    (shape : s.log ++ more = before ++ o :: after) (opens : o.Opens gang id) :
    Complete before gang id := by
  rcases append_eq_append_iff.mp shape with ⟨mid, isBefore, isMore⟩ | ⟨mid, isLog, isRest⟩
  · rw [isBefore]
    exact (complete o (by simp [isMore]) gang id opens).mono
  · cases mid with
    | nil =>
      rw [append_nil] at isLog
      rw [nil_append] at isRest
      rw [← isLog]
      exact complete o (by rw [← isRest]; simp) gang id opens
    | cons first rest =>
      obtain ⟨rfl, rfl⟩ := List.cons.inj isRest
      exact sound.opened before o rest gang id isLog opens

/-! ## Every step keeps it -/

/-- A new commitment has an id of its own and everything still to reserve. -/
theorem Sound.commit (sound : Sound gangOf s) (gang : Gang) {call : Call} {reservation : Int}
    (live : ∀ k ∈ (s.plugin.assignments.step call).byGroup.keys,
      s.plugin.assignments.Keeps (s.plugin.assignments.step call) k ∨
        s.plugin.assignments.Makes call gang reservation k) :
    Sound gangOf (s.commit gang call reservation) := by
  obtain ⟨takes, grows⟩ := DomainAssignments.nextID_step s.plugin.assignments call
  have logged (o : Outcome) (member : o ∈ (s.commit gang call reservation).log) :
      o ∈ s.log ∨ ∃ id, s.plugin.assignments.created call = some id ∧
        o = .created gang.group id reservation := by
    simpa [Logged.commit, eq_comm] using member
  constructor
  · intro k id r member
    rcases logged _ member with earlier | ⟨new, made, same⟩
    · obtain ⟨positive, bound⟩ := sound.ids k id r earlier
      exact ⟨positive, bound.trans grows⟩
    · obtain ⟨rfl, rfl, rfl⟩ := created.inj same
      obtain ⟨isNext, after⟩ := takes id made
      exact ⟨by omega, after.ge⟩
  · intro k other id r r' first second
    -- the new id is above every id in the log
    have fresh (name : String) (x : Int) (old : .created name id x ∈ s.log)
        (made : s.plugin.assignments.created call = some id) : False := by
      have bound := (sound.ids name id x old).2
      have isNext := (takes id made).1
      omega
    rcases logged _ first with old | ⟨new, made, same⟩
    · rcases logged _ second with old' | ⟨new, made, same⟩
      · exact sound.unique k other id r r' old old'
      · obtain ⟨rfl, rfl, rfl⟩ := created.inj same
        exact (fresh k r old made).elim
    · obtain ⟨rfl, rfl, rfl⟩ := created.inj same
      rcases logged _ second with old' | ⟨_, _, same'⟩
      · exact (fresh other r' old' made).elim
      · exact (created.inj same').1.symm
  · intro k member
    rcases live k member with ⟨before, same⟩ | ⟨rfl, left, made⟩
    · obtain ⟨r, isMade, covered⟩ := sound.live k before
      rw [show (s.commit gang call reservation).plugin.assignments.byGroup.get k =
        s.plugin.assignments.byGroup.get k from same]
      refine ⟨r, mem_append_left _ isMade, ?_⟩
      show r ≤ _ + ((s.log ++ _).count _ : Int)
      rw [count_append]
      omega
    · refine ⟨reservation, ?_, ?_⟩
      · show _ ∈ s.log ++ ((s.plugin.assignments.created call).map _).toList
        rw [made]
        simp [Logged.commit]
      · show reservation ≤ ((s.plugin.assignments.step call).byGroup.get gang.group).remaining + _
        omega
  · intro gate member
    exact (sound.opening gate member).mono
  · intro before o after k id shape opens
    refine sound.opened_append ?_ shape opens
    intro o' member k' id' ⟨pod, opens'⟩
    simp only [Option.mem_toList, Option.map_eq_some_iff] at member
    obtain ⟨id, _, rfl⟩ := member
    simp at opens'
  · intro pod remembered
    obtain ⟨k, r, isMember, made⟩ := sound.attempts pod remembered
    exact ⟨k, r, isMember, mem_append_left _ made⟩

/-- A step that makes no commitment.  A commitment with one less to place has a `Reserve`
call in the log for it. -/
theorem Sound.quiet (sound : Sound gangOf s) {s' : Logged}
    (log : s'.log = s.log ++ more)
    (noneMade : ∀ gang id reservation, .created gang id reservation ∉ more)
    (nextID : s'.plugin.assignments.nextID = s.plugin.assignments.nextID)
    (live : ∀ gang ∈ s'.plugin.assignments.byGroup.keys,
      gang ∈ s.plugin.assignments.byGroup.keys ∧
        (s'.plugin.assignments.byGroup.get gang = s.plugin.assignments.byGroup.get gang ∨
          (s'.plugin.assignments.byGroup.get gang).id =
              (s.plugin.assignments.byGroup.get gang).id ∧
            (s'.plugin.assignments.byGroup.get gang).remaining =
              (s.plugin.assignments.byGroup.get gang).remaining - 1 ∧
            .reserved gang (s.plugin.assignments.byGroup.get gang).id ∈ more))
    (opening : ∀ gate ∈ s'.plugin.opening,
      gate ∈ s.plugin.opening ∨ Complete s.log gate.1 gate.2)
    (opens : ∀ o ∈ more, ∀ gang id, o.Opens gang id → Complete s.log gang id)
    (attempts : ∀ pod, s'.plugin.attemptFor pod = s.plugin.attemptFor pod ∨
      s'.plugin.attemptFor pod = 0 ∨ ∃ gang reservation, gangOf pod = some gang ∧
        .created gang (s'.plugin.attemptFor pod) reservation ∈ s.log) :
    Sound gangOf s' := by
  have earlier {gang : String} {id : Nat} {r : Int}
      (member : .created gang id r ∈ s'.log) : .created gang id r ∈ s.log := by
    rw [log] at member
    exact (mem_append.mp member).resolve_right (noneMade gang id r)
  constructor
  · intro gang id r member
    rw [nextID]
    exact sound.ids gang id r (earlier member)
  · intro gang other id r r' first second
    exact sound.unique gang other id r r' (earlier first) (earlier second)
  · intro gang member
    rw [log]
    obtain ⟨before, same | ⟨id, left, seen⟩⟩ := live gang member
    · obtain ⟨r, made, covered⟩ := sound.live gang before
      rw [same]
      refine ⟨r, mem_append_left _ made, ?_⟩
      rw [count_append]
      omega
    · obtain ⟨r, made, covered⟩ := sound.live gang before
      -- one less to place, and its Reserve call is in the log
      have one := count_pos_iff.mpr seen
      rw [id]
      refine ⟨r, mem_append_left _ made, ?_⟩
      rw [count_append]
      omega
  · intro gate member
    rw [log]
    exact ((opening gate member).elim (sound.opening gate) id).mono
  · intro before o after gang id shape isOpening
    exact sound.opened_append opens (log.symm.trans shape) isOpening
  · intro pod remembered
    rw [log]
    rcases attempts pod with same | none | ⟨gang, r, member, made⟩
    · rw [same] at remembered ⊢
      obtain ⟨gang, r, member, made⟩ := sound.attempts pod remembered
      exact ⟨gang, r, member, mem_append_left _ made⟩
    · exact absurd none remembered
    · exact ⟨gang, r, member, mem_append_left _ made⟩

theorem Sound.complete_of_committed (sound : Sound gangOf s)
    (committed : s.plugin.assignments.committed gang id = true) : Complete s.log gang id := by
  obtain ⟨⟨member, rfl⟩, none⟩ := of_decide_eq_true committed
  obtain ⟨r, made, covered⟩ := sound.live gang member
  exact ⟨r, made, by omega⟩

namespace GangPack

variable {g : GangPack}

theorem attemptFor_rememberAttempt (pod other : String) (token : Nat) :
    (g.rememberAttempt pod token).attemptFor other = g.attemptFor other ∨
      other = pod ∧ (g.rememberAttempt pod token).attemptFor other = token := by
  unfold rememberAttempt attemptFor
  split
  · exact Or.inl rfl
  · by_cases same : other = pod
    · exact Or.inr ⟨same, by rw [same]; exact get_set_self _ _ _⟩
    · exact Or.inl (get_set_ne _ _ same)

theorem attemptFor_forgetAttempt (pod other : String) (token : Nat) :
    (g.forgetAttempt pod token).attemptFor other = g.attemptFor other ∨
      other = pod ∧ g.attemptFor other = token ∧
        (g.forgetAttempt pod token).attemptFor other = 0 := by
  unfold forgetAttempt attemptFor
  split
  · rename_i current
    show (g.attemptByPod.erase pod).get other = _ ∨ _ ∧ _ ∧ (g.attemptByPod.erase pod).get other = 0
    rw [get_erase]
    by_cases same : other = pod
    · rw [if_pos same]
      exact Or.inr ⟨same, by rw [same]; exact current, rfl⟩
    · rw [if_neg same]
      exact Or.inl rfl
  · exact Or.inl rfl

/-- What `Permit` does for a gang member: it fails on a missing timeout, opens the gate for
a commitment with nothing left to place, and lets the member wait otherwise. -/
theorem permit_cases (g : GangPack) (gangOf : String → Option String) (a : AssignmentState)
    (pod : String) :
    g.permit gangOf (some a) pod = (g, .unschedulableAndUnresolvable) ∨
    (g.assignments.committed a.gang a.commitment = true ∧
      g.permit gangOf (some a) pod =
        ({ g with
            attemptByPod := (g.rememberAttempt pod a.commitment).attemptByPod
            opening := (a.gang, a.commitment) :: g.opening }, .success)) ∨
    g.assignments.committed a.gang a.commitment = false ∧
      g.permit gangOf (some a) pod =
        ({ g with
            attemptByPod := (g.rememberAttempt pod a.commitment).attemptByPod
            waiting := g.waiting.insert pod }, .wait) := by
  have same : g.rememberAttempt pod a.commitment =
      { g with attemptByPod := (g.rememberAttempt pod a.commitment).attemptByPod } := by
    unfold rememberAttempt
    split <;> rfl
  unfold permit
  by_cases noTimeout : a.timeout ≤ 0
  · exact Or.inl (if_pos noTimeout)
  · cases committed : g.assignments.committed a.gang a.commitment with
    | true =>
      refine Or.inr (Or.inl ⟨rfl, ?_⟩)
      simp only [if_neg noTimeout]
      rw [same]
      simp only [committed, if_true]
    | false =>
      refine Or.inr (Or.inr ⟨rfl, ?_⟩)
      simp only [if_neg noTimeout]
      rw [same]
      simp only [committed, Bool.false_eq_true, if_false]

theorem forgetAttempt_keeps (pod : String) (token : Nat) :
    (g.forgetAttempt pod token).assignments = g.assignments ∧
      (g.forgetAttempt pod token).waiting = g.waiting ∧
      (g.forgetAttempt pod token).opening = g.opening := by
  unfold forgetAttempt
  split <;> exact ⟨rfl, rfl, rfl⟩

end GangPack

namespace DomainAssignments

variable (p : DomainAssignments)

theorem nextID_place (group : String) (id : Nat) : (p.place group id).1.nextID = p.nextID := by
  unfold place
  split <;> rfl

theorem nextID_release (group : String) (id : Nat) : (p.release group id).1.nextID = p.nextID := by
  unfold release
  split <;> rfl

end DomainAssignments

open DomainAssignments GangPack

section

variable (sound : Sound gangOf s)
include sound

theorem Sound.reserve (a : AssignmentState) : Sound gangOf (s.reserve a) := by
  refine sound.quiet rfl (by simp) (nextID_place _ _ _) ?_ (fun _ => Or.inl) ?_
    fun _ => Or.inl rfl
  · intro gang member
    obtain ⟨before, same | ⟨owns, rfl, id, left⟩⟩ := live_place member
    · exact ⟨before, Or.inl same⟩
    · refine ⟨before, Or.inr ⟨id.trans owns.2.symm, left, ?_⟩⟩
      rw [owns.2]
      exact mem_singleton.mpr rfl
  · rintro o member gang id ⟨pod, opens | opens⟩
    · cases opens.symm.trans (mem_singleton.mp member)
    · cases opens.symm.trans (mem_singleton.mp member)

theorem Sound.permit {pod : String}
    (took : s.Took gangOf pod a) : Sound gangOf (s.permit gangOf a pod) := by
  have remembered (other : String) :
      (s.plugin.rememberAttempt pod a.commitment).attemptFor other = s.plugin.attemptFor other ∨
        (s.plugin.rememberAttempt pod a.commitment).attemptFor other = 0 ∨
        ∃ gang reservation, gangOf other = some gang ∧ .created gang
          ((s.plugin.rememberAttempt pod a.commitment).attemptFor other) reservation ∈ s.log := by
    rcases attemptFor_rememberAttempt (g := s.plugin) pod other a.commitment with same | ⟨rfl, now⟩
    · exact Or.inl same
    · obtain ⟨isMember, reservation, made⟩ := took
      rw [now]
      exact Or.inr (Or.inr ⟨a.gang, reservation, isMember, made⟩)
  unfold Logged.permit
  rcases permit_cases s.plugin gangOf a pod with same | ⟨committed, same⟩ | ⟨_, same⟩
  · rw [same]
    exact sound.quiet rfl (by simp) rfl (fun gang member => ⟨member, Or.inl rfl⟩)
      (fun _ => Or.inl) (by simp) fun _ => Or.inl rfl
  · have complete := sound.complete_of_committed committed
    rw [same]
    refine sound.quiet rfl (by simp) rfl (fun gang member => ⟨member, Or.inl rfl⟩) ?_ ?_ remembered
    · intro gate member
      rcases mem_cons.mp member with rfl | earlier
      · exact Or.inr complete
      · exact Or.inl earlier
    · rintro o member gang id ⟨other, opens | opens⟩
      · rw [if_pos rfl, mem_singleton, opens] at member
        obtain ⟨_, rfl, rfl⟩ := proceeded.inj member
        exact complete
      · rw [if_pos rfl, mem_singleton, opens] at member
        cases member
  · rw [same]
    exact sound.quiet rfl (by simp) rfl (fun gang member => ⟨member, Or.inl rfl⟩)
      (fun _ => Or.inl) (by simp) remembered

theorem Sound.openGate
    (pending : (gang, id) ∈ s.plugin.opening) : Sound gangOf (s.openGate gangOf gang id) := by
  refine sound.quiet rfl (by simp) rfl (fun gang member => ⟨member, Or.inl rfl⟩)
    (fun gate member => Or.inl (mem_of_mem_erase member)) ?_ fun _ => Or.inl rfl
  rintro o member k j ⟨pod, opens⟩
  obtain ⟨w, _, rfl⟩ := mem_map.mp member
  rcases opens with opens | opens
  · cases opens
  · obtain ⟨_, rfl, rfl⟩ := allowed.inj opens
    exact sound.opening (gang, id) pending

theorem Sound.unreserve (a : AssignmentState) (pod : String) :
    Sound gangOf (s.unreserve gangOf a pod) := by
  have kept := forgetAttempt_keeps (g := { s.plugin with
    assignments := (s.plugin.assignments.release a.gang a.commitment).1 }) pod a.commitment
  refine sound.quiet rfl (by simp) ?_ ?_ ?_ ?_ ?_
  · exact (congrArg DomainAssignments.nextID kept.1).trans (nextID_release _ _ _)
  · intro gang member
    have shape : (s.unreserve gangOf a pod).plugin.assignments =
      (s.plugin.assignments.release a.gang a.commitment).1 := kept.1
    rw [shape] at member ⊢
    obtain ⟨before, same⟩ := live_release member
    exact ⟨before, Or.inl same⟩
  · intro gate member
    exact Or.inl (kept.2.2 ▸ member)
  · rintro o member gang id ⟨other, opens⟩
    obtain ⟨w, _, rfl⟩ := mem_map.mp member
    rcases opens with opens | opens
    · cases opens
    · cases opens
  · intro other
    rcases attemptFor_forgetAttempt (g := { s.plugin with
      assignments := (s.plugin.assignments.release a.gang a.commitment).1 }) pod other
        a.commitment with same | ⟨_, _, none⟩
    · exact Or.inl same
    · exact Or.inr (Or.inl none)

theorem Sound.move {s' : Logged} (move : GateMove gangOf s s') : Sound gangOf s' := by
  cases move with
  | choose gang free nodesByDomain size => exact sound.commit gang fun k live => live_choose live
  | set gang domain remaining nodes => exact sound.commit gang fun k live => live_set live
  | reserve pod a took => exact sound.reserve a
  | permit pod a took => exact sound.permit took
  | openGate gang id pending => exact sound.openGate pending
  | unreserve pod a took => exact sound.unreserve a pod
  | replan gang id =>
    refine sound.quiet (append_nil _).symm (by simp) (nextID_release _ _ _) ?_
      (fun _ => Or.inl) (by simp) fun _ => Or.inl rfl
    intro k member
    obtain ⟨before, same⟩ := live_release member
    exact ⟨before, Or.inl same⟩
  | leave pod =>
    exact sound.quiet (append_nil _).symm (by simp) rfl
      (fun gang member => ⟨member, Or.inl rfl⟩) (fun _ => Or.inl) (by simp) fun _ => Or.inl rfl

end

/-! ## All or nothing -/

/-- A callback whose id owns the commitment releases it, and rejects who waits under it. -/
theorem unreserve_of_owner (gangOf : String → Option String)
    (owns : s.plugin.assignments.Owns a.gang a.commitment) (pod : String) :
    (s.plugin.unreserve gangOf (some a) pod).2 =
        (true, s.plugin.waitingAttempt gangOf a.gang a.commitment) ∧
      (s.plugin.unreserve gangOf (some a) pod).1.assignments.byGroup =
        s.plugin.assignments.byGroup.erase a.gang := by
  have released : (s.plugin.assignments.release a.gang a.commitment).2 = true ∧
      (s.plugin.assignments.release a.gang a.commitment).1.byGroup =
        s.plugin.assignments.byGroup.erase a.gang := by
    unfold release
    rw [if_pos owns]
    exact ⟨rfl, rfl⟩
  have kept := forgetAttempt_keeps (g := { s.plugin with
    assignments := (s.plugin.assignments.release a.gang a.commitment).1 }) pod a.commitment
  constructor
  · show ((s.plugin.assignments.release a.gang a.commitment).2,
      if (s.plugin.assignments.release a.gang a.commitment).2 = true then _ else []) = _
    rw [released.1, if_pos rfl]
  · exact (congrArg DomainAssignments.byGroup kept.1).trans released.2

/-- A callback whose id does not own the commitment only forgets its own attempt. -/
theorem unreserve_of_other
    (other : ¬ s.plugin.assignments.Owns a.gang a.commitment) (pod : String) :
    s.plugin.unreserve gangOf (some a) pod =
      (s.plugin.forgetAttempt pod a.commitment, false, []) := by
  have released : s.plugin.assignments.release a.gang a.commitment =
    (s.plugin.assignments, false) := if_neg other
  unfold GangPack.unreserve releaseAttempt
  simp only [released]
  rfl

/-- A member whose id does not own the commitment is not let through, and its callback
only adds it to those that wait. -/
theorem permit_of_other (gangOf : String → Option String)
    (other : ¬ s.plugin.assignments.Owns a.gang a.commitment) (pod : String) :
    (s.plugin.permit gangOf (some a) pod).2 ≠ .success ∧
      (s.plugin.permit gangOf (some a) pod).1.assignments = s.plugin.assignments ∧
      (s.plugin.permit gangOf (some a) pod).1.opening = s.plugin.opening ∧
      (∀ w ∈ s.plugin.waiting, w ∈ (s.plugin.permit gangOf (some a) pod).1.waiting) ∧
      ∀ w, w ≠ pod →
        (s.plugin.permit gangOf (some a) pod).1.attemptFor w = s.plugin.attemptFor w := by
  rcases permit_cases s.plugin gangOf a pod with same | ⟨committed, _⟩ | ⟨_, same⟩
  · rw [same]
    exact ⟨nofun, rfl, rfl, fun _ waits => waits, fun _ _ => rfl⟩
  · simp [DomainAssignments.committed, other] at committed
  · rw [same]
    refine ⟨nofun, rfl, rfl, fun w waits => by simp [waits], fun w apart => ?_⟩
    exact (attemptFor_rememberAttempt (g := s.plugin) pod w a.commitment).resolve_right
      fun isPod => apart isPod.1

theorem Sound.mem_waitingAttempt (sound : Sound gangOf s)
    {reservation : Int} (made : .created gang id reservation ∈ s.log) (w : String) :
    w ∈ s.plugin.waitingAttempt gangOf gang id ↔
      w ∈ s.plugin.waiting ∧ s.plugin.attemptFor w = id := by
  unfold waitingAttempt
  simp only [mem_filter, decide_eq_true_eq]
  constructor
  · rintro ⟨waits, _, attempt⟩
    exact ⟨waits, attempt⟩
  · rintro ⟨waits, rfl⟩
    have positive := (sound.ids gang _ reservation made).1
    obtain ⟨own, r, isMember, made'⟩ := sound.attempts w (by omega)
    rw [isMember, sound.unique own gang _ r reservation made' made]
    exact ⟨waits, rfl, rfl⟩

/-- **The gang gate is all or nothing for each attempt.**  After any run: every member that
was let through went under a commitment for which there had been as many `Reserve` calls
as it reserved members; a callback that releases a commitment rejects exactly the
members waiting under it; and a callback of an older attempt leaves the store, the gate
and the memory of every other pod as they are. -/
theorem gang_gate_all_or_nothing (gangOf : String → Option String) (s : Logged)
    (run : Relation.ReflTransGen (GateMove gangOf) Logged.start s) :
    (∀ before o after pod gang id, s.log = before ++ o :: after →
      o = .proceeded pod gang id ∨ o = .allowed pod gang id →
        ∃ reservation : Int, .created gang id reservation ∈ before ∧
          reservation ≤ before.count (.reserved gang id)) ∧
    (∀ pod a, s.Took gangOf pod a →
      let after := s.plugin.unreserve gangOf (some a) pod
      (after.2.1 = true ↔ s.plugin.assignments.Owns a.gang a.commitment) ∧
      (after.2.1 = true →
        a.gang ∉ after.1.assignments.byGroup.keys ∧
        ∀ w, w ∈ after.2.2 ↔ w ∈ s.plugin.waiting ∧ s.plugin.attemptFor w = a.commitment) ∧
      (after.2.1 = false → after.2.2 = [])) ∧
    (∀ pod a newer, s.Took gangOf pod a → s.plugin.assignments.Owns a.gang newer →
      a.commitment < newer →
        s.plugin.reserve (some a) = s.plugin ∧
        (s.plugin.permit gangOf (some a) pod).2 ≠ .success ∧
        (s.plugin.permit gangOf (some a) pod).1.assignments = s.plugin.assignments ∧
        (s.plugin.permit gangOf (some a) pod).1.opening = s.plugin.opening ∧
        (∀ w ∈ s.plugin.waiting, w ∈ (s.plugin.permit gangOf (some a) pod).1.waiting) ∧
        (∀ w, w ≠ pod → (s.plugin.permit gangOf (some a) pod).1.attemptFor w =
          s.plugin.attemptFor w) ∧
        (s.plugin.unreserve gangOf (some a) pod).2 = (false, []) ∧
        (s.plugin.unreserve gangOf (some a) pod).1.assignments = s.plugin.assignments ∧
        (s.plugin.unreserve gangOf (some a) pod).1.opening = s.plugin.opening ∧
        (s.plugin.unreserve gangOf (some a) pod).1.waiting = s.plugin.waiting ∧
        ∀ w, s.plugin.attemptFor w = newer →
          (s.plugin.unreserve gangOf (some a) pod).1.attemptFor w = newer) := by
  have sound : Sound gangOf s :=
    Runs.invariant_of_run (fun _ _ sound move => sound.move move) run sound_start
  refine ⟨?_, ?_, ?_⟩
  · intro before o after pod gang id shape opens
    exact sound.opened before o after gang id shape ⟨pod, opens⟩
  · intro pod a took
    obtain ⟨_, reservation, made⟩ := took
    by_cases owns : s.plugin.assignments.Owns a.gang a.commitment
    · obtain ⟨answer, dropped⟩ := unreserve_of_owner gangOf owns pod
      simp only [answer, dropped]
      refine ⟨by simp [owns], fun _ => ⟨by simp, fun w => ?_⟩, by simp⟩
      exact sound.mem_waitingAttempt made w
    · simp [unreserve_of_other owns, owns]
  · intro pod a newer took owns older
    -- the gang has a newer commitment, so the callback owns nothing
    have stale : ¬ s.plugin.assignments.Owns a.gang a.commitment := by
      rintro ⟨_, same⟩
      have isNewer := owns.2
      omega
    have noDrain : s.plugin.assignments.place a.gang a.commitment =
        (s.plugin.assignments, false, false) := if_neg fun both => stale both.1
    have kept := forgetAttempt_keeps (g := s.plugin) pod a.commitment
    rw [unreserve_of_other stale]
    obtain ⟨notLet, sameStore, sameGate, stillWait, sameMemory⟩ :=
      permit_of_other gangOf stale pod
    refine ⟨?_, notLet, sameStore, sameGate, stillWait, sameMemory, rfl, kept.1, kept.2.2,
      kept.2.1, ?_⟩
    · show { s.plugin with assignments := (s.plugin.assignments.place a.gang a.commitment).1 } = _
      rw [noDrain]
    · intro w attempt
      rcases attemptFor_forgetAttempt (g := s.plugin) pod w a.commitment with same | ⟨_, old, _⟩
      · exact same.trans attempt
      · omega

/-- A gang of two over one domain: the first member waits, the second is let through. -/
def twoMembers : Logged :=
  let started := Logged.start.set ⟨"a", "u", "rack"⟩ "r" 2 ["n", "m"]
  let a : AssignmentState := ⟨"a", 60, 1⟩
  let first := (started.reserve a).permit (fun _ => some "a") a "p"
  (first.reserve a).permit (fun _ => some "a") a "q"

/-- Both members are reserved before the second goes through. -/
theorem twoMembers_waited :
    twoMembers.log = [.created "a" 1 2, .reserved "a" 1, .reserved "a" 1, .proceeded "q" "a" 1] ∧
      ∃ reservation : Int, .created "a" 1 reservation ∈ twoMembers.log.take 3 ∧
        reservation ≤ (twoMembers.log.take 3).count (.reserved "a" 1) := by
  let a : AssignmentState := ⟨"a", 60, 1⟩
  have run : Relation.ReflTransGen (GateMove fun _ => some "a") Logged.start twoMembers := by
    refine .tail (.tail (.tail (.tail (.single (.set _ _ _ _ _)) (.reserve _ "p" a ?_))
      (.permit _ "p" a ?_)) (.reserve _ "q" a ?_)) (.permit _ "q" a ?_)
    all_goals exact ⟨rfl, 2, by decide⟩
  have log : twoMembers.log =
    [.created "a" 1 2, .reserved "a" 1, .reserved "a" 1, .proceeded "q" "a" 1] := by decide
  refine ⟨log, ?_⟩
  exact (gang_gate_all_or_nothing (fun _ => some "a") twoMembers run).1
    (twoMembers.log.take 3) _ [] "q" "a" 1 (by rw [log]; rfl) (Or.inl rfl)

end Ome.Scheduler
