/-
# Ome.Scheduler.AssignmentBooks — the books of the assignment store balance

After any calls the two indexes of the store are the sums over its live commitments
(`Books`): `reserved` of what they have left to place on a domain, `reservedNodes` of how
many of them hold a node.  A domain or node at zero is therefore free, so a commitment
that `choose` makes is apart from every other one with an outstanding reservation.
-/
import Ome.Scheduler.Assignments
import Ome.Theory.Loops

namespace Ome.Scheduler

open Ome.Theory GoMap List

set_option autoImplicit false

variable {c : Commitment} {free : GoMap String Int} {size : Int} {d : String}

/-! ## What a commitment weighs -/

/-- What a commitment has left to place on a domain. -/
def onDomain (d : Domain) (c : Commitment) : Int := if c.domain = d then c.remaining else 0

/-- Whether a commitment with an outstanding reservation holds a node. -/
def onNode (n : String) (c : Commitment) : Int := if 0 < c.remaining ∧ n ∈ c.nodes then 1 else 0

theorem onDomain_nonneg (d : Domain) (c : Commitment) : 0 ≤ onDomain d c := by
  unfold onDomain
  split
  · exact c.nonneg
  · exact le_refl 0

theorem onNode_nonneg (n : String) (c : Commitment) : 0 ≤ onNode n c := by
  unfold onNode
  split <;> decide

theorem onDomain_of_none (none : c.remaining = 0) (d : Domain) : onDomain d c = 0 := by
  simp [onDomain, none]

theorem onNode_of_none (none : c.remaining = 0) (n : String) : onNode n c = 0 := by
  simp [onNode, none]

namespace DomainAssignments

variable {p : DomainAssignments}
variable {group : String} {nodesByDomain : GoMap String (List String)}

/-- **The books balance**: each index is the sum over the live commitments. -/
structure Books (p : DomainAssignments) : Prop where
  domains : Balanced onDomain p.byGroup p.reserved
  nodes : Balanced onNode p.byGroup p.reservedNodes

theorem books_new : Books new := ⟨fun _ => rfl, fun _ => rfl⟩

/-! ## One reservation changes -/

/-- A change of one reservation is booked in both indexes, as long as they hold what the
commitment weighs. -/
theorem get_setRemaining (remaining : Int) (domains : ∀ d, onDomain d c ≤ p.reserved.get d)
    (nodes : ∀ n, onNode n c ≤ p.reservedNodes.get n) :
    (∀ d, (p.setRemaining c remaining).1.reserved.get d =
      p.reserved.get d - onDomain d c + onDomain d (c.withRemaining remaining)) ∧
    ∀ n, (p.setRemaining c remaining).1.reservedNodes.get n =
      p.reservedNodes.get n - onNode n c + onNode n (c.withRemaining remaining) := by
  have after := (c.withRemaining remaining).nonneg
  constructor
  · intro d
    have enough := domains d
    show (p.reserved.bump c.domain ((c.withRemaining remaining).remaining - c.remaining)).get d = _
    have sameDomain : (c.withRemaining remaining).domain = c.domain := rfl
    rw [get_bump]
    by_cases here : d = c.domain
    · subst here
      simp only [onDomain, if_true, sameDomain] at enough ⊢
      omega
    · simp [onDomain, here, Ne.symm here, sameDomain]
  · intro n
    have enough := nodes n
    have sameNodes : (c.withRemaining remaining).nodes = c.nodes := rfl
    show (if 0 < c.remaining ↔ 0 < (c.withRemaining remaining).remaining then p.reservedNodes
      else c.nodes.foldl (fun index node => index.bump node
        (if 0 < (c.withRemaining remaining).remaining then 1 else -1)) p.reservedNodes).get n = _
    unfold onNode at enough ⊢
    rw [sameNodes]
    by_cases kept : 0 < c.remaining ↔ 0 < (c.withRemaining remaining).remaining
    · rw [if_pos kept]
      simp only [← kept]
      omega
    · rw [if_neg kept, get_foldl_each (fun _ v => max 0 (v + _))
        (fun index x y => get_bump index x y _) n c.distinct]
      by_cases member : n ∈ c.nodes
      · by_cases was : 0 < c.remaining
        · have willNot : ¬ 0 < (c.withRemaining remaining).remaining := fun will =>
            kept ⟨fun _ => will, fun _ => was⟩
          simp only [member, was, willNot, and_true, if_true, if_false] at enough ⊢
          omega
        · have will : 0 < (c.withRemaining remaining).remaining := by
            by_contra willNot
            exact kept ⟨fun h => absurd h was, fun h => absurd h willNot⟩
          simp only [member, was, will, and_true, if_true, if_false] at enough ⊢
          omega
      · simp [member]

theorem Books.commit (books : Books p)
    (none : c.remaining = 0) (remaining : Int)
    (domainFree : ∀ d, p.byGroup.held (onDomain d) group = 0)
    (nodeFree : ∀ n, p.byGroup.held (onNode n) group = 0) :
    Books (p.commit group c remaining) := by
  obtain ⟨domains, nodes⟩ := get_setRemaining (p := { p with nextID := p.nextID + 1 }) remaining
    (fun d => (onDomain_of_none none d).trans_le (books.domains.index_nonneg onDomain_nonneg d))
    (fun n => (onNode_of_none none n).trans_le (books.nodes.index_nonneg onNode_nonneg n))
  constructor
  · intro d
    show (({ p with nextID := p.nextID + 1 } : DomainAssignments).setRemaining c
      remaining).1.reserved.get d = (p.byGroup.set group (c.withRemaining remaining)).weigh _
    rw [domains, weigh_set, domainFree, onDomain_of_none none]
    show p.reserved.get d - 0 + _ = _
    rw [books.domains d]
  · intro n
    show (({ p with nextID := p.nextID + 1 } : DomainAssignments).setRemaining c
      remaining).1.reservedNodes.get n = (p.byGroup.set group (c.withRemaining remaining)).weigh _
    rw [nodes, weigh_set, nodeFree, onNode_of_none none]
    show p.reservedNodes.get n - 0 + _ = _
    rw [books.nodes n]

section Held

variable (books : Books p) (member : group ∈ p.byGroup.keys)

include books member

theorem Books.get_setRemaining_held (remaining : Int) :
    (∀ d, (p.setRemaining (p.byGroup.get group) remaining).1.reserved.get d =
      p.byGroup.weigh (onDomain d) - p.byGroup.held (onDomain d) group +
        onDomain d ((p.byGroup.get group).withRemaining remaining)) ∧
    ∀ n, (p.setRemaining (p.byGroup.get group) remaining).1.reservedNodes.get n =
      p.byGroup.weigh (onNode n) - p.byGroup.held (onNode n) group +
        onNode n ((p.byGroup.get group).withRemaining remaining) := by
  obtain ⟨domains, nodes⟩ := get_setRemaining remaining
    (fun d => books.domains.weight_le onDomain_nonneg member d)
    (fun n => books.nodes.weight_le onNode_nonneg member n)
  refine ⟨fun d => ?_, fun n => ?_⟩
  · rw [domains d, books.domains d, held, if_pos member]
  · rw [nodes n, books.nodes n, held, if_pos member]

theorem Books.replace (remaining : Int) :
    Books { (p.setRemaining (p.byGroup.get group) remaining).1 with
      byGroup := p.byGroup.set group ((p.byGroup.get group).withRemaining remaining) } := by
  obtain ⟨domains, nodes⟩ := books.get_setRemaining_held member remaining
  constructor
  · intro d
    rw [weigh_set]
    exact domains d
  · intro n
    rw [weigh_set]
    exact nodes n

theorem Books.drop :
    Books (({ p with byGroup := p.byGroup.erase group } : DomainAssignments).setRemaining
      (p.byGroup.get group) 0).1 := by
  obtain ⟨domains, nodes⟩ := books.get_setRemaining_held member 0
  have none : ((p.byGroup.get group).withRemaining 0).remaining = 0 := rfl
  constructor
  · intro d
    show _ = (p.byGroup.erase group).weigh (onDomain d)
    rw [weigh_erase]
    exact (domains d).trans (by rw [onDomain_of_none none, add_zero])
  · intro n
    show _ = (p.byGroup.erase group).weigh (onNode n)
    rw [weigh_erase]
    exact (nodes n).trans (by rw [onNode_of_none none, add_zero])

end Held

/-! ## Every call keeps the books -/

theorem held_of_absent {f : Commitment → Int}
    (absent : group ∉ p.byGroup.keys) : p.byGroup.held f group = 0 :=
  if_neg absent

theorem giveUp_of_mem (member : group ∈ p.byGroup.keys) :
    p.giveUp group =
      { (p.setRemaining (p.byGroup.get group) 0).1 with
        byGroup := p.byGroup.set group ((p.byGroup.get group).withRemaining 0) } :=
  if_pos member

/-- A commitment that gave up its reservation weighs nothing. -/
theorem books_giveUp (books : Books p) (group : String) :
    Books (p.giveUp group) ∧
      (∀ d, (p.giveUp group).byGroup.held (onDomain d) group = 0) ∧
      ∀ n, (p.giveUp group).byGroup.held (onNode n) group = 0 := by
  by_cases member : group ∈ p.byGroup.keys
  · rw [giveUp_of_mem member]
    have none : ((p.byGroup.get group).withRemaining 0).remaining = 0 := rfl
    refine ⟨books.replace member 0, fun d => ?_, fun n => ?_⟩
    · simp [held, onDomain_of_none none]
    · simp [held, onNode_of_none none]
  · rw [giveUp, if_neg member]
    exact ⟨books, fun _ => held_of_absent member, fun _ => held_of_absent member⟩

/-- The commitment that `choose` makes for a gang in a domain. -/
def chosen (p : DomainAssignments) (gang : Gang) (free : GoMap String Int)
    (nodesByDomain : GoMap String (List String)) (size : Int) (d : String) : Commitment :=
  Commitment.fresh ⟨gang.topologyKey, d⟩ gang.owner (p.nextID + 1) (nodesByDomain.get d)
    (fittingDomains (p.effective gang free nodesByDomain) size < 2)

/-- What `choose` can do: answer from the commitment there is, or commit to the best
fit. -/
theorem choose_cases (p : DomainAssignments) (gang : Gang) (free : GoMap String Int)
    (nodesByDomain : GoMap String (List String)) (size : Int) :
    ((p.choose gang free nodesByDomain size).1 = p ∧
      (gang.group ∈ p.byGroup.keys ∨ (p.choose gang free nodesByDomain size).2 = none)) ∨
    gang.group ∉ p.byGroup.keys ∧
      ∃ d, bestFit (p.effective gang free nodesByDomain) size = some d ∧
        p.choose gang free nodesByDomain size =
          (p.commit gang.group (p.chosen gang free nodesByDomain size d) size,
            some (d, p.nextID + 1)) := by
  unfold DomainAssignments.choose
  by_cases member : gang.group ∈ p.byGroup.keys
  · left
    rw [if_pos member]
    refine ⟨?_, Or.inl member⟩
    show (if (p.byGroup.get gang.group).owner ≠ gang.owner then _ else _ :
      DomainAssignments × Option (String × Nat)).1 = p
    split <;> rfl
  · rw [if_neg member]
    cases fit : bestFit (p.effective gang free nodesByDomain) size with
    | none =>
      left
      simp only [fit]
      exact ⟨trivial, Or.inr trivial⟩
    | some d =>
      right
      refine ⟨member, d, rfl, ?_⟩
      simp only [fit]
      rfl

theorem Books.step (books : Books p) (call : Call) : Books (p.step call) := by
  cases call with
  | choose gang free nodesByDomain size =>
    show Books (p.choose gang free nodesByDomain size).1
    rcases choose_cases p gang free nodesByDomain size with ⟨same, _⟩ | ⟨absent, d, _, made⟩
    · rw [same]
      exact books
    · rw [made]
      exact books.commit rfl size (fun _ => held_of_absent absent) fun _ => held_of_absent absent
  | set gang domain remaining nodes =>
    obtain ⟨after, domainFree, nodeFree⟩ := books_giveUp books gang.group
    exact after.commit rfl (max 0 remaining) domainFree nodeFree
  | place group id =>
    show Books (p.place group id).1
    unfold place
    split
    · rename_i owns
      exact books.replace owns.1.1 _
    · exact books
  | release group id =>
    show Books (p.release group id).1
    unfold release
    split
    · rename_i owns
      exact books.drop owns.1
    · exact books

theorem books_run (calls : List Call) : Books (run calls) :=
  foldlRecOn calls _ books_new fun _ books call _ => books.step call

/-! ## Ids -/

theorem byGroup_commit (p : DomainAssignments) (group : String) (c : Commitment) (remaining : Int) :
    (p.commit group c remaining).byGroup = p.byGroup.set group (c.withRemaining remaining) := rfl

@[simp] theorem nextID_commit (p : DomainAssignments) (group : String) (c : Commitment)
    (remaining : Int) : (p.commit group c remaining).nextID = p.nextID + 1 := by
  rfl

theorem nextID_giveUp (p : DomainAssignments) (group : String) :
    (p.giveUp group).nextID = p.nextID := by
  unfold giveUp
  split <;> rfl

/-- A call that creates a commitment takes the next id, and no call takes one back. -/
theorem nextID_step (p : DomainAssignments) (call : Call) :
    (∀ id, p.created call = some id → id = p.nextID + 1 ∧ (p.step call).nextID = id) ∧
      p.nextID ≤ (p.step call).nextID := by
  cases call with
  | choose gang free nodesByDomain size =>
    show (∀ id, (if gang.group ∈ p.byGroup.keys then none
      else (p.choose gang free nodesByDomain size).2.map (·.2)) = some id → _ ∧
        (p.choose gang free nodesByDomain size).1.nextID = id) ∧
      p.nextID ≤ (p.choose gang free nodesByDomain size).1.nextID
    rcases choose_cases p gang free nodesByDomain size with
      ⟨same, member | none⟩ | ⟨absent, d, _, made⟩
    · rw [same, if_pos member]
      exact ⟨by simp, le_refl _⟩
    · rw [same, none]
      exact ⟨by simp, le_refl _⟩
    · rw [made, if_neg absent]
      simp [eq_comm]
  | set gang domain remaining nodes =>
    have next : ((p.giveUp gang.group).nextID + 1) = p.nextID + 1 := by rw [nextID_giveUp]
    refine ⟨?_, ?_⟩
    · rintro id made
      obtain rfl : (p.giveUp gang.group).nextID + 1 = id := Option.some.inj made
      exact ⟨next, rfl⟩
    · show p.nextID ≤ (p.giveUp gang.group).nextID + 1
      omega
  | place group id =>
    refine ⟨by simp [created], ?_⟩
    show p.nextID ≤ (p.place group id).1.nextID
    unfold place
    split <;> exact le_refl _
  | release group id =>
    refine ⟨by simp [created], ?_⟩
    show p.nextID ≤ (p.release group id).1.nextID
    unfold release
    split <;> exact le_refl _

/-- The ids that some calls hand out are new and ascend. -/
theorem createdIds_ascend (p : DomainAssignments) (calls : List Call) :
    (∀ id ∈ p.createdIds calls, p.nextID < id) ∧ (p.createdIds calls).Pairwise (· < ·) := by
  induction calls generalizing p with
  | nil => simp [createdIds]
  | cons call calls ih =>
    obtain ⟨later, ascend⟩ := ih (p.step call)
    obtain ⟨takes, grows⟩ := nextID_step p call
    unfold createdIds
    cases made : p.created call with
    | none =>
      exact ⟨fun id member => grows.trans_lt (later id (by simpa using member)),
        by simpa using ascend⟩
    | some id =>
      obtain ⟨isNext, after⟩ := takes id made
      rw [after] at later
      simp only [Option.toList_some, singleton_append, mem_cons,
        pairwise_cons, forall_eq_or_imp]
      refine ⟨⟨by omega, fun other member => ?_⟩, later, ascend⟩
      have above := later other member
      omega

/-! ## Exclusive nodes -/

/-- The commitments share neither a domain nor a node. -/
def Apart (a b : Commitment) : Prop := a.domain ≠ b.domain ∧ ∀ n ∈ a.nodes, n ∉ b.nodes

theorem bestFit_eq_some (fit : bestFit free size = some d) : 0 < size ∧ size ≤ free.get d := by
  unfold bestFit at fit
  split at fit
  · cases fit
  · rename_i positive
    refine ⟨not_le.mp positive, ?_⟩
    -- Every domain that the loop keeps has room.
    have kept : let best := free.sortedKeys.foldl (betterFit free size) ("", 0)
        best.1 = "" ∨ size ≤ free.get best.1 := by
      apply foldl_along (fun _ (best : String × Int) => best.1 = "" ∨ size ≤ free.get best.1)
        (Or.inl rfl)
      intro done e rest best _ holds
      unfold betterFit
      split
      · exact holds
      · rename_i room
        split
        · exact Or.inr (not_lt.mp room)
        · exact holds
    simp only at fit
    split at fit
    · cases fit
    · rename_i named
      rw [← Option.some.inj fit]
      exact kept.resolve_left named

theorem free_of_bestFit {gang : Gang}
    (fit : bestFit (p.effective gang free nodesByDomain) size = some d) :
    p.reserved.get ⟨gang.topologyKey, d⟩ ≤ 0 ∧
      ∀ n ∈ nodesByDomain.get d, p.reservedNodes.get n ≤ 0 := by
  obtain ⟨positive, room⟩ := bestFit_eq_some fit
  rw [effective, get_foldl_set fun d => if 0 < p.reserved.get ⟨gang.topologyKey, d⟩ ∨
    ∃ node ∈ nodesByDomain.get d, 0 < p.reservedNodes.get node then 0 else free.get d] at room
  have zero : (empty : GoMap String Int).get d = 0 := rfl
  split at room
  · split at room
    · omega
    · rename_i free
      push Not at free
      exact free
  · omega

/-- **A commitment that `choose` makes is apart from every outstanding one.** -/
theorem apart_of_chosen (books : Books p) {gang : Gang}
    (fit : bestFit (p.effective gang free nodesByDomain) size = some d) {k : String}
    (member : k ∈ p.byGroup.keys) (outstanding : 0 < (p.byGroup.get k).remaining) :
    Apart (p.chosen gang free nodesByDomain size d) (p.byGroup.get k) := by
  obtain ⟨domainFree, nodesFree⟩ := free_of_bestFit fit
  constructor
  · intro same
    have weightless := books.domains.weightless onDomain_nonneg domainFree member
    have none : (p.byGroup.get k).remaining = 0 := (if_pos same.symm).symm.trans weightless
    omega
  · intro n inside again
    have listed : n ∈ nodesByDomain.get d :=
      mem_of_mem_filter (mem_dedup.mp inside)
    have weightless := books.nodes.weightless onNode_nonneg (nodesFree n listed) member
    rw [onNode, if_pos ⟨outstanding, again⟩] at weightless
    cases weightless

/-- Any two commitments with an outstanding reservation are apart. -/
def Exclusive (p : DomainAssignments) : Prop :=
  ∀ j ∈ p.byGroup.keys, ∀ k ∈ p.byGroup.keys, j ≠ k → 0 < (p.byGroup.get j).remaining →
    0 < (p.byGroup.get k).remaining → Apart (p.byGroup.get j) (p.byGroup.get k)

theorem Apart.symm {a b : Commitment} (apart : Apart a b) : Apart b a :=
  ⟨apart.1.symm, fun n second first => apart.2 n first second⟩

theorem Exclusive.set (exclusive : Exclusive p)
    (apart : 0 < c.remaining → ∀ k ∈ p.byGroup.keys, k ≠ group →
      0 < (p.byGroup.get k).remaining → Apart c (p.byGroup.get k))
    {q : DomainAssignments} (same : q.byGroup = p.byGroup.set group c) : Exclusive q := by
  intro j jMember k kMember other jOut kOut
  rw [same] at *
  rw [mem_keys_set] at jMember kMember
  by_cases isJ : j = group
  · subst isJ
    have notK : k ≠ j := Ne.symm other
    rw [get_set_self] at jOut ⊢
    rw [get_set_ne _ _ notK] at kOut ⊢
    exact apart jOut k (kMember.resolve_right notK) notK kOut
  · rw [get_set_ne _ _ isJ] at jOut ⊢
    by_cases isK : k = group
    · subst isK
      rw [get_set_self] at kOut ⊢
      exact (apart kOut j (jMember.resolve_right isJ) isJ jOut).symm
    · rw [get_set_ne _ _ isK] at kOut ⊢
      exact exclusive j (jMember.resolve_right isJ) k (kMember.resolve_right isK) other jOut kOut

theorem Exclusive.step (exclusive : Exclusive p) (books : Books p) {call : Call}
    (notSet : call.NotSet) : Exclusive (p.step call) := by
  cases call with
  | choose gang free nodesByDomain size =>
    show Exclusive (p.choose gang free nodesByDomain size).1
    rcases choose_cases p gang free nodesByDomain size with ⟨same, _⟩ | ⟨absent, d, fit, made⟩
    · rw [same]
      exact exclusive
    · rw [made]
      exact exclusive.set (c := (p.chosen gang free nodesByDomain size d).withRemaining size)
        (fun _ k member _ out => apart_of_chosen books fit member out) rfl
  | set gang domain remaining nodes => exact notSet.elim
  | place group id =>
    show Exclusive (p.place group id).1
    unfold place
    split
    · rename_i owns
      refine exclusive.set (fun _ k member other out => ?_) rfl
      exact exclusive group owns.1.1 k member (Ne.symm other) owns.2 out
    · exact exclusive
  | release group id =>
    show Exclusive (p.release group id).1
    unfold release
    split
    · intro j jMember k kMember other jOut kOut
      have get {i : String} (member : i ∈ (p.byGroup.erase group).keys) :
          (p.byGroup.erase group).get i = p.byGroup.get i := by
        rw [get_erase, if_neg ((mem_keys_erase _ _ _).mp member).2]
      have inside {i : String} (member : i ∈ (p.byGroup.erase group).keys) :
          i ∈ p.byGroup.keys := ((mem_keys_erase _ _ _).mp member).1
      have apart := exclusive j (inside jMember) k (inside kMember) other
      rw [← get jMember, ← get kMember] at apart
      exact apart jOut kOut
    · exact exclusive

theorem exclusive_run {calls : List Call} (noSet : ∀ call ∈ calls, call.NotSet) :
    Exclusive (run calls) := by
  have kept : Books (run calls) ∧ Exclusive (run calls) := by
    refine foldlRecOn (motive := fun p => Books p ∧ Exclusive p) calls _
      ⟨books_new, nofun⟩ ?_
    rintro p ⟨books, exclusive⟩ call member
    exact ⟨books.step call, exclusive.step books (noSet call member)⟩
  exact kept.2

end DomainAssignments

open DomainAssignments

/-- **A forming gang owns its nodes, and the books balance.**  After any calls: the
reservation of a domain is the sum over its live commitments, that of a node the number
of outstanding commitments that hold it; ids only grow; a call with an id that does not
own the commitment changes nothing; a commitment that `choose` creates is apart from
every other outstanding one; and without `set` all outstanding ones stay apart. -/
theorem assignment_books_balance (calls : List Call) :
    (∀ d, (run calls).reserved.get d =
      ((run calls).byGroup.keys.map fun group =>
        let c := (run calls).byGroup.get group
        if c.domain = d then c.remaining else 0).sum) ∧
    (∀ n, (run calls).reservedNodes.get n =
      ((run calls).byGroup.keys.filter fun group =>
        let c := (run calls).byGroup.get group
        0 < c.remaining ∧ n ∈ c.nodes).length) ∧
    (new.createdIds calls).Pairwise (· < ·) ∧
    (∀ group id, ¬ (run calls).Owns group id →
      ((run calls).place group id).1 = run calls ∧ ((run calls).release group id).1 = run calls) ∧
    (∀ gang free nodesByDomain size d id, gang.group ∉ (run calls).byGroup.keys →
      ((run calls).choose gang free nodesByDomain size).2 = some (d, id) →
      let after := ((run calls).choose gang free nodesByDomain size).1
      gang.group ∈ after.byGroup.keys ∧ (after.byGroup.get gang.group).id = id ∧
        ∀ other ∈ after.byGroup.keys, other ≠ gang.group →
          0 < (after.byGroup.get other).remaining →
            Apart (after.byGroup.get gang.group) (after.byGroup.get other)) ∧
    ((∀ call ∈ calls, call.NotSet) → Exclusive (run calls)) := by
  have books := books_run calls
  refine ⟨books.domains, ?_, (createdIds_ascend new calls).2, ?_, ?_, fun noSet =>
    exclusive_run noSet⟩
  · intro n
    exact (books.nodes n).trans
      (weigh_indicator (fun c : Commitment => 0 < c.remaining ∧ n ∈ c.nodes) _)
  · intro group id notOwner
    unfold place release
    rw [if_neg notOwner, if_neg fun both => notOwner both.1]
    exact ⟨rfl, rfl⟩
  · intro gang free nodesByDomain size d id absent made
    -- choose answers for a gang it knows, refuses, or commits
    rcases choose_cases (run calls) gang free nodesByDomain size with
      ⟨_, member | none⟩ | ⟨_, e, fit, answer⟩
    · exact absurd member absent
    · rw [none] at made
      cases made
    · rw [answer] at made ⊢
      obtain ⟨rfl, rfl⟩ : e = d ∧ (run calls).nextID + 1 = id := by simpa using made
      simp only [byGroup_commit, mem_keys_set, get_set_self]
      refine ⟨Or.inr trivial, rfl, ?_⟩
      intro other member isOther outstanding
      rw [get_set_ne _ _ isOther] at outstanding ⊢
      exact apart_of_chosen books fit (member.resolve_right isOther) outstanding

/-- Two gangs under different topology keys, over the same nodes. -/
def crossedKeys : List Call :=
  [.choose ⟨"a", "u", "rack"⟩ (ofList [("r", 2)]) (ofList [("r", ["n", "m"])]) 2,
    .place "a" 1,
    .choose ⟨"b", "v", "zone"⟩ (ofList [("z", 4)]) (ofList [("z", ["m", "o"])]) 1]

/-- The second gang waits until the first one is placed. -/
theorem crossedKeys_exclusive :
    (run crossedKeys).byGroup.keys = ["a"] ∧ Exclusive (run crossedKeys) :=
  ⟨by decide, (assignment_books_balance crossedKeys).2.2.2.2.2 (by simp [crossedKeys, Call.NotSet])⟩

end Ome.Scheduler
