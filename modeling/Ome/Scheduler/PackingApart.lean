/-
# Ome.Scheduler.PackingApart — a gang whose members must stay apart

A required anti-affinity between members keeps them one to a node.  The plugin then counts
at most one place on each node, but for the unplaced members only and by resources and
node constraints: a node that already holds a sibling counts as room again.

* `apart_gang_stuck`: so a gang that could form may end with a member that is offered only
  nodes that hold a sibling.
* `apart_gang_completes`: that cannot happen if no node fits a second member beside a first
  (`Exclusive`) and no product wraps, or if the members fit the same nodes (`Alike`).  What
  carries the run is that the members left can be placed on empty nodes of their own (`Spread`).
-/
import Ome.Scheduler.Packing

namespace Ome.Scheduler

open Ome.Theory List

set_option autoImplicit false

variable {node : String}

variable {Pod : Type} {specs : Specs Pod} {nodes : DomainNodes}

/-! ## The corner -/

/-- The next member goes to a node that `candidates` offers it and that holds no member
yet. -/
inductive PacksApart (specs : Specs Pod) : Packing Pod → Packing Pod → Prop
  | put (s : Packing Pod) (current : Pod) (rest : List Pod) (node : String)
      (next : s.unplaced.Perm (current :: rest))
      (offered : node ∈ (newGangRoom specs s.nodes (current :: rest)
        (rest.length + 1)).candidates rest.length)
      (empty : node ∉ s.placed.map Prod.snd) :
      PacksApart specs s
        ⟨s.nodes.put specs node current, rest, s.placed ++ [(current, node)]⟩

/-- Three members, each keeping off every other: the first can go to one node only, the
second to the two others, the third to the first two. -/
def choosyTrio : Specs Nat where
  request _ := ⟨1000, 0, 0, GoMap.empty⟩
  placeable node pod :=
    match pod with
    | 0 => node = "n1"
    | 1 => node = "n2" ∨ node = "n3"
    | _ => node = "n1" ∨ node = "n2"
  antiAffinityTerms _ := some [fun _ => true]

def threeNodes : DomainNodes := ⟨["n1", "n2", "n3"], by decide, fun _ => fourCPUs⟩

/-- No node fits a second member beside a first. -/
def Exclusive (specs : Specs Pod) (nodes : DomainNodes) (pods : List Pod) : Prop :=
  ∀ node ∈ nodes.names, ∀ p ∈ pods, ∀ q ∈ pods, p ≠ q →
    nodeFitsPod specs nodes node p = true →
      nodeFitsPod specs (nodes.put specs node p) node q = false

/-- The members fit the same nodes. -/
def Alike (specs : Specs Pod) (nodes : DomainNodes) (pods : List Pod) : Prop :=
  ∀ node ∈ nodes.names, ∀ p ∈ pods, ∀ q ∈ pods,
    nodeFitsPod specs nodes node p = true → nodeFitsPod specs nodes node q = true

/-- The members that are left can be placed on nodes of their own that hold nobody yet; the
nodes are as they were, but for the one member each that went to some of them. -/
structure Spread (specs : Specs Pod) (nodes : DomainNodes) (pods : List Pod) (s : Packing Pod) :
    Prop where
  members : (s.placed.map Prod.fst ++ s.unplaced).Perm pods
  names : s.nodes.names = nodes.names
  untouched : ∀ node, node ∉ s.placed.map Prod.snd → s.nodes.info node = nodes.info node
  taken : ∀ p node, (p, node) ∈ s.placed → node ∈ nodes.names ∧
    nodeFitsPod specs nodes node p = true ∧
    s.nodes.info node = (nodes.put specs node p).info node
  apart : ∃ on : Pod → String,
    (∀ p ∈ s.unplaced, on p ∈ nodes.names ∧ on p ∉ s.placed.map Prod.snd ∧
      nodeFitsPod specs nodes (on p) p = true) ∧
    ∀ p ∈ s.unplaced, ∀ q ∈ s.unplaced, on p = on q → p = q

/-- The rest can be placed on nodes of their own, off this one, that hold nobody yet. -/
def PlaceableApart (specs : Specs Pod) (nodes : DomainNodes) (s : Packing Pod) (node : String)
    (rest : List Pod) : Prop :=
  ∃ on : Pod → String,
    (∀ p ∈ rest, on p ∈ nodes.names ∧ on p ∉ s.placed.map Prod.snd ∧ on p ≠ node ∧
      nodeFitsPod specs nodes (on p) p = true) ∧
    ∀ p ∈ rest, ∀ q ∈ rest, on p = on q → p = q

theorem nodeFitsPod_congr {nodes' : DomainNodes} (same : nodes'.info node = nodes.info node)
    (p : Pod) : nodeFitsPod specs nodes' node p = nodeFitsPod specs nodes node p := by
  unfold nodeFitsPod
  rw [same]

theorem two_le_countP {pods : List Pod} {on : Pod → String} {p q : Pod} (member : p ∈ pods)
    (member' : q ∈ pods) (differ : p ≠ q) (same : on p = on q) :
    2 ≤ pods.countP (on · = on p) := by
  rw [countP_eq_length_filter]
  have both : [p, q].Subperm (pods.filter (on · = on p)) := by
    apply subperm_of_subset (by simp [differ])
    intro r isOne
    rcases mem_pair.mp isOne with rfl | rfl
    · exact mem_filter.mpr ⟨member, decide_eq_true rfl⟩
    · exact mem_filter.mpr ⟨member', decide_eq_true same.symm⟩
  exact both.length_le

section Spread

variable {pods : List Pod} {s : Packing Pod}
variable {current : Pod} {rest : List Pod}

section

variable (spread : Spread specs nodes pods s)
include spread

/-- The next member has a candidate that holds nobody: the node that is kept for it. -/
theorem Spread.candidate [DecidableEq Pod]
    (distinct : pods.Nodup) {next : Pod} {others : List Pod}
    (left : s.unplaced.Perm (next :: others)) :
    ∃ node ∈ (newGangRoom specs s.nodes (next :: others) (others.length + 1)).candidates
      others.length, node ∉ s.placed.map Prod.snd := by
  obtain ⟨fresh, distinct'⟩ :=
    nodup_cons.mp (left.nodup_iff.mp (nodup_unplaced spread.members distinct))
  obtain ⟨on, kept, apart⟩ := spread.apart
  have mem : ∀ p ∈ next :: others, p ∈ s.unplaced := fun p => left.mem_iff.mpr
  have fits : ∀ p ∈ next :: others, nodeFitsPod specs s.nodes (on p) p = true := by
    intro p member
    obtain ⟨_, empty, fits⟩ := kept p (mem p member)
    rwa [nodeFitsPod_congr (spread.untouched _ empty)]
  have hasRoom : ∀ p ∈ next :: others,
      0 < (newGangRoom specs s.nodes (next :: others) (others.length + 1)).room (on p) :=
    fun p member => (room_pos_iff _).mpr ⟨p, member, fits p member⟩
  have isNext := mem_cons_self (a := next) (l := others)
  refine ⟨on next, (mem_candidates_iff distinct').mpr
    ⟨?_, fits next isNext, hasRoom next isNext, on, ?_, ?_, ?_⟩, (kept next (mem next isNext)).2.1⟩
  · rw [spread.names]
    exact (kept next (mem next isNext)).1
  · intro p member
    rw [spread.names]
    exact (kept p (mem p (mem_cons_of_mem next member))).1
  · exact fun p member => fits p (mem_cons_of_mem next member)
  · intro node _
    -- a node is kept for at most one of the others, and then not for the next member
    by_cases none : others.countP (on · = node) = 0
    · omega
    · obtain ⟨p, member, here⟩ := countP_pos_iff.mp (Nat.pos_of_ne_zero none)
      have here : on p = node := of_decide_eq_true here
      have single : others.countP (on · = node) ≤ 1 := by
        have unique : (others.map on).Nodup := distinct'.map_on fun a isMember b isMember' =>
          apart a (mem a (by simp [isMember])) b (mem b (by simp [isMember']))
        have count := nodup_iff_count_le_one.mp unique node
        rwa [List.count, countP_map] at count
      have isOther : node ≠ on next := by
        rintro rfl
        have same := apart p (mem p (by simp [member])) next (mem next isNext) here
        exact fresh (same ▸ member)
      rw [Function.update_of_ne isOther, ← here]
      have room := hasRoom p (mem_cons_of_mem next member)
      rw [here] at room ⊢
      omega

/-- A step keeps the gang spread if the members left over can be placed apart. -/
theorem Spread.put
    (next : s.unplaced.Perm (current :: rest)) (isNode : node ∈ nodes.names)
    (fits : nodeFitsPod specs nodes node current = true) (empty : node ∉ s.placed.map Prod.snd)
    (apart : PlaceableApart specs nodes s node rest) :
    Spread specs nodes pods
      ⟨s.nodes.put specs node current, rest, s.placed ++ [(current, node)]⟩ where
  members := by
    rw [map_append, append_assoc]
    exact (List.Perm.append_left _ next.symm).trans spread.members
  names := spread.names
  untouched other untouched := by
    simp only [map_append, mem_append, not_or, map_cons, map_nil,
      mem_singleton] at untouched
    exact (info_put_of_ne untouched.2).trans (spread.untouched other untouched.1)
  taken p other isPlaced := by
    rcases mem_append.mp isPlaced with early | isNew
    · obtain ⟨isOther, fits, info⟩ := spread.taken p other early
      have differ : other ≠ node := fun same =>
        empty (same ▸ mem_map_of_mem (f := Prod.snd) early)
      exact ⟨isOther, fits, (info_put_of_ne differ).trans info⟩
    · obtain ⟨rfl, rfl⟩ : p = current ∧ other = node := by simpa using isNew
      refine ⟨isNode, fits, ?_⟩
      rw [info_put_self, info_put_self, spread.untouched other empty]
  apart := by
    obtain ⟨on, kept, apart⟩ := apart
    refine ⟨on, fun p member => ?_, apart⟩
    obtain ⟨isOther, free, differ, fits⟩ := kept p member
    refine ⟨isOther, ?_, fits⟩
    simp [free, differ]

end

/-- A node with room for two of its members fits a second beside a first. -/
theorem Exclusive.not_room (exclusive : Exclusive specs nodes pods)
    (exact : NoWraps specs nodes pods) (spread : Spread specs nodes pods s) {unplaced : List Pod}
    (left : ∀ p ∈ unplaced, p ∈ s.unplaced) (need : Int) {p q : Pod}
    (isNode : node ∈ nodes.names) (empty : node ∉ s.placed.map Prod.snd) (member : p ∈ unplaced)
    (member' : q ∈ unplaced) (differ : p ≠ q)
    (fits : nodeFitsPod specs s.nodes node p = true)
    (fits' : nodeFitsPod specs s.nodes node q = true) :
    ¬ 2 ≤ (newGangRoom specs s.nodes unplaced need).room node := by
  intro room
  have same := spread.untouched node empty
  have listed : ∀ q ∈ unplaced, nodeFitsPod specs s.nodes node q = true →
      q ∈ pods ∧ nodeFitsPod specs nodes node q = true := fun q member fits =>
    ⟨mem_of_unplaced spread.members (left q member), nodeFitsPod_congr same q ▸ fits⟩
  have beside := fits_after_put need ((exact node isNode).of_le listed (by rw [same])) member
    member' fits fits' room
  have info : (s.nodes.put specs node p).info node = (nodes.put specs node p).info node := by
    rw [info_put_self, info_put_self, same]
  rw [nodeFitsPod_congr same] at fits
  rw [nodeFitsPod_congr info,
    exclusive node isNode p (mem_of_unplaced spread.members (left p member)) q
    (mem_of_unplaced spread.members (left q member')) differ fits] at beside
  cases beside

/-- Where no node fits two members, a place beside the current member is on a node of its
own that holds nobody. -/
theorem Exclusive.apart [DecidableEq Pod] (exclusive : Exclusive specs nodes pods)
    (exact : NoWraps specs nodes pods) (distinct : pods.Nodup) (spread : Spread specs nodes pods s)
    (next : s.unplaced.Perm (current :: rest))
    (offered : node ∈ (newGangRoom specs s.nodes (current :: rest)
      (rest.length + 1)).candidates rest.length) (empty : node ∉ s.placed.map Prod.snd) :
    PlaceableApart specs nodes s node rest := by
  have unique := spread.members.nodup_iff.mpr distinct
  obtain ⟨fresh, distinct'⟩ :=
    nodup_cons.mp (next.nodup_iff.mp (nodup_unplaced spread.members distinct))
  obtain ⟨isNode, suits, hasRoom, on, assigns⟩ := (mem_candidates_iff distinct').mp offered
  rw [spread.names] at isNode assigns
  have mem : ∀ p ∈ current :: rest, p ∈ s.unplaced := fun p => next.mem_iff.mpr
  -- a node that holds a sibling fits nobody else
  have free : ∀ p ∈ rest, on p ∉ s.placed.map Prod.snd := by
    intro p member isTaken
    obtain ⟨⟨holder, other⟩, isPlaced, same⟩ := mem_map.mp isTaken
    obtain rfl : other = on p := same
    obtain ⟨isOther, fits, info⟩ := spread.taken holder _ isPlaced
    have left := mem p (mem_cons_of_mem current member)
    have isHolder := mem_map_of_mem (f := Prod.fst) isPlaced
    have differ : holder ≠ p := (nodup_append.mp unique).2.2 holder isHolder p left
    have beside := assigns.suits p member
    rw [nodeFitsPod_congr info, exclusive _ isOther holder
      (spread.members.mem_iff.mp (mem_append_left _ isHolder)) p
      (mem_of_unplaced spread.members left)
      differ fits] at beside
    cases beside
  have elsewhere : ∀ p ∈ rest, on p ≠ node := by
    intro p member same
    have load := assigns.load (on p) (assigns.inside p member)
    rw [same, Function.update_self] at load
    have counted : 0 < rest.countP (on · = node) :=
      countP_pos_iff.mpr ⟨p, member, decide_eq_true same⟩
    exact exclusive.not_room exact spread mem (rest.length + 1) isNode empty mem_cons_self
      (mem_cons_of_mem current member) (fun isCurrent => fresh (isCurrent ▸ member)) suits
      (same ▸ assigns.suits p member) (by omega)
  refine ⟨on, fun p member => ⟨assigns.inside p member, free p member, elsewhere p member, ?_⟩, ?_⟩
  · rw [← nodeFitsPod_congr (spread.untouched _ (free p member))]
    exact assigns.suits p member
  · intro p member q member' same
    by_contra differ
    have load := assigns.load (on p) (assigns.inside p member)
    rw [Function.update_of_ne (elsewhere p member)] at load
    exact exclusive.not_room exact spread mem (rest.length + 1) (assigns.inside p member)
      (free p member) (mem_cons_of_mem current member)
      (mem_cons_of_mem current member') differ (assigns.suits p member)
      (same ▸ assigns.suits q member') ((two_le_countP member member' differ same).trans load)

/-- Where the members fit the same nodes, whoever was to have the node that the current
member took can have the node that was kept for it. -/
theorem Alike.apart (alike : Alike specs nodes pods) (distinct : pods.Nodup)
    (spread : Spread specs nodes pods s) (next : s.unplaced.Perm (current :: rest)) :
    PlaceableApart specs nodes s node rest := by
  obtain ⟨fresh, _⟩ := nodup_cons.mp (next.nodup_iff.mp (nodup_unplaced spread.members distinct))
  obtain ⟨on, kept, apart⟩ := spread.apart
  have isCurrent : current ∈ s.unplaced := next.mem_iff.mpr mem_cons_self
  have mem : ∀ p ∈ rest, p ∈ s.unplaced := fun p member =>
    next.mem_iff.mpr (mem_cons_of_mem current member)
  have differ : ∀ p ∈ rest, on p ≠ on current := fun p member same =>
    fresh (apart p (mem p member) current isCurrent same ▸ member)
  refine ⟨fun p => if on p = node then on current else on p, ?_, ?_⟩
  · intro p member
    by_cases here : on p = node
    · simp only [if_pos here]
      obtain ⟨isNode, empty, fits⟩ := kept current isCurrent
      refine ⟨isNode, empty, here ▸ (differ p member).symm, ?_⟩
      exact alike _ isNode current (mem_of_unplaced spread.members isCurrent) p
        (mem_of_unplaced spread.members (mem p member))
        fits
    · simp only [if_neg here]
      obtain ⟨isNode, empty, fits⟩ := kept p (mem p member)
      exact ⟨isNode, empty, here, fits⟩
  · intro p member q member' same
    by_cases here : on p = node
    · by_cases here' : on q = node
      · exact apart p (mem p member) q (mem q member') (here.trans here'.symm)
      · simp only [if_pos here, if_neg here'] at same
        exact absurd same.symm (differ q member')
    · by_cases here' : on q = node
      · simp only [if_neg here, if_pos here'] at same
        exact absurd same (differ p member)
      · simp only [if_neg here, if_neg here'] at same
        exact apart p (mem p member) q (mem q member') same

theorem Spread.packs [DecidableEq Pod] (distinct : pods.Nodup)
    (suited : Exclusive specs nodes pods ∧ NoWraps specs nodes pods ∨ Alike specs nodes pods)
    {s s' : Packing Pod}
    (spread : Spread specs nodes pods s) (step : PacksApart specs s s') :
    Spread specs nodes pods s' := by
  obtain ⟨current, rest, node, next, offered, empty⟩ := step
  have distinct' := (nodup_cons.mp (next.nodup_iff.mp (nodup_unplaced spread.members distinct))).2
  obtain ⟨isNode, suits, _⟩ := (mem_candidates_iff distinct').mp offered
  rw [spread.names] at isNode
  rw [nodeFitsPod_congr (spread.untouched node empty)] at suits
  apply spread.put next isNode suits empty
  rcases suited with ⟨exclusive, exact⟩ | alike
  · exact exclusive.apart exact distinct spread next offered empty
  · exact alike.apart distinct spread next

theorem spread_start [DecidableEq Pod]
    (distinct : (current :: rest).Nodup)
    (apart : membersMustStayApart specs (current :: rest) = true)
    (joins : (newGangRoom specs nodes (current :: rest) (rest.length + 1)).currentCanJoin
      (rest.length + 1) = true) :
    Spread specs nodes (current :: rest) ⟨nodes, current :: rest, []⟩ where
  members := List.Perm.refl _
  names := rfl
  untouched _ _ := rfl
  taken := nofun
  apart := by
    obtain ⟨on, assigns⟩ := (currentCanJoin_iff distinct rfl).mp joins
    refine ⟨on, fun p member => ⟨assigns.inside p member, by simp, assigns.suits p member⟩, ?_⟩
    intro p member q member' same
    by_contra differ
    have load := assigns.load (on p) (assigns.inside p member)
    have room := (two_le_countP member member' differ same).trans load
    have shared := le_perNode_of_le_room (Nat.le_refl 2) room
    unfold perNode at shared
    rw [if_pos apart] at shared
    omega

end Spread

/-- Three members that keep apart and may go anywhere. -/
def alikeTrio : Specs Nat := { choosyTrio with placeable := fun _ _ => true }

end Ome.Scheduler
