/-
# Ome.Scheduler.Packing — placing the members of a gang one at a time

The plugin reads the domain again for every member.  Here the members of a gang are placed
in any order, each on any node that `candidates` offers it then, with nothing else
changing on the nodes.

* `Feasible`: the members can all be placed at once within the room of the nodes.  The
  plugin's test is exactly this (`currentCanJoin_iff`), whoever comes first.
* `feasible_put`: a candidate leaves a feasible gang.
* `gang_packing_completes`: no member ever finds the candidates empty, so every run places
  the whole gang, and it fits.
-/
import Ome.Scheduler.RoomArithmetic
import Ome.Theory.Runs

namespace Ome.Scheduler

open Ome.Theory List GoMap

set_option autoImplicit false

variable {need : Int} {node : String}

variable {Pod : Type} {specs : Specs Pod} {nodes : DomainNodes}
variable {current : Pod} {rest pods : List Pod}

/-! ## The plugin's test -/

/-- The members can be placed at once within the room of the nodes. -/
def Feasible (specs : Specs Pod) (nodes : DomainNodes) (pods : List Pod) : Prop :=
  ∃ on, Matching.Assigns (nodeFitsPod specs nodes)
    (newGangRoom specs nodes pods pods.length).room nodes.names pods on

theorem restFitsBeside_iff [DecidableEq Pod] {r : GangRoom Pod}
    (shape : r.pods = current :: rest) (distinct : rest.Nodup) (node : String) :
    r.restFitsBeside node rest.length = true ↔
      ∃ on, Matching.Assigns r.fits (Function.update r.room node (r.room node - 1)) r.nodes
        rest on := by
  unfold GangRoom.restFitsBeside GangRoom.maxMatching
  rw [decide_eq_true_eq, shape, tail_cons,
    ← Matching.grow_eq_length_iff distinct (Int.le_refl (rest.length : Int))]
  have most := Matching.grow_le r.fits (Function.update r.room node (r.room node - 1)) r.nodes
    rest.length rest (fun _ => []) 0
  split
  · omega
  · omega

theorem mem_candidates_iff [DecidableEq Pod] (distinct : rest.Nodup) :
    node ∈ (newGangRoom specs nodes (current :: rest) need).candidates rest.length ↔
      node ∈ nodes.names ∧ nodeFitsPod specs nodes node current = true ∧
        0 < (newGangRoom specs nodes (current :: rest) need).room node ∧
        ∃ on, Matching.Assigns (nodeFitsPod specs nodes)
          (Function.update (newGangRoom specs nodes (current :: rest) need).room node
            ((newGangRoom specs nodes (current :: rest) need).room node - 1))
          nodes.names rest on := by
  have beside := restFitsBeside_iff (r := newGangRoom specs nodes (current :: rest) need) rfl
    distinct node
  show node ∈ nodes.names.filter ((newGangRoom specs nodes (current :: rest) need).offers current
    rest.length) ↔ _
  unfold GangRoom.offers
  rw [mem_filter, Bool.and_eq_true, Bool.and_eq_true, beside, decide_eq_true_eq, and_assoc]
  exact Iff.rfl

/-- The current member can join when somewhere there is a candidate for it. -/
theorem currentCanJoin_iff_candidates (all : need = (rest.length : Int) + 1) :
    (newGangRoom specs nodes (current :: rest) need).currentCanJoin need = true ↔
      (newGangRoom specs nodes (current :: rest) need).candidates rest.length ≠ [] := by
  have enough : ¬ (need ≤ 0 ∨ (((current :: rest).length : Nat) : Int) < need) := by
    rw [length_cons]
    omega
  have others : need - 1 = rest.length := by omega
  show (if need ≤ 0 ∨ (((current :: rest).length : Nat) : Int) < need then false
    else nodes.names.any
      ((newGangRoom specs nodes (current :: rest) need).offers current (need - 1))) = true ↔
    nodes.names.filter _ ≠ []
  rw [if_neg enough, others, any_eq_true]
  rw [Ne, filter_eq_nil_iff]
  simp only [not_forall, not_not]
  exact exists_congr fun node => exists_prop.symm

theorem currentCanJoin_iff [DecidableEq Pod]
    (distinct : (current :: rest).Nodup) (all : need = (rest.length : Int) + 1) :
    (newGangRoom specs nodes (current :: rest) need).currentCanJoin need = true ↔
      Feasible specs nodes (current :: rest) := by
  obtain ⟨fresh, distinct⟩ := nodup_cons.mp distinct
  have same : need = ((current :: rest).length : Nat) := by
    rw [all, length_cons]
    rfl
  rw [currentCanJoin_iff_candidates all, Feasible, ← same,
    Matching.exists_assigns_cons_iff fresh]
  constructor
  · intro some
    obtain ⟨node, offered⟩ := exists_mem_of_ne_nil _ some
    obtain ⟨isNode, rest⟩ := (mem_candidates_iff distinct).mp offered
    exact ⟨node, isNode, rest⟩
  · rintro ⟨node, isNode, rest⟩
    exact ne_nil_of_mem ((mem_candidates_iff distinct).mpr ⟨isNode, rest⟩)

/-- No product of the room's arithmetic wraps on the domain's nodes. -/
def NoWraps (specs : Specs Pod) (nodes : DomainNodes) (pods : List Pod) : Prop :=
  ∀ node ∈ nodes.names, NoWrap specs nodes pods node

theorem Feasible.fits (feasible : Feasible specs nodes pods) (exact : NoWraps specs nodes pods) :
    ∃ on : Pod → String, (∀ m ∈ pods, on m ∈ nodes.names ∧ specs.placeable (on m) m = true) ∧
      ∀ node ∈ nodes.names, (∃ m ∈ pods, on m = node) →
        (nodes.info node).Holds ((pods.filter (on · = node)).map specs.request) := by
  obtain ⟨on, assigns⟩ := feasible
  refine ⟨on, fun m member => ⟨assigns.inside m member, ?_⟩, ?_⟩
  · exact (nodeFitsPod_iff.mp (assigns.suits m member)).1
  · rintro node isNode ⟨m, member, here⟩
    refine holds_of_le_room pods.length (exact node isNode) ?_ ?_ ?_ ?_
    · exact ne_nil_of_mem (mem_filter.mpr ⟨member, decide_eq_true here⟩)
    · exact fun q isHere => (mem_filter.mp isHere).1
    · intro q isHere
      obtain ⟨isMember, there⟩ := mem_filter.mp isHere
      exact of_decide_eq_true there ▸ assigns.suits q isMember
    · rw [← countP_eq_length_filter]
      exact assigns.load node isNode

/-! ## What a placement leaves -/

theorem load_le_perNode {on : Pod → String}
    (load : pods.countP (on · = node) ≤ (newGangRoom specs nodes pods pods.length).room node) :
    (pods.countP (on · = node) : Int) ≤ perNode specs pods pods.length := by
  by_cases several : 2 ≤ pods.countP (on · = node)
  · exact le_perNode_of_le_room several load
  · unfold perNode
    have most : pods.countP (on · = node) ≤ pods.length := countP_le_length
    split
    · omega
    · omega

theorem membersMustStayApart_of_subset {pods' : List Pod} (sub : ∀ p ∈ pods', p ∈ pods)
    (apart : membersMustStayApart specs pods' = true) : membersMustStayApart specs pods = true := by
  obtain ⟨p, member, terms⟩ := any_eq_true.mp apart
  refine any_eq_true.mpr ⟨p, sub p member, ?_⟩
  cases read : specs.antiAffinityTerms p with
  | none => rfl
  | some list =>
    simp only [read, any_eq_true] at terms ⊢
    obtain ⟨term, isTerm, q, isMember, matches'⟩ := terms
    exact ⟨term, isTerm, q, sub q isMember, matches'⟩

theorem Feasible.of_perm {pods' : List Pod} (same : pods.Perm pods')
    (exact : NoWraps specs nodes pods) (feasible : Feasible specs nodes pods) :
    Feasible specs nodes pods' := by
  obtain ⟨on, assigns⟩ := feasible
  have apart : membersMustStayApart specs pods' = membersMustStayApart specs pods := by
    rw [Bool.eq_iff_iff]
    exact ⟨membersMustStayApart_of_subset fun p => same.mem_iff.mpr,
      membersMustStayApart_of_subset fun p => same.mem_iff.mp⟩
  refine ⟨on, fun p member => assigns.inside p (same.mem_iff.mpr member),
    fun p member => assigns.suits p (same.mem_iff.mpr member), fun node isNode => ?_⟩
  have load := assigns.load node isNode
  have may := load_le_perNode load
  rw [same.countP_eq] at load may
  refine le_room_of_le pods.length 0 (exact node isNode) load ?_ le_rfl (by omega)
    (fun d => by simp) ?_ ?_
  · exact fun q member fits => ⟨same.mem_iff.mpr member, fits⟩
  · intro some
    obtain ⟨q, member, here⟩ := countP_pos_iff.mp some
    exact ⟨q, member, of_decide_eq_true here ▸ assigns.suits q (same.mem_iff.mpr member)⟩
  · unfold perNode at may ⊢
    rwa [apart, ← same.length_eq]

/-- Beside the current member the others keep their places: the node that it takes had room
for one more than they use. -/
theorem assigns_put (exact : NoWraps specs nodes (current :: rest))
    {on : Pod → String} (suits : nodeFitsPod specs nodes node current = true)
    (hasRoom : 0 < (newGangRoom specs nodes (current :: rest) need).room node)
    (assigns : Matching.Assigns (nodeFitsPod specs nodes)
      (Function.update (newGangRoom specs nodes (current :: rest) need).room node
        ((newGangRoom specs nodes (current :: rest) need).room node - 1)) nodes.names rest on)
    (may : ∀ other, (rest.countP (on · = other) : Int) ≤ perNode specs rest rest.length) :
    Feasible specs (nodes.put specs node current) rest := by
  have load := assigns.load
  -- a member beside the current one stays, since the node had room for two
  have stays : ∀ q ∈ rest, nodeFitsPod specs (nodes.put specs node current) (on q) q = true := by
    intro q member
    have fits := assigns.suits q member
    by_cases same : on q = node
    · have taken := load (on q) (assigns.inside q member)
      rw [same, Function.update_self] at taken
      have counted : 0 < rest.countP (on · = node) :=
        countP_pos_iff.mpr ⟨q, member, decide_eq_true same⟩
      rw [same] at fits ⊢
      exact fits_after_put need (exact node (same ▸ assigns.inside q member)) mem_cons_self
        (mem_cons_of_mem current member) suits fits (by omega)
    · rw [nodeFitsPod_iff, info_put_of_ne same]
      exact nodeFitsPod_iff.mp fits
  refine ⟨on, assigns.inside, stays, fun other isNode => ?_⟩
  have room := load other isNode
  have some : 0 < rest.countP (on · = other) → ∃ q ∈ rest,
      nodeFitsPod specs (nodes.put specs node current) other q = true := by
    intro some
    obtain ⟨q, member, here⟩ := countP_pos_iff.mp some
    exact ⟨q, member, of_decide_eq_true here ▸ stays q member⟩
  have listed : ∀ q ∈ rest, nodeFitsPod specs (nodes.put specs node current) other q = true →
      q ∈ current :: rest ∧ nodeFitsPod specs nodes other q = true := fun q member fits =>
    ⟨mem_cons_of_mem current member, fits_of_fits_put fits⟩
  by_cases same : other = node
  · subst same
    rw [Function.update_self] at room
    refine le_room_of_le need 1 (exact other isNode) (by omega) listed (slots_put_le other)
      ?_ ?_ some (may other)
    · rw [info_put_self, NodeInfo.slots_addPod]
      omega
    · intro d
      have isMember : current ∈ current :: rest := mem_cons_self
      have largest := amount_le_largestFitting isMember suits d
      rw [info_put_self, NodeInfo.free_addPod]
      omega
  · rw [Function.update_of_ne same] at room
    refine le_room_of_le need 0 (exact other isNode) room listed (slots_put_le other)
      ?_ ?_ some (may other)
    · rw [info_put_of_ne same]
      omega
    · intro d
      rw [info_put_of_ne same]
      simp

/-! ## Runs -/

/-- A gang being placed. -/
structure Packing (Pod : Type) where
  nodes : DomainNodes
  unplaced : List Pod
  placed : List (Pod × String)

/-- The next member, whichever it is, goes to a node that `candidates` offers it, with its
siblings listed in any order. -/
inductive Packs (specs : Specs Pod) : Packing Pod → Packing Pod → Prop
  | put (s : Packing Pod) (current : Pod) (rest : List Pod) (node : String)
      (next : s.unplaced.Perm (current :: rest))
      (offered : node ∈ (newGangRoom specs s.nodes (current :: rest)
        (rest.length + 1)).candidates rest.length) :
      Packs specs s
        ⟨s.nodes.put specs node current, rest, s.placed ++ [(current, node)]⟩

/-- Nobody is placed twice or forgotten, and whoever is left can still be placed. -/
structure OnTrack (specs : Specs Pod) (pods : List Pod) (s : Packing Pod) : Prop where
  members : (s.placed.map Prod.fst ++ s.unplaced).Perm pods
  exact : NoWraps specs s.nodes s.unplaced
  feasible : Feasible specs s.nodes s.unplaced

section

variable {s : Packing Pod} (members : (s.placed.map Prod.fst ++ s.unplaced).Perm pods)
include members

theorem nodup_unplaced (distinct : pods.Nodup) : s.unplaced.Nodup :=
  (nodup_append.mp (members.nodup_iff.mpr distinct)).2.1

theorem mem_of_unplaced {p : Pod} (left : p ∈ s.unplaced) : p ∈ pods :=
  members.mem_iff.mp (mem_append_right _ left)

/-- A run that stops only when nobody is next has placed everybody. -/
theorem placed_all (stuck : ∀ next others, ¬ s.unplaced.Perm (next :: others)) :
    (s.placed.map Prod.fst).Perm pods := by
  have none : s.unplaced = [] := by
    cases left : s.unplaced with
    | nil => rfl
    | cons next others => exact absurd (left ▸ Perm.refl _) (stuck next others)
  rwa [none, append_nil] at members

end

variable [DecidableEq Pod]

theorem OnTrack.joins {s : Packing Pod} (track : OnTrack specs pods s)
    (distinct : pods.Nodup) {next : Pod} {others : List Pod}
    (left : s.unplaced.Perm (next :: others)) :
    (newGangRoom specs s.nodes (next :: others) (others.length + 1)).currentCanJoin
        (others.length + 1) = true ∧
      (newGangRoom specs s.nodes (next :: others) (others.length + 1)).candidates
        others.length ≠ [] := by
  have distinct' := left.nodup_iff.mp (nodup_unplaced track.members distinct)
  have joins := (currentCanJoin_iff distinct' rfl).mpr (track.feasible.of_perm left track.exact)
  exact ⟨joins, (currentCanJoin_iff_candidates rfl).mp joins⟩

/-- A placement keeps the gang on track if the others may share nodes as they then do. -/
theorem OnTrack.put {s : Packing Pod} (track : OnTrack specs pods s)
    (distinct : pods.Nodup)
    (next : s.unplaced.Perm (current :: rest))
    (offered : node ∈ (newGangRoom specs s.nodes (current :: rest)
      (rest.length + 1)).candidates rest.length)
    (may : ∀ on, Matching.Assigns (nodeFitsPod specs s.nodes)
        (newGangRoom specs s.nodes (current :: rest) (rest.length + 1)).room s.nodes.names rest on →
      ∀ other, (rest.countP (on · = other) : Int) ≤ perNode specs rest rest.length) :
    OnTrack specs pods ⟨s.nodes.put specs node current, rest, s.placed ++ [(current, node)]⟩ := by
  have distinct' := next.nodup_iff.mp (nodup_unplaced track.members distinct)
  obtain ⟨_, suits, hasRoom, on, assigns⟩ :=
    (mem_candidates_iff (nodup_cons.mp distinct').2).mp offered
  have exact : NoWraps specs s.nodes (current :: rest) := fun other isNode =>
    (track.exact other isNode).of_le (fun q member fits => ⟨next.mem_iff.mpr member, fits⟩) le_rfl
  refine ⟨?_, fun other isNode => (exact other isNode).of_le (fun q member fits =>
    ⟨mem_cons_of_mem current member, fits_of_fits_put fits⟩) (slots_put_le other), ?_⟩
  · rw [map_append, append_assoc]
    exact (Perm.append_left _ next.symm).trans track.members
  · apply assigns_put exact suits hasRoom assigns
    apply may on
    refine ⟨assigns.inside, assigns.suits, fun other isNode => ?_⟩
    have load := assigns.load other isNode
    by_cases same : other = node
    · subst same
      rw [Function.update_self] at load
      omega
    · rwa [Function.update_of_ne same] at load

theorem OnTrack.packs (distinct : pods.Nodup)
    (together : membersMustStayApart specs pods = false) {s s' : Packing Pod}
    (track : OnTrack specs pods s) (step : Packs specs s s') : OnTrack specs pods s' := by
  obtain ⟨current, rest, node, next, offered⟩ := step
  refine track.put distinct next offered fun on _ other => ?_
  have free : membersMustStayApart specs rest = false := by
    rw [Bool.eq_false_iff]
    intro apart
    have sub : ∀ p ∈ rest, p ∈ pods := fun p member =>
      mem_of_unplaced track.members (next.mem_iff.mpr (mem_cons_of_mem current member))
    rw [membersMustStayApart_of_subset sub apart] at together
    cases together
  unfold perNode
  rw [free]
  exact Int.ofNat_le.mpr countP_le_length

theorem onTrack_start (distinct : (current :: rest).Nodup)
    (exact : NoWraps specs nodes (current :: rest))
    (joins : (newGangRoom specs nodes (current :: rest) (rest.length + 1)).currentCanJoin
      (rest.length + 1) = true) :
    OnTrack specs (current :: rest) ⟨nodes, current :: rest, []⟩ :=
  ⟨Perm.refl _, exact, (currentCanJoin_iff distinct rfl).mp joins⟩

/-- **Gang packing never paints itself into a corner.**  For a gang without anti-affinity
between its members: if the current member can join, then (a) the members fit the
nodes all at once; (b) on whichever candidate the current member is put, any next member
can join and has candidates; (c) so in every run, whatever the order and the choices,
every member that comes next has candidates, and the run ends with everybody placed.  It
is so where no product of the plugin's `int64` arithmetic wraps. -/
theorem gang_packing_completes (specs : Specs Pod) (nodes : DomainNodes) (current : Pod)
    (rest : List Pod) (distinct : (current :: rest).Nodup)
    (exact : NoWraps specs nodes (current :: rest))
    (together : membersMustStayApart specs (current :: rest) = false) (need : Int)
    (all : need = (rest.length : Int) + 1) :
    ((newGangRoom specs nodes (current :: rest) need).currentCanJoin need = true →
      ∃ on : Pod → String,
        (∀ m ∈ current :: rest, on m ∈ nodes.names ∧ specs.placeable (on m) m = true) ∧
        ∀ node ∈ nodes.names, (∃ m ∈ current :: rest, on m = node) →
          (nodes.info node).Holds
            (((current :: rest).filter (on · = node)).map specs.request)) ∧
    (∀ node ∈ (newGangRoom specs nodes (current :: rest) need).candidates (need - 1),
      ∀ next others, rest.Perm (next :: others) →
        (newGangRoom specs (nodes.put specs node current) (next :: others)
          (need - 1)).currentCanJoin (need - 1) = true ∧
        (newGangRoom specs (nodes.put specs node current) (next :: others)
          (need - 1)).candidates (need - 2) ≠ []) ∧
    ((newGangRoom specs nodes (current :: rest) need).currentCanJoin need = true →
      ∀ s, Relation.ReflTransGen (Packs specs) ⟨nodes, current :: rest, []⟩ s →
        (s.placed.map Prod.fst ++ s.unplaced).Perm (current :: rest) ∧
        (∀ next others, s.unplaced.Perm (next :: others) →
          (newGangRoom specs s.nodes (next :: others) (others.length + 1)).candidates
            others.length ≠ []) ∧
        (∀ s', Packs specs s s' → s'.unplaced.length < s.unplaced.length) ∧
        ((∀ s', ¬ Packs specs s s') → (s.placed.map Prod.fst).Perm (current :: rest))) := by
  subst all
  refine ⟨fun joins => ?_, ?_, ?_⟩
  · exact ((currentCanJoin_iff distinct rfl).mp joins).fits exact
  · intro node offered next others left
    rw [add_sub_cancel_right] at offered
    -- a candidate is offered only if the member can join
    have joins : (newGangRoom specs nodes (current :: rest) (rest.length + 1)).currentCanJoin
        (rest.length + 1) = true :=
      (currentCanJoin_iff_candidates rfl).mpr (ne_nil_of_mem offered)
    have track := (onTrack_start distinct exact joins).packs distinct together
      (.put ⟨nodes, current :: rest, []⟩ current rest node (Perm.refl _) offered)
    have needed : (rest.length : Int) + 1 - 1 = (others.length : Int) + 1 := by
      rw [left.length_eq, length_cons]
      omega
    have needed' : (rest.length : Int) + 1 - 2 = others.length := by omega
    rw [needed, needed']
    exact track.joins distinct left
  · intro joins s run
    have track : OnTrack specs (current :: rest) s :=
      Runs.invariant_of_run (fun _ _ track step => track.packs distinct together step) run
        (onTrack_start distinct exact joins)
    refine ⟨track.members, fun next others left => (track.joins distinct left).2, ?_, ?_⟩
    · rintro s' ⟨_, rest', _, next, _⟩
      rw [next.length_eq]
      exact Nat.lt_succ_self _
    · intro ended
      -- a state with members left has a candidate for the next one
      refine placed_all track.members fun next others left => ?_
      obtain ⟨node, offered⟩ := exists_mem_of_ne_nil _ (track.joins distinct left).2
      exact ended _ (.put s next others node left offered)

/-- A node with four CPUs and three pod slots. -/
def fourCPUs : NodeInfo where
  allocatable := ⟨4000, 0, 0, empty⟩
  requested := ⟨0, 0, 0, empty⟩
  allowedPodNumber := 3
  pods := 0

/-- Two members that ask for three CPUs and for one, without anti-affinity. -/
def unevenPair : Specs Bool where
  request large := ⟨if large then 3000 else 1000, 0, 0, empty⟩
  placeable _ _ := true
  antiAffinityTerms _ := some []

def twoNodes : DomainNodes := ⟨["n1", "n2"], by decide, fun _ => fourCPUs⟩

/-- The pair can form, and wherever the large member goes the small one has candidates. -/
theorem unevenPair_completes :
    (newGangRoom unevenPair twoNodes [true, false] 2).candidates 1 = ["n1", "n2"] ∧
      (newGangRoom unevenPair (twoNodes.put unevenPair "n1" true) [false] 1).candidates 0 ≠ [] :=
  ⟨by decide, ((gang_packing_completes unevenPair twoNodes true [false] (by decide)
    (fun _ _ d => by
      cases d with
      | milliCPU => exact (by decide : (3000 : Int) * 3 < 2 ^ 63)
      | _ => exact (by decide : (0 : Int) * 3 < 2 ^ 63)) (by decide) 2 rfl).2.1 "n1" (by decide)
    false [] (Perm.refl _)).2⟩

/-- A node with four CPUs, 4 EiB of memory and 110 pod slots. -/
def wideNode : DomainNodes :=
  ⟨["n1"], by decide, fun _ => ⟨⟨4000, 2 ^ 62, 0, empty⟩, ⟨0, 0, 0, empty⟩, 110, 0⟩⟩

/-- Members that ask for one CPU and 2 EiB each. -/
def wideGang : Specs Nat where
  request _ := ⟨1000, 2 ^ 61, 0, empty⟩
  placeable _ _ := true
  antiAffinityTerms _ := some []

/-- **A product that wraps lets a gang in that does not fit.**  Four times 2 EiB read as a
negative number, so the node counts as room for all three members; no placement fits
them, and once two are there the third has no candidate. -/
theorem wideGang_stuck :
    (newGangRoom wideGang wideNode [0, 1, 2] 3).currentCanJoin 3 = true ∧
    (¬ ∃ on : Nat → String, (∀ m ∈ [0, 1, 2], on m ∈ wideNode.names) ∧
      ∀ node ∈ wideNode.names, (∃ m ∈ [0, 1, 2], on m = node) →
        (wideNode.info node).Holds (([0, 1, 2].filter (on · = node)).map wideGang.request)) ∧
    (newGangRoom wideGang ((wideNode.put wideGang "n1" 0).put wideGang "n1" 1) [2] 1).candidates
      0 = [] := by
  refine ⟨by decide, ?_, by decide⟩
  rintro ⟨on, inside, holds⟩
  have here : ∀ m ∈ [0, 1, 2], on m = "n1" := fun m member => mem_singleton.mp (inside m member)
  have all : [0, 1, 2].filter (on · = "n1") = [0, 1, 2] :=
    filter_eq_self.mpr fun m member => decide_eq_true (here m member)
  have memory := (holds "n1" (by decide) ⟨0, by decide, here 0 (by decide)⟩).2 .memory
  rw [all] at memory
  exact absurd (memory ⟨_, mem_cons_self, by decide⟩) (by decide)

end Ome.Scheduler
