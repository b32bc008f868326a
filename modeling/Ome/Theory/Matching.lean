/-
# Ome.Theory.Matching — items in nodes that hold several, by augmenting paths

Each item may go to some of the nodes, and a node holds at most as many items as it has
room.  The search takes the items one at a time.  An item goes to the first node that
still has room; where a node is full, one of the items it holds is moved to another node
to make a place, which may move a third, and so on.  No node is looked at twice while
one item is placed.

* `place` is the search for one item, `grow` the loop over the items.
* `Took` says what a successful search leaves: one more item, and the nodes that were
  visited before the search unchanged.  `Explored` and `Reached` say what a failed one
  leaves: nothing moved, and a set of full nodes that no item in them, nor the new one,
  can leave.
* `grow_eq_length_iff`: the loop places every item exactly when they can all be placed
  at once.
-/
import Mathlib.Algebra.BigOperators.Group.Finset.Piecewise
import Mathlib.Algebra.Order.BigOperators.Group.Finset

namespace Ome.Theory.Matching

open List

set_option autoImplicit false

variable {N P : Type} [DecidableEq N]

/-! ## The search -/

/-- What each node holds, and the nodes that the search for the present item has visited. -/
structure Search (N P : Type) where
  held : N → List P
  seen : List N

/-- Move one of the items of a full node away, the first that can be, and take its place. -/
def tryHeld (displace : P → Search N P → Bool × Search N P) (p : P) (n : N) :
    Nat → List P → Search N P → Bool × Search N P
  | _, [], s => (false, s)
  | i, other :: rest, s =>
    match displace other s with
    | (true, s) => (true, { s with held := Function.update s.held n ((s.held n).set i p) })
    | (false, s) => tryHeld displace p n (i + 1) rest s

section Loops

variable (fits : N → P → Bool) (room : N → Nat)

/-- Go through the nodes until one takes the item. -/
def tryNodes (displace : P → Search N P → Bool × Search N P) (p : P) :
    List N → Search N P → Bool × Search N P
  | [], s => (false, s)
  | n :: rest, s =>
    if n ∈ s.seen ∨ room n = 0 ∨ fits n p = false then tryNodes displace p rest s
    else
      let s := { s with seen := n :: s.seen }
      if (s.held n).length < room n then
        (true, { s with held := Function.update s.held n (s.held n ++ [p]) })
      else
        match tryHeld displace p n 0 (s.held n) s with
        | (true, s) => (true, s)
        | (false, s) => tryNodes displace p rest s

/-- Place one item.  Every call that moves an item away has marked one more node, so as
many nested calls as there are nodes are enough. -/
def place (nodes : List N) : Nat → P → Search N P → Bool × Search N P
  | 0, _, s => (false, s)
  | depth + 1, p, s => tryNodes fits room (place nodes depth) p nodes s

/-- Place the items in turn until `limit` of them are placed; the answer is their number. -/
def grow (nodes : List N) (limit : Int) : List P → (N → List P) → Nat → Nat
  | [], _, matched => matched
  | p :: rest, held, matched =>
    if (matched : Int) < limit then
      match place fits room nodes nodes.length p ⟨held, []⟩ with
      | (true, s) => grow nodes limit rest s.held (matched + 1)
      | (false, s) => grow nodes limit rest s.held matched
    else matched

/-! ## Placements -/

/-- The items can all be where `on` puts them: each on a node it fits, none with more items
than it has room. -/
structure Assigns (nodes : List N) (items : List P) (on : P → N) : Prop where
  inside : ∀ p ∈ items, on p ∈ nodes
  suits : ∀ p ∈ items, fits (on p) p = true
  load : ∀ n ∈ nodes, items.countP (on · = n) ≤ room n

/-- What the nodes hold is allowed. -/
structure Sound (nodes : List N) (held : N → List P) : Prop where
  suits : ∀ n ∈ nodes, ∀ p ∈ held n, fits n p = true
  load : ∀ n ∈ nodes, (held n).length ≤ room n

end Loops

variable [DecidableEq P]

/-- One item beside the others: it takes one place of its node. -/
theorem exists_assigns_cons_iff {fits : N → P → Bool} {room : N → Nat} {nodes : List N} {p : P}
    {rest : List P} (fresh : p ∉ rest) :
    (∃ on, Assigns fits room nodes (p :: rest) on) ↔
      ∃ n ∈ nodes, fits n p = true ∧ 0 < room n ∧
        ∃ on, Assigns fits (Function.update room n (room n - 1)) nodes rest on := by
  constructor
  · rintro ⟨on, assigns⟩
    obtain ⟨isNode, inside⟩ := forall_mem_cons.mp assigns.inside
    obtain ⟨suitsHere, suits⟩ := forall_mem_cons.mp assigns.suits
    have load := assigns.load
    simp only [countP_cons, decide_eq_true_eq] at load
    have hasRoom := load (on p) isNode
    rw [if_pos rfl] at hasRoom
    refine ⟨on p, isNode, suitsHere, by omega, on, inside, suits, fun m member => ?_⟩
    rcases eq_or_ne m (on p) with rfl | other
    · rw [Function.update_self]
      omega
    · simpa [other, other.symm] using load m member
  · rintro ⟨n, isNode, suits, hasRoom, on, assigns⟩
    have others : ∀ q ∈ rest, Function.update on p n q = on q := by
      intro q isItem
      have isOther : q ≠ p := fun same => fresh (same ▸ isItem)
      exact Function.update_of_ne isOther n on
    refine ⟨Function.update on p n, ?_, ?_, ?_⟩
    · rw [forall_mem_cons, Function.update_self]
      exact ⟨isNode, fun q isItem => (others q isItem).symm ▸ assigns.inside q isItem⟩
    · rw [forall_mem_cons, Function.update_self]
      exact ⟨suits, fun q isItem => (others q isItem).symm ▸ assigns.suits q isItem⟩
    · intro m member
      have load := assigns.load m member
      have same : rest.countP (Function.update on p n · = m) = rest.countP (on · = m) :=
        countP_congr fun q isItem => by rw [others q isItem]
      rw [countP_cons, same, Function.update_self]
      by_cases here : n = m
      · subst here
        rw [Function.update_self] at load
        simp only [decide_true, if_true]
        omega
      · rw [Function.update_of_ne fun isHere => here isHere.symm] at load
        simpa [here] using load

/-- How often the nodes hold the item. -/
def total (nodes : List N) (held : N → List P) (p : P) : Nat :=
  ∑ n ∈ nodes.toFinset, (held n).count p

theorem total_update {nodes : List N} {n : N} (member : n ∈ nodes) (held : N → List P)
    (l : List P) (p : P) :
    total nodes (Function.update held n l) p + (held n).count p =
      total nodes held p + l.count p := by
  have isNode : n ∈ nodes.toFinset := mem_toFinset.mpr member
  have others : ∑ m ∈ nodes.toFinset.erase n, (Function.update held n l m).count p =
      ∑ m ∈ nodes.toFinset.erase n, (held m).count p := by
    apply Finset.sum_congr rfl
    intro m isOther
    rw [Function.update_of_ne (Finset.ne_of_mem_erase isOther)]
  unfold total
  rw [← Finset.add_sum_erase _ _ isNode, others,
    ← Finset.add_sum_erase _ (fun m => (held m).count p) isNode, Function.update_self]
  omega

section Correct

variable {fits : N → P → Bool} {room : N → Nat} {nodes : List N} {items : List P}
  {held : N → List P} {p q : P} {n : N} {on : P → N} {s s' : Search N P}
variable {displace : P → Search N P → Bool × Search N P}

omit [DecidableEq P] in
/-- Writing a list that is allowed on the node keeps what is held allowed. -/
theorem Sound.update (sound : Sound fits room nodes held) {l : List P}
    (suits : ∀ p ∈ l, fits n p = true) (load : l.length ≤ room n) :
    Sound fits room nodes (Function.update held n l) := by
  constructor
  · exact (Function.forall_update_iff held fun m l => m ∈ nodes → ∀ p ∈ l, fits m p = true).mpr
      ⟨fun _ => suits, fun m _ => sound.suits m⟩
  · exact (Function.forall_update_iff held fun m l => m ∈ nodes → l.length ≤ room m).mpr
      ⟨fun _ => load, fun m _ => sound.load m⟩

/-- A search that placed the item: it is held once more, everything else as often as
before, and the nodes visited earlier hold what they held. -/
structure Took (fits : N → P → Bool) (room : N → Nat) (nodes : List N) (p : P)
    (s s' : Search N P) : Prop where
  kept : ∀ n ∈ s.seen, s'.held n = s.held n
  counts : ∀ q, total nodes s'.held q = total nodes s.held q + [p].count q
  sound : Sound fits room nodes s.held → Sound fits room nodes s'.held

/-- Every node that may take the item has been visited. -/
def Reached (fits : N → P → Bool) (room : N → Nat) (nodes seen : List N) (p : P) : Prop :=
  ∀ n ∈ nodes, room n ≠ 0 → fits n p = true → n ∈ seen

/-- A search that moved nothing: the nodes it visited are full, and every node that may
take an item of theirs has been visited too. -/
structure Explored (fits : N → P → Bool) (room : N → Nat) (nodes : List N)
    (s s' : Search N P) : Prop where
  same : s'.held = s.held
  grows : ∀ n ∈ s.seen, n ∈ s'.seen
  within : ∀ n ∈ s'.seen, n ∈ s.seen ∨ n ∈ nodes
  full : ∀ n ∈ s'.seen, n ∉ s.seen → room n ≤ (s.held n).length
  closed : ∀ n ∈ s'.seen, n ∉ s.seen → ∀ q ∈ s.held n, Reached fits room nodes s'.seen q

omit [DecidableEq N] [DecidableEq P] in
theorem Reached.mono {seen seen' : List N} (reached : Reached fits room nodes seen p)
    (grows : ∀ n ∈ seen, n ∈ seen') : Reached fits room nodes seen' p :=
  fun n member hasRoom suits => grows n (reached n member hasRoom suits)

omit [DecidableEq N] [DecidableEq P] in
theorem Explored.refl (s : Search N P) : Explored fits room nodes s s where
  same := rfl
  grows _ member := member
  within _ member := Or.inl member
  full _ member fresh := absurd member fresh
  closed _ member fresh := absurd member fresh

omit [DecidableEq P] in
theorem Explored.trans {s'' : Search N P} (first : Explored fits room nodes s s')
    (second : Explored fits room nodes s' s'') : Explored fits room nodes s s'' where
  same := second.same.trans first.same
  grows n member := second.grows n (first.grows n member)
  within n member := (second.within n member).elim (first.within n) Or.inr
  full n member fresh := by
    by_cases early : n ∈ s'.seen
    · exact first.full n early fresh
    · exact first.same ▸ second.full n member early
  closed n member fresh q held := by
    by_cases early : n ∈ s'.seen
    · exact (first.closed n early fresh q held).mono second.grows
    · exact second.closed n member early q (first.same ▸ held)

/-- The number of nodes that the search has not visited. -/
def unseen (nodes : List N) (s : Search N P) : Nat := (nodes.toFinset \ s.seen.toFinset).card

omit [DecidableEq P] in
theorem unseen_le (grows : ∀ n ∈ s.seen, n ∈ s'.seen) : unseen nodes s' ≤ unseen nodes s := by
  apply Finset.card_le_card
  apply Finset.sdiff_subset_sdiff (Finset.Subset.refl _)
  intro n early
  exact mem_toFinset.mpr (grows n (mem_toFinset.mp early))

omit [DecidableEq P] in
theorem unseen_mark (member : n ∈ nodes) (fresh : n ∉ s.seen) :
    unseen nodes { s with seen := n :: s.seen } < unseen nodes s := by
  apply Finset.card_lt_card
  rw [Finset.ssubset_iff_of_subset]
  · exact ⟨n, by simp [member, fresh], by simp⟩
  · intro m
    simp only [Finset.mem_sdiff, mem_toFinset, mem_cons, not_or]
    exact fun isFresh => ⟨isFresh.1, isFresh.2.2⟩

/-- What a search for the item may answer. -/
def Answers (fits : N → P → Bool) (room : N → Nat) (nodes : List N) (p : P) (s : Search N P) :
    Bool × Search N P → Prop
  | (true, s') => Took fits room nodes p s s'
  | (false, s') => Explored fits room nodes s s' ∧ Reached fits room nodes s'.seen p

/-- The search with one node taken off the visited ones. -/
def Search.unmark (s : Search N P) (n : N) : Search N P :=
  { s with seen := s.seen.filter (· ≠ n) }

/-- What was visited in vain does not count against the search that succeeds. -/
theorem Took.earlier {s'' : Search N P} (took : Took fits room nodes p s' s'')
    (same : s'.held = s.held) (grows : ∀ n ∈ s.seen, n ∈ s'.seen) :
    Took fits room nodes p s s'' where
  kept n early := (took.kept n (grows n early)).trans (congrFun same n)
  counts q := by rw [took.counts q, same]
  sound allowed := took.sound (same ▸ allowed)

/-- Making a place on a full node.  The node itself is marked, so moving its items leaves
it as it is; the item that finds another node is held twice for a moment, and is then
overwritten here. -/
theorem Took.overwrite {other : P} {before rest : List P}
    (took : Took fits room nodes other s s') (member : n ∈ nodes) (suits : fits n p = true)
    (shape : s.held n = before ++ other :: rest) (marked : n ∈ s.seen) :
    Took fits room nodes p (s.unmark n)
      { s' with held := Function.update s'.held n ((s'.held n).set before.length p) } := by
  have here : s'.held n = before ++ other :: rest := (took.kept n marked).trans shape
  have replaced : (s'.held n).set before.length p = before ++ p :: rest := by
    rw [here]
    simp
  rw [replaced]
  refine ⟨?_, ?_, ?_⟩
  · intro m early
    obtain ⟨early, isOther⟩ := mem_filter.mp early
    show Function.update s'.held n _ m = _
    rw [Function.update_of_ne (by simpa using isOther), took.kept m early]
    rfl
  · intro q
    have balance := total_update member s'.held (before ++ p :: rest) q
    have moved := took.counts q
    show total nodes _ q = total nodes s.held q + _
    rw [here] at balance
    simp only [count_append, count_cons, count_nil] at balance moved ⊢
    omega
  · intro sound
    have sound' := took.sound sound
    have suits' := sound'.suits n member
    have load := sound'.load n member
    rw [here] at suits' load
    apply sound'.update
    · intro q isHeld
      rcases mem_append.mp isHeld with early | late
      · exact suits' q (mem_append_left _ early)
      · rcases mem_cons.mp late with rfl | late
        · exact suits
        · exact suits' q (by simp [late])
    · simpa using load

/-- What the loop over the items of a marked node may answer: one of them has made way, or
none of them can. -/
def MakesWay (fits : N → P → Bool) (room : N → Nat) (nodes : List N) (p : P) (n : N)
    (tried : List P) (s : Search N P) : Bool × Search N P → Prop
  | (true, s') => Took fits room nodes p (s.unmark n) s'
  | (false, s') => Explored fits room nodes s s' ∧
      ∀ q ∈ tried, Reached fits room nodes s'.seen q

/-- The loop over what a full node holds, for nested searches that answer as they should. -/
theorem tryHeld_makesWay {depth : Nat}
    (answers : ∀ q s, unseen nodes s ≤ depth → Answers fits room nodes q s (displace q s))
    (member : n ∈ nodes) (suits : fits n p = true) :
    ∀ (rest before : List P) (s : Search N P), s.held n = before ++ rest → n ∈ s.seen →
      unseen nodes s ≤ depth →
      MakesWay fits room nodes p n rest s (tryHeld displace p n before.length rest s) := by
  intro rest
  induction rest with
  | nil =>
    intro before s _ _ _
    exact ⟨Explored.refl s, nofun⟩
  | cons other rest ih =>
    intro before s shape marked few
    have answer := answers other s few
    unfold tryHeld
    rcases found : displace other s with ⟨_ | _, s'⟩
    · -- the item cannot be moved; the next one is tried with what has been visited
      rw [found] at answer
      obtain ⟨explored, reached⟩ := answer
      have later := ih (before ++ [other]) s' (by rw [explored.same, shape]; simp)
        (explored.grows n marked) ((unseen_le explored.grows).trans few)
      rw [length_append, length_singleton] at later
      show MakesWay fits room nodes p n (other :: rest) s
        (tryHeld displace p n (before.length + 1) rest s')
      rcases more : tryHeld displace p n (before.length + 1) rest s' with ⟨_ | _, s''⟩
      · rw [more] at later
        obtain ⟨further, others⟩ := later
        refine ⟨explored.trans further, ?_⟩
        intro q isItem
        rcases mem_cons.mp isItem with rfl | isLater
        · exact reached.mono further.grows
        · exact others q isLater
      · rw [more] at later
        refine Took.earlier later (s := s.unmark n) explored.same fun m early => ?_
        obtain ⟨early, isOther⟩ := mem_filter.mp early
        exact mem_filter.mpr ⟨explored.grows m early, isOther⟩
    · rw [found] at answer
      exact Took.overwrite answer member suits shape marked

omit [DecidableEq P] in
/-- A full node that was visited, none of whose items can be moved. -/
theorem Explored.mark (member : n ∈ nodes) (full : room n ≤ (s.held n).length)
    (reached : ∀ q ∈ s.held n, Reached fits room nodes s'.seen q)
    (explored : Explored fits room nodes { s with seen := n :: s.seen } s') :
    Explored fits room nodes s s' where
  same := explored.same
  grows m early := explored.grows m (mem_cons_of_mem n early)
  within m visited := by
    rcases explored.within m visited with early | isNode
    · rcases mem_cons.mp early with rfl | early
      · exact Or.inr member
      · exact Or.inl early
    · exact Or.inr isNode
  full m visited fresh := by
    by_cases same : m = n
    · exact same ▸ full
    · exact explored.full m visited (by simp [same, fresh])
  closed m visited fresh := by
    by_cases same : m = n
    · exact same ▸ reached
    · exact explored.closed m visited (by simp [same, fresh])

theorem Explored.answers (explored : Explored fits room nodes s s') {answer : Bool × Search N P}
    (later : Answers fits room nodes p s' answer) : Answers fits room nodes p s answer := by
  rcases answer with ⟨_ | _, s''⟩
  · exact ⟨explored.trans later.1, later.2⟩
  · exact Took.earlier later explored.same explored.grows

/-- An item goes to a node that still has room. -/
theorem took_append (member : n ∈ nodes) (fresh : n ∉ s.seen)
    (suits : fits n p = true) (space : (s.held n).length < room n) (seen : List N) :
    Took fits room nodes p s ⟨Function.update s.held n (s.held n ++ [p]), seen⟩ := by
  refine ⟨?_, ?_, ?_⟩
  · intro m early
    have isOther : m ≠ n := fun same => fresh (same ▸ early)
    exact Function.update_of_ne isOther _ _
  · intro q
    have balance := total_update member s.held (s.held n ++ [p]) q
    rw [count_append] at balance
    show total nodes (Function.update s.held n (s.held n ++ [p])) q = _
    omega
  · intro sound
    apply sound.update
    · intro q isHeld
      rcases mem_append.mp isHeld with early | isNew
      · exact sound.suits n member q early
      · rw [mem_singleton.mp isNew]
        exact suits
    · rw [length_append, length_singleton]
      exact space

/-- The loop over the nodes, for nested searches that answer as they should. -/
theorem tryNodes_answers {depth : Nat}
    (answers : ∀ q s, unseen nodes s ≤ depth → Answers fits room nodes q s (displace q s)) :
    ∀ (rest : List N), (∀ n ∈ rest, n ∈ nodes) → ∀ s : Search N P, unseen nodes s ≤ depth + 1 →
      (∀ n ∈ nodes, room n ≠ 0 → fits n p = true → n ∈ rest ∨ n ∈ s.seen) →
      Answers fits room nodes p s (tryNodes fits room displace p rest s) := by
  intro rest
  induction rest with
  | nil =>
    intro _ s _ visited
    refine ⟨Explored.refl s, fun n member hasRoom suits => ?_⟩
    exact (visited n member hasRoom suits).resolve_left (not_mem_nil)
  | cons n rest ih =>
    intro inside s few visited
    have member := inside n mem_cons_self
    have inside' : ∀ m ∈ rest, m ∈ nodes := fun m isLater =>
      inside m (mem_cons_of_mem _ isLater)
    unfold tryNodes
    by_cases skipped : n ∈ s.seen ∨ room n = 0 ∨ fits n p = false
    -- seen already, without any room, or unfit: nothing is to be explored
    · rw [if_pos skipped]
      apply ih inside' s few
      intro m isNode hasRoom suits
      rcases visited m isNode hasRoom suits with isListed | early
      · rcases mem_cons.mp isListed with rfl | isLater
        · rcases skipped with early | full | unfit
          · exact Or.inr early
          · exact absurd full hasRoom
          · rw [unfit] at suits
            cases suits
        · exact Or.inl isLater
      · exact Or.inr early
    · rw [if_neg skipped]
      simp only [not_or, Bool.not_eq_false] at skipped
      obtain ⟨fresh, hasRoom, suits⟩ := skipped
      let marked : Search N P := { s with seen := n :: s.seen }
      have fewer : unseen nodes marked ≤ depth := by
        have one := unseen_mark member fresh
        show unseen nodes { s with seen := n :: s.seen } ≤ depth
        omega
      by_cases space : (s.held n).length < room n
      · rw [if_pos space]
        exact took_append member fresh suits space _
      · rw [if_neg space]
        -- the node is full: one of those it holds may make way
        have way := tryHeld_makesWay answers member suits (s.held n) [] marked rfl
          mem_cons_self fewer
        rcases made : tryHeld displace p n 0 (s.held n) marked with ⟨_ | _, s'⟩
        · rw [length_nil, made] at way
          -- none did, and the node counts as explored
          have explored := way.1.mark member (Nat.le_of_not_lt space) way.2
          simp only
          apply explored.answers
          apply ih inside' s' ((unseen_le explored.grows).trans few)
          intro m isNode hasRoom suits
          rcases visited m isNode hasRoom suits with isListed | early
          · rcases mem_cons.mp isListed with rfl | isLater
            · exact Or.inr (way.1.grows m mem_cons_self)
            · exact Or.inl isLater
          · exact Or.inr (explored.grows m early)
        · rw [length_nil, made] at way
          refine Took.earlier way (s := s) rfl fun m early => ?_
          refine mem_filter.mpr ⟨mem_cons_of_mem n early, ?_⟩
          exact decide_eq_true fun same => fresh (same ▸ early)

theorem place_answers (fits : N → P → Bool) (room : N → Nat) (nodes : List N) (depth : Nat) :
    ∀ (p : P) (s : Search N P), unseen nodes s ≤ depth →
      Answers fits room nodes p s (place fits room nodes depth p s) := by
  induction depth with
  | zero =>
    intro p s none
    refine ⟨Explored.refl s, fun n member _ _ => ?_⟩
    by_contra fresh
    have one := unseen_mark member fresh
    omega
  | succ depth ih =>
    intro p s few
    exact tryNodes_answers ih nodes (fun _ member => member) s few
      fun n member _ _ => Or.inl member

/-! ## A failed search -/

/-- The nodes hold each of these items once, as they may. -/
structure Holds (fits : N → P → Bool) (room : N → Nat) (nodes : List N) (items : List P)
    (held : N → List P) : Prop where
  counts : ∀ q, total nodes held q = items.count q
  sound : Sound fits room nodes held

/-- The nodes hold at least as many different items as their lists are long. -/
theorem Holds.sum_length_le (holds : Holds fits room nodes items held) (distinct : items.Nodup)
    {visited : Finset N} (inside : ∀ n ∈ visited, n ∈ nodes) :
    ∑ n ∈ visited, (held n).length ≤ (visited.biUnion fun n => (held n).toFinset).card := by
  have apart : ∀ n ∈ visited, (held n).length =
      ∑ q ∈ visited.biUnion fun n => (held n).toFinset, (held n).count q := by
    intro n member
    rw [← sum_toFinset_count_eq_length (held n)]
    apply Finset.sum_subset
    · exact Finset.subset_biUnion_of_mem (fun n => (held n).toFinset) member
    · intro q _ absent
      exact count_eq_zero.mpr fun isHeld => absent (mem_toFinset.mpr isHeld)
  rw [Finset.sum_congr rfl apart, Finset.sum_comm, Finset.card_eq_sum_ones]
  apply Finset.sum_le_sum
  intro q _
  calc ∑ n ∈ visited, (held n).count q
      ≤ total nodes held q := Finset.sum_le_sum_of_subset fun n member =>
        mem_toFinset.mpr (inside n member)
    _ = items.count q := holds.counts q
    _ ≤ 1 := nodup_iff_count_le_one.mp distinct q

theorem Holds.mem_items (holds : Holds fits room nodes items held) (member : n ∈ nodes)
    (isHeld : q ∈ held n) : q ∈ items := by
  have counted : (held n).count q ≤ total nodes held q :=
    Finset.single_le_sum (f := fun n => (held n).count q) (fun _ _ => Nat.zero_le _)
      (mem_toFinset.mpr member)
  have once := count_pos_iff.mpr isHeld
  rw [holds.counts q] at counted
  exact count_pos_iff.mp (by omega)

section

variable (assigns : Assigns fits room nodes items on)
include assigns

/-- The items of a set that all go to some visited node are no more than those have room
for. -/
theorem Assigns.card_le
    {group : Finset P} {visited : Finset N} (listed : ∀ q ∈ group, q ∈ items)
    (inside : ∀ n ∈ visited, n ∈ nodes) (goes : ∀ q ∈ group, on q ∈ visited) :
    group.card ≤ ∑ n ∈ visited, room n := by
  rw [Finset.card_eq_sum_card_fiberwise goes]
  apply Finset.sum_le_sum
  intro n member
  have sub : {q ∈ group | on q = n} ⊆ (items.filter (on · = n)).toFinset := by
    intro q isHere
    obtain ⟨isItem, here⟩ := Finset.mem_filter.mp isHere
    simp [listed q isItem, here]
  calc ({q ∈ group | on q = n} : Finset P).card
      ≤ (items.filter (on · = n)).toFinset.card := Finset.card_le_card sub
    _ ≤ (items.filter (on · = n)).length := toFinset_card_le _
    _ = items.countP (on · = n) := countP_eq_length_filter.symm
    _ ≤ room n := assigns.load n (inside n member)

omit [DecidableEq P] in
/-- An item that is somewhere takes room there, so its search has visited the node. -/
theorem Assigns.on_mem (isItem : q ∈ items) {seen : List N}
    (reached : Reached fits room nodes seen q) : on q ∈ seen := by
  have isNode := assigns.inside q isItem
  refine reached (on q) isNode ?_ (assigns.suits q isItem)
  have load := assigns.load (on q) isNode
  have counted : 0 < items.countP (on · = on q) := countP_pos_iff.mpr ⟨q, isItem, by simp⟩
  omega

/-- The search for an item cannot fail while everything can be placed: the new item and the
items of the visited nodes would outnumber the room of the only nodes that may take
them. -/
theorem Assigns.not_stuck {placed : List P} (isItem : p ∈ items)
    (fresh : p ∉ placed) (distinct : placed.Nodup) (listed : ∀ q ∈ placed, q ∈ items)
    (holds : Holds fits room nodes placed held) (explored : Explored fits room nodes ⟨held, []⟩ s)
    (reached : Reached fits room nodes s.seen p) : False := by
  have inside : ∀ n ∈ s.seen.toFinset, n ∈ nodes := fun n visited =>
    (explored.within n (mem_toFinset.mp visited)).resolve_left not_mem_nil
  let moved : Finset P := s.seen.toFinset.biUnion fun n => (held n).toFinset
  have isPlaced : ∀ q ∈ moved, q ∈ placed := by
    intro q member
    obtain ⟨n, visited, isHeld⟩ := Finset.mem_biUnion.mp member
    exact holds.mem_items (inside n visited) (mem_toFinset.mp isHeld)
  have outnumbered : (insert p moved).card ≤ ∑ n ∈ s.seen.toFinset, room n := by
    apply assigns.card_le _ inside
    · intro q member
      apply mem_toFinset.mpr
      rcases Finset.mem_insert.mp member with rfl | member
      · exact assigns.on_mem isItem reached
      · apply assigns.on_mem (listed q (isPlaced q member))
        obtain ⟨n, visited, isHeld⟩ := Finset.mem_biUnion.mp member
        exact explored.closed n (mem_toFinset.mp visited) not_mem_nil q
          (mem_toFinset.mp isHeld)
    · intro q member
      rcases Finset.mem_insert.mp member with rfl | member
      · exact isItem
      · exact listed q (isPlaced q member)
  rw [Finset.card_insert_of_notMem fun member => fresh (isPlaced p member)] at outnumbered
  have full : ∑ n ∈ s.seen.toFinset, room n ≤ ∑ n ∈ s.seen.toFinset, (held n).length :=
    Finset.sum_le_sum fun n visited =>
      explored.full n (mem_toFinset.mp visited) not_mem_nil
  have many : _ ≤ moved.card := holds.sum_length_le distinct inside
  omega

end

/-! ## The whole loop -/

theorem Holds.took (holds : Holds fits room nodes items held)
    (took : Took fits room nodes p ⟨held, []⟩ s) :
    Holds fits room nodes (items ++ [p]) s.held where
  counts q := by
    rw [took.counts q, count_append]
    exact congrArg (· + [p].count q) (holds.counts q)
  sound := took.sound holds.sound

theorem holds_nil : Holds fits room nodes ([] : List P) fun _ => [] where
  counts q := by simp [total]
  sound := ⟨by simp, by simp⟩

omit [DecidableEq P] in
theorem unseen_start (held : N → List P) : unseen nodes ⟨held, []⟩ ≤ nodes.length := by
  show (nodes.toFinset \ ([] : List N).toFinset).card ≤ _
  rw [toFinset_nil, Finset.sdiff_empty]
  exact toFinset_card_le nodes

omit [DecidableEq P] in
theorem grow_le (fits : N → P → Bool) (room : N → Nat) (nodes : List N) (limit : Int) :
    ∀ (items : List P) (held : N → List P) (matched : Nat),
      grow fits room nodes limit items held matched ≤ matched + items.length := by
  intro items
  induction items with
  | nil => intro held matched; exact Nat.le_refl _
  | cons p rest ih =>
    intro held matched
    unfold grow
    split
    · rcases place fits room nodes nodes.length p ⟨held, []⟩ with ⟨_ | _, s⟩
      · have later := ih s.held matched
        rw [length_cons]
        exact later.trans (by omega)
      · have later := ih s.held (matched + 1)
        rw [length_cons]
        exact later.trans (by omega)
    · omega

/-- What the loop has placed when it has placed everything. -/
theorem grow_sound (limit : Int) : ∀ (items placed : List P) (held : N → List P) (matched : Nat),
    Holds fits room nodes placed held →
    grow fits room nodes limit items held matched = matched + items.length →
      ∃ held', Holds fits room nodes (placed ++ items) held' := by
  intro items
  induction items with
  | nil =>
    intro placed held matched holds _
    exact ⟨held, by rwa [append_nil]⟩
  | cons p rest ih =>
    intro placed held matched holds all
    have answer := place_answers fits room nodes nodes.length p ⟨held, []⟩ (unseen_start held)
    unfold grow at all
    rw [length_cons] at all
    split at all
    · rcases found : place fits room nodes nodes.length p ⟨held, []⟩ with ⟨_ | _, s⟩
      · rw [found] at all
        have few := grow_le fits room nodes limit rest s.held matched
        simp only at all
        omega
      · rw [found] at all answer
        have placed' := ih (placed ++ [p]) s.held (matched + 1) (holds.took answer)
          (all.trans (by omega))
        rwa [append_assoc] at placed'
    · omega

/-- The loop misses no item while everything can be placed at once. -/
theorem grow_complete {all : List P} (assigns : Assigns fits room nodes all on)
    (limit : Int) : ∀ (items placed : List P) (held : N → List P) (matched : Nat),
    Holds fits room nodes placed held → (placed ++ items).Nodup →
    (∀ q ∈ placed ++ items, q ∈ all) → ((matched + items.length : Nat) : Int) ≤ limit →
      grow fits room nodes limit items held matched = matched + items.length := by
  intro items
  induction items with
  | nil => intro placed held matched _ _ _ _; rfl
  | cons p rest ih =>
    intro placed held matched holds distinct listed enough
    rw [length_cons] at enough ⊢
    have answer := place_answers fits room nodes nodes.length p ⟨held, []⟩ (unseen_start held)
    have split := nodup_append.mp distinct
    unfold grow
    rw [if_pos (by omega)]
    rcases found : place fits room nodes nodes.length p ⟨held, []⟩ with ⟨_ | _, s⟩
    · rw [found] at answer
      exfalso
      apply assigns.not_stuck (listed p (by simp)) _ split.1 _ holds answer.1 answer.2
      · exact fun early => split.2.2 p early p mem_cons_self rfl
      · exact fun q early => listed q (mem_append_left _ early)
    · rw [found] at answer
      have shape : placed ++ [p] ++ rest = placed ++ p :: rest := by simp
      have later := ih (placed ++ [p]) s.held (matched + 1) (holds.took answer)
        (shape ▸ distinct) (shape ▸ listed) (by omega)
      exact later.trans (by omega)

/-- What the nodes hold, read as a placement. -/
theorem Holds.assigns [Inhabited N] (holds : Holds fits room nodes items held)
    (distinct : items.Nodup) : ∃ on, Assigns fits room nodes items on := by
  have found : ∀ p ∈ items, ∃ n ∈ nodes, p ∈ held n := by
    intro p isItem
    have counted : 0 < total nodes held p := by
      rw [holds.counts p]
      exact count_pos_iff.mpr isItem
    obtain ⟨n, member, isHeld⟩ := Finset.exists_ne_zero_of_sum_ne_zero (Nat.ne_of_gt counted)
    exact ⟨n, mem_toFinset.mp member, count_pos_iff.mp (Nat.pos_of_ne_zero isHeld)⟩
  choose! on isNode isHeld using found
  refine ⟨on, isNode, fun p isItem => holds.sound.suits _ (isNode p isItem) p (isHeld p isItem),
    fun n member => ?_⟩
  rw [countP_eq_length_filter]
  have here : (items.filter (on · = n)).Subperm (held n) := by
    apply subperm_of_subset (distinct.filter _)
    intro p isHere
    obtain ⟨isItem, same⟩ := mem_filter.mp isHere
    exact (of_decide_eq_true same) ▸ isHeld p isItem
  exact here.length_le.trans (holds.sound.load n member)

/-- **The loop places every item exactly when they can all be placed at once.** -/
theorem grow_eq_length_iff [Inhabited N] (distinct : items.Nodup) {limit : Int}
    (enough : (items.length : Int) ≤ limit) :
    grow fits room nodes limit items (fun _ => []) 0 = items.length ↔
      ∃ on, Assigns fits room nodes items on := by
  constructor
  · intro all
    obtain ⟨held, holds⟩ := grow_sound limit items [] (fun _ => []) 0 holds_nil
      (all.trans (Nat.zero_add _).symm)
    exact holds.assigns distinct
  · rintro ⟨on, assigns⟩
    have all := grow_complete assigns limit items [] (fun _ => []) 0 holds_nil distinct
      (fun _ member => member) (by omega)
    omega

end Correct

end Ome.Theory.Matching
