/-
# Ome.Alfred.Admission — admitted moves are jointly feasible, and priority is real

What one call of the arbiter admits, taken together.

* `admission_eq_ok` says once what a candidate must have passed.
* `Books` ties the books of a call to what it started with: what no landing has touched
  is as it was, so a placement checked against the books is good against the start.
* `admitted_moves_jointly_feasible`: the caps, the exclusions, the capacity, and that the
  decisions on health and maintenance candidates depend on those candidates only.

An advisory candidate is not arbitrated and protects nothing, and a move to a TPU slice
places no GPUs (`admit_advisory_source`).
-/
import Ome.Alfred.Placement
import Ome.Theory.StableSort

namespace Ome.Alfred

open Ome.Theory List GoMap

set_option autoImplicit false

variable {c : Candidate} {overridden : Bool} {start : AdmitState}

/-! ## One candidate -/

namespace AdmitState

variable {st : AdmitState}

theorem admission_eq_ok {target : String} {placement : GoMap String Int}
    (ok : st.admission c = .ok (target, placement, overridden)) :
    ∃ w inst, st.snap.workloads.get c.workload = some w ∧ lookupInstance w c = some inst ∧
      c.workload.text ∉ st.admittedWorkloads ∧
      st.selectTarget c inst = .ok (target, placement) ∧
      st.inFlight + st.admitted < st.cfg.maxInFlightMigrations ∧
      st.hourly + st.admitted < st.cfg.maxMigrationsPerHour := by
  unfold admission at ok
  rw [refuse_bind_eq_ok] at ok
  obtain ⟨_, ok⟩ := ok
  cases isThere : st.snap.workloads.get c.workload with
  | none => simp [isThere] at ok
  | some w =>
    simp only [isThere] at ok
    cases addressed : lookupInstance w c with
    | none => simp [addressed] at ok
    | some inst =>
      simp only [addressed] at ok
      obtain ⟨overridden', eligible, ok⟩ := bind_eq_ok.mp ok
      obtain ⟨⟨target', placement'⟩, selected, ok⟩ := bind_eq_ok.mp ok
      simp only [refuse_bind_eq_ok, pure_eq_ok, Prod.mk.injEq, not_le] at ok
      obtain ⟨inFlight, hourly, rfl, rfl, -⟩ := ok
      unfold AdmitState.eligible at eligible
      simp only [refuse_bind_eq_ok] at eligible
      obtain ⟨-, -, -, -, free, -⟩ := eligible
      exact ⟨w, inst, rfl, addressed, fun busy => free (Or.inr busy), selected, inFlight, hourly⟩

/-- A candidate is turned away and the books stay, or it is admitted and recorded. -/
theorem decideOn_cases (st : AdmitState) (c : Candidate) :
    (∃ reason, st.decideOn c = (⟨c, false, some reason, "", false⟩, empty, st)) ∨
    ∃ target placement overridden, st.admission c = .ok (target, placement, overridden) ∧
      st.decideOn c =
        (⟨c, true, none, target, overridden⟩, placement, st.record c placement) := by
  unfold decideOn
  cases answer : st.admission c with
  | error reason => exact Or.inl ⟨reason, rfl⟩
  | ok found =>
    obtain ⟨target, placement, overridden⟩ := found
    exact Or.inr ⟨target, placement, overridden, rfl, rfl⟩

/-! ## The books of a call -/

/-- The books, beside what the call started with: only the claims, the landings, the
workloads and the count change, and the claims only where something landed. -/
structure Books (start st : AdmitState) : Prop where
  snap : st.snap = start.snap
  cfg : st.cfg = start.cfg
  evacuating : st.evacuating = start.evacuating
  cooling : ∀ node, st.nodeCooling node = start.nodeCooling node
  inFlight : st.inFlight = start.inFlight
  hourly : st.hourly = start.hourly
  claims : ∀ node, node ∉ st.landed → st.claims.get node = start.claims.get node

/-- What a placement holds to, against what the call started with. -/
structure Lands (start : AdmitState) (c : Candidate) (placement : GoMap String Int) : Prop where
  nodes : ∀ node ∈ placement.keys, ∃ n, start.snap.node node = some n ∧
    n.unavailableAsTarget = false ∧ node ∉ start.evacuating ∧ start.nodeCooling node = false ∧
    placement.get node + start.claims.get node ≤ n.freeGPUs
  pods : c.tpuSlice = false → c.surgeShaped = true → ∀ w inst,
    start.snap.workloads.get c.workload = some w → lookupInstance w c = some inst →
    gpuPods inst ≠ [] → ∃ placed : List (PodInfo × String),
      (placed.map Prod.fst).Perm (gpuPods inst) ∧ (∀ pair ∈ placed, pair.2 ∈ placement.keys) ∧
      ∀ node, placement.get node =
        ((placed.filter (·.2 = node)).map fun pair => pair.1.gpus).sum

theorem Books.record (books : Books start st) (c : Candidate)
    (placement : GoMap String Int) : Books start (st.record c placement) where
  snap := books.snap
  cfg := books.cfg
  evacuating := books.evacuating
  cooling := books.cooling
  inFlight := books.inFlight
  hourly := books.hourly
  claims node untouched := by
    have split : node ∉ placement.keys ∧ node ∉ st.landed := by
      simpa [AdmitState.record] using untouched
    rw [← books.claims node split.2]
    exact (get_foldl_each (fun name v => v + placement.get name)
      (fun m k j => m.get_set k j _) node placement.nodup st.claims).trans (if_neg split.1)

theorem Books.lands (books : Books start st) {target : String} {placement : GoMap String Int}
    (ok : st.admission c = .ok (target, placement, overridden)) :
    Lands start c placement ∧ ∀ node ∈ placement.keys, node ∉ st.landed := by
  obtain ⟨w, inst, isThere, addressed, _, selected, _⟩ := admission_eq_ok ok
  have spare := st.selectTarget_spare selected
  refine ⟨⟨fun node member => ?_, ?_⟩, fun node member => ?_⟩
  · obtain ⟨takes, enough⟩ := spare node member
    obtain ⟨n, known, available, notEvacuated, notLanded, notCooling⟩ := st.takes_iff.mp takes
    refine ⟨n, books.snap ▸ known, available, books.evacuating ▸ notEvacuated,
      books.cooling node ▸ notCooling, ?_⟩
    unfold AdmitState.spare at enough
    rw [known, books.claims node notLanded] at enough
    simp only at enough
    omega
  · intro noSlice surge w' inst' isThere' addressed' some
    rw [books.snap, isThere'] at isThere
    obtain rfl : w' = w := Option.some.inj isThere
    rw [addressed'] at addressed
    obtain rfl : inst' = inst := Option.some.inj addressed
    exact st.selectTarget_pods selected noSlice surge some
  · obtain ⟨takes, _⟩ := spare node member
    obtain ⟨n, _, _, _, notLanded, _⟩ := st.takes_iff.mp takes
    exact notLanded

/-! ## All the candidates -/

/-- Each admitted move lands well, apart from what the books already hold. -/
theorem Books.decideAll_lands : ∀ (cs : List Candidate) {st : AdmitState},
    Books start st → ∀ e ∈ decideAll cs st, e.1.admitted = true →
      Lands start e.1.candidate e.2 ∧ (∀ node ∈ e.2.keys, node ∉ st.landed) ∧
        e.1.candidate.workload.text ∉ st.admittedWorkloads := by
  intro cs
  induction cs with
  | nil => intro st _ e member; cases member
  | cons c rest ih =>
    intro st books e member isAdmitted
    rw [decideAll] at member
    rcases st.decideOn_cases c with ⟨reason, turned⟩ | ⟨target, placement, _, ok, taken⟩
    · rw [turned] at member
      rcases mem_cons.mp member with rfl | later
      · cases isAdmitted
      · exact ih books e later isAdmitted
    · rw [taken] at member
      rcases mem_cons.mp member with rfl | later
      · obtain ⟨_, _, _, _, free, _⟩ := admission_eq_ok ok
        exact ⟨(books.lands ok).1, (books.lands ok).2, free⟩
      · obtain ⟨lands, apart, free⟩ := ih (books.record c placement) e later isAdmitted
        refine ⟨lands, fun node used landed => apart node used ?_, fun busy => free ?_⟩
        · exact mem_append_right _ landed
        · exact mem_cons_of_mem _ busy

/-- Two moves of one call that are both admitted share no workload and no landing node. -/
def Apart (e e' : Decision × GoMap String Int) : Prop :=
  e.1.admitted = true → e'.1.admitted = true →
    e.1.candidate.workload ≠ e'.1.candidate.workload ∧ ∀ node ∈ e.2.keys, node ∉ e'.2.keys

theorem Books.decideAll_apart : ∀ (cs : List Candidate) {st : AdmitState},
    Books start st → (decideAll cs st).Pairwise Apart := by
  intro cs
  induction cs with
  | nil => intro st _; exact List.Pairwise.nil
  | cons c rest ih =>
    intro st books
    rw [decideAll]
    rcases st.decideOn_cases c with ⟨reason, turned⟩ | ⟨target, placement, _, ok, taken⟩
    · rw [turned]
      refine pairwise_cons.mpr ⟨fun e _ isAdmitted => ?_, ih books⟩
      cases isAdmitted
    · rw [taken]
      have after := books.record c placement
      refine pairwise_cons.mpr ⟨fun e later _ isAdmitted => ?_, ih after⟩
      obtain ⟨_, apart, free⟩ := after.decideAll_lands rest e later isAdmitted
      refine ⟨fun same => free ?_, fun node used used' => apart node used' ?_⟩
      · rw [← same]
        exact mem_cons_self
      · exact mem_append_left _ used

/-- The caps bound what is admitted from here on. -/
theorem Books.decideAll_count : ∀ (cs : List Candidate) {st : AdmitState},
    Books start st →
    ((decideAll cs st).countP (·.1.admitted) : Int) ≤
        max 0 (start.cfg.maxInFlightMigrations - start.inFlight - st.admitted) ∧
      ((decideAll cs st).countP (·.1.admitted) : Int) ≤
        max 0 (start.cfg.maxMigrationsPerHour - start.hourly - st.admitted) := by
  intro cs
  induction cs with
  | nil =>
    intro st _
    rw [decideAll, countP_nil]
    exact ⟨le_max_left _ _, le_max_left _ _⟩
  | cons c rest ih =>
    intro st books
    rw [decideAll]
    rcases st.decideOn_cases c with ⟨reason, turned⟩ | ⟨target, placement, _, ok, taken⟩
    · rw [turned]
      exact ih books
    · rw [taken]
      obtain ⟨_, _, _, _, _, _, inFlight, hourly⟩ := admission_eq_ok ok
      have one : (st.record c placement).admitted = st.admitted + 1 := rfl
      have later := ih (books.record c placement)
      rw [one] at later
      rw [books.cfg, books.inFlight] at inFlight
      rw [books.cfg, books.hourly] at hourly
      simp only [countP_cons, if_true]
      omega

/-! ## Priority -/

theorem decideAll_append (ys : List Candidate) : ∀ (xs : List Candidate) (st : AdmitState),
    ∃ st', decideAll (xs ++ ys) st = decideAll xs st ++ decideAll ys st' := by
  intro xs
  induction xs with
  | nil => intro st; exact ⟨st, rfl⟩
  | cons c rest ih =>
    intro st
    obtain ⟨st', later⟩ := ih (st.decideOn c).2.2
    exact ⟨st', congrArg (((st.decideOn c).1, (st.decideOn c).2.1) :: ·) later⟩

theorem candidates_decideAll : ∀ (cs : List Candidate) (st : AdmitState),
    (decideAll cs st).map (·.1.candidate) = cs := by
  intro cs
  induction cs with
  | nil => intro st; rfl
  | cons c rest ih =>
    intro st
    have own : (st.decideOn c).1.candidate = c := by
      rcases st.decideOn_cases c with ⟨_, turned⟩ | ⟨_, _, _, _, taken⟩
      · rw [turned]
      · rw [taken]
    show (st.decideOn c).1.candidate :: _ = _
    rw [own, ih]

end AdmitState

theorem admitsBefore_iff {x y : Candidate} :
    AdmitsBefore x y ↔ candidatePriority y < candidatePriority x ∨
      candidatePriority x = candidatePriority y ∧
        (y.score < x.score ∨ x.score = y.score ∧ x.footprintGPUs ≤ y.footprintGPUs) := by
  -- the first two keys descend
  have score := not_lexLess_iff (x := OrderDual.toDual x.score) (y := OrderDual.toDual y.score)
    (p := y.footprintGPUs < x.footprintGPUs)
  rw [not_lt] at score
  rw [AdmitsBefore, ← Bool.not_eq_true, admitLess, Bool.ite_eq_true_distrib,
    Bool.ite_eq_true_distrib]
  simp only [decide_eq_true_eq]
  exact (not_lexLess_iff (x := OrderDual.toDual (candidatePriority x))).trans
    (or_congr_right (and_congr_right fun _ => score))

theorem admitsBefore_order : IsTrans Candidate AdmitsBefore ∧ Std.Total AdmitsBefore := by
  refine order_of_key (fun c => toLex (OrderDual.toDual (candidatePriority c),
    toLex (OrderDual.toDual c.score, c.footprintGPUs))) fun x y => ?_
  rw [admitsBefore_iff, Prod.Lex.toLex_le_toLex, Prod.Lex.toLex_le_toLex]
  rfl

theorem mem_admitOrder {cands : List Candidate} :
    c ∈ admitOrder cands ↔ c ∈ cands ∧ c.executable = true := by
  unfold admitOrder
  rw [mem_insertionSort, mem_filter]

/-- Evacuations come first, in the order they have among themselves. -/
theorem admitOrder_eq_append (cands : List Candidate) :
    admitOrder cands = admitOrder (cands.filter (·.evacuates)) ++
      admitOrder (cands.filter fun c => !c.evacuates) := by
  have ⟨_, _⟩ := admitsBefore_order
  unfold admitOrder
  rw [insertionSort_eq_append AdmitsBefore Candidate.evacuates]
  · congr 2
    · exact filter_comm _ _ cands
    · exact filter_comm _ _ cands
  · intro a b routine evacuates before
    rw [admitsBefore_iff] at before
    unfold Candidate.evacuates at routine evacuates
    simp only [decide_eq_false_iff_not, decide_eq_true_eq] at routine evacuates
    omega

/-- **The decisions on evacuations are those of a call with the evacuations alone.** -/
theorem trace_evacuations (a : Arbiter) (snap : ClusterSnapshot) (cands : List Candidate)
    (cfg : Config) (now : Int) :
    (trace a snap cands cfg now).filter (·.1.candidate.evacuates) =
      trace a snap (cands.filter (·.evacuates)) cfg now := by
  have isEvacuation : ∀ c ∈ admitOrder (cands.filter (·.evacuates)), c.evacuates = true :=
    fun c member => (mem_filter.mp (mem_admitOrder.mp member).1).2
  have isRoutine : ∀ c ∈ admitOrder (cands.filter fun c => !c.evacuates), c.evacuates = false :=
    fun c member => by simpa using (mem_filter.mp (mem_admitOrder.mp member).1).2
  have start : newAdmitState a snap cfg (admitOrder cands) now =
      newAdmitState a snap cfg (admitOrder (cands.filter (·.evacuates))) now := by
    have none : (admitOrder (cands.filter fun c => !c.evacuates)).filter
        (fun c => c.evacuates ∧ c.fromNode ≠ "") = [] :=
      filter_eq_nil_iff.mpr fun c member => by simp [isRoutine c member]
    unfold newAdmitState
    rw [admitOrder_eq_append cands, filter_append, none, append_nil]
  unfold trace
  rw [start, admitOrder_eq_append cands]
  obtain ⟨st', split⟩ := AdmitState.decideAll_append
    (admitOrder (cands.filter fun c => !c.evacuates))
    (admitOrder (cands.filter (·.evacuates)))
    (newAdmitState a snap cfg (admitOrder (cands.filter (·.evacuates))) now)
  -- a decision is on a candidate of its part of the list
  have own : ∀ (cs : List Candidate) (st : AdmitState), ∀ e ∈ AdmitState.decideAll cs st,
      e.1.candidate ∈ cs := by
    intro cs st e member
    have isCandidate := mem_map_of_mem (f := fun e => e.1.candidate) member
    rwa [AdmitState.candidates_decideAll] at isCandidate
  rw [split, filter_append,
    filter_eq_self.mpr fun e member => isEvacuation _ (own _ _ e member)]
  have dropped : (AdmitState.decideAll (admitOrder (cands.filter fun c => !c.evacuates)) st').filter
      (·.1.candidate.evacuates) = [] :=
    filter_eq_nil_iff.mpr fun e member => by simp [isRoutine _ (own _ _ e member)]
  rw [dropped, append_nil]

/-! ## The call -/

theorem books_start (a : Arbiter) (snap : ClusterSnapshot) (cfg : Config)
    (ordered : List Candidate) (now : Int) :
    AdmitState.Books (newAdmitState a snap cfg ordered now)
      (newAdmitState a snap cfg ordered now) :=
  ⟨rfl, rfl, rfl, fun _ => rfl, rfl, rfl, fun _ _ => rfl⟩

/-- **Admitted moves are jointly feasible and priority is real.**  Of the decisions of one
call: the admitted ones are within what the caps leave; no two of them share a
workload or a landing node; every landing node is a known and available one, not
cooling and not the source of an evacuation that is arbitrated in the call, and has
the placed GPUs free beside the claims of the ledger; a surge that is not a move to a TPU
slice places every GPU pod of its instance exactly once; and the candidates that
are not evacuations have no influence on the decisions on those that are. -/
theorem admitted_moves_jointly_feasible (a : Arbiter) (snap : ClusterSnapshot)
    (cands : List Candidate) (cfg : Config) (now : Int) :
    let ledger := a.ledger.map (·.absorbSnapshot snap now)
    let load := migrationLoad snap ledger now
    let claims := (ledger.map (·.activeClaims)).getD empty
    (((admitDecisions a snap cands cfg now).countP (·.admitted) : Int) ≤
        max 0 (cfg.maxInFlightMigrations - load.1) ∧
      ((admitDecisions a snap cands cfg now).countP (·.admitted) : Int) ≤
        max 0 (cfg.maxMigrationsPerHour - load.2)) ∧
    (trace a snap cands cfg now).Pairwise (fun e e' =>
      e.1.admitted = true → e'.1.admitted = true →
        e.1.candidate.workload ≠ e'.1.candidate.workload ∧
        ∀ node ∈ e.2.keys, node ∉ e'.2.keys) ∧
    (∀ e ∈ trace a snap cands cfg now, e.1.admitted = true → ∀ node ∈ e.2.keys,
      ∃ n, snap.node node = some n ∧ n.unavailableAsTarget = false ∧
        e.2.get node + claims.get node ≤ n.freeGPUs ∧
        ledger.any (·.nodeCooling node cfg.perNodeCooldown now) = false ∧
        ∀ c ∈ cands, c.executable = true → c.evacuates = true → c.fromNode ≠ "" →
          c.fromNode ≠ node) ∧
    (∀ e ∈ trace a snap cands cfg now, e.1.admitted = true →
      e.1.candidate.surgeShaped = true → e.1.candidate.tpuSlice = false → ∀ w inst,
      snap.workloads.get e.1.candidate.workload = some w →
      lookupInstance w e.1.candidate = some inst → AdmitState.gpuPods inst ≠ [] →
        ∃ placed : List (PodInfo × String),
          (placed.map Prod.fst).Perm (AdmitState.gpuPods inst) ∧
          (∀ pair ∈ placed, pair.2 ∈ e.2.keys) ∧
          ∀ node, e.2.get node =
            ((placed.filter (·.2 = node)).map fun pair => pair.1.gpus).sum) ∧
    ∀ cands', cands'.filter (·.evacuates) = cands.filter (·.evacuates) →
      (trace a snap cands' cfg now).filter (·.1.candidate.evacuates) =
        (trace a snap cands cfg now).filter (·.1.candidate.evacuates) := by
  intro ledger load claims
  have books := books_start a snap cfg (admitOrder cands) now
  have counted : (admitDecisions a snap cands cfg now).countP (·.admitted) =
      (trace a snap cands cfg now).countP (·.1.admitted) := countP_map
  refine ⟨?_, books.decideAll_apart _, ?_, ?_, ?_⟩
  · rw [counted]
    have caps := books.decideAll_count (admitOrder cands)
    have none : (newAdmitState a snap cfg (admitOrder cands) now).admitted = 0 := rfl
    rw [none, Int.sub_zero, Int.sub_zero] at caps
    exact caps
  · intro e member isAdmitted node used
    obtain ⟨lands, _⟩ := books.decideAll_lands _ e member isAdmitted
    obtain ⟨n, known, available, notEvacuated, notCooling, fits⟩ := lands.nodes node used
    refine ⟨n, known, available, fits, notCooling, ?_⟩
    -- the source of an evacuation is on the list of nodes to avoid
    rintro c isCandidate isExecutable evacuates hasSource rfl
    apply notEvacuated
    apply mem_map_of_mem
    exact mem_filter.mpr ⟨mem_admitOrder.mpr ⟨isCandidate, isExecutable⟩,
      by simp [evacuates, hasSource]⟩
  · intro e member isAdmitted surge noSlice
    exact (books.decideAll_lands _ e member isAdmitted).1.pods noSlice surge
  · intro cands' same
    rw [trace_evacuations, trace_evacuations, same]

/-! ## What is not arbitrated -/

def freeNode (name : String) : Node where
  name
  gpuPool := "H100"
  totalGPUs := 8
  freeGPUs := 8
  quarantined := false
  maintenanceRequested := false
  cordoned := false
  scaleDownMarked := false
  preemptible := false
  freeGPUs_nonneg := by decide
  freeGPUs_le := by decide

def gpuPod (node : String) (gpus : Int) : PodInfo where
  ns := "d"
  name := "p"
  node
  gpus
  terminating := false
  startTime := none
  isvc := ⟨"d", "w"⟩
  component := "engine"
  instanceIndex := 0
  instanceIndexPresent := true
  instanceIndexValid := true
  incarnation := 1
  incarnationPresent := true
  incarnationValid := true

/-- A movable workload with one instance of one GPU pod. -/
def steadyWorkload : Workload where
  key := ⟨"d", "w"⟩
  components := ofList
    [("engine", some ⟨[⟨0, 1, [gpuPod "n1" 4], ofList [("n1", 1)], 4⟩]⟩)]
  modelKey := ⟨"", "", ""⟩
  movable := true
  cooldownOverride := none
  spotPolicy := .unset
  lastMigration := none
  activeMigrations := []
  malformedRequests := []
  migrationStateValid := true

def twoNodeSnapshot : ClusterSnapshot where
  nodes := [freeNode "n1", freeNode "n2"]
  distinct := by decide
  workloads := ofList [(⟨"d", "w"⟩, some steadyWorkload)]
  models := empty

def smallConfig : Config := ⟨3, 10, 0, 0, 0, 0, true⟩

/-- A routine surge of the workload onto the second node. -/
def surgeToSecond : Candidate where
  workload := ⟨"d", "w"⟩
  component := "engine"
  instanceIndex := 0
  reason := .fragmentation
  fromNode := "n1"
  hintTargetNodes := ["n2"]
  placementTargetNodes := []
  executable := true
  surgeShaped := true
  tpuSlice := false
  footprintGPUs := 4
  score := 1

/-- An advisory evacuation of the second node. -/
def advisoryEvacuation : Candidate :=
  { surgeToSecond with reason := .nodeUnhealthy, fromNode := "n2", executable := false }

/-- A move of the workload to a new TPU slice. -/
def surgeToSlice : Candidate := { surgeToSecond with tpuSlice := true }

/-- An advisory evacuation does not keep a move off its source; and a surge that moves to a
TPU slice is admitted without placing the GPU pod of its instance. -/
theorem admit_advisory_source :
    ((trace ⟨none, none⟩ twoNodeSnapshot [advisoryEvacuation, surgeToSecond] smallConfig 0).map
        fun e => (e.1.admitted, e.2.keys)) = [(true, [advisoryEvacuation.fromNode])] ∧
    ((trace ⟨none, none⟩ twoNodeSnapshot [surgeToSlice] smallConfig 0).map
        fun e => (e.1.admitted, e.2.keys)) = [(true, [])] := by
  decide

end Ome.Alfred
