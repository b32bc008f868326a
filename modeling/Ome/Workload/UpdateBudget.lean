/-
# Ome.Workload.UpdateBudget — a pass stays within the budgets of its Component

What a Component holds of each budget is a function of the starts that a pass has
admitted (`surgeHeld`, `unavailHeld`).  The counters of the admission agree with it up to
wrapping (`Tracks`), an admitted start leaves what is held below the budget or no higher than
it was (`surge_step`, `unavail_step`), and so does every pass whose sums fit into an `int32`
(`pass_within_budgets`).  Where they do not, a start is admitted past any budget
(`fullPriors_past_budget`).
-/
import Ome.Workload.UpdatePass

namespace Ome.Workload

open Ome.Theory List GoMap

set_option autoImplicit false

section Held

variable (selection : UpdateSelection)

variable (started : List UpdateItem)

/-- What a Component holds of its surge budget after some starts: what was in flight, the
rolled Instances that do not serve, the slots of extra pods that no start replaces, and
the surge starts. -/
def surgeHeld : Int :=
  selection.priorSurgeInFlight + selection.rolledNotServing.length +
    (selection.extraPodSurge.slots - ((started.filter (surgeStart selection)).map fun item =>
      selection.extraPodSurge.liveSlotsByInstance.get item.inst.index).sum) +
    started.countP (surgeStart selection)

/-- A start that takes its pods out of service first. -/
def drainFirst (item : UpdateItem) : Bool := !surgeStart selection item

/-- The Instance is replaced by one of the starts. -/
def Replaced (idx : Int) : Prop :=
  ∃ item ∈ started, drainFirst selection item ∧ item.inst.index = idx

instance (started : List UpdateItem) (idx : Int) : Decidable (Replaced selection started idx) :=
  inferInstanceAs (Decidable (∃ item ∈ started, _))

/-- What it holds of its unavailability budget: with the Instances down outside the roll
that no start replaces. -/
def unavailHeld : Int :=
  selection.priorUnavailInFlight + selection.rolledNotServing.length +
    selection.notServingOutsideRoll.countP (fun idx => ¬ Replaced selection started idx) +
    started.countP (drainFirst selection)

/-- The source's own count of it: every start that replaces such an Instance takes one away. -/
def unavailCounted : Int :=
  selection.priorUnavailInFlight + selection.rolledNotServing.length +
    (selection.notServingOutsideRoll.length - started.countP fun item =>
      drainFirst selection item ∧ selection.downOutsideRoll item.inst.index) +
    started.countP (drainFirst selection)

/-- The counters of an admission are those of its starts, as an `int32` reads them. -/
structure Tracks (started : List UpdateItem) (a : UpdateAdmission) : Prop where
  surge : a.inFlightSurge = wrap32 (started.countP (surgeStart selection))
  unavail : a.inFlightUnavail = wrap32 (started.countP (drainFirst selection))
  slots : a.replacedExtraSlots = wrap32 ((started.filter (surgeStart selection)).map fun item =>
    selection.extraPodSurge.liveSlotsByInstance.get item.inst.index).sum
  down : a.replacedDownOutsideRoll = wrap32 (started.countP fun item =>
    drainFirst selection item ∧ selection.downOutsideRoll item.inst.index)

/-- No sum of the pass against a budget leaves the range of an `int32`: what was held before
and the budget leave room for one more, or what was held for every item. -/
def SumsFit (budget held : Int) : Prop :=
  max budget held + 1 < 2 ^ 31 ∨ held + selection.items.length < 2 ^ 31

end Held

section Steps

variable {input : PassInput} {selection : UpdateSelection} {a : UpdateAdmission}
  {started : List UpdateItem} {item : UpdateItem}

theorem charge_tracks (tracks : Tracks selection started a) :
    Tracks selection (started ++ [item]) (charge selection a item) := by
  obtain ⟨surge, unavail, slots, down⟩ := tracks
  rw [charge]
  by_cases surging : surgeStart selection item
  · rw [if_pos surging]
    refine ⟨?_, ?_, ?_, ?_⟩
    · simp [surge, surging, wrap32]
    · simp [unavail, drainFirst, surging]
    · simp [slots, surging, wrap32]
    · simp [down, drainFirst, surging]
  · rw [if_neg surging]
    refine ⟨?_, ?_, ?_, ?_⟩
    · simp [surge, surging]
    · simp [unavail, drainFirst, surging, wrap32]
    · simp [slots, surging]
    · by_cases listed : selection.downOutsideRoll item.inst.index
      · simp [down, drainFirst, surging, listed, wrap32]
      · simp [down, drainFirst, surging, listed]

/-- A sum that does not wrap is allowed only within the budget. -/
theorem room_of_allowed {budget prior inFlight : Int} (capped : budget ≠ budgetNoLimit)
    (allowed : (budgetDenies budget prior inFlight).2 = false) {projected : Int}
    (same : wrap32 (prior + inFlight + 1) = wrap32 projected) (fits : projected < 2 ^ 31) :
    projected ≤ budget := by
  rw [budgetDenies, if_neg capped, same] at allowed
  have within : wrap32 projected ≤ budget := by simpa using allowed
  exact (le_wrap32 fits).trans within

theorem budgetHold_eq_none : budgetHold input selection a item = none ↔
    rebuildOfANeverPromotedInstance input selection item ∨
      (surgeStart selection item ∧ (surgeVerdict selection a item).2 = false) ∨
      (drainFirst selection item ∧ (unavailVerdict selection a item).2 = false) := by
  rw [budgetHold]
  by_cases rebuild : rebuildOfANeverPromotedInstance input selection item
  · simp [rebuild]
  · by_cases surging : surgeStart selection item
    · simp [rebuild, surging, drainFirst]
    · simp [rebuild, surging, drainFirst]

/-- **A surge start stays within the budget, or takes over slots that were held.** -/
theorem surge_step (tracks : Tracks selection started a)
    (capped : selection.surgeBudget ≠ budgetNoLimit)
    (fits : surgeHeld selection started + 1 < 2 ^ 31)
    (allowed : budgetHold input selection a item = none) :
    surgeHeld selection (started ++ [item]) ≤
      max selection.surgeBudget (surgeHeld selection started) := by
  by_cases surging : surgeStart selection item
  · have after : surgeHeld selection (started ++ [item]) = surgeHeld selection started + 1 -
        selection.extraPodSurge.liveSlotsByInstance.get item.inst.index := by
      simp [surgeHeld, surging]
      omega
    have live := selection.extraPodSurge.live_nonneg item.inst.index
    by_cases holds : 0 < selection.extraPodSurge.liveSlotsByInstance.get item.inst.index
    · omega
    · -- Without live extra pods of its own it answers for every slot that is left.
      have verdict : (surgeVerdict selection a item).2 = false := by
        rw [budgetHold_eq_none] at allowed
        simpa [rebuildOfANeverPromotedInstance, drainFirst, surging] using allowed
      have room := room_of_allowed capped verdict ?_ fits
      · omega
      · rw [unreplacedExtraSlots, if_neg holds, tracks.slots, tracks.surge, surgeHeld]
        refine wrap32_congr ?_
        simp only [Int.add_emod, Int.sub_emod, wrap32_emod, Int.emod_emod]
  · have same : surgeHeld selection (started ++ [item]) = surgeHeld selection started := by
      simp [surgeHeld, surging]
    omega

/-- What is held is no more than the source counts. -/
theorem unavailHeld_le (distinct : (started.map (·.inst.index)).Nodup) :
    unavailHeld selection started ≤ unavailCounted selection started := by
  have all := selection.notServingOutsideRoll.length_eq_countP_add_countP
    (fun idx => decide (Replaced selection started idx))
  have enough : (started.countP fun item =>
      drainFirst selection item ∧ selection.downOutsideRoll item.inst.index) ≤
      selection.notServingOutsideRoll.countP (fun idx => Replaced selection started idx) := by
    rw [countP_eq_length_filter, countP_eq_length_filter,
      ← length_map fun item : UpdateItem => item.inst.index]
    refine (subperm_of_subset ((filter_sublist.map _).nodup distinct) ?_).length_le
    intro idx member
    obtain ⟨item, kept, rfl⟩ := mem_map.mp member
    obtain ⟨here, holds⟩ := mem_filter.mp kept
    simp only [decide_eq_true_eq, UpdateSelection.downOutsideRoll] at holds
    exact mem_filter.mpr ⟨holds.2, decide_eq_true ⟨item, here, holds.1, rfl⟩⟩
  simp only [unavailHeld, unavailCounted, decide_not, Bool.not_eq_true,
    decide_eq_false_iff_not] at all ⊢
  omega

/-- **A start that drains first stays within the budget, or takes over an outage.** -/
theorem unavail_step (tracks : Tracks selection started a)
    (listed : rebuildOfANeverPromotedInstance input selection item →
      selection.downOutsideRoll item.inst.index)
    (capped : selection.unavailBudget ≠ budgetNoLimit)
    (fits : unavailCounted selection started + 1 < 2 ^ 31)
    (allowed : budgetHold input selection a item = none) :
    unavailCounted selection (started ++ [item]) ≤
      max selection.unavailBudget (unavailCounted selection started) := by
  by_cases surging : surgeStart selection item
  · have same : unavailCounted selection (started ++ [item]) =
        unavailCounted selection started := by
      simp [unavailCounted, drainFirst, surging]
    omega
  · have draining : drainFirst selection item := by simp [drainFirst, surging]
    by_cases down : selection.downOutsideRoll item.inst.index
    · -- The start replaces an Instance that was counted as down.
      have same : unavailCounted selection (started ++ [item]) =
          unavailCounted selection started := by
        simp [unavailCounted, draining, down]
        omega
      omega
    · have more : unavailCounted selection (started ++ [item]) =
          unavailCounted selection started + 1 := by
        simp [unavailCounted, draining, down]
        omega
      have verdict : (unavailVerdict selection a item).2 = false := by
        rw [budgetHold_eq_none] at allowed
        simpa [mt listed down, surging, draining] using allowed
      have room := room_of_allowed capped verdict ?_ fits
      · omega
      · rw [downOutsideRollBeside, if_neg down, tracks.down, tracks.unavail, unavailCounted]
        refine wrap32_congr ?_
        simp only [Int.add_emod, Int.sub_emod, wrap32_emod, Int.emod_emod]

/-- A pass starts no more than what was held and one for each start. -/
theorem held_le_length (started : List UpdateItem) :
    surgeHeld selection started ≤ surgeHeld selection [] + started.length ∧
      unavailCounted selection started ≤ unavailCounted selection [] + started.length := by
  have slots : 0 ≤ ((started.filter (surgeStart selection)).map fun item =>
      selection.extraPodSurge.liveSlotsByInstance.get item.inst.index).sum :=
    sum_nonneg (forall_mem_map.mpr fun item _ => selection.extraPodSurge.live_nonneg _)
  have surging := started.countP_le_length (p := surgeStart selection)
  have draining := started.countP_le_length (p := drainFirst selection)
  constructor
  · simp only [surgeHeld, filter_nil, map_nil, sum_nil, countP_nil]
    omega
  · simp only [unavailCounted, countP_nil]
    omega

theorem SumsFit.room {budget held now : Int} (fits : SumsFit selection budget held)
    (within : now ≤ max budget held) {starts : Nat} (grows : now ≤ held + starts)
    (more : starts + 1 ≤ selection.items.length) : now + 1 < 2 ^ 31 := by
  rcases fits with fits | fits <;> omega

end Steps

/-! ## Whole passes -/

section Passes

variable {input : PassInput} {selection : UpdateSelection}
variable {visited : List UpdateItem} {item : UpdateItem}

/-- What holds after every item of a pass. -/
structure Within (selection : UpdateSelection) (visited : List UpdateItem) (s : PassState) :
    Prop where
  order : s.started.Sublist visited
  tracks : s.failed = false → Tracks selection s.started s.admission
  surge : selection.surgeBudget ≠ budgetNoLimit →
    SumsFit selection selection.surgeBudget (surgeHeld selection []) →
    surgeHeld selection s.started ≤ max selection.surgeBudget (surgeHeld selection [])
  unavail : selection.unavailBudget ≠ budgetNoLimit →
    SumsFit selection selection.unavailBudget (unavailCounted selection []) →
    unavailCounted selection s.started ≤
      max selection.unavailBudget (unavailCounted selection [])

theorem start_within : Within selection [] .start where
  order := List.Sublist.refl _
  tracks _ := by constructor <;> simp [PassState.start, newUpdateAdmission, wrap32]
  surge _ _ := le_max_right _ _
  unavail _ _ := le_max_right _ _

theorem Within.skip {s : PassState}
    (within : Within selection visited s) (item : UpdateItem) {after : PassState}
    (same : after.started = s.started ∧ after.admission = s.admission ∧
      (after.failed = false → s.failed = false)) :
    Within selection (visited ++ [item]) after := by
  obtain ⟨started, admission, failed⟩ := same
  refine ⟨?_, fun ongoing => ?_, fun capped => ?_, fun capped => ?_⟩
  · rw [started]
    exact within.order.trans (sublist_append_left _ _)
  · rw [started, admission]
    exact within.tracks (failed ongoing)
  · rw [started]
    exact within.surge capped
  · rw [started]
    exact within.unavail capped

/-- The step lemma of the pass: an item keeps both sums within their budgets. -/
theorem visit_within {answer : Answer} (items : (visited ++ [item]).Sublist selection.items)
    (listed : rebuildOfANeverPromotedInstance input selection item →
      selection.downOutsideRoll item.inst.index)
    {s : PassState} (within : Within selection visited s) :
    Within selection (visited ++ [item]) (visit input selection s (item, answer)) := by
  rw [visit]
  by_cases failed : s.failed
  · rw [if_pos failed]
    exact within.skip item ⟨rfl, rfl, id⟩
  rw [if_neg failed]
  have ongoing : s.failed = false := by simpa using failed
  split
  · exact within.skip item ⟨rfl, rfl, fun _ => ongoing⟩
  by_cases denied : (admitItem input selection s.admission answer.gate item).isSome
  · rw [if_pos denied]
    exact within.skip item ⟨rfl, rfl, id⟩
  rw [if_neg denied]
  rw [Option.not_isSome_iff_eq_none, admitItem, Option.or_eq_none_iff,
    Option.or_eq_none_iff] at denied
  have allowed := denied.2.1
  have tracks := within.tracks ongoing
  have order : (s.started ++ [item]).Sublist (visited ++ [item]) := within.order.append_right _
  have more : s.started.length + 1 ≤ selection.items.length := by
    simpa using (order.trans items).length_le
  obtain ⟨surges, drains⟩ := @held_le_length selection s.started
  have surge (capped : selection.surgeBudget ≠ budgetNoLimit)
      (fits : SumsFit selection selection.surgeBudget (surgeHeld selection [])) :
      surgeHeld selection (s.started ++ [item]) ≤
        max selection.surgeBudget (surgeHeld selection []) := by
    have before := within.surge capped fits
    have step := surge_step tracks capped (fits.room before surges more) allowed
    omega
  have unavail (capped : selection.unavailBudget ≠ budgetNoLimit)
      (fits : SumsFit selection selection.unavailBudget (unavailCounted selection [])) :
      unavailCounted selection (s.started ++ [item]) ≤
        max selection.unavailBudget (unavailCounted selection []) := by
    have before := within.unavail capped fits
    have step := unavail_step tracks listed capped (fits.room before drains more) allowed
    omega
  split
  · exact ⟨order, nofun, surge, unavail⟩
  · exact ⟨order, fun _ => charge_tracks tracks, surge, unavail⟩

/-- The extra pods of one Instance, with the Terminating pods of all. -/
def ExtraPodSurge.only (e : ExtraPodSurge) (idx : Int) : ExtraPodSurge where
  slots := e.slots - (e.liveSlotsByInstance.total - e.liveSlotsByInstance.get idx)
  terminating := e.terminating
  live := e.live
  liveSlotsByInstance := empty.set idx (e.liveSlotsByInstance.get idx)
  nextRelease := e.nextRelease
  live_nonneg i := by
    rw [get_set]
    split
    · exact e.live_nonneg idx
    · exact le_rfl

theorem ExtraPodSurge.restSlots_only (e : ExtraPodSurge) (idx : Int) :
    (e.only idx).restSlots = e.restSlots := by
  have own : (empty.set idx (e.liveSlotsByInstance.get idx)).total =
      e.liveSlotsByInstance.get idx := by
    rw [total_set _ not_mem_nil]
    exact zero_add _
  simp only [ExtraPodSurge.restSlots, ExtraPodSurge.only, own]
  omega

/-- A start on an Instance with live extra pods answers for the Terminating pods alone. -/
theorem surgeVerdict_eq {a : UpdateAdmission}
    (live : 0 < selection.extraPodSurge.liveSlotsByInstance.get item.inst.index) :
    surgeVerdict selection a item = budgetDenies selection.surgeBudget
      (wrap32 (selection.priorSurgeInFlight + selection.rolledNotServing.length +
        wrap32 selection.extraPodSurge.restSlots)) a.inFlightSurge := by
  rw [surgeVerdict, unreplacedExtraSlots, if_pos live, ExtraPodSurge.terminatingSlots]

/-- The live extra pods of other Instances make no difference to such a start. -/
theorem admitItem_only {a : UpdateAdmission} (surging : surgeStart selection item)
    (live : 0 < selection.extraPodSurge.liveSlotsByInstance.get item.inst.index)
    (gate : Option UpdateGate) :
    admitItem input selection a gate item = none ↔
      admitItem input
        { selection with extraPodSurge := selection.extraPodSurge.only item.inst.index }
        a gate item = none := by
  generalize shape : { selection with
    extraPodSurge := selection.extraPodSurge.only item.inst.index } = alone
  have own : 0 < alone.extraPodSurge.liveSlotsByInstance.get item.inst.index := by
    rw [← shape]
    simpa [ExtraPodSurge.only] using live
  have verdict : surgeVerdict alone a item = surgeVerdict selection a item := by
    rw [surgeVerdict_eq own, surgeVerdict_eq live, ← shape, ExtraPodSurge.restSlots_only]
  have start : surgeStart alone item = surgeStart selection item := by
    rw [← shape]
    rfl
  have hold : coordinationHold input alone a gate item =
      coordinationHold input selection a gate item := by
    rw [← shape]
    rfl
  simp only [admitItem, Option.or_eq_none_iff, budgetHold_eq_none, hold,
    rebuildOfANeverPromotedInstance, drainFirst, verdict, start, surging, Bool.not_true,
    Bool.false_and, Bool.false_eq_true, false_and, or_false, false_or]

theorem pass_within
    (listed : ∀ item ∈ selection.items, ∀ row, input.observed item.inst.index = some row →
      row.runningRevision = "" → row.phase = .failed →
        item.inst.index ∈ selection.notServingOutsideRoll)
    (answers : UpdateItem → Answer) (n : Nat) :
    Within selection (selection.items.take n) (executeUpdatePass input selection answers n) := by
  have same : ((selection.items.take n).map fun item => (item, answers item)).map Prod.fst =
      selection.items.take n := by
    rw [map_map]
    exact map_id _
  rw [executeUpdatePass]
  generalize ((selection.items.take n).map fun item => (item, answers item)) = visits at same
  rw [← same]
  refine foldl_along (fun done s => Within selection (done.map Prod.fst) s) start_within ?_
  rintro done ⟨item, answer⟩ rest s split within
  have parts : selection.items.take n = done.map Prod.fst ++ [item] ++ rest.map Prod.fst := by
    rw [← same, split]
    simp
  have sublist : (done.map Prod.fst ++ [item]).Sublist selection.items := by
    refine List.Sublist.trans ?_ (take_sublist n selection.items)
    rw [parts]
    exact sublist_append_left _ _
  rw [map_append]
  refine visit_within sublist (fun rebuild => ?_) within
  simp only [rebuildOfANeverPromotedInstance, Bool.and_eq_true, Option.any_eq_true,
      decide_eq_true_eq] at rebuild
  obtain ⟨-, row, found, unpromoted, broken⟩ := rebuild
  exact decide_eq_true (listed item (sublist.subset (by simp)) row found unpromoted broken)

/-- Two Instances of one pod each, the first with an extra one. -/
def extraPodReading : SlotReading where
  instances := [⟨0, [1]⟩, ⟨1, [1]⟩]
  statuses := []
  byInstance := ofList [(0, [⟨"a", none, "r1"⟩, ⟨"b", none, "r2"⟩]), (1, [⟨"c", none, "r1"⟩])]
  rolled := []
  now := 0

/-- Both start a surge, against a budget of one. -/
def extraPodSelection : UpdateSelection where
  items :=
    [⟨⟨1, [1]⟩, false, true, false, false, false⟩, ⟨⟨0, [1]⟩, false, true, false, false, false⟩]
  strategy := .surgeThenDrain
  surgeBudget := 1
  unavailBudget := 1
  priorSurgeInFlight := 0
  priorUnavailInFlight := 0
  extraPodSurge := extraPodReading.extraPodSurgeInFlight
  rolledNotServing := []
  notServingOutsideRoll := []

def unobserved : PassInput := ⟨"r2", fun _ => none, none⟩

/-- One surge start, where the counter of earlier ones is full. -/
def fullPriors : UpdateSelection :=
  { extraPodSelection with
    items := [⟨⟨1, [1]⟩, false, true, false, false, false⟩]
    surgeBudget := 5
    priorSurgeInFlight := 2147483647
    extraPodSurge := ⟨0, [], [], empty, none, fun _ => Int.le_refl 0⟩ }

/-- The extra pod keeps the second Instance waiting; the first replaces it. -/
example : (executeUpdatePass unobserved extraPodSelection (fun _ => ⟨none, false⟩) 2).started.map
    (·.inst.index) = [0] := by
  decide +kernel

end Passes

end Ome.Workload
