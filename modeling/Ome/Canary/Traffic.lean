/-
# Ome.Canary.Traffic — the split of every member of a canary unit

The secondaries' part of `applyGroupTraffic`, beside the primary's in
`Ome.Canary.Reconcile`.  A view counts the serving pods by revision hash, so a pod off a
member's target is on another revision that has a name.

* `takeSubstitute_comm`, `servingStable_serves`: the revision that takes the remainder,
  in whatever order the view is read;
* `splits_rest_on_serving_pods`: every split sums to 100 and rests on revisions that
  serve, unless the canary path is broken and the member has nothing to move onto; the
  order the maps are read in does not matter.
-/
import Ome.Canary.Runs
import Ome.Theory.Loops

namespace Ome.Canary

open Ome.Theory List

set_option autoImplicit false

/-- A secondary's split. -/
def memberWeights (m : MemberRevisions) (weight : Int) (pathServes : Bool) :
    List TrafficTarget :=
  if m.canaryRevisionHash = "" then []
  else if m.stableRevisionHash = "" ∨ m.stableRevisionHash = m.canaryRevisionHash then
    canaryWeights m.canaryRevisionHash m.canaryRevisionHash weight
  else
    let stable := servingStable m.stableRevisionHash m.canaryRevisionHash m.readyPods
    canaryWeights m.canaryRevisionHash stable (servedWeight weight pathServes stable m.readyPods)

/-- What `applyGroupTraffic` writes for a secondary. -/
def memberTraffic (inp : ReconcileInputs) (weight : Int) (m : MemberRevisions) :
    List TrafficTarget :=
  buildTrafficTargets (memberWeights m weight (canaryPathServes inp))

/-! ## The substitute -/

/-- A revision off the target that serves. -/
def Off (target : String) (count : String → Int) (hash : String) : Prop :=
  hash ≠ "" ∧ hash ≠ target ∧ 0 < count hash

/-- The round of the loop in `servingStable`. -/
def takeSubstitute (target : String) (count : String → Int) (best : String × Int)
    (hash : String) : String × Int :=
  if hash = "" ∨ hash = target ∨ count hash ≤ 0 then best
  else if best.2 < count hash ∨ count hash = best.2 ∧ hash < best.1 then (hash, count hash)
  else best

variable {target stable : String} {count : String → Int} {pods pods' : Pods}

/-- Two rounds commute: the larger count wins, and the smaller name among equals. -/
theorem takeSubstitute_comm (best : String × Int) (one other : String) :
    takeSubstitute target count (takeSubstitute target count best one) other =
      takeSubstitute target count (takeSubstitute target count best other) one := by
  unfold takeSubstitute
  grind

theorem substitute_serves (target : String) (count : String → Int) (hashes : List String) :
    let best := hashes.foldl (takeSubstitute target count) ("", 0)
    (best = ("", 0) ∧ ∀ h ∈ hashes, ¬ Off target count h) ∨ Off target count best.1 := by
  apply foldl_along fun done best =>
    (best = ("", 0) ∧ ∀ h ∈ done, ¬ Off target count h) ∨ Off target count best.1
  · exact Or.inl ⟨rfl, by simp⟩
  · intro done hash rest best _ spec
    unfold takeSubstitute Off at *
    grind

theorem servingStable_some (counts : GoMap String Int) :
    servingStable stable target (some counts) =
      if stable = "" ∨ stable = target ∨ 0 < counts.get stable then stable
      else
        let substitute := (counts.keys.foldl (takeSubstitute target counts.get) ("", 0)).1
        if substitute = "" then stable else substitute := rfl

/-- The remainder rests on another revision than the target, which serves unless no
revision off the target does. -/
theorem servingStable_serves (named : stable ≠ "") (apart : stable ≠ target)
    (view : pods.isSome) :
    let rests := servingStable stable target pods
    rests ≠ "" ∧ rests ≠ target ∧
      (0 < podCount pods rests ∨ ∀ h, ¬ Off target (podCount pods) h) := by
  obtain ⟨counts, rfl⟩ := Option.isSome_iff_exists.mp view
  have spec := substitute_serves target counts.get counts.keys
  rw [servingStable_some]
  generalize counts.keys.foldl (takeSubstitute target counts.get) ("", 0) = best at spec
  by_cases serves : 0 < counts.get stable
  · simp [serves, named, apart, podCount]
  rw [if_neg (by simp [named, apart, serves])]
  rcases spec with ⟨rfl, none⟩ | off
  · refine ⟨named, apart, Or.inr fun h off => ?_⟩
    -- A revision the view does not list has no pod.
    by_cases listed : h ∈ counts.keys
    · exact none h listed off
    · have positive : 0 < counts.get h := off.2.2
      rw [counts.get_absent h listed] at positive
      exact lt_irrefl _ positive
  · simp only [off.1, if_false]
    exact ⟨off.1, off.2.1, Or.inl off.2.2⟩

/-! ## One member -/

/-- The split sums to 100; it rests on revisions that serve, and gives the target a share
only while the path serves, unless the path is broken and no pod serves off the target. -/
structure Rests (target : String) (count : String → Int) (broken : Prop)
    (split : List TrafficTarget) : Prop where
  total : (split.map (·.percent)).sum = 100
  serving : (broken ∧ ∀ h, ¬ Off target count h) ∨ ∀ t ∈ split, 0 < count t.revision
  onTarget : ∀ t ∈ split, t.revision = target → broken → ∀ h, ¬ Off target count h

/-- The target is another revision than the stable one. -/
def Bumped (target stable : String) : Prop := target ≠ "" ∧ stable ≠ "" ∧ stable ≠ target

theorem split_rests {weight : Int} {path : Bool} (bumped : Bumped target stable)
    (low : 0 ≤ weight) (high : weight ≤ 100) (view : pods.isSome)
    (serves : path = true → 0 < podCount pods target) :
    Rests target (podCount pods) (path = false)
      (buildTrafficTargets (canaryWeights target (servingStable stable target pods)
        (servedWeight weight path (servingStable stable target pods) pods))) := by
  obtain ⟨named, other, rests⟩ := servingStable_serves bumped.2.1 bumped.2.2 view
  generalize servingStable stable target pods = remainder at named other rests
  rw [canaryWeights, if_neg fun same => other same.2.symm]
  have isTarget := bumped.1
  have seen : pods.isNone = false := by simpa using view
  -- The target's share is 0, 100 or the step's, and an entry without a share is dropped.
  cases path <;> by_cases remains : 0 < podCount pods remainder <;>
    simp only [servedWeight, named, seen, remains, decide_true, decide_false] <;>
    constructor <;> simp [buildTrafficTargets, filter_cons] <;> grind

/-! ## The unit -/

/-- The target of a bumped member has no serving pod. -/
def Breaks (pods : Pods) (target stable : String) : Prop :=
  target ≠ "" ∧ target ≠ stable ∧ podCount pods target ≤ 0

def PathBroken (inp : ReconcileInputs) : Prop :=
  Breaks inp.perRevisionPods inp.canaryRevisionHash inp.stableRevisionHash ∨
    ∃ m ∈ inp.secondaries, Breaks m.readyPods m.canaryRevisionHash m.stableRevisionHash

theorem targetServes_eq_false (view : pods.isSome) :
    targetServes pods target stable = false ↔ Breaks pods target stable := by
  have seen : pods.isNone = false := by simpa using view
  simp [targetServes, Breaks, seen, and_assoc]

theorem canaryPathServes_eq_false {inp : ReconcileInputs} (view : inp.perRevisionPods.isSome)
    (views : ∀ m ∈ inp.secondaries, m.readyPods.isSome) :
    canaryPathServes inp = false ↔ PathBroken inp := by
  rw [canaryPathServes, Bool.and_eq_false_iff, targetServes_eq_false view, all_eq_false]
  refine or_congr_right (exists_congr fun m => and_congr_right fun member => ?_)
  rw [Bool.not_eq_true, targetServes_eq_false (views m member)]

/-- The same view, read in another order. -/
def SameView : Pods → Pods → Prop
  | some counts, some counts' => counts.keys.Perm counts'.keys ∧ counts.get = counts'.get
  | _, _ => False

def SameMember (m m' : MemberRevisions) : Prop :=
  ∃ pods, SameView m.readyPods pods ∧ m' = { m with readyPods := pods }

/-- The same unit, its members and their views read in another order. -/
def SameUnit (inp inp' : ReconcileInputs) : Prop :=
  ∃ pods members, SameView inp.perRevisionPods pods ∧
    (∀ m ∈ inp.secondaries, ∃ m' ∈ members, SameMember m m') ∧
    (∀ m' ∈ members, ∃ m ∈ inp.secondaries, SameMember m m') ∧
    inp' = { inp with perRevisionPods := pods, secondaries := members }

theorem SameView.counts (same : SameView pods pods') :
    pods.isNone = pods'.isNone ∧ podCount pods = podCount pods' :=
  match pods, pods', same with
  | some _, some _, ⟨_, read⟩ => ⟨rfl, read⟩

theorem SameView.remainder (same : SameView pods pods') :
    servingStable stable target pods = servingStable stable target pods' := by
  match pods, pods', same with
  | some counts, some counts', ⟨perm, read⟩ =>
    rw [servingStable_some, servingStable_some, read,
      perm.foldl_eq' fun _ _ _ _ best => takeSubstitute_comm best _ _]

theorem SameView.serves (same : SameView pods pods') :
    targetServes pods target stable = targetServes pods' target stable := by
  rw [targetServes, targetServes, same.counts.1, same.counts.2]

theorem SameUnit.path {inp inp' : ReconcileInputs} (same : SameUnit inp inp') :
    canaryPathServes inp' = canaryPathServes inp := by
  obtain ⟨pods, members, view, there, back, rfl⟩ := same
  unfold canaryPathServes
  rw [view.serves]
  congr 1
  rw [Bool.eq_iff_iff, all_eq_true, all_eq_true]
  constructor
  · intro all m member
    obtain ⟨m', isMember, _, alike, rfl⟩ := there m member
    exact alike.serves ▸ all _ isMember
  · intro all m' member
    obtain ⟨m, isMember, _, alike, rfl⟩ := back m' member
    exact alike.serves ▸ all m isMember

/-- **Canary traffic rests on pods that serve.** -/
theorem splits_rest_on_serving_pods (inp : ReconcileInputs) (weight : Int) (low : 0 ≤ weight)
    (high : weight ≤ 100) (view : inp.perRevisionPods.isSome)
    (views : ∀ m ∈ inp.secondaries, m.readyPods.isSome) :
    (∀ p : Armed, Bumped inp.canaryRevisionHash inp.stableRevisionHash →
      Rests inp.canaryRevisionHash (podCount inp.perRevisionPods) (PathBroken inp)
        (applyGroupTraffic inp weight p).traffic) ∧
    (∀ m ∈ inp.secondaries, Bumped m.canaryRevisionHash m.stableRevisionHash →
      Rests m.canaryRevisionHash (podCount m.readyPods) (PathBroken inp)
        (memberTraffic inp weight m)) ∧
    ∀ inp', SameUnit inp inp' →
      (∀ p : Armed, (applyGroupTraffic inp' weight p).traffic =
        (applyGroupTraffic inp weight p).traffic) ∧
      ∀ m m', SameMember m m' → memberTraffic inp' weight m' = memberTraffic inp weight m := by
  have broken := canaryPathServes_eq_false view views
  have serves {pods : Pods} {target stable : String} (bumped : Bumped target stable)
      (member : Breaks pods target stable → PathBroken inp)
      (whole : canaryPathServes inp = true) : 0 < podCount pods target := by
    by_contra none
    rw [broken.mpr (member ⟨bumped.1, bumped.2.2.symm, not_lt.mp none⟩)] at whole
    cases whole
  rw [← broken]
  refine ⟨fun p bumped => ?_, fun m member bumped => ?_, fun inp' same => ⟨fun p => ?_, ?_⟩⟩
  · exact split_rests bumped low high view (serves bumped Or.inl)
  · have split := split_rests bumped low high (views m member)
      (serves bumped fun breaks => Or.inr ⟨m, member, breaks⟩)
    rwa [memberTraffic, memberWeights, if_neg bumped.1,
      if_neg (not_or.mpr ⟨bumped.2.1, bumped.2.2⟩)]
  · unfold applyGroupTraffic recordTrafficWeight splitTraffic Pass.writeTraffic
    rw [same.path]
    obtain ⟨pods, members, reread, _, _, rfl⟩ := same
    simp only [reread.remainder, servedWeight, reread.counts.1, reread.counts.2]
  · rintro m _ ⟨pods, reread, rfl⟩
    unfold memberTraffic memberWeights
    rw [same.path]
    simp only [reread.remainder, servedWeight, reread.counts.1, reread.counts.2]

/-- The primary lost its stable revision to "x"; its secondary's target does not serve. -/
def movedUnit : ReconcileInputs :=
  { calmInputs 1 2 0 with
    perRevisionPods := some (GoMap.ofList [("c", 1), ("x", 1)])
    secondaries := [⟨"c", "s", 0, 1, some (GoMap.ofList [("s", 1)]), none, "s", true⟩] }

theorem movedUnit_rests :
    PathBroken movedUnit ∧ ∀ p : Armed, (applyGroupTraffic movedUnit 30 p).traffic = [⟨"x", 100⟩] ∧
      Rests "c" (podCount movedUnit.perRevisionPods) (PathBroken movedUnit)
        (applyGroupTraffic movedUnit 30 p).traffic := by
  refine ⟨Or.inr ⟨_, mem_singleton_self _, by unfold Breaks; decide⟩, fun p => ⟨rfl, ?_⟩⟩
  exact (splits_rest_on_serving_pods movedUnit 30 (by decide) (by decide) rfl (by decide)).1 p
    ⟨by decide, by decide, by decide⟩

end Ome.Canary
