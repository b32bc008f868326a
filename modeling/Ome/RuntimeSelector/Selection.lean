/-
# Ome.RuntimeSelector.Selection — the runtime that is selected and the format it renders with

Model of automatic selection: the compatibility checks of one runtime (`evaluate`), its score
over the formats marked `autoSelect` (`calculateScore`), the ranking (`selectRuntime`), and
the format a pod then renders with (`getSupportedModelFormat`).

The rendered format is always the first best-scoring one marked `autoSelect`, and it gave the
runtime its score (`selected_runtime_renders`).  It fits the model exactly when it agrees with
it on what the score does not read (`UnscoredFits`): the architecture, the quantization, the
pipeline, and which names and versions are set.  A runtime accepted for another of its formats
is rendered with one that does not fit (`selected_runtime_renders_misfit`).

The ranking within a scope is an arbitrary rearrangement: the sort of the source is not stable
and compares sizes as rounded differences.  Logs, the details of a match and the texts of
refusals are left out.
-/
import Ome.RuntimeSelector.Compatibility
import Ome.Component
import Ome.Theory.Loops
import Ome.Theory.MachineInt

namespace Ome.RuntimeSelector

open Ome.Theory List

set_option autoImplicit false

/-! ## Runtimes and services -/

structure Config where
  defaultPriority : Int
  modelFormatWeight : Int
  modelFrameworkWeight : Int
  modelCacheProvider : String

structure ServingRuntimeSpec where
  disabled : Option Bool
  supportedModelFormats : List SupportedModelFormat
  acceleratorClasses : List String
  modelSizeRange : Option ModelSizeRange
  /-- The valid deployment mode a role's piece declares. -/
  deploymentMode : Component → Option String

structure ServingRuntime where
  name : String
  spec : ServingRuntimeSpec

/-- What selection reads of a service. -/
structure Service where
  /-- The accelerator classes it asks for: by annotation, selector and role. -/
  requiredClasses : List String
  /-- The valid deployment mode it declares for a role that runs the model. -/
  deploymentMode : Component → Option String

structure RuntimeCollection where
  namespaceRuntimes : List ServingRuntime
  clusterRuntimes : List ServingRuntime

section

variable (rules : Rules) (config : Config) (runtime : ServingRuntimeSpec)
  (model : BaseModelSpec) (format : SupportedModelFormat)

/-! ## Compatibility of one runtime -/

inductive CompatibilityCheck where
  | runtimeDisabled
  | acceleratorClassNotServed
  | deploymentModeMismatch
  | modelFormatNotSupported
  | modelSizeOutOfRange
  deriving DecidableEq

variable (svc : Service)

def compareAcceleratorClass : Bool :=
  svc.requiredClasses.all (· ∈ runtime.acceleratorClasses)

def modelRoles : List Component := [.engine, .decoder, .encoder]

/-- Both sides declare a mode for some role, and not the same. -/
def compareDeploymentMode : Bool :=
  modelRoles.all fun role =>
    match svc.deploymentMode role, runtime.deploymentMode role with
    | some wanted, some declared => wanted = declared
    | _, _ => true

def firstSupportedFormat : Option SupportedModelFormat :=
  runtime.supportedModelFormats.find?
    (compareModelToFormat rules (some config.modelCacheProvider) model)

/-- The first check the runtime fails; none when it is compatible. -/
def evaluate : Option CompatibilityCheck :=
  if runtime.disabled = some true then some .runtimeDisabled
  else if compareAcceleratorClass runtime svc = false then some .acceleratorClassNotServed
  else if compareDeploymentMode runtime svc = false then some .deploymentModeMismatch
  else
    match firstSupportedFormat rules config runtime model with
    | none => some .modelFormatNotSupported
    | some _ =>
      match model.modelParameterSize, runtime.modelSizeRange with
      | some size, some range =>
        if rules.modelSizeInRange size range then none else some .modelSizeOutOfRange
      | _, _ => none

/-! ## The score -/

def autoSelectEnabled : Bool := format.autoSelect = some true

def formatPriority (defaultPriority : Int) : Int :=
  format.priority.getD defaultPriority

/-- Whether the score takes a name as matching; none ends the score at zero. -/
def scoreName (model runtime : Named) : Option Unit :=
  if runtime.name ≠ model.name then none
  else
    match runtime.version, model.version with
    | some v', some v => if rules.versionsMatch v v' runtime.operator then some () else none
    | _, _ => some ()

def nameWeight (declared default priority : Int) : Int :=
  wrap64 ((if declared = 0 then default else declared) * priority)

/-- What the format's name adds to the score. -/
def formatPart (priority : Int) : Option Int :=
  match format.modelFormat with
  | none => some 0
  | some f =>
    (scoreName rules model.modelFormat f).map fun _ =>
      nameWeight f.weight config.modelFormatWeight priority

/-- What the framework adds; a framework that only one side names ends the score. -/
def frameworkPart (priority : Int) : Option Int :=
  match format.modelFramework, model.modelFramework with
  | some f, some m =>
    (scoreName rules m f).map fun _ =>
      nameWeight f.weight config.modelFrameworkWeight priority
  | none, none => some 0
  | _, _ => none

def calculateFormatScore (priority : Int) : Int :=
  if lacksCacheProvider rules model format config.modelCacheProvider then 0
  else
    match formatPart rules config model format priority,
        frameworkPart rules config model format priority with
    | some a, some b => wrap64 (a + b)
    | _, _ => 0

/-- The score of a format in automatic selection. -/
def ownScore : Int :=
  calculateFormatScore rules config model format (formatPriority format config.defaultPriority)

/-- One format in the loop for the runtime's score. -/
def raiseScore (maxScore : Int) (format : SupportedModelFormat) : Int :=
  if lacksCacheProvider rules model format config.modelCacheProvider then maxScore
  else if autoSelectEnabled format = false then maxScore
  else if maxScore < ownScore rules config model format then ownScore rules config model format
  else maxScore

def calculateScore : Int :=
  runtime.supportedModelFormats.foldl (raiseScore rules config model) 0

/-! ## The selection -/

structure RuntimeSelection where
  name : String
  spec : ServingRuntimeSpec
  score : Int
  isCluster : Bool

inductive SelectionError where
  | noFormatName
  | noRuntimeFound (excluded : List (String × CompatibilityCheck)) (namespaced cluster : Nat)

/-- How the matches of one scope are ranked. -/
structure Ranking where
  sortMatches : List RuntimeSelection → List RuntimeSelection
  perm : ∀ found, (sortMatches found).Perm found

/-- A runtime as a match, when it is compatible, has a format marked for automatic selection
and scores above zero. -/
def evaluateRuntime (isCluster : Bool) (runtime : ServingRuntime) : Option RuntimeSelection :=
  if evaluate rules config runtime.spec model svc ≠ none then none
  else if runtime.spec.supportedModelFormats.any autoSelectEnabled = false then none
  else if calculateScore rules config runtime.spec model ≤ 0 then none
  else some ⟨runtime.name, runtime.spec, calculateScore rules config runtime.spec model, isCluster⟩

def excludedRuntimes (runtimes : List ServingRuntime) : List (String × CompatibilityCheck) :=
  runtimes.filterMap fun runtime =>
    (evaluate rules config runtime.spec model svc).map fun check => (runtime.name, check)

/-- The matches of the namespace, then those of the cluster, each ranked. -/
def evaluateRuntimes (ranking : Ranking) (model : BaseModelSpec) (svc : Service)
    (runtimes : RuntimeCollection) : List RuntimeSelection :=
  ranking.sortMatches
      (runtimes.namespaceRuntimes.filterMap (evaluateRuntime rules config model svc false)) ++
    ranking.sortMatches
      (runtimes.clusterRuntimes.filterMap (evaluateRuntime rules config model svc true))

def selectRuntime (ranking : Ranking) (model : BaseModelSpec) (svc : Service)
    (runtimes : RuntimeCollection) : Except SelectionError RuntimeSelection :=
  if model.modelFormat.name = "" then .error .noFormatName
  else
    match evaluateRuntimes rules config ranking model svc runtimes with
    | best :: _ => .ok best
    | [] => .error (.noRuntimeFound
        (excludedRuntimes rules config model svc
          (runtimes.namespaceRuntimes ++ runtimes.clusterRuntimes))
        runtimes.namespaceRuntimes.length runtimes.clusterRuntimes.length)

/-- One format in the loop for the format a pod renders with. -/
def keepBest (userSpecifiedRuntime : Bool) (best : Int × Option SupportedModelFormat)
    (format : SupportedModelFormat) : Int × Option SupportedModelFormat :=
  if userSpecifiedRuntime = false ∧ autoSelectEnabled format = false then best
  else
    let priority :=
      if userSpecifiedRuntime then config.defaultPriority
      else formatPriority format config.defaultPriority
    let score := calculateFormatScore rules config model format priority
    if best.1 < score then (score, some format) else best

/-- The format a pod renders with; a named runtime's formats all count, at one priority. -/
def getSupportedModelFormat (userSpecifiedRuntime : Bool) : Option SupportedModelFormat :=
  (runtime.supportedModelFormats.foldl (keepBest rules config model userSpecifiedRuntime)
    (0, none)).2

end

/-! ## The rendered format gave the score -/

variable {rules : Rules} {config : Config} {model : BaseModelSpec}

theorem ownScore_lacking {format : SupportedModelFormat}
    (lacks : lacksCacheProvider rules model format config.modelCacheProvider = true) :
    ownScore rules config model format = 0 := by
  unfold ownScore calculateFormatScore
  rw [if_pos lacks]

/-- The first of the formats marked `autoSelect` that has the highest score of them. -/
structure FirstBest (rules : Rules) (config : Config) (model : BaseModelSpec)
    (formats : List SupportedModelFormat) (best : SupportedModelFormat) : Prop where
  auto : autoSelectEnabled best = true
  first : ∃ before after, formats = before ++ best :: after ∧
    (∀ f ∈ before, autoSelectEnabled f = true →
      ownScore rules config model f < ownScore rules config model best) ∧
    ∀ f ∈ after, autoSelectEnabled f = true →
      ownScore rules config model f ≤ ownScore rules config model best

/-- The two loops side by side: the best score so far, and the format it is of. -/
structure Best (rules : Rules) (config : Config) (model : BaseModelSpec)
    (read : List SupportedModelFormat) (score : Int) (best : Int × Option SupportedModelFormat) :
    Prop where
  same : best.1 = score
  nonneg : 0 ≤ score
  most : ∀ f ∈ read, autoSelectEnabled f = true → ownScore rules config model f ≤ score
  unset : best.2 = none → score = 0
  given : ∀ format, best.2 = some format → FirstBest rules config model read format ∧
    ownScore rules config model format = score

section

variable {read : List SupportedModelFormat} {score : Int}
  {best : Int × Option SupportedModelFormat} (holds : Best rules config model read score best)
  (format : SupportedModelFormat)
include holds format

/-- A format that is no better changes nothing. -/
theorem Best.unread (below : autoSelectEnabled format = true →
      ownScore rules config model format ≤ score) :
    Best rules config model (read ++ [format]) score best where
  same := holds.same
  nonneg := holds.nonneg
  most := by
    rw [forall_mem_append, forall_mem_singleton]
    exact ⟨holds.most, below⟩
  unset := holds.unset
  given := fun other isBest => by
    obtain ⟨⟨auto, before, after, rfl, earlier, later⟩, own⟩ := holds.given other isBest
    refine ⟨⟨auto, before, after ++ [format], by simp, earlier, ?_⟩, own⟩
    rw [forall_mem_append, forall_mem_singleton, own]
    exact ⟨own ▸ later, below⟩

theorem Best.round :
    Best rules config model (read ++ [format]) (raiseScore rules config model score format)
      (keepBest rules config model false best format) := by
  unfold raiseScore
  by_cases auto : autoSelectEnabled format = false
  · have keeps : keepBest rules config model false best format = best := if_pos ⟨rfl, auto⟩
    rw [keeps, if_pos auto, ite_self]
    exact holds.unread format fun marked => absurd marked (by simp [auto])
  · have keeps : keepBest rules config model false best format =
        if best.1 < ownScore rules config model format then
          (ownScore rules config model format, some format)
        else best := if_neg fun both => auto both.2
    rw [keeps, holds.same, if_neg auto]
    by_cases lacks : lacksCacheProvider rules model format config.modelCacheProvider = true
    · -- a format without the provider scores nothing, whichever loop reads it
      have below : ¬ score < ownScore rules config model format := by
        rw [ownScore_lacking lacks]
        exact not_lt.mpr holds.nonneg
      rw [if_pos lacks, if_neg below]
      exact holds.unread format fun _ => not_lt.mp below
    · rw [if_neg lacks]
      by_cases above : score < ownScore rules config model format
      · rw [if_pos above, if_pos above]
        refine ⟨rfl, holds.nonneg.trans above.le, ?_, fun unset => absurd unset (by simp),
          fun other isBest => ?_⟩
        · rw [forall_mem_append, forall_mem_singleton]
          exact ⟨fun f isRead marked => (holds.most f isRead marked).trans above.le,
            fun _ => le_rfl⟩
        · cases isBest
          exact ⟨⟨by simpa using auto, read, [], rfl,
            fun f isRead marked => (holds.most f isRead marked).trans_lt above, by simp⟩, rfl⟩
      · rw [if_neg above, if_neg above]
        exact holds.unread format fun _ => not_lt.mp above

end

theorem best_loop (formats : List SupportedModelFormat) :
    ∀ {read : List SupportedModelFormat} {score : Int} {best : Int × Option SupportedModelFormat},
      Best rules config model read score best →
      Best rules config model (read ++ formats)
        (formats.foldl (raiseScore rules config model) score)
        (formats.foldl (keepBest rules config model false) best) := by
  induction formats with
  | nil =>
    intro read score best holds
    rw [append_nil]
    exact holds
  | cons format rest ih =>
    intro read score best holds
    have next := ih (holds.round format)
    rwa [append_assoc, singleton_append] at next

/-- **The format that is rendered is the one that gave the score.** -/
theorem getSupportedModelFormat_of_score {runtime : ServingRuntimeSpec}
    (positive : 0 < calculateScore rules config runtime model) :
    ∃ format, FirstBest rules config model runtime.supportedModelFormats format ∧
      getSupportedModelFormat rules config runtime model false = some format ∧
      ownScore rules config model format = calculateScore rules config runtime model := by
  have start : Best rules config model [] 0 (0, none) :=
    ⟨rfl, le_rfl, by simp, fun _ => rfl, fun format unset => by cases unset⟩
  have best := best_loop runtime.supportedModelFormats start
  rw [nil_append] at best
  cases renders : getSupportedModelFormat rules config runtime model false with
  | none =>
    have zero := best.unset renders
    exact absurd zero positive.ne'
  | some format =>
    obtain ⟨isBest, same⟩ := best.given format renders
    exact ⟨format, isBest, rfl, same⟩

/-! ## When it fits -/

/-- A format agrees with the model on what the score does not read. -/
structure UnscoredFits (model : BaseModelSpec) (format : SupportedModelFormat) : Prop where
  pipeline : compareDiffusionPipeline model.diffusionPipeline format.diffusionPipeline = true
  architecture : model.modelArchitecture = format.modelArchitecture
  quantization : model.quantization = format.quantization
  named : format.modelFormat.isSome = true
  formatVersion : ∀ f, format.modelFormat = some f →
    model.modelFormat.version.isSome = f.version.isSome
  frameworkVersion : ∀ m f, model.modelFramework = some m → format.modelFramework = some f →
    m.version.isSome = f.version.isSome

/-- What a name that scores has in common with the model's. -/
theorem scoreName_fits {m f : Named} (scores : scoreName rules m f = some ())
    (versions : m.version.isSome = f.version.isSome) : NamedFits rules (some m) (some f) := by
  unfold scoreName at scores
  by_cases differ : f.name ≠ m.name
  · rw [if_pos differ] at scores
    cases scores
  · rw [if_neg differ] at scores
    refine ⟨rfl, ?_, ?_, ?_⟩
    · rintro _ _ ⟨⟩ ⟨⟩
      exact (not_not.mp differ).symm
    · rintro _ _ ⟨⟩ ⟨⟩
      exact versions
    · rintro _ _ ⟨⟩ ⟨⟩ v v' hasV hasV'
      rw [hasV, hasV'] at scores
      simp only at scores
      by_contra apart
      rw [if_neg apart] at scores
      cases scores

/-- **A format that scores fits exactly when it agrees on what the score does not read.** -/
theorem fits_iff_of_score {format : SupportedModelFormat}
    (scores : 0 < ownScore rules config model format) :
    Fits rules config.modelCacheProvider model format ↔ UnscoredFits model format := by
  constructor
  · intro fits
    exact ⟨fits.pipeline, fits.architecture, fits.quantization, fits.formatNamed.both.symm,
      fun f named => fits.formatNamed.versions _ f rfl named, fits.frameworkNamed.versions⟩
  intro unscored
  have provided : lacksCacheProvider rules model format config.modelCacheProvider = false := by
    by_contra lacks
    rw [ownScore_lacking (Bool.not_eq_false _ ▸ lacks)] at scores
    exact lt_irrefl 0 scores
  unfold ownScore calculateFormatScore at scores
  rw [if_neg (by simp [provided])] at scores
  refine ⟨provided, unscored.pipeline, unscored.architecture, unscored.quantization, ?_, ?_⟩
  · -- the format's name
    obtain ⟨f, isNamed⟩ := Option.isSome_iff_exists.mp unscored.named
    rw [isNamed]
    refine scoreName_fits ?_ (unscored.formatVersion f isNamed)
    cases named : scoreName rules model.modelFormat f with
    | some _ => rfl
    | none => simp [formatPart, isNamed, named] at scores
  · -- the framework's name: set on both sides or on none, or nothing scores
    cases isRuntime : format.modelFramework with
    | none =>
      cases isModel : model.modelFramework with
      | none => exact ⟨rfl, nofun, nofun, nofun⟩
      | some m => simp [frameworkPart, isRuntime, isModel] at scores
    | some f =>
      cases isModel : model.modelFramework with
      | none => simp [frameworkPart, isRuntime, isModel] at scores
      | some m =>
        refine scoreName_fits ?_ (unscored.frameworkVersion m f isModel isRuntime)
        cases named : scoreName rules m f with
        | some _ => rfl
        | none => simp [frameworkPart, isRuntime, isModel, named] at scores

/-! ## The result -/

theorem evaluateRuntime_eq_some {svc : Service} {isCluster : Bool} {runtime : ServingRuntime}
    {sel : RuntimeSelection}
    (evaluated : evaluateRuntime rules config model svc isCluster runtime = some sel) :
    sel.score = calculateScore rules config sel.spec model ∧ 0 < sel.score := by
  unfold evaluateRuntime at evaluated
  split at evaluated
  · cases evaluated
  · split at evaluated
    · cases evaluated
    · split at evaluated
      · cases evaluated
      · rename_i positive
        cases evaluated
        exact ⟨rfl, not_le.mp positive⟩

theorem selectRuntime_ok {ranking : Ranking} {svc : Service} {runtimes : RuntimeCollection}
    {sel : RuntimeSelection}
    (selects : selectRuntime rules config ranking model svc runtimes = .ok sel) :
    ∃ isCluster runtime, evaluateRuntime rules config model svc isCluster runtime = some sel := by
  unfold selectRuntime at selects
  split at selects
  · cases selects
  · split at selects
    · rename_i best rest ranked
      cases selects
      have isMatch : sel ∈ evaluateRuntimes rules config ranking model svc runtimes := by
        rw [ranked]
        exact mem_cons_self
      rcases mem_append.mp isMatch with inNamespace | inCluster
      · obtain ⟨runtime, _, evaluated⟩ :=
          mem_filterMap.mp ((ranking.perm _).mem_iff.mp inNamespace)
        exact ⟨false, runtime, evaluated⟩
      · obtain ⟨runtime, _, evaluated⟩ :=
          mem_filterMap.mp ((ranking.perm _).mem_iff.mp inCluster)
        exact ⟨true, runtime, evaluated⟩
    · cases selects

/-- **The format an automatically selected runtime renders with** is the first best-scoring one
of its formats marked `autoSelect`, with the score that was reported; it fits the model exactly
when it agrees with it on what the score does not read. -/
theorem selected_runtime_renders {ranking : Ranking} {svc : Service}
    {runtimes : RuntimeCollection} {sel : RuntimeSelection}
    (selects : selectRuntime rules config ranking model svc runtimes = .ok sel) :
    ∃ best, FirstBest rules config model sel.spec.supportedModelFormats best ∧
      getSupportedModelFormat rules config sel.spec model false = some best ∧
      autoSelectEnabled best = true ∧
      calculateFormatScore rules config model best
        (formatPriority best config.defaultPriority) = sel.score ∧
      (compareModelToFormat rules (some config.modelCacheProvider) model best = true ↔
        UnscoredFits model best) := by
  obtain ⟨isCluster, runtime, evaluated⟩ := selectRuntime_ok selects
  obtain ⟨isScore, positive⟩ := evaluateRuntime_eq_some evaluated
  rw [isScore] at positive
  obtain ⟨best, isBest, renders, same⟩ := getSupportedModelFormat_of_score positive
  refine ⟨best, isBest, renders, isBest.auto, same.trans isScore.symm, ?_⟩
  rw [compareModelToFormat_iff]
  exact fits_iff_of_score (same ▸ positive)

/-! ## Two formats -/

def plainRules : Rules := ⟨fun v v' _ => v = v', fun _ _ => true, fun text => text⟩

def plainConfig : Config := ⟨1, 10, 5, ""⟩

/-- A format of one architecture. -/
def formatFor (architecture : String) (autoSelect : Option Bool) : SupportedModelFormat where
  modelFormat := some ⟨"safetensors", none, none, 0⟩
  modelFramework := none
  modelArchitecture := some architecture
  quantization := none
  diffusionPipeline := none
  modelCacheProviders := []
  autoSelect := autoSelect
  priority := none

def llamaModel : BaseModelSpec where
  modelFormat := ⟨"safetensors", none, none, 0⟩
  modelFramework := none
  modelArchitecture := some "llama"
  quantization := none
  diffusionPipeline := none
  sharded := false
  modelParameterSize := none

def runtimeWith (formats : List SupportedModelFormat) : ServingRuntimeSpec where
  disabled := none
  supportedModelFormats := formats
  acceleratorClasses := []
  modelSizeRange := none
  deploymentMode _ := none

def plainService : Service := ⟨[], fun _ => none⟩

def asFound : Ranking := ⟨id, fun _ => List.Perm.refl _⟩

def onlyRuntime (formats : List SupportedModelFormat) : RuntimeCollection :=
  ⟨[⟨"r", runtimeWith formats⟩], []⟩

theorem two_formats_render :
    ∃ format, getSupportedModelFormat plainRules plainConfig
        (runtimeWith [formatFor "llama" (some true), formatFor "mixtral" none]) llamaModel false =
          some format ∧
      compareModelToFormat plainRules (some "") llamaModel format = true := by
  have selects : selectRuntime plainRules plainConfig asFound llamaModel plainService
      (onlyRuntime [formatFor "llama" (some true), formatFor "mixtral" none]) =
      .ok ⟨"r", runtimeWith [formatFor "llama" (some true), formatFor "mixtral" none], 10,
        false⟩ := rfl
  obtain ⟨format, -, renders, -, -, fits⟩ := selected_runtime_renders selects
  refine ⟨format, renders, fits.mpr ?_⟩
  cases renders
  exact ⟨rfl, rfl, rfl, rfl, by rintro _ ⟨⟩; rfl, nofun⟩

/-- **Formats of several shapes.**  The format for the model's architecture is not marked
`autoSelect` and makes the runtime compatible; the one that is marked gives the score, is for
another architecture, and is rendered. -/
theorem selected_runtime_renders_misfit :
    selectRuntime plainRules plainConfig asFound llamaModel plainService
        (onlyRuntime [formatFor "llama" none, formatFor "mixtral" (some true)]) =
      .ok ⟨"r", runtimeWith [formatFor "llama" none, formatFor "mixtral" (some true)], 10,
        false⟩ ∧
    getSupportedModelFormat plainRules plainConfig
        (runtimeWith [formatFor "llama" none, formatFor "mixtral" (some true)]) llamaModel false =
      some (formatFor "mixtral" (some true)) ∧
    compareModelToFormat plainRules (some "") llamaModel (formatFor "mixtral" (some true)) =
      false :=
  ⟨rfl, rfl, rfl⟩

end Ome.RuntimeSelector
