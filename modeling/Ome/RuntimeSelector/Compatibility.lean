/-
# Ome.RuntimeSelector.Compatibility — whether a model fits a supported format

Model of the one compatibility rule between a model and a format of a runtime
(`compareModelToFormat`): the model cache provider, the diffusion pipeline, the architecture,
the quantization, and the names and versions of the format and of the framework.  An optional
attribute fits when both sides leave it unset or both set it and agree.

The comparison of two versions, the parsing of a model size and the trimming of a provider's
name are arbitrary (`Rules`).  A mismatch names the rule and how it failed; the rendering of
its text is left out.
-/
import Ome.Theory.GoMap

namespace Ome.RuntimeSelector

open Ome.Theory Option

set_option autoImplicit false

/-! ## Models and formats -/

inductive RuntimeSelectorOperator where
  | equal
  | greaterThan
  | greaterThanOrEqual
  deriving DecidableEq

/-- A format or a framework: a name, and optionally a version with how it is compared. -/
structure Named where
  name : String
  version : Option String
  operator : Option RuntimeSelectorOperator
  weight : Int

structure DiffusionComponentSpec where
  library : String
  type : String
  deriving DecidableEq

instance : Inhabited DiffusionComponentSpec := ⟨⟨"", ""⟩⟩

structure DiffusionPipelineSpec where
  className : Option String
  scheduler : Option DiffusionComponentSpec
  textEncoder : Option DiffusionComponentSpec
  tokenizer : Option DiffusionComponentSpec
  transformer : Option DiffusionComponentSpec
  vae : Option DiffusionComponentSpec
  additionalComponents : GoMap String DiffusionComponentSpec

structure SupportedModelFormat where
  modelFormat : Option Named
  modelFramework : Option Named
  modelArchitecture : Option String
  quantization : Option String
  diffusionPipeline : Option DiffusionPipelineSpec
  modelCacheProviders : List String
  autoSelect : Option Bool
  priority : Option Int

structure BaseModelSpec where
  modelFormat : Named
  modelFramework : Option Named
  modelArchitecture : Option String
  quantization : Option String
  diffusionPipeline : Option DiffusionPipelineSpec
  /-- The distribution loads the model through an external cache. -/
  sharded : Bool
  modelParameterSize : Option String

structure ModelSizeRange where
  min : Option String
  max : Option String

/-- What the rule takes from elsewhere. -/
structure Rules where
  versionsMatch : String → String → Option RuntimeSelectorOperator → Bool
  modelSizeInRange : String → ModelSizeRange → Bool
  trimSpace : String → String

/-! ## The rule -/

/-- How an optional attribute fails to match. -/
inductive AttributeMismatch where
  | differ
  | modelMissing
  | runtimeMissing
  deriving DecidableEq

inductive Mismatch where
  | modelCacheProvider
  | diffusionPipeline
  | architecture (how : AttributeMismatch)
  | quantization (how : AttributeMismatch)
  | format (how : AttributeMismatch)
  | formatVersion (how : AttributeMismatch)
  | framework (how : AttributeMismatch)
  | frameworkVersion (how : AttributeMismatch)
  deriving DecidableEq

/-- Compare an attribute either side may leave unset; `version` is what its version says when
both sides set it and agree. -/
def compareOptional (reason : AttributeMismatch → Mismatch) (model runtime : Option String)
    (same : String → String → Bool) (version : List Mismatch) : List Mismatch :=
  match model, runtime with
  | none, none => []
  | some _, none => [reason .runtimeMissing]
  | none, some _ => [reason .modelMissing]
  | some m, some r => if same m r then version else [reason .differ]

def sameText (m r : String) : Bool := m = r

variable (rules : Rules)

/-- The name of a format or framework, then its version. -/
def compareNamed (name version : AttributeMismatch → Mismatch) (model runtime : Option Named) :
    List Mismatch :=
  compareOptional name (model.map (·.name)) (runtime.map (·.name)) sameText
    (compareOptional version (model.bind (·.version)) (runtime.bind (·.version))
      (fun m r => rules.versionsMatch m r (runtime.bind (·.operator))) [])

def compareDiffusionComponent (model runtime : Option DiffusionComponentSpec) : Bool :=
  match runtime with
  | none => true
  | some r =>
    match model with
    | none => false
    | some m =>
      !(r.library ≠ "" && r.library ≠ m.library) && !(r.type ≠ "" && r.type ≠ m.type)

def compareAdditional (model format : GoMap String DiffusionComponentSpec) : Bool :=
  format.keys.all fun key =>
    decide (key ∈ model.keys) &&
      compareDiffusionComponent (some (model.get key)) (some (format.get key))

/-- A format that requires no pipeline fits every model. -/
def compareDiffusionPipeline (model format : Option DiffusionPipelineSpec) : Bool :=
  match format with
  | none => true
  | some f =>
    match model with
    | none => false
    | some m =>
      (f.className.isNone || f.className = m.className) &&
        compareDiffusionComponent m.scheduler f.scheduler &&
        compareDiffusionComponent m.textEncoder f.textEncoder &&
        compareDiffusionComponent m.tokenizer f.tokenizer &&
        compareDiffusionComponent m.transformer f.transformer &&
        compareDiffusionComponent m.vae f.vae &&
        compareAdditional m.additionalComponents f.additionalComponents

def formatSupportsModelCacheProvider (format : SupportedModelFormat) (provider : String) : Bool :=
  rules.trimSpace provider ≠ "" && rules.trimSpace provider ∈ format.modelCacheProviders

/-- The model needs a cache provider that the format does not list. -/
def lacksCacheProvider (model : BaseModelSpec) (format : SupportedModelFormat) (provider : String) :
    Bool :=
  model.sharded && !formatSupportsModelCacheProvider rules format provider

/-- Every rule the model fails, in reporting order. -/
def formatMismatches (provider : Option String) (model : BaseModelSpec)
    (format : SupportedModelFormat) : List Mismatch :=
  (if provider.any (lacksCacheProvider rules model format) then [.modelCacheProvider] else []) ++
  (if compareDiffusionPipeline model.diffusionPipeline format.diffusionPipeline then []
    else [.diffusionPipeline]) ++
  compareOptional .architecture model.modelArchitecture format.modelArchitecture sameText [] ++
  compareOptional .quantization model.quantization format.quantization sameText [] ++
  compareNamed rules .format .formatVersion (some model.modelFormat) format.modelFormat ++
  compareNamed rules .framework .frameworkVersion model.modelFramework format.modelFramework

def compareModelToFormat (provider : Option String) (model : BaseModelSpec)
    (format : SupportedModelFormat) : Bool :=
  (formatMismatches rules provider model format).isEmpty

/-! ## What an accepted format looks like -/

theorem compareOptional_eq_nil {reason : AttributeMismatch → Mismatch} {m r : Option String}
    {same : String → String → Bool} {version : List Mismatch} :
    compareOptional reason m r same version = [] ↔ m.isSome = r.isSome ∧
      ∀ a b, m = some a → r = some b → same a b = true ∧ version = [] := by
  cases m with
  | none => cases r <;> simp [compareOptional]
  | some a =>
    cases r with
    | none => simp [compareOptional]
    | some b =>
      by_cases agree : same a b = true
      · simp [compareOptional, agree]
      · simp [compareOptional, agree]

/-- A name that fits, with its version. -/
structure NamedFits (rules : Rules) (model runtime : Option Named) : Prop where
  both : model.isSome = runtime.isSome
  name : ∀ m r, model = some m → runtime = some r → m.name = r.name
  versions : ∀ m r, model = some m → runtime = some r → m.version.isSome = r.version.isSome
  agree : ∀ m r, model = some m → runtime = some r → ∀ v v', m.version = some v →
    r.version = some v' → rules.versionsMatch v v' r.operator = true

theorem compareNamed_eq_nil {rules : Rules} {name version : AttributeMismatch → Mismatch}
    {model runtime : Option Named} :
    compareNamed rules name version model runtime = [] ↔ NamedFits rules model runtime := by
  unfold compareNamed
  rw [compareOptional_eq_nil]
  constructor
  · rintro ⟨both, agree⟩
    rw [isSome_map, isSome_map] at both
    refine ⟨both, fun m r isM isR => ?_, fun m r isM isR => ?_,
      fun m r isM isR v v' hasV hasV' => ?_⟩
    all_goals
      subst isM isR
      obtain ⟨same, versions⟩ := agree m.name r.name rfl rfl
      rw [compareOptional_eq_nil] at versions
    · exact of_decide_eq_true same
    · exact versions.1
    · exact (versions.2 v v' hasV hasV').1
  · intro fits
    refine ⟨by simpa using fits.both, fun a b isA isB => ?_⟩
    obtain ⟨m, isM, rfl⟩ := map_eq_some_iff.mp isA
    obtain ⟨r, isR, rfl⟩ := map_eq_some_iff.mp isB
    refine ⟨decide_eq_true (fits.name m r isM isR), ?_⟩
    rw [compareOptional_eq_nil]
    subst isM isR
    exact ⟨fits.versions m r rfl rfl, fun v v' hasV hasV' =>
      ⟨fits.agree m r rfl rfl v v' hasV hasV', rfl⟩⟩

theorem compareText_eq_nil {reason : AttributeMismatch → Mismatch} {m r : Option String} :
    compareOptional reason m r sameText [] = [] ↔ m = r := by
  rw [compareOptional_eq_nil]
  cases m <;> cases r <;> simp [sameText]

/-- **A format that fits a model.** -/
structure Fits (rules : Rules) (provider : String) (model : BaseModelSpec)
    (format : SupportedModelFormat) : Prop where
  provided : lacksCacheProvider rules model format provider = false
  pipeline : compareDiffusionPipeline model.diffusionPipeline format.diffusionPipeline = true
  architecture : model.modelArchitecture = format.modelArchitecture
  quantization : model.quantization = format.quantization
  formatNamed : NamedFits rules (some model.modelFormat) format.modelFormat
  frameworkNamed : NamedFits rules model.modelFramework format.modelFramework

theorem compareModelToFormat_iff {rules : Rules} {provider : String} {model : BaseModelSpec}
    {format : SupportedModelFormat} :
    compareModelToFormat rules (some provider) model format = true ↔
      Fits rules provider model format := by
  unfold compareModelToFormat formatMismatches
  simp only [List.isEmpty_iff, List.append_eq_nil_iff, compareText_eq_nil, compareNamed_eq_nil,
    any_some]
  constructor
  · rintro ⟨⟨⟨⟨⟨provided, pipeline⟩, architecture⟩, quantization⟩, named⟩, framework⟩
    refine ⟨?_, ?_, architecture, quantization, named, framework⟩
    · by_contra lacks
      rw [Bool.not_eq_false] at lacks
      simp [lacks] at provided
    · by_contra refused
      simp [refused] at pipeline
  · rintro ⟨provided, pipeline, architecture, quantization, named, framework⟩
    simp [provided, pipeline, architecture, quantization, named, framework]

end Ome.RuntimeSelector
