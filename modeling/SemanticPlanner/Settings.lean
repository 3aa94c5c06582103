/-
Limits and switches of planning and optimizing.

Every section and every entry of a settings file may be missing and then takes its default. A section may also list its
entries in order; what is listed beyond them is left unread. `validate` refuses limits that would let nothing run, the
first of them in file order.
-/
import SemanticPlanner.Json.Decode
import SemanticPlanner.Toml.Reader

namespace SemanticPlanner

/-- limits and fallbacks of the search -/
structure PlannerSettings where
  /-- the deepest nested search -/
  maxDepth : Nat := 64
  /-- the most rounds of bridge discovery -/
  weakComponentLimit : Nat := 20
  /-- a failed search is tried once more with partial sources -/
  partialRetry : Bool := true
  /-- pseudonyms are tried for roots that cannot be sourced -/
  synonymFallback : Bool := true
deriving Inhabited

/-- which rules run, and their limits -/
structure OptimizerSettings where
  predicatePushdown : Bool := true
  predicatePushdownRemove : Bool := true
  datasourceInlining : Bool := true
  constantInlining : Bool := true
  mergeAggregate : Bool := true
  directReturn : Bool := true
  /-- the most readers that a datasource is inlined into -/
  inlineDatasourceCutoff : Nat := 2
  /-- the most passes of one rule -/
  maxLoops : Nat := 100
deriving Inhabited

structure Settings where
  planner : PlannerSettings := {}
  optimizer : OptimizerSettings := {}
  /-- the level at which messages are logged -/
  logLevel : String := "info"
deriving Inhabited

namespace PlannerSettings

def fieldNames : List String := ["max_depth", "weak_component_limit", "partial_retry", "synonym_fallback"]

def ofJson? : Json.Decoder PlannerSettings := fun j => do
  let f ← Json.asFields fieldNames j
  let d : PlannerSettings := {}
  pure
    { maxDepth := ← f.withDefault "max_depth" d.maxDepth Json.asCount
      weakComponentLimit := ← f.withDefault "weak_component_limit" d.weakComponentLimit Json.asCount
      partialRetry := ← f.withDefault "partial_retry" d.partialRetry Json.asBool
      synonymFallback := ← f.withDefault "synonym_fallback" d.synonymFallback Json.asBool }

def toJson (s : PlannerSettings) : Json :=
  .object [("max_depth", .integer s.maxDepth), ("weak_component_limit", .integer s.weakComponentLimit),
    ("partial_retry", .bool s.partialRetry), ("synonym_fallback", .bool s.synonymFallback)]

end PlannerSettings

namespace OptimizerSettings

def fieldNames : List String :=
  ["predicate_pushdown", "predicate_pushdown_remove", "datasource_inlining", "constant_inlining", "merge_aggregate",
    "direct_return", "inline_datasource_cutoff", "max_loops"]

def ofJson? : Json.Decoder OptimizerSettings := fun j => do
  let f ← Json.asFields fieldNames j
  let d : OptimizerSettings := {}
  pure
    { predicatePushdown := ← f.withDefault "predicate_pushdown" d.predicatePushdown Json.asBool
      predicatePushdownRemove := ← f.withDefault "predicate_pushdown_remove" d.predicatePushdownRemove Json.asBool
      datasourceInlining := ← f.withDefault "datasource_inlining" d.datasourceInlining Json.asBool
      constantInlining := ← f.withDefault "constant_inlining" d.constantInlining Json.asBool
      mergeAggregate := ← f.withDefault "merge_aggregate" d.mergeAggregate Json.asBool
      directReturn := ← f.withDefault "direct_return" d.directReturn Json.asBool
      inlineDatasourceCutoff := ← f.withDefault "inline_datasource_cutoff" d.inlineDatasourceCutoff Json.asCount
      maxLoops := ← f.withDefault "max_loops" d.maxLoops Json.asCount }

def toJson (s : OptimizerSettings) : Json :=
  .object [("predicate_pushdown", .bool s.predicatePushdown),
    ("predicate_pushdown_remove", .bool s.predicatePushdownRemove),
    ("datasource_inlining", .bool s.datasourceInlining), ("constant_inlining", .bool s.constantInlining),
    ("merge_aggregate", .bool s.mergeAggregate), ("direct_return", .bool s.directReturn),
    ("inline_datasource_cutoff", .integer s.inlineDatasourceCutoff), ("max_loops", .integer s.maxLoops)]

end OptimizerSettings

namespace Settings

/-- the sections of a file, each with the names of its entries in order -/
def sections : List (String × List String) :=
  [("planner", PlannerSettings.fieldNames), ("optimizer", OptimizerSettings.fieldNames), ("logging", ["level"])]

/-- a file without what its sections list beyond their entries -/
def withoutExcess : Json → Json
  | .object ms => .object (ms.map fun (name, v) =>
      match sections.lookup name, v with
      | some entries, .array xs => (name, .array (xs.take entries.length))
      | _, _ => (name, v))
  | j => j

/-- the section on logging -/
def levelOfJson? : Json.Decoder String := fun j => do
  (← Json.asFields ["level"] j).withDefault "level" ({} : Settings).logLevel Json.asText

def ofJson? : Json.Decoder Settings := fun j => do
  let f ← Json.asFields ["planner", "optimizer", "logging"] j
  pure
    { planner := ← f.withDefault "planner" {} PlannerSettings.ofJson?
      optimizer := ← f.withDefault "optimizer" {} OptimizerSettings.ofJson?
      logLevel := ← f.withDefault "logging" ({} : Settings).logLevel levelOfJson? }

def toJson (s : Settings) : Json :=
  .object [("planner", s.planner.toJson), ("optimizer", s.optimizer.toJson),
    ("logging", .object [("level", .text s.logLevel)])]

/-- the limits that must be positive, by the name of their entry -/
def limits (s : Settings) : List (String × Nat) :=
  [("planner.max_depth", s.planner.maxDepth), ("planner.weak_component_limit", s.planner.weakComponentLimit),
    ("optimizer.max_loops", s.optimizer.maxLoops),
    ("optimizer.inline_datasource_cutoff", s.optimizer.inlineDatasourceCutoff)]

/-- the first limit that lets nothing run -/
def firstZero (s : Settings) : Option String := (s.limits.find? fun l => l.2 == 0).map Prod.fst

end Settings

/-- why settings are refused -/
inductive SettingsError where
  | malformed
  | zeroLimit (entry : String)
deriving DecidableEq, Repr

namespace SettingsError

def message : SettingsError → String
  | malformed => "Failed to parse config file"
  | zeroLimit entry => "Invalid configuration: " ++ entry ++ " must be positive"

end SettingsError

/-- settings whose limits let everything run -/
def Settings.validate (s : Settings) : Except SettingsError Settings :=
  match s.firstZero with
  | some entry => .error (.zeroLimit entry)
  | none => .ok s

/-- the settings a text holds; whatever they do not leave unread must be readable, even under a name they do not know -/
def Settings.ofToml? (source : String) : Option Settings := do
  let file := withoutExcess (← Toml.read source)
  if file.isReadable then ofJson? file else none

/-- the settings of a file, whose limits let everything run -/
def Settings.read (source : String) : Except SettingsError Settings :=
  match Settings.ofToml? source with
  | none => .error .malformed
  | some s => s.validate

end SemanticPlanner
