/-
A run of the command line as a function of its arguments and of the files it can read.
-/
import SemanticPlanner.Command.Arguments
import SemanticPlanner.Command.Listing
import SemanticPlanner.Cte.Optimize
import SemanticPlanner.Environment.Declaration
import SemanticPlanner.Text.Split

namespace SemanticPlanner.Command

/-- why a run failed -/
inductive Failure where
  | usage
  | configMissing (path : String)
  | config (path : String) (cause : SettingsError)
  | file (path : String)
  | parse (path : String)
  | environment (cause : PlanningError)
  | nothingSelected
  | planning (cause : PlanningError)
  | lowering (cause : PlanningError)
  | optimization (cause : PlanningError)
deriving Repr

namespace Failure

def usageText : String := "usage: plan FILE [--select A,B] [--config FILE] [--output tree|json|ctes]"

def message : Failure → String
  | usage => usageText
  | configMissing p => "Error loading config '" ++ p ++ "': Config file not found: " ++ p
  | config p e => "Error loading config '" ++ p ++ "': " ++ e.message
  | file p => "Error reading file '" ++ p ++ "'"
  | parse p => "Error parsing '" ++ p ++ "'"
  | environment e => "Invalid environment: " ++ e.message
  | nothingSelected => "Nothing to select: pass --select or add a query to the file"
  | planning e => "Planning error: " ++ e.message
  | lowering e => "Lowering error: " ++ e.message
  | optimization e => "Optimization error: " ++ e.message

/-- the exit code: wrong arguments are told apart from everything else -/
def code : Failure → Nat
  | usage => 2
  | _ => 1

end Failure

/-- the texts of files by path; nothing where there is no readable one -/
abbrev Files := String → Option String

def settings (files : Files) : Option String → Except Failure Settings
  | none => .ok {}
  | some path =>
    match files path with
    | none => .error (.configMissing path)
    | some source => (Settings.read source).mapError (.config path)

/-- the lines that are printed of a plan -/
def printed (env : Environment) (s : OptimizerSettings) (p : QueryPlan) : Format → Except Failure (List String)
  | .tree => .ok p.listing
  | .json => do
    let plan ← p.lower.mapError .lowering
    pure (Text.lines plan.toJson.pretty)
  | .ctes => do
    let plan ← (p.lower >>= CtePlan.optimize env s).mapError .optimization
    pure plan.listing

/-- a file's query, or the given names, planned and printed -/
def plan (files : Files) (a : Arguments) : Except Failure (List String) := do
  let s ← settings files a.config
  let source ← match files a.file with
    | some source => pure source
    | none => throw (.file a.file)
  let declared ← match EnvironmentFile.read source with
    | some declared => pure declared
    | none => throw (.parse a.file)
  let env ← declared.build.mapError .environment
  let query := declared.query.getD ⟨[], none⟩
  let names := if a.select.isEmpty then query.select else a.select
  if names.isEmpty then throw .nothingSelected
  let select := names.map fun n => Address.qualify (Text.trimBlank n)
  let p ← (QueryPlan.make env select query.condition s.planner).mapError .planning
  printed env s.optimizer p a.format

/-- a run: the lines it prints, or why it failed -/
def run (files : Files) (args : List String) : Except Failure (List String) :=
  match Arguments.read args with
  | none => .error .usage
  | some a => plan files a

end SemanticPlanner.Command
