/-
Planning a query: its outputs sourced in the environment as the query sees it, and everything else hidden.
-/
import SemanticPlanner.Cte.Lower
import SemanticPlanner.Plan.Arena
import SemanticPlanner.Search.Loop

namespace SemanticPlanner

/-- the plan of a query: every node made for it, and the one whose rows are the result -/
structure QueryPlan where
  arena : Arena
  root : PlanId
deriving Inhabited

namespace QueryPlan

/-- the outputs sourced; what the root carries besides them is hidden -/
def source (outputs : List Concept) (condition : Option Condition) : Planning PlanId := do
  let root ← sourceQuery search outputs condition
  let extra := (← Planning.core root).visible.filter fun a => !(Concept.addresses outputs).contains a
  if !extra.isEmpty then Planning.edit fun a => a.hideOutputs root extra
  let _ ← Planning.resolve root
  pure root

/-- the plan of `select` for the rows that satisfy the condition -/
def make (env : Environment) (select : List String) (condition : Option Condition) (settings : PlannerSettings) :
    Except PlanningError QueryPlan := do
  let seen ← env.inSelect select
  let outputs ← seen.conceptsFor select
  let planner ← Planner.start seen settings
  let (root, planner) := (source outputs condition).run planner
  pure ⟨planner.arena, ← root⟩

def explain (p : QueryPlan) : List String := p.arena.explain p.root

/-- the plan as named steps -/
def lower (p : QueryPlan) : Except PlanningError CtePlan := (p.arena.lower p.root).1

end QueryPlan

end SemanticPlanner
