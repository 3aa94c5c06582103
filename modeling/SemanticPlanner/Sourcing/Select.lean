/-
Sourcing the outputs of a select as a whole: the rows found are grouped if they are finer than the outputs.
-/
import SemanticPlanner.Relation.Grouping
import SemanticPlanner.Sourcing.Planner

namespace SemanticPlanner

/-- a node above one that it groups, with the same visible outputs -/
def groupAbove (below : NodeCore) (parent : PlanId) (depth : Nat) : NodeCore :=
  ((NodeCore.of below.visible below.visible).withParents [parent]).withDepth depth |>.withPartials below.partials

/-- the outputs of a select at their own grain; nothing is asked for where there are none -/
def sourceSelect (search : Search) (outputs : List Concept) (depth : Nat) (condition : Option Condition) :
    Planning (Option PlanId) := do
  if outputs.isEmpty then return none
  match ← search { concepts := outputs, depth, condition } with
  | none => pure none
  | some root =>
    let env ← Planning.environment
    let core ← Planning.core root
    let relation ← Planning.resolve root
    let verdict ← (Grouping.check env core.visible [.query relation] : Except PlanningError Grouping.Verdict)
    if !verdict.required then return some root
    let id ← Planning.insert .group (groupAbove core root depth)
    let _ ← Planning.resolve id
    pure (some id)

/-- the outputs of a whole query, which have to be found -/
def sourceQuery (search : Search) (outputs : List Concept) (condition : Option Condition) : Planning PlanId := do
  match ← sourceSelect search outputs 0 condition with
  | some id => pure id
  | none => throw (.unresolvable (Concept.addresses outputs))

end SemanticPlanner
