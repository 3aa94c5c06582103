/-
The concepts that have to be sourced before a derived one can be computed.
-/
import SemanticPlanner.Environment.Basic

namespace SemanticPlanner.Inputs

def invalid (c : Concept) (reason : String) : PlanningError := .invalidLineage c.address reason

/-- the keys of properties among the concepts, so that the properties are not collapsed before they are aggregated -/
def propertyKeys (env : Environment) (cs : List Concept) : Except PlanningError (List Concept) := do
  let keys ← (cs.filter fun c => decide (c.purpose = .property)).mapM fun c => env.conceptsFor c.keys.toList
  pure keys.flatten

/-- what a function or an aggregate reads; an aggregate at a grain needs the components of that too -/
def ofFunction (env : Environment) (c : Concept) : Except PlanningError (List Concept) := do
  match c.lineage with
  | some (.aggregate a) =>
    let direct ← env.conceptsFor (Lineage.argumentsOf a.args)
    let components ← env.conceptsFor c.grain.components.toList
    pure (Concept.unique (direct ++ components ++ (← propertyKeys env direct)))
  | some (.function f) => env.conceptsFor (Lineage.function f).arguments
  | _ => throw (invalid c "expected function or aggregate lineage")

/-- the concepts on the row of a filtered concept, and those that its membership tests read -/
structure FilterInputs where
  rows : List Concept
  existence : List Concept

/-- what a filter reads; a filtered property or metric brings its keys, so that it stays at its own grain -/
def ofFilter (env : Environment) (c : Concept) : Except PlanningError FilterInputs := do
  match c.lineage with
  | some (.filter f) =>
    let content ← env.concept f.content
    let read ← env.conceptsFor f.condition.rowArguments
    let keys ←
      if content.purpose = .property ∨ content.purpose = .metric then env.conceptsFor content.keys.toList else pure []
    let existence ← env.conceptsFor f.condition.existenceArguments
    pure ⟨Concept.unique (content :: read ++ keys), Concept.unique existence⟩
  | _ => throw (invalid c "expected filter lineage")

/-- what a window reads: its content, its partition and its order -/
def ofWindow (env : Environment) (c : Concept) : Except PlanningError (List Concept) := do
  match c.lineage with
  | some (.window w) =>
    let content ← env.concept w.content
    let parts ← env.conceptsFor w.partitionBy
    let order ← env.conceptsFor (w.orderBy.map OrderItem.concept)
    pure (Concept.unique (content :: parts ++ order))
  | _ => throw (invalid c "expected window lineage")

end SemanticPlanner.Inputs
