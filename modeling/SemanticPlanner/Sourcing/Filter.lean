/-
Sourcing filtered concepts.

A filter with a scalar condition is applied by its parents if the query applies the same condition, or if every
companion can live under it. Any other filter gets a node of its own, joined back onto the unfiltered companions.
-/
import SemanticPlanner.Environment.Scalar
import SemanticPlanner.Relation.Grouping
import SemanticPlanner.Sourcing.Inputs
import SemanticPlanner.Sourcing.Planner

namespace SemanticPlanner.Filter

/-- a filter that is being sourced -/
structure Plan where
  task : Task
  content : Concept
  condition : Condition
  /-- the filtered concept and companions with the same condition -/
  outputs : List Concept
  /-- the other companions -/
  others : List Concept
  /-- what the filters read from the row, and by membership tests -/
  rows : List Concept
  existence : List Concept

namespace Plan

/-- the other companions are on the row anyway -/
def othersFit (p : Plan) : Bool := p.others.all fun o => (Concept.addresses p.rows).contains o.address

/-- the query applies the filter's condition -/
def isApplied (p : Plan) : Bool := p.condition.holdsInOption p.task.condition

end Plan

/-- a companion that is filtered by the same condition -/
def isPeer (condition : Condition) (c : Concept) : Bool :=
  match c.lineage with
  | some (.filter f) => f.condition == condition
  | _ => false

def plan (env : Environment) (t : Task) : Except PlanningError Plan := do
  match t.concept.lineage with
  | some (.filter f) =>
    let content ← env.concept f.content
    let own ← Inputs.ofFilter env t.concept
    let (peers, others) := t.companions.partition (isPeer f.condition)
    let peerRows ← peers.mapM fun c => Inputs.FilterInputs.rows <$> Inputs.ofFilter env c
    pure
      { task := t
        content
        condition := f.condition
        outputs := t.concept :: peers
        others
        rows := Concept.unique (own.rows ++ peerRows.flatten)
        existence := own.existence }
  | _ => throw (Inputs.invalid t.concept "expected filter lineage")

/-- the filter applied by the node that sources its rows -/
def push (search : Search) (p : Plan) : Planning (Option PlanId) := do
  let condition := if p.isApplied then p.task.condition else some p.condition
  match ← search { concepts := Concept.unique (p.rows ++ p.others), depth := p.task.depth + 1, condition } with
  | none => pure none
  | some id =>
    Planning.edit fun a => a.addOutputs id (Concept.addresses p.outputs)
    pure (some id)

/-- the concepts of membership tests sourced one by one; none if one of them cannot be had -/
def sourceChecks (search : Search) (depth : Nat) : List Concept → Planning (Option (List PlanId))
  | [] => pure (some [])
  | c :: rest => do
    match ← search { concepts := [c], depth := depth + 1 } with
    | none => pure none
    | some id => pure ((← sourceChecks search depth rest).map (id :: ·))

/-- a node of its own for the filter, above its rows and the concepts of its membership tests -/
def separate (search : Search) (p : Plan) : Planning (Option PlanId) := do
  let t := p.task
  match ← search { concepts := p.rows, depth := t.depth + 1, condition := t.condition } with
  | none => pure none
  | some rows =>
    match ← sourceChecks search t.depth p.existence with
    | none => pure none
    | some checks =>
      let basis := p.content :: (← Planning.conceptsFor p.condition.rowArguments)
      let read := Concept.addresses p.rows
      let existence := Concept.addresses p.existence
      some <$> Planning.insert .filter
        (((NodeCore.of (read ++ existence) (Concept.addresses p.outputs ++ p.content.address :: read)).withParents
            (rows :: checks)).withDepth t.depth
          |>.withExistence existence
          |>.withGrain (Grain.ofConcepts basis)
          |>.withPreexisting t.condition
          |>.withCondition (some p.condition))

/-- the filter joined onto the unfiltered rows, which keep what the filter leaves out -/
def joinBack (search : Search) (p : Plan) (filtered : PlanId) : Planning PlanId := do
  let t := p.task
  let request := Concept.unique (p.content :: p.rows ++ p.others)
  match ← search { concepts := request, depth := t.depth + 1, condition := t.condition } with
  | none => pure filtered
  | some found =>
    let outputs := Concept.addresses p.outputs ++ Concept.addresses request
    Planning.insert (.merge (some [⟨found, filtered, relevantJoins (p.content :: p.rows), .leftOuter⟩]))
      (((NodeCore.of outputs outputs).withParents [found, filtered]).withDepth t.depth
        |>.withPreexisting t.condition)

def source (search : Search) (t : Task) : Planning (Option PlanId) := do
  let env ← Planning.environment
  let p ← (plan env t : Except PlanningError Plan)
  if p.existence.isEmpty && p.condition.isScalar env ∅ && (p.isApplied || p.othersFit) then push search p
  else match ← separate search p with
    | none => pure none
    | some id => if p.othersFit then pure (some id) else some <$> joinBack search p id

end SemanticPlanner.Filter
