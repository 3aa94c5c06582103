/-
Sourcing named rowsets.

The inner select is planned on its own. The node then shows the rowset's concepts and the companions that the select
puts out, and hides what the select only needed for itself.
-/
import SemanticPlanner.Sourcing.Enrich
import SemanticPlanner.Sourcing.Inputs
import SemanticPlanner.Sourcing.Select

namespace SemanticPlanner.Rowset

/-- the addresses under which the rowset shows the outputs of its select -/
def exposed (env : Environment) (r : RowsetLineage) : List String :=
  Concept.addresses ((env.rowsetConcepts r.rowset).filter fun c =>
    match c.lineage with
    | some (.rowset q) => !r.select.hidden.contains q.content
    | _ => false)

/-- the node of the inner select made the node of the rowset -/
def expose (env : Environment) (r : RowsetLineage) (t : Task) (id : PlanId) : Planning Unit := do
  let shown := exposed env r
  let passed := (Concept.addresses t.companions).filter r.select.output.contains
  Planning.edit fun a => (a.addOutputs id shown).addOutputs id passed
  -- the filter of the select leaves these only partially populated
  if r.select.condition.isSome then Planning.edit fun a => a.addPartials id passed
  let requested := t.concept.address :: Concept.addresses t.companions
  let stray := (← Planning.core id).outputs.filter fun o => !shown.contains o && !requested.contains o
  Planning.edit fun a => a.hideOutputs id stray
  let visible ← Planning.conceptsFor (← Planning.core id).visible
  Planning.edit fun a => a.setGrain id (some (Grain.ofConcepts visible))

/-- the companion is visible and complete -/
def isCovered (core : NodeCore) (c : Concept) : Bool :=
  core.visible.contains c.address && !core.partials.contains c.address

def source (search : Search) (t : Task) : Planning (Option PlanId) := do
  let env ← Planning.environment
  let r ← match t.concept.lineage with
    | some (.rowset r) => pure r
    | _ => throw (Inputs.invalid t.concept "expected rowset lineage")
  let outputs ← Planning.conceptsFor r.select.output
  let hidden ← Planning.conceptsFor r.select.hidden
  match ← sourceSelect search (Concept.unique (outputs ++ hidden)) (t.depth + 1) r.select.condition with
  | none => pure none
  | some id =>
    expose env r t id
    let core ← Planning.core id
    if t.companions.all (isCovered core) then return some id
    let inner ← Planning.conceptsFor core.outputs
    let joinKeys ← Planning.conceptsFor (relevantJoins (inner.filter fun c => decide (c.derivation ≠ .rowset)))
    if joinKeys.isEmpty then return some id
    Planning.edit fun a => a.showOutputs id (Concept.addresses joinKeys)
    some <$> Enrich.node search id joinKeys t.companions t.depth t.condition

end SemanticPlanner.Rowset
