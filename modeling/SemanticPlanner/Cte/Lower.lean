/-
Writing a relation out as named steps, parents first.

Relations of one identifier become one step, the first that is met.
-/
import SemanticPlanner.Cte.Plan
import SemanticPlanner.Plan.Memo

namespace SemanticPlanner

def CteJoin.ofJoin : RelationJoin → CteJoin
  | .base j => .base j.left j.right j.kind (j.pairs.map fun p => (p.left, p.right))
  | .unnest j => .unnest j

namespace Relation

/-- the datasources read directly -/
def ownDatasources (r : Relation) : List Datasource :=
  r.sources.filterMap fun s =>
    match s with
    | .datasource d => some d
    | .query _ => none

/-- the identifiers of the relations read, each once -/
def parentNames (r : Relation) : List String :=
  distinct (r.sources.filterMap fun s =>
    match s with
    | .query q => some q.identifier
    | .datasource _ => none)

/-- a grouping groups; anything else as forced, and a plain select if a datasource of it is finer than its grain -/
def isGrouped (r : Relation) : Bool :=
  match r.kind, r.forceGroup with
  | .group, _ => true
  | _, some b => b
  | .select, none => r.ownDatasources.any fun d => !d.grain.isSubset r.grain
  | _, none => false

/-- the step of a relation -/
def toCte (r : Relation) : Cte :=
  { name := r.identifier
    kind := r.kind
    parents := r.parentNames
    datasources := r.ownDatasources
    sourceMap := r.conceptMap.mapValues fun _ s => s.toList
    inputs := r.inputs
    outputs := r.outputs
    hidden := r.hidden
    partials := r.partials
    nullables := r.nullables
    grain := r.grain
    grouped := r.isGrouped
    joins := r.joins.map CteJoin.ofJoin
    condition := r.condition
    constants := ∅ }

mutual

/-- the steps of a relation added to those that are there, unless there is one of its name -/
def lowerInto : Relation → List Cte → List Cte
  | ⟨identifier, kind, inputs, outputs, hidden, partials, nullables, sources, conceptMap, joins, grain, condition,
      forceGroup⟩, out =>
    if out.any fun c => c.name == identifier then out
    else
      lowerSources sources out ++
        [toCte ⟨identifier, kind, inputs, outputs, hidden, partials, nullables, sources, conceptMap, joins, grain,
          condition, forceGroup⟩]

def lowerSources : List RelationSource → List Cte → List Cte
  | [], out => out
  | .datasource _ :: rest, out => lowerSources rest out
  | .query q :: rest, out => lowerSources rest (lowerInto q out)

end

/-- the plan of a relation -/
def lower (r : Relation) : CtePlan := ⟨lowerInto r [], r.identifier⟩

end Relation

/-- the plan of a node, and the arena with what was resolved on the way -/
def Arena.lower (a : Arena) (id : PlanId) : Except PlanningError CtePlan × Arena :=
  let (r, a) := a.resolve id
  (r.map Relation.lower, a)

end SemanticPlanner
