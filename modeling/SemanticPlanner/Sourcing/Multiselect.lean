/-
Sourcing multiselects: several inner selects, joined in full on the concepts that are aligned.
-/
import SemanticPlanner.Sourcing.Enrich
import SemanticPlanner.Sourcing.Inputs
import SemanticPlanner.Sourcing.Select

namespace SemanticPlanner.Multiselect

/-- the node of an inner select, and the aligned concepts it shows -/
structure Branch where
  node : PlanId
  aligned : List String

/-- joins from the first branch to every other one on what both align; none of it means a cross join -/
def joins : List Branch → List NodeJoin
  | [] => []
  | first :: rest => rest.map fun b =>
    let common := first.aligned.filter b.aligned.contains
    ⟨first.node, b.node, common, if common.isEmpty then .cross else .full⟩

/-- the condition on the rows of a select and on its groups -/
def conditionOf (s : InnerSelect) : Option Condition :=
  match s.condition, s.havingCondition with
  | some c, some h => some (.and c h)
  | c, h => c.or h

/-- every inner select sourced in order; none if one of them cannot be had -/
def branches (search : Search) (m : MultiselectLineage) (depth : Nat) :
    List InnerSelect → Planning (Option (List Branch))
  | [] => pure (some [])
  | s :: rest => do
    let outputs ← Planning.conceptsFor s.output
    match ← sourceSelect search outputs (depth + 1) (conditionOf s) with
    | none => pure none
    | some id =>
      let aligned := (← Planning.core id).visible.filterMap m.mergeConcept
      Planning.edit fun a => a.addOutputs id aligned
      pure ((← branches search m depth rest).map (⟨id, aligned⟩ :: ·))

/-- the columns asked for: aligned concepts, and companions that an inner select puts out -/
def outputsOf (env : Environment) (m : MultiselectLineage) (t : Task) : List String :=
  let requested := t.concept.address :: Concept.addresses t.companions
  (Concept.addresses (env.multiselectConcepts m.name)).filter requested.contains
    ++ (Concept.addresses t.companions).filter fun a => m.selects.any fun s => s.output.contains a

def source (search : Search) (t : Task) : Planning (Option PlanId) := do
  let env ← Planning.environment
  let m ← match t.concept.lineage with
    | some (.multiselect m) => pure m
    | _ => throw (Inputs.invalid t.concept "expected multiselect lineage")
  match ← branches search m t.depth m.selects with
  | none => pure none
  | some bs =>
    let outputs := outputsOf env m t
    let inputs := (← bs.mapM fun b => Planning.core b.node).flatMap NodeCore.visible
    let cs ← Planning.conceptsFor outputs
    let id ← Planning.insert (.merge (some (joins bs)))
      (((NodeCore.of inputs outputs).withParents (bs.map Branch.node)).withDepth t.depth
        |>.withGrain (Grain.ofConcepts cs))
    if t.companions.all fun c => outputs.contains c.address then return some id
    let joinable := cs.filter fun c => decide (c.derivation ≠ .multiselect)
    if joinable.isEmpty then return some id
    let joinKeys ← Planning.conceptsFor (relevantJoins joinable)
    some <$> Enrich.node search id joinKeys t.companions t.depth t.condition

end SemanticPlanner.Multiselect
