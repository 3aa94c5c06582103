/-
Sourcing unions of key-compatible concepts.

Each layer pairs the members of every requested union that belong together, is sourced on its own, and shows the union
concepts in the place of its members.
-/
import SemanticPlanner.Sourcing.Inputs
import SemanticPlanner.Sourcing.Planner

namespace SemanticPlanner.Union

/-- one concept keys the other, or they share their keys -/
def belongTogether (a b : Concept) : Bool :=
  a.keys.contains b.address || b.keys.contains a.address || (!a.keys.isEmpty && decide (a.keys = b.keys))

def members (env : Environment) (c : Concept) : Except PlanningError (List Concept) :=
  match c.lineage with
  | some (.union u) => env.conceptsFor u.concepts
  | _ => .error (Inputs.invalid c "expected union lineage")

/-- a layer with the first of the candidates that belongs to its member -/
def pair (member : Concept) (layer : List Concept) (candidates : List Concept) : List Concept :=
  match candidates.find? (belongTogether member) with
  | some c => if layer.any fun l => l.address == c.address then layer else layer ++ [c]
  | none => layer

/-- a layer for each member of a union, with the members of the other unions that belong to it -/
def layers (env : Environment) (root : Concept) (others : List Concept) :
    Except PlanningError (List (List Concept)) := do
  let candidates ← others.mapM (members env)
  let own ← members env root
  pure (own.map fun m => candidates.foldl (pair m) [m])

/-- every layer sourced in order, showing only the given columns; none if one of them cannot be had -/
def sourceLayers (search : Search) (t : Task) (shown : List String) :
    List (List Concept) → Planning (Option (List PlanId))
  | [] => pure (some [])
  | layer :: rest => do
    match ← search { concepts := layer, depth := t.depth + 1, condition := t.condition } with
    | none => pure none
    | some id =>
      let own := (← Planning.core id).outputs
      Planning.edit fun a => (a.hideOutputs id own).addOutputs id shown
      pure ((← sourceLayers search t shown rest).map (id :: ·))

def source (search : Search) (t : Task) : Planning (Option PlanId) := do
  let env ← Planning.environment
  let unions := t.companions.filter fun c => decide (c.derivation = .union)
  let ls ← (layers env t.concept unions : Except PlanningError _)
  let outputs := t.concept.address :: Concept.addresses unions
  match ← sourceLayers search t outputs ls with
  | none => pure none
  | some parents =>
    some <$> Planning.insert .union
      (((NodeCore.of outputs outputs).withParents parents).withDepth t.depth |>.withPreexisting t.condition)

end SemanticPlanner.Union
