/-
Sourcing what is computed row by row or by grouping: functions, aggregates, regrouped values, windows, array
expansions and recursions.

Each first sources what it reads, and then either computes itself on the node that was found or adds a node above it.
-/
import SemanticPlanner.Relation.Grouping
import SemanticPlanner.Sourcing.Enrich
import SemanticPlanner.Sourcing.Inputs

namespace SemanticPlanner.Derived

/-- a node that adds columns above one parent -/
def above (parent : List PlanId) (inputs outputs : List String) (t : Task) : NodeCore :=
  ((NodeCore.of inputs outputs).withParents parents).withDepth t.depth |>.withPreexisting t.condition
where
  parents := parent

/-! ## Functions -/

/-- a function that is computed in the same way -/
def isSameFunction (c other : Concept) : Bool :=
  match c.lineage, other.lineage with
  | some a, some b => a.isFunction && b.isFunction && decide (other.derivation = .basic) && a.isEquivalent b
  | _, _ => false

/-- a function computed on the node that sources its arguments, together with equal ones; other companions are sourced
with the arguments, and whatever nobody asked for is dropped -/
def function (search : Search) (t : Task) : Planning (Option PlanId) := do
  let env ← Planning.environment
  let own ← Inputs.ofFunction env t.concept
  let (peers, others) := t.companions.partition fun c =>
    c.address != t.concept.address && isSameFunction t.concept c
  let peerInputs ← peers.mapM fun c => (Inputs.ofFunction env c : Except PlanningError _)
  let inputs := Concept.unique (own ++ peerInputs.flatten)
  let request := Concept.unique (inputs ++ others)
  match ← search { concepts := request, depth := t.depth + 1, condition := t.condition } with
  | none => pure none
  | some id =>
    let computed := Concept.addresses (t.concept :: peers)
    Planning.edit fun a => a.addOutputs id computed
    let kept := computed ++ Concept.addresses t.companions ++ Concept.addresses inputs
    let stray := (← Planning.core id).outputs.filter fun o => !kept.contains o
    if !stray.isEmpty then Planning.edit fun a => a.removeOutputs id stray
    pure (some id)

/-! ## Aggregates -/

/-- what is aggregated in one grouping: the concepts read, and the concepts produced -/
structure Grouping where
  inputs : List Concept
  outputs : List Concept

/-- a companion taken into the grouping, if it is at the same grain and its inputs are there or at the same grain -/
def absorb (env : Environment) (c : Concept) (g : Grouping) (companion : Concept) :
    Except PlanningError Grouping := do
  let fits := decide (companion.derivation = .aggregate ∨ companion.derivation = .basic) && companion.grain == c.grain
  if !fits || g.outputs.any (fun o => o.address == companion.address) then return g
  let inputs ← Inputs.ofFunction env companion
  let contained := inputs.all fun i => g.inputs.any fun x => x.address == i.address
  if contained || Grain.ofConcepts inputs == Grain.ofConcepts g.inputs then
    return ⟨Concept.unique (g.inputs ++ inputs), g.outputs ++ [companion]⟩
  return g

/-- an aggregate grouped to its grain, together with the companions that fit in -/
def aggregate (search : Search) (t : Task) : Planning (Option PlanId) := do
  let env ← Planning.environment
  let own ← Inputs.ofFunction env t.concept
  let components ← Planning.conceptsFor t.concept.grain.components.toList
  let start : Grouping := ⟨Concept.unique (own ++ components), t.concept :: components⟩
  let g ← (t.companions.foldlM (absorb env t.concept) start : Except PlanningError Grouping)
  let outputs := Concept.unique g.outputs
  match ← search { concepts := g.inputs, depth := t.depth, condition := t.condition } with
  | none => pure none
  | some parent =>
    let id ← Planning.insert .group (above [parent] (Concept.addresses g.inputs) (Concept.addresses outputs) t)
    if t.companions.all fun c => outputs.any fun o => o.address == c.address then pure (some id)
    else some <$> Enrich.node search id components t.companions t.depth t.condition

/-! ## Values at an explicit grain -/

/-- a value restated at an explicit grain, merged with its companions -/
def regroup (search : Search) (t : Task) : Planning (Option PlanId) := do
  let args ← Planning.conceptsFor t.concept.arguments
  let read := Concept.addresses args
  match ← search { concepts := args, depth := t.depth + 1, condition := t.condition } with
  | none => pure none
  | some parent =>
    let id ← Planning.insert .group (above [parent] read (read ++ [t.concept.address]) t)
    if t.companions.isEmpty then return some id
    let request := Concept.unique (args ++ t.companions)
    match ← search { concepts := request, depth := t.depth + 1, condition := t.condition } with
    | none => pure (some id)
    | some found =>
      let outputs := t.concept.address :: Concept.addresses t.companions
      let merged ← Planning.insert (.merge none) (above [id, found] (outputs ++ read) outputs t)
      Planning.edit fun a => a.setWholeGrain merged true
      pure (some merged)

/-! ## Windows -/

/-- a window over the same partition and order -/
def isSameWindow (c other : Concept) : Bool :=
  match c.lineage, other.lineage with
  | some a, some b => b.isWindow && a.isEquivalent b
  | _, _ => false

/-- a window computed in one pass with its peers; it never changes the grain -/
def window (search : Search) (t : Task) : Planning (Option PlanId) := do
  let env ← Planning.environment
  let own ← Inputs.ofWindow env t.concept
  let peers := t.companions.filter (isSameWindow t.concept)
  let peerInputs ← peers.mapM fun c => (Inputs.ofWindow env c : Except PlanningError _)
  let inputs := Concept.unique (own ++ peerInputs.flatten)
  match ← search { concepts := inputs, depth := t.depth + 1, condition := t.condition } with
  | none => pure none
  | some parent =>
    let read := Concept.addresses inputs
    let outputs := Concept.addresses (t.concept :: peers) ++ read
    let base ← Planning.insert .window (above [parent] read outputs t)
    let wrapped ← Planning.insert (.merge none)
      (((NodeCore.of outputs outputs).withParents [base]).withDepth t.depth
        |>.withForceGroup (some false)
        |>.withGrain (Grain.ofConcepts inputs)
        |>.withPreexisting t.condition)
    let joinKeys ← Planning.conceptsFor (relevantJoins inputs)
    some <$> Enrich.node search wrapped joinKeys t.companions t.depth t.condition

/-! ## Array expansions -/

/-- an array expanded alongside its companions; the expansion is wrapped, as it cannot be joined everywhere -/
def unnest (search : Search) (t : Task) : Planning (Option PlanId) := do
  let args ← Planning.conceptsFor t.concept.arguments
  let others := t.companions.filter fun c => !args.any fun a => a.address == c.address
  let request := Concept.unique (args ++ others)
  let found ←
    if request.isEmpty then pure (some [])
    else do
      let id ← search { concepts := request, depth := t.depth + 1, condition := t.condition }
      pure (id.map fun x => [x])
  match found with
  | none => pure none
  | some parents =>
    let outputs := t.concept.address :: Concept.addresses others
    let base ← Planning.insert (.unnest [t.concept.address]) (above parents (Concept.addresses request) outputs t)
    some <$> Planning.insert (.merge none) (above [base] outputs outputs t)

/-! ## Recursions -/

/-- the closure of an edge from child to parent; it multiplies rows, so they are grouped again -/
def recursion (search : Search) (t : Task) : Planning (Option PlanId) := do
  let args ← Planning.conceptsFor t.concept.arguments
  if args.length != 2 then throw (Inputs.invalid t.concept "recursion needs a child and a parent edge")
  match ← search { concepts := args, depth := t.depth + 1, condition := t.condition } with
  | none => pure none
  | some parent =>
    let read := Concept.addresses args
    let outputs := t.concept.address :: read
    let base ← Planning.insert .recursive (above [parent] read outputs t)
    let grouped ← Planning.insert .group
      (((NodeCore.of outputs outputs).withParents [base]).withDepth t.depth
        |>.withForceGroup (some true)
        |>.withPreexisting t.condition)
    some <$> Enrich.node search grouped args t.companions t.depth t.condition

end SemanticPlanner.Derived
