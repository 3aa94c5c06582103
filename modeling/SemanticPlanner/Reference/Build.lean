/-
Building the reference graph of an environment.

Concepts come first, each followed through its lineage and then through its pseudonyms; datasources come after them.
A concept whose lineage leads back to itself is refused.
-/
import SemanticPlanner.Reference.Graph
import SemanticPlanner.Environment.Basic

namespace SemanticPlanner.ReferenceGraph

/-- a graph under construction and the concept nodes already followed -/
structure Draft where
  graph : ReferenceGraph
  seen : SortedSet GraphNode

/-- a concept with everything its lineage and its pseudonyms lead to; `below` holds the concepts whose lineage is
being followed. Each level of nesting follows a new node, so one level more than there are concepts is enough. -/
def follow (env : Environment) : Nat → List String → Draft → Concept → Except PlanningError Draft
  | 0, _, b, _ => .ok b
  | fuel + 1, below, b, c => do
    if below.contains c.address then throw (.selfReference c.address)
    let node := GraphNode.ofConcept c
    if b.seen.contains node then return b
    let argument (b : Draft) (a : String) : Except PlanningError Draft := do
      if a = c.address then throw (.selfReference a)
      let source ← env.concept a
      let b ← follow env fuel (c.address :: below) b source
      pure { b with graph := b.graph.addEdge node (GraphNode.ofConcept source) }
    let pseudonym (b : Draft) (p : String) : Except PlanningError Draft :=
      match env.find? p with
      | none => throw (.invalidPseudonym c.address p)
      | some other =>
        let otherNode := GraphNode.ofConcept other
        if other.address = c.address then pure b
        else if b.graph.hasEdge node otherNode && b.graph.hasEdge otherNode node then pure b
        else follow env fuel [] { b with graph := b.graph.addPseudonym node otherNode } other
    let b ← c.arguments.foldlM argument ⟨b.graph.addConcept c, b.seen.insert node⟩
    c.pseudonyms.toList.foldlM pseudonym b

/-- a datasource linked both ways with every concept it carries -/
def attach (env : Environment) (g : ReferenceGraph) (d : Datasource) : Except PlanningError ReferenceGraph :=
  d.outputs.foldlM
    (fun g a => do
      let c ← env.concept a
      pure ((g.addConcept c).addBoth (.datasource d.identifier) (GraphNode.ofConcept c)))
    (g.addSource (.single d))

/-- the reference graph of an environment -/
def ofEnvironment (env : Environment) : Except PlanningError ReferenceGraph := do
  let b ← env.concepts.values.foldlM (fun b c => follow env (env.concepts.size + 2) [] b c) ⟨empty, ∅⟩
  env.datasources.values.foldlM (attach env) b.graph

/-- a concept at another grain, linked both ways with its own node -/
def addAtGrain (g : ReferenceGraph) (c : Concept) (grain : Grain) : ReferenceGraph :=
  ((g.addConcept c).addConcept (c.withGrain grain)).addBoth (GraphNode.ofConcept (c.withGrain grain))
    (GraphNode.ofConcept c)

/-- whether a datasource can serve a query under `condition`: unconditional ones and unions always can, a conditional
extract only under its own condition, or without one where partial data will do -/
def serves (acceptPartial : Bool) (condition : Option Condition) : GraphSource → Bool
  | .union _ => true
  | .single d =>
    match d.nonPartialFor, condition with
    | none, _ => true
    | some _, none => acceptPartial
    | some extract, some query => extract == query

/-- the graph without the datasources that cannot serve the query -/
def pruneSources (g : ReferenceGraph) (acceptPartial : Bool) (condition : Option Condition) : ReferenceGraph :=
  (g.sourceNodes.filter fun n =>
    match g.sources.get? n with
    | some s => !serves acceptPartial condition s
    | none => false).foldl removeNode g

end SemanticPlanner.ReferenceGraph
