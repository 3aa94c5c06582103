/-
Matching targets with datasources directly.

`matching` cuts the reference graph down to the datasources that carry a target, the targets, and concepts that two of
those datasources share, and asks for exactly one connected piece that covers every target. `chosen` drops datasources
that another one covers, and shared concepts that are left with a single datasource.
-/
import SemanticPlanner.Reference.Build
import SemanticPlanner.Sourcing.Extracts

namespace SemanticPlanner.Match

/-! ## The graph of a match -/

/-- a union of extracts, linked both ways with every concept that all of them carry -/
def addUnion (env : Environment) (g : ReferenceGraph) (group : List Datasource) : ReferenceGraph :=
  let common := match group with
    | first :: _ => first.outputs.filter fun a => group.all fun d => d.provides a
    | [] => []
  let node := GraphNode.datasource (GraphSource.unionName group)
  (common.filterMap env.find?).foldl (fun g c => g.addBoth node (GraphNode.ofConcept c)) (g.addSource (.union group))

/-- the concepts that a datasource carries only partially; a union carries none so, an extract none under its own
condition -/
def partialsOf (condition : Option Condition) : GraphSource → List String
  | .union _ => []
  | .single d => if d.isCompleteUnder condition then [] else d.partials

/-- the graph without the links of partial concepts -/
def dropPartials (env : Environment) (condition : Option Condition) (g : ReferenceGraph) : ReferenceGraph :=
  g.sources.toList.foldl
    (fun g (node, source) =>
      ((partialsOf condition source).filterMap env.find?).foldl
        (fun g c => (g.removeEdge node (GraphNode.ofConcept c)).removeEdge (GraphNode.ofConcept c) node) g) g

/-- concepts linked with two of the datasources, and the datasources met so far for each address -/
structure Shared where
  nodes : SortedSet GraphNode
  touching : NameMap (SortedSet GraphNode)

/-- a concept node counted, if it is not a target -/
def addShared (graph : ReferenceGraph) (datasets targets : SortedSet GraphNode) (s : Shared) (n : GraphNode) : Shared :=
  match n.address? with
  | none => s
  | some a =>
    if targets.contains n then s
    else
      let touching := (s.touching.getD a ∅).union ((graph.neighbors n).inter datasets)
      ⟨if 1 < touching.size then s.nodes.insert n else s.nodes, s.touching.insert a touching⟩

/-- every target is there, next to a datasource -/
def coversTargets (g : ReferenceGraph) (targets : NameSet) (piece : SortedSet GraphNode) : Bool :=
  targets.toList.all fun t => piece.toList.any fun n =>
    n.address? == some t && (g.neighbors n).toList.any GraphNode.isDatasource

/-- the edges of a graph put back between the nodes of a piece of it -/
def restoreEdges (graph : ReferenceGraph) (piece : SortedSet GraphNode) (g : ReferenceGraph) : ReferenceGraph :=
  (graph.edges.toList.filter fun e => piece.contains e.1 && piece.contains e.2).foldl (fun g e => g.addEdge e.1 e.2) g

/-- the one connected piece of datasources, targets and shared concepts that covers every target -/
def matching (env : Environment) (graph : ReferenceGraph) (targets : List Concept) (acceptPartial : Bool)
    (condition : Option Condition) : Option ReferenceGraph :=
  let g := (Extracts.unions env targets).foldl (addUnion env) graph
  let g := g.pruneSources acceptPartial condition
  let wanted := SortedSet.ofList (Concept.addresses targets)
  let targetNodes := SortedSet.ofList (g.conceptNodes.filter fun n => n.address?.any wanted.contains)
  let g := if acceptPartial then g else dropPartials env condition g
  let datasets := SortedSet.ofList
    (g.sourceNodes.filter fun d => (g.neighbors d).toList.any targetNodes.contains)
  let shared := graph.conceptNodes.foldl (addShared graph datasets targetNodes) ⟨∅, ∅⟩
  let g := g.subgraph (datasets.union (targetNodes.union shared.nodes))
  match g.components.filter (coversTargets g wanted) with
  | [piece] =>
    let g := restoreEdges graph piece (g.subgraph piece)
    if g.sourceNodes.isEmpty then none else some g
  | _ => none

/-! ## The choice of datasources -/

/-- a datasource of a match, with what it contributes -/
structure Offer where
  node : GraphNode
  neighbors : List GraphNode
  /-- the concepts carried, and those of them that are complete -/
  concepts : NameSet
  complete : NameSet
  grain : Grain
  /-- it serves the query as it is -/
  exact : Bool

def offerOf (g : ReferenceGraph) (condition : Option Condition) (node : GraphNode) : Offer :=
  let neighbors := (g.neighbors node).toList
  let concepts := SortedSet.ofList (neighbors.filterMap GraphNode.address?)
  match g.sources.get? node with
  | some s =>
    let exact := match s with
      | .union _ => true
      | .single d => d.nonPartialFor == condition
    ⟨node, neighbors, concepts, concepts.diff (SortedSet.ofList (partialsOf condition s)), s.grain, exact⟩
  | none => ⟨node, neighbors, concepts, concepts, Grain.single, false⟩

/-- how good an offer is among equals, the least best: grain components that it lacks, exactness, size, name -/
def Offer.score (o : Offer) : Nat × Nat × Nat × GraphNode :=
  let covered := (o.concepts.toList.filter o.grain.contains).length
  (o.grain.size - covered, if o.exact then 0 else 1, o.neighbors.length, o.node)

/-- another offer has all that this one has -/
def Offer.isWithin (o other : Offer) : Bool :=
  o.complete.isSubset other.complete && o.concepts.isSubset other.concepts

/-- another offer has all that this one has, and more of it complete -/
def Offer.isBelow (o other : Offer) : Bool := o.isWithin other && o.complete.size < other.complete.size

/-- another offer has the very same concepts -/
def Offer.isEqualTo (o other : Offer) : Bool :=
  o.isWithin other && o.complete.size == other.complete.size && o.concepts.size == other.concepts.size

/-- an offer that no other one beats -/
def isKept (offers : List Offer) (o : Offer) : Bool :=
  let others := offers.filter fun p => p.node != o.node
  !others.any o.isBelow && (others.filter o.isEqualTo).all fun p => sortsLE o.score p.score

/-- concepts that are no targets and that only one of the offers carries -/
def usedOnce (targets : List Concept) (offers : List Offer) : SortedSet GraphNode :=
  let wanted := SortedSet.ofList (Concept.addresses targets)
  let joining := (offers.flatMap Offer.neighbors).filter fun n => n.address?.any fun a => !wanted.contains a
  SortedSet.ofList (joining.filter fun n => (joining.filter fun m => m == n).length ≤ 1)

/-- the datasources to read, by name, each with the concepts it contributes -/
def chosen (g : ReferenceGraph) (targets : List Concept) (condition : Option Condition) :
    List (GraphNode × List GraphNode) :=
  let offers := g.sourceNodes.map (offerOf g condition)
  let kept := offers.filter (isKept offers)
  let single := usedOnce targets kept
  kept.map fun o => (o.node, o.neighbors.filter fun n => !single.contains n)

end SemanticPlanner.Match
