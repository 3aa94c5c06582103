/-
The reference graph: concepts and datasources with directed edges.

A datasource and a concept it carries are linked both ways, a derived concept leads to the concepts it is computed
from, and pseudonyms are linked both ways and marked. Nodes and edges are sets, so whatever is listed comes in one
order: concept nodes by address, then datasource nodes by name.
-/
import SemanticPlanner.Reference.Node
import SemanticPlanner.Order.Reach

namespace SemanticPlanner

structure ReferenceGraph where
  nodes : SortedSet GraphNode
  edges : SortedSet (GraphNode × GraphNode)
  concepts : SortedMap GraphNode Concept
  sources : SortedMap GraphNode GraphSource
  /-- the edges that link pseudonyms -/
  pseudonyms : SortedSet (GraphNode × GraphNode)
deriving Inhabited

namespace ReferenceGraph

def empty : ReferenceGraph := ⟨∅, ∅, ∅, ∅, ∅⟩

/-! ## Changes -/

def addNode (g : ReferenceGraph) (n : GraphNode) : ReferenceGraph := { g with nodes := g.nodes.insert n }

/-- the node of a concept at its own grain, added or refreshed -/
def addConcept (g : ReferenceGraph) (c : Concept) : ReferenceGraph :=
  let n := GraphNode.ofConcept c
  { g with nodes := g.nodes.insert n, concepts := g.concepts.insert n c }

def addSource (g : ReferenceGraph) (s : GraphSource) : ReferenceGraph :=
  let n := GraphNode.datasource s.name
  { g with nodes := g.nodes.insert n, sources := g.sources.insert n s }

/-- a directed edge between two nodes, which are added where they are missing; no node leads to itself -/
def addEdge (g : ReferenceGraph) (a b : GraphNode) : ReferenceGraph :=
  if a = b then g else { g with nodes := (g.nodes.insert a).insert b, edges := g.edges.insert (a, b) }

def addBoth (g : ReferenceGraph) (a b : GraphNode) : ReferenceGraph := (g.addEdge a b).addEdge b a

/-- both edges between pseudonyms, marked as such -/
def addPseudonym (g : ReferenceGraph) (a b : GraphNode) : ReferenceGraph :=
  if a = b then g
  else
    let h := g.addBoth a b
    { h with pseudonyms := (h.pseudonyms.insert (a, b)).insert (b, a) }

def removeEdge (g : ReferenceGraph) (a b : GraphNode) : ReferenceGraph := { g with edges := g.edges.erase (a, b) }

/-- the graph without a node, what it stands for and its edges -/
def removeNode (g : ReferenceGraph) (n : GraphNode) : ReferenceGraph :=
  { nodes := g.nodes.erase n
    edges := g.edges.filter fun e => e.1 != n && e.2 != n
    concepts := g.concepts.erase n
    sources := g.sources.erase n
    pseudonyms := g.pseudonyms.filter fun e => e.1 != n && e.2 != n }

/-- the graph on the nodes in `keep`, with what they stand for and the marks between them -/
def subgraph (g : ReferenceGraph) (keep : SortedSet GraphNode) : ReferenceGraph :=
  { nodes := g.nodes.inter keep
    edges := g.edges.filter fun e => keep.contains e.1 && keep.contains e.2
    concepts := g.concepts.filter fun n _ => g.nodes.contains n && keep.contains n
    sources := g.sources.filter fun n _ => g.nodes.contains n && keep.contains n
    pseudonyms := g.pseudonyms.filter fun e => keep.contains e.1 && keep.contains e.2 }

def without (g : ReferenceGraph) (remove : SortedSet GraphNode) : ReferenceGraph := g.subgraph (g.nodes.diff remove)

/-! ## Queries -/

def contains (g : ReferenceGraph) (n : GraphNode) : Bool := g.nodes.contains n

def hasEdge (g : ReferenceGraph) (a b : GraphNode) : Bool := g.edges.contains (a, b)

def isPseudonym (g : ReferenceGraph) (a b : GraphNode) : Bool := g.pseudonyms.contains (a, b)

def conceptNodes (g : ReferenceGraph) : List GraphNode := g.nodes.toList.filter GraphNode.isConcept

def sourceNodes (g : ReferenceGraph) : List GraphNode := g.nodes.toList.filter GraphNode.isDatasource

/-- the concept nodes that carry an address, at any grain -/
def nodesFor (g : ReferenceGraph) (address : String) : List GraphNode :=
  g.conceptNodes.filter fun n => n.address? == some address

def successors (g : ReferenceGraph) (n : GraphNode) : SortedSet GraphNode :=
  SortedSet.ofList ((g.edges.toList.filter fun e => e.1 == n).map Prod.snd)

def predecessors (g : ReferenceGraph) (n : GraphNode) : SortedSet GraphNode :=
  SortedSet.ofList ((g.edges.toList.filter fun e => e.2 == n).map Prod.fst)

/-- the nodes linked to `n` in either direction -/
def neighbors (g : ReferenceGraph) (n : GraphNode) : SortedSet GraphNode := (g.successors n).union (g.predecessors n)

theorem mem_successors {g : ReferenceGraph} {a b : GraphNode} : b ∈ g.successors a ↔ (a, b) ∈ g.edges := by
  rw [successors, SortedSet.mem_ofList, List.mem_map, SortedSet.mem_def]
  simp only [List.mem_filter]
  constructor
  · rintro ⟨⟨x, y⟩, ⟨hm, hx⟩, rfl⟩
    simp only [beq_iff_eq] at hx
    exact hx ▸ hm
  · intro h
    exact ⟨(a, b), ⟨h, by simp⟩, rfl⟩

theorem mem_predecessors {g : ReferenceGraph} {a b : GraphNode} : b ∈ g.predecessors a ↔ (b, a) ∈ g.edges := by
  rw [predecessors, SortedSet.mem_ofList, List.mem_map, SortedSet.mem_def]
  simp only [List.mem_filter]
  constructor
  · rintro ⟨⟨x, y⟩, ⟨hm, hx⟩, rfl⟩
    simp only [beq_iff_eq] at hx
    exact hx ▸ hm
  · intro h
    exact ⟨(b, a), ⟨h, by simp⟩, rfl⟩

theorem mem_neighbors {g : ReferenceGraph} {a b : GraphNode} :
    b ∈ g.neighbors a ↔ (a, b) ∈ g.edges ∨ (b, a) ∈ g.edges := by
  rw [neighbors, SortedSet.mem_union, mem_successors, mem_predecessors]

/-! ## Components and paths -/

/-- the nodes linked to `n` by a chain of edges in either direction -/
def component (g : ReferenceGraph) (n : GraphNode) : SortedSet GraphNode :=
  Reach.grow (fun m => (g.neighbors m).toList) (g.nodes.size + 1) (SortedSet.singleton n)

/-- the components that hold one of the listed nodes, by the first listed node in each -/
def componentsOf (g : ReferenceGraph) : List GraphNode → List (SortedSet GraphNode) → List (SortedSet GraphNode)
  | [], found => found
  | n :: rest, found =>
    if found.any fun c => c.contains n then g.componentsOf rest found
    else g.componentsOf rest (found ++ [g.component n])

/-- the components of the graph without its directions -/
def components (g : ReferenceGraph) : List (SortedSet GraphNode) := g.componentsOf g.nodes.toList []

/-- the paths found so far by length, each with its last node first, and the nodes they end at -/
structure Frontier where
  paths : List (List GraphNode)
  visited : SortedSet GraphNode

/-- a path continued to one neighbor, if nothing ends there yet -/
def extend (path : List GraphNode) (f : Frontier) (n : GraphNode) : Frontier :=
  if f.visited.contains n then f else ⟨f.paths ++ [n :: path], f.visited.insert n⟩

/-- every path continued by one step, in order -/
def nextFrontier (g : ReferenceGraph) (f : Frontier) : Frontier :=
  f.paths.foldl
    (fun acc path =>
      match path with
      | [] => acc
      | n :: _ => (g.neighbors n).toList.foldl (extend path) acc)
    ⟨[], f.visited⟩

/-- the first path that ends at `target`, within the given number of further steps -/
def searchPath (g : ReferenceGraph) (target : GraphNode) : Nat → Frontier → Option (List GraphNode)
  | 0, _ => none
  | n + 1, f =>
    match f.paths.find? fun p => p.head? == some target with
    | some p => some p.reverse
    | none => if f.paths.isEmpty then none else g.searchPath target n (g.nextFrontier f)

/-- a shortest path between two nodes, ignoring directions; of several the first, taking neighbors in order -/
def shortestPath (g : ReferenceGraph) (a b : GraphNode) : Option (List GraphNode) :=
  if g.contains a && g.contains b then g.searchPath b (g.nodes.size + 1) ⟨[[a]], SortedSet.singleton a⟩ else none

end ReferenceGraph

end SemanticPlanner
