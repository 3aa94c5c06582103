/-
A small tree that connects given nodes.

Shortest paths between every two terminals make a complete graph; a minimum spanning tree of it is expanded into the
paths, a spanning tree of those edges is taken, and leaves that are no terminals are cut off one after the other. The
tree has at most twice the edges of the smallest one.
-/
import SemanticPlanner.Reference.Graph
import SemanticPlanner.Reference.SpanningTree

namespace SemanticPlanner.Steiner

/-- two different terminals, by number, with a shortest path between them -/
structure Link where
  left : Nat
  right : Nat
  path : List GraphNode

/-- shortest paths from one terminal to later ones; none if some cannot be reached -/
def linksFrom (g : ReferenceGraph) (i : Nat) (a : GraphNode) : List (Nat × GraphNode) → Option (List Link)
  | [] => some []
  | (j, b) :: rest => do
    let path ← g.shortestPath a b
    let links ← linksFrom g i a rest
    pure (⟨i, j, path⟩ :: links)

/-- shortest paths between every two terminals; none if some are apart -/
def links (g : ReferenceGraph) : List (Nat × GraphNode) → Option (List Link)
  | [] => some []
  | (i, a) :: rest => do
    let first ← linksFrom g i a rest
    let others ← links g rest
    pure (first ++ others)

/-- the edges along a path, each from its lesser end -/
def pathEdges : List GraphNode → List (GraphNode × GraphNode)
  | a :: b :: rest => (if sortsLE a b then (a, b) else (b, a)) :: pathEdges (b :: rest)
  | _ => []

abbrev Adjacency := SortedMap GraphNode (SortedSet GraphNode)

def addBetween (adj : Adjacency) (e : GraphNode × GraphNode) : Adjacency :=
  (adj.update e.1 ∅ fun s => s.insert e.2).update e.2 ∅ fun s => s.insert e.1

/-- the tree without leaves outside `terminals`, cut off in the order of the nodes -/
def cutLeaves (terminals : SortedSet GraphNode) : Nat → Adjacency → Adjacency
  | 0, adj => adj
  | fuel + 1, adj =>
    match adj.toList.find? fun e => e.2.size ≤ 1 && !terminals.contains e.1 with
    | some (leaf, _) => cutLeaves terminals fuel ((adj.erase leaf).mapValues fun _ s => s.erase leaf)
    | none => adj

/-- the position of a node in a list -/
def position (nodes : List GraphNode) (n : GraphNode) : Nat := nodes.findIdx fun m => m == n

section
variable (forest : List WeightedEdge → List WeightedEdge)

/-- a spanning tree of the edges, as the neighbors of each node -/
def spanning (nodes : SortedSet GraphNode) (edges : SortedSet (GraphNode × GraphNode)) : Adjacency :=
  let listed := nodes.toList
  let weighted := edges.toList.map fun e => ⟨1, position listed e.1, position listed e.2⟩
  let kept := (forest weighted).filterMap fun e => do pure (← listed[e.left]?, ← listed[e.right]?)
  kept.foldl addBetween (SortedMap.ofList (listed.map fun n => (n, ∅)))

/-- the paths that the spanning tree of the terminals keeps -/
def keptPaths (all : List Link) : List (List GraphNode) :=
  let weighted := all.map fun l => ⟨l.path.length - 1, l.left, l.right⟩
  (forest weighted).filterMap fun e => (all.find? fun l => l.left == e.left && l.right == e.right).map Link.path

/-- the nodes of a small tree that connects the terminals, with minimum spanning trees by `forest`; none if a terminal is
missing or two are apart -/
def treeBy (g : ReferenceGraph) (terminals : List GraphNode) : Option (SortedSet GraphNode) :=
  let ends := SortedSet.ofList terminals
  if !ends.toList.all g.contains then none
  else if ends.size ≤ 1 then some ends
  else do
    let all ← links g (ends.toList.zipIdx.map fun (n, i) => (i, n))
    let paths := keptPaths forest all
    let nodes := SortedSet.ofList paths.flatten
    let edges := SortedSet.ofList (paths.flatMap pathEdges)
    pure (cutLeaves ends nodes.size (spanning forest nodes edges)).keySet

end

/-- the nodes of a small tree that connects the terminals; none if one is missing or two are apart -/
def tree (g : ReferenceGraph) (terminals : List GraphNode) : Option (SortedSet GraphNode) :=
  treeBy SpanningTree.forest g terminals

end SemanticPlanner.Steiner
