/-
Bridges: concepts that link what no connected set of datasources provides.

Each round takes a small tree of the reference graph that joins the wanted concepts, records the other concepts that it
passes through, removes them and tries again. If no recorded set is contained in all others the bridge is ambiguous;
otherwise the first tree is split into one piece for each datasource.
-/
import SemanticPlanner.Reference.Build
import SemanticPlanner.Reference.Steiner

namespace SemanticPlanner.Bridge

/-- what a bridge has to link, and what it may pass through -/
structure Aim where
  concepts : List Concept
  /-- only roots may stand between the wanted concepts -/
  rootsOnly : Bool
  acceptPartial : Bool
deriving Inhabited

namespace Aim

def wanted (a : Aim) : NameSet := SortedSet.ofList (Concept.addresses a.concepts)

def terminals (a : Aim) : List GraphNode := a.concepts.map GraphNode.ofConcept

/-- other names of the wanted concepts -/
def synonyms (a : Aim) : NameSet := SortedSet.ofList (a.concepts.flatMap fun c => c.pseudonyms.toList)

/-- constants, aggregates and filters never link anything -/
def excludes (a : Aim) (c : Concept) : Bool :=
  decide (c.derivation = .constant ∨ c.derivation = .aggregate ∨ c.derivation = .filter)
    || (a.rootsOnly && decide (c.derivation ≠ .root))

end Aim

/-! ## One connecting graph -/

/-- the part of the graph that a tree may use: no excluded concepts, no isolated nodes, no dead ends -/
def passable (g : ReferenceGraph) (a : Aim) : ReferenceGraph :=
  let excluded := g.conceptNodes.filter fun n => (g.concepts.get? n).any a.excludes
  let h := g.without (SortedSet.ofList excluded)
  let h := h.without (SortedSet.ofList (h.nodes.toList.filter fun n => (h.neighbors n).isEmpty))
  h.without (SortedSet.ofList
    (h.nodes.toList.filter fun n => (g.successors n).isEmpty && !a.terminals.contains n))

/-- the edge from a datasource to a node of the tree, unless it carries that concept only partially -/
def addSourceEdge (g : ReferenceGraph) (acceptPartial : Bool) (t : ReferenceGraph) (e : GraphNode × GraphNode) :
    ReferenceGraph :=
  match g.sources.get? e.1 with
  | none => t
  | some source =>
    let isPartial := match source with
      | .single d => !acceptPartial && e.2.address?.any d.partials.contains
      | .union _ => false
    if !e.1.isDatasource || !t.contains e.2 || isPartial then t
    else (if t.contains e.1 then t else t.addSource source).addEdge e.1 e.2

/-- a key that two datasources share added as a join concept of both -/
def addJoinKey (left right : GraphNode) (t : ReferenceGraph) (c : Concept) : ReferenceGraph :=
  let n := GraphNode.ofConcept c
  ((t.addConcept c).addEdge left n).addEdge right n

/-- every further key that two datasources share added; synonyms, and names of concepts that are there, are left out -/
def joinPair (env : Environment) (g : ReferenceGraph) (synonyms : NameSet) (t : ReferenceGraph)
    (pair : GraphNode × GraphNode) : ReferenceGraph :=
  match g.sources.get? pair.1, g.sources.get? pair.2 with
  | some (.single a), some (.single b) =>
    let common := (a.outputs.filter b.provides).filterMap env.find?
    let grain := Grain.ofConcepts common
    let present := Concept.addresses (common.filter fun c => t.contains (GraphNode.ofConcept c))
    (common.filter fun c =>
      !synonyms.contains c.address && grain.contains c.address && !c.pseudonyms.toList.any present.contains).foldl
        (addJoinKey pair.1 pair.2) t
  | _, _ => t

/-- the pairs of a list, the earlier item first -/
def pairsOf {α : Type} : List α → List (α × α)
  | [] => []
  | a :: l => l.map (a, ·) ++ pairsOf l

/-- the tree with the keys that datasources of one component share -/
def joinSources (env : Environment) (g : ReferenceGraph) (synonyms : NameSet) (t : ReferenceGraph) : ReferenceGraph :=
  (t.components.flatMap fun piece => pairsOf (piece.toList.filter GraphNode.isDatasource)).foldl
    (joinPair env g synonyms) t

/-- a small graph that links the wanted concepts through datasources, each of which leads into it -/
def connecting (env : Environment) (g : ReferenceGraph) (a : Aim) : Option ReferenceGraph := do
  let tree ← Steiner.tree (passable g a) a.terminals
  if tree.isEmpty then none
  else
    let t := g.edges.toList.foldl (addSourceEdge g a.acceptPartial) (g.subgraph tree)
    let t := joinSources env g a.synonyms t
    if a.terminals.all fun n => t.contains n && !(t.predecessors n).isEmpty then some t else none

/-! ## Rounds -/

/-- a connecting graph with the concepts it passes through -/
structure Crossing where
  graph : ReferenceGraph
  bridges : NameSet

/-- connecting graphs found one after the other, each without the concepts that earlier ones passed through -/
def crossings (env : Environment) (a : Aim) (limit : Nat) :
    Nat → ReferenceGraph → Except PlanningError (List Crossing)
  | 0, _ => .error (.iterationLimit "weak component resolution" limit)
  | fuel + 1, g =>
    match connecting env g a with
    | none => .ok []
    | some t =>
      if t.nodes.isEmpty || t.components.length != 1 then .ok []
      else
        let new := t.conceptNodes.filter fun n => n.address?.any fun x => !a.wanted.contains x
        let bridges := SortedSet.ofList ((new.filterMap GraphNode.address?).filter fun x => !a.synonyms.contains x)
        if new.isEmpty then .ok [⟨t, bridges⟩]
        else do
          let rest ← crossings env a limit fuel (new.foldl ReferenceGraph.removeNode g)
          pure (⟨t, bridges⟩ :: rest)

/-- some set is contained in every other one -/
def isUnique (sets : List NameSet) : Bool := sets.any fun s => sets.all s.isSubset

/-- each set without what all of them share -/
def differences (sets : List NameSet) : List (List String) :=
  match sets with
  | [] => []
  | first :: rest =>
    let common := rest.foldl SortedSet.inter first
    sets.map fun s => (s.diff common).toList

/-! ## Pieces -/

/-- of two pseudonyms on one datasource the one that was searched for is kept, or else the first -/
def dropPseudonym (g : ReferenceGraph) (wanted : NameSet) (dropped : List GraphNode) (pair : GraphNode × GraphNode) :
    List GraphNode :=
  let (a, b) := pair
  if !g.isPseudonym a b || dropped.contains a || dropped.contains b then dropped
  else
    let keepSecond := b.address?.any wanted.contains && !a.address?.any wanted.contains
    (if keepSecond then a else b) :: dropped

/-- the addresses that a datasource leads to -/
def pieceOf (g : ReferenceGraph) (wanted : NameSet) (source : GraphNode) : NameSet :=
  let linked := (g.successors source).toList.filter GraphNode.isConcept
  let dropped := (pairsOf linked).foldl (dropPseudonym g wanted) []
  SortedSet.ofList ((linked.filter fun n => !dropped.contains n).filterMap GraphNode.address?)

/-- a set that is not strictly inside another one -/
def isMaximal (sets : List NameSet) (s : NameSet) : Bool := sets.all fun t => !s.isSubset t || decide (s = t)

/-- one group of addresses for each datasource; concepts that no datasource leads to stand alone -/
def pieces (g : ReferenceGraph) (wanted : NameSet) : List (List String) :=
  let all := distinct (g.conceptNodes.filterMap GraphNode.address?)
  let groups := (g.sourceNodes.map (pieceOf g wanted)).filter fun s => !s.isEmpty
  if groups.isEmpty then [all]
  else
    let kept := distinct (groups.filter (isMaximal groups))
    let alone := all.filter fun a => !kept.any fun s => s.contains a
    kept.map SortedSet.toList ++ alone.map fun a => [a]

/-- the groups of concepts that, sourced one by one and merged, cover the wanted ones; none if nothing links them -/
def groups (env : Environment) (graph : ReferenceGraph) (a : Aim) (condition : Option Condition) (limit : Nat) :
    Except PlanningError (Option (List (List Concept))) := do
  let found ← crossings env a limit limit (graph.pruneSources a.acceptPartial condition)
  match found with
  | [] => pure none
  | first :: _ =>
    let sets := found.map Crossing.bridges
    if !isUnique sets then throw (.ambiguous (Concept.addresses a.concepts) (differences sets))
    let listed ← (pieces first.graph a.wanted).mapM fun piece => piece.mapM env.concept
    let listed := listed.filter fun cs => !cs.isEmpty
    let addressSets := listed.map fun cs => SortedSet.ofList (Concept.addresses cs)
    pure (some (listed.filter fun cs => isMaximal addressSets (SortedSet.ofList (Concept.addresses cs))))

end SemanticPlanner.Bridge
