/-
Routes through the reference graph.

  Meets, Route         nodes joined by an edge in either direction, and lists of nodes each joined to the next
  route_support        the nodes of a walk are a route
  Route.exists_walk    along a route there is a walk that is no longer
  shortestPath_routes  a path is found exactly between connected nodes of the graph; it is a route without repetitions,
                       and no route is shorter

A route is a list of nodes and may go on from a node to that same node where the graph says so; a walk never does, so
it can be shorter than the route it follows.
-/
import SemanticPlanner.Proofs.ShortestPaths

namespace SemanticPlanner.ReferenceGraph

variable {g : ReferenceGraph} {a b : GraphNode} {p : List GraphNode}

/-! ## Routes -/

/-- joined by an edge in one direction or the other -/
def Meets (g : ReferenceGraph) (a b : GraphNode) : Prop := (a, b) ∈ g.edges ∨ (b, a) ∈ g.edges

/-- a list of nodes from `a` to `b`, each joined to the next -/
structure Route (g : ReferenceGraph) (a b : GraphNode) (p : List GraphNode) : Prop where
  first : p.head? = some a
  last : p.getLast? = some b
  joined : p.IsChain g.Meets

theorem adj_iff_meets : g.undirected.Adj a b ↔ a ≠ b ∧ g.Meets a b := by
  rw [undirected_adj, mem_neighbors, Meets]

/-- connected by a chain of edges, in whatever directions -/
theorem reachable_iff_meets : g.undirected.Reachable a b ↔ Relation.ReflTransGen g.Meets a b := by
  rw [SimpleGraph.reachable_iff_reflTransGen]
  constructor
  · exact Relation.ReflTransGen.mono (fun _ _ hadj => (adj_iff_meets.1 hadj).2) a b
  · intro h
    induction h with
    | refl => exact .refl
    | @tail m n _ hmn ih =>
      by_cases heq : m = n
      · exact heq ▸ ih
      · exact ih.tail (adj_iff_meets.2 ⟨heq, hmn⟩)

theorem route_support (w : g.undirected.Walk a b) : g.Route a b w.support where
  first := by rw [← w.cons_tail_support, List.head?_cons]
  last := by rw [List.getLast?_eq_some_getLast w.support_ne_nil, w.getLast_support]
  joined := w.isChain_adj_support.imp fun _ _ hadj => (adj_iff_meets.1 hadj).2

theorem Route.exists_walk (h : g.Route a b p) : ∃ w : g.undirected.Walk a b, w.support.length ≤ p.length := by
  obtain ⟨hfirst, hlast, hjoined⟩ := h
  induction p generalizing a with
  | nil => cases hfirst
  | cons m p ih =>
    cases hfirst
    cases p with
    | nil =>
      cases hlast
      exact ⟨.nil, Nat.le_refl _⟩
    | cons n p =>
      rw [List.isChain_cons_cons] at hjoined
      obtain ⟨w, hw⟩ := ih rfl (by rwa [List.getLast?_cons_cons] at hlast) hjoined.2
      by_cases heq : m = n
      · exact ⟨w.copy heq.symm rfl, by rw [SimpleGraph.Walk.support_copy]; exact Nat.le_succ_of_le hw⟩
      · exact ⟨.cons (adj_iff_meets.2 ⟨heq, hjoined.1⟩) w, Nat.succ_le_succ hw⟩

/-- a walk that no other is shorter than comes to no node twice -/
theorem nodup_support_of_shortest {w : g.undirected.Walk a b}
    (hw : ∀ v : g.undirected.Walk a b, w.length ≤ v.length) : w.support.Nodup := by
  rw [← w.bypass_eq_self_of_length_le_length_bypass (hw w.bypass)]
  exact w.bypass_isPath.support_nodup

theorem mem_nodes_of_shortestPath (hp : g.shortestPath a b = some p) : a ∈ g.nodes ∧ b ∈ g.nodes := by
  rw [shortestPath] at hp
  split at hp
  · rename_i hboth
    simpa only [Bool.and_eq_true, contains, SortedSet.contains_iff] using hboth
  · cases hp

/-! ## The result -/

/-- **Shortest paths.** One is found exactly if both nodes are in the graph and connected. It leads from the one to the
other along edges, comes to no node twice, and has no more nodes than any other route. -/
theorem shortestPath_routes (hg : g.Built) (a b : GraphNode) :
    ((∃ p, g.shortestPath a b = some p) ↔ a ∈ g.nodes ∧ b ∈ g.nodes ∧ Relation.ReflTransGen g.Meets a b) ∧
      ∀ p, g.shortestPath a b = some p →
        g.Route a b p ∧ p.Nodup ∧ ∀ q, g.Route a b q → p.length ≤ q.length := by
  refine ⟨⟨?_, ?_⟩, ?_⟩
  case refine_1 =>
    rintro ⟨p, hp⟩
    obtain ⟨w, -, -⟩ := exists_walk_of_shortestPath hp
    obtain ⟨ha, hb⟩ := mem_nodes_of_shortestPath hp
    exact ⟨ha, hb, reachable_iff_meets.1 w.reachable⟩
  case refine_2 =>
    rintro ⟨ha, hb, hreach⟩
    exact exists_shortestPath hg.ends ha hb (reachable_iff_meets.2 hreach)
  case refine_3 =>
    intro p hp
    obtain ⟨w, rfl, hshortest⟩ := exists_walk_of_shortestPath hp
    refine ⟨route_support w, nodup_support_of_shortest hshortest, fun q hq => ?_⟩
    obtain ⟨v, hv⟩ := hq.exists_walk
    calc w.support.length
        = w.length + 1 := w.length_support
      _ ≤ v.length + 1 := Nat.succ_le_succ (hshortest v)
      _ = v.support.length := v.length_support.symm
      _ ≤ q.length := hv

/-- five datasources in a circle, each leading to the next, and one apart -/
def circle : ReferenceGraph :=
  let node := GraphNode.datasource
  let chain := (((ReferenceGraph.empty.addEdge (node "a") (node "b")).addEdge (node "b") (node "c")).addEdge (node "c")
    (node "d")).addEdge (node "d") (node "e")
  (chain.addEdge (node "e") (node "a")).addNode (node "f")

theorem built_circle : circle.Built :=
  .addNode _ (.addEdge _ _ (.addEdge _ _ (.addEdge _ _ (.addEdge _ _ (.addEdge _ _ .empty)))))

/-- from the first to the fourth it is shorter against the edges -/
theorem shortestPath_routes_circle : circle.Built ∧
    circle.shortestPath (.datasource "a") (.datasource "d") =
      some [.datasource "a", .datasource "e", .datasource "d"] ∧
    (∀ q, circle.Route (.datasource "a") (.datasource "d") q → 3 ≤ q.length) ∧
    ¬ Relation.ReflTransGen circle.Meets (.datasource "a") (.datasource "f") := by
  have hpath : circle.shortestPath (.datasource "a") (.datasource "d") =
      some [.datasource "a", .datasource "e", .datasource "d"] := by decide +kernel
  have hnone : circle.shortestPath (.datasource "a") (.datasource "f") = none := by decide +kernel
  refine ⟨built_circle, hpath, ((shortestPath_routes built_circle _ _).2 _ hpath).2.2, fun hreach => ?_⟩
  have ha : GraphNode.datasource "a" ∈ circle.nodes := by decide +kernel
  have hf : GraphNode.datasource "f" ∈ circle.nodes := by decide +kernel
  obtain ⟨p, hp⟩ := (shortestPath_routes built_circle _ _).1.2 ⟨ha, hf, hreach⟩
  rw [hnone] at hp
  cases hp

end SemanticPlanner.ReferenceGraph
