/-
Shortest paths in the reference graph without its directions.

  graphOf, undirected   nodes linked in either direction
  Built                 the graphs that the operations make; their edges join nodes of the graph (`Built.ends`)
  Level                 what the search has found after some rounds: a shortest path to every node at that distance
  Level.next            one round more
  exists_walk_of_shortestPath
                        what is found is a walk, and no walk is shorter
  exists_shortestPath   a path is found wherever there is one

Each round continues every path by one step, to nodes that no path ends at yet. A node is reached in the round of its
distance, since the node before it on a shortest path was reached one round earlier.
-/
import SemanticPlanner.Proofs.Reach
import SemanticPlanner.Reference.Graph
import Mathlib.Combinatorics.SimpleGraph.Paths
import Mathlib.Combinatorics.SimpleGraph.Connectivity.Connected

namespace SemanticPlanner

/-- the graph that edges make, without their directions -/
def graphOf (edges : List (GraphNode × GraphNode)) : SimpleGraph GraphNode :=
  SimpleGraph.fromRel fun a b => (a, b) ∈ edges

namespace ReferenceGraph

variable {g : ReferenceGraph} {a b m n : GraphNode} {p q : List GraphNode} {f acc : Frontier} {k : Nat}

/-! ## Graphs -/

/-- the graph without its directions -/
def undirected (g : ReferenceGraph) : SimpleGraph GraphNode := graphOf g.edges.toList

theorem undirected_adj : g.undirected.Adj a b ↔ a ≠ b ∧ b ∈ g.neighbors a := by
  rw [undirected, graphOf, SimpleGraph.fromRel_adj, mem_neighbors]
  rfl

/-- the graphs that can be made from the empty one -/
inductive Built : ReferenceGraph → Prop
  | empty : Built .empty
  | addNode {g : ReferenceGraph} (n : GraphNode) : Built g → Built (g.addNode n)
  | addConcept {g : ReferenceGraph} (c : Concept) : Built g → Built (g.addConcept c)
  | addSource {g : ReferenceGraph} (s : GraphSource) : Built g → Built (g.addSource s)
  | addEdge {g : ReferenceGraph} (a b : GraphNode) : Built g → Built (g.addEdge a b)
  | addPseudonym {g : ReferenceGraph} (a b : GraphNode) : Built g → Built (g.addPseudonym a b)
  | removeEdge {g : ReferenceGraph} (a b : GraphNode) : Built g → Built (g.removeEdge a b)
  | removeNode {g : ReferenceGraph} (n : GraphNode) : Built g → Built (g.removeNode n)
  | subgraph {g : ReferenceGraph} (keep : SortedSet GraphNode) : Built g → Built (g.subgraph keep)

theorem Built.addBoth (a b : GraphNode) (hg : g.Built) : (g.addBoth a b).Built := .addEdge b a (.addEdge a b hg)

/-- edges join nodes of the graph -/
def Ends (g : ReferenceGraph) : Prop := ∀ e ∈ g.edges, e.1 ∈ g.nodes ∧ e.2 ∈ g.nodes

theorem Ends.of_nodes {h : ReferenceGraph} (hg : g.Ends) (hedges : h.edges = g.edges)
    (hnodes : ∀ n ∈ g.nodes, n ∈ h.nodes) : h.Ends := fun e he => (hg e (hedges ▸ he)).imp (hnodes _) (hnodes _)

theorem Ends.addEdge (hg : g.Ends) (a b : GraphNode) : (g.addEdge a b).Ends := by
  rw [ReferenceGraph.addEdge]
  split
  · exact hg
  · intro e he
    have hold : ∀ {n}, n ∈ g.nodes → n ∈ (g.nodes.insert a).insert b := fun hn =>
      SortedSet.mem_insert.2 (Or.inr (SortedSet.mem_insert.2 (Or.inr hn)))
    rcases SortedSet.mem_insert.1 he with rfl | he
    · exact ⟨SortedSet.mem_insert.2 (Or.inr (SortedSet.mem_insert.2 (Or.inl rfl))), SortedSet.mem_insert.2 (Or.inl rfl)⟩
    · exact (hg e he).imp hold hold

theorem Built.ends (hg : g.Built) : g.Ends := by
  induction hg with
  | empty => exact fun e he => absurd he (SortedSet.not_mem_empty e)
  | addNode n _ ih => exact ih.of_nodes rfl fun m hm => SortedSet.mem_insert.2 (Or.inr hm)
  | addConcept c _ ih => exact ih.of_nodes rfl fun m hm => SortedSet.mem_insert.2 (Or.inr hm)
  | addSource s _ ih => exact ih.of_nodes rfl fun m hm => SortedSet.mem_insert.2 (Or.inr hm)
  | addEdge a b _ ih => exact ih.addEdge a b
  | addPseudonym a b _ ih =>
    rw [ReferenceGraph.addPseudonym]
    split
    · exact ih
    · exact ((ih.addEdge a b).addEdge b a).of_nodes rfl fun m hm => hm
  | removeEdge a b _ ih => exact fun e he => ih e (SortedSet.mem_erase.1 he).1
  | removeNode n _ ih =>
    intro e he
    obtain ⟨he, hne⟩ := SortedSet.mem_filter.1 he
    simp only [Bool.and_eq_true, bne_iff_ne] at hne
    exact ⟨SortedSet.mem_erase.2 ⟨(ih e he).1, hne.1⟩, SortedSet.mem_erase.2 ⟨(ih e he).2, hne.2⟩⟩
  | subgraph keep _ ih =>
    intro e he
    obtain ⟨he, hkeep⟩ := SortedSet.mem_filter.1 he
    simp only [Bool.and_eq_true, SortedSet.contains_iff] at hkeep
    exact ⟨SortedSet.mem_inter.2 ⟨(ih e he).1, hkeep.1⟩, SortedSet.mem_inter.2 ⟨(ih e he).2, hkeep.2⟩⟩

theorem Ends.mem_of_adj (hg : g.Ends) (h : g.undirected.Adj a b) : b ∈ g.nodes := by
  rcases mem_neighbors.1 (undirected_adj.1 h).2 with h | h
  · exact (hg _ h).2
  · exact (hg _ h).1

theorem Ends.mem_of_walk (hg : g.Ends) (w : g.undirected.Walk a b) (ha : a ∈ g.nodes) (hn : n ∈ w.support) :
    n ∈ g.nodes := by
  induction w with
  | nil => exact List.mem_singleton.1 hn ▸ ha
  | cons h w ih =>
    rcases List.mem_cons.1 hn with rfl | hn
    · exact ha
    · exact ih (hg.mem_of_adj h) hn

/-! ## One round of the search -/

/-- the steps that a round tries, each a path and a neighbor of the node that it ends at -/
def steps (g : ReferenceGraph) (f : Frontier) : List (List GraphNode × GraphNode) :=
  f.paths.flatMap fun p => p.head?.toList.flatMap fun n => (g.neighbors n).toList.map fun m => (p, m)

theorem mem_steps {s : List GraphNode × GraphNode} :
    s ∈ g.steps f ↔ s.1 ∈ f.paths ∧ ∃ n, s.1.head? = some n ∧ s.2 ∈ g.neighbors n := by
  simp only [steps, List.mem_flatMap, List.mem_map, Option.mem_toList]
  constructor
  · rintro ⟨p, hp, n, hn, m, hm, rfl⟩
    exact ⟨hp, n, hn, hm⟩
  · rintro ⟨hp, n, hn, hm⟩
    exact ⟨s.1, hp, n, hn, s.2, hm, rfl⟩

theorem nextFrontier_eq (g : ReferenceGraph) (f : Frontier) :
    g.nextFrontier f = (g.steps f).foldl (fun acc s => extend s.1 acc s.2) ⟨[], f.visited⟩ := by
  rw [nextFrontier, steps, List.foldl_flatMap]
  congr 1
  funext acc p
  cases p with
  | nil => rfl
  | cons n p => simp [List.foldl_map]

variable {s : List (List GraphNode × GraphNode)}

/-- steps taken one after the other -/
def takeSteps (acc : Frontier) (s : List (List GraphNode × GraphNode)) : Frontier :=
  s.foldl (fun acc x => extend x.1 acc x.2) acc

theorem mem_visited_extend : n ∈ (extend p acc m).visited ↔ n ∈ acc.visited ∨ m = n := by
  rw [extend]
  split
  · rename_i hold
    exact ⟨Or.inl, fun h => h.elim id fun h => h ▸ SortedSet.contains_iff.1 hold⟩
  · rw [SortedSet.mem_insert, or_comm, eq_comm]

theorem mem_paths_extend : q ∈ (extend p acc m).paths ↔ q ∈ acc.paths ∨ q = m :: p ∧ m ∉ acc.visited := by
  rw [extend]
  split
  · rename_i hold
    exact ⟨Or.inl, fun h => h.elim id fun h => absurd (SortedSet.contains_iff.1 hold) h.2⟩
  · rename_i hnew
    rw [SortedSet.contains_iff] at hnew
    simp [hnew]

theorem mem_visited_takeSteps : n ∈ (takeSteps acc s).visited ↔ n ∈ acc.visited ∨ ∃ x ∈ s, x.2 = n := by
  induction s generalizing acc with
  | nil => simp [takeSteps]
  | cons x s ih =>
    rw [takeSteps, List.foldl_cons, ← takeSteps, ih, mem_visited_extend, or_assoc, List.exists_mem_cons_iff]

/-- a path is an old one or ends at a new node -/
theorem of_mem_paths_takeSteps (hq : q ∈ (takeSteps acc s).paths) :
    q ∈ acc.paths ∨ ∃ x ∈ s, q = x.2 :: x.1 ∧ x.2 ∉ acc.visited := by
  induction s generalizing acc with
  | nil => exact Or.inl hq
  | cons x s ih =>
    rcases ih hq with hq | ⟨y, hy, hq, hnew⟩
    · exact (mem_paths_extend.1 hq).imp_right fun h => ⟨x, List.mem_cons_self, h⟩
    · exact Or.inr ⟨y, List.mem_cons_of_mem _ hy, hq, fun h => hnew (mem_visited_extend.2 (Or.inl h))⟩

theorem mem_paths_takeSteps (hq : q ∈ acc.paths) : q ∈ (takeSteps acc s).paths := by
  induction s generalizing acc with
  | nil => exact hq
  | cons x s ih => exact ih (mem_paths_extend.2 (Or.inl hq))

/-- a path ends at each new node -/
theorem exists_path_takeSteps (hn : n ∈ (takeSteps acc s).visited) :
    n ∈ acc.visited ∨ ∃ q ∈ (takeSteps acc s).paths, q.head? = some n := by
  induction s generalizing acc with
  | nil => exact Or.inl hn
  | cons x s ih =>
    rcases ih hn with hn | hn
    · by_cases hold : n ∈ acc.visited
      · exact Or.inl hold
      · obtain rfl := (mem_visited_extend.1 hn).resolve_left hold
        have hpath : x.2 :: x.1 ∈ (takeSteps (extend x.1 acc x.2) s).paths :=
          mem_paths_takeSteps (mem_paths_extend.2 (Or.inr ⟨rfl, hold⟩))
        exact Or.inr ⟨_, hpath, rfl⟩
    · exact Or.inr hn

/-! ## All rounds -/

/-- what is found after `k` rounds from `a`: paths are walks of `k` steps, the visited nodes are those within `k` steps,
and a path ends at each of them that is no nearer -/
structure Level (g : ReferenceGraph) (a : GraphNode) (k : Nat) (f : Frontier) : Prop where
  walks : ∀ p ∈ f.paths, ∃ n, ∃ w : g.undirected.Walk a n, p = w.support.reverse ∧ w.length = k
  visited : ∀ n, n ∈ f.visited ↔ ∃ w : g.undirected.Walk a n, w.length ≤ k
  ends : ∀ n ∈ f.visited, (∀ w : g.undirected.Walk a n, k ≤ w.length) → ∃ p ∈ f.paths, p.head? = some n

theorem head_reverse_support (w : g.undirected.Walk a n) : w.support.reverse.head? = some n := by
  rw [List.head?_reverse, List.getLast?_eq_some_getLast w.support_ne_nil, SimpleGraph.Walk.getLast_support]

theorem Level.start (g : ReferenceGraph) (a : GraphNode) : Level g a 0 ⟨[[a]], SortedSet.singleton a⟩ := by
  refine ⟨fun p hp => ⟨a, .nil, List.mem_singleton.1 hp, rfl⟩, fun n => ?_, fun n hn _ => ?_⟩
  · rw [SortedSet.mem_singleton]
    constructor
    · rintro rfl
      exact ⟨.nil, Nat.le_refl _⟩
    · rintro ⟨w, hw⟩
      exact (w.eq_of_length_eq_zero (Nat.le_zero.1 hw)).symm
  · obtain rfl := SortedSet.mem_singleton.1 hn
    exact ⟨[n], List.mem_singleton_self _, rfl⟩

/-- a walk of some steps has a walk of one step less to a neighbor of its end -/
theorem exists_shorter (w : g.undirected.Walk a n) (hw : w.length = k + 1) :
    ∃ m, ∃ v : g.undirected.Walk a m, v.length = k ∧ g.undirected.Adj m n := by
  cases hback : w.reverse with
  | nil =>
    have hlength := congrArg SimpleGraph.Walk.length hback
    rw [SimpleGraph.Walk.length_reverse, hw] at hlength
    cases hlength
  | cons h v =>
    have hlength := congrArg SimpleGraph.Walk.length hback
    rw [SimpleGraph.Walk.length_reverse, hw, SimpleGraph.Walk.length_cons] at hlength
    exact ⟨_, v.reverse, by rw [SimpleGraph.Walk.length_reverse]; omega, h.symm⟩

/-- a path that ends at `n` is a shortest walk to it -/
theorem Level.walk (h : Level g a k f) (hp : p ∈ f.paths) (hn : p.head? = some n) :
    ∃ w : g.undirected.Walk a n, p = w.support.reverse ∧ w.length = k := by
  obtain ⟨m, w, rfl, hw⟩ := h.walks p hp
  obtain rfl : m = n := Option.some.inj ((head_reverse_support w).symm.trans hn)
  exact ⟨w, rfl, hw⟩

/-- **one round more** -/
theorem Level.next (h : Level g a k f) : Level g a (k + 1) (g.nextFrontier f) := by
  rw [nextFrontier_eq]
  change Level g a (k + 1) (takeSteps ⟨[], f.visited⟩ (g.steps f))
  have hvisited : ∀ n, n ∈ (takeSteps ⟨[], f.visited⟩ (g.steps f)).visited ↔
      ∃ w : g.undirected.Walk a n, w.length ≤ k + 1 := by
    intro n
    rw [mem_visited_takeSteps]
    constructor
    · rintro (hn | ⟨⟨p, n⟩, hx, rfl⟩)
      · obtain ⟨w, hw⟩ := (h.visited n).1 hn
        exact ⟨w, Nat.le_succ_of_le hw⟩
      · obtain ⟨hp, m, hm, hmn⟩ := mem_steps.1 hx
        obtain ⟨w, -, hw⟩ := h.walk hp hm
        by_cases heq : m = n
        · exact ⟨w.copy rfl heq, by rw [SimpleGraph.Walk.length_copy]; omega⟩
        · exact ⟨w.concat (undirected_adj.2 ⟨heq, hmn⟩), by rw [SimpleGraph.Walk.length_concat, hw]⟩
    · rintro ⟨w, hw⟩
      by_cases hnear : ∃ w : g.undirected.Walk a n, w.length ≤ k
      · exact Or.inl ((h.visited n).2 hnear)
      -- the node before is as near as can be, so a path ends there
      have hexact : w.length = k + 1 := by
        by_contra hne
        exact hnear ⟨w, by omega⟩
      obtain ⟨m, v, hv, hadj⟩ := exists_shorter w hexact
      have hm : ∀ u : g.undirected.Walk a m, k ≤ u.length := by
        intro u
        by_contra hu
        exact hnear ⟨u.concat hadj, by rw [SimpleGraph.Walk.length_concat]; omega⟩
      obtain ⟨p, hp, hpm⟩ := h.ends m ((h.visited m).2 ⟨v, by omega⟩) hm
      exact Or.inr ⟨(p, n), mem_steps.2 ⟨hp, m, hpm, (undirected_adj.1 hadj).2⟩, rfl⟩
  refine ⟨fun q hq => ?_, hvisited, fun n hn hfar => ?_⟩
  · rcases of_mem_paths_takeSteps hq with hq | ⟨⟨p, n⟩, hx, rfl, hnew⟩
    · exact absurd hq List.not_mem_nil
    obtain ⟨hp, m, hm, hmn⟩ := mem_steps.1 hx
    obtain ⟨w, rfl, hw⟩ := h.walk hp hm
    have hne : m ≠ n := by
      rintro rfl
      exact hnew ((h.visited m).2 ⟨w, by omega⟩)
    refine ⟨n, w.concat (undirected_adj.2 ⟨hne, hmn⟩), ?_, by rw [SimpleGraph.Walk.length_concat, hw]⟩
    rw [SimpleGraph.Walk.support_concat, List.reverse_append]
    rfl
  · rcases exists_path_takeSteps hn with hold | hpath
    · obtain ⟨w, hw⟩ := (h.visited n).1 hold
      exact absurd (hfar w) (by omega)
    · exact hpath

/-- where no path ends at the target, it is further away -/
theorem Level.further (h : Level g a k f) (hfar : ∀ w : g.undirected.Walk a b, k ≤ w.length)
    (hnone : f.paths.find? (fun p => p.head? == some b) = none) (w : g.undirected.Walk a b) : k + 1 ≤ w.length := by
  by_contra hw
  obtain ⟨p, hp, hpb⟩ := h.ends b ((h.visited b).2 ⟨w, by omega⟩) hfar
  exact absurd (List.find?_eq_none.1 hnone p hp) (by rw [hpb]; simp)

/-- **what the search finds is a shortest walk** -/
theorem exists_walk_of_searchPath {fuel : Nat} (h : Level g a k f) (hfar : ∀ w : g.undirected.Walk a b, k ≤ w.length)
    (hp : g.searchPath b fuel f = some p) :
    ∃ w : g.undirected.Walk a b, w.support = p ∧ ∀ v : g.undirected.Walk a b, w.length ≤ v.length := by
  induction fuel generalizing k f with
  | zero => cases hp
  | succ fuel ih =>
    rw [searchPath] at hp
    split at hp
    · rename_i q hq
      cases hp
      obtain ⟨w, rfl, hw⟩ := h.walk (List.mem_of_find?_eq_some hq) (by simpa using List.find?_some hq)
      exact ⟨w, (List.reverse_reverse _).symm, fun v => hw ▸ hfar v⟩
    · rename_i hnone
      split at hp
      · cases hp
      · exact ih h.next (h.further hfar hnone) hp

/-- where no path is left, all that can be reached is visited -/
theorem Level.visited_of_reachable (h : Level g a k f) (hnil : f.paths = []) (hn : g.undirected.Reachable a n) :
    n ∈ f.visited := by
  rw [SimpleGraph.reachable_iff_reflTransGen] at hn
  induction hn with
  | refl => exact (h.visited a).2 ⟨.nil, Nat.zero_le _⟩
  | @tail m n _ hadj ih =>
    have hnear : ∃ w : g.undirected.Walk a m, w.length < k := by
      by_contra hfar
      simp only [not_exists, Nat.not_lt] at hfar
      obtain ⟨p, hp, -⟩ := h.ends m ih hfar
      rw [hnil] at hp
      exact absurd hp List.not_mem_nil
    obtain ⟨w, hw⟩ := hnear
    exact (h.visited n).2 ⟨w.concat hadj, by rw [SimpleGraph.Walk.length_concat]; omega⟩

theorem exists_searchPath {fuel : Nat} (h : Level g a k f) (hfar : ∀ w : g.undirected.Walk a b, k ≤ w.length)
    {w : g.undirected.Walk a b} (hw : w.length < k + fuel) : ∃ p, g.searchPath b fuel f = some p := by
  induction fuel generalizing k f with
  | zero => exact absurd (hfar w) (by omega)
  | succ fuel ih =>
    rw [searchPath]
    split
    · exact ⟨_, rfl⟩
    · rename_i hnone
      split
      · rename_i hempty
        obtain ⟨v, hv⟩ := (h.visited b).1 (h.visited_of_reachable (List.isEmpty_iff.1 hempty) w.reachable)
        exact absurd (h.further hfar hnone v) (by omega)
      · exact ih h.next (h.further hfar hnone) (by omega)

/-- **a path that is found is a shortest walk** -/
theorem exists_walk_of_shortestPath (hp : g.shortestPath a b = some p) :
    ∃ w : g.undirected.Walk a b, w.support = p ∧ ∀ v : g.undirected.Walk a b, w.length ≤ v.length := by
  rw [shortestPath] at hp
  split at hp
  · exact exists_walk_of_searchPath (Level.start g a) (fun _ => Nat.zero_le _) hp
  · cases hp

/-- **a path is found wherever there is one** -/
theorem exists_shortestPath (hg : g.Ends) (ha : a ∈ g.nodes) (hb : b ∈ g.nodes) (hr : g.undirected.Reachable a b) :
    ∃ p, g.shortestPath a b = some p := by
  obtain ⟨w, hw⟩ := hr.exists_isPath
  have hlength : w.support.length ≤ g.nodes.toList.length :=
    (List.subperm_of_subset hw.support_nodup fun n hn => hg.mem_of_walk w ha hn).length_le
  rw [SimpleGraph.Walk.length_support] at hlength
  rw [shortestPath, contains, contains, SortedSet.contains_iff.2 ha, SortedSet.contains_iff.2 hb]
  exact exists_searchPath (w := w) (Level.start g a) (fun _ => Nat.zero_le _) (by rw [SortedSet.size]; omega)

end ReferenceGraph

end SemanticPlanner
