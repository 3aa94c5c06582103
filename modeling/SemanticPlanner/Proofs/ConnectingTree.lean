/-
The tree that connects the terminals.

  partOf           some nodes of a graph with edges between them; a tree, if these are a listed tree
  exists_treeBy    there is an answer if the terminals lie in the graph and none are apart
  exists_shows     the answer for two terminals or more is what is left of a tree on the kept paths
  treeBy_connects  and it is the nodes of a tree in the graph, with all terminals, whose leaves are terminals

The answer is the same kind of tree for every minimum spanning forest, so it is one for the forest that is used.
-/
import SemanticPlanner.Proofs.LeafCutting

namespace SemanticPlanner.Steiner

open SpanningTree (IsMinimumForest)

variable {forest : List WeightedEdge → List WeightedEdge} {g : ReferenceGraph} {G T : SimpleGraph GraphNode}
  {adj : Adjacency} {nodes : SortedSet GraphNode} {terminals : List GraphNode} {all : List Link} {a b n : GraphNode}

/-! ## Trees in the graph -/

/-- some nodes of a graph with edges between them -/
def partOf (nodes : SortedSet GraphNode) (hle : T ≤ G) (hinside : ∀ a b, T.Adj a b → a ∈ nodes) : G.Subgraph where
  verts := {n | n ∈ nodes}
  Adj := T.Adj
  adj_sub := fun hab => hle hab
  edge_vert := fun hab => hinside _ _ hab
  symm := ⟨fun _ _ hab => hab.symm⟩

theorem connected_partOf (hle : T ≤ G) (hinside : ∀ a b, T.Adj a b → a ∈ nodes)
    (hlinked : ∀ a ∈ nodes, ∀ b ∈ nodes, T.Reachable a b) (hn : n ∈ nodes) : (partOf nodes hle hinside).Connected := by
  have hreach : ∀ a b : (partOf nodes hle hinside).verts, (partOf nodes hle hinside).coe.Reachable a b := by
    rintro ⟨a, ha⟩ ⟨b, hb⟩
    have hab := (SimpleGraph.reachable_iff_reflTransGen a b).1 (hlinked a ha b hb)
    induction hab with
    | refl => exact .refl _
    | tail _ hadj ih => exact (ih (hinside _ _ hadj)).trans (SimpleGraph.Adj.reachable hadj)
  exact ⟨{ preconnected := hreach, nonempty := ⟨n, hn⟩ }⟩

/-- a listed tree is a tree -/
theorem Shows.isTree (h : Shows T adj) (hle : T ≤ G) (hn : n ∈ adj.keySet) :
    (partOf adj.keySet hle h.inside).coe.IsTree :=
  { (connected_partOf hle h.inside h.linked hn).coe with
    isAcyclic := h.acyclic.comap ⟨Subtype.val, fun hab => hab⟩ Subtype.val_injective }

/-! ## The steps on the way -/

theorem mem_nodes_of_treeBy (h : treeBy forest g terminals = some nodes) : ∀ t ∈ terminals, t ∈ g.nodes := by
  rw [treeBy] at h
  simp only at h
  split at h
  · cases h
  · rename_i hall
    rw [Bool.not_eq_true, Bool.not_eq_false', List.all_eq_true] at hall
    exact fun t ht => SortedSet.contains_iff.1 (hall t (SortedSet.mem_ofList.2 ht))

/-- a single terminal is a tree of its own -/
theorem treeBy_of_size_le (hnodes : ∀ t ∈ terminals, t ∈ g.nodes) (hsize : (SortedSet.ofList terminals).size ≤ 1) :
    treeBy forest g terminals = some (SortedSet.ofList terminals) := by
  have hall : (SortedSet.ofList terminals).toList.all g.contains = true :=
    List.all_eq_true.2 fun t ht => SortedSet.contains_iff.2 (hnodes t (SortedSet.mem_ofList.1 ht))
  rw [treeBy]
  simp only [hall, Bool.not_true, Bool.false_eq_true, if_false, if_pos hsize]

theorem exists_links_terminals (hg : g.Built) (hnodes : ∀ t ∈ terminals, t ∈ g.nodes) :
    (∃ all, links g (numbered (SortedSet.ofList terminals).toList) = some all) ↔
      ∀ s ∈ terminals, ∀ t ∈ terminals, g.undirected.Reachable s t := by
  have hpath : ∀ {s t}, s ∈ terminals → t ∈ terminals →
      ((∃ p, g.shortestPath s t = some p) ↔ g.undirected.Reachable s t) := by
    intro s t hs ht
    constructor
    · rintro ⟨p, hp⟩
      obtain ⟨w, -⟩ := ReferenceGraph.exists_walk_of_shortestPath hp
      exact w.reachable
    · exact ReferenceGraph.exists_shortestPath hg.ends (hnodes s hs) (hnodes t ht)
  have hmem : ∀ {t}, t ∈ (SortedSet.ofList terminals).toList ↔ t ∈ terminals := SortedSet.mem_ofList
  rw [exists_links_numbered]
  constructor
  · intro h s hs t ht
    by_cases hne : s = t
    · exact hne ▸ .refl _
    · have hreach := h.imp_of_mem fun hs ht hp => (hpath (hmem.1 hs) (hmem.1 ht)).1 hp
      have : Std.Symm g.undirected.Reachable := ⟨fun _ _ => .symm⟩
      exact hreach.forall (hmem.2 hs) (hmem.2 ht) hne
  · intro h
    exact List.Pairwise.imp_of_mem (fun hs ht _ => (hpath (hmem.1 hs) (hmem.1 ht)).2 (h _ (hmem.1 hs) _ (hmem.1 ht)))
      (SortedSet.ofList terminals).nodup

/-- **there is an answer if all terminals lie in the graph and none are apart** -/
theorem exists_treeBy (hg : g.Built) : (∃ nodes, treeBy forest g terminals = some nodes) ↔
    (∀ t ∈ terminals, t ∈ g.nodes) ∧ ∀ s ∈ terminals, ∀ t ∈ terminals, g.undirected.Reachable s t := by
  by_cases hnodes : ∀ t ∈ terminals, t ∈ g.nodes
  · rw [and_iff_right hnodes]
    by_cases hsize : (SortedSet.ofList terminals).size ≤ 1
    · rw [treeBy_of_size_le hnodes hsize]
      refine ⟨fun _ s hs t ht => ?_, fun _ => ⟨_, rfl⟩⟩
      exact SortedSet.size_le_one.1 hsize s (SortedSet.mem_ofList.2 hs) t (SortedSet.mem_ofList.2 ht) ▸ .refl _
    · rw [treeBy_eq hnodes (Nat.not_le.1 hsize), ← exists_links_terminals hg hnodes]
      simp only [Option.map_eq_some_iff]
      exact ⟨fun ⟨_, all, hall, _⟩ => ⟨all, hall⟩, fun ⟨all, hall⟩ => ⟨_, all, hall, rfl⟩⟩
  · exact ⟨fun ⟨_, h⟩ => absurd (mem_nodes_of_treeBy h) hnodes, fun h => absurd h.1 hnodes⟩

section
variable (hf : ∀ edges, IsMinimumForest edges (forest edges))
include hf

/-- each of two terminals or more lies on a kept path -/
theorem mem_nodesOf_keptPaths (hsize : 1 < (SortedSet.ofList terminals).size)
    (hall : links g (numbered (SortedSet.ofList terminals).toList) = some all) (ha : a ∈ SortedSet.ofList terminals) :
    a ∈ nodesOf (keptPaths forest all) := by
  have hother : ∃ b ∈ SortedSet.ofList terminals, a ≠ b := by
    by_contra h
    push Not at h
    exact absurd hsize (Nat.not_lt.2 (SortedSet.size_le_one.2 fun x hx y hy => (h x hx).symm.trans (h y hy)))
  obtain ⟨b, hb, hne⟩ := hother
  exact (terminal_joined hf hall ha hb hne).1

/-- **the answer for two terminals or more**: what is left of a tree on the nodes of the kept paths -/
theorem exists_shows (hsize : 1 < (SortedSet.ofList terminals).size) (h : treeBy forest g terminals = some nodes) :
    ∃ all, links g (numbered (SortedSet.ofList terminals).toList) = some all ∧
      ∃ T ≤ g.undirected, ∃ adj, Shows T adj ∧ nodes = adj.keySet ∧ (∀ t ∈ terminals, t ∈ adj.keySet) ∧
        (∀ n ∈ adj.keySet, n ∈ nodesOf (keptPaths forest all)) ∧
        ∀ n ∈ adj.keySet, (T.neighborSet n).Subsingleton → n ∈ terminals := by
  rw [treeBy_eq (mem_nodes_of_treeBy h) hsize, Option.map_eq_some_iff] at h
  obtain ⟨all, hall, rfl⟩ := h
  have hG := connects_expansion hf hall
  have hkeys : ∀ n, n ∈ (spanning forest (nodesOf (keptPaths forest all)) (edgesOf (keptPaths forest all))).keys ↔
      n ∈ nodesOf (keptPaths forest all) := fun n => mem_keys_spanning hf hG
  have hfuel : (spanning forest (nodesOf (keptPaths forest all)) (edgesOf (keptPaths forest all))).size ≤
      (nodesOf (keptPaths forest all)).size := by
    rw [SortedMap.size, ← List.length_map Prod.fst]
    exact (List.subperm_of_subset (SortedMap.nodup_keys _) fun n hn => (hkeys n).1 hn).length_le
  obtain ⟨T, hT, hshows, hterminals, hsub, hleaves⟩ := shows_cutLeaves (shows_spanning hf hG) hfuel
    fun t ht => (hkeys t).2 (mem_nodesOf_keptPaths hf hsize hall ht)
  exact ⟨all, hall, T, hT.trans (keptEdges_le hf hG), _, hshows, rfl,
    fun t ht => hterminals t (SortedSet.mem_ofList.2 ht), fun n hn => (hkeys n).1 (hsub n hn), fun n hn hleaf => SortedSet.mem_ofList.1 (hleaves n hn hleaf)⟩

end

/-! ## The result -/

/-- **the terminals are connected by a tree of the graph whose leaves are terminals**, if they lie in it and none are
apart -/
theorem treeBy_connects (hf : ∀ edges, IsMinimumForest edges (forest edges)) (hg : g.Built) (hne : terminals ≠ []) :
    ((∃ nodes, treeBy forest g terminals = some nodes) ↔
      (∀ t ∈ terminals, t ∈ g.nodes) ∧ ∀ s ∈ terminals, ∀ t ∈ terminals, g.undirected.Reachable s t) ∧
    ∀ nodes, treeBy forest g terminals = some nodes → (∀ t ∈ terminals, t ∈ nodes) ∧
      ∃ S : g.undirected.Subgraph, S.verts = {n | n ∈ nodes} ∧ S.coe.IsTree ∧
        ∀ n ∈ nodes, (S.neighborSet n).Subsingleton → n ∈ terminals := by
  refine ⟨exists_treeBy hg, fun nodes h => ?_⟩
  obtain ⟨t, ht⟩ := List.exists_mem_of_ne_nil _ hne
  by_cases hsize : (SortedSet.ofList terminals).size ≤ 1
  · obtain rfl := Option.some.inj ((treeBy_of_size_le (mem_nodes_of_treeBy h) hsize).symm.trans h)
    have hsingle : ∀ n, n ∈ SortedSet.ofList terminals ↔ n = t := fun n =>
      ⟨fun hn => SortedSet.size_le_one.1 hsize n hn t (SortedSet.mem_ofList.2 ht),
        fun hn => hn ▸ SortedSet.mem_ofList.2 ht⟩
    refine ⟨fun t ht => SortedSet.mem_ofList.2 ht, g.undirected.singletonSubgraph t, ?_,
      SimpleGraph.IsTree.coe_singletonSubgraph _ _, fun n hn _ => SortedSet.mem_ofList.1 hn⟩
    ext n
    exact (hsingle n).symm
  · obtain ⟨all, -, T, hT, adj, hshows, rfl, hterminals, -, hleaves⟩ := exists_shows hf (Nat.not_le.1 hsize) h
    exact ⟨hterminals, partOf adj.keySet hT hshows.inside, rfl, hshows.isTree hT (hterminals t ht), hleaves⟩

namespace CustomerOrders

def orders : GraphNode := .datasource "orders"
def customers : GraphNode := .datasource "customers"
def order : GraphNode := .concept "local.order" "local.order"
def customer : GraphNode := .concept "local.customer" "local.customer"
def name : GraphNode := .concept "local.name" "local.customer"
def city : GraphNode := .concept "local.city" "local.customer"

/-- orders with their customers, and customers with their names and cities -/
def graph : ReferenceGraph :=
  ((((ReferenceGraph.empty.addBoth orders order).addBoth orders customer).addBoth customers customer).addBoth
    customers name).addBoth customers city

theorem built_graph : graph.Built := .addBoth _ _ (.addBoth _ _ (.addBoth _ _ (.addBoth _ _ (.addBoth _ _ .empty))))

end CustomerOrders

open CustomerOrders in
/-- orders and names are connected through the customers, and cities are cut off -/
theorem treeBy_connects_orders :
    (∀ edges, IsMinimumForest edges (SpanningTree.forest edges)) ∧ graph.Built ∧ [name, order] ≠ [] ∧
      ∃ nodes, tree graph [name, order] = some nodes ∧ nodes.toList = [customer, name, order, customers, orders] ∧
        ∃ S : graph.undirected.Subgraph, S.verts = {n | n ∈ nodes} ∧ S.coe.IsTree ∧
          ∀ n ∈ nodes, (S.neighborSet n).Subsingleton → n ∈ [name, order] := by
  have hne : [name, order] ≠ [] := List.cons_ne_nil _ _
  have hconnects := treeBy_connects SpanningTree.isMinimumForest_forest built_graph hne
  have hanswer : (tree graph [name, order]).map SortedSet.toList = some [customer, name, order, customers, orders] := by
    decide +kernel
  obtain ⟨nodes, hnodes, hlist⟩ := Option.map_eq_some_iff.1 hanswer
  exact ⟨SpanningTree.isMinimumForest_forest, built_graph, hne, nodes, hnodes, hlist, (hconnects.2 nodes hnodes).2⟩

end SemanticPlanner.Steiner
