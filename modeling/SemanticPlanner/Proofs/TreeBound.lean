/-
The tree that connects the terminals is at most twice as large as the smallest one.

  Connects.size_le   connected nodes are one more than the edges at most
  Places             places of the terminals on a closed walk
  exists_round_trip  in the order of their places, they make a round trip of the closure, no longer than the walk
  treeBy_size_le     for `t` terminals, the edges of the answer are at most `2 (t - 1) / t` times those of any part of
                     the graph that connects the terminals

A part of the graph has a closed walk past the terminals, of two steps for each edge. The round trip that it makes is no
shorter than the spanning tree and any one of its own edges together, so on average it leaves out one edge of `t`. The
answer has no more edges than the spanning tree weighs: no node is listed that is not on the paths of the spanning tree.
-/
import SemanticPlanner.Proofs.ConnectingTree
import SemanticPlanner.Proofs.Tours
import Mathlib.Tactic.Ring

namespace SemanticPlanner

/-! ## Counts -/

theorem edgeSet_graphOf_subset (l : List (GraphNode × GraphNode)) :
    (graphOf l).edgeSet ⊆ (fun d => s(d.1, d.2)) '' {d | d ∈ l} := by
  intro e
  induction e with
  | h a b =>
    intro hab
    rcases (SimpleGraph.fromRel_adj _ _ _).1 ((SimpleGraph.mem_edgeSet _).1 hab) with ⟨-, h | h⟩
    · exact ⟨(a, b), h, rfl⟩
    · exact ⟨(b, a), h, Sym2.eq_swap⟩

theorem finite_edgeSet_graphOf (l : List (GraphNode × GraphNode)) : (graphOf l).edgeSet.Finite :=
  ((List.finite_toSet l).image _).subset (edgeSet_graphOf_subset l)

theorem ncard_edgeSet_graphOf_le (l : List (GraphNode × GraphNode)) : (graphOf l).edgeSet.ncard ≤ l.length := by
  have himage := Set.ncard_le_ncard (edgeSet_graphOf_subset l) ((List.finite_toSet l).image _)
  have hlist := Set.ncard_image_le (List.finite_toSet l) (f := fun d => s(d.1, d.2))
  rw [← List.coe_toFinset l, Set.ncard_coe_finset] at hlist
  rw [← List.coe_toFinset l] at himage
  exact himage.trans (hlist.trans (List.toFinset_card_le l))

theorem SortedSet.ncard_eq_size (s : SortedSet GraphNode) : {x | x ∈ s}.ncard = s.size := by
  have hset : {x | x ∈ s} = ↑s.toList.toFinset := (List.coe_toFinset s.toList).symm
  rw [hset, Set.ncard_coe_finset, List.toFinset_card_of_nodup s.nodup, SortedSet.size]

theorem SortedSet.size_ofList (l : List GraphNode) : (SortedSet.ofList l).size = l.toFinset.card := by
  rw [SortedSet.size, ← List.toFinset_card_of_nodup (SortedSet.nodup _)]
  congr 1
  ext x
  rw [List.mem_toFinset, List.mem_toFinset]
  exact SortedSet.mem_ofList

namespace Steiner

open SpanningTree (Joins Trail IsMinimumForest weight)

variable {forest : List WeightedEdge → List WeightedEdge} {g : ReferenceGraph} {G : SimpleGraph GraphNode}
  {nodes : SortedSet GraphNode} {edges : SortedSet (GraphNode × GraphNode)} {terminals ends : List GraphNode}
  {all : List Link} {a x y : GraphNode} {i j : Nat}

/-- **connected nodes are at most one more than the edges** -/
theorem Connects.size_le (h : Connects G nodes edges) : nodes.size ≤ edges.size + 1 := by
  by_cases hn : ∃ n, n ∈ nodes
  · obtain ⟨n, hn⟩ := hn
    have hinside : ∀ a b, (graphOf edges.toList).Adj a b → a ∈ nodes := by
      intro a b hab
      rcases (graphOf_adj.1 hab).2 with hd | hd
      · exact (h.ends _ hd).1
      · exact (h.ends _ hd).2
    have hverts := ncard_verts_le (connected_partOf (le_refl (graphOf edges.toList)) hinside h.linked hn)
    have hedges := Set.ncard_le_ncard (partOf nodes (le_refl (graphOf edges.toList)) hinside).edgeSet_subset
      (finite_edgeSet_graphOf _)
    rw [← SortedSet.ncard_eq_size]
    exact hverts.trans (Nat.succ_le_succ (hedges.trans (ncard_edgeSet_graphOf_le _)))
  · rw [SortedSet.size, List.length_eq_zero_iff.2 (List.eq_nil_iff_forall_not_mem.2 fun n h => hn ⟨n, h⟩)]
    exact Nat.zero_le _

/-! ## The round trip -/

/-- the places of numbered nodes on a closed walk -/
def Places (ends : List GraphNode) (c : G.Walk a a) (place : Nat → Nat) : Prop :=
  ∀ (i : Nat) (x : GraphNode), ends[i]? = some x → c.getVert (place i) = x ∧ place i ≤ c.length

theorem exists_places (c : G.Walk a a) (hpass : ∀ x ∈ ends, x ∈ c.support) : ∃ place, Places ends c place := by
  have hplace : ∀ i : Nat, ∃ n, ∀ x, ends[i]? = some x → c.getVert n = x ∧ n ≤ c.length := by
    intro i
    cases hi : ends[i]? with
    | none => exact ⟨0, fun x hx => nomatch hx⟩
    | some x =>
      obtain ⟨n, hn⟩ := SimpleGraph.Walk.mem_support_iff_exists_getVert.1 (hpass x (List.mem_of_getElem? hi))
      exact ⟨n, fun y hy => Option.some.inj hy ▸ hn⟩
  choose place h using hplace
  exact ⟨place, h⟩

/-- two terminals are joined by edges within the steps between their places on either side -/
theorem exists_joining_places (hall : links g (numbered ends) = some all) {c : g.undirected.Walk a a}
    {place : Nat → Nat} (hplace : Places ends c place) (hi : i < ends.length) (hj : j < ends.length) (hne : i ≠ j)
    (hle : place i ≤ place j) :
    (∃ e ∈ closure all, Joins e i j ∧ place i + e.weight ≤ place j) ∧
      ∃ e ∈ closure all, Joins e j i ∧ place j + e.weight ≤ c.length + place i := by
  have hx := List.getElem?_eq_getElem hi
  have hy := List.getElem?_eq_getElem hj
  obtain ⟨hxi, -⟩ := hplace i _ hx
  obtain ⟨hyj, hj⟩ := hplace j _ hy
  obtain ⟨⟨v, hv⟩, w, hw⟩ := exists_walks_between c hle hj
  obtain ⟨e, he, hjoins, hleast⟩ := exists_joining hall hne (hxi ▸ hx) (hyj ▸ hy)
  obtain ⟨f, hf, hback, hleast'⟩ := exists_joining hall hne.symm (hyj ▸ hy) (hxi ▸ hx)
  have hev := hleast v
  have hfw := hleast' w
  exact ⟨⟨e, he, hjoins, by omega⟩, f, hf, hback, by omega⟩

theorem exists_order (place : Nat → Nat) (n : Nat) :
    ∃ order : List Nat, order.Perm (List.range n) ∧ order.Pairwise fun i j => place i ≤ place j := by
  refine ⟨(List.range n).mergeSort fun i j => decide (place i ≤ place j), List.mergeSort_perm _ _, ?_⟩
  refine (List.pairwise_mergeSort (fun i j k => ?_) (fun i j => ?_) _).imp of_decide_eq_true
  · simp only [decide_eq_true_eq]
    exact Nat.le_trans
  · rw [Bool.or_eq_true, decide_eq_true_iff, decide_eq_true_iff]
    exact Nat.le_total _ _

/-- **the terminals in the order of a closed walk make a round trip that is no longer** -/
theorem exists_round_trip (hall : links g (numbered ends) = some all) (hsize : 1 < ends.length)
    (c : g.undirected.Walk a a) (hpass : ∀ x ∈ ends, x ∈ c.support) :
    ∃ k l es, Trail (k :: l) es ∧ (k :: l).getLast? = some k ∧ es ⊆ closure all ∧ (∀ i < ends.length, i ∈ k :: l) ∧
      es.length = ends.length ∧ weight es ≤ c.length := by
  obtain ⟨place, hplace⟩ := exists_places c hpass
  obtain ⟨order, hperm, hsorted⟩ := exists_order place ends.length
  have hmem : ∀ {i}, i ∈ order ↔ i < ends.length := hperm.mem_iff.trans List.mem_range
  have hlength : order.length = ends.length := hperm.length_eq.trans List.length_range
  have hnodup : order.Nodup := hperm.nodup_iff.2 List.nodup_range
  obtain ⟨i, l, rfl⟩ := List.exists_cons_of_length_pos (show 0 < order.length by omega)
  -- from each terminal to the next one
  have hnext : (i :: l).IsChain fun i j => ∃ e ∈ closure all, Joins e i j ∧ place i + e.weight ≤ place j :=
    ((hnodup.and hsorted).imp_of_mem fun hi hj h =>
      (exists_joining_places hall hplace (hmem.1 hi) (hmem.1 hj) h.1 h.2).1).isChain
  obtain ⟨es, hes, ht, k, hk, hweight⟩ := SpanningTree.exists_trail hnext
  -- and from the last one back to the first
  have hne : i ≠ k := by
    rintro rfl
    cases l with
    | nil => simp at hlength; omega
    | cons j l => exact (List.nodup_cons.1 hnodup).1 (List.mem_of_getLast? (List.getLast?_cons_cons ▸ hk))
  obtain ⟨f, hf, hback, hfweight⟩ := (exists_joining_places hall hplace (hmem.1 List.mem_cons_self)
    (hmem.1 (List.mem_of_getLast? hk)) hne (by omega)).2
  refine ⟨k, i :: l, f :: es, .cons hback ht, List.getLast?_cons_cons.trans hk, List.cons_subset.2 ⟨hf, hes⟩,
    fun x hx => List.mem_cons_of_mem _ (hmem.2 hx), ?_, ?_⟩
  · rw [← hlength, ht.length_eq, List.length_cons]
  · rw [SpanningTree.weight_cons]
    omega

/-! ## The result -/

/-- the answer has no more edges than the spanning tree of the closure weighs -/
theorem size_le_weight (hf : ∀ edges, IsMinimumForest edges (forest edges))
    (hsize : 1 < (SortedSet.ofList terminals).size) (h : treeBy forest g terminals = some nodes) :
    ∃ all, links g (numbered (SortedSet.ofList terminals).toList) = some all ∧
      nodes.size ≤ weight (forest (closure all)) + 1 := by
  obtain ⟨all, hall, T, hT, adj, -, rfl, -, hsub, -⟩ := exists_shows hf hsize h
  exact ⟨all, hall, (SortedSet.size_le_of_subset hsub).trans ((connects_expansion hf hall).size_le.trans
    (Nat.succ_le_succ (size_edgesOf_le hf hall)))⟩

/-- **the answer has at most `2 (t - 1) / t` times the edges of any part of the graph that connects the `t`
terminals** -/
theorem treeBy_size_le (hf : ∀ edges, IsMinimumForest edges (forest edges)) (ht : 2 ≤ terminals.toFinset.card)
    (h : treeBy forest g terminals = some nodes) {S : g.undirected.Subgraph} (hS : S.Connected)
    (hterminals : ∀ t ∈ terminals, t ∈ S.verts) :
    terminals.toFinset.card * (nodes.size - 1) ≤ 2 * (terminals.toFinset.card - 1) * S.edgeSet.ncard := by
  rw [← SortedSet.size_ofList] at ht ⊢
  obtain ⟨all, hall, hnodes⟩ := size_le_weight hf ht h
  obtain ⟨a, c, hlength, hpass⟩ := exists_closed_walk hS ((finite_edgeSet_graphOf _).subset S.edgeSet_subset)
    fun t ht => hterminals t (SortedSet.mem_ofList.1 ht)
  obtain ⟨k, l, es, htrail, hk, hes, hin, hcount, hweight⟩ := exists_round_trip hall ht c hpass
  have hends : ∀ e ∈ closure all, e.left ∈ k :: l ∧ e.right ∈ k :: l := by
    intro e he
    obtain ⟨-, p, a, b, ha, hb, -⟩ := (mem_closure hall).1 he
    exact ⟨hin _ (List.getElem?_eq_some_iff.1 ha).1, hin _ (List.getElem?_eq_some_iff.1 hb).1⟩
  have htrip := (hf (closure all)).round_trip_le htrail hk hes hends
  rw [hcount, ← SortedSet.size] at htrip
  have htree : (SortedSet.ofList terminals).size * weight (forest (closure all)) ≤
      ((SortedSet.ofList terminals).size - 1) * weight es := by
    rw [Nat.sub_mul, Nat.one_mul]
    exact Nat.le_sub_of_add_le htrip
  calc (SortedSet.ofList terminals).size * (nodes.size - 1)
      ≤ (SortedSet.ofList terminals).size * weight (forest (closure all)) :=
        Nat.mul_le_mul_left _ (Nat.sub_le_of_le_add hnodes)
    _ ≤ ((SortedSet.ofList terminals).size - 1) * weight es := htree
    _ ≤ ((SortedSet.ofList terminals).size - 1) * (2 * S.edgeSet.ncard) :=
        Nat.mul_le_mul_left _ (hweight.trans hlength)
    _ = 2 * ((SortedSet.ofList terminals).size - 1) * S.edgeSet.ncard := by ring

open CustomerOrders in
/-- orders, names and cities are connected by all five edges, and so they are by a walk along these -/
theorem treeBy_size_le_orders : (∀ edges, IsMinimumForest edges (SpanningTree.forest edges)) ∧
    [order, name, city].toFinset.card = 3 ∧ ∃ nodes, tree graph [order, name, city] = some nodes ∧ nodes.size = 6 ∧
      ∃ S : graph.undirected.Subgraph, S.Connected ∧ (∀ t ∈ [order, name, city], t ∈ S.verts) ∧
        3 * (6 - 1) ≤ 2 * (3 - 1) * S.edgeSet.ncard := by
  have hedge : ∀ {a b}, a ≠ b → (a, b) ∈ graph.edges → graph.undirected.Adj a b := fun hne h =>
    graphOf_adj.2 ⟨hne, Or.inl h⟩
  let walk : graph.undirected.Walk order city :=
    .cons (hedge (by decide) (by decide +kernel : (order, orders) ∈ graph.edges)) <|
    .cons (hedge (by decide) (by decide +kernel : (orders, customer) ∈ graph.edges)) <|
    .cons (hedge (by decide) (by decide +kernel : (customer, customers) ∈ graph.edges)) <|
    .cons (hedge (by decide) (by decide +kernel : (customers, name) ∈ graph.edges)) <|
    .cons (hedge (by decide) (by decide +kernel : (name, customers) ∈ graph.edges)) <|
    .cons (hedge (by decide) (by decide +kernel : (customers, city) ∈ graph.edges)) .nil
  have hterminals : ∀ t ∈ [order, name, city], t ∈ walk.toSubgraph.verts := by
    simp [walk]
  have hcard : [order, name, city].toFinset.card = 3 := by decide
  have hanswer : (tree graph [order, name, city]).map SortedSet.size = some 6 := by decide +kernel
  obtain ⟨nodes, hnodes, hsize⟩ := Option.map_eq_some_iff.1 hanswer
  have hbound := treeBy_size_le SpanningTree.isMinimumForest_forest (hcard ▸ (by decide : 2 ≤ 3)) hnodes
    walk.toSubgraph_connected hterminals
  rw [hcard, hsize] at hbound
  exact ⟨SpanningTree.isMinimumForest_forest, hcard, nodes, hnodes, hsize, walk.toSubgraph, walk.toSubgraph_connected,
    hterminals, hbound⟩

end Steiner

end SemanticPlanner
