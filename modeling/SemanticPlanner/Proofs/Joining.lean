/-
How the datasources of a direct match hang together.

  Shaped                edges join datasources with declared concepts, or concepts that the environment links
  Matched               a match: connected, and every node of it is next to one of the other kind
  matched_of_matching   what is cut from the reference graph of an environment is a match
  exists_host           every node of a match has a chosen datasource that carries what it stands for
  linked_of_neighbors   the hosts of neighbors are one datasource or linked
  chosen_connected      the chosen datasources are connected by joined pairs, lineage and dropped pseudonyms

The graph of a match also has the edges of lineage, and a concept that only one of the chosen datasources carries is
dropped from it, pseudonyms or not. So a chain of chosen datasources can have links that no shared concept stands for.
-/
import Mathlib.Logic.Relation
import SemanticPlanner.Proofs.Dispatch
import SemanticPlanner.Proofs.Links
import SemanticPlanner.Proofs.Matching

namespace SemanticPlanner

/-! ## Connected lists -/

section Connected

variable {α : Type} {R S : α → α → Prop} {l : List α} {a b r : α}

/-- two things are linked by a chain of members of a list -/
def Chained (R : α → α → Prop) (l : List α) : α → α → Prop :=
  Relation.ReflTransGen fun x y => x ∈ l ∧ y ∈ l ∧ R x y

/-- any two members of a list are linked by a chain of members -/
def ConnectedBy (R : α → α → Prop) (l : List α) : Prop := ∀ a ∈ l, ∀ b ∈ l, Chained R l a b

theorem Chained.of_eq_or (ha : a ∈ l) (hb : b ∈ l) (h : a = b ∨ R a b) : Chained R l a b := by
  rcases h with rfl | h
  · exact .refl
  · exact .single ⟨ha, hb, h⟩

/-- a list that is linked to one root is connected -/
theorem ConnectedBy.of_root (hsymm : ∀ {a b}, R a b → R b a) (h : ∀ a ∈ l, Chained R l r a) : ConnectedBy R l := by
  intro a ha b hb
  have hback : Chained R l a r := by
    refine Relation.ReflTransGen.mono (fun x y hxy => ?_) _ _ (Relation.reflTransGen_swap.2 (h a ha))
    exact ⟨hxy.2.1, hxy.1, hsymm hxy.2.2⟩
  exact hback.trans (h b hb)

theorem ConnectedBy.mono (h : ConnectedBy R l) (hRS : ∀ a ∈ l, ∀ b ∈ l, R a b → a = b ∨ S a b) : ConnectedBy S l := by
  intro a ha b hb
  have hchain := h a ha b hb
  clear hb
  induction hchain with
  | refl => exact .refl
  | tail _ hstep ih => exact ih.trans (Chained.of_eq_or hstep.1 hstep.2.1 (hRS _ hstep.1 _ hstep.2.1 hstep.2.2))

/-- two that are connected are the same or linked -/
theorem ConnectedBy.pair (h : ConnectedBy R [a, b]) : b = a ∨ R a b := by
  have hchain := h a (by simp) b (by simp)
  -- a chain that starts with the one stays there until it is linked with the other
  suffices hends : ∀ c, Chained R [a, b] a c → c = a ∨ R a b from hends b hchain
  intro c hc
  induction hc with
  | refl => exact Or.inl rfl
  | tail _ hstep ih =>
    rcases ih with rfl | h
    · rcases List.mem_cons.1 hstep.2.1 with rfl | hmem
      · exact Or.inl rfl
      · exact Or.inr (List.mem_singleton.1 hmem ▸ hstep.2.2)
    · exact Or.inr h

end Connected

namespace ReferenceGraph

variable {g : ReferenceGraph} {a b : GraphNode} {e : GraphNode × GraphNode} {l : List (GraphNode × GraphNode)}

theorem mem_neighbors_comm : b ∈ g.neighbors a ↔ a ∈ g.neighbors b := by
  rw [mem_neighbors, mem_neighbors, or_comm]

theorem mem_edges_foldl_addEdge :
    e ∈ (l.foldl (fun g e => g.addEdge e.1 e.2) g).edges ↔ e ∈ g.edges ∨ e ∈ l ∧ e.1 ≠ e.2 := by
  induction l generalizing g with
  | nil => simp
  | cons x l ih =>
    rw [List.foldl_cons, ih, List.mem_cons]
    by_cases hx : x.1 = x.2
    · rw [addEdge, if_pos hx]
      refine or_congr_right (and_congr_left fun hne => (or_iff_right fun he => hne ?_).symm)
      rw [he, hx]
    · rw [addEdge_of_ne g hx]
      have hmem : e ∈ g.edges.insert (x.1, x.2) ↔ e = x ∨ e ∈ g.edges := SortedSet.mem_insert
      rw [hmem]
      constructor
      · rintro ((rfl | he) | he)
        · exact Or.inr ⟨Or.inl rfl, hx⟩
        · exact Or.inl he
        · exact Or.inr ⟨Or.inr he.1, he.2⟩
      · rintro (he | ⟨rfl | he, hne⟩)
        · exact Or.inl (Or.inr he)
        · exact Or.inl (Or.inl rfl)
        · exact Or.inr ⟨he, hne⟩

theorem mem_nodes_foldl_addEdge (h : ∀ e ∈ l, e.1 ∈ g.nodes ∧ e.2 ∈ g.nodes) :
    a ∈ (l.foldl (fun g e => g.addEdge e.1 e.2) g).nodes ↔ a ∈ g.nodes := by
  refine List.foldlRecOn (motive := fun h : ReferenceGraph => a ∈ h.nodes ↔ a ∈ g.nodes) _ _ Iff.rfl fun k hk e he => ?_
  rw [addEdge]
  split
  · exact hk
  · show a ∈ (k.nodes.insert e.1).insert e.2 ↔ a ∈ g.nodes
    rw [SortedSet.mem_insert, SortedSet.mem_insert, hk]
    constructor
    · rintro (rfl | rfl | ha)
      exacts [(h e he).2, (h e he).1, ha]
    · exact fun ha => Or.inr (Or.inr ha)

end ReferenceGraph

namespace Environment

variable {env : Environment} {m n : GraphNode}

theorem readsNode_iff : env.ReadsNode m n ↔ ∃ p ∈ env.concepts.toList, ∃ q ∈ env.concepts.toList,
    q.1 ∈ p.2.arguments ∧ m = .ofConcept p.2 ∧ n = .ofConcept q.2 := by
  constructor
  · rintro ⟨a, b, c, d, hc, hd, h⟩
    exact ⟨(a, c), SortedMap.get?_eq_some_iff.1 hc, (b, d), SortedMap.get?_eq_some_iff.1 hd, h⟩
  · rintro ⟨p, hp, q, hq, h⟩
    exact ⟨p.1, q.1, p.2, q.2, SortedMap.get?_eq_some_iff.2 hp, SortedMap.get?_eq_some_iff.2 hq, h⟩

theorem renames_iff : env.Renames m n ↔ ∃ p ∈ env.concepts.toList, ∃ q ∈ env.concepts.toList,
    p.1 ≠ q.1 ∧ (q.1 ∈ p.2.pseudonyms ∨ p.1 ∈ q.2.pseudonyms) ∧ m = .ofConcept p.2 ∧ n = .ofConcept q.2 := by
  constructor
  · rintro ⟨a, b, c, d, hc, hd, h⟩
    exact ⟨(a, c), SortedMap.get?_eq_some_iff.1 hc, (b, d), SortedMap.get?_eq_some_iff.1 hd, h⟩
  · rintro ⟨p, hp, q, hq, h⟩
    exact ⟨p.1, q.1, p.2, q.2, SortedMap.get?_eq_some_iff.2 hp, SortedMap.get?_eq_some_iff.2 hq, h⟩

instance (env : Environment) (m n : GraphNode) : Decidable (env.ReadsNode m n) := decidable_of_iff _ readsNode_iff.symm

instance (env : Environment) (m n : GraphNode) : Decidable (env.Renames m n) := decidable_of_iff _ renames_iff.symm

end Environment

namespace Match

open ReferenceGraph

variable {env : Environment} {graph g h : ReferenceGraph} {m n d : GraphNode} {targets : List Concept}
  {acceptPartial : Bool} {condition : Option Condition}

/-! ## Nodes and edges of a match -/

/-- the node of a declared concept -/
def Declared (env : Environment) (n : GraphNode) : Prop := ∃ a c, env.find? a = some c ∧ n = .ofConcept c

namespace Declared

theorem isDatasource (h : Declared env n) : n.isDatasource = false := by
  obtain ⟨a, c, -, rfl⟩ := h
  rfl

theorem exists_address (h : Declared env n) : ∃ a, n.address? = some a := by
  obtain ⟨a, c, -, rfl⟩ := h
  exact ⟨c.address, rfl⟩

/-- an address has one node -/
theorem eq_of_address (hk : env.Keyed) (hm : Declared env m) (hn : Declared env n) (h : m.address? = n.address?) :
    m = n := by
  obtain ⟨a, c, hc, rfl⟩ := hm
  obtain ⟨b, e, he, rfl⟩ := hn
  have haddress : c.address = e.address := Option.some.inj h
  rw [Option.some.inj ((hk.find?_address hc).symm.trans (haddress ▸ hk.find?_address he))]

end Declared

/-- the ends of an edge of a match -/
inductive Beside (env : Environment) (m n : GraphNode) : Prop
  | serves : m.isDatasource = true → Declared env n → Beside env m n
  | served : Declared env m → n.isDatasource = true → Beside env m n
  | lineage : env.ReadsNode m n ∨ env.ReadsNode n m → Beside env m n
  | pseudonym : env.Renames m n → Beside env m n

theorem Beside.symm (h : Beside env m n) : Beside env n m := by
  cases h with
  | serves hm hn => exact .served hn hm
  | served hm hn => exact .serves hn hm
  | lineage h => exact .lineage h.symm
  | pseudonym h => exact .pseudonym h.symm

/-- nodes are datasources and declared concepts, edges join the two or follow the environment -/
structure Shaped (env : Environment) (g : ReferenceGraph) : Prop where
  nodes : ∀ n ∈ g.nodes, n.isDatasource = true ∨ Declared env n
  edges : ∀ m n, (m, n) ∈ g.edges → Beside env m n

namespace Shaped

theorem beside (hg : Shaped env g) (h : n ∈ g.neighbors m) : Beside env m n := by
  rcases mem_neighbors.1 h with h | h
  · exact hg.edges m n h
  · exact (hg.edges n m h).symm

theorem declared (hg : Shaped env g) (hn : n ∈ g.nodes) (hconcept : n.isDatasource = false) : Declared env n :=
  (hg.nodes n hn).resolve_left (by rw [hconcept]; exact Bool.false_ne_true)

/-- a smaller graph is as well -/
theorem cut (hg : Shaped env g) (hnodes : ∀ n ∈ h.nodes, n ∈ g.nodes) (hedges : ∀ e ∈ h.edges, e ∈ g.edges) :
    Shaped env h :=
  ⟨fun n hn => hg.nodes n (hnodes n hn), fun m n he => hg.edges m n (hedges _ he)⟩

theorem subgraph (hg : Shaped env g) (keep : SortedSet GraphNode) : Shaped env (g.subgraph keep) :=
  hg.cut (fun _ h => (SortedSet.mem_inter.1 h).1) fun _ h => (SortedSet.mem_filter.1 h).1

theorem addBoth (hg : Shaped env g) (hm : m.isDatasource = true) (hn : Declared env n) :
    Shaped env (g.addBoth m n) := by
  have hne : m ≠ n := by
    rintro rfl
    exact Bool.false_ne_true (hn.isDatasource.symm.trans hm)
  refine ⟨fun k hk => ?_, fun k l he => ?_⟩
  · rcases (mem_nodes_addBoth hne).1 hk with hk | rfl | rfl
    exacts [hg.nodes k hk, Or.inl hm, Or.inr hn]
  · rcases (mem_edges_addBoth hne).1 he with he | he | he
    · exact hg.edges k l he
    · cases he
      exact .serves hm hn
    · cases he
      exact .served hn hm

theorem addSource (hg : Shaped env g) (s : GraphSource) : Shaped env (g.addSource s) := by
  refine ⟨fun k hk => ?_, hg.edges⟩
  rcases SortedSet.mem_insert.1 hk with rfl | hk
  · exact Or.inl rfl
  · exact hg.nodes k hk

theorem addUnion (hg : Shaped env g) (group : List Datasource) : Shaped env (addUnion env g group) := by
  refine List.foldlRecOn (motive := Shaped env) _ _ (hg.addSource _) fun g hg c hc => ?_
  obtain ⟨a, -, ha⟩ := List.mem_filterMap.1 hc
  exact hg.addBoth rfl ⟨a, c, ha, rfl⟩

theorem pruneSources (hg : Shaped env g) : Shaped env (g.pruneSources acceptPartial condition) :=
  List.foldlRecOn _ _ hg fun _ hg _ _ =>
    hg.cut (fun _ h => (SortedSet.mem_erase.1 h).1) fun _ h => (SortedSet.mem_filter.1 h).1

theorem dropPartials (hg : Shaped env g) : Shaped env (dropPartials env condition g) := by
  refine List.foldlRecOn _ _ hg fun g hg e _ => ?_
  exact List.foldlRecOn _ _ hg fun g hg c _ =>
    hg.cut (fun _ h => h) fun _ h => (SortedSet.mem_erase.1 (SortedSet.mem_erase.1 h).1).1

theorem pruned (hg : Shaped env g) (groups : List (List Datasource)) :
    Shaped env ((groups.foldl (Match.addUnion env) g).pruneSources acceptPartial condition) :=
  pruneSources (List.foldlRecOn _ _ hg fun _ hg group _ => hg.addUnion group)

theorem served (hg : Shaped env g) : Shaped env (if acceptPartial then g else Match.dropPartials env condition g) := by
  split
  · exact hg
  · exact hg.dropPartials

/-- so is the reference graph of an environment, cycles of lineage or not -/
theorem ofEnvironment (henv : env.Closed) (h : ReferenceGraph.ofEnvironment env = .ok g) : Shaped env g := by
  have hk := henv.keyed
  obtain ⟨b, hfollows, hattach⟩ := built_of_ofEnvironment hk h
  have hsound : Sound env b.graph := hfollows.sound hk (fun c hc => hk.find?_of_mem hc) (.empty env)
  refine foldlM_keeps hattach ⟨fun n hn => Or.inr (hsound.nodes n hn), fun m n he => ?_⟩ fun g s h hg hs => ?_
  · rcases hsound.edges m n he with hreads | hmark
    · exact .lineage (Or.inl hreads)
    · exact .pseudonym (hsound.marks m n hmark).1
  · have ha := attached_of_attach hk hs
    refine ⟨fun n hn => ?_, fun m n he => ?_⟩
    · rcases (ha.nodes n).1 hn with hn | rfl | ⟨a, -, c, hc, rfl⟩
      exacts [hg.nodes n hn, Or.inl rfl, Or.inr ⟨a, c, hc, rfl⟩]
    · rcases (ha.edges _).1 he with he | ⟨a, -, c, hc, he | he⟩
      · exact hg.edges m n he
      · cases he
        exact .serves rfl ⟨a, c, hc, rfl⟩
      · cases he
        exact .served ⟨a, c, hc, rfl⟩ rfl

end Shaped

/-! ## Shared concepts -/

/-- what is counted about concepts so far: datasources that carry them, and for the shared ones that there are any -/
structure Touches (graph : ReferenceGraph) (datasets : SortedSet GraphNode) (s : Shared) : Prop where
  touching : ∀ a, ∀ d ∈ s.touching.getD a ∅,
    d ∈ datasets ∧ ∃ n ∈ graph.nodes, n.isDatasource = false ∧ n.address? = some a ∧ d ∈ graph.neighbors n
  nodes : ∀ n ∈ s.nodes, n.isDatasource = false ∧ ∃ d ∈ datasets, d ∈ graph.neighbors n

theorem Touches.addShared {datasets targetNodes : SortedSet GraphNode} {s : Shared} (hk : env.Keyed)
    (hg : Shaped env graph) (hs : Touches graph datasets s) (hn : n ∈ graph.conceptNodes) :
    Touches graph datasets (addShared graph datasets targetNodes s n) := by
  obtain ⟨hmem, hdatasource⟩ := mem_conceptNodes.1 hn
  unfold Match.addShared
  split
  · exact hs
  rename_i a ha
  split
  · exact hs
  have htouching : ∀ d ∈ (s.touching.getD a ∅).union ((graph.neighbors n).inter datasets),
      d ∈ datasets ∧ d ∈ graph.neighbors n := by
    intro d hd
    rcases SortedSet.mem_union.1 hd with hd | hd
    · obtain ⟨hset, m, hm, hmc, hma, hdm⟩ := hs.touching a d hd
      obtain rfl := (hg.declared hm hmc).eq_of_address hk (hg.declared hmem hdatasource) (hma.trans ha.symm)
      exact ⟨hset, hdm⟩
    · exact (SortedSet.mem_inter.1 hd).symm
  refine ⟨fun b d hd => ?_, fun m hm => ?_⟩
  · rw [SortedMap.getD, SortedMap.get?_insert] at hd
    split at hd
    · rename_i hb
      obtain ⟨hset, hneighbor⟩ := htouching d hd
      exact ⟨hset, n, hmem, hdatasource, hb ▸ ha, hneighbor⟩
    · exact hs.touching b d hd
  · dsimp only at hm
    split at hm
    · rename_i hmany
      rcases SortedSet.mem_insert.1 hm with rfl | hm
      · obtain ⟨d, hd⟩ := List.exists_mem_of_length_pos (Nat.lt_trans Nat.one_pos hmany)
        exact ⟨hdatasource, d, htouching d hd⟩
      · exact hs.nodes m hm
    · exact hs.nodes m hm

/-! ## The one piece -/

/-- a match: connected, and every node of it is next to one of the other kind -/
structure Matched (env : Environment) (g : ReferenceGraph) : Prop where
  wellFormed : g.WellFormed
  shaped : Shaped env g
  carried : ∀ n ∈ g.nodes, ∃ d ∈ g.neighbors n, d.isDatasource = !n.isDatasource
  connected : ∃ root ∈ g.nodes, ∀ n ∈ g.nodes,
    Reach.Reached (fun m => (g.neighbors m).toList) (.singleton root) n

/-- a component is reached from one of its nodes through itself alone -/
theorem reached_of_mem_piece {piece : SortedSet GraphNode} (hg : g.WellFormed) (hp : piece ∈ g.components)
    (hedges : ∀ m ∈ piece, ∀ n ∈ piece, n ∈ g.neighbors m → n ∈ h.neighbors m) : ∃ root ∈ piece, ∀ n ∈ piece,
      Reach.Reached (fun m => (h.neighbors m).toList) (.singleton root) n := by
  rcases mem_componentsOf hp with hnil | ⟨root, hroot, rfl⟩
  · cases hnil
  have hself : root ∈ g.component root := Reach.mem_grow_of_mem (SortedSet.mem_singleton.2 rfl)
  refine ⟨root, hself, fun n hn => ?_⟩
  -- whatever is reached is in the component, so its edges are in the other graph as well
  have hin : n ∈ g.component root ∧ Reach.Reached (fun m => (h.neighbors m).toList) (.singleton root) n := by
    have hreached := Reach.reached_of_mem_grow hn
    clear hn
    induction hreached with
    | start hm =>
      rw [SortedSet.mem_singleton.1 hm]
      exact ⟨hself, .start (SortedSet.mem_singleton.2 rfl)⟩
    | step _ hstep ih =>
      have hmem := neighbor_mem_piece hg hp ih.1 hstep
      exact ⟨hmem, .step ih.2 (hedges _ ih.1 _ hmem hstep)⟩
  exact hin.2

theorem mem_edges_restoreEdges {piece : SortedSet GraphNode} {e : GraphNode × GraphNode} :
    e ∈ (restoreEdges graph piece g).edges ↔
      e ∈ g.edges ∨ (e ∈ graph.edges ∧ e.1 ∈ piece ∧ e.2 ∈ piece) ∧ e.1 ≠ e.2 := by
  rw [restoreEdges, mem_edges_foldl_addEdge, List.mem_filter, Bool.and_eq_true, SortedSet.contains_iff,
    SortedSet.contains_iff]
  rfl

/-- the piece of a graph with the edges of another graph put back -/
theorem mem_nodes_restoreEdges {piece : SortedSet GraphNode} (hpiece : ∀ n ∈ piece, n ∈ g.nodes) :
    n ∈ (restoreEdges graph piece (g.subgraph piece)).nodes ↔ n ∈ piece := by
  have hmem : ∀ m, m ∈ (g.subgraph piece).nodes ↔ m ∈ piece := fun m =>
    SortedSet.mem_inter.trans (and_iff_right_of_imp (hpiece m))
  rw [restoreEdges, mem_nodes_foldl_addEdge fun e he => ?_]
  · exact hmem n
  · obtain ⟨-, he⟩ := List.mem_filter.1 he
    rw [Bool.and_eq_true, SortedSet.contains_iff, SortedSet.contains_iff] at he
    exact ⟨(hmem _).2 he.1, (hmem _).2 he.2⟩

theorem neighbor_subgraph {keep : SortedSet GraphNode} (h : n ∈ g.neighbors m) (hm : m ∈ keep) (hn : n ∈ keep) :
    n ∈ (g.subgraph keep).neighbors m := by
  have hkept : ∀ a b, a ∈ keep → b ∈ keep → (a, b) ∈ g.edges → (a, b) ∈ (g.subgraph keep).edges := fun a b ha hb he =>
    SortedSet.mem_filter.2 ⟨he, by
      rw [SortedSet.contains_iff.2 ha, SortedSet.contains_iff.2 hb]
      rfl⟩
  exact mem_neighbors.2 ((mem_neighbors.1 h).imp (hkept m n hm hn) (hkept n m hn hm))

/-- neighbors inside a piece stay neighbors once it stands alone, and get the edges of the other graph back -/
theorem neighbor_restoreEdges {piece : SortedSet GraphNode} (hm : m ∈ piece) (hn : n ∈ piece)
    (h : n ∈ g.neighbors m ∨ n ∈ graph.neighbors m ∧ m ≠ n) :
    n ∈ (restoreEdges graph piece (g.subgraph piece)).neighbors m := by
  rw [mem_neighbors, mem_edges_restoreEdges, mem_edges_restoreEdges]
  rcases h with h | ⟨h, hne⟩
  · exact (mem_neighbors.1 (neighbor_subgraph h hm hn)).imp Or.inl Or.inl
  · exact (mem_neighbors.1 h).imp (fun he => Or.inr ⟨⟨he, hm, hn⟩, hne⟩) fun he => Or.inr ⟨⟨he, hn, hm⟩, hne.symm⟩

/-- a piece that covers the targets has the node of each, next to a datasource -/
theorem target_mem_piece {wanted : NameSet} {piece : SortedSet GraphNode} (hk : env.Keyed) (hwf : g.WellFormed)
    (hg : Shaped env g) (hp : piece ∈ g.components) (hcovers : coversTargets g wanted piece = true)
    (hn : Declared env n) (hwanted : n.address?.any wanted.contains = true) :
    n ∈ piece ∧ ∃ d ∈ g.neighbors n, d.isDatasource = true := by
  obtain ⟨a, ha⟩ := hn.exists_address
  rw [ha, Option.any_some, SortedSet.contains_iff] at hwanted
  obtain ⟨m, hm, hcovered⟩ := List.any_eq_true.1 (List.all_eq_true.1 hcovers a hwanted)
  rw [Bool.and_eq_true, beq_iff_eq] at hcovered
  -- the piece has some node of the address, and there is but one
  have hdeclared := hg.declared (mem_nodes_of_mem_piece hwf hp hm) (isDatasource_of_address hcovered.1)
  obtain rfl := hdeclared.eq_of_address hk hn (hcovered.1.trans ha.symm)
  exact ⟨hm, List.any_eq_true.1 hcovered.2⟩

/-- a piece stands alone as a match, if each of its nodes is next to one of the other kind, be it by an edge put back -/
theorem matched_of_piece {piece : SortedSet GraphNode} (hgraph : Shaped env graph) (hwf : g.WellFormed)
    (hg : Shaped env g) (hp : piece ∈ g.components) (hnext : ∀ n ∈ piece, ∃ d,
      (d ∈ g.neighbors n ∨ d ∈ piece ∧ d ∈ graph.neighbors n) ∧ d.isDatasource = !n.isDatasource) :
    Matched env (restoreEdges graph piece (g.subgraph piece)) := by
  have hpiece : ∀ n ∈ piece, n ∈ g.nodes := fun n hn => mem_nodes_of_mem_piece hwf hp hn
  have hnodes : ∀ n, n ∈ (restoreEdges graph piece (g.subgraph piece)).nodes ↔ n ∈ piece := fun n =>
    mem_nodes_restoreEdges hpiece
  have hkept : ∀ m ∈ piece, ∀ n ∈ g.neighbors m, n ∈ (restoreEdges graph piece (g.subgraph piece)).neighbors m :=
    fun m hm n hn => neighbor_restoreEdges hm (neighbor_mem_piece hwf hp hm hn) (Or.inl hn)
  refine ⟨(restores_restoreEdges (hwf.subgraph piece) fun n hn => ?_).wellFormed,
    ⟨fun n hn => hg.nodes n (hpiece n ((hnodes n).1 hn)), fun m n he => ?_⟩, fun n hn => ?_, ?_⟩
  · exact SortedSet.mem_inter.2 ⟨hpiece n hn, hn⟩
  · rcases mem_edges_restoreEdges.1 he with he | he
    · exact (hg.subgraph piece).edges m n he
    · exact hgraph.edges m n he.1.1
  · rw [hnodes] at hn
    obtain ⟨d, hd | ⟨hd, hneighbor⟩, hkind⟩ := hnext n hn
    · exact ⟨d, hkept n hn d hd, hkind⟩
    · have hne : n ≠ d := by
        rintro rfl
        exact Bool.not_ne_self _ hkind.symm
      exact ⟨d, neighbor_restoreEdges hn hd (Or.inr ⟨hneighbor, hne⟩), hkind⟩
  · obtain ⟨root, hroot, hreach⟩ := reached_of_mem_piece hwf hp fun m hm n _ hn => hkept m hm n hn
    exact ⟨root, (hnodes root).2 hroot, fun n hn => hreach n ((hnodes n).1 hn)⟩

/-- a cut keeps datasources, targets and shared concepts: each is next to one of the other kind, if each target is next
to a datasource and each datasource to a target -/
theorem next_of_mem_kept {cut : ReferenceGraph} {piece datasets targetNodes : SortedSet GraphNode} {shared : Shared}
    (htarget : ∀ t ∈ targetNodes, t.isDatasource = false ∧ ∃ d ∈ cut.neighbors t, d.isDatasource = true)
    (hdataset : ∀ d ∈ datasets, d ∈ piece ∧ d.isDatasource = true ∧ ∃ t ∈ cut.neighbors d, t.isDatasource = false)
    (hshared : Touches graph datasets shared) (hn : n ∈ datasets.union (targetNodes.union shared.nodes)) :
    ∃ d, (d ∈ cut.neighbors n ∨ d ∈ piece ∧ d ∈ graph.neighbors n) ∧ d.isDatasource = !n.isDatasource := by
  rw [SortedSet.mem_union, SortedSet.mem_union] at hn
  rcases hn with hn | hn | hn
  · obtain ⟨-, hsource, t, ht, hconcept⟩ := hdataset n hn
    exact ⟨t, Or.inl ht, by rw [hsource, hconcept]; rfl⟩
  · obtain ⟨hconcept, d, hd, hsource⟩ := htarget n hn
    exact ⟨d, Or.inl hd, by rw [hsource, hconcept]; rfl⟩
  · obtain ⟨hconcept, d, hd, hneighbor⟩ := hshared.nodes n hn
    obtain ⟨hpiece, hsource, -⟩ := hdataset d hd
    exact ⟨d, Or.inr ⟨hpiece, hneighbor⟩, by rw [hsource, hconcept]; rfl⟩

/-- **what is cut from the reference graph of an environment is connected, and carried by datasources** -/
theorem matched_of_matching (henv : env.Closed) (hgraph : ofEnvironment env = .ok graph)
    (hmatch : matching env graph targets acceptPartial condition = some g) : Matched env g := by
  have hk := henv.keyed
  have hshaped : Shaped env graph := .ofEnvironment henv hgraph
  unfold matching at hmatch
  extract_lets joined pruned wanted targetNodes served datasets shared cut at hmatch
  have hpruned : Shaped env pruned := hshaped.pruned _
  have hcut : cut.WellFormed ∧ Shaped env cut :=
    ⟨(wellFormed_served (wellFormed_pruned (wellFormed_ofEnvironment hgraph) _)).subgraph _, hpruned.served.subgraph _⟩
  have hshared : Touches graph datasets shared := List.foldlRecOn (motive := Touches graph datasets) _ _
    ⟨fun a d hd => absurd hd (SortedSet.not_mem_empty d), fun n hn => absurd hn (SortedSet.not_mem_empty n)⟩
    fun s hs n hn => hs.addShared hk hshaped hn
  split at hmatch
  · rename_i piece hpiece
    obtain ⟨hp, hcovers⟩ := List.mem_filter.1 (hpiece ▸ List.mem_singleton_self piece :
      piece ∈ cut.components.filter (coversTargets cut wanted))
    dsimp only at hmatch
    split at hmatch
    · cases hmatch
    cases hmatch
    have htarget : ∀ t ∈ targetNodes, t ∈ piece ∧ t.isDatasource = false ∧
        ∃ d ∈ cut.neighbors t, d.isDatasource = true := by
      intro t ht
      obtain ⟨hmem, hwanted⟩ := List.mem_filter.1 (SortedSet.mem_ofList.1 ht)
      obtain ⟨hnode, hconcept⟩ := mem_conceptNodes.1 hmem
      have hdeclared := hpruned.declared hnode hconcept
      obtain ⟨hpiece, hserved⟩ := target_mem_piece hk hcut.1 hcut.2 hp hcovers hdeclared hwanted
      exact ⟨hpiece, hconcept, hserved⟩
    have hdataset : ∀ d ∈ datasets, d ∈ piece ∧ d.isDatasource = true ∧
        ∃ t ∈ cut.neighbors d, t.isDatasource = false := by
      intro d hd
      obtain ⟨hmem, hserves⟩ := List.mem_filter.1 (SortedSet.mem_ofList.1 hd)
      obtain ⟨t, ht, hcontains⟩ := List.any_eq_true.1 hserves
      rw [SortedSet.contains_iff] at hcontains
      have hneighbor : t ∈ cut.neighbors d := neighbor_subgraph ht (SortedSet.mem_union.2 (Or.inl hd))
        (SortedSet.mem_union.2 (Or.inr (SortedSet.mem_union.2 (Or.inl hcontains))))
      obtain ⟨hpiece, hconcept, -⟩ := htarget t hcontains
      exact ⟨neighbor_mem_piece hcut.1 hp hpiece (mem_neighbors_comm.1 hneighbor), (List.mem_filter.1 hmem).2, t,
        hneighbor, hconcept⟩
    exact matched_of_piece hshaped hcut.1 hcut.2 hp fun n hn => next_of_mem_kept (fun t ht => (htarget t ht).2) hdataset
      hshared (SortedSet.mem_inter.1 (mem_nodes_of_mem_piece hcut.1 hp hn)).2
  · cases hmatch

/-! ## The chosen datasources -/

/-- a chosen datasource with the nodes of the concepts that it contributes -/
abbrev Pick := GraphNode × List GraphNode

/-- the offers that no other one beats -/
def keptOffers (g : ReferenceGraph) (condition : Option Condition) : List Offer :=
  let offers := g.sourceNodes.map (offerOf g condition)
  offers.filter (isKept offers)

variable {e f : Pick}

theorem mem_keptOffers {o : Offer} (h : o ∈ keptOffers g condition) :
    o.node ∈ g.sourceNodes ∧ o = offerOf g condition o.node := by
  obtain ⟨d, hd, rfl⟩ := List.mem_map.1 (List.mem_filter.1 h).1
  rw [node_offerOf]
  exact ⟨hd, rfl⟩

theorem mem_chosen : e ∈ chosen g targets condition ↔ offerOf g condition e.1 ∈ keptOffers g condition ∧
    e.2 = (g.neighbors e.1).toList.filter fun n => !(usedOnce targets (keptOffers g condition)).contains n := by
  refine List.mem_map.trans ⟨?_, fun ⟨ho, he⟩ => ⟨_, ho, Prod.ext (node_offerOf _ _ _) ?_⟩⟩
  · rintro ⟨o, ho, rfl⟩
    obtain ⟨-, heq⟩ := mem_keptOffers ho
    dsimp only
    rw [← heq]
    refine ⟨ho, ?_⟩
    rw [heq, neighbors_offerOf, node_offerOf]
    rfl
  · rw [he, neighbors_offerOf]
    rfl

theorem two_le_count {α β : Type} [BEq β] [LawfulBEq β] {f : α → List β} {l : List α} {x y : α} {b : β} (hx : x ∈ l)
    (hy : y ∈ l) (hne : x ≠ y) (hbx : b ∈ f x) (hby : b ∈ f y) : 2 ≤ (l.flatMap f).count b := by
  obtain ⟨s, t, rfl⟩ := List.append_of_mem hx
  rw [List.flatMap_append, List.flatMap_cons, List.count_append, List.count_append]
  have hself := List.count_pos_iff.2 hbx
  rcases List.mem_append.1 hy with hy | hy
  · have := List.count_pos_iff.2 (List.mem_flatMap.2 ⟨y, hy, hby⟩)
    omega
  · have := List.count_pos_iff.2 (List.mem_flatMap.2 ⟨y, (List.mem_cons.1 hy).resolve_left hne.symm, hby⟩)
    omega

/-- what two offers carry is not used once -/
theorem not_mem_usedOnce {offers : List Offer} {o p : Offer} (ho : o ∈ offers) (hp : p ∈ offers) (hne : o ≠ p)
    (hno : n ∈ o.neighbors) (hnp : n ∈ p.neighbors) : n ∉ usedOnce targets offers := by
  intro h
  obtain ⟨hjoining, hcount⟩ := List.mem_filter.1 (SortedSet.mem_ofList.1 h)
  generalize hplain : (fun n : GraphNode => n.address?.any fun a =>
    !(SortedSet.ofList (Concept.addresses targets)).contains a) = plain at hjoining hcount
  rw [decide_eq_true_eq, ← List.countP_eq_length_filter] at hcount
  change List.count n _ ≤ 1 at hcount
  rw [List.count_filter (List.mem_filter.1 hjoining).2] at hcount
  have := two_le_count ho hp hne hno hnp
  omega

/-- two picks that contribute one concept, or pseudonyms of each other -/
def Joined (env : Environment) (e f : Pick) : Prop := ∃ m ∈ e.2, ∃ n ∈ f.2, m = n ∨ env.Renames m n

/-- two picks, one of which carries a concept that is computed from one of the other -/
def Computed (env : Environment) (g : ReferenceGraph) (e f : Pick) : Prop :=
  ∃ m ∈ g.neighbors e.1, ∃ n ∈ g.neighbors f.1, env.ReadsNode m n ∨ env.ReadsNode n m

/-- two picks that carry pseudonyms of each other, one of which is not contributed any more -/
def Spent (env : Environment) (g : ReferenceGraph) (e f : Pick) : Prop :=
  ∃ m ∈ g.neighbors e.1, ∃ n ∈ g.neighbors f.1, env.Renames m n ∧ (m ∉ e.2 ∨ n ∉ f.2)

instance (env : Environment) (e f : Pick) : Decidable (Joined env e f) :=
  inferInstanceAs (Decidable (∃ m ∈ e.2, ∃ n ∈ f.2, m = n ∨ env.Renames m n))

instance (env : Environment) (g : ReferenceGraph) (e f : Pick) : Decidable (Computed env g e f) :=
  inferInstanceAs (Decidable (∃ m ∈ (g.neighbors e.1).toList, ∃ n ∈ (g.neighbors f.1).toList,
    env.ReadsNode m n ∨ env.ReadsNode n m))

instance (env : Environment) (g : ReferenceGraph) (e f : Pick) : Decidable (Spent env g e f) :=
  inferInstanceAs (Decidable (∃ m ∈ (g.neighbors e.1).toList, ∃ n ∈ (g.neighbors f.1).toList,
    env.Renames m n ∧ (m ∉ e.2 ∨ n ∉ f.2)))

/-- what links two chosen datasources in the graph of a match -/
inductive Linked (env : Environment) (g : ReferenceGraph) (e f : Pick) : Prop
  | joined : Joined env e f → Linked env g e f
  | computed : Computed env g e f → Linked env g e f
  | spent : Spent env g e f → Linked env g e f

theorem Linked.symm (h : Linked env g e f) : Linked env g f e := by
  cases h with
  | joined h =>
    obtain ⟨m, hm, n, hn, h⟩ := h
    exact .joined ⟨n, hn, m, hm, h.imp Eq.symm Environment.Renames.symm⟩
  | computed h =>
    obtain ⟨m, hm, n, hn, h⟩ := h
    exact .computed ⟨n, hn, m, hm, h.symm⟩
  | spent h =>
    obtain ⟨m, hm, n, hn, h, hdropped⟩ := h
    exact .spent ⟨n, hn, m, hm, h.symm, hdropped.symm⟩

/-- a chosen datasource carries a concept of the match, or everything that a datasource of it carries -/
structure Hosts (g : ReferenceGraph) (e : Pick) (n : GraphNode) : Prop where
  concept : n.isDatasource = false → n ∈ g.neighbors e.1
  datasource : n.isDatasource = true → ∀ m ∈ g.neighbors n, m ∈ g.neighbors e.1

theorem concepts_of_lineage (h : env.ReadsNode m n ∨ env.ReadsNode n m) :
    m.isDatasource = false ∧ n.isDatasource = false := by
  rcases h with ⟨_, _, _, _, _, _, _, rfl, rfl⟩ | ⟨_, _, _, _, _, _, _, rfl, rfl⟩
  · exact ⟨rfl, rfl⟩
  · exact ⟨rfl, rfl⟩

theorem concepts_of_renames (h : env.Renames m n) : m.isDatasource = false ∧ n.isDatasource = false := by
  obtain ⟨_, _, _, _, _, _, _, _, rfl, rfl⟩ := h
  exact ⟨rfl, rfl⟩

/-- a datasource has edges with concepts alone -/
theorem Shaped.declared_of_neighbor (hg : Shaped env g) (hd : d.isDatasource = true) (hn : n ∈ g.neighbors d) :
    Declared env n := by
  cases hg.beside hn with
  | serves _ hn => exact hn
  | served hm _ => exact nomatch hd.symm.trans hm.isDatasource
  | lineage h => exact nomatch hd.symm.trans (concepts_of_lineage h).1
  | pseudonym h => exact nomatch hd.symm.trans (concepts_of_renames h).1

/-- all concepts of a datasource are carried by a chosen one -/
theorem exists_host_of_datasource (hk : env.Keyed) (hg : Matched env g) (hd : d ∈ g.nodes)
    (hds : d.isDatasource = true) :
    ∃ e ∈ chosen g targets condition, ∀ m ∈ g.neighbors d, m ∈ g.neighbors e.1 := by
  obtain ⟨p, hp, hkept, hwithin⟩ := exists_kept
    (List.mem_map_of_mem (f := offerOf g condition) (List.mem_filter.2 ⟨hd, hds⟩))
  have hp' : p ∈ keptOffers g condition := List.mem_filter.2 ⟨hp, hkept⟩
  obtain ⟨hpnode, heq⟩ := mem_keptOffers hp'
  refine ⟨(p.node, (g.neighbors p.node).toList.filter fun n =>
    !(usedOnce targets (keptOffers g condition)).contains n), mem_chosen.2 ⟨heq ▸ hp', rfl⟩, fun m hm => ?_⟩
  -- the kept one has the address, and an address has one node
  have hdeclared := hg.shaped.declared_of_neighbor hds hm
  obtain ⟨a, ha⟩ := hdeclared.exists_address
  have hconcept := (Offer.isWithin_iff.1 hwithin).2 a (mem_concepts_offerOf.2 ⟨m, hm, ha⟩)
  rw [heq] at hconcept
  obtain ⟨m', hm', ha'⟩ := mem_concepts_offerOf.1 hconcept
  have hdeclared' := hg.shaped.declared_of_neighbor (List.mem_filter.1 hpnode).2 hm'
  rwa [hdeclared.eq_of_address hk hdeclared' (ha.trans ha'.symm)]

/-- **every node of a match has a host among the chosen datasources** -/
theorem exists_host (hk : env.Keyed) (hg : Matched env g) (hn : n ∈ g.nodes) :
    ∃ e ∈ chosen g targets condition, Hosts g e n := by
  cases hds : n.isDatasource with
  | true =>
    obtain ⟨e, he, hcarries⟩ := exists_host_of_datasource hk hg hn hds
    exact ⟨e, he, fun h => (nomatch hds.symm.trans h), fun _ => hcarries⟩
  | false =>
    obtain ⟨d, hd, hdn⟩ := hg.carried n hn
    rw [hds] at hdn
    obtain ⟨e, he, hcarries⟩ := exists_host_of_datasource hk hg (hg.wellFormed.neighbor hd) hdn
    exact ⟨e, he, fun _ => hcarries n (mem_neighbors_comm.1 hd), fun h => nomatch hds.symm.trans h⟩

section Picks

variable (he : e ∈ chosen g targets condition) (hf : f ∈ chosen g targets condition)

include he hf

/-- a concept that two chosen datasources carry is contributed by both -/
theorem joined_of_common (hne : n ∈ g.neighbors e.1) (hnf : n ∈ g.neighbors f.1) : e = f ∨ Joined env e f := by
  obtain ⟨heo, he⟩ := mem_chosen.1 he
  obtain ⟨hfo, hf⟩ := mem_chosen.1 hf
  by_cases hnode : e.1 = f.1
  · exact Or.inl (Prod.ext hnode (by rw [he, hf, hnode]))
  have hoffers : offerOf g condition e.1 ≠ offerOf g condition f.1 := fun h =>
    hnode (by simpa using congrArg Offer.node h)
  have hused : n ∉ usedOnce targets (keptOffers g condition) :=
    not_mem_usedOnce heo hfo hoffers (by rwa [neighbors_offerOf]) (by rwa [neighbors_offerOf])
  refine Or.inr ⟨n, ?_, n, ?_, Or.inl rfl⟩
  · rw [he]
    exact List.mem_filter.2 ⟨hne, SortedSet.not_contains_iff.2 hused⟩
  · rw [hf]
    exact List.mem_filter.2 ⟨hnf, SortedSet.not_contains_iff.2 hused⟩

/-- two hosts of one node are the same or joined -/
theorem joined_of_hosts (hg : Matched env g) (hn : n ∈ g.nodes) (hen : Hosts g e n) (hfn : Hosts g f n) :
    e = f ∨ Joined env e f := by
  cases hds : n.isDatasource with
  | true =>
    obtain ⟨m, hm, -⟩ := hg.carried n hn
    exact joined_of_common he hf (hen.datasource hds m hm) (hfn.datasource hds m hm)
  | false => exact joined_of_common he hf (hen.concept hds) (hfn.concept hds)

/-- **the hosts of neighbors are the same or linked** -/
theorem linked_of_neighbors (hg : Shaped env g) (hmn : n ∈ g.neighbors m) (hem : Hosts g e m) (hfn : Hosts g f n) :
    e = f ∨ Linked env g e f := by
  cases hg.beside hmn with
  | serves hm hn =>
    exact (joined_of_common he hf (hem.datasource hm n hmn) (hfn.concept hn.isDatasource)).imp_right .joined
  | served hm hn =>
    exact (joined_of_common he hf (hem.concept hm.isDatasource)
      (hfn.datasource hn m (mem_neighbors_comm.1 hmn))).imp_right .joined
  | lineage h =>
    obtain ⟨hm, hn⟩ := concepts_of_lineage h
    exact Or.inr (.computed ⟨m, hem.concept hm, n, hfn.concept hn, h⟩)
  | pseudonym h =>
    obtain ⟨hm, hn⟩ := concepts_of_renames h
    by_cases hboth : m ∈ e.2 ∧ n ∈ f.2
    · exact Or.inr (.joined ⟨m, hboth.1, n, hboth.2, Or.inr h⟩)
    · exact Or.inr (.spent ⟨m, hem.concept hm, n, hfn.concept hn, h, not_and_or.1 hboth⟩)

end Picks

/-- **the chosen datasources of a match are connected by their links** -/
theorem chosen_connected (hk : env.Keyed) (hg : Matched env g) :
    ConnectedBy (Linked env g) (chosen g targets condition) := by
  obtain ⟨root, hroot, hreach⟩ := hg.connected
  have hhost : ∀ {n}, n ∈ g.nodes → ∃ e ∈ chosen g targets condition, Hosts g e n := exists_host hk hg
  obtain ⟨r, hr, hrroot⟩ := hhost hroot
  -- along a path in the match, the host of each node is linked with that of the next
  have hchain : ∀ n, Reach.Reached (fun m => (g.neighbors m).toList) (.singleton root) n → n ∈ g.nodes ∧
      ∀ e ∈ chosen g targets condition, Hosts g e n → Chained (Linked env g) (chosen g targets condition) r e := by
    intro n hn
    induction hn with
    | start hn =>
      obtain rfl := SortedSet.mem_singleton.1 hn
      exact ⟨hroot, fun e he hen => .of_eq_or hr he ((joined_of_hosts hr he hg hroot hrroot hen).imp_right .joined)⟩
    | step _ hstep ih =>
      obtain ⟨hm, hchain⟩ := ih
      refine ⟨hg.wellFormed.neighbor hstep, fun e he hen => ?_⟩
      obtain ⟨f, hf, hfm⟩ := hhost hm
      have hlast : Chained (Linked env g) (chosen g targets condition) f e :=
        .of_eq_or hf he (linked_of_neighbors hf he hg.shaped hstep hfm hen)
      exact (hchain f hf hfm).trans hlast
  refine .of_root (r := r) Linked.symm fun e he => ?_
  obtain ⟨hnode, hds⟩ := List.mem_filter.1 (mem_keptOffers (mem_chosen.1 he).1).1
  rw [node_offerOf] at hnode hds
  exact (hchain e.1 (hreach e.1 hnode)).2 e he ⟨fun h => (nomatch hds.symm.trans h), fun _ m hm => hm⟩

end Match

namespace Direct

open Match ReferenceGraph

variable {env : Environment} {graph g : ReferenceGraph} {targets : List Concept} {acceptPartial : Bool}
  {condition : Option Condition}

/-- **What joins the datasources of a direct match.** They are connected by pairs that contribute one concept or
pseudonyms of each other, by pairs one of which carries a concept that is computed from one of the other, and by pairs
that carry pseudonyms of each other of which one was dropped. Where there are none of the last two, the datasources are
really joined. -/
theorem firstMatch_connected (henv : env.Closed) (hgraph : ofEnvironment env = .ok graph)
    (hmatch : firstMatch env graph targets acceptPartial condition = some g) :
    ConnectedBy (Linked env g) (chosen g targets condition) ∧
    ((∀ e ∈ chosen g targets condition, ∀ f ∈ chosen g targets condition,
        e ≠ f → ¬ Computed env g e f ∧ ¬ Spent env g e f) →
      ConnectedBy (Joined env) (chosen g targets condition)) := by
  obtain ⟨b, hmatch⟩ := exists_matching hmatch
  have hconnected : ConnectedBy (Linked env g) (chosen g targets condition) :=
    chosen_connected henv.keyed (matched_of_matching henv hgraph hmatch)
  refine ⟨hconnected, fun hnone => hconnected.mono fun e he f hf h => ?_⟩
  by_cases heq : e = f
  · exact Or.inl heq
  cases h with
  | joined h => exact Or.inr h
  | computed h => exact absurd h (hnone e he f hf heq).1
  | spent h => exact absurd h (hnone e he f hf heq).2

/-! ## Two environments -/

/-- what is chosen in the first match, and whether two datasources of it are linked by more than being joined -/
def picksOf (env : Environment) (targets : List Concept) : Option (List Pick × Bool) :=
  (ofEnvironment env).toOption.bind fun graph => (firstMatch env graph targets false none).map fun g =>
    (chosen g targets none, decide (∃ e ∈ chosen g targets none, ∃ f ∈ chosen g targets none,
      e ≠ f ∧ (Computed env g e f ∨ Spent env g e f)))

theorem exists_of_picksOf {picks : List Pick} {beyond : Bool} (h : picksOf env targets = some (picks, beyond)) :
    ∃ graph g, ofEnvironment env = .ok graph ∧ firstMatch env graph targets false none = some g ∧
      chosen g targets none = picks ∧ (beyond = false → ∀ e ∈ chosen g targets none, ∀ f ∈ chosen g targets none,
        e ≠ f → ¬ Computed env g e f ∧ ¬ Spent env g e f) := by
  obtain ⟨graph, hgraph, h⟩ := Option.bind_eq_some_iff.1 h
  obtain ⟨g, hmatch, h⟩ := Option.map_eq_some_iff.1 h
  refine ⟨graph, g, ok_of_toOption hgraph, hmatch, congrArg Prod.fst h, fun hbeyond e he f hf hne => ?_⟩
  have hnone := decide_eq_false_iff_not.1 ((congrArg Prod.snd h).trans hbeyond)
  exact not_or.1 fun hlinked => hnone ⟨e, he, f, hf, hne, hlinked⟩

/-- orders of customers, and names of customers -/
def sales : Environment :=
  ⟨.ofList [("local.order", .key "order" .integer), ("local.customer", .key "customer" .integer),
      ("local.name", .property "name" .string ["customer"])],
    .ofList [("orders", .ofColumns "orders" [.bind "order" "order", .bind "customer" "customer"] ["order"]),
      ("customers", .ofColumns "customers" [.bind "customer" "customer", .bind "name" "name"] ["customer"])]⟩

/-- orders and names of customers are joined on the customers -/
theorem firstMatch_connected_sales : sales.Closed ∧ ∃ graph g, ofEnvironment sales = .ok graph ∧
    firstMatch sales graph [.key "order" .integer, .property "name" .string ["customer"]] false none = some g ∧
    (chosen g [.key "order" .integer, .property "name" .string ["customer"]] none).map Prod.fst =
      [.datasource "customers", .datasource "orders"] ∧
    ConnectedBy (Joined sales) (chosen g [.key "order" .integer, .property "name" .string ["customer"]] none) := by
  have hclosed : sales.Closed := by decide
  have hpicks : picksOf sales [.key "order" .integer, .property "name" .string ["customer"]] = some
      ([(.datasource "customers", [.concept "local.customer" "Grain<local.customer>",
          .concept "local.name" "Grain<local.customer>"]),
        (.datasource "orders", [.concept "local.customer" "Grain<local.customer>",
          .concept "local.order" "Grain<local.order>"])], false) := by decide +kernel
  obtain ⟨graph, g, hgraph, hmatch, hchosen, hnone⟩ := exists_of_picksOf hpicks
  refine ⟨hclosed, graph, g, hgraph, hmatch, ?_, (firstMatch_connected hclosed hgraph hmatch).2 (hnone rfl)⟩
  rw [hchosen]
  rfl

/-- clients are customers by another name, and the orders are kept twice -/
def copies : Environment :=
  ⟨.ofList [("local.order", .key "order" .integer),
      ("local.customer", { Concept.key "customer" .integer with pseudonyms := .ofList ["local.client"] }),
      ("local.client", { Concept.key "client" .integer with pseudonyms := .ofList ["local.customer"] })],
    .ofList [("orders", .ofColumns "orders" [.bind "order" "order", .bind "customer" "customer"] ["order"]),
      ("archive", .ofColumns "archive" [.bind "order" "order", .bind "customer" "customer"] ["order"]),
      ("clients", .ofColumns "clients" [.bind "client" "client"] ["client"])]⟩

/-- **Both keep the customers of the orders, so these are shared and lead to the clients. Once one of the two was left
out, nothing is left to join the orders with the clients on.** -/
theorem copies_not_joined : copies.Closed ∧ ∃ graph g, ofEnvironment copies = .ok graph ∧
    firstMatch copies graph [.key "order" .integer, .key "client" .integer] false none = some g ∧
    chosen g [.key "order" .integer, .key "client" .integer] none =
      [(.datasource "archive", [.concept "local.order" "Grain<local.order>"]),
        (.datasource "clients", [.concept "local.client" "Grain<local.client>"])] ∧
    ¬ ConnectedBy (Joined copies) (chosen g [.key "order" .integer, .key "client" .integer] none) := by
  have hpicks : picksOf copies [.key "order" .integer, .key "client" .integer] = some
      ([(.datasource "archive", [.concept "local.order" "Grain<local.order>"]),
        (.datasource "clients", [.concept "local.client" "Grain<local.client>"])], true) := by decide +kernel
  obtain ⟨graph, g, hgraph, hmatch, hchosen, -⟩ := exists_of_picksOf hpicks
  refine ⟨by decide, graph, g, hgraph, hmatch, hchosen, fun h => ?_⟩
  rw [hchosen] at h
  rcases h.pair with h | h
  · exact absurd h (by decide)
  · exact absurd h (by decide)

end Direct

end SemanticPlanner
