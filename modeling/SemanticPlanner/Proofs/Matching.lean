/-
What a match of datasources covers.

  WellFormed            edges join nodes of the graph, and every datasource node has its datasource
  wellFormed_ofEnvironment
                        the reference graph of an environment is well-formed, and so is every graph cut from one
  mem_component         a component has the neighbors of its nodes
  matching_covers       the piece of a match links every target with one of its datasources
  exists_kept           an offer that is not kept is within one that is
  chosen_covers         every target is among the concepts of a chosen datasource

A match is cut from the reference graph and asks for one component that covers the targets. Leaving out the offers that
another one beats loses no target, as the best of those that have all of an offer is kept.
-/
import SemanticPlanner.Proofs.Reach
import SemanticPlanner.Proofs.Rules
import SemanticPlanner.Sourcing.Match

namespace SemanticPlanner

/-- a fold that can fail keeps what each of its steps keeps -/
theorem foldlM_keeps {α β ε : Type} {P : β → Prop} {step : β → α → Except ε β} {l : List α} {b b' : β}
    (h : l.foldlM step b = .ok b') (hb : P b) (hstep : ∀ b x b', P b → step b x = .ok b' → P b') : P b' := by
  induction l generalizing b with
  | nil =>
    cases h
    exact hb
  | cons x l ih =>
    rw [List.foldlM_cons] at h
    obtain ⟨c, hc, h⟩ := Resolve.bind_eq_ok h
    exact ih h (hstep b x c hb hc)

theorem SortedMap.get?_filter {κ ν : Type} [Sorts κ] {m : SortedMap κ ν} {keep : κ → ν → Bool} {k : κ} {v : ν} :
    (m.filter keep).get? k = some v ↔ m.get? k = some v ∧ keep k v = true := by
  rw [get?_eq_some_iff, get?_eq_some_iff, filter, List.mem_filter]

/-- a list that is not empty has a first item by a key -/
theorem exists_least {α β : Type} [Sorts β] (key : α → β) {l : List α} (hl : l ≠ []) :
    ∃ m ∈ l, ∀ x ∈ l, sortsLE (key m) (key x) = true := by
  have hself : ∀ a : α, sortsLE (key a) (key a) = true := fun a => by rw [sortsLE, Sorts.irrefl, Bool.not_false]
  induction l with
  | nil => exact absurd rfl hl
  | cons a l ih =>
    by_cases hnil : l = []
    · subst hnil
      exact ⟨a, List.mem_cons_self, fun x hx => List.mem_singleton.1 hx ▸ hself a⟩
    obtain ⟨m, hm, hleast⟩ := ih hnil
    cases hle : sortsLE (key a) (key m) with
    | true => exact ⟨a, List.mem_cons_self, List.forall_mem_cons.2 ⟨hself a, fun x hx => sortsLE_trans hle (hleast x hx)⟩⟩
    | false =>
      refine ⟨m, List.mem_cons_of_mem _ hm, List.forall_mem_cons.2 ⟨?_, hleast⟩⟩
      rw [sortsLE, Bool.not_eq_false'] at hle
      rw [sortsLE, Sorts.asymm hle, Bool.not_false]

namespace ReferenceGraph

variable {g graph : ReferenceGraph} {a b n : GraphNode}

/-! ## Nodes -/

theorem mem_conceptNodes : n ∈ g.conceptNodes ↔ n ∈ g.nodes ∧ n.isDatasource = false := by
  rw [conceptNodes, List.mem_filter, GraphNode.isDatasource, Bool.not_eq_false']
  rfl

theorem isDatasource_of_address {x : String} (h : n.address? = some x) : n.isDatasource = false := by
  cases n with
  | concept => rfl
  | datasource => cases h

/-! ## Well-formed graphs -/

/-- a datasource node has its datasource -/
def Backs (g : ReferenceGraph) (n : GraphNode) : Prop := n.isDatasource = true → (g.sources.get? n).isSome = true

structure WellFormed (g : ReferenceGraph) : Prop where
  ends : ∀ e ∈ g.edges, e.1 ∈ g.nodes ∧ e.2 ∈ g.nodes
  backs : ∀ n ∈ g.nodes, g.Backs n

theorem backs_ofConcept (g : ReferenceGraph) (c : Concept) : g.Backs (GraphNode.ofConcept c) := fun h => by cases h

theorem addEdge_of_ne (g : ReferenceGraph) (h : a ≠ b) :
    g.addEdge a b = { g with nodes := (g.nodes.insert a).insert b, edges := g.edges.insert (a, b) } := if_neg h

@[simp] theorem sources_addEdge (g : ReferenceGraph) (a b : GraphNode) : (g.addEdge a b).sources = g.sources := by
  rw [addEdge]
  split <;> rfl

namespace WellFormed

theorem empty : ReferenceGraph.empty.WellFormed :=
  ⟨fun _ h => absurd h (SortedSet.not_mem_empty _), fun _ h => absurd h (SortedSet.not_mem_empty _)⟩

theorem neighbor (hg : g.WellFormed) (h : b ∈ g.neighbors a) : b ∈ g.nodes := by
  rcases mem_neighbors.1 h with h | h
  · exact (hg.ends _ h).2
  · exact (hg.ends _ h).1

theorem addConcept (hg : g.WellFormed) (c : Concept) : (g.addConcept c).WellFormed := by
  refine ⟨fun e he => ?_, fun n hn => ?_⟩
  · exact ⟨SortedSet.mem_insert.2 (Or.inr (hg.ends e he).1), SortedSet.mem_insert.2 (Or.inr (hg.ends e he).2)⟩
  · rcases SortedSet.mem_insert.1 hn with rfl | hn
    · exact backs_ofConcept _ c
    · exact hg.backs n hn

theorem backs_addSource (g : ReferenceGraph) (s : GraphSource) (h : g.Backs n) : (g.addSource s).Backs n := by
  intro hd
  show ((g.sources.insert (.datasource s.name) s).get? n).isSome = true
  rw [SortedMap.get?_insert]
  split
  · rfl
  · exact h hd

theorem backs_source (g : ReferenceGraph) (s : GraphSource) : (g.addSource s).Backs (.datasource s.name) := by
  intro _
  show ((g.sources.insert (.datasource s.name) s).get? _).isSome = true
  rw [SortedMap.get?_insert, if_pos rfl]
  rfl

theorem addSource (hg : g.WellFormed) (s : GraphSource) : (g.addSource s).WellFormed := by
  refine ⟨fun e he => ?_, fun n hn => ?_⟩
  · exact ⟨SortedSet.mem_insert.2 (Or.inr (hg.ends e he).1), SortedSet.mem_insert.2 (Or.inr (hg.ends e he).2)⟩
  · rcases SortedSet.mem_insert.1 hn with rfl | hn
    · exact backs_source g s
    · exact backs_addSource g s (hg.backs n hn)

theorem addEdge (hg : g.WellFormed) (ha : g.Backs a) (hb : g.Backs b) : (g.addEdge a b).WellFormed := by
  by_cases hab : a = b
  · rw [ReferenceGraph.addEdge, if_pos hab]
    exact hg
  rw [addEdge_of_ne g hab]
  have hold : ∀ {n}, n ∈ g.nodes → n ∈ (g.nodes.insert a).insert b := fun hn =>
    SortedSet.mem_insert.2 (Or.inr (SortedSet.mem_insert.2 (Or.inr hn)))
  refine ⟨fun e he => ?_, fun n hn => ?_⟩
  · rcases SortedSet.mem_insert.1 he with rfl | he
    · exact ⟨SortedSet.mem_insert.2 (Or.inr (SortedSet.mem_insert.2 (Or.inl rfl))), SortedSet.mem_insert.2 (Or.inl rfl)⟩
    · exact ⟨hold (hg.ends e he).1, hold (hg.ends e he).2⟩
  · rcases SortedSet.mem_insert.1 hn with rfl | hn
    · exact hb
    · rcases SortedSet.mem_insert.1 hn with rfl | hn
      · exact ha
      · exact hg.backs n hn

theorem addBoth (hg : g.WellFormed) (ha : g.Backs a) (hb : g.Backs b) : (g.addBoth a b).WellFormed := by
  refine (hg.addEdge ha hb).addEdge ?_ ?_
  · rw [Backs, sources_addEdge]
    exact hb
  · rw [Backs, sources_addEdge]
    exact ha

theorem addPseudonym (hg : g.WellFormed) (ha : g.Backs a) (hb : g.Backs b) : (g.addPseudonym a b).WellFormed := by
  rw [ReferenceGraph.addPseudonym]
  split
  · exact hg
  · exact ⟨(hg.addBoth ha hb).ends, (hg.addBoth ha hb).backs⟩

theorem removeEdge (hg : g.WellFormed) (a b : GraphNode) : (g.removeEdge a b).WellFormed :=
  ⟨fun e he => hg.ends e (SortedSet.mem_erase.1 he).1, hg.backs⟩

theorem removeNode (hg : g.WellFormed) (n : GraphNode) : (g.removeNode n).WellFormed := by
  refine ⟨fun e he => ?_, fun m hm hd => ?_⟩
  · obtain ⟨he, hne⟩ := SortedSet.mem_filter.1 he
    simp only [Bool.and_eq_true, bne_iff_ne] at hne
    exact ⟨SortedSet.mem_erase.2 ⟨(hg.ends e he).1, hne.1⟩, SortedSet.mem_erase.2 ⟨(hg.ends e he).2, hne.2⟩⟩
  · obtain ⟨hm, hne⟩ := SortedSet.mem_erase.1 hm
    show ((g.sources.erase n).get? m).isSome = true
    rw [SortedMap.get?_erase, if_neg hne]
    exact hg.backs m hm hd

theorem subgraph (hg : g.WellFormed) (keep : SortedSet GraphNode) : (g.subgraph keep).WellFormed := by
  refine ⟨fun e he => ?_, fun m hm hd => ?_⟩
  · obtain ⟨he, hkeep⟩ := SortedSet.mem_filter.1 he
    simp only [Bool.and_eq_true, SortedSet.contains_iff] at hkeep
    exact ⟨SortedSet.mem_inter.2 ⟨(hg.ends e he).1, hkeep.1⟩, SortedSet.mem_inter.2 ⟨(hg.ends e he).2, hkeep.2⟩⟩
  · obtain ⟨hm, hkeep⟩ := SortedSet.mem_inter.1 hm
    obtain ⟨s, hs⟩ := Option.isSome_iff_exists.1 (hg.backs m hm hd)
    refine Option.isSome_iff_exists.2 ⟨s, SortedMap.get?_filter.2 ⟨hs, ?_⟩⟩
    rw [SortedSet.contains_iff.2 hm, SortedSet.contains_iff.2 hkeep]
    rfl

theorem pruneSources (hg : g.WellFormed) (acceptPartial : Bool) (condition : Option Condition) :
    (g.pruneSources acceptPartial condition).WellFormed :=
  List.foldlRecOn _ _ hg fun _ hg n _ => hg.removeNode n

end WellFormed

/-! ## The graph of an environment -/

theorem wellFormed_follow {env : Environment} {fuel : Nat} {below : List String} {d d' : Draft} {c : Concept}
    (h : follow env fuel below d c = .ok d') (hd : d.graph.WellFormed) : d'.graph.WellFormed := by
  induction fuel generalizing below d d' c with
  | zero =>
    cases h
    exact hd
  | succ fuel ih =>
    rw [follow] at h
    split at h
    · cases h
    dsimp only at h
    split at h
    · cases h
      exact hd
    obtain ⟨b, hb, h⟩ := Resolve.bind_eq_ok h
    have hb : b.graph.WellFormed := by
      refine foldlM_keeps (P := fun b : Draft => b.graph.WellFormed) hb (hd.addConcept c) fun b x b' hg hstep => ?_
      split at hstep
      · cases hstep
      obtain ⟨source, -, hstep⟩ := Resolve.bind_eq_ok hstep
      obtain ⟨followed, hf, hstep⟩ := Resolve.bind_eq_ok hstep
      cases hstep
      exact (ih hf hg).addEdge (backs_ofConcept _ _) (backs_ofConcept _ _)
    refine foldlM_keeps (P := fun b : Draft => b.graph.WellFormed) h hb fun b x b' hg hstep => ?_
    split at hstep
    · cases hstep
    split at hstep
    · cases hstep
      exact hg
    split at hstep
    · cases hstep
      exact hg
    · exact ih hstep (hg.addPseudonym (backs_ofConcept _ _) (backs_ofConcept _ _))

theorem wellFormed_attach {env : Environment} {d : Datasource} {g' : ReferenceGraph} (h : attach env g d = .ok g')
    (hg : g.WellFormed) : g'.WellFormed := by
  refine (foldlM_keeps (P := fun g : ReferenceGraph => g.WellFormed ∧ g.Backs (.datasource d.identifier)) h
    ⟨hg.addSource _, WellFormed.backs_source g (.single d)⟩ fun g x g' hg hstep => ?_).1
  obtain ⟨c, -, hstep⟩ := Resolve.bind_eq_ok hstep
  cases hstep
  refine ⟨(hg.1.addConcept c).addBoth hg.2 (backs_ofConcept _ c), ?_⟩
  rw [Backs, addBoth, sources_addEdge, sources_addEdge]
  exact hg.2

theorem wellFormed_ofEnvironment {env : Environment} (h : ofEnvironment env = .ok g) : g.WellFormed := by
  obtain ⟨b, hb, h⟩ := Resolve.bind_eq_ok h
  refine foldlM_keeps h ?_ fun _ _ _ hg hstep => wellFormed_attach hstep hg
  exact foldlM_keeps (P := fun b : Draft => b.graph.WellFormed) hb .empty fun _ _ _ hg hstep => wellFormed_follow hstep hg

/-! ## Components -/

theorem mem_component {m : GraphNode} (hg : g.WellFormed) (hn : n ∈ g.nodes) (ha : a ∈ g.component n)
    (hm : m ∈ g.neighbors a) : m ∈ g.component n := by
  refine Reach.grow_closed (l := g.nodes.toList) (fun x hx => ?_) (fun x _ y hy => hg.neighbor hy) ?_ a ha m hm
  · rw [SortedSet.mem_singleton.1 hx]
    exact hn
  · show g.nodes.size ≤ _
    omega

/-- every component is that of a node -/
theorem mem_componentsOf {l : List GraphNode} {found : List (SortedSet GraphNode)} {piece : SortedSet GraphNode}
    (h : piece ∈ g.componentsOf l found) : piece ∈ found ∨ ∃ n ∈ l, piece = g.component n := by
  induction l generalizing found with
  | nil => exact Or.inl h
  | cons n l ih =>
    rw [componentsOf] at h
    split at h
    · exact (ih h).imp_right fun ⟨m, hm, e⟩ => ⟨m, List.mem_cons_of_mem _ hm, e⟩
    · rcases ih h with h | ⟨m, hm, e⟩
      · rcases List.mem_append.1 h with h | h
        · exact Or.inl h
        · exact Or.inr ⟨n, List.mem_cons_self, List.mem_singleton.1 h⟩
      · exact Or.inr ⟨m, List.mem_cons_of_mem _ hm, e⟩

theorem mem_nodes_of_mem_piece {piece : SortedSet GraphNode} (hg : g.WellFormed) (hp : piece ∈ g.components)
    (ha : a ∈ piece) : a ∈ g.nodes := by
  rcases mem_componentsOf hp with h | ⟨n, hn, rfl⟩
  · cases h
  · induction Reach.reached_of_mem_grow ha with
    | start h => exact SortedSet.mem_singleton.1 h ▸ hn
    | step _ h _ => exact hg.neighbor h

/-- **a component has the neighbors of its nodes** -/
theorem neighbor_mem_piece {piece : SortedSet GraphNode} (hg : g.WellFormed) (hp : piece ∈ g.components) (ha : a ∈ piece)
    (hb : b ∈ g.neighbors a) : b ∈ piece := by
  rcases mem_componentsOf hp with h | ⟨n, hn, rfl⟩
  · cases h
  · exact mem_component hg hn ha hb

end ReferenceGraph

namespace Match

open ReferenceGraph

variable {env : Environment} {graph g : ReferenceGraph} {targets : List Concept} {acceptPartial : Bool}
  {condition : Option Condition}

/-! ## The graph of a match -/

theorem wellFormed_addUnion (hg : g.WellFormed) (group : List Datasource) : (addUnion env g group).WellFormed := by
  let node := GraphNode.datasource (GraphSource.unionName group)
  refine (List.foldlRecOn (motive := fun g : ReferenceGraph => g.WellFormed ∧ g.Backs node) _ _
    ⟨hg.addSource _, WellFormed.backs_source g (.union group)⟩ fun g hg c _ => ?_).1
  refine ⟨hg.1.addBoth hg.2 (backs_ofConcept _ c), ?_⟩
  rw [Backs, addBoth, sources_addEdge, sources_addEdge]
  exact hg.2

theorem wellFormed_dropPartials (hg : g.WellFormed) : (dropPartials env condition g).WellFormed := by
  refine List.foldlRecOn _ _ hg fun g hg e _ => ?_
  exact List.foldlRecOn _ _ hg fun g hg c _ => (hg.removeEdge _ _).removeEdge _ _

/-- a graph with edges put back between nodes that it has -/
structure Restores (g h : ReferenceGraph) : Prop where
  wellFormed : h.WellFormed
  nodes : ∀ n ∈ g.nodes, n ∈ h.nodes
  edges : ∀ e ∈ g.edges, e ∈ h.edges

theorem restores_restoreEdges {piece : SortedSet GraphNode} (hg : g.WellFormed) (hpiece : ∀ n ∈ piece, n ∈ g.nodes) :
    Restores g (restoreEdges graph piece g) := by
  refine List.foldlRecOn (motive := Restores g) _ _ ⟨hg, fun _ h => h, fun _ h => h⟩ fun h hh e he => ?_
  obtain ⟨-, he⟩ := List.mem_filter.1 he
  simp only [Bool.and_eq_true, SortedSet.contains_iff] at he
  have hbacks : ∀ n ∈ piece, h.Backs n := fun n hn => hh.wellFormed.backs n (hh.nodes n (hpiece n hn))
  refine ⟨hh.wellFormed.addEdge (hbacks _ he.1) (hbacks _ he.2), fun n hn => ?_, fun x hx => ?_⟩
  · rw [addEdge]
    split
    · exact hh.nodes n hn
    · exact SortedSet.mem_insert.2 (Or.inr (SortedSet.mem_insert.2 (Or.inr (hh.nodes n hn))))
  · rw [addEdge]
    split
    · exact hh.edges x hx
    · exact SortedSet.mem_insert.2 (Or.inr (hh.edges x hx))

/-- a datasource of the graph is linked with a node of the address -/
def Links (g : ReferenceGraph) (x : String) : Prop :=
  ∃ d ∈ g.sourceNodes, ∃ n ∈ g.neighbors d, n.address? = some x

/-- a component that covers the targets links all of them once it stands alone -/
theorem links_piece (graph : ReferenceGraph) {wanted : NameSet} {piece : SortedSet GraphNode} (hg : g.WellFormed)
    (hp : piece ∈ g.components) (hc : coversTargets g wanted piece = true) :
    (restoreEdges graph piece (g.subgraph piece)).WellFormed ∧
      ∀ x ∈ wanted, Links (restoreEdges graph piece (g.subgraph piece)) x := by
  have hnodes : ∀ n ∈ piece, n ∈ (g.subgraph piece).nodes := fun n hn =>
    SortedSet.mem_inter.2 ⟨mem_nodes_of_mem_piece hg hp hn, hn⟩
  have hr : Restores (g.subgraph piece) (restoreEdges graph piece (g.subgraph piece)) :=
    restores_restoreEdges (hg.subgraph piece) hnodes
  refine ⟨hr.wellFormed, fun x hx => ?_⟩
  obtain ⟨n, hn, hcovers⟩ := List.any_eq_true.1 (List.all_eq_true.1 hc x hx)
  rw [Bool.and_eq_true, beq_iff_eq] at hcovers
  obtain ⟨d, hd, hsource⟩ := List.any_eq_true.1 hcovers.2
  have hdp : d ∈ piece := neighbor_mem_piece hg hp hn hd
  have hkept : ∀ e ∈ g.edges, e.1 ∈ piece → e.2 ∈ piece →
      e ∈ (restoreEdges graph piece (g.subgraph piece)).edges := by
    intro e he h1 h2
    refine hr.edges e (SortedSet.mem_filter.2 ⟨he, ?_⟩)
    rw [SortedSet.contains_iff.2 h1, SortedSet.contains_iff.2 h2]
    rfl
  refine ⟨d, List.mem_filter.2 ⟨hr.nodes d (hnodes d hdp), hsource⟩, n, mem_neighbors.2 ?_, hcovers.1⟩
  rcases mem_neighbors.1 hd with he | he
  · exact Or.inr (hkept _ he hn hdp)
  · exact Or.inl (hkept _ he hdp hn)

theorem wellFormed_pruned (hg : graph.WellFormed) (groups : List (List Datasource)) :
    ((groups.foldl (addUnion env) graph).pruneSources acceptPartial condition).WellFormed :=
  WellFormed.pruneSources (List.foldlRecOn _ _ hg fun _ hg group _ => wellFormed_addUnion hg group) _ _

theorem wellFormed_served (hg : g.WellFormed) :
    (if acceptPartial then g else dropPartials env condition g).WellFormed := by
  split
  · exact hg
  · exact wellFormed_dropPartials hg

/-- **the graph of a match links every target with one of its datasources** -/
theorem matching_covers (hg : graph.WellFormed) (h : matching env graph targets acceptPartial condition = some g) :
    g.WellFormed ∧ ∀ x ∈ Concept.addresses targets, Links g x := by
  unfold matching at h
  extract_lets joined pruned wanted targetNodes served datasets shared cut at h
  have hserved : served.WellFormed := wellFormed_served (wellFormed_pruned hg _)
  split at h
  · rename_i piece hpiece
    have hmem : piece ∈ cut.components.filter (coversTargets cut wanted) := by
      rw [hpiece]
      exact List.mem_cons_self
    obtain ⟨hp, hc⟩ := List.mem_filter.1 hmem
    obtain ⟨hwf, hlinks⟩ := links_piece graph (hserved.subgraph _) hp hc
    dsimp only at h
    split at h
    · cases h
    · cases h
      exact ⟨hwf, fun x hx => hlinks x (SortedSet.mem_ofList.2 hx)⟩
  · cases h

/-! ## The choice of datasources -/

@[simp] theorem node_offerOf (g : ReferenceGraph) (condition : Option Condition) (d : GraphNode) :
    (offerOf g condition d).node = d := by
  rw [offerOf]
  split <;> rfl

@[simp] theorem neighbors_offerOf (g : ReferenceGraph) (condition : Option Condition) (d : GraphNode) :
    (offerOf g condition d).neighbors = (g.neighbors d).toList := by
  rw [offerOf]
  split <;> rfl

theorem mem_concepts_offerOf {d : GraphNode} {x : String} :
    x ∈ (offerOf g condition d).concepts ↔ ∃ n ∈ g.neighbors d, n.address? = some x := by
  rw [offerOf]
  split <;> exact SortedSet.mem_ofList.trans List.mem_filterMap

namespace Offer

variable {o p q : Offer}

theorem isWithin_iff : o.isWithin p = true ↔ (∀ x ∈ o.complete, x ∈ p.complete) ∧ ∀ x ∈ o.concepts, x ∈ p.concepts := by
  rw [isWithin, Bool.and_eq_true, SortedSet.isSubset_iff, SortedSet.isSubset_iff]

theorem isWithin_refl (o : Offer) : o.isWithin o = true := isWithin_iff.2 ⟨fun _ h => h, fun _ h => h⟩

theorem isWithin_trans (h : o.isWithin p = true) (h' : p.isWithin q = true) : o.isWithin q = true := by
  rw [isWithin_iff] at h h' ⊢
  exact ⟨fun x hx => h'.1 x (h.1 x hx), fun x hx => h'.2 x (h.2 x hx)⟩

/-- how much an offer has -/
def extent (o : Offer) : Nat := o.complete.size + o.concepts.size

theorem extent_lt (h : o.isBelow p = true) : o.extent < p.extent := by
  rw [isBelow, Bool.and_eq_true, decide_eq_true_eq, isWithin_iff] at h
  have := SortedSet.size_le_of_subset h.1.2
  simp only [extent]
  omega

theorem extent_eq (h : o.isEqualTo p = true) : o.isWithin p = true ∧ o.extent = p.extent := by
  simp only [isEqualTo, Bool.and_eq_true, beq_iff_eq] at h
  refine ⟨h.1.1, ?_⟩
  rw [extent, extent, h.1.2, h.2]

end Offer

/-- **every offer is within one that is kept**: the first by score among those that have all of it and most besides -/
theorem exists_kept {offers : List Offer} {o : Offer} (ho : o ∈ offers) :
    ∃ p ∈ offers, isKept offers p = true ∧ o.isWithin p = true := by
  have hne : offers.filter o.isWithin ≠ [] := List.ne_nil_of_mem (List.mem_filter.2 ⟨ho, o.isWithin_refl⟩)
  obtain ⟨p, hp, hleast⟩ := exists_least (fun p : Offer => (-(p.extent : Int), p.score)) hne
  obtain ⟨hp, hwithin⟩ := List.mem_filter.1 hp
  have hbest : ∀ q ∈ offers, p.isWithin q = true →
      q.extent ≤ p.extent ∧ (p.extent = q.extent → sortsLE p.score q.score = true) := by
    intro q hq hpq
    have hle := hleast q (List.mem_filter.2 ⟨hq, Offer.isWithin_trans hwithin hpq⟩)
    simp only [sortsLE, Sorts.before, Bool.not_eq_true', Bool.or_eq_false_iff, Bool.and_eq_false_iff] at hle ⊢
    simp only [decide_eq_false_iff_not] at hle ⊢
    refine ⟨by omega, fun he => ?_⟩
    rcases hle.2 with h | h
    · omega
    · exact h
  refine ⟨p, hp, ?_, hwithin⟩
  rw [isKept, Bool.and_eq_true, Bool.not_eq_true', List.any_eq_false, List.all_eq_true]
  constructor
  · intro q hq hbelow
    have hlt := Offer.extent_lt hbelow
    rw [Offer.isBelow, Bool.and_eq_true] at hbelow
    have := (hbest q (List.mem_filter.1 hq).1 hbelow.1).1
    omega
  · intro q hq
    obtain ⟨hq, hequal⟩ := List.mem_filter.1 hq
    obtain ⟨hpq, he⟩ := Offer.extent_eq hequal
    exact (hbest q (List.mem_filter.1 hq).1 hpq).2 he

/-- **every target is among the concepts of a chosen datasource** -/
theorem chosen_covers (condition : Option Condition) (hg : g.WellFormed)
    (hlinks : ∀ x ∈ Concept.addresses targets, Links g x) {x : String} (hx : x ∈ Concept.addresses targets) :
    ∃ e ∈ chosen g targets condition, (g.sources.get? e.1).isSome = true ∧ x ∈ e.2.filterMap GraphNode.address? := by
  obtain ⟨d, hd, n, hn, hxn⟩ := hlinks x hx
  obtain ⟨p, hp, hkept, hwithin⟩ := exists_kept (List.mem_map_of_mem (f := offerOf g condition) hd)
  obtain ⟨d', hd', rfl⟩ := List.mem_map.1 hp
  obtain ⟨n', hn', hxn'⟩ := mem_concepts_offerOf.1
    ((Offer.isWithin_iff.1 hwithin).2 x (mem_concepts_offerOf.2 ⟨n, hn, hxn⟩))
  obtain ⟨hmem, hsource⟩ := List.mem_filter.1 hd'
  refine ⟨_, List.mem_map_of_mem (List.mem_filter.2 ⟨hp, hkept⟩), ?_, List.mem_filterMap.2 ⟨n', ?_, hxn'⟩⟩
  · rw [node_offerOf]
    exact hg.backs d' hmem hsource
  · -- only concepts that are no targets are dropped
    rw [List.mem_filter, neighbors_offerOf, SortedSet.not_contains_iff]
    refine ⟨hn', fun hused => ?_⟩
    have hused := (List.mem_filter.1 (List.mem_filter.1 (SortedSet.mem_ofList.1 hused)).1).2
    rw [hxn', Option.any_some, SortedSet.not_contains_iff] at hused
    exact hused (SortedSet.mem_ofList.2 hx)

end Match

end SemanticPlanner
