/-
The reference graph of an environment, edge by edge.

  Links                 the edges a graph should have: to arguments, between pseudonyms, and between a datasource and
                        what it provides
  Sound                 nodes, edges and marks of the concepts in a graph are such
  Drawn                 a concept with all its edges
  Follows.sound, Follows.draws
                        following puts nothing else into the graph, and leaves every concept it has seen drawn
  attached_of_attach    attaching a datasource adds its node, and the edges between it and what it provides
  Shows                 a graph with exactly the nodes, edges and marks of an environment
  ofEnvironment_shows   the graph of an environment without cycles of lineage shows it

Two concepts that are linked both ways already are passed over. Without a cycle of lineage only a pseudonym links both
ways, so the edges that are passed over are marked.
-/
import SemanticPlanner.Proofs.Following

namespace SemanticPlanner

variable {env : Environment} {a x : String} {c d : Concept} {m n : GraphNode} {g h : ReferenceGraph} {l : List String}

namespace Environment

/-! ## What a graph should have -/

/-- the nodes of a concept and of one of its arguments -/
def ReadsNode (env : Environment) (m n : GraphNode) : Prop :=
  ∃ a b c d, env.find? a = some c ∧ env.find? b = some d ∧ b ∈ c.arguments ∧ m = .ofConcept c ∧ n = .ofConcept d

/-- the nodes of two concepts, one of which has the other one as a pseudonym -/
def Renames (env : Environment) (m n : GraphNode) : Prop :=
  ∃ a b c d, env.find? a = some c ∧ env.find? b = some d ∧ a ≠ b ∧ (b ∈ c.pseudonyms ∨ a ∈ d.pseudonyms) ∧
    m = .ofConcept c ∧ n = .ofConcept d

/-- the nodes of a datasource and of a concept that it provides -/
def Provides (env : Environment) (m n : GraphNode) : Prop :=
  ∃ i s a c, env.datasources.get? i = some s ∧ a ∈ s.outputs ∧ env.find? a = some c ∧
    m = .datasource i ∧ n = .ofConcept c

/-- the edges of the graph of an environment -/
inductive Links (env : Environment) (m n : GraphNode) : Prop
  | argument : env.ReadsNode m n → Links env m n
  | pseudonym : env.Renames m n → Links env m n
  | provides : env.Provides m n → Links env m n
  | provided : env.Provides n m → Links env m n

theorem Renames.symm (h : env.Renames m n) : env.Renames n m := by
  obtain ⟨a, b, c, d, hc, hd, hne, hpseud, hm, hn⟩ := h
  exact ⟨b, a, d, c, hd, hc, hne.symm, hpseud.symm, hn, hm⟩

/-- without a cycle of lineage, two concepts do not read each other -/
theorem ReadsNode.asymm (hk : env.Keyed) (hacyclic : ∀ a, ¬ env.DependsOn a a) (h : env.ReadsNode m n)
    (h' : env.ReadsNode n m) : False := by
  obtain ⟨a, b, c, d, hc, hd, hmem, rfl, rfl⟩ := h
  obtain ⟨a', b', c', d', hc', hd', hmem', hn, hm⟩ := h'
  obtain rfl := hk.eq_of_node hd hc' hn
  obtain rfl := hk.eq_of_node hc hd' hm
  obtain rfl : b = a' := (hk b d hd).symm.trans (hk a' d hc')
  obtain rfl : a = b' := (hk a c hc).symm.trans (hk b' c hd')
  exact hacyclic a (.tail (.single ⟨c, hc, hmem⟩) ⟨d, hd, hmem'⟩)

/-- a rank that falls from each concept to its arguments excludes cycles of lineage -/
theorem acyclic_of_rank (rank : String → Nat) (h : ∀ e ∈ env.concepts.toList, ∀ x ∈ e.2.arguments, rank x < rank e.1) :
    ∀ a, ¬ env.DependsOn a a := by
  refine not_transGen_self rank fun a x hreads => ?_
  obtain ⟨c, hc, hx⟩ := hreads
  exact h (a, c) (SortedMap.get?_eq_some_iff.1 hc) x hx

/-- the datasources of a closed environment, each under its own name -/
theorem Closed.exists_datasource (henv : env.Closed) {P : String → Datasource → Prop} :
    (∃ s ∈ env.datasources.values, P s.identifier s) ↔ ∃ i s, env.datasources.get? i = some s ∧ P i s := by
  constructor
  · rintro ⟨s, hs, h⟩
    obtain ⟨i, hi⟩ := SortedMap.mem_values.1 hs
    exact ⟨i, s, hi, henv.filed i s hi ▸ h⟩
  · rintro ⟨i, s, hi, h⟩
    exact ⟨s, SortedMap.mem_values.2 ⟨i, hi⟩, (henv.filed i s hi).symm ▸ h⟩

end Environment

namespace ReferenceGraph

/-! ## Changes of a graph -/

theorem addBoth_of_ne (g : ReferenceGraph) (h : m ≠ n) : g.addBoth m n =
    { g with
      nodes := (((g.nodes.insert m).insert n).insert n).insert m
      edges := (g.edges.insert (m, n)).insert (n, m) } := by
  rw [addBoth, addEdge_of_ne _ h, addEdge_of_ne _ h.symm]

theorem addPseudonym_of_ne (g : ReferenceGraph) (h : m ≠ n) : g.addPseudonym m n =
    { g.addBoth m n with pseudonyms := (g.pseudonyms.insert (m, n)).insert (n, m) } := by
  rw [addPseudonym, if_neg h]
  dsimp only
  rw [addBoth_of_ne _ h]

theorem mem_edges_addBoth (h : m ≠ n) {e : GraphNode × GraphNode} :
    e ∈ (g.addBoth m n).edges ↔ e ∈ g.edges ∨ e = (m, n) ∨ e = (n, m) := by
  rw [addBoth_of_ne g h]
  simp only [SortedSet.mem_insert]
  tauto

theorem mem_nodes_addBoth (h : m ≠ n) {k : GraphNode} :
    k ∈ (g.addBoth m n).nodes ↔ k ∈ g.nodes ∨ k = m ∨ k = n := by
  rw [addBoth_of_ne g h]
  simp only [SortedSet.mem_insert]
  tauto

theorem mem_pseudonyms_addPseudonym (h : m ≠ n) {e : GraphNode × GraphNode} :
    e ∈ (g.addPseudonym m n).pseudonyms ↔ e ∈ g.pseudonyms ∨ e = (m, n) ∨ e = (n, m) := by
  rw [addPseudonym_of_ne g h]
  simp only [SortedSet.mem_insert]
  tauto

theorem mem_edges_addPseudonym (h : m ≠ n) {e : GraphNode × GraphNode} :
    e ∈ (g.addPseudonym m n).edges ↔ e ∈ g.edges ∨ e = (m, n) ∨ e = (n, m) := by
  rw [addPseudonym_of_ne g h]
  exact mem_edges_addBoth h

theorem mem_nodes_addPseudonym (h : m ≠ n) {k : GraphNode} :
    k ∈ (g.addPseudonym m n).nodes ↔ k ∈ g.nodes ∨ k = m ∨ k = n := by
  rw [addPseudonym_of_ne g h]
  exact mem_nodes_addBoth h

theorem concepts_addPseudonym (h : m ≠ n) : (g.addPseudonym m n).concepts = g.concepts := by
  rw [addPseudonym_of_ne g h, addBoth_of_ne g h]

theorem ofConcept_ne (h : c.address ≠ d.address) : GraphNode.ofConcept c ≠ GraphNode.ofConcept d := fun he =>
  h (GraphNode.concept.inj he).1

/-- a graph has all that another one has -/
structure Grows (g h : ReferenceGraph) : Prop where
  nodes : ∀ n ∈ g.nodes, n ∈ h.nodes
  edges : ∀ e ∈ g.edges, e ∈ h.edges
  pseudonyms : ∀ e ∈ g.pseudonyms, e ∈ h.pseudonyms
  concepts : ∀ n, (g.concepts.get? n).isSome = true → (h.concepts.get? n).isSome = true

namespace Grows

theorem refl (g : ReferenceGraph) : Grows g g := ⟨fun _ h => h, fun _ h => h, fun _ h => h, fun _ h => h⟩

theorem trans {k : ReferenceGraph} (hg : Grows g h) (hh : Grows h k) : Grows g k :=
  ⟨fun n hn => hh.nodes n (hg.nodes n hn), fun e he => hh.edges e (hg.edges e he),
    fun e he => hh.pseudonyms e (hg.pseudonyms e he), fun n hn => hh.concepts n (hg.concepts n hn)⟩

theorem addConcept (g : ReferenceGraph) (c : Concept) : Grows g (g.addConcept c) := by
  refine ⟨fun n hn => SortedSet.mem_insert.2 (Or.inr hn), fun _ h => h, fun _ h => h, fun n hn => ?_⟩
  show ((g.concepts.insert (.ofConcept c) c).get? n).isSome = true
  rw [SortedMap.get?_insert]
  split
  · rfl
  · exact hn

theorem addEdge (g : ReferenceGraph) (h : m ≠ n) : Grows g (g.addEdge m n) := by
  rw [addEdge_of_ne g h]
  exact ⟨fun k hk => SortedSet.mem_insert.2 (Or.inr (SortedSet.mem_insert.2 (Or.inr hk))),
    fun e he => SortedSet.mem_insert.2 (Or.inr he), fun _ h => h, fun _ h => h⟩

theorem addPseudonym (g : ReferenceGraph) (h : m ≠ n) : Grows g (g.addPseudonym m n) where
  nodes _ hk := (mem_nodes_addPseudonym h).2 (Or.inl hk)
  edges _ he := (mem_edges_addPseudonym h).2 (Or.inl he)
  pseudonyms _ he := (mem_pseudonyms_addPseudonym h).2 (Or.inl he)
  concepts k hk := by rwa [concepts_addPseudonym h]

end Grows

variable {t : Task} {b b' : Draft}

theorem ne_of_argument {c d : Concept} (hk : env.Keyed) (hd : env.find? a = some d) (hne : a ≠ c.address) :
    GraphNode.ofConcept c ≠ GraphNode.ofConcept d :=
  ofConcept_ne fun h => hne ((hk a d hd).symm.trans h.symm)

theorem Follows.grows (hk : env.Keyed) (h : Follows env t b b') : Grows b.graph b'.graph := by
  induction h with
  | seen | noArgument | noPseudonym | noConcept => exact .refl _
  | entered _ _ _ _ ih₁ ih₂ => exact ((Grows.addConcept _ _).trans ih₁).trans ih₂
  | argument hne hd _ _ ih₁ ih₂ => exact (ih₁.trans (Grows.addEdge _ (ne_of_argument hk hd hne))).trans ih₂
  | passed _ _ _ ih => exact ih
  | pseudonym _ hne _ _ ih₁ ih₂ => exact ((Grows.addPseudonym _ (ofConcept_ne hne.symm)).trans ih₁).trans ih₂
  | next _ _ ih₁ ih₂ => exact ih₁.trans ih₂

/-! ## Nothing else is put into the graph -/

/-- nodes, edges and marks of a graph of concepts are those of the environment -/
structure Sound (env : Environment) (g : ReferenceGraph) : Prop where
  nodes : ∀ n ∈ g.nodes, ∃ a c, env.find? a = some c ∧ n = .ofConcept c
  concepts : ∀ n c, g.concepts.get? n = some c → env.find? c.address = some c ∧ n = .ofConcept c
  edges : ∀ m n, (m, n) ∈ g.edges → env.ReadsNode m n ∨ (m, n) ∈ g.pseudonyms
  marks : ∀ m n, (m, n) ∈ g.pseudonyms → env.Renames m n ∧ (m, n) ∈ g.edges ∧ (n, m) ∈ g.pseudonyms

namespace Sound

theorem empty (env : Environment) : Sound env .empty where
  nodes _ h := absurd h (SortedSet.not_mem_empty _)
  concepts _ _ h := by cases h
  edges _ _ h := absurd h (SortedSet.not_mem_empty _)
  marks _ _ h := absurd h (SortedSet.not_mem_empty _)

theorem addConcept (hg : Sound env g) (hc : env.find? c.address = some c) : Sound env (g.addConcept c) := by
  refine ⟨fun n hn => ?_, fun n e he => ?_, hg.edges, hg.marks⟩
  · rcases SortedSet.mem_insert.1 hn with rfl | hn
    · exact ⟨c.address, c, hc, rfl⟩
    · exact hg.nodes n hn
  · change (g.concepts.insert (.ofConcept c) c).get? n = some e at he
    rw [SortedMap.get?_insert] at he
    split at he
    · rename_i hn
      cases he
      exact ⟨hc, hn⟩
    · exact hg.concepts n e he

theorem addEdge (hg : Sound env g) (hreads : env.ReadsNode m n) (hne : m ≠ n) : Sound env (g.addEdge m n) := by
  obtain ⟨a, b, c, d, hc, hd, -, rfl, rfl⟩ := id hreads
  rw [addEdge_of_ne g hne]
  refine ⟨fun k hk => ?_, hg.concepts, fun k l he => ?_, fun k l he => ?_⟩
  · rcases SortedSet.mem_insert.1 hk with rfl | hk
    · exact ⟨b, d, hd, rfl⟩
    rcases SortedSet.mem_insert.1 hk with rfl | hk
    · exact ⟨a, c, hc, rfl⟩
    · exact hg.nodes k hk
  · rcases SortedSet.mem_insert.1 he with he | he
    · cases he
      exact Or.inl hreads
    · exact hg.edges k l he
  · obtain ⟨hrenames, hedge, hback⟩ := hg.marks k l he
    exact ⟨hrenames, SortedSet.mem_insert.2 (Or.inr hedge), hback⟩

theorem addPseudonym (hg : Sound env g) (hrenames : env.Renames m n) (hne : m ≠ n) :
    Sound env (g.addPseudonym m n) := by
  obtain ⟨a, b, c, d, hc, hd, -, -, rfl, rfl⟩ := id hrenames
  have hmarks := fun {e} => mem_pseudonyms_addPseudonym (g := g) hne (e := e)
  have hedges := fun {e} => mem_edges_addPseudonym (g := g) hne (e := e)
  refine ⟨fun k hk => ?_, fun k e he => ?_, fun k l he => ?_, fun k l he => ?_⟩
  · rcases (mem_nodes_addPseudonym hne).1 hk with hk | rfl | rfl
    · exact hg.nodes k hk
    · exact ⟨a, c, hc, rfl⟩
    · exact ⟨b, d, hd, rfl⟩
  · rw [concepts_addPseudonym hne] at he
    exact hg.concepts k e he
  · rcases hedges.1 he with he | he
    · exact (hg.edges k l he).imp_right fun hmark => hmarks.2 (Or.inl hmark)
    · exact Or.inr (hmarks.2 (Or.inr he))
  · rcases hmarks.1 he with he | he | he
    · obtain ⟨hkl, hedge, hback⟩ := hg.marks k l he
      exact ⟨hkl, hedges.2 (Or.inl hedge), hmarks.2 (Or.inl hback)⟩
    · cases he
      exact ⟨hrenames, hedges.2 (Or.inr (Or.inl rfl)), hmarks.2 (Or.inr (Or.inr rfl))⟩
    · cases he
      exact ⟨hrenames.symm, hedges.2 (Or.inr (Or.inr rfl)), hmarks.2 (Or.inr (Or.inl rfl))⟩

theorem link (hk : env.Keyed) (hb : Sound env b.graph) (hc : env.find? c.address = some c) (hd : env.find? a = some d)
    (ha : a ∈ c.arguments) (hne : a ≠ c.address) : Sound env (b.link c d).graph :=
  hb.addEdge ⟨c.address, a, c, d, hc, hd, ha, rfl, rfl⟩ (ne_of_argument hk hd hne)

theorem join (hk : env.Keyed) (hb : Sound env b.graph) (hc : env.find? c.address = some c) (hd : env.find? a = some d)
    (ha : a ∈ c.pseudonyms) (hne : d.address ≠ c.address) : Sound env (b.join c d).graph := by
  have haddress : d.address = a := hk a d hd
  exact hb.addPseudonym ⟨c.address, a, c, d, hc, hd, haddress ▸ hne.symm, Or.inl ha, rfl, rfl⟩ (ofConcept_ne hne.symm)

/-- without a cycle of lineage, edges both ways are marked -/
theorem mark_of_linked (hk : env.Keyed) (hacyclic : ∀ a, ¬ env.DependsOn a a) (hg : Sound env g)
    (h : (m, n) ∈ g.edges) (h' : (n, m) ∈ g.edges) : (m, n) ∈ g.pseudonyms := by
  rcases hg.edges m n h with hreads | hmark
  · rcases hg.edges n m h' with hreads' | hmark
    · exact absurd hreads' fun hreads' => hreads.asymm hk hacyclic hreads'
    · exact (hg.marks n m hmark).2.2
  · exact hmark

end Sound

/-- a task is about declared concepts and what they name -/
def Task.Fits (env : Environment) : Task → Prop
  | .concept _ c => env.find? c.address = some c
  | .arguments _ c l => env.find? c.address = some c ∧ ∀ x ∈ l, x ∈ c.arguments
  | .pseudonyms c l => env.find? c.address = some c ∧ ∀ x ∈ l, x ∈ c.pseudonyms
  | .concepts cs => ∀ c ∈ cs, env.find? c.address = some c

/-- **following puts nothing else into the graph** -/
theorem Follows.sound (hk : env.Keyed) (h : Follows env t b b') (ht : t.Fits env) (hb : Sound env b.graph) :
    Sound env b'.graph := by
  induction h with
  | seen | noArgument | noPseudonym | noConcept => exact hb
  | entered _ _ _ _ ih₁ ih₂ => exact ih₂ ⟨ht, fun _ h => h⟩ (ih₁ ⟨ht, fun _ h => h⟩ (hb.addConcept ht))
  | @argument below c d a l b b₁ b₂ hne hd _ _ ih₁ ih₂ =>
    obtain ⟨hc, hl⟩ := ht
    obtain ⟨ha, hl⟩ := List.forall_mem_cons.1 hl
    exact ih₂ ⟨hc, hl⟩ ((ih₁ (hk.find?_address hd) hb).link hk hc hd ha hne)
  | passed _ _ _ ih => exact ih ⟨ht.1, (List.forall_mem_cons.1 ht.2).2⟩ hb
  | @pseudonym c d a l b b₁ b₂ hd hne _ _ ih₁ ih₂ =>
    obtain ⟨hc, hl⟩ := ht
    obtain ⟨ha, hl⟩ := List.forall_mem_cons.1 hl
    exact ih₂ ⟨hc, hl⟩ (ih₁ (hk.find?_address hd) (hb.join hk hc hd ha hne))
  | next _ _ ih₁ ih₂ =>
    obtain ⟨hc, hcs⟩ := List.forall_mem_cons.1 ht
    exact ih₂ hcs (ih₁ hc hb)

/-! ## Nothing is missed -/

/-- a concept has an edge to each of these arguments -/
def DrawsArguments (env : Environment) (g : ReferenceGraph) (c : Concept) (l : List String) : Prop :=
  ∀ x ∈ l, ∀ d, env.find? x = some d → (.ofConcept c, .ofConcept d) ∈ g.edges

/-- a concept is marked with each of these pseudonyms, unless it is one of itself -/
def DrawsPseudonyms (env : Environment) (g : ReferenceGraph) (c : Concept) (l : List String) : Prop :=
  ∀ x ∈ l, ∀ d, env.find? x = some d → d.address ≠ c.address → (.ofConcept c, .ofConcept d) ∈ g.pseudonyms

/-- a concept with all its edges -/
structure Drawn (env : Environment) (g : ReferenceGraph) (c : Concept) : Prop where
  node : .ofConcept c ∈ g.nodes
  concept : (g.concepts.get? (.ofConcept c)).isSome = true
  arguments : DrawsArguments env g c c.arguments
  pseudonyms : DrawsPseudonyms env g c c.pseudonyms.toList

theorem Drawn.grow (hc : Drawn env g c) (hg : Grows g h) : Drawn env h c :=
  ⟨hg.nodes _ hc.node, hg.concepts _ hc.concept, fun x hx d hd => hg.edges _ (hc.arguments x hx d hd),
    fun x hx d hd hne => hg.pseudonyms _ (hc.pseudonyms x hx d hd hne)⟩

theorem DrawsArguments.grow (hl : DrawsArguments env g c l) (hg : Grows g h) : DrawsArguments env h c l :=
  fun x hx d hd => hg.edges _ (hl x hx d hd)

theorem DrawsArguments.cons (hd : env.find? a = some d) (he : (.ofConcept c, .ofConcept d) ∈ g.edges)
    (hl : DrawsArguments env g c l) : DrawsArguments env g c (a :: l) := by
  refine List.forall_mem_cons.2 ⟨fun e hfind => ?_, hl⟩
  obtain rfl := Option.some.inj (hd.symm.trans hfind)
  exact he

theorem DrawsPseudonyms.cons (hd : env.find? a = some d)
    (he : d.address ≠ c.address → (.ofConcept c, .ofConcept d) ∈ g.pseudonyms) (hl : DrawsPseudonyms env g c l) :
    DrawsPseudonyms env g c (a :: l) := by
  refine List.forall_mem_cons.2 ⟨fun e hfind => ?_, hl⟩
  obtain rfl := Option.some.inj (hd.symm.trans hfind)
  exact he

/-- a concept that was entered is drawn once its edges are -/
theorem Drawn.of_entered {b : Draft} (hg : Grows (b.enter c).graph g) (harguments : DrawsArguments env g c c.arguments)
    (hpseudonyms : DrawsPseudonyms env g c c.pseudonyms.toList) : Drawn env g c where
  node := hg.nodes _ (SortedSet.mem_insert.2 (Or.inl rfl))
  concept := by
    refine hg.concepts _ ?_
    show ((b.graph.concepts.insert (.ofConcept c) c).get? (.ofConcept c)).isSome = true
    rw [SortedMap.get?_insert, if_pos rfl]
    rfl
  arguments := harguments
  pseudonyms := hpseudonyms

/-- what a task adds to the graph for its own concept -/
def Task.Draws (env : Environment) (g : ReferenceGraph) : Task → Prop
  | .arguments _ c l => DrawsArguments env g c l
  | .pseudonyms c l => DrawsPseudonyms env g c l
  | _ => True

/-- what is seen between two states has all its edges -/
def Completes (env : Environment) (b b' : Draft) : Prop :=
  ∀ a d, env.find? a = some d → b'.Sees d → b.Sees d ∨ Drawn env b'.graph d

theorem Completes.refl (env : Environment) (b : Draft) : Completes env b b := fun _ _ _ hsees => Or.inl hsees

theorem Completes.trans {b₁ b₂ : Draft} (h : Completes env b b₁) (h' : Completes env b₁ b₂)
    (hg : Grows b₁.graph b₂.graph) : Completes env b b₂ := by
  intro a d hd hsees
  rcases h' a d hd hsees with hsees | hdrawn
  · exact (h a d hd hsees).imp_right fun hdrawn => hdrawn.grow hg
  · exact Or.inr hdrawn

/-- a concept is seen as soon as it is entered, so it has to be drawn itself -/
theorem Completes.of_entered (hk : env.Keyed) (hc : env.find? c.address = some c) (h : Completes env (b.enter c) b')
    (hdrawn : Drawn env b'.graph c) : Completes env b b' := by
  intro a d hd hsees
  rcases h a d hd hsees with hsees | hdrawn'
  · rcases Draft.eq_or_sees_of_enter hk hc hd hsees with rfl | hsees
    · exact Or.inr hdrawn
    · exact Or.inl hsees
  · exact Or.inr hdrawn'

theorem edge_link (h : GraphNode.ofConcept c ≠ .ofConcept d) :
    (.ofConcept c, .ofConcept d) ∈ (b.link c d).graph.edges := by
  show _ ∈ (b.graph.addEdge _ _).edges
  rw [addEdge_of_ne _ h]
  exact SortedSet.mem_insert.2 (Or.inl rfl)

theorem mark_join (h : GraphNode.ofConcept c ≠ .ofConcept d) :
    (.ofConcept c, .ofConcept d) ∈ (b.join c d).graph.pseudonyms :=
  (mem_pseudonyms_addPseudonym h).2 (Or.inr (Or.inl rfl))

/-- **every concept that is seen on the way has all its edges in the end** -/
theorem Follows.draws (hk : env.Keyed) (hacyclic : ∀ a, ¬ env.DependsOn a a) (h : Follows env t b b')
    (ht : t.Fits env) (hb : Sound env b.graph) : t.Draws env b'.graph ∧ Completes env b b' := by
  induction h with
  | seen | noConcept => exact ⟨trivial, .refl env _⟩
  | noArgument | noPseudonym => exact ⟨fun _ h => absurd h List.not_mem_nil, .refl env _⟩
  | @entered below c b b₁ b₂ _ hnew hargs hpseud ih₁ ih₂ =>
    have hentered : Sound env (b.enter c).graph := hb.addConcept ht
    have hfits : (Task.arguments below c c.arguments).Fits env := ⟨ht, fun _ h => h⟩
    obtain ⟨hdraws, hfirst⟩ := ih₁ hfits hentered
    obtain ⟨hmarks, hsecond⟩ := ih₂ ⟨ht, fun _ h => h⟩ (hargs.sound hk hfits hentered)
    have hgrows : Grows b₁.graph b₂.graph := hpseud.grows hk
    have hc : Drawn env b₂.graph c := .of_entered ((hargs.grows hk).trans hgrows) (hdraws.grow hgrows) hmarks
    exact ⟨trivial, .of_entered hk ht (hfirst.trans hsecond hgrows) hc⟩
  | @argument below c d a l b b₁ b₂ hne hd hfollow hrest ih₁ ih₂ =>
    obtain ⟨hc, hl⟩ := ht
    obtain ⟨ha, hl⟩ := List.forall_mem_cons.1 hl
    have hda := hk.find?_address hd
    have hnodes := ne_of_argument hk hd hne
    have hlinked : Sound env (b₁.link c d).graph := (hfollow.sound hk hda hb).link hk hc hd ha hne
    obtain ⟨hdraws, hsecond⟩ := ih₂ ⟨hc, hl⟩ hlinked
    exact ⟨hdraws.cons hd ((hrest.grows hk).edges _ (edge_link hnodes)),
      (ih₁ hda hb).2.trans hsecond ((Grows.addEdge _ hnodes).trans (hrest.grows hk))⟩
  | @passed c d a l b b₁ hd hsame hrest ih =>
    obtain ⟨hc, hl⟩ := ht
    obtain ⟨hdraws, hcompletes⟩ := ih ⟨hc, (List.forall_mem_cons.1 hl).2⟩ hb
    refine ⟨hdraws.cons hd fun hne => ?_, hcompletes⟩
    -- edges both ways that are there already are those of pseudonyms
    obtain ⟨hedge, hback⟩ := hsame.resolve_left hne
    exact (hrest.grows hk).pseudonyms _
      (hb.mark_of_linked hk hacyclic (SortedSet.contains_iff.1 hedge) (SortedSet.contains_iff.1 hback))
  | @pseudonym c d a l b b₁ b₂ hd hne hfollow hrest ih₁ ih₂ =>
    obtain ⟨hc, hl⟩ := ht
    obtain ⟨ha, hl⟩ := List.forall_mem_cons.1 hl
    have hda := hk.find?_address hd
    have hjoined : Sound env (b.join c d).graph := hb.join hk hc hd ha hne
    have hgrows : Grows (b.join c d).graph b₂.graph := (hfollow.grows hk).trans (hrest.grows hk)
    have hfirst : Completes env b b₁ := (ih₁ hda hjoined).2
    obtain ⟨hdraws, hsecond⟩ := ih₂ ⟨hc, hl⟩ (hfollow.sound hk hda hjoined)
    exact ⟨hdraws.cons hd fun _ => hgrows.pseudonyms _ (mark_join (ofConcept_ne hne.symm)),
      hfirst.trans hsecond (hrest.grows hk)⟩
  | @next c cs b b₁ b₂ hfollow hrest ih₁ ih₂ =>
    obtain ⟨hc, hcs⟩ := List.forall_mem_cons.1 ht
    exact ⟨trivial, (ih₁ hc hb).2.trans (ih₂ hcs (hfollow.sound hk hc hb)).2 (hrest.grows hk)⟩

/-! ## The graph of the concepts -/

section Complete

variable (hg : Sound env g) (hall : ∀ a c, env.find? a = some c → Drawn env g c)

include hg hall

theorem marks_iff (hk : env.Keyed) : (m, n) ∈ g.pseudonyms ↔ env.Renames m n := by
  have hdrawn : ∀ {a b c d}, env.find? a = some c → env.find? b = some d → a ≠ b → b ∈ c.pseudonyms →
      (GraphNode.ofConcept c, GraphNode.ofConcept d) ∈ g.pseudonyms := fun {a b c d} hc hd hne hb =>
    (hall a c hc).pseudonyms b hb d hd fun h => hne ((hk a c hc).symm.trans (h.symm.trans (hk b d hd)))
  constructor
  · exact fun h => (hg.marks m n h).1
  · rintro ⟨a, b, c, d, hc, hd, hne, hb | ha, rfl, rfl⟩
    · exact hdrawn hc hd hne hb
    · exact (hg.marks _ _ (hdrawn hd hc hne.symm ha)).2.2

theorem edges_iff (hk : env.Keyed) : (m, n) ∈ g.edges ↔ env.ReadsNode m n ∨ env.Renames m n := by
  constructor
  · exact fun h => (hg.edges m n h).imp_right fun hmark => (hg.marks m n hmark).1
  · rintro (⟨a, b, c, d, hc, hd, hb, rfl, rfl⟩ | hrenames)
    · exact (hall a c hc).arguments b hb d hd
    · exact (hg.marks m n ((marks_iff hg hall hk).2 hrenames)).2.1

theorem nodes_iff : n ∈ g.nodes ↔ ∃ a c, env.find? a = some c ∧ n = .ofConcept c := by
  refine ⟨hg.nodes n, ?_⟩
  rintro ⟨a, c, hc, rfl⟩
  exact (hall a c hc).node

theorem concepts_get? {a : String} {c : Concept} (hc : env.find? a = some c) (hk : env.Keyed) :
    g.concepts.get? (.ofConcept c) = some c := by
  obtain ⟨d, hd⟩ := Option.isSome_iff_exists.1 (hall a c hc).concept
  obtain ⟨hfind, hnode⟩ := hg.concepts _ d hd
  rw [hd, hk.eq_of_node hc hfind hnode]

end Complete

/-! ## Datasources -/

/-- the ends of an edge between a datasource and one of its columns -/
def Carries (env : Environment) (i a : String) (e : GraphNode × GraphNode) : Prop :=
  ∃ c, env.find? a = some c ∧ (e = (.datasource i, .ofConcept c) ∨ e = (.ofConcept c, .datasource i))

/-- what the attached datasource is to a graph: its own node, and edges between it and its columns -/
structure Attached (env : Environment) (s : Datasource) (g h : ReferenceGraph) : Prop where
  nodes : ∀ n, n ∈ h.nodes ↔
    n ∈ g.nodes ∨ n = .datasource s.identifier ∨ ∃ a ∈ s.outputs, ∃ c, env.find? a = some c ∧ n = .ofConcept c
  edges : ∀ e, e ∈ h.edges ↔ e ∈ g.edges ∨ ∃ a ∈ s.outputs, Carries env s.identifier a e
  sources : ∀ n, h.sources.get? n = if n = .datasource s.identifier then some (.single s) else g.sources.get? n
  concepts : ∀ a c, env.find? a = some c → g.concepts.get? (.ofConcept c) = some c →
    h.concepts.get? (.ofConcept c) = some c
  pseudonyms : h.pseudonyms = g.pseudonyms

/-- a column of a datasource is linked both ways with it -/
theorem column_attached {i : String} (hcolumn : (env.concept a >>= fun c =>
      (pure ((g.addConcept c).addBoth (.datasource i) (.ofConcept c)) : Except PlanningError ReferenceGraph)) = .ok h) :
    ∃ c, env.find? a = some c ∧ h = (g.addConcept c).addBoth (.datasource i) (.ofConcept c) := by
  obtain ⟨c, hc, hcolumn⟩ := Resolve.bind_eq_ok hcolumn
  cases hcolumn
  exact ⟨c, Environment.concept_eq_ok hc, rfl⟩

/-- **an attached datasource has edges to its columns and back** -/
theorem attached_of_attach (hk : env.Keyed) {s : Datasource} (hattach : attach env g s = .ok h) :
    Attached env s g h := by
  have hne : ∀ c, GraphNode.datasource s.identifier ≠ .ofConcept c := fun c h => by cases h
  refine ⟨fun n => ?_, fun e => ?_, fun n => ?_, fun a c hc hget => ?_, ?_⟩
  · have hadds := foldlM_adds (P := fun g : ReferenceGraph => n ∈ g.nodes)
      (Q := fun a => n = .datasource s.identifier ∨ ∃ c, env.find? a = some c ∧ n = .ofConcept c) hattach
      fun g a _ h ha => by
        obtain ⟨c, hc, rfl⟩ := column_attached ha
        rw [mem_nodes_addBoth (hne c)]
        simp only [addConcept, SortedSet.mem_insert, hc, Option.some.injEq, exists_eq_left']
        tauto
    rw [hadds]
    simp only [addSource, GraphSource.name, SortedSet.mem_insert]
    constructor
    · rintro ((h | h) | ⟨a, ha, h | h⟩)
      exacts [Or.inr (Or.inl h), Or.inl h, Or.inr (Or.inl h), Or.inr (Or.inr ⟨a, ha, h⟩)]
    · rintro (h | h | ⟨a, ha, h⟩)
      exacts [Or.inl (Or.inr h), Or.inl (Or.inl h), Or.inr ⟨a, ha, Or.inr h⟩]
  · show e ∈ h.edges ↔ e ∈ (g.addSource (.single s)).edges ∨ _
    refine foldlM_adds (P := fun g : ReferenceGraph => e ∈ g.edges) hattach fun g a _ h ha => ?_
    obtain ⟨c, hc, rfl⟩ := column_attached ha
    rw [mem_edges_addBoth (hne c)]
    simp only [Carries, hc, Option.some.injEq, exists_eq_left']
    exact Iff.rfl
  · refine foldlM_keeps (P := fun k : ReferenceGraph => k.sources.get? n =
      if n = .datasource s.identifier then some (.single s) else g.sources.get? n) hattach ?_ fun g a h hg ha => ?_
    · exact SortedMap.get?_insert _ _ _ _
    · obtain ⟨c, -, rfl⟩ := column_attached ha
      rw [addBoth, sources_addEdge, sources_addEdge]
      exact hg
  · refine foldlM_keeps (P := fun k : ReferenceGraph => k.concepts.get? (.ofConcept c) = some c) hattach hget
      fun g b h hg hb => ?_
    obtain ⟨d, hd, rfl⟩ := column_attached hb
    rw [addBoth_of_ne _ (hne d)]
    show (g.concepts.insert (.ofConcept d) d).get? (.ofConcept c) = some c
    rw [SortedMap.get?_insert]
    split
    · rename_i hnode
      rw [hk.eq_of_node hc hd hnode]
    · exact hg
  · refine foldlM_keeps (P := fun k : ReferenceGraph => k.pseudonyms = g.pseudonyms) hattach rfl fun k a h hg ha => ?_
    obtain ⟨c, -, rfl⟩ := column_attached ha
    rw [addBoth_of_ne _ (hne c)]
    exact hg

/-! ## The graph of an environment -/

/-- A graph shows an environment: a node for each concept and each datasource, an edge from each concept to its
arguments, and edges both ways between pseudonyms, which are marked, and between a datasource and its columns. -/
structure Shows (g : ReferenceGraph) (env : Environment) : Prop where
  nodes : ∀ n, n ∈ g.nodes ↔ (∃ a c, env.find? a = some c ∧ n = .ofConcept c) ∨
    ∃ i s, env.datasources.get? i = some s ∧ n = .datasource i
  node : ∀ a c, env.find? a = some c → g.nodesFor a = [.ofConcept c]
  concepts : ∀ a c, env.find? a = some c → g.concepts.get? (.ofConcept c) = some c
  sources : ∀ i s, env.datasources.get? i = some s → g.sources.get? (.datasource i) = some (.single s)
  edges : ∀ m n, g.hasEdge m n = true ↔ env.Links m n
  marks : ∀ m n, g.isPseudonym m n = true ↔ env.Renames m n

/-- a declared concept is listed once, at its own grain -/
theorem nodesFor_eq (hk : env.Keyed) (hnodes : ∀ n, n ∈ g.nodes ↔ (∃ a c, env.find? a = some c ∧ n = .ofConcept c) ∨
    ∃ i s, env.datasources.get? i = some s ∧ n = .datasource i) (hc : env.find? a = some c) :
    g.nodesFor a = [.ofConcept c] := by
  have hnodup : (g.nodesFor a).Nodup := (SortedSet.nodup g.nodes).filter _ |>.filter _
  refine List.perm_singleton.1 ((List.perm_ext_iff_of_nodup hnodup (List.nodup_singleton _)).2 fun n => ?_)
  rw [List.mem_singleton, nodesFor, conceptNodes, List.mem_filter, List.mem_filter, ← SortedSet.mem_def, hnodes]
  constructor
  · rintro ⟨⟨⟨b, d, hd, rfl⟩ | ⟨i, s, -, rfl⟩, hconcept⟩, haddress⟩
    · have hb : d.address = a := Option.some.inj (beq_iff_eq.1 haddress)
      obtain rfl : b = a := (hk b d hd).symm.trans hb
      rw [Option.some.inj (hd.symm.trans hc)]
    · cases hconcept
  · rintro rfl
    exact ⟨⟨Or.inl ⟨a, c, hc, rfl⟩, rfl⟩, beq_iff_eq.2 (congrArg some (hk a c hc))⟩

section Attached

variable (henv : env.Closed) (hg : Sound env g) (hall : ∀ a c, env.find? a = some c → Drawn env g c)
  (hattach : env.datasources.values.foldlM (attach env) g = .ok h)

include henv hg hall hattach

theorem mem_nodes_attached : n ∈ h.nodes ↔ (∃ a c, env.find? a = some c ∧ n = .ofConcept c) ∨
    ∃ i s, env.datasources.get? i = some s ∧ n = .datasource i := by
  rw [foldlM_adds (P := fun g : ReferenceGraph => n ∈ g.nodes) hattach fun g s _ h hs =>
    (attached_of_attach henv.keyed hs).nodes n, nodes_iff hg hall, henv.exists_datasource
    (P := fun i s => n = .datasource i ∨ ∃ a ∈ s.outputs, ∃ c, env.find? a = some c ∧ n = .ofConcept c)]
  constructor
  · rintro (h | ⟨i, s, hi, rfl | ⟨a, -, c, hc, rfl⟩⟩)
    · exact Or.inl h
    · exact Or.inr ⟨i, s, hi, rfl⟩
    · exact Or.inl ⟨a, c, hc, rfl⟩
  · rintro (h | ⟨i, s, hi, rfl⟩)
    · exact Or.inl h
    · exact Or.inr ⟨i, s, hi, Or.inl rfl⟩

theorem mem_edges_attached : (m, n) ∈ h.edges ↔ env.Links m n := by
  rw [foldlM_adds (P := fun g : ReferenceGraph => (m, n) ∈ g.edges) hattach fun g s _ h hs =>
    (attached_of_attach henv.keyed hs).edges (m, n), edges_iff hg hall henv.keyed,
    henv.exists_datasource (P := fun i s => ∃ a ∈ s.outputs, Carries env i a (m, n))]
  constructor
  · rintro ((h | h) | ⟨i, s, hi, a, ha, c, hc, he | he⟩)
    · exact .argument h
    · exact .pseudonym h
    · exact .provides ⟨i, s, a, c, hi, ha, hc, Prod.mk.inj he⟩
    · exact .provided ⟨i, s, a, c, hi, ha, hc, (Prod.mk.inj he).symm⟩
  · rintro (h | h | ⟨i, s, a, c, hi, ha, hc, rfl, rfl⟩ | ⟨i, s, a, c, hi, ha, hc, rfl, rfl⟩)
    · exact Or.inl (Or.inl h)
    · exact Or.inl (Or.inr h)
    · exact Or.inr ⟨i, s, hi, a, ha, c, hc, Or.inl rfl⟩
    · exact Or.inr ⟨i, s, hi, a, ha, c, hc, Or.inr rfl⟩

omit hg hall in
theorem sources_attached {i : String} {s : Datasource} (hi : env.datasources.get? i = some s) :
    h.sources.get? (.datasource i) = some (.single s) := by
  refine (foldlM_adds (P := fun g : ReferenceGraph => g.sources.get? (.datasource i) = some (.single s))
    (Q := fun t => t = s) hattach fun g t ht h hs => ?_).2 (Or.inr ⟨s, SortedMap.mem_values.2 ⟨i, hi⟩, rfl⟩)
  obtain ⟨j, hj⟩ := SortedMap.mem_values.1 ht
  have ht : t.identifier = j := henv.filed j t hj
  rw [(attached_of_attach henv.keyed hs).sources]
  split
  · rename_i hnode
    obtain rfl : i = j := (GraphNode.datasource.inj hnode).trans ht
    obtain rfl : t = s := Option.some.inj (hj.symm.trans hi)
    exact iff_of_true rfl (Or.inr rfl)
  · rename_i hnode
    refine (or_iff_left fun hts => hnode ?_).symm
    rw [hts, henv.filed i s hi]

/-- a graph of concepts to which all datasources were attached -/
theorem shows_of_attach : h.Shows env := by
  have hk := henv.keyed
  have hnodes := fun n => mem_nodes_attached (n := n) henv hg hall hattach
  have hmarks : h.pseudonyms = g.pseudonyms :=
    foldlM_keeps (P := fun k : ReferenceGraph => k.pseudonyms = g.pseudonyms) hattach rfl fun g s h hg hs =>
      (attached_of_attach hk hs).pseudonyms.trans hg
  refine ⟨hnodes, fun a c hc => nodesFor_eq hk hnodes hc, fun a c hc => ?_,
    fun i s hi => sources_attached henv hattach hi, fun m n => ?_, fun m n => ?_⟩
  · exact foldlM_keeps (P := fun g : ReferenceGraph => g.concepts.get? (.ofConcept c) = some c) hattach
      (concepts_get? hg hall hc hk) fun g s h hget hs => (attached_of_attach hk hs).concepts a c hc hget
  · rw [hasEdge, SortedSet.contains_iff, mem_edges_attached henv hg hall hattach]
  · rw [isPseudonym, SortedSet.contains_iff, hmarks, marks_iff hg hall hk]

end Attached

/-- **the graph of an environment without cycles of lineage shows it** -/
theorem ofEnvironment_shows (henv : env.Closed) (hacyclic : ∀ a, ¬ env.DependsOn a a) :
    ∃ g, ofEnvironment env = .ok g ∧ g.Shows env := by
  have hk := henv.keyed
  cases h : ofEnvironment env with
  | error e =>
    obtain ⟨a, -, hcycle⟩ := ofEnvironment_error henv h
    exact absurd hcycle (hacyclic a)
  | ok g =>
    obtain ⟨b, hfollows, hattach⟩ := built_of_ofEnvironment hk h
    have hfits : (Task.concepts env.concepts.values).Fits env := fun c hc => hk.find?_of_mem hc
    have hall : ∀ a c, env.find? a = some c → Drawn env b.graph c := fun a c hc =>
      ((hfollows.draws hk hacyclic hfits (.empty env)).2 a c hc
        (hfollows.visits c (SortedMap.mem_values.2 ⟨a, hc⟩))).resolve_left (SortedSet.not_mem_empty _)
    exact ⟨g, rfl, shows_of_attach henv (hfollows.sound hk hfits (.empty env)) hall hattach⟩

/-- orders, also called purchases, with a fee that is a sum over two of their columns -/
def orders : Environment :=
  { (((((Environment.empty.add (.key "order" .integer)).add (.key "purchase" .integer)).addPseudonym "local.order"
      "local.purchase").addPseudonym "local.purchase" "local.order").add (.property "amount" .integer ["order"])).add
      (.derived "fee" .integer .property (.function ⟨.add, [.concept "local.amount", .concept "local.order"]⟩)
        (Grain.ofList ["local.order"]) .multiRow) with
    datasources := (∅ : NameMap Datasource).insert "orders"
      (.ofColumns "orders" [.bind "id" "order", .bind "amount" "amount"] ["order"]) }

theorem ofEnvironment_shows_orders : orders.Closed ∧ (∀ a, ¬ orders.DependsOn a a) ∧
    ∃ g, ofEnvironment orders = .ok g ∧ g.Shows orders := by
  have hclosed : orders.Closed := by decide
  have hacyclic : ∀ a, ¬ orders.DependsOn a a :=
    Environment.acyclic_of_rank (fun a => if a = "local.fee" then 1 else 0) (by decide)
  exact ⟨hclosed, hacyclic, ofEnvironment_shows hclosed hacyclic⟩

end ReferenceGraph

end SemanticPlanner
