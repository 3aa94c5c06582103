/-
Tours: round trips that pass given nodes, in a graph and along numbered edges.

  IsTour             a closed walk that makes two steps for each node after the first
  exists_tour        one passes all nodes that can be reached
  IsTour.length_le   it makes at most two steps for each edge of the graph
  Trail, exists_trail
                     edges one after the other along a list of nodes, no longer than the way from the first to the last
  Trail.linked_without
                     a round trip links its nodes without any one of its edges too
  IsMinimumForest.round_trip_le
                     so a minimum spanning forest weighs no more than a round trip without its heaviest edge, which the
                     sum over all edges of the round trip bounds

A tour grows by a detour to a node next to it and back. That is why its length counts its nodes, and these are at most
one more than the edges it uses, however often it uses them.
-/
import SemanticPlanner.Proofs.SpanningForests
import Mathlib.Combinatorics.SimpleGraph.Acyclic
import Mathlib.Data.Set.Card

namespace SemanticPlanner

/-! ## Closed walks -/

section
variable {V : Type} {G : SimpleGraph V} {a b x : V}

theorem ncard_verts_le {S : G.Subgraph} (hS : S.Connected) : S.verts.ncard ≤ S.edgeSet.ncard + 1 := by
  have hcard := hS.coe.card_vert_le_card_edgeSet_add_one
  have himage := Set.ncard_image_of_injective S.coe.edgeSet (Sym2.map.injective Subtype.val_injective)
  rwa [Nat.card_coe_set_eq, Nat.card_coe_set_eq, ← himage, S.image_coe_edgeSet_coe] at hcard

/-- a closed walk that makes two steps for each node after the first -/
def IsTour (c : G.Walk a a) : Prop := c.length + 2 = 2 * {x | x ∈ c.support}.ncard

theorem isTour_nil : IsTour (SimpleGraph.Walk.nil : G.Walk a a) := by
  simp [IsTour]

/-- a tour makes at most two steps for each edge -/
theorem IsTour.length_le {c : G.Walk a a} (h : IsTour c) (hfinite : G.edgeSet.Finite) :
    c.length ≤ 2 * G.edgeSet.ncard := by
  have hverts := ncard_verts_le c.toSubgraph_connected
  rw [SimpleGraph.Walk.verts_toSubgraph] at hverts
  have hedges := Set.ncard_le_ncard c.toSubgraph.edgeSet_subset hfinite
  rw [IsTour] at h
  omega

/-- a tour with a detour to a new node next to it -/
theorem IsTour.exists_detour {c : G.Walk a a} (h : IsTour c) (hb : b ∈ c.support) (hadj : G.Adj b x)
    (hx : x ∉ c.support) : ∃ c' : G.Walk a a, IsTour c' ∧ ∀ y, y ∈ c'.support ↔ y = x ∨ y ∈ c.support := by
  obtain ⟨q, r, rfl⟩ := SimpleGraph.Walk.mem_support_iff_exists_append.1 hb
  have hsupport : ∀ y, y ∈ (q.append (.cons hadj (.cons hadj.symm r))).support ↔ y = x ∨ y ∈ (q.append r).support := by
    intro y
    have hr : b ∈ r.support := r.start_mem_support
    simp only [SimpleGraph.Walk.mem_support_append_iff, SimpleGraph.Walk.support_cons, List.mem_cons]
    constructor
    · rintro (h | rfl | rfl | h)
      · exact Or.inr (Or.inl h)
      · exact Or.inr (Or.inr hr)
      · exact Or.inl rfl
      · exact Or.inr (Or.inr h)
    · rintro (rfl | h | h)
      · exact Or.inr (Or.inr (Or.inl rfl))
      · exact Or.inl h
      · exact Or.inr (Or.inr (Or.inr h))
  refine ⟨_, ?_, hsupport⟩
  have hset : {y | y ∈ (q.append (.cons hadj (.cons hadj.symm r))).support} = insert x {y | y ∈ (q.append r).support} :=
    Set.ext hsupport
  rw [IsTour] at h ⊢
  have hcard := Set.ncard_insert_of_notMem (show x ∉ {y | y ∈ (q.append r).support} from hx) (List.finite_toSet _)
  rw [hset, hcard]
  simp only [SimpleGraph.Walk.length_append, SimpleGraph.Walk.length_cons] at h ⊢
  omega

/-- a tour can be made to pass a node that can be reached -/
theorem IsTour.exists_through {c : G.Walk a a} (h : IsTour c) (hx : G.Reachable a x) :
    ∃ c' : G.Walk a a, IsTour c' ∧ x ∈ c'.support ∧ ∀ y ∈ c.support, y ∈ c'.support := by
  rw [SimpleGraph.reachable_iff_reflTransGen] at hx
  induction hx with
  | refl => exact ⟨c, h, c.start_mem_support, fun _ => id⟩
  | @tail b x _ hadj ih =>
    obtain ⟨c', hc', hb, hsub⟩ := ih
    by_cases hx : x ∈ c'.support
    · exact ⟨c', hc', hx, hsub⟩
    · obtain ⟨c'', hc'', hsupport⟩ := hc'.exists_detour hb hadj hx
      exact ⟨c'', hc'', (hsupport x).2 (Or.inl rfl), fun y hy => (hsupport y).2 (Or.inr (hsub y hy))⟩

/-- **a tour passes all listed nodes**, if they can be reached -/
theorem exists_tour (l : List V) (hl : ∀ x ∈ l, G.Reachable a x) :
    ∃ c : G.Walk a a, IsTour c ∧ ∀ x ∈ l, x ∈ c.support := by
  induction l with
  | nil => exact ⟨.nil, isTour_nil, List.forall_mem_nil _⟩
  | cons x l ih =>
    obtain ⟨hx, hl⟩ := List.forall_mem_cons.1 hl
    obtain ⟨c, hc, hpass⟩ := ih hl
    obtain ⟨c', hc', hx, hsub⟩ := hc.exists_through hx
    exact ⟨c', hc', List.forall_mem_cons.2 ⟨hx, fun y hy => hsub y (hpass y hy)⟩⟩

/-- **a part of a graph that hangs together has a closed walk past its listed nodes**, of two steps for each edge -/
theorem exists_closed_walk {S : G.Subgraph} (hS : S.Connected) (hfinite : S.edgeSet.Finite) {l : List V}
    (hl : ∀ x ∈ l, x ∈ S.verts) :
    ∃ a, ∃ c : G.Walk a a, c.length ≤ 2 * S.edgeSet.ncard ∧ ∀ x ∈ l, x ∈ c.support := by
  obtain ⟨a⟩ := hS.coe.nonempty
  obtain ⟨c, hc, hpass⟩ := exists_tour (l.pmap Subtype.mk hl) fun x _ => hS.coe.preconnected a x
  have hinj : Function.Injective (Sym2.map (Subtype.val : S.verts → V)) := Sym2.map.injective Subtype.val_injective
  have himage := S.image_coe_edgeSet_coe
  refine ⟨S.hom a, c.map S.hom, ?_, fun x hx => ?_⟩
  · rw [SimpleGraph.Walk.length_map, ← himage, Set.ncard_image_of_injective _ hinj]
    exact hc.length_le ((Set.finite_image_iff hinj.injOn).1 (himage ▸ hfinite))
  · rw [SimpleGraph.Walk.support_map]
    exact List.mem_map.2 ⟨⟨x, hl x hx⟩, hpass _ (List.mem_pmap.2 ⟨x, hx, rfl⟩), rfl⟩

/-- two nodes of a closed walk have a walk between them on either side -/
theorem exists_walks_between (c : G.Walk a a) {i j : Nat} (hij : i ≤ j) (hj : j ≤ c.length) :
    (∃ w : G.Walk (c.getVert i) (c.getVert j), i + w.length = j) ∧
      ∃ w : G.Walk (c.getVert j) (c.getVert i), j + w.length = c.length + i := by
  constructor
  · have hend : (c.drop i).getVert (j - i) = c.getVert j := by
      rw [SimpleGraph.Walk.drop_getVert, Nat.add_sub_cancel' hij]
    refine ⟨((c.drop i).take (j - i)).copy rfl hend, ?_⟩
    rw [SimpleGraph.Walk.length_copy, SimpleGraph.Walk.take_length, SimpleGraph.Walk.drop_length]
    omega
  · refine ⟨(c.drop j).append (c.take i), ?_⟩
    rw [SimpleGraph.Walk.length_append, SimpleGraph.Walk.take_length, SimpleGraph.Walk.drop_length]
    omega

end

/-! ## Round trips -/

namespace SpanningTree

variable {edges kept p s es : List WeightedEdge} {e : WeightedEdge} {l : List Nat} {i j k x : Nat}

/-- edges one after the other along listed nodes, each in either direction -/
inductive Trail : List Nat → List WeightedEdge → Prop
  | single (i : Nat) : Trail [i] []
  | cons {e : WeightedEdge} {i j : Nat} {l : List Nat} {es : List WeightedEdge} (h : Joins e i j)
      (ht : Trail (j :: l) es) : Trail (i :: j :: l) (e :: es)

theorem Trail.length_eq (h : Trail l es) : l.length = es.length + 1 := by
  induction h with
  | single => rfl
  | cons _ _ ih => rw [List.length_cons, ih, List.length_cons]

/-- edges that lead from each listed node to the next one, within the steps between their places, make a trail -/
theorem exists_trail {place : Nat → Nat}
    (h : (i :: l).IsChain fun i j => ∃ e ∈ edges, Joins e i j ∧ place i + e.weight ≤ place j) :
    ∃ es ⊆ edges, Trail (i :: l) es ∧ ∃ k, (i :: l).getLast? = some k ∧ place i + weight es ≤ place k := by
  induction l generalizing i with
  | nil => exact ⟨[], List.nil_subset _, .single i, i, rfl, Nat.le_refl _⟩
  | cons j l ih =>
    obtain ⟨⟨e, he, hjoins, hplace⟩, hl⟩ := List.isChain_cons_cons.1 h
    obtain ⟨es, hes, ht, k, hk, hweight⟩ := ih hl
    refine ⟨e :: es, List.cons_subset.2 ⟨he, hes⟩, .cons hjoins ht, k, List.getLast?_cons_cons.trans hk, ?_⟩
    rw [weight_cons]
    omega

/-- a trail links all its nodes -/
theorem Trail.linked (h : Trail (i :: l) es) (hx : x ∈ i :: l) : Linked es i x := by
  induction l generalizing i es with
  | nil => exact List.mem_singleton.1 hx ▸ .refl _
  | cons j l ih =>
    cases h with
    | cons hjoins ht =>
      rcases List.mem_cons.1 hx with rfl | hx
      · exact .refl _
      · exact .trans _ _ _ (hjoins.linked List.mem_cons_self) ((ih ht hx).mono (List.subset_cons_self _ _))

/-- without one of its edges, a trail links each node with its first or with its last one -/
theorem Trail.linked_without (h : Trail (i :: l) (p ++ e :: s)) (hk : (i :: l).getLast? = some k) (hx : x ∈ i :: l) :
    Linked (p ++ s) i x ∨ Linked (p ++ s) k x := by
  induction p generalizing i l with
  | nil =>
    cases h with
    | cons _ ht =>
      rcases List.mem_cons.1 hx with rfl | hx
      · exact Or.inl (.refl _)
      · rw [List.getLast?_cons_cons] at hk
        exact Or.inr (.trans _ _ _ (.symm _ _ (ht.linked (List.mem_of_getLast? hk))) (ht.linked hx))
  | cons f p ih =>
    cases h with
    | cons hjoins ht =>
      rcases List.mem_cons.1 hx with rfl | hx
      · exact Or.inl (.refl _)
      · rw [List.getLast?_cons_cons] at hk
        refine (ih ht hk hx).imp (fun h => ?_) fun h => h.mono (List.subset_cons_self _ _)
        exact .trans _ _ _ (hjoins.linked List.mem_cons_self) (h.mono (List.subset_cons_self _ _))

/-- a bound on all but one is a bound on the sum -/
theorem weight_add_le {m w : Nat} (h : ∀ e ∈ es, m + e.weight ≤ w) : es.length * m + weight es ≤ es.length * w := by
  induction es with
  | nil => simp [weight]
  | cons e es ih =>
    obtain ⟨he, h⟩ := List.forall_mem_cons.1 h
    have hrest := ih h
    rw [weight_cons, List.length_cons, Nat.succ_mul, Nat.succ_mul]
    omega

/-- **a minimum spanning forest weighs no more than a round trip through all nodes without one of its edges** -/
theorem IsMinimumForest.round_trip_le (h : IsMinimumForest edges kept) (ht : Trail (k :: l) es)
    (hk : (k :: l).getLast? = some k) (hes : es ⊆ edges) (hall : ∀ e ∈ edges, e.left ∈ k :: l ∧ e.right ∈ k :: l) :
    es.length * weight kept + weight es ≤ es.length * weight es := by
  refine weight_add_le fun e he => ?_
  obtain ⟨p, s, rfl⟩ := List.append_of_mem he
  have hrest : p ++ s ⊆ edges := List.Subset.trans ((List.sublist_cons_self e s).append_left p).subset hes
  have hlinked : ∀ x ∈ k :: l, Linked (p ++ s) k x := fun x hx => (ht.linked_without hk hx).elim id id
  have hspans : Spans edges (p ++ s) := fun f hf =>
    .trans _ _ _ (.symm _ _ (hlinked _ (hall f hf).1)) (hlinked _ (hall f hf).2)
  have hle := h.weight_le hrest hspans
  rw [weight_append] at hle
  rw [weight_append, weight_cons]
  omega

end SpanningTree

end SemanticPlanner
