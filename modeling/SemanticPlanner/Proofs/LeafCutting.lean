/-
A spanning tree as the neighbors of each node, and its leaves cut off.

  keptEdges          the edges of the spanning tree, in terms of the nodes again
  acyclic_keptEdges, reachable_keptEdges
                     they have no circle and link all that the edges link
  Shows              each node is listed with its neighbors in a tree
  shows_spanning     the spanning tree is listed so
  Shows.cut          a node with one neighbor at most can go
  shows_cutLeaves    after all cuts a tree is listed still, every terminal in it, and each of its leaves is a terminal

Without a leaf the other nodes stay linked: a chain through the leaf comes back to the one neighbor that it left from.
-/
import SemanticPlanner.Proofs.Expansion
import Mathlib.Combinatorics.SimpleGraph.Acyclic

namespace SemanticPlanner

namespace SortedMap

variable {κ ν : Type} [Sorts κ] [DecidableEq κ]

theorem get?_foldl_insert_const {l : List κ} {v : ν} {m : SortedMap κ ν} {k : κ} :
    ((l.map fun k => (k, v)).foldl (fun m e => m.insert e.1 e.2) m).get? k = if k ∈ l then some v else m.get? k := by
  induction l generalizing m with
  | nil => rfl
  | cons a l ih =>
    rw [List.map_cons, List.foldl_cons, ih, get?_insert]
    by_cases hk : k ∈ l
    · rw [if_pos hk, if_pos (List.mem_cons_of_mem _ hk)]
    · simp [hk]

theorem mem_keys_update {m : SortedMap κ ν} {k k' : κ} {v : ν} {f : ν → ν} :
    k' ∈ (m.update k v f).keys ↔ k' ∈ m.keys ∨ k' = k := by
  simp only [mem_keys, update, get?_insert]
  by_cases hk : k' = k
  · simp [hk]
  · simp [hk]

/-- a map that gives every listed key the same value -/
theorem get?_ofList_const {l : List κ} {v : ν} {k : κ} :
    (ofList (l.map fun k => (k, v))).get? k = if k ∈ l then some v else none := get?_foldl_insert_const

end SortedMap

theorem SortedSet.size_le_one {α : Type} [Sorts α] {s : SortedSet α} : s.size ≤ 1 ↔ ∀ x ∈ s, ∀ y ∈ s, x = y := by
  obtain ⟨l, hl⟩ := s
  cases l with
  | nil => exact ⟨fun _ x hx => absurd hx List.not_mem_nil, fun _ => Nat.zero_le _⟩
  | cons a l =>
    cases l with
    | nil =>
      exact ⟨fun _ x hx y hy => (List.mem_singleton.1 hx).trans (List.mem_singleton.1 hy).symm, fun _ => Nat.le_refl _⟩
    | cons b l =>
      have hne : a ≠ b := Sorts.ne_of_before ((List.pairwise_cons.1 hl).1 b List.mem_cons_self)
      refine ⟨fun h => absurd h (by simp [SortedSet.size]), fun h => ?_⟩
      exact absurd (h a List.mem_cons_self b (List.mem_cons_of_mem _ List.mem_cons_self)) hne

namespace Steiner

open SpanningTree (Linked IsMinimumForest)

variable {forest : List WeightedEdge → List WeightedEdge} {G T : SimpleGraph GraphNode} {adj : Adjacency}
  {nodes terminals s : SortedSet GraphNode} {edges : SortedSet (GraphNode × GraphNode)} {d : GraphNode × GraphNode}
  {l : List (GraphNode × GraphNode)} {a b n m x y leaf : GraphNode} {fuel : Nat}

/-! ## Neighbors -/

theorem graphOf_adj : (graphOf l).Adj a b ↔ a ≠ b ∧ ((a, b) ∈ l ∨ (b, a) ∈ l) := SimpleGraph.fromRel_adj _ _ _

theorem mem_update_insert : m ∈ (adj.update a ∅ fun s => s.insert b).getD n ∅ ↔ m ∈ adj.getD n ∅ ∨ n = a ∧ m = b := by
  rw [SortedMap.getD_update]
  by_cases hn : n = a
  · rw [if_pos hn, SortedSet.mem_insert, hn, or_comm, and_iff_right rfl]
  · rw [if_neg hn, or_iff_left fun h => hn h.1]

theorem mem_addBetween : m ∈ (addBetween adj d).getD n ∅ ↔ m ∈ adj.getD n ∅ ∨ (n, m) = d ∨ (m, n) = d := by
  obtain ⟨a, b⟩ := d
  rw [addBetween, mem_update_insert, mem_update_insert, or_assoc, Prod.mk.injEq, Prod.mk.injEq, and_comm (a := m = a)]

theorem mem_keys_addBetween : n ∈ (addBetween adj d).keys ↔ n ∈ adj.keys ∨ n = d.1 ∨ n = d.2 := by
  rw [addBetween, SortedMap.mem_keys_update, SortedMap.mem_keys_update, or_assoc]

theorem mem_foldl_addBetween :
    m ∈ (l.foldl addBetween adj).getD n ∅ ↔ m ∈ adj.getD n ∅ ∨ (n, m) ∈ l ∨ (m, n) ∈ l := by
  induction l generalizing adj with
  | nil => simp
  | cons d l ih =>
    rw [List.foldl_cons, ih, mem_addBetween, List.mem_cons, List.mem_cons]
    tauto

theorem mem_keys_foldl_addBetween :
    n ∈ (l.foldl addBetween adj).keys ↔ n ∈ adj.keys ∨ ∃ d ∈ l, n = d.1 ∨ n = d.2 := by
  induction l generalizing adj with
  | nil => simp
  | cons d l ih => rw [List.foldl_cons, ih, mem_keys_addBetween, or_assoc, List.exists_mem_cons_iff]

/-! ## The spanning tree -/

/-- an edge by the numbers of its ends -/
def unitEdge (nodes : SortedSet GraphNode) (d : GraphNode × GraphNode) : WeightedEdge :=
  ⟨1, position nodes.toList d.1, position nodes.toList d.2⟩

/-- the edges of the spanning tree -/
def keptEdges (forest : List WeightedEdge → List WeightedEdge) (nodes : SortedSet GraphNode)
    (edges : SortedSet (GraphNode × GraphNode)) : List (GraphNode × GraphNode) :=
  (forest (edges.toList.map (unitEdge nodes))).filterMap fun e => do
    pure (← nodes.toList[e.left]?, ← nodes.toList[e.right]?)

theorem spanning_eq : spanning forest nodes edges =
    (keptEdges forest nodes edges).foldl addBetween (SortedMap.ofList (nodes.toList.map fun n => (n, ∅))) := rfl

theorem getElem?_position (hn : n ∈ nodes) : nodes.toList[position nodes.toList n]? = some n := by
  have hlt : nodes.toList.findIdx (fun m => m == n) < nodes.toList.length :=
    List.findIdx_lt_length_of_exists ⟨n, hn, beq_self_eq_true n⟩
  rw [position, List.getElem?_eq_getElem hlt]
  exact congrArg some (beq_iff_eq.1 (List.findIdx_getElem (w := hlt)))

theorem eq_of_position_eq (ha : a ∈ nodes) (hb : b ∈ nodes)
    (h : position nodes.toList a = position nodes.toList b) : a = b :=
  Option.some.inj ((getElem?_position ha).symm.trans (h ▸ getElem?_position hb))

section
variable (hf : ∀ edges, IsMinimumForest edges (forest edges)) (hG : Connects G nodes edges)
include hf hG

theorem mem_keptEdges : d ∈ keptEdges forest nodes edges ↔
    d ∈ edges ∧ unitEdge nodes d ∈ forest (edges.toList.map (unitEdge nodes)) := by
  have hends : ∀ {c}, c ∈ edges → (do pure (← nodes.toList[(unitEdge nodes c).left]?,
      ← nodes.toList[(unitEdge nodes c).right]?) : Option (GraphNode × GraphNode)) = some c := by
    intro c hc
    simp [unitEdge, getElem?_position (hG.ends c hc).1, getElem?_position (hG.ends c hc).2]
  rw [keptEdges, List.mem_filterMap]
  constructor
  · rintro ⟨e, he, hd⟩
    obtain ⟨c, hc, rfl⟩ := List.mem_map.1 ((hf _).subset he)
    obtain rfl : c = d := Option.some.inj ((hends hc).symm.trans hd)
    exact ⟨hc, he⟩
  · rintro ⟨hd, he⟩
    exact ⟨_, he, hends hd⟩

/-- **the kept edges link all that the edges link** -/
theorem reachable_keptEdges (h : (graphOf edges.toList).Reachable x y) :
    (graphOf (keptEdges forest nodes edges)).Reachable x y := by
  have hkept : ∀ e ∈ forest (edges.toList.map (unitEdge nodes)), ∃ a b, nodes.toList[e.left]? = some a ∧
      nodes.toList[e.right]? = some b ∧ (graphOf (keptEdges forest nodes edges)).Reachable a b := by
    intro e he
    obtain ⟨d, hd, rfl⟩ := List.mem_map.1 ((hf _).subset he)
    have hadj : (graphOf (keptEdges forest nodes edges)).Adj d.1 d.2 :=
      graphOf_adj.2 ⟨(hG.adj d hd).ne, Or.inl ((mem_keptEdges hf hG).2 ⟨hd, he⟩)⟩
    exact ⟨d.1, d.2, getElem?_position (hG.ends d hd).1, getElem?_position (hG.ends d hd).2, hadj.reachable⟩
  have hedge : ∀ d ∈ edges, (graphOf (keptEdges forest nodes edges)).Reachable d.1 d.2 := by
    intro d hd
    obtain ⟨h1, h2⟩ := hG.ends d hd
    rcases related_of_linked (R := (graphOf (keptEdges forest nodes edges)).Reachable) .symm .trans hkept
      ((hf _).spans _ (List.mem_map_of_mem hd)) with heq | ⟨a, b, ha, hb, hr⟩
    · exact eq_of_position_eq h1 h2 heq ▸ .refl _
    · obtain rfl : d.1 = a := Option.some.inj ((getElem?_position h1).symm.trans ha)
      obtain rfl : d.2 = b := Option.some.inj ((getElem?_position h2).symm.trans hb)
      exact hr
  rw [SimpleGraph.reachable_iff_reflTransGen] at h
  induction h with
  | refl => exact .refl _
  | tail _ hadj ih =>
    rcases (graphOf_adj.1 hadj).2 with hd | hd
    · exact ih.trans (hedge _ hd)
    · exact ih.trans (hedge _ hd).symm

/-- a chain of other kept edges than one is a chain of the other numbered ones -/
theorem linked_of_reachable {p q : List WeightedEdge} (hd : d ∈ edges)
    (hsplit : forest (edges.toList.map (unitEdge nodes)) = p ++ unitEdge nodes d :: q)
    (h : ((graphOf (keptEdges forest nodes edges)).deleteEdges {s(d.1, d.2)}).Reachable x y) :
    Linked (p ++ q) (position nodes.toList x) (position nodes.toList y) := by
  have hother : ∀ c ∈ keptEdges forest nodes edges, s(c.1, c.2) ≠ s(d.1, d.2) →
      Linked (p ++ q) (position nodes.toList c.1) (position nodes.toList c.2) := by
    intro c hc hne
    obtain ⟨hc, he⟩ := (mem_keptEdges hf hG).1 hc
    rw [hsplit, List.mem_append, List.mem_cons] at he
    refine .rel _ _ ⟨unitEdge nodes c, List.mem_append.2 (he.imp_right (Or.resolve_left · fun heq => hne ?_)), rfl, rfl⟩
    rw [eq_of_position_eq (hG.ends c hc).1 (hG.ends d hd).1 (congrArg WeightedEdge.left heq),
      eq_of_position_eq (hG.ends c hc).2 (hG.ends d hd).2 (congrArg WeightedEdge.right heq)]
  rw [SimpleGraph.reachable_iff_reflTransGen] at h
  induction h with
  | refl => exact .refl _
  | tail _ hadj ih =>
    obtain ⟨hadj, hne⟩ := SimpleGraph.deleteEdges_adj.1 hadj
    rw [Set.mem_singleton_iff] at hne
    rcases (graphOf_adj.1 hadj).2 with hc | hc
    · exact .trans _ _ _ ih (hother _ hc hne)
    · exact .trans _ _ _ ih (.symm _ _ (hother _ hc fun heq => hne (Sym2.eq_swap.trans heq)))

/-- **the kept edges have no circle** -/
theorem acyclic_keptEdges : (graphOf (keptEdges forest nodes edges)).IsAcyclic := by
  have hbridge : ∀ d ∈ keptEdges forest nodes edges, (graphOf (keptEdges forest nodes edges)).IsBridge s(d.1, d.2) := by
    intro d hd
    obtain ⟨hd, he⟩ := (mem_keptEdges hf hG).1 hd
    obtain ⟨p, q, hsplit⟩ := List.append_of_mem he
    rw [SimpleGraph.isBridge_iff]
    exact fun h => (hf _).forest p _ q hsplit (linked_of_reachable hf hG hd hsplit h)
  rw [SimpleGraph.isAcyclic_iff_forall_adj_isBridge]
  intro x y hxy
  rcases (graphOf_adj.1 hxy).2 with hd | hd
  · exact hbridge _ hd
  · exact Sym2.eq_swap ▸ hbridge _ hd

end

/-! ## Listed trees -/

/-- each node of a tree is listed with its neighbors -/
structure Shows (T : SimpleGraph GraphNode) (adj : Adjacency) : Prop where
  neighbors : ∀ n s, adj.get? n = some s → ∀ m, m ∈ s ↔ T.Adj n m
  inside : ∀ n m, T.Adj n m → n ∈ adj.keys
  acyclic : T.IsAcyclic
  linked : ∀ n ∈ adj.keys, ∀ m ∈ adj.keys, T.Reachable n m

section
variable (hf : ∀ edges, IsMinimumForest edges (forest edges)) (hG : Connects G nodes edges)
include hf hG

theorem mem_keys_spanning : n ∈ (spanning forest nodes edges).keys ↔ n ∈ nodes := by
  rw [spanning_eq, mem_keys_foldl_addBetween, SortedMap.mem_keys]
  simp only [SortedMap.get?_ofList_const]
  constructor
  · rintro (⟨v, hv⟩ | ⟨d, hd, rfl | rfl⟩)
    · by_contra hn
      exact nomatch (if_neg hn).symm.trans hv
    · exact (hG.ends d ((mem_keptEdges hf hG).1 hd).1).1
    · exact (hG.ends d ((mem_keptEdges hf hG).1 hd).1).2
  · exact fun hn => Or.inl ⟨∅, if_pos hn⟩

/-- **the spanning tree is listed** -/
theorem shows_spanning : Shows (graphOf (keptEdges forest nodes edges)) (spanning forest nodes edges) := by
  have hmem : ∀ {d}, d ∈ keptEdges forest nodes edges → d ∈ edges := fun hd => ((mem_keptEdges hf hG).1 hd).1
  refine ⟨fun n s hs m => ?_, fun n m h => ?_, acyclic_keptEdges hf hG, fun n hn m hm => ?_⟩
  · have hget : (spanning forest nodes edges).getD n ∅ = s := by rw [SortedMap.getD, hs, Option.getD_some]
    rw [← hget, spanning_eq, mem_foldl_addBetween, graphOf_adj]
    have hnone : m ∉ (SortedMap.ofList (nodes.toList.map fun n => (n, (∅ : SortedSet GraphNode)))).getD n ∅ := by
      rw [SortedMap.getD, SortedMap.get?_ofList_const]
      split <;> exact SortedSet.not_mem_empty m
    rw [or_iff_right hnone]
    refine ⟨fun h => ⟨?_, h⟩, And.right⟩
    rcases h with h | h
    · exact (hG.adj _ (hmem h)).ne
    · exact (hG.adj _ (hmem h)).ne.symm
  · rw [mem_keys_spanning hf hG]
    rcases (graphOf_adj.1 h).2 with h | h
    · exact (hG.ends _ (hmem h)).1
    · exact (hG.ends _ (hmem h)).2
  · rw [mem_keys_spanning hf hG] at hn hm
    exact reachable_keptEdges hf hG (hG.linked n hn m hm)

/-- the spanning tree has edges of the graph only -/
theorem keptEdges_le : graphOf (keptEdges forest nodes edges) ≤ G := by
  intro a b h
  rcases (graphOf_adj.1 h).2 with h | h
  · exact hG.adj _ ((mem_keptEdges hf hG).1 h).1
  · exact (hG.adj _ ((mem_keptEdges hf hG).1 h).1).symm

end

/-! ## Cut leaves -/

/-- the tree without a leaf -/
def cut (adj : Adjacency) (leaf : GraphNode) : Adjacency := (adj.erase leaf).mapValues fun _ s => s.erase leaf

theorem get?_cut : (cut adj leaf).get? n = if n = leaf then none else (adj.get? n).map fun s => s.erase leaf := by
  rw [cut, SortedMap.get?_mapValues, SortedMap.get?_erase]
  split <;> rfl

theorem mem_keys_cut : n ∈ (cut adj leaf).keys ↔ n ∈ adj.keys ∧ n ≠ leaf := by
  simp only [SortedMap.mem_keys, get?_cut]
  by_cases hn : n = leaf <;> simp [hn]

theorem size_cut_lt (hleaf : leaf ∈ adj.keys) : (cut adj leaf).size < adj.size := by
  have hsize : ∀ m : Adjacency, m.size = m.keys.length := fun m => (List.length_map _).symm
  rw [hsize, hsize]
  have hsub : leaf :: (cut adj leaf).keys ⊆ adj.keys :=
    List.cons_subset.2 ⟨hleaf, fun n hn => (mem_keys_cut.1 hn).1⟩
  have hnodup : (leaf :: (cut adj leaf).keys).Nodup :=
    List.nodup_cons.2 ⟨fun h => (mem_keys_cut.1 h).2 rfl, SortedMap.nodup_keys _⟩
  exact (List.subperm_of_subset hnodup hsub).length_le

/-- a chain between other nodes need not pass a leaf, and one that ends at it comes from its neighbor -/
theorem reachable_without (hleaf : ∀ m m', T.Adj leaf m → T.Adj leaf m' → m = m') (ha : a ≠ leaf)
    (h : T.Reachable a b) : (b ≠ leaf → (T.deleteIncidenceSet leaf).Reachable a b) ∧
    (b = leaf → ∃ m, T.Adj leaf m ∧ (T.deleteIncidenceSet leaf).Reachable a m) := by
  rw [SimpleGraph.reachable_iff_reflTransGen] at h
  induction h with
  | refl => exact ⟨fun _ => .refl _, fun h => absurd h ha⟩
  | @tail b c _ hadj ih =>
    by_cases hb : b = leaf
    · obtain ⟨m, hm, hreach⟩ := ih.2 hb
      subst hb
      exact ⟨fun _ => hleaf m c hm hadj ▸ hreach, fun h => absurd h hadj.ne.symm⟩
    · refine ⟨fun hc => (ih.1 hb).trans (SimpleGraph.Adj.reachable ?_), fun hc => ⟨b, hc ▸ hadj.symm, ih.1 hb⟩⟩
      exact SimpleGraph.deleteIncidenceSet_adj.2 ⟨hadj, hb, hc⟩

/-- **a node with one neighbor at most can go** -/
theorem Shows.cut (h : Shows T adj) (hs : adj.get? leaf = some s) (hsize : s.size ≤ 1) :
    Shows (T.deleteIncidenceSet leaf) (cut adj leaf) := by
  have hleaf : ∀ m m', T.Adj leaf m → T.Adj leaf m' → m = m' := by
    intro m m' hm hm'
    rw [← h.neighbors leaf s hs] at hm hm'
    exact SortedSet.size_le_one.1 hsize m hm m' hm'
  refine ⟨fun n t ht m => ?_, fun n m hnm => ?_, h.acyclic.anti (SimpleGraph.deleteIncidenceSet_le _ _),
    fun n hn m hm => ?_⟩
  · rw [get?_cut] at ht
    split at ht
    · cases ht
    · rename_i hn
      obtain ⟨u, hu, rfl⟩ := Option.map_eq_some_iff.1 ht
      rw [SortedSet.mem_erase, h.neighbors n u hu, SimpleGraph.deleteIncidenceSet_adj]
      simp [hn]
  · obtain ⟨hadj, hn, -⟩ := SimpleGraph.deleteIncidenceSet_adj.1 hnm
    exact mem_keys_cut.2 ⟨h.inside n m hadj, hn⟩
  · obtain ⟨hn, hnl⟩ := mem_keys_cut.1 hn
    obtain ⟨hm, hml⟩ := mem_keys_cut.1 hm
    exact (reachable_without hleaf hnl (h.linked n hn m hm)).1 hml

/-- **a tree is left, with every terminal in it, and each of its leaves is a terminal** -/
theorem shows_cutLeaves (h : Shows T adj) (hfuel : adj.size ≤ fuel) (hterminals : ∀ t ∈ terminals, t ∈ adj.keys) :
    ∃ T' ≤ T, Shows T' (cutLeaves terminals fuel adj) ∧
      (∀ t ∈ terminals, t ∈ (cutLeaves terminals fuel adj).keys) ∧
      (∀ n ∈ (cutLeaves terminals fuel adj).keys, n ∈ adj.keys) ∧
      ∀ n ∈ (cutLeaves terminals fuel adj).keys, (T'.neighborSet n).Subsingleton → n ∈ terminals := by
  induction fuel generalizing T adj with
  | zero =>
    have hempty : adj.keys = [] := List.map_eq_nil_iff.2 (List.length_eq_zero_iff.1 (Nat.le_zero.1 hfuel))
    refine ⟨T, le_rfl, h, hterminals, fun _ => id, fun n hn => ?_⟩
    rw [cutLeaves, hempty] at hn
    exact absurd hn List.not_mem_nil
  | succ fuel ih =>
    rw [cutLeaves]
    split
    · rename_i leaf s hfind
      have hs : adj.get? leaf = some s := SortedMap.get?_eq_some_iff.2 (List.mem_of_find?_eq_some hfind)
      have hkey : leaf ∈ adj.keys := SortedMap.mem_keys.2 ⟨s, hs⟩
      have htest := List.find?_some hfind
      rw [Bool.and_eq_true, decide_eq_true_iff, SortedSet.not_contains_iff] at htest
      obtain ⟨T', hT', hshows, hin, hsub, hleaves⟩ := ih (h.cut hs htest.1)
        (Nat.le_of_lt_succ ((size_cut_lt hkey).trans_le hfuel))
        fun t ht => mem_keys_cut.2 ⟨hterminals t ht, fun heq => htest.2 (heq ▸ ht)⟩
      exact ⟨T', hT'.trans (SimpleGraph.deleteIncidenceSet_le _ _), hshows, hin,
        fun n hn => (mem_keys_cut.1 (hsub n hn)).1, hleaves⟩
    · rename_i hfind
      refine ⟨T, le_rfl, h, hterminals, fun _ => id, fun n hn hleaf => ?_⟩
      obtain ⟨s, hs⟩ := SortedMap.mem_keys.1 hn
      have htest := List.find?_eq_none.1 hfind (n, s) (SortedMap.get?_eq_some_iff.1 hs)
      have hsize : s.size ≤ 1 := SortedSet.size_le_one.2 fun x hx y hy =>
        hleaf ((h.neighbors n s hs x).1 hx) ((h.neighbors n s hs y).1 hy)
      by_contra hn
      rw [Bool.and_eq_true, decide_eq_true_iff, SortedSet.not_contains_iff] at htest
      exact htest ⟨hsize, hn⟩

end Steiner

end SemanticPlanner
