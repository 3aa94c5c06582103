/-
The closure of the terminals, a spanning tree of it, and the paths that it stands for.

  exists_links       there are links between the terminals if a path joins every two of them
  mem_closure        an edge of the closure joins two terminals, as heavy as a shortest path between them is long
  exists_joining     such an edge joins every two of them
  exists_kept, mem_keptPaths
                     each edge of the spanning tree is kept as such a path, and nothing else is
  Connects           edges of a graph that link some nodes with each other
  connects_expansion the kept paths link all their nodes, the terminals among them
  size_edgesOf_le    they have no more edges than the spanning tree weighs

Nothing here depends on which spanning tree is taken, only on its edges being some of the closure that link all of it.
-/
import SemanticPlanner.Proofs.ShortestPaths
import SemanticPlanner.Proofs.SpanningForests
import SemanticPlanner.Reference.Steiner

namespace SemanticPlanner

/-- more edges link more -/
theorem graphOf_mono {l m : List (GraphNode × GraphNode)} (h : l ⊆ m) : graphOf l ≤ graphOf m := by
  intro a b hab
  rw [graphOf, SimpleGraph.fromRel_adj] at hab ⊢
  exact ⟨hab.1, hab.2.imp (h ·) (h ·)⟩

namespace Steiner

open SpanningTree (Joins Linked IsMinimumForest weight)

variable {forest : List WeightedEdge → List WeightedEdge} {g : ReferenceGraph} {all ks : List Link} {k : Link}
  {ends p : List GraphNode} {paths : List (List GraphNode)} {l : List (Nat × GraphNode)} {e : WeightedEdge}
  {a b x y : GraphNode} {i j : Nat}

/-! ## Links -/

/-- the nodes by number -/
def numbered (ends : List GraphNode) : List (Nat × GraphNode) := ends.zipIdx.map fun (n, i) => (i, n)

theorem mem_numbered : (i, a) ∈ numbered ends ↔ ends[i]? = some a := by
  rw [numbered, List.mem_map]
  constructor
  · rintro ⟨⟨n, j⟩, hmem, ⟨⟩⟩
    exact List.mk_mem_zipIdx_iff_getElem?.1 hmem
  · exact fun h => ⟨(a, i), List.mk_mem_zipIdx_iff_getElem?.2 h, rfl⟩

theorem pairwise_numbered (ends : List GraphNode) : (numbered ends).Pairwise fun x y => x.1 < y.1 := by
  have h : (ends.zipIdx.map Prod.snd).Pairwise (· < ·) := by
    rw [List.zipIdx_map_snd]
    exact List.pairwise_lt_range'
  exact List.pairwise_map.2 (List.pairwise_map.1 h)

theorem map_snd_numbered (ends : List GraphNode) : (numbered ends).map Prod.snd = ends := by
  rw [numbered, List.map_map]
  exact List.zipIdx_map_fst 0 ends

theorem linksFrom_cons : linksFrom g i a ((j, b) :: l) = some ks ↔
    ∃ p rest, g.shortestPath a b = some p ∧ linksFrom g i a l = some rest ∧ ks = ⟨i, j, p⟩ :: rest := by
  rw [linksFrom]
  simp only [Option.bind_eq_bind, Option.bind_eq_some_iff, Option.pure_def, Option.some.injEq]
  exact ⟨fun ⟨p, hp, rest, hrest, h⟩ => ⟨p, rest, hp, hrest, h.symm⟩,
    fun ⟨p, rest, hp, hrest, h⟩ => ⟨p, hp, rest, hrest, h.symm⟩⟩

theorem links_cons : links g ((i, a) :: l) = some ks ↔
    ∃ first others, linksFrom g i a l = some first ∧ links g l = some others ∧ ks = first ++ others := by
  rw [links]
  simp only [Option.bind_eq_bind, Option.bind_eq_some_iff, Option.pure_def, Option.some.injEq]
  exact ⟨fun ⟨p, hp, rest, hrest, h⟩ => ⟨p, rest, hp, hrest, h.symm⟩,
    fun ⟨p, rest, hp, hrest, h⟩ => ⟨p, hp, rest, hrest, h.symm⟩⟩

theorem mem_linksFrom (h : linksFrom g i a l = some ks) :
    k ∈ ks ↔ k.left = i ∧ ∃ b, (k.right, b) ∈ l ∧ g.shortestPath a b = some k.path := by
  induction l generalizing ks with
  | nil =>
    obtain rfl : [] = ks := Option.some.inj h
    simp
  | cons x l ih =>
    obtain ⟨j, b⟩ := x
    obtain ⟨p, rest, hp, hrest, rfl⟩ := linksFrom_cons.1 h
    rw [List.mem_cons, ih hrest]
    constructor
    · rintro (rfl | ⟨hi, c, hc, hpath⟩)
      · exact ⟨rfl, b, List.mem_cons_self, hp⟩
      · exact ⟨hi, c, List.mem_cons_of_mem _ hc, hpath⟩
    · rintro ⟨hi, c, hc, hpath⟩
      rcases List.mem_cons.1 hc with hc | hc
      · obtain ⟨rfl, rfl⟩ := Prod.mk.inj hc
        obtain rfl : k.path = p := Option.some.inj (hpath.symm.trans hp)
        exact Or.inl (hi ▸ rfl)
      · exact Or.inr ⟨hi, c, hc, hpath⟩

theorem mem_links (hl : l.Pairwise fun x y => x.1 < y.1) (h : links g l = some ks) : k ∈ ks ↔ k.left < k.right ∧
    ∃ a b, (k.left, a) ∈ l ∧ (k.right, b) ∈ l ∧ g.shortestPath a b = some k.path := by
  induction l generalizing ks with
  | nil =>
    obtain rfl : [] = ks := Option.some.inj h
    simp
  | cons x l ih =>
    obtain ⟨i, a⟩ := x
    obtain ⟨hfirst, hl⟩ := List.pairwise_cons.1 hl
    obtain ⟨first, others, hfrom, hothers, rfl⟩ := links_cons.1 h
    rw [List.mem_append, mem_linksFrom hfrom, ih hl hothers]
    constructor
    · rintro (⟨rfl, b, hb, hp⟩ | ⟨hlt, c, d, hc, hd, hp⟩)
      · exact ⟨hfirst _ hb, a, b, List.mem_cons_self, List.mem_cons_of_mem _ hb, hp⟩
      · exact ⟨hlt, c, d, List.mem_cons_of_mem _ hc, List.mem_cons_of_mem _ hd, hp⟩
    · rintro ⟨hlt, c, d, hc, hd, hp⟩
      have hd' : (k.right, d) ∈ l := by
        refine (List.mem_cons.1 hd).resolve_left fun hd => ?_
        obtain ⟨rfl, rfl⟩ := Prod.mk.inj hd
        rcases List.mem_cons.1 hc with hc | hc
        · exact absurd (congrArg Prod.fst hc) (Nat.ne_of_lt hlt)
        · exact absurd (hfirst _ hc) (Nat.not_lt_of_lt hlt)
      rcases List.mem_cons.1 hc with hc | hc
      · obtain ⟨hi, rfl⟩ := Prod.mk.inj hc
        exact Or.inl ⟨hi, d, hd', hp⟩
      · exact Or.inr ⟨hlt, c, d, hc, hd', hp⟩

theorem exists_linksFrom :
    (∃ ks, linksFrom g i a l = some ks) ↔ ∀ x ∈ l, ∃ p, g.shortestPath a x.2 = some p := by
  induction l with
  | nil => exact ⟨fun _ => List.forall_mem_nil _, fun _ => ⟨[], rfl⟩⟩
  | cons x l ih =>
    obtain ⟨j, b⟩ := x
    simp only [linksFrom_cons, List.forall_mem_cons, ← ih]
    exact ⟨fun ⟨_, p, rest, hp, hrest, _⟩ => ⟨⟨p, hp⟩, rest, hrest⟩,
      fun ⟨⟨p, hp⟩, rest, hrest⟩ => ⟨_, p, rest, hp, hrest, rfl⟩⟩

/-- **there are links if a path joins every two nodes** -/
theorem exists_links :
    (∃ ks, links g l = some ks) ↔ l.Pairwise fun x y => ∃ p, g.shortestPath x.2 y.2 = some p := by
  induction l with
  | nil => exact ⟨fun _ => .nil, fun _ => ⟨[], rfl⟩⟩
  | cons x l ih =>
    obtain ⟨i, a⟩ := x
    simp only [links_cons, List.pairwise_cons, ← ih, ← exists_linksFrom (i := i)]
    exact ⟨fun ⟨_, first, others, hfirst, hothers, _⟩ => ⟨⟨first, hfirst⟩, others, hothers⟩,
      fun ⟨⟨first, hfirst⟩, others, hothers⟩ => ⟨_, first, others, hfirst, hothers, rfl⟩⟩

theorem exists_links_numbered :
    (∃ all, links g (numbered ends) = some all) ↔ ends.Pairwise fun a b => ∃ p, g.shortestPath a b = some p := by
  rw [exists_links]
  conv_rhs => rw [← map_snd_numbered ends, List.pairwise_map]

/-! ## The closure -/

/-- the links as edges, as heavy as their paths are long -/
def closure (all : List Link) : List WeightedEdge := all.map fun l => ⟨l.path.length - 1, l.left, l.right⟩

/-- a shortest path between the ends of an edge that is as heavy as it is long -/
def PathOf (g : ReferenceGraph) (ends : List GraphNode) (e : WeightedEdge) (p : List GraphNode) : Prop :=
  ∃ a b, ends[e.left]? = some a ∧ ends[e.right]? = some b ∧ g.shortestPath a b = some p ∧ e.weight = p.length - 1

theorem PathOf.unique {f : WeightedEdge} {q : List GraphNode} (hp : PathOf g ends e p) (hq : PathOf g ends f q)
    (hleft : f.left = e.left) (hright : f.right = e.right) : q = p := by
  obtain ⟨a, b, ha, hb, hp, -⟩ := hp
  obtain ⟨c, d, hc, hd, hq, -⟩ := hq
  rw [hleft, ha] at hc
  rw [hright, hb] at hd
  obtain ⟨rfl, rfl⟩ := And.intro (Option.some.inj hc) (Option.some.inj hd)
  exact Option.some.inj (hq.symm.trans hp)

theorem mem_links_numbered (h : links g (numbered ends) = some all) :
    k ∈ all ↔ k.left < k.right ∧ PathOf g ends ⟨k.path.length - 1, k.left, k.right⟩ k.path := by
  rw [mem_links (pairwise_numbered ends) h]
  simp only [mem_numbered, PathOf, and_true]

theorem mem_closure (h : links g (numbered ends) = some all) :
    e ∈ closure all ↔ e.left < e.right ∧ ∃ p, PathOf g ends e p := by
  rw [closure, List.mem_map]
  constructor
  · rintro ⟨k, hk, rfl⟩
    obtain ⟨hlt, hp⟩ := (mem_links_numbered h).1 hk
    exact ⟨hlt, k.path, hp⟩
  · rintro ⟨hlt, p, hp⟩
    obtain ⟨w, i, j⟩ := e
    obtain ⟨a, b, ha, hb, hpath, rfl⟩ := hp
    exact ⟨⟨i, j, p⟩, (mem_links_numbered h).2 ⟨hlt, a, b, ha, hb, hpath, rfl⟩, rfl⟩

/-! ## Kept paths -/

/-- the path of an edge of the closure -/
def pathFor (all : List Link) (e : WeightedEdge) : Option (List GraphNode) :=
  (all.find? fun l => l.left == e.left && l.right == e.right).map Link.path

theorem keptPaths_eq : keptPaths forest all = (forest (closure all)).filterMap (pathFor all) := rfl

theorem exists_pathFor (h : links g (numbered ends) = some all) (he : e ∈ closure all) :
    ∃ p, pathFor all e = some p ∧ PathOf g ends e p := by
  obtain ⟨k, hk, rfl⟩ := List.mem_map.1 he
  cases hfind : all.find? fun l => l.left == k.left && l.right == k.right with
  | none => exact absurd (List.find?_eq_none.1 hfind k hk) (by simp)
  | some f =>
    have hsame := List.find?_some hfind
    simp only [Bool.and_eq_true, beq_iff_eq] at hsame
    have hk := ((mem_links_numbered h).1 hk).2
    have hf := ((mem_links_numbered h).1 (List.mem_of_find?_eq_some hfind)).2
    exact ⟨f.path, congrArg (Option.map Link.path) hfind, hk.unique hf hsame.1 hsame.2 ▸ hk⟩

/-- the paths of some edges are together as long as the edges are heavy -/
theorem sum_pathFor (hall : links g (numbered ends) = some all) {kept : List WeightedEdge} (hsub : kept ⊆ closure all) :
    ((kept.filterMap (pathFor all)).map fun p => p.length - 1).sum = weight kept := by
  induction kept with
  | nil => rfl
  | cons e kept ih =>
    obtain ⟨p, hp, -, -, -, -, -, hweight⟩ := exists_pathFor hall (hsub List.mem_cons_self)
    rw [List.filterMap_cons_some hp, List.map_cons, List.sum_cons, ih fun _ h => hsub (List.mem_cons_of_mem _ h),
      SpanningTree.weight_cons, hweight]

section
variable (hf : ∀ edges, IsMinimumForest edges (forest edges)) (hall : links g (numbered ends) = some all)
include hf hall

theorem exists_kept (he : e ∈ forest (closure all)) : ∃ p ∈ keptPaths forest all, PathOf g ends e p := by
  obtain ⟨p, hp, hpath⟩ := exists_pathFor hall ((hf _).subset he)
  exact ⟨p, List.mem_filterMap.2 ⟨e, he, hp⟩, hpath⟩

theorem mem_keptPaths (hp : p ∈ keptPaths forest all) : ∃ e ∈ forest (closure all), PathOf g ends e p := by
  obtain ⟨e, he, hp⟩ := List.mem_filterMap.1 hp
  obtain ⟨q, hq, hpath⟩ := exists_pathFor hall ((hf _).subset he)
  exact ⟨e, he, Option.some.inj (hq.symm.trans hp) ▸ hpath⟩

end

/-! ## The edges of a path -/

theorem length_pathEdges (p : List GraphNode) : (pathEdges p).length = p.length - 1 := by
  induction p with
  | nil => rfl
  | cons a p ih =>
    cases p with
    | nil => rfl
    | cons b p =>
      rw [pathEdges, List.length_cons, ih]
      rfl

theorem mem_of_mem_pathEdges {d : GraphNode × GraphNode} (hd : d ∈ pathEdges p) : d.1 ∈ p ∧ d.2 ∈ p := by
  induction p with
  | nil => exact absurd hd List.not_mem_nil
  | cons a p ih =>
    cases p with
    | nil => exact absurd hd List.not_mem_nil
    | cons b p =>
      rcases List.mem_cons.1 hd with rfl | hd
      · split <;> simp
      · exact (ih hd).imp (List.mem_cons_of_mem _) (List.mem_cons_of_mem _)

theorem adj_of_mem_pathEdges {G : SimpleGraph GraphNode} {d : GraphNode × GraphNode} (w : G.Walk a b)
    (hd : d ∈ pathEdges w.support) : G.Adj d.1 d.2 := by
  induction w with
  | nil => exact absurd hd List.not_mem_nil
  | cons h w ih =>
    rw [SimpleGraph.Walk.support_cons, ← SimpleGraph.Walk.cons_tail_support, pathEdges] at hd
    rcases List.mem_cons.1 hd with rfl | hd
    · split
      · exact h
      · exact h.symm
    · rw [SimpleGraph.Walk.cons_tail_support] at hd
      exact ih hd

theorem reachable_head_pathEdges (hx : x ∈ a :: p) : (graphOf (pathEdges (a :: p))).Reachable a x := by
  induction p generalizing a with
  | nil => exact List.mem_singleton.1 hx ▸ .refl _
  | cons b p ih =>
    rcases List.mem_cons.1 hx with rfl | hx
    · exact .refl _
    have hrest : (graphOf (pathEdges (a :: b :: p))).Reachable b x :=
      (ih hx).mono (graphOf_mono (List.subset_cons_self _ _))
    by_cases hab : a = b
    · exact hab ▸ hrest
    · refine .trans (SimpleGraph.Adj.reachable ?_) hrest
      rw [graphOf, SimpleGraph.fromRel_adj, pathEdges]
      refine ⟨hab, ?_⟩
      split
      · exact Or.inl List.mem_cons_self
      · exact Or.inr List.mem_cons_self

/-- the edges of a path link all its nodes -/
theorem reachable_pathEdges (hx : x ∈ p) (hy : y ∈ p) : (graphOf (pathEdges p)).Reachable x y := by
  cases p with
  | nil => exact absurd hx List.not_mem_nil
  | cons a p => exact (reachable_head_pathEdges hx).symm.trans (reachable_head_pathEdges hy)

/-- the ends of every chain of edges are related if the ends of each edge are -/
theorem related_of_linked {α : Type} {nodes : List α} {R : α → α → Prop} {kept : List WeightedEdge}
    (hsymm : ∀ {a b}, R a b → R b a) (htrans : ∀ {a b c}, R a b → R b c → R a c)
    (hkept : ∀ e ∈ kept, ∃ a b, nodes[e.left]? = some a ∧ nodes[e.right]? = some b ∧ R a b) (h : Linked kept i j) :
    i = j ∨ ∃ a b, nodes[i]? = some a ∧ nodes[j]? = some b ∧ R a b := by
  induction h with
  | rel i j h =>
    obtain ⟨e, he, rfl, rfl⟩ := h
    exact Or.inr (hkept e he)
  | refl => exact Or.inl rfl
  | symm i j _ ih => exact ih.imp Eq.symm fun ⟨a, b, ha, hb, hr⟩ => ⟨b, a, hb, ha, hsymm hr⟩
  | trans i j k _ _ ih ih' =>
    rcases ih with rfl | ⟨a, b, ha, hb, hr⟩
    · exact ih'
    · rcases ih' with rfl | ⟨b', c, hb', hc, hr'⟩
      · exact Or.inr ⟨a, b, ha, hb, hr⟩
      · obtain rfl : b = b' := Option.some.inj (hb.symm.trans hb')
        exact Or.inr ⟨a, c, ha, hc, htrans hr hr'⟩

/-! ## Expansion -/

/-- the nodes on paths -/
def nodesOf (paths : List (List GraphNode)) : SortedSet GraphNode := SortedSet.ofList paths.flatten

/-- the edges along paths -/
def edgesOf (paths : List (List GraphNode)) : SortedSet (GraphNode × GraphNode) :=
  SortedSet.ofList (paths.flatMap pathEdges)

theorem mem_nodesOf : x ∈ nodesOf paths ↔ ∃ p ∈ paths, x ∈ p := by
  rw [nodesOf, SortedSet.mem_ofList, List.mem_flatten]

theorem mem_edgesOf {d : GraphNode × GraphNode} : d ∈ edgesOf paths ↔ ∃ p ∈ paths, d ∈ pathEdges p := by
  rw [edgesOf, SortedSet.mem_ofList, List.mem_flatMap]

/-- edges of a graph between some nodes that link them all with each other -/
structure Connects (G : SimpleGraph GraphNode) (nodes : SortedSet GraphNode)
    (edges : SortedSet (GraphNode × GraphNode)) : Prop where
  adj : ∀ d ∈ edges, G.Adj d.1 d.2
  ends : ∀ d ∈ edges, d.1 ∈ nodes ∧ d.2 ∈ nodes
  linked : ∀ x ∈ nodes, ∀ y ∈ nodes, (graphOf edges.toList).Reachable x y

/-- two nodes on paths that the edges along the paths link -/
def Joined (paths : List (List GraphNode)) (x y : GraphNode) : Prop :=
  x ∈ nodesOf paths ∧ y ∈ nodesOf paths ∧ (graphOf (edgesOf paths).toList).Reachable x y

theorem Joined.symm (h : Joined paths x y) : Joined paths y x := ⟨h.2.1, h.1, h.2.2.symm⟩

theorem Joined.trans {z : GraphNode} (h : Joined paths x y) (h' : Joined paths y z) : Joined paths x z :=
  ⟨h.1, h'.2.1, h.2.2.trans h'.2.2⟩

theorem Joined.of_mem (hp : p ∈ paths) (hx : x ∈ p) (hy : y ∈ p) : Joined paths x y :=
  ⟨mem_nodesOf.2 ⟨p, hp, hx⟩, mem_nodesOf.2 ⟨p, hp, hy⟩,
    (reachable_pathEdges hx hy).mono (graphOf_mono fun _ hd => mem_edgesOf.2 ⟨p, hp, hd⟩)⟩

theorem PathOf.exists_walk (h : PathOf g ends e p) : ∃ a b, ends[e.left]? = some a ∧ ends[e.right]? = some b ∧
    ∃ w : g.undirected.Walk a b, w.support = p ∧ ∀ v : g.undirected.Walk a b, e.weight ≤ v.length := by
  obtain ⟨a, b, ha, hb, hp, hweight⟩ := h
  obtain ⟨w, rfl, hleast⟩ := ReferenceGraph.exists_walk_of_shortestPath hp
  rw [SimpleGraph.Walk.length_support, Nat.add_sub_cancel] at hweight
  exact ⟨a, b, ha, hb, w, rfl, fun v => hweight ▸ hleast v⟩

/-- **every two terminals are joined by an edge that is no heavier than a walk between them is long** -/
theorem exists_joining (hall : links g (numbered ends) = some all) (hne : i ≠ j) (hi : ends[i]? = some a)
    (hj : ends[j]? = some b) :
    ∃ e ∈ closure all, Joins e i j ∧ ∀ v : g.undirected.Walk a b, e.weight ≤ v.length := by
  have hstep : ∀ {i j a b}, i < j → ends[i]? = some a → ends[j]? = some b →
      ∃ e ∈ closure all, e.left = i ∧ e.right = j ∧ ∀ v : g.undirected.Walk a b, e.weight ≤ v.length := by
    intro i j a b hlt ha hb
    have hpairs := exists_links_numbered.1 ⟨all, hall⟩
    rw [List.pairwise_iff_getElem] at hpairs
    obtain ⟨hi, rfl⟩ := List.getElem?_eq_some_iff.1 ha
    obtain ⟨hj, rfl⟩ := List.getElem?_eq_some_iff.1 hb
    obtain ⟨p, hp⟩ := hpairs i j hi hj hlt
    have hpath : PathOf g ends ⟨p.length - 1, i, j⟩ p := ⟨_, _, ha, hb, hp, rfl⟩
    refine ⟨_, (mem_closure hall).2 ⟨hlt, p, hpath⟩, rfl, rfl, ?_⟩
    obtain ⟨a, b, ha', hb', -, -, hleast⟩ := hpath.exists_walk
    obtain rfl := Option.some.inj (ha.symm.trans ha')
    obtain rfl := Option.some.inj (hb.symm.trans hb')
    exact hleast
  rcases Nat.lt_or_gt_of_ne hne with h | h
  · obtain ⟨e, he, hl, hr, hleast⟩ := hstep h hi hj
    exact ⟨e, he, Or.inl ⟨hl, hr⟩, hleast⟩
  · obtain ⟨e, he, hl, hr, hleast⟩ := hstep h hj hi
    exact ⟨e, he, Or.inr ⟨hl, hr⟩, fun v => v.length_reverse ▸ hleast v.reverse⟩

section
variable (hf : ∀ edges, IsMinimumForest edges (forest edges)) (hall : links g (numbered ends) = some all)
include hf hall

/-- the spanning tree links every two numbers -/
theorem linked_closure (hi : ends[i]? = some a) (hj : ends[j]? = some b) : Linked (forest (closure all)) i j := by
  by_cases hne : i = j
  · exact hne ▸ .refl _
  · obtain ⟨e, he, hjoins, -⟩ := exists_joining hall hne hi hj
    rcases hjoins with ⟨rfl, rfl⟩ | ⟨rfl, rfl⟩
    · exact (hf _).spans e he
    · exact .symm _ _ ((hf _).spans e he)

/-- the terminals lie on kept paths, which link every two of them -/
theorem terminal_joined (ha : a ∈ ends) (hb : b ∈ ends) (hne : a ≠ b) : Joined (keptPaths forest all) a b := by
  obtain ⟨i, hi⟩ := List.mem_iff_getElem?.1 ha
  obtain ⟨j, hj⟩ := List.mem_iff_getElem?.1 hb
  have hkept : ∀ e ∈ forest (closure all), ∃ a b, ends[e.left]? = some a ∧ ends[e.right]? = some b ∧
      Joined (keptPaths forest all) a b := by
    intro e he
    obtain ⟨p, hp, hpath⟩ := exists_kept hf hall he
    obtain ⟨a, b, ha, hb, w, rfl, -⟩ := hpath.exists_walk
    exact ⟨a, b, ha, hb, .of_mem hp w.start_mem_support w.end_mem_support⟩
  rcases related_of_linked (R := Joined (keptPaths forest all)) .symm .trans hkept (linked_closure hf hall hi hj) with
    rfl | ⟨a', b', ha', hb', h⟩
  · exact absurd (Option.some.inj (hi.symm.trans hj)) hne
  · obtain rfl : a = a' := Option.some.inj (hi.symm.trans ha')
    obtain rfl : b = b' := Option.some.inj (hj.symm.trans hb')
    exact h

/-- **the kept paths link all their nodes** -/
theorem connects_expansion :
    Connects g.undirected (nodesOf (keptPaths forest all)) (edgesOf (keptPaths forest all)) := by
  have hkept : ∀ p ∈ keptPaths forest all, ∃ a b, a ∈ ends ∧ b ∈ ends ∧ ∃ w : g.undirected.Walk a b, w.support = p := by
    intro p hp
    obtain ⟨e, -, hpath⟩ := mem_keptPaths hf hall hp
    obtain ⟨a, b, ha, hb, w, hw, -⟩ := hpath.exists_walk
    exact ⟨a, b, List.mem_of_getElem? ha, List.mem_of_getElem? hb, w, hw⟩
  constructor
  · intro d hd
    obtain ⟨p, hp, hd⟩ := mem_edgesOf.1 hd
    obtain ⟨a, b, -, -, w, rfl⟩ := hkept p hp
    exact adj_of_mem_pathEdges w hd
  · intro d hd
    obtain ⟨p, hp, hd⟩ := mem_edgesOf.1 hd
    exact (mem_of_mem_pathEdges hd).imp (mem_nodesOf.2 ⟨p, hp, ·⟩) (mem_nodesOf.2 ⟨p, hp, ·⟩)
  · intro x hx y hy
    -- each of them is joined with a terminal at the end of its own path
    obtain ⟨p, hp, hx⟩ := mem_nodesOf.1 hx
    obtain ⟨q, hq, hy⟩ := mem_nodesOf.1 hy
    obtain ⟨a, _, ha, -, v, rfl⟩ := hkept p hp
    obtain ⟨b, _, hb, -, w, rfl⟩ := hkept q hq
    have hxa : Joined (keptPaths forest all) x a := .of_mem hp hx v.start_mem_support
    have hby : Joined (keptPaths forest all) b y := .of_mem hq w.start_mem_support hy
    by_cases hne : a = b
    · exact ((hne ▸ hxa).trans hby).2.2
    · exact ((hxa.trans (terminal_joined hf hall ha hb hne)).trans hby).2.2

theorem size_edgesOf_le : (edgesOf (keptPaths forest all)).size ≤ weight (forest (closure all)) := by
  have hlength : ((keptPaths forest all).flatMap pathEdges).length = weight (forest (closure all)) := by
    rw [List.length_flatMap, keptPaths_eq, ← sum_pathFor hall (hf _).subset]
    simp only [length_pathEdges]
  rw [← hlength, SortedSet.size]
  exact (List.subperm_of_subset (SortedSet.nodup _) fun d hd => SortedSet.mem_ofList.1 hd).length_le

end

/-! ## The result -/

/-- what is computed if there are two terminals or more -/
theorem treeBy_eq {terminals : List GraphNode} (hnodes : ∀ t ∈ terminals, t ∈ g.nodes)
    (hsize : 1 < (SortedSet.ofList terminals).size) : treeBy forest g terminals =
    (links g (numbered (SortedSet.ofList terminals).toList)).map fun all =>
      (cutLeaves (SortedSet.ofList terminals) (nodesOf (keptPaths forest all)).size
        (spanning forest (nodesOf (keptPaths forest all)) (edgesOf (keptPaths forest all)))).keySet := by
  have hall : (SortedSet.ofList terminals).toList.all g.contains = true :=
    List.all_eq_true.2 fun t ht => SortedSet.contains_iff.2 (hnodes t (SortedSet.mem_ofList.1 ht))
  rw [treeBy]
  simp only [hall, Bool.not_true, Bool.false_eq_true, if_false, if_neg (Nat.not_le.2 hsize)]
  change (links g (numbered (SortedSet.ofList terminals).toList)).bind _ = _
  cases links g (numbered (SortedSet.ofList terminals).toList) <;> rfl

end Steiner

end SemanticPlanner
