/-
Minimum spanning forests, and that Kruskal's rule finds one.

  Linked, Spans, IsForest
                        chains of edges, edges that link what others link, and edges without a circle
  IsMinimumForest       a spanning forest of the least weight
  linkedOver_cons       what one more edge links
  LinkedOver.exchange   two edges that link the same parts can take each other's place
  forest_keep, spans_keep, weight_keep_le
                        what the rule keeps has no circle, links all that was linked, and weighs no more than what else
                        does, if the edges come by weight
  isMinimumForest_forest
                        Kruskal's rule finds a minimum spanning forest
  IsMinimumForest.weight_le
                        no edges that link as much weigh less, with or without circles

The rule starts from nodes in one tree each and makes two trees one. So the statements about it are over the trees that
there are already: what is linked is linked by edges and by lying in one tree.
-/
import SemanticPlanner.Proofs.LightestFirst
import Mathlib.Algebra.BigOperators.Group.List.Basic
import Mathlib.Algebra.Order.BigOperators.Group.List
import Mathlib.Algebra.Order.Ring.Nat
import Mathlib.Logic.Relation

namespace SemanticPlanner.SpanningTree

variable {edges kept other l m p s : List WeightedEdge} {e f : WeightedEdge} {t : Trees} {a b i j : Nat}

/-! ## Spanning forests -/

/-- two nodes are the same or linked by a chain of edges -/
def Linked (l : List WeightedEdge) : Nat → Nat → Prop := Relation.EqvGen fun i j => ∃ e ∈ l, e.left = i ∧ e.right = j

theorem Linked.mono (h : Linked l a b) (hl : l ⊆ m) : Linked m a b :=
  Relation.EqvGen.mono (fun _ _ ⟨e, he, hends⟩ => ⟨e, hl he, hends⟩) _ _ h

/-- two nodes are the ends of an edge -/
def Joins (e : WeightedEdge) (i j : Nat) : Prop := e.left = i ∧ e.right = j ∨ e.left = j ∧ e.right = i

theorem Joins.linked (h : Joins e i j) (he : e ∈ l) : Linked l i j :=
  h.elim (fun h => .rel _ _ ⟨e, he, h⟩) fun h => .symm _ _ (.rel _ _ ⟨e, he, h⟩)

/-- the ends of every edge are linked by the kept ones -/
def Spans (edges kept : List WeightedEdge) : Prop := ∀ e ∈ edges, Linked kept e.left e.right

/-- there is no circle: the ends of no edge are linked by the other ones -/
def IsForest (kept : List WeightedEdge) : Prop := ∀ p e s, kept = p ++ e :: s → ¬ Linked (p ++ s) e.left e.right

/-- the sum of the weights -/
def weight (l : List WeightedEdge) : Nat := (l.map WeightedEdge.weight).sum

/-- edges without a circle that link what all the edges link, of the least weight that there is -/
structure IsMinimumForest (edges kept : List WeightedEdge) : Prop where
  subset : kept ⊆ edges
  spans : Spans edges kept
  forest : IsForest kept
  least : ∀ other, other ⊆ edges → Spans edges other → IsForest other → weight kept ≤ weight other

theorem weight_append : weight (l ++ m) = weight l + weight m := by
  rw [weight, List.map_append, List.sum_append]
  rfl

theorem weight_cons : weight (e :: l) = e.weight + weight l := rfl

theorem weight_le_of_sublist (h : l.Sublist m) : weight l ≤ weight m :=
  (h.map WeightedEdge.weight).sum_le_sum fun _ _ => Nat.zero_le _

/-! ## Links over trees -/

/-- two nodes are linked by a chain of edges and of steps inside the trees that there are -/
def LinkedOver (t : Trees) (l : List WeightedEdge) : Nat → Nat → Prop :=
  Relation.EqvGen fun i j => t i = t j ∨ ∃ e ∈ l, e.left = i ∧ e.right = j

theorem linkedOver_id : LinkedOver id l a b ↔ Linked l a b := by
  constructor
  · intro h
    induction h with
    | rel i j h =>
      rcases h with h | h
      · exact (show i = j from h) ▸ .refl _
      · exact .rel _ _ h
    | refl => exact .refl _
    | symm _ _ _ ih => exact .symm _ _ ih
    | trans _ _ _ _ _ ih ih' => exact .trans _ _ _ ih ih'
  · exact Relation.EqvGen.mono (fun _ _ h => Or.inr h) _ _

namespace LinkedOver

theorem of_tree (h : t a = t b) : LinkedOver t l a b := .rel _ _ (Or.inl h)

theorem of_mem (h : e ∈ l) : LinkedOver t l e.left e.right := .rel _ _ (Or.inr ⟨e, h, rfl, rfl⟩)

/-- what is linked is linked over other trees and edges too, if each tree and the ends of each edge are -/
theorem mono {u : Trees} (h : LinkedOver t l a b) (ht : ∀ i j, t i = t j → LinkedOver u m i j)
    (hl : ∀ e ∈ l, LinkedOver u m e.left e.right) : LinkedOver u m a b := by
  induction h with
  | rel i j h =>
    rcases h with h | ⟨e, he, rfl, rfl⟩
    · exact ht i j h
    · exact hl e he
  | refl => exact .refl _
  | symm _ _ _ ih => exact .symm _ _ ih
  | trans _ _ _ _ _ ih ih' => exact .trans _ _ _ ih ih'

theorem subset (h : LinkedOver t l a b) (hl : l ⊆ m) : LinkedOver t m a b :=
  h.mono (fun _ _ => of_tree) fun _ he => of_mem (hl he)

theorem of_nil (h : LinkedOver t [] a b) : t a = t b := by
  induction h with
  | rel i j h =>
    rcases h with h | ⟨e, he, -⟩
    · exact h
    · exact absurd he List.not_mem_nil
  | refl => rfl
  | symm _ _ _ ih => exact ih.symm
  | trans _ _ _ _ _ ih ih' => exact ih.trans ih'

end LinkedOver

/-- **one more edge links what is linked with its two ends** -/
theorem linkedOver_cons : LinkedOver t (e :: l) a b ↔ LinkedOver t l a b ∨
    LinkedOver t l a e.left ∧ LinkedOver t l e.right b ∨ LinkedOver t l a e.right ∧ LinkedOver t l e.left b := by
  have hsymm : ∀ {i j}, LinkedOver t l i j → LinkedOver t l j i := .symm _ _
  have htrans : ∀ {i j k}, LinkedOver t l i j → LinkedOver t l j k → LinkedOver t l i k := .trans _ _ _
  constructor
  · intro h
    induction h with
    | rel i j h =>
      rcases h with h | ⟨f, hf, rfl, rfl⟩
      · exact Or.inl (.of_tree h)
      · rcases List.mem_cons.1 hf with rfl | hf
        · exact Or.inr (Or.inl ⟨.refl _, .refl _⟩)
        · exact Or.inl (.of_mem hf)
    | refl => exact Or.inl (.refl _)
    | symm i j _ ih =>
      rcases ih with h | ⟨h, h'⟩ | ⟨h, h'⟩
      · exact Or.inl (hsymm h)
      · exact Or.inr (Or.inr ⟨hsymm h', hsymm h⟩)
      · exact Or.inr (Or.inl ⟨hsymm h', hsymm h⟩)
    | trans i j k _ _ ih ih' =>
      rcases ih with h | ⟨h, h'⟩ | ⟨h, h'⟩ <;> rcases ih' with g | ⟨g, g'⟩ | ⟨g, g'⟩
      · exact Or.inl (htrans h g)
      · exact Or.inr (Or.inl ⟨htrans h g, g'⟩)
      · exact Or.inr (Or.inr ⟨htrans h g, g'⟩)
      · exact Or.inr (Or.inl ⟨h, htrans h' g⟩)
      · exact Or.inr (Or.inl ⟨h, g'⟩)
      · exact Or.inl (htrans h g')
      · exact Or.inr (Or.inr ⟨h, htrans h' g⟩)
      · exact Or.inl (htrans h g')
      · exact Or.inr (Or.inr ⟨h, g'⟩)
  · have hold : ∀ {i j}, LinkedOver t l i j → LinkedOver t (e :: l) i j := fun h =>
      h.subset (List.subset_cons_self _ _)
    have hedge : LinkedOver t (e :: l) e.left e.right := .of_mem List.mem_cons_self
    rintro (h | ⟨h, h'⟩ | ⟨h, h'⟩)
    · exact hold h
    · exact .trans _ _ _ (hold h) (.trans _ _ _ hedge (hold h'))
    · exact .trans _ _ _ (hold h) (.trans _ _ _ (.symm _ _ hedge) (hold h'))

/-- **two edges that link the same parts can take each other's place** -/
theorem LinkedOver.exchange (h : LinkedOver t (f :: l) e.left e.right) (hnot : ¬ LinkedOver t l e.left e.right) :
    LinkedOver t (e :: l) f.left f.right := by
  rcases linkedOver_cons.1 h with h | ⟨h, h'⟩ | ⟨h, h'⟩
  · exact absurd h hnot
  · exact linkedOver_cons.2 (Or.inr (Or.inl ⟨.symm _ _ h, .symm _ _ h'⟩))
  · exact linkedOver_cons.2 (Or.inr (Or.inr ⟨h', h⟩))

/-- the first edge with which two nodes are linked -/
theorem exists_linking (h : LinkedOver t (p ++ l) a b) (hnot : ¬ LinkedOver t p a b) : ∃ q f s, l = q ++ f :: s ∧
    ¬ LinkedOver t (p ++ q) a b ∧ LinkedOver t (f :: (p ++ q)) a b := by
  induction l generalizing p with
  | nil =>
    rw [List.append_nil] at h
    exact absurd h hnot
  | cons f l ih =>
    by_cases hlinks : LinkedOver t (f :: p) a b
    · exact ⟨[], f, l, rfl, by rwa [List.append_nil], by rwa [List.append_nil]⟩
    · have hmore : ¬ LinkedOver t (p ++ [f]) a b := fun h =>
        hlinks (h.subset (List.perm_append_singleton f p).subset)
      obtain ⟨q, g, s, rfl, hbefore, hafter⟩ := ih (by rwa [List.append_assoc]) hmore
      rw [List.append_assoc] at hbefore hafter
      exact ⟨f :: q, g, s, rfl, hbefore, hafter⟩

/-! ## Joined trees -/

theorem joinTrees_eq : joinTrees t e i = joinTrees t e j ↔
    t i = t j ∨ t i = t e.left ∧ t e.right = t j ∨ t i = t e.right ∧ t e.left = t j := by
  unfold joinTrees
  split <;> split <;> omega

/-- **joined trees link what the trees and the edge link** -/
theorem linkedOver_joinTrees : LinkedOver (joinTrees t e) l a b ↔ LinkedOver t (e :: l) a b := by
  constructor
  · refine fun h => h.mono (fun i j hij => ?_) fun f hf => .of_mem (List.mem_cons_of_mem _ hf)
    exact linkedOver_cons.2 ((joinTrees_eq.1 hij).imp .of_tree (Or.imp (And.imp .of_tree .of_tree)
      (And.imp .of_tree .of_tree)))
  · refine fun h => h.mono (fun i j hij => .of_tree (joinTrees_eq.2 (Or.inl hij))) fun f hf => ?_
    rcases List.mem_cons.1 hf with rfl | hf
    · exact .of_tree (joinTrees_eq.2 (Or.inr (Or.inl ⟨rfl, rfl⟩)))
    · exact .of_mem hf

/-! ## Kruskal's rule -/

theorem keep_sublist (t : Trees) (l : List WeightedEdge) : (keep t l).Sublist l := by
  induction l generalizing t with
  | nil => exact .refl _
  | cons e l ih =>
    rw [keep]
    split
    · exact (ih t).cons e
    · exact (ih _).cons_cons e

/-- **the kept edges link the ends of every edge** -/
theorem spans_keep (t : Trees) (he : e ∈ l) : LinkedOver t (keep t l) e.left e.right := by
  induction l generalizing t with
  | nil => exact absurd he List.not_mem_nil
  | cons f l ih =>
    rw [keep]
    split
    · rename_i hjoined
      rcases List.mem_cons.1 he with rfl | he
      · exact .of_tree hjoined
      · exact ih t he
    · rcases List.mem_cons.1 he with rfl | he
      · exact .of_mem List.mem_cons_self
      · exact linkedOver_joinTrees.1 (ih _ he)

/-- **the kept edges have no circle** -/
theorem forest_keep (t : Trees) (l : List WeightedEdge) :
    ∀ p e s, keep t l = p ++ e :: s → ¬ LinkedOver t (p ++ s) e.left e.right := by
  induction l generalizing t with
  | nil => exact fun p e s h => absurd h.symm (List.append_ne_nil_of_right_ne_nil _ (List.cons_ne_nil _ _))
  | cons f l ih =>
    intro p e s hsplit hlinked
    rw [keep] at hsplit
    split at hsplit
    · exact ih t p e s hsplit hlinked
    rename_i hapart
    cases p with
    | cons g p =>
      obtain ⟨rfl, hrest⟩ := List.cons.inj hsplit
      exact ih _ p e s hrest (linkedOver_joinTrees.2 hlinked)
    | nil =>
      -- the later edge with which the ends were linked would close a circle itself
      obtain ⟨rfl, rfl⟩ := List.cons.inj hsplit
      obtain ⟨q, g, r, hrest, hbefore, hafter⟩ := exists_linking (p := []) hlinked fun h => hapart h.of_nil
      have hcircle := linkedOver_joinTrees.2 (hafter.exchange hbefore)
      exact ih _ q g r hrest (hcircle.subset (List.subset_append_left _ _))

/-- an edge inside one tree is of no use -/
theorem LinkedOver.without (h : LinkedOver t l a b) (hjoined : t e.left = t e.right) :
    LinkedOver t (l.filter (· ≠ e)) a b := by
  refine h.mono (fun _ _ => .of_tree) fun f hf => ?_
  by_cases hfe : f = e
  · exact .of_tree (hfe ▸ hjoined)
  · exact .of_mem (List.mem_filter.2 ⟨hf, by simpa using hfe⟩)

/-- once an edge has joined two trees, it takes the place of one that links the same parts -/
theorem LinkedOver.replace (h : LinkedOver t (p ++ f :: s) a b) (hplace : LinkedOver (joinTrees t e) p f.left f.right) :
    LinkedOver (joinTrees t e) (p ++ s) a b := by
  refine h.mono (fun i j hij => .of_tree (joinTrees_eq.2 (Or.inl hij))) fun k hk => ?_
  rcases List.mem_append.1 hk with hk | hk
  · exact .of_mem (List.mem_append_left _ hk)
  · rcases List.mem_cons.1 hk with rfl | hk
    · exact hplace.subset (List.subset_append_left _ _)
    · exact .of_mem (List.mem_append_right _ hk)

/-- **the kept edges weigh no more than others that link as much**, if the edges come by weight -/
theorem weight_keep_le (hsorted : Sorted l) (hsub : other ⊆ l)
    (hspans : ∀ e ∈ l, LinkedOver t other e.left e.right) : weight (keep t l) ≤ weight other := by
  induction l generalizing t other with
  | nil => exact Nat.zero_le _
  | cons e l ih =>
    obtain ⟨hleast, hsorted⟩ := List.pairwise_cons.1 hsorted
    -- once the trees at its ends are joined, the others need not have the edge
    have hwithout : ∀ {u : Trees} {m : List WeightedEdge}, u e.left = u e.right → m ⊆ e :: l →
        (∀ f ∈ l, LinkedOver u m f.left f.right) → weight (keep u l) ≤ weight m := by
      intro u m hjoined hm hlinks
      have hothers : m.filter (· ≠ e) ⊆ l := by
        intro f hf
        obtain ⟨hf, hne⟩ := List.mem_filter.1 hf
        exact (List.mem_cons.1 (hm hf)).resolve_left (by simpa using hne)
      exact (ih hsorted hothers fun f hf => (hlinks f hf).without hjoined).trans
        (weight_le_of_sublist List.filter_sublist)
    rw [keep]
    split
    · rename_i hjoined
      exact hwithout hjoined hsub fun f hf => hspans f (List.mem_cons_of_mem _ hf)
    · rename_i hapart
      -- the edge takes the place of the first of the others that links its ends, which is no lighter
      obtain ⟨p, f, s, rfl, hbefore, hafter⟩ := exists_linking (p := []) (hspans e List.mem_cons_self) fun h =>
        hapart h.of_nil
      have hplace : LinkedOver (joinTrees t e) p f.left f.right := linkedOver_joinTrees.2 (hafter.exchange hbefore)
      have hrest : p ++ s ⊆ e :: l := List.Subset.trans ((List.sublist_cons_self f s).append_left p).subset hsub
      have hjoin : weight (keep (joinTrees t e) l) ≤ weight (p ++ s) :=
        hwithout (joinTrees_eq.2 (Or.inr (Or.inl ⟨rfl, rfl⟩))) hrest fun g hg =>
          (hspans g (List.mem_cons_of_mem _ hg)).replace hplace
      have hweight : e.weight ≤ f.weight := by
        rcases List.mem_cons.1 (hsub (List.mem_append_right p List.mem_cons_self)) with rfl | hf
        · exact Nat.le_refl _
        · exact hleast f hf
      rw [weight_append] at hjoin
      rw [weight_cons, weight_append, weight_cons]
      omega

theorem isForest_keep (l : List WeightedEdge) : IsForest (keep id l) := fun p e s hsplit hlinked =>
  forest_keep id l p e s hsplit (linkedOver_id.2 hlinked)

/-- **Kruskal's rule finds a minimum spanning forest** -/
theorem isMinimumForest_forest (edges : List WeightedEdge) : IsMinimumForest edges (forest edges) := by
  obtain ⟨hall, hsorted⟩ := perm_sorted_lightestFirst edges
  refine ⟨List.Subset.trans (keep_sublist _ _).subset hall.subset, fun e he => ?_, isForest_keep _,
    fun other hother hspans _ => ?_⟩
  · exact linkedOver_id.1 (spans_keep id (hall.mem_iff.2 he))
  · exact weight_keep_le hsorted (List.Subset.trans hother hall.symm.subset) fun e he =>
      linkedOver_id.2 (hspans e (hall.mem_iff.1 he))

/-- **nothing that links as much weighs less than a minimum spanning forest**, circles or not -/
theorem IsMinimumForest.weight_le (h : IsMinimumForest edges kept) (hother : other ⊆ edges)
    (hspans : Spans edges other) : weight kept ≤ weight other := by
  have hsub := keep_sublist id other
  refine (h.least (keep id other) (List.Subset.trans hsub.subset hother) (fun e he => ?_) (isForest_keep other)).trans
    (weight_le_of_sublist hsub)
  exact linkedOver_id.1 ((linkedOver_id.2 (hspans e he)).mono (fun _ _ => .of_tree) fun f hf => spans_keep id hf)

end SemanticPlanner.SpanningTree
