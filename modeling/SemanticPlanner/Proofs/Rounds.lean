/-
The rounds of a search for bridges.

  Tidy                what a graph keeps for a node or an edge, it keeps for nodes that it has
  crossings_succ      a round by the concepts that it finds
  round_shrinks       a round removes a concept node, or finds removed concepts alone and changes nothing
  crossings_stuck     the latter is repeated until the limit
  crossings_settles   without it, more rounds than there are concept nodes are enough
  putBack_of_found    what a round finds although it was removed is a key that two datasources share
  groups_limit_iff    the limit is reached exactly if some round finds nothing but such keys

A round looks for a tree in what earlier rounds left. The keys that the datasources of the tree share are then added by
their columns, removed or not. So a round can find keys alone that were removed before; it has nothing left to remove,
and the next one finds the same.
-/
import SemanticPlanner.Proofs.Bridging
import SemanticPlanner.Proofs.Links

namespace SemanticPlanner

theorem SortedMap.filter_eq_self {κ ν : Type} [Sorts κ] {m : SortedMap κ ν} {keep : κ → ν → Bool}
    (h : ∀ k v, m.get? k = some v → keep k v = true) : m.filter keep = m := by
  have hall : m.toList.filter (fun e => keep e.1 e.2) = m.toList :=
    List.filter_eq_self.2 fun e he => h e.1 e.2 (get?_eq_some_iff.2 he)
  cases m
  simpa [filter] using hall

namespace ReferenceGraph

variable {env : Environment} {g h : ReferenceGraph} {c : Concept} {m n : GraphNode} {l : List GraphNode}

/-! ## Tidy graphs -/

/-- edges and marks join nodes of the graph, and nothing is kept for other nodes -/
structure Tidy (g : ReferenceGraph) : Prop where
  ends : ∀ e ∈ g.edges, e.1 ∈ g.nodes ∧ e.2 ∈ g.nodes
  marks : ∀ e ∈ g.pseudonyms, e.1 ∈ g.nodes ∧ e.2 ∈ g.nodes
  concepts : ∀ n c, g.concepts.get? n = some c → n ∈ g.nodes
  sources : ∀ n s, g.sources.get? n = some s → n ∈ g.nodes

namespace Tidy

theorem empty : ReferenceGraph.empty.Tidy where
  ends _ h := absurd h (SortedSet.not_mem_empty _)
  marks _ h := absurd h (SortedSet.not_mem_empty _)
  concepts _ _ h := by cases h
  sources _ _ h := by cases h

theorem addConcept (hg : g.Tidy) (c : Concept) : (g.addConcept c).Tidy := by
  have hold : ∀ {n}, n ∈ g.nodes → n ∈ (g.addConcept c).nodes := fun hn => SortedSet.mem_insert.2 (Or.inr hn)
  refine ⟨fun e he => (hg.ends e he).imp hold hold, fun e he => (hg.marks e he).imp hold hold, fun n d hd => ?_,
    fun n s hs => hold (hg.sources n s hs)⟩
  change (g.concepts.insert (.ofConcept c) c).get? n = some d at hd
  rw [SortedMap.get?_insert] at hd
  split at hd
  · rename_i hn
    exact SortedSet.mem_insert.2 (Or.inl hn)
  · exact hold (hg.concepts n d hd)

theorem addSource (hg : g.Tidy) (s : GraphSource) : (g.addSource s).Tidy := by
  have hold : ∀ {n}, n ∈ g.nodes → n ∈ (g.addSource s).nodes := fun hn => SortedSet.mem_insert.2 (Or.inr hn)
  refine ⟨fun e he => (hg.ends e he).imp hold hold, fun e he => (hg.marks e he).imp hold hold,
    fun n d hd => hold (hg.concepts n d hd), fun n t ht => ?_⟩
  change (g.sources.insert (.datasource s.name) s).get? n = some t at ht
  rw [SortedMap.get?_insert] at ht
  split at ht
  · rename_i hn
    exact SortedSet.mem_insert.2 (Or.inl hn)
  · exact hold (hg.sources n t ht)

theorem addEdge (hg : g.Tidy) (m n : GraphNode) : (g.addEdge m n).Tidy := by
  by_cases hmn : m = n
  · rw [ReferenceGraph.addEdge, if_pos hmn]
    exact hg
  rw [addEdge_of_ne g hmn]
  have hold : ∀ {k}, k ∈ g.nodes → k ∈ (g.nodes.insert m).insert n := fun hk =>
    SortedSet.mem_insert.2 (Or.inr (SortedSet.mem_insert.2 (Or.inr hk)))
  refine ⟨fun e he => ?_, fun e he => (hg.marks e he).imp hold hold, fun k d hd => hold (hg.concepts k d hd),
    fun k s hs => hold (hg.sources k s hs)⟩
  rcases SortedSet.mem_insert.1 he with rfl | he
  · exact ⟨SortedSet.mem_insert.2 (Or.inr (SortedSet.mem_insert.2 (Or.inl rfl))), SortedSet.mem_insert.2 (Or.inl rfl)⟩
  · exact (hg.ends e he).imp hold hold

theorem addPseudonym (hg : g.Tidy) (h : m ≠ n) : (g.addPseudonym m n).Tidy := by
  have hboth : (g.addBoth m n).Tidy := (hg.addEdge m n).addEdge n m
  have hnodes := fun k => (mem_nodes_addBoth (g := g) h (k := k)).2
  rw [addPseudonym_of_ne g h]
  refine ⟨hboth.ends, fun e he => ?_, hboth.concepts, hboth.sources⟩
  rcases SortedSet.mem_insert.1 he with rfl | he
  · exact ⟨hnodes n (Or.inr (Or.inr rfl)), hnodes m (Or.inr (Or.inl rfl))⟩
  rcases SortedSet.mem_insert.1 he with rfl | he
  · exact ⟨hnodes m (Or.inr (Or.inl rfl)), hnodes n (Or.inr (Or.inr rfl))⟩
  · exact (hg.marks e he).imp (fun h => hnodes _ (Or.inl h)) fun h => hnodes _ (Or.inl h)

theorem removeNode (hg : g.Tidy) (n : GraphNode) : (g.removeNode n).Tidy := by
  have hends : ∀ {s : SortedSet (GraphNode × GraphNode)}, (∀ e ∈ s, e.1 ∈ g.nodes ∧ e.2 ∈ g.nodes) →
      ∀ e ∈ s.filter (fun e => e.1 != n && e.2 != n), e.1 ∈ g.nodes.erase n ∧ e.2 ∈ g.nodes.erase n := by
    intro s hs e he
    obtain ⟨he, hne⟩ := SortedSet.mem_filter.1 he
    rw [Bool.and_eq_true, bne_iff_ne, bne_iff_ne] at hne
    exact ⟨SortedSet.mem_erase.2 ⟨(hs e he).1, hne.1⟩, SortedSet.mem_erase.2 ⟨(hs e he).2, hne.2⟩⟩
  refine ⟨hends hg.ends, hends hg.marks, fun k c hc => ?_, fun k s hs => ?_⟩
  · change (g.concepts.erase n).get? k = some c at hc
    rw [SortedMap.get?_erase] at hc
    split at hc
    · cases hc
    · rename_i hk
      exact SortedSet.mem_erase.2 ⟨hg.concepts k c hc, hk⟩
  · change (g.sources.erase n).get? k = some s at hs
    rw [SortedMap.get?_erase] at hs
    split at hs
    · cases hs
    · rename_i hk
      exact SortedSet.mem_erase.2 ⟨hg.sources k s hs, hk⟩

/-- a node that is not there is removed without a trace -/
theorem removeNode_of_not_mem (hg : g.Tidy) (hn : n ∉ g.nodes) : g.removeNode n = g := by
  have hne : ∀ k ∈ g.nodes, k ≠ n := fun k hk h => hn (h ▸ hk)
  have hends : ∀ {s : SortedSet (GraphNode × GraphNode)}, (∀ e ∈ s, e.1 ∈ g.nodes ∧ e.2 ∈ g.nodes) →
      s.filter (fun e => e.1 != n && e.2 != n) = s := by
    intro s hs
    refine SortedSet.ext fun e => SortedSet.mem_filter.trans (and_iff_left_of_imp fun he => ?_)
    rw [Bool.and_eq_true, bne_iff_ne, bne_iff_ne]
    exact ⟨hne _ (hs e he).1, hne _ (hs e he).2⟩
  have hnodes : g.nodes.erase n = g.nodes :=
    SortedSet.ext fun k => SortedSet.mem_erase.trans (and_iff_left_of_imp (hne k))
  have hconcepts : g.concepts.erase n = g.concepts :=
    SortedMap.filter_eq_self fun k c hc => bne_iff_ne.2 (hne k (hg.concepts k c hc))
  have hsources : g.sources.erase n = g.sources :=
    SortedMap.filter_eq_self fun k s hs => bne_iff_ne.2 (hne k (hg.sources k s hs))
  rw [ReferenceGraph.removeNode, hnodes, hends hg.ends, hconcepts, hsources, hends hg.marks]

theorem removeNodes_of_not_mem (hg : g.Tidy) (hl : ∀ n ∈ l, n ∉ g.nodes) : l.foldl ReferenceGraph.removeNode g = g := by
  induction l with
  | nil => rfl
  | cons n l ih =>
    obtain ⟨hn, hl⟩ := List.forall_mem_cons.1 hl
    rw [List.foldl_cons, hg.removeNode_of_not_mem hn]
    exact ih hl

theorem removeNodes (hg : g.Tidy) (l : List GraphNode) : (l.foldl ReferenceGraph.removeNode g).Tidy :=
  List.foldlRecOn _ _ hg fun _ hg n _ => hg.removeNode n

end Tidy

theorem mem_nodes_removeNodes : n ∈ (l.foldl removeNode g).nodes ↔ n ∈ g.nodes ∧ n ∉ l := by
  induction l generalizing g with
  | nil => simp
  | cons m l ih =>
    rw [List.foldl_cons, ih, List.mem_cons, not_or, ← and_assoc]
    exact and_congr_left fun _ => SortedSet.mem_erase

/-- what is kept for a datasource after removals was kept before -/
theorem sources_removeNodes {s : GraphSource} (hs : (l.foldl removeNode g).sources.get? n = some s) :
    g.sources.get? n = some s := by
  induction l generalizing g with
  | nil => exact hs
  | cons m l ih =>
    have hs : (g.sources.erase m).get? n = some s := ih hs
    rw [SortedMap.get?_erase] at hs
    split at hs
    · cases hs
    · exact hs

/-! ## The graph of an environment -/

theorem Follows.tidy {t : Task} {b b' : Draft} (h : Follows env t b b') (hb : b.graph.Tidy) :
    b'.graph.Tidy := by
  induction h with
  | seen | noArgument | noPseudonym | noConcept => exact hb
  | entered _ _ _ _ ih₁ ih₂ => exact ih₂ (ih₁ (hb.addConcept _))
  | argument _ _ _ _ ih₁ ih₂ => exact ih₂ ((ih₁ hb).addEdge _ _)
  | passed _ _ _ ih => exact ih hb
  | pseudonym _ hne _ _ ih₁ ih₂ => exact ih₂ (ih₁ (hb.addPseudonym (ofConcept_ne hne.symm)))
  | next _ _ ih₁ ih₂ => exact ih₂ (ih₁ hb)

theorem Follows.sources {t : Task} {b b' : Draft} (h : Follows env t b b') : b'.graph.sources = b.graph.sources := by
  induction h with
  | seen | noArgument | noPseudonym | noConcept => rfl
  | entered _ _ _ _ ih₁ ih₂ => exact ih₂.trans ih₁
  | argument _ _ _ _ ih₁ ih₂ => exact ih₂.trans ((sources_addEdge _ _ _).trans ih₁)
  | passed _ _ _ ih => exact ih
  | pseudonym _ hne _ _ ih₁ ih₂ =>
    refine ih₂.trans (ih₁.trans ?_)
    rw [Draft.join, addPseudonym_of_ne _ (ofConcept_ne hne.symm), addBoth_of_ne _ (ofConcept_ne hne.symm)]
  | next _ _ ih₁ ih₂ => exact ih₂.trans ih₁

theorem tidy_attach {s : Datasource} (hattach : attach env g s = .ok h) (hg : g.Tidy) : h.Tidy := by
  refine foldlM_keeps hattach (hg.addSource _) fun g a h hg ha => ?_
  obtain ⟨c, -, rfl⟩ := column_attached ha
  exact ((hg.addConcept c).addEdge _ _).addEdge _ _

theorem tidy_ofEnvironment (hk : env.Keyed) (hgraph : ofEnvironment env = .ok g) : g.Tidy := by
  obtain ⟨b, hfollows, hattach⟩ := built_of_ofEnvironment hk hgraph
  exact foldlM_keeps hattach (hfollows.tidy .empty) fun _ _ _ hg hs => tidy_attach hs hg

/-- the datasources that a graph keeps are those of an environment, under their names -/
theorem exists_source (henv : env.Closed) (hgraph : ofEnvironment env = .ok g) {s : GraphSource}
    (hs : g.sources.get? n = some s) : ∃ i d, env.datasources.get? i = some d ∧ n = .datasource i ∧ s = .single d := by
  obtain ⟨b, hfollows, hattach⟩ := built_of_ofEnvironment henv.keyed hgraph
  have hadds := foldlM_adds (P := fun g : ReferenceGraph => (g.sources.get? n).isSome = true)
    (Q := fun d : Datasource => n = .datasource d.identifier) hattach fun g d _ h hd => by
      rw [(attached_of_attach henv.keyed hd).sources]
      split
      · rename_i hn
        exact iff_of_true rfl (Or.inr hn)
      · rename_i hn
        exact (or_iff_left hn).symm
  rcases hadds.1 (by rw [hs]; rfl) with hnone | ⟨d, hd, rfl⟩
  · rw [hfollows.sources] at hnone
    cases hnone
  · obtain ⟨i, hi⟩ := SortedMap.mem_values.1 hd
    have hidentifier : d.identifier = i := henv.filed i d hi
    have hkept := sources_attached henv hattach hi
    rw [hidentifier] at hs ⊢
    exact ⟨i, d, hi, rfl, Option.some.inj (hs.symm.trans hkept)⟩

/-- the columns of a datasource have nodes -/
theorem column_mem_nodes (henv : env.Closed) (hgraph : ofEnvironment env = .ok g) {i x : String} {d : Datasource}
    (hd : env.datasources.get? i = some d) (hx : x ∈ d.outputs) (hc : env.find? x = some c) :
    .ofConcept c ∈ g.nodes := by
  obtain ⟨b, -, hattach⟩ := built_of_ofEnvironment henv.keyed hgraph
  have hadds := foldlM_adds (P := fun g : ReferenceGraph => GraphNode.ofConcept c ∈ g.nodes) hattach fun g s _ h hs =>
    (attached_of_attach henv.keyed hs).nodes _
  exact hadds.2 (Or.inr ⟨d, SortedMap.mem_values.2 ⟨i, hd⟩, Or.inr ⟨x, hx, c, hc, rfl⟩⟩)

end ReferenceGraph

namespace Bridge

open ReferenceGraph

variable {env : Environment} {graph start g h t : ReferenceGraph} {a : Aim} {condition : Option Condition}
  {limit fuel : Nat} {n : GraphNode} {new : List GraphNode}

/-! ## Rounds -/

/-- the concepts that a round finds between the wanted ones, if it finds a connecting graph -/
def foundIn (env : Environment) (a : Aim) (g : ReferenceGraph) : Option (List GraphNode) :=
  (connecting env g a).bind fun t =>
    if t.nodes.isEmpty || t.components.length != 1 then none
    else some (t.conceptNodes.filter fun n => n.address?.any fun x => !a.wanted.contains x)

/-- a round that goes on, with what it leaves -/
def Round (env : Environment) (a : Aim) (g h : ReferenceGraph) : Prop :=
  ∃ new, foundIn env a g = some new ∧ new ≠ [] ∧ h = new.foldl removeNode g

abbrev Rounds (env : Environment) (a : Aim) : ReferenceGraph → ReferenceGraph → Prop :=
  Relation.ReflTransGen (Round env a)

/-- a round finds concepts, but none that is left -/
def Idle (env : Environment) (a : Aim) (g : ReferenceGraph) : Prop :=
  ∃ new, foundIn env a g = some new ∧ new ≠ [] ∧ ∀ n ∈ new, n ∉ g.nodes

/-- a round ends the search, or leaves it to the next one -/
theorem crossings_succ (env : Environment) (a : Aim) (limit fuel : Nat) (g : ReferenceGraph) :
    (∃ found, crossings env a limit (fuel + 1) g = .ok found) ∧ (∀ h, ¬ Round env a g h) ∨
    ∃ h x, Round env a g h ∧
      crossings env a limit (fuel + 1) g = crossings env a limit fuel h >>= fun rest => .ok (x :: rest) := by
  rw [crossings]
  have hround : ∀ {found : Option (List GraphNode)}, foundIn env a g = found → found.getD [] = [] →
      ∀ h, ¬ Round env a g h := by
    rintro found hfound hnil h ⟨new, hnew, hne, -⟩
    rw [← hfound, hnew] at hnil
    exact hne hnil
  split
  · rename_i hnone
    exact Or.inl ⟨⟨_, rfl⟩, hround (by rw [foundIn, hnone]) rfl⟩
  rename_i t ht
  have hfound : foundIn env a g = if t.nodes.isEmpty || t.components.length != 1 then none
      else some (t.conceptNodes.filter fun n => n.address?.any fun x => !a.wanted.contains x) := by
    rw [foundIn, ht]
    rfl
  split
  · rename_i hapart
    rw [if_pos hapart] at hfound
    exact Or.inl ⟨⟨_, rfl⟩, hround hfound rfl⟩
  rename_i hconnected
  rw [if_neg hconnected] at hfound
  dsimp only
  split
  · rename_i hempty
    exact Or.inl ⟨⟨_, rfl⟩, hround hfound (List.isEmpty_iff.1 hempty)⟩
  · rename_i hsome
    exact Or.inr ⟨_, _, ⟨_, hfound, fun hnil => hsome (List.isEmpty_iff.2 hnil), rfl⟩, rfl⟩

/-- a round finds concepts alone -/
theorem isDatasource_of_found (hfound : foundIn env a g = some new) (hn : n ∈ new) : n.isDatasource = false := by
  obtain ⟨t, -, ht⟩ := Option.bind_eq_some_iff.1 hfound
  split at ht
  · cases ht
  · cases ht
    exact (mem_conceptNodes.1 (List.mem_filter.1 hn).1).2

theorem Round.eq (hround : Round env a g h) (hround' : Round env a g t) : h = t := by
  obtain ⟨new, hfound, -, rfl⟩ := hround
  obtain ⟨new', hfound', -, rfl⟩ := hround'
  rw [Option.some.inj (hfound.symm.trans hfound')]

theorem Round.tidy (hround : Round env a g h) (hg : g.Tidy) : h.Tidy := by
  obtain ⟨new, -, -, rfl⟩ := hround
  exact hg.removeNodes new

/-- an idle round leaves what it finds -/
theorem Idle.round (hidle : Idle env a g) (hg : g.Tidy) : Round env a g g := by
  obtain ⟨new, hfound, hne, habsent⟩ := hidle
  exact ⟨new, hfound, hne, (hg.removeNodes_of_not_mem habsent).symm⟩

/-- **a round removes a concept, or finds removed ones alone and changes nothing** -/
theorem round_shrinks (hg : g.Tidy) (hround : Round env a g h) :
    h.conceptNodes.length < g.conceptNodes.length ∨ h = g ∧ Idle env a g := by
  obtain ⟨new, hfound, hne, rfl⟩ := hround
  by_cases hidle : ∀ n ∈ new, n ∉ g.nodes
  · exact Or.inr ⟨hg.removeNodes_of_not_mem hidle, new, hfound, hne, hidle⟩
  · left
    obtain ⟨n, hn⟩ := not_forall.1 hidle
    obtain ⟨hn, hmem⟩ := Classical.not_imp.1 hn
    have hmem := Classical.not_not.1 hmem
    -- the concept is there before the round and not after it
    have hgone : n ∉ (new.foldl removeNode g).conceptNodes := fun h =>
      (mem_nodes_removeNodes.1 (List.mem_filter.1 h).1).2 hn
    have hnodup : (n :: (new.foldl removeNode g).conceptNodes).Nodup :=
      List.nodup_cons.2 ⟨hgone, (SortedSet.nodup _).filter _⟩
    have hsubset : n :: (new.foldl removeNode g).conceptNodes ⊆ g.conceptNodes := by
      refine List.cons_subset.2 ⟨mem_conceptNodes.2 ⟨hmem, isDatasource_of_found hfound hn⟩, fun m hm => ?_⟩
      obtain ⟨hm, hconcept⟩ := mem_conceptNodes.1 hm
      exact mem_conceptNodes.2 ⟨(mem_nodes_removeNodes.1 hm).1, hconcept⟩
    exact (List.subperm_of_subset hnodup hsubset).length_le

/-- the error of a search that takes too many rounds -/
def exhausted (limit : Nat) : PlanningError := .iterationLimit "weak component resolution" limit

/-- a search that never ends after a round does not end before it -/
theorem crossings_exhausted_of_round (hround : Round env a g h)
    (hh : ∀ fuel, crossings env a limit fuel h = .error (exhausted limit)) (fuel : Nat) :
    crossings env a limit fuel g = .error (exhausted limit) := by
  cases fuel with
  | zero => rfl
  | succ fuel =>
    rcases crossings_succ env a limit fuel g with ⟨-, hnone⟩ | ⟨h', x, hround', heq⟩
    · exact absurd hround (hnone h)
    · rw [heq, hround'.eq hround, hh]
      rfl

/-- **an idle round is repeated until the limit** -/
theorem crossings_idle (hg : g.Tidy) (hidle : Idle env a g) (fuel : Nat) :
    crossings env a limit fuel g = .error (exhausted limit) := by
  induction fuel with
  | zero => rfl
  | succ fuel ih =>
    rcases crossings_succ env a limit fuel g with ⟨-, hnone⟩ | ⟨h', x, hround', heq⟩
    · exact absurd (hidle.round hg) (hnone g)
    · rw [heq, hround'.eq (hidle.round hg), ih]
      rfl

theorem Rounds.tidy (hrounds : Rounds env a g h) (hg : g.Tidy) : h.Tidy := by
  induction hrounds with
  | refl => exact hg
  | tail _ hround ih => exact hround.tidy ih

theorem crossings_exhausted (hg : g.Tidy) (hrounds : Rounds env a g h) (hidle : Idle env a h) (fuel : Nat) :
    crossings env a limit fuel g = .error (exhausted limit) := by
  induction hrounds using Relation.ReflTransGen.head_induction_on generalizing fuel with
  | refl => exact crossings_idle hg hidle fuel
  | head hround _ ih => exact crossings_exhausted_of_round hround (fun fuel => ih (hround.tidy hg) fuel) fuel

/-- **without an idle round, more rounds than there are concepts are enough** -/
theorem crossings_settles (hg : g.Tidy) (hfuel : g.conceptNodes.length < fuel)
    (hnone : ∀ h, Rounds env a g h → ¬ Idle env a h) : ∃ found, crossings env a limit fuel g = .ok found := by
  induction fuel generalizing g with
  | zero => exact absurd hfuel (Nat.not_lt_zero _)
  | succ fuel ih =>
    rcases crossings_succ env a limit fuel g with ⟨hok, -⟩ | ⟨h, x, hround, heq⟩
    · exact hok
    · have hshrinks := (round_shrinks hg hround).resolve_right fun ⟨_, hidle⟩ => hnone g .refl hidle
      obtain ⟨rest, hrest⟩ := ih (hround.tidy hg) (by omega) fun k hk => hnone k (.head hround hk)
      exact ⟨x :: rest, by rw [heq, hrest]; rfl⟩

/-! ## Keys that are put back -/

/-- the concepts that two datasources have in common -/
def commonOf (env : Environment) (s u : Datasource) : List Concept := (s.outputs.filter u.provides).filterMap env.find?

/-- a key of what two datasources of a graph have in common -/
def JoinKey (env : Environment) (g : ReferenceGraph) (n : GraphNode) : Prop :=
  ∃ p q s u c, p ≠ q ∧ g.sources.get? p = some (.single s) ∧ g.sources.get? q = some (.single u) ∧
    c ∈ commonOf env s u ∧ (Grain.ofConcepts (commonOf env s u)).contains c.address = true ∧ n = .ofConcept c

theorem of_mem_pairsOf {α : Type} {l : List α} {p : α × α} (hl : l.Nodup) (hp : p ∈ pairsOf l) :
    p.1 ∈ l ∧ p.2 ∈ l ∧ p.1 ≠ p.2 := by
  induction l with
  | nil => cases hp
  | cons x l ih =>
    obtain ⟨hx, hl⟩ := List.nodup_cons.1 hl
    rcases List.mem_append.1 hp with hp | hp
    · obtain ⟨y, hy, rfl⟩ := List.mem_map.1 hp
      exact ⟨List.mem_cons_self, List.mem_cons_of_mem _ hy, fun h => hx ((show x = y from h) ▸ hy)⟩
    · obtain ⟨hp1, hp2, hne⟩ := ih hl hp
      exact ⟨List.mem_cons_of_mem _ hp1, List.mem_cons_of_mem _ hp2, hne⟩

/-- the concepts of a graph are from another one or keys that datasources of it have in common -/
def KeysOver (env : Environment) (g t : ReferenceGraph) : Prop :=
  ∀ n ∈ t.nodes, n.isDatasource = false → n ∈ g.nodes ∨ JoinKey env g n

theorem mem_nodes_addEdge {k l m : GraphNode} (hm : m ∈ (t.addEdge k l).nodes) : m ∈ t.nodes ∨ m = k ∨ m = l := by
  rw [addEdge] at hm
  split at hm
  · exact Or.inl hm
  · rcases SortedSet.mem_insert.1 hm with rfl | hm
    · exact Or.inr (Or.inr rfl)
    · exact (SortedSet.mem_insert.1 hm).symm.imp_right Or.inl

namespace KeysOver

theorem addSourceEdge (ht : KeysOver env g t) (hg : g.Tidy) {acceptPartial : Bool} {e : GraphNode × GraphNode}
    (he : e ∈ g.edges) : KeysOver env g (addSourceEdge g acceptPartial t e) := by
  have hadded : ∀ (source : GraphSource) (skip : Bool), KeysOver env g
      (if skip then t else (if t.contains e.1 then t else t.addSource source).addEdge e.1 e.2) := by
    intro source skip
    split
    · exact ht
    intro m hm hconcept
    rcases mem_nodes_addEdge hm with hm | rfl | rfl
    · split at hm
      · exact ht m hm hconcept
      · rcases SortedSet.mem_insert.1 hm with rfl | hm
        · cases hconcept
        · exact ht m hm hconcept
    · exact Or.inl (hg.ends e he).1
    · exact Or.inl (hg.ends e he).2
  unfold Bridge.addSourceEdge
  split
  · exact ht
  · exact hadded _ _

theorem joinPair (ht : KeysOver env g t) {synonyms : NameSet} {p : GraphNode × GraphNode} (hne : p.1 ≠ p.2)
    (hds : p.1.isDatasource = true ∧ p.2.isDatasource = true) : KeysOver env g (joinPair env g synonyms t p) := by
  unfold Bridge.joinPair
  split
  · rename_i s u hs hu
    refine List.foldlRecOn (motive := KeysOver env g) _ _ ht fun t ht c hc => ?_
    obtain ⟨hmem, hkey⟩ := List.mem_filter.1 hc
    simp only [Bool.and_eq_true] at hkey
    intro m hm hconcept
    rcases mem_nodes_addEdge hm with hm | rfl | rfl
    · rcases mem_nodes_addEdge hm with hm | rfl | rfl
      · rcases SortedSet.mem_insert.1 hm with rfl | hm
        · exact Or.inr ⟨p.1, p.2, s, u, c, hne, hs, hu, hmem, hkey.1.2, rfl⟩
        · exact ht m hm hconcept
      · exact absurd (hds.1.symm.trans hconcept) (by decide)
      · exact Or.inr ⟨p.1, p.2, s, u, c, hne, hs, hu, hmem, hkey.1.2, rfl⟩
    · exact absurd (hds.2.symm.trans hconcept) (by decide)
    · exact Or.inr ⟨p.1, p.2, s, u, c, hne, hs, hu, hmem, hkey.1.2, rfl⟩
  · exact ht

theorem joinSources (ht : KeysOver env g t) {synonyms : NameSet} : KeysOver env g (joinSources env g synonyms t) := by
  refine List.foldlRecOn (motive := KeysOver env g) _ _ ht fun t ht p hp => ?_
  obtain ⟨piece, -, hp⟩ := List.mem_flatMap.1 hp
  obtain ⟨hp1, hp2, hne⟩ := of_mem_pairsOf ((SortedSet.nodup piece).filter _) hp
  exact ht.joinPair hne ⟨(List.mem_filter.1 hp1).2, (List.mem_filter.1 hp2).2⟩

end KeysOver

/-- **a connecting graph has concepts of the graph, and keys that datasources of it have in common** -/
theorem keysOver_connecting (hg : g.Tidy) (h : connecting env g a = some t) : KeysOver env g t := by
  rw [connecting] at h
  obtain ⟨tree, -, h⟩ := Option.bind_eq_some_iff.1 h
  dsimp only at h
  split at h
  · cases h
  split at h
  · cases h
    have htree : KeysOver env g (g.subgraph tree) := fun m hm _ => Or.inl (SortedSet.mem_inter.1 hm).1
    exact KeysOver.joinSources (List.foldlRecOn (motive := KeysOver env g) _ _ htree fun t ht e he =>
      ht.addSourceEdge hg he)
  · cases h

/-- a key of what two datasources of an environment have in common -/
def SharedKey (env : Environment) (n : GraphNode) : Prop :=
  ∃ i j s u c, i ≠ j ∧ env.datasources.get? i = some s ∧ env.datasources.get? j = some u ∧ c ∈ commonOf env s u ∧
    (Grain.ofConcepts (commonOf env s u)).contains c.address = true ∧ n = .ofConcept c

/-- a shared key that was in a graph, and was removed from it since -/
structure PutBack (env : Environment) (start g : ReferenceGraph) (n : GraphNode) : Prop where
  shared : SharedKey env n
  before : n ∈ start.nodes
  removed : n ∉ g.nodes

/-- a round finds keys that were put back, and nothing else -/
def Stuck (env : Environment) (a : Aim) (start g : ReferenceGraph) : Prop :=
  ∃ new, foundIn env a g = some new ∧ new ≠ [] ∧ ∀ n ∈ new, PutBack env start g n

/-- the graph that the first round searches -/
abbrev startOf (graph : ReferenceGraph) (a : Aim) (condition : Option Condition) : ReferenceGraph :=
  graph.pruneSources a.acceptPartial condition

theorem mem_startOf (hn : n ∈ graph.nodes) (hconcept : n.isDatasource = false) :
    n ∈ (startOf graph a condition).nodes := by
  refine mem_nodes_removeNodes.2 ⟨hn, fun hpruned => ?_⟩
  have hds := (List.mem_filter.1 (List.mem_filter.1 hpruned).1).2
  rw [hconcept] at hds
  cases hds

theorem length_startOf : (startOf graph a condition).conceptNodes.length ≤ graph.conceptNodes.length := by
  refine (List.subperm_of_subset ((SortedSet.nodup _).filter _) fun n hn => ?_).length_le
  obtain ⟨hn, hconcept⟩ := mem_conceptNodes.1 hn
  exact mem_conceptNodes.2 ⟨(mem_nodes_removeNodes.1 hn).1, hconcept⟩

theorem Rounds.sources (hrounds : Rounds env a g h) {s : GraphSource} (hs : h.sources.get? n = some s) :
    g.sources.get? n = some s := by
  induction hrounds with
  | refl => exact hs
  | tail _ hround ih =>
    obtain ⟨new, -, -, rfl⟩ := hround
    exact ih (sources_removeNodes hs)

/-- **an idle round finds keys that were put back** -/
theorem Idle.stuck (henv : env.Closed) (hgraph : ofEnvironment env = .ok graph)
    (hrounds : Rounds env a (startOf graph a condition) g) (hidle : Idle env a g) :
    Stuck env a (startOf graph a condition) g := by
  have htidy : g.Tidy := hrounds.tidy ((tidy_ofEnvironment henv.keyed hgraph).removeNodes _)
  obtain ⟨new, hfound, hne, habsent⟩ := hidle
  refine ⟨new, hfound, hne, fun n hn => ?_⟩
  have hconcept := isDatasource_of_found hfound hn
  obtain ⟨t, ht, hnew⟩ := Option.bind_eq_some_iff.1 hfound
  split at hnew
  · cases hnew
  cases hnew
  obtain ⟨p, q, s, u, c, hpq, hp, hq, hc, hkey, rfl⟩ := (keysOver_connecting htidy ht n
    (mem_conceptNodes.1 (List.mem_filter.1 hn).1).1 hconcept).resolve_left (habsent n hn)
  obtain ⟨i, s', hs, rfl, hsource⟩ := exists_source henv hgraph (sources_removeNodes (hrounds.sources hp))
  cases hsource
  obtain ⟨j, u', hu, rfl, hsource⟩ := exists_source henv hgraph (sources_removeNodes (hrounds.sources hq))
  cases hsource
  obtain ⟨x, hx, hfind⟩ := List.mem_filterMap.1 hc
  refine ⟨⟨i, j, s, u, c, fun h => hpq (by rw [h]), hs, hu, hc, hkey, rfl⟩, ?_, habsent _ hn⟩
  exact mem_startOf (column_mem_nodes henv hgraph hs (List.mem_filter.1 hx).1 hfind) hconcept

/-- only the rounds can exceed the limit -/
theorem groups_exhausted_iff : groups env graph a condition limit = .error (exhausted limit) ↔
    crossings env a limit limit (startOf graph a condition) = .error (exhausted limit) := by
  constructor
  · intro h
    rcases bind_eq_error h with h | ⟨found, -, h⟩
    · exact h
    exfalso
    split at h
    · cases h
    dsimp only at h
    split at h
    · cases h
    rcases bind_eq_error h with h | ⟨listed, -, h⟩
    · obtain ⟨piece, -, h⟩ := mapM_eq_error h
      obtain ⟨x, -, h⟩ := mapM_eq_error h
      rw [Environment.concept] at h
      split at h <;> cases h
    · cases h
  · intro h
    rw [groups, h]
    rfl

/-- **When a search for bridges runs out of rounds.** With more rounds than the graph has concepts, each of them removes
a concept or finds nothing but keys that its datasources put back, and the limit is reached exactly if one of them finds
nothing but such keys. -/
theorem groups_limit_iff (henv : env.Closed) (hgraph : ofEnvironment env = .ok graph)
    (hlimit : graph.conceptNodes.length < limit) :
    (∀ g h, Rounds env a (startOf graph a condition) g → Round env a g h →
      h.conceptNodes.length < g.conceptNodes.length ∨ h = g ∧ Stuck env a (startOf graph a condition) g) ∧
    (groups env graph a condition limit = .error (.iterationLimit "weak component resolution" limit) ↔
      ∃ g, Rounds env a (startOf graph a condition) g ∧ Stuck env a (startOf graph a condition) g) := by
  have htidy : (startOf graph a condition).Tidy := (tidy_ofEnvironment henv.keyed hgraph).removeNodes _
  refine ⟨fun g h hrounds hround => ?_, groups_exhausted_iff.trans ⟨fun hlimited => ?_, fun ⟨g, hrounds, hstuck⟩ => ?_⟩⟩
  · refine (round_shrinks (hrounds.tidy htidy) hround).imp_right fun ⟨heq, hidle⟩ => ⟨heq, ?_⟩
    exact hidle.stuck henv hgraph hrounds
  · by_contra hnone
    have hsettles : ∃ found, crossings env a limit limit (startOf graph a condition) = .ok found :=
      crossings_settles htidy (Nat.lt_of_le_of_lt length_startOf hlimit) fun g hrounds hidle =>
        hnone ⟨g, hrounds, hidle.stuck henv hgraph hrounds⟩
    obtain ⟨found, hfound⟩ := hsettles
    cases hfound.symm.trans hlimited
  · obtain ⟨new, hfound, hne, hback⟩ := hstuck
    exact crossings_exhausted htidy hrounds ⟨new, hfound, hne, fun n hn => (hback n hn).removed⟩ limit

/-! ## A search that never settles -/

/-- the number of concepts of a graph, and what the first two rounds find in it -/
def firstRounds (env : Environment) (a : Aim) : Option (Nat × List GraphNode × List GraphNode) :=
  (ofEnvironment env).toOption.bind fun graph => (foundIn env a (startOf graph a none)).bind fun new =>
    (foundIn env a (new.foldl removeNode (startOf graph a none))).map fun again =>
      (graph.conceptNodes.length, new, again)

/-- tickets of orders in shops with a code that some lack, and receipts of orders in shops -/
def tickets : Environment :=
  ⟨.ofList [("local.order", .key "order" .integer), ("local.shop", .key "shop" .integer),
      ("local.code", .key "code" .integer)],
    .ofList [("tickets", .ofColumns "tickets"
        [.bind "order" "order", .bind "shop" "shop", (Column.bind "code" "code").partly] ["order", "shop"]),
      ("receipts", .ofColumns "receipts" [.bind "order" "order", .bind "shop" "shop"] ["order", "shop"])]⟩

/-- orders and their codes, over roots alone -/
def codes : Aim := ⟨[.key "code" .integer, .key "order" .integer], true, false⟩

/-- the shops are found and removed, and then found again -/
theorem idle_tickets : ∃ graph, ofEnvironment tickets = .ok graph ∧ graph.conceptNodes.length = 3 ∧
    ∃ g, Rounds tickets codes (startOf graph codes none) g ∧ Idle tickets codes g := by
  have hrounds : firstRounds tickets codes = some (3, [.concept "local.shop" "Grain<local.shop>"],
      [.concept "local.shop" "Grain<local.shop>"]) := by decide +kernel
  obtain ⟨graph, hgraph, hrounds⟩ := Option.bind_eq_some_iff.1 hrounds
  obtain ⟨new, hnew, hrounds⟩ := Option.bind_eq_some_iff.1 hrounds
  obtain ⟨again, hagain, hrounds⟩ := Option.map_eq_some_iff.1 hrounds
  obtain ⟨hlength, hrounds⟩ := Prod.mk.inj hrounds
  obtain ⟨rfl, rfl⟩ := Prod.mk.inj hrounds
  refine ⟨graph, ok_of_toOption hgraph, hlength, _, .single ⟨_, hnew, by simp, rfl⟩, _, hagain, by simp, fun n hn => ?_⟩
  exact fun hmem => (mem_nodes_removeNodes.1 hmem).2 hn

/-- with 20 rounds the limit is reached, at a round that finds the shops that the two datasources put back -/
theorem groups_limit_iff_tickets : ∃ graph, ofEnvironment tickets = .ok graph ∧ graph.conceptNodes.length < 20 ∧
    ∃ g, Rounds tickets codes (startOf graph codes none) g ∧ Stuck tickets codes (startOf graph codes none) g := by
  obtain ⟨graph, hgraph, hlength, g, hrounds, hidle⟩ := idle_tickets
  have hclosed : tickets.Closed := by decide
  have hlimit : graph.conceptNodes.length < 20 := by rw [hlength]; decide
  have htidy : (startOf graph codes none).Tidy := (tidy_ofEnvironment hclosed.keyed hgraph).removeNodes _
  have hexhausted : groups tickets graph codes none 20 = .error (.iterationLimit "weak component resolution" 20) :=
    groups_exhausted_iff.2 (crossings_exhausted htidy hrounds hidle 20)
  exact ⟨graph, hgraph, hlimit, (groups_limit_iff hclosed hgraph hlimit).2.1 hexhausted⟩

/-- **A graph of three concepts in which no number of rounds is enough.** -/
theorem tickets_never_settle : tickets.Closed ∧ ∃ graph, ofEnvironment tickets = .ok graph ∧
    graph.conceptNodes.length = 3 ∧
    ∀ limit, groups tickets graph codes none limit = .error (.iterationLimit "weak component resolution" limit) := by
  obtain ⟨graph, hgraph, hlength, g, hrounds, hidle⟩ := idle_tickets
  have hclosed : tickets.Closed := by decide
  have htidy : (startOf graph codes none).Tidy := (tidy_ofEnvironment hclosed.keyed hgraph).removeNodes _
  exact ⟨hclosed, graph, hgraph, hlength, fun limit =>
    groups_exhausted_iff.2 (crossings_exhausted htidy hrounds hidle limit)⟩

end Bridge

end SemanticPlanner
