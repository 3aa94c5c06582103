/-
What is left when redundant datasources are dropped.

  Carries, Completes    a datasource is next to a concept, and has all of its values
  eq_of_kept            two kept offers with the same concepts, complete ones and all, are one
  exists_chosen         all that a datasource carries is carried by a chosen one, and all that it completes is completed
  chosen_keeps          targets, dropped datasources and ties in what is chosen

An offer is judged against all others, dropped ones too. It is within a kept one all the same (`exists_kept`), as the
best of those that have all of it is beaten by none.
-/
import SemanticPlanner.Proofs.Joining

namespace SemanticPlanner

namespace Match

variable {g : ReferenceGraph} {condition : Option Condition} {targets : List Concept} {d : GraphNode} {x : String}

/-! ## What a datasource has -/

/-- a datasource is linked with a node of the concept -/
def Carries (g : ReferenceGraph) (d : GraphNode) (x : String) : Prop := ∃ n ∈ g.neighbors d, n.address? = some x

/-- a datasource carries the concept, and not partially -/
def Completes (g : ReferenceGraph) (condition : Option Condition) (d : GraphNode) (x : String) : Prop :=
  Carries g d x ∧ ∀ s, g.sources.get? d = some s → x ∉ partialsOf condition s

theorem mem_complete_offerOf : x ∈ (offerOf g condition d).complete ↔ Completes g condition d x := by
  have hcarries : x ∈ (offerOf g condition d).concepts ↔ Carries g d x := mem_concepts_offerOf
  rw [Completes, ← hcarries, offerOf]
  cases g.sources.get? d with
  | none => simp
  | some s => simp [SortedSet.mem_diff, SortedSet.mem_ofList]

/-! ## Offers -/

/-- two offers have the same concepts, and the same of them complete -/
def Offer.Matches (o p : Offer) : Prop := o.complete = p.complete ∧ o.concepts = p.concepts

theorem Offer.Matches.isEqualTo {o p : Offer} (h : o.Matches p) : o.isEqualTo p = true := by
  have hwithin : o.isWithin p = true := isWithin_iff.2 ⟨fun x hx => h.1 ▸ hx, fun x hx => h.2 ▸ hx⟩
  rw [Offer.isEqualTo, hwithin, h.1, h.2]
  simp

/-- the tie of two offers is settled by their scores, which tell them apart -/
theorem eq_of_kept {offers : List Offer} {o p : Offer} (ho : o ∈ offers) (hp : p ∈ offers)
    (hoKept : isKept offers o = true) (hpKept : isKept offers p = true) (h : o.Matches p) : o.node = p.node := by
  have hle : ∀ {o p : Offer}, p ∈ offers → isKept offers o = true → o.Matches p → o.node ≠ p.node →
      sortsLE o.score p.score = true := by
    intro o p hp hkept h hne
    rw [isKept, Bool.and_eq_true, List.all_eq_true] at hkept
    exact hkept.2 p (List.mem_filter.2 ⟨List.mem_filter.2 ⟨hp, bne_iff_ne.2 hne.symm⟩, h.isEqualTo⟩)
  by_contra hne
  have hscore : o.score = p.score :=
    sortsLE_antisymm (hle hp hoKept h hne) (hle ho hpKept ⟨h.1.symm, h.2.symm⟩ (Ne.symm hne))
  exact hne (congrArg (fun s => s.2.2.2) hscore)

/-! ## What is chosen -/

/-- what a datasource has is had by a chosen one, which contributes every target among it -/
theorem exists_chosen (targets : List Concept) (condition : Option Condition) (hd : d ∈ g.sourceNodes) :
    ∃ e ∈ chosen g targets condition, (∀ x, (Completes g condition d x → Completes g condition e.1 x) ∧ (Carries g d x → Carries g e.1 x)) ∧
      ∀ x ∈ Concept.addresses targets, Carries g d x → x ∈ e.2.filterMap GraphNode.address? := by
  obtain ⟨p, hp, hkept, hwithin⟩ := exists_kept (List.mem_map_of_mem (f := offerOf g condition) hd)
  have hp' : p ∈ keptOffers g condition := List.mem_filter.2 ⟨hp, hkept⟩
  obtain ⟨-, heq⟩ := mem_keptOffers hp'
  obtain ⟨hcomplete, hconcepts⟩ := Offer.isWithin_iff.1 hwithin
  rw [heq] at hcomplete hconcepts
  have hcarries : ∀ x, Carries g d x → Carries g p.node x := fun x hx =>
    mem_concepts_offerOf.1 (hconcepts x (mem_concepts_offerOf.2 hx))
  refine ⟨(p.node, (g.neighbors p.node).toList.filter fun n =>
    !(usedOnce targets (keptOffers g condition)).contains n), mem_chosen.2 ⟨heq ▸ hp', rfl⟩,
    fun x => ⟨fun hx => ?_, hcarries x⟩, fun x hx hd => ?_⟩
  · exact mem_complete_offerOf.1 (hcomplete x (mem_complete_offerOf.2 hx))
  · obtain ⟨n, hn, hnx⟩ := hcarries x hd
    refine List.mem_filterMap.2 ⟨n, List.mem_filter.2 ⟨hn, SortedSet.not_contains_iff.2 fun hused => ?_⟩, hnx⟩
    -- only concepts that are no targets are dropped
    have hplain := (List.mem_filter.1 (List.mem_filter.1 (SortedSet.mem_ofList.1 hused)).1).2
    rw [hnx, Option.any_some, SortedSet.not_contains_iff] at hplain
    exact hplain (SortedSet.mem_ofList.2 hx)

/-- **What is kept when redundant datasources are dropped.** The chosen datasources are some of the graph, in order.
Every target that a datasource of the graph carries is contributed by a chosen one, which completes it if any datasource
does. For every datasource that is dropped there is a chosen one that carries all that it carries and completes all that
it completes. No two chosen ones carry and complete the same concepts. -/
theorem chosen_keeps (g : ReferenceGraph) (targets : List Concept) (condition : Option Condition) :
    ((chosen g targets condition).map Prod.fst).Sublist g.sourceNodes ∧
    (∀ x ∈ Concept.addresses targets, ∀ d ∈ g.sourceNodes, Carries g d x →
      ∃ e ∈ chosen g targets condition, x ∈ e.2.filterMap GraphNode.address? ∧
        ((∃ d ∈ g.sourceNodes, Completes g condition d x) → Completes g condition e.1 x)) ∧
    (∀ d ∈ g.sourceNodes, d ∉ (chosen g targets condition).map Prod.fst → ∃ e ∈ chosen g targets condition,
      ∀ x, (Completes g condition d x → Completes g condition e.1 x) ∧ (Carries g d x → Carries g e.1 x)) ∧
    ∀ e ∈ chosen g targets condition, ∀ f ∈ chosen g targets condition,
      (∀ x, (Completes g condition e.1 x ↔ Completes g condition f.1 x) ∧ (Carries g e.1 x ↔ Carries g f.1 x)) →
        e = f := by
  refine ⟨?_, fun x hx d hd hcarries => ?_, fun d hd _ => ?_, fun e he f hf hsame => ?_⟩
  · have hnodes : (chosen g targets condition).map Prod.fst = (keptOffers g condition).map Offer.node := by
      rw [chosen, List.map_map]
      rfl
    have hall : (g.sourceNodes.map (offerOf g condition)).map Offer.node = g.sourceNodes := by
      rw [List.map_map]
      exact (List.map_congr_left fun d _ => node_offerOf g condition d).trans (List.map_id _)
    rw [hnodes, ← hall]
    exact List.filter_sublist.map _
  · by_cases hcomplete : ∃ d ∈ g.sourceNodes, Completes g condition d x
    · obtain ⟨d', hd', hx'⟩ := hcomplete
      obtain ⟨e, he, hall, hlists⟩ := exists_chosen targets condition hd'
      exact ⟨e, he, hlists x hx hx'.1, fun _ => (hall x).1 hx'⟩
    · obtain ⟨e, he, -, hlists⟩ := exists_chosen targets condition hd
      exact ⟨e, he, hlists x hx hcarries, fun h => absurd h hcomplete⟩
  · obtain ⟨e, he, hall, -⟩ := exists_chosen targets condition hd
    exact ⟨e, he, hall⟩
  · obtain ⟨heKept, he⟩ := mem_chosen.1 he
    obtain ⟨hfKept, hf⟩ := mem_chosen.1 hf
    obtain ⟨he', heKept⟩ := List.mem_filter.1 heKept
    obtain ⟨hf', hfKept⟩ := List.mem_filter.1 hfKept
    have hmatches : (offerOf g condition e.1).Matches (offerOf g condition f.1) := by
      refine ⟨SortedSet.ext fun x => ?_, SortedSet.ext fun x => ?_⟩
      · rw [mem_complete_offerOf, mem_complete_offerOf]
        exact (hsame x).1
      · rw [mem_concepts_offerOf, mem_concepts_offerOf]
        exact (hsame x).2
    have hnode := eq_of_kept he' hf' heKept hfKept hmatches
    rw [node_offerOf, node_offerOf] at hnode
    exact Prod.ext hnode (by rw [he, hf, hnode])

/-! ## A dropped datasource -/

/-- a graph with a datasource and the nodes of its concepts -/
def withSource (g : ReferenceGraph) (d : Datasource) : ReferenceGraph :=
  d.outputs.foldl (fun g a => g.addBoth (.datasource d.identifier) (.concept a "Grain<local.item>"))
    (g.addSource (.single d))

/-- items with their category, their numbers alone, and their category at a finer grain -/
def stock : ReferenceGraph :=
  [Datasource.ofColumns "items" [.bind "item" "item", .bind "category" "category"] ["item"],
    .ofColumns "numbers" [.bind "item" "item"] ["item"],
    .ofColumns "batches" [.bind "item" "item", .bind "category" "category"] ["item", "batch"]].foldl withSource .empty

/-- the category -/
def category : Concept := .property "category" .string ["item"]

/-- the numbers are dropped for the items, which have more, and the batches for the items, which lack nothing of their
grain -/
theorem chosen_keeps_stock :
    (chosen stock [category] none).map Prod.fst = [.datasource "items"] ∧
    (∀ x, Carries stock (.datasource "numbers") x → Carries stock (.datasource "items") x) ∧
    (∀ x, Carries stock (.datasource "batches") x → Carries stock (.datasource "items") x) ∧
    ∃ e ∈ chosen stock [category] none, "local.category" ∈ e.2.filterMap GraphNode.address? := by
  have hkept : (chosen stock [category] none).map Prod.fst = [.datasource "items"] := by decide +kernel
  have hitems : ∀ e ∈ chosen stock [category] none, e.1 = .datasource "items" := fun e he =>
    List.mem_singleton.1 (hkept ▸ List.mem_map_of_mem (f := Prod.fst) he)
  have hdropped : ∀ d ∈ stock.sourceNodes, d ≠ .datasource "items" →
      ∀ x, Carries stock d x → Carries stock (.datasource "items") x := by
    intro d hd hne x hx
    obtain ⟨e, he, hall⟩ := (chosen_keeps stock [category] none).2.2.1 d hd fun h =>
      hne (List.mem_singleton.1 (hkept ▸ h))
    exact hitems e he ▸ (hall x).2 hx
  have hcarries : Carries stock (.datasource "batches") "local.category" :=
    ⟨.concept "local.category" "Grain<local.item>", by decide +kernel, rfl⟩
  obtain ⟨e, he, hlists, -⟩ := (chosen_keeps stock [category] none).2.1 "local.category" (by decide +kernel)
    (.datasource "batches") (by decide +kernel) hcarries
  exact ⟨hkept, hdropped _ (by decide +kernel) (by decide), hdropped _ (by decide +kernel) (by decide), e, he, hlists⟩

end Match

end SemanticPlanner
