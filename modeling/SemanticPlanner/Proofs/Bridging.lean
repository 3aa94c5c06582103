/-
What the pieces of a bridge cover.

  mem_pieces   every concept of a connecting graph is in a piece
  groups_covers    every wanted concept is in a group that is sourced for the bridge

A connecting graph has a node for each wanted concept. Its concepts are split by the datasources that lead to them, and
those that no datasource leads to stand alone; leaving out what lies inside something else loses no concept.
-/
import SemanticPlanner.Proofs.Coverage
import SemanticPlanner.Proofs.Matching
import SemanticPlanner.Sourcing.Bridge

namespace SemanticPlanner

/-- concepts looked up have the addresses they were looked up at -/
theorem Environment.Keyed.addresses_mapM {env : Environment} (hk : env.Keyed) {l : List String} {cs : List Concept}
    (h : l.mapM env.concept = .ok cs) : Concept.addresses cs = l := by
  have hall := forall₂_mapM_ok h
  clear h
  induction hall with
  | nil => rfl
  | @cons x c l cs hc _ ih =>
    rw [show Concept.addresses (c :: cs) = c.address :: Concept.addresses cs from rfl, ih,
      hk x c (Environment.concept_eq_ok hc)]

namespace Bridge

variable {env : Environment} {g graph t : ReferenceGraph} {a : Aim} {condition : Option Condition} {limit : Nat}

/-- every set lies inside one that lies strictly inside no other -/
theorem exists_maximal {sets : List NameSet} {s : NameSet} (hs : s ∈ sets) :
    ∃ m ∈ sets, isMaximal sets m = true ∧ ∀ x ∈ s, x ∈ m := by
  have hne : sets.filter s.isSubset ≠ [] :=
    List.ne_nil_of_mem (List.mem_filter.2 ⟨hs, SortedSet.isSubset_iff.2 fun _ h => h⟩)
  obtain ⟨m, hm, hleast⟩ := exists_least (fun m : NameSet => -(m.size : Int)) hne
  obtain ⟨hm, hsub⟩ := List.mem_filter.1 hm
  rw [SortedSet.isSubset_iff] at hsub
  refine ⟨m, hm, List.all_eq_true.2 fun t ht => ?_, hsub⟩
  rw [Bool.or_eq_true, Bool.not_eq_true', decide_eq_true_eq]
  by_cases hmt : m.isSubset t = true
  · rw [SortedSet.isSubset_iff] at hmt
    have hle := hleast t (List.mem_filter.2 ⟨ht, SortedSet.isSubset_iff.2 fun x hx => hmt x (hsub x hx)⟩)
    simp only [sortsLE, Sorts.before, Bool.not_eq_true', decide_eq_false_iff_not] at hle
    exact Or.inr (SortedSet.ext fun x => ⟨hmt x, SortedSet.mem_of_size_le hmt (by omega)⟩)
  · exact Or.inl (Bool.eq_false_iff.2 hmt)

/-- **every concept of a connecting graph is in a piece** -/
theorem mem_pieces (wanted : NameSet) {n : GraphNode} {x : String} (hn : n ∈ g.nodes)
    (hx : n.address? = some x) : ∃ piece ∈ pieces g wanted, x ∈ piece := by
  have hall : x ∈ distinct (g.conceptNodes.filterMap GraphNode.address?) := by
    refine mem_distinct.2 (List.mem_filterMap.2 ⟨n, List.mem_filter.2 ⟨hn, ?_⟩, hx⟩)
    cases n with
    | concept => rfl
    | datasource => cases hx
  rw [pieces]
  split
  · exact ⟨_, List.mem_cons_self, hall⟩
  · dsimp only
    generalize distinct (List.filter (isMaximal _) _) = kept
    by_cases hkept : (kept.any fun s => s.contains x) = true
    · obtain ⟨s, hs, hxs⟩ := List.any_eq_true.1 hkept
      exact ⟨s.toList, List.mem_append_left _ (List.mem_map_of_mem hs), SortedSet.contains_iff.1 hxs⟩
    · refine ⟨[x], List.mem_append_right _ (List.mem_map_of_mem (List.mem_filter.2 ⟨hall, ?_⟩)), List.mem_cons_self⟩
      rw [Bool.eq_false_iff.2 hkept]
      rfl

theorem connecting_covers (h : connecting env g a = some t) {c : Concept} (hc : c ∈ a.concepts) :
    GraphNode.ofConcept c ∈ t.nodes := by
  rw [connecting] at h
  obtain ⟨tree, -, h⟩ := Option.bind_eq_some_iff.1 h
  dsimp only at h
  split at h
  · cases h
  split at h
  · rename_i hall
    cases h
    have hin := List.all_eq_true.1 hall _ (List.mem_map_of_mem (f := GraphNode.ofConcept) hc)
    rw [Bool.and_eq_true] at hin
    exact SortedSet.contains_iff.1 hin.1
  · cases h

/-- the first connecting graph has a node for every wanted concept -/
theorem crossings_covers {fuel : Nat} {first : Crossing} {rest : List Crossing}
    (h : crossings env a limit fuel g = .ok (first :: rest)) {c : Concept} (hc : c ∈ a.concepts) :
    GraphNode.ofConcept c ∈ first.graph.nodes := by
  cases fuel with
  | zero => cases h
  | succ fuel =>
    rw [crossings] at h
    split at h
    · cases h
    rename_i t ht
    have hcovers := connecting_covers ht hc
    split at h
    · cases h
    dsimp only at h
    split at h
    · cases h
      exact hcovers
    · obtain ⟨rest', -, h⟩ := Resolve.bind_eq_ok h
      cases h
      exact hcovers

/-- **every wanted concept is in a group of the bridge** -/
theorem groups_covers (hk : env.Keyed) {gs : List (List Concept)} (h : groups env graph a condition limit = .ok (some gs))
    {c : Concept} (hc : c ∈ a.concepts) : ∃ cs ∈ gs, c.address ∈ Concept.addresses cs := by
  obtain ⟨found, hfound, h⟩ := Resolve.bind_eq_ok h
  split at h
  · cases h
  rename_i first rest
  dsimp only at h
  split at h
  · cases h
  obtain ⟨listed, hlisted, h⟩ := Resolve.bind_eq_ok h
  cases h
  obtain ⟨piece, hpiece, hmem⟩ := mem_pieces a.wanted (crossings_covers hfound hc)
    (show (GraphNode.ofConcept c).address? = some c.address from rfl)
  obtain ⟨cs, hcs, hpiece⟩ := exists_of_forall₂ (forall₂_mapM_ok hlisted) hpiece
  rw [← hk.addresses_mapM hpiece] at hmem
  have hlisted : cs ∈ listed.filter fun cs => !cs.isEmpty := by
    refine List.mem_filter.2 ⟨hcs, ?_⟩
    cases cs with
    | nil => cases hmem
    | cons => rfl
  obtain ⟨m, hm, hmax, hsub⟩ := exists_maximal (List.mem_map_of_mem (f := fun cs => SortedSet.ofList (Concept.addresses cs))
    hlisted)
  obtain ⟨cs', hcs', rfl⟩ := List.mem_map.1 hm
  exact ⟨cs', List.mem_filter.2 ⟨hcs', hmax⟩, SortedSet.mem_ofList.1 (hsub _ (SortedSet.mem_ofList.2 hmem))⟩

end Bridge

end SemanticPlanner
