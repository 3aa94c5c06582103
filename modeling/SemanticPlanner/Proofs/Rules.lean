/-
What the rule of each kind of node returns, when it returns.

  base_eq_ok       filters, windows, recursions and unions: one relation over all sources
  select_eq_ok     selects: a constant, or a relation over the datasource and the sources
  group_eq_ok      groups: the grouping, or a layer with its condition above it
  unnest_eq_ok     unnests: as filters, with the expansion joined
  merge_eq_ok      merges: a source handed back, or a relation over the merged sources
  passThrough_eq_some  what a merge hands back: its only source with the same outputs, or one complete in all of them
  node_eq_ok       every relation that a node can resolve to, by the kind of the node (`Ruled`)

Each rule can only fail before its relation is put together, so a relation it returns is one of a few closed forms.
-/
import SemanticPlanner.Plan.Memo

namespace SemanticPlanner.Resolve

variable {env : Environment} {c : NodeCore} {sources : List RelationSource} {kind : SourceKind} {d : Datasource}
  {r : Relation} {rs : List Relation}

/-! ## The forms of relations -/

/-- a filter, window, recursion or union at a grain -/
def based (c : NodeCore) (sources : List RelationSource) (kind : SourceKind) (grain : Grain) : Relation :=
  { identifier := Relation.identifierOf kind.name sources grain c.condition
    kind
    inputs := c.inputs
    outputs := c.outputs
    hidden := c.hidden
    partials := c.partials
    nullables := c.nullables
    sources
    conceptMap := ConceptMap.resolve sources c.outputs (inherited c) []
    joins := []
    grain
    condition := c.condition
    forceGroup := c.forceGroup }

/-- what a select reads from its datasource or computes -/
def ownMap (d : Datasource) (c : NodeCore) (outputs : List Concept) : NameMap NameSet :=
  outputs.foldl (addSelected d) (SortedMap.ofList (c.inputs.map fun a => (a, SortedSet.singleton d.identifier)))

/-- what a select reads, its sources included -/
def selectMap (d : Datasource) (c : NodeCore) (outputs : List Concept) (sources : List RelationSource) :
    NameMap NameSet :=
  if sources.isEmpty then ownMap d c outputs
  else (ConceptMap.resolve sources c.outputs (inherited c) []).toList.foldl addFromParent (ownMap d c outputs)

/-- a select at a grain -/
def selected (c : NodeCore) (d : Datasource) (sources : List RelationSource) (conceptMap : NameMap NameSet)
    (grain : Grain) : Relation :=
  { identifier := Relation.identifierOf "select" (.datasource d :: sources) grain c.condition
    kind := .select
    inputs := c.inputs
    outputs := c.outputs
    hidden := c.hidden
    partials := c.partials
    nullables := c.nullables
    sources := .datasource d :: sources
    conceptMap
    joins := []
    grain
    condition := c.condition
    forceGroup := c.forceGroup }

/-- a relation with an expansion joined -/
def expanding (r : Relation) (concepts : List String) : Relation :=
  { r with
    joins := r.joins ++ [.unnest ⟨concepts, unnestLabel concepts⟩]
    conceptMap := concepts.foldl (fun m a => m.insert a (SortedSet.singleton (unnestLabel concepts))) r.conceptMap }

/-- the sources of a merge: those of one identifier put together, those that another one covers dropped -/
def mergedSources (parents : List Relation) : List RelationSource :=
  let combined := (parents.map RelationSource.query).foldl addParent []
  dropCovered combined.length combined

/-- the grain that sources have together -/
def jointGrain (sources : List RelationSource) : Grain := Grain.unionAll (sources.map RelationSource.grain)

/-- a merge of sources, joined as given -/
def joined (c : NodeCore) (merged : List RelationSource) (joins : List RelationJoin) : Relation :=
  let conceptMap := ConceptMap.resolve merged c.outputs (inherited c) (fullJoinKeys joins)
  let nullables := ConceptMap.nullables conceptMap merged joins
  { identifier := Relation.identifierOf "merge" merged (c.grain.getD (jointGrain merged)) c.condition
    kind := .merge
    inputs := c.inputs
    outputs := c.outputs
    hidden := c.hidden
    partials := c.partials
    nullables := c.outputs.filter nullables.contains
    sources := merged
    conceptMap
    joins
    grain := c.grain.getD (jointGrain merged)
    condition := c.condition
    forceGroup := mergeForceGroup c merged (c.grain.getD (jointGrain merged)) (jointGrain merged) }

/-! ## The rules -/

/-- the second of two steps that can fail runs on what the first one returned -/
theorem bind_eq_ok {ε α β : Type} {x : Except ε α} {f : α → Except ε β} {w : β} (h : (x >>= f) = .ok w) :
    ∃ v, x = .ok v ∧ f v = .ok w := by
  cases x with
  | error e => cases h
  | ok v => exact ⟨v, rfl, h⟩

theorem base_eq_ok (h : base env c sources kind = .ok r) : ∃ grain, r = based c sources kind grain := by
  simp only [base] at h
  cases hg : c.grain with
  | some grain =>
    simp only [hg] at h
    cases h
    exact ⟨grain, rfl⟩
  | none =>
    simp only [hg] at h
    obtain ⟨grain, -, h⟩ := bind_eq_ok h
    cases h
    exact ⟨grain, rfl⟩

theorem select_eq_ok (h : select env c d sources = .ok r) :
    r = constant c ∨ ∃ outputs grain, env.conceptsFor c.outputs = .ok outputs ∧
      r = selected c d sources (selectMap d c outputs sources) grain := by
  obtain ⟨outputs, houtputs, h⟩ := bind_eq_ok h
  by_cases hc : (!outputs.isEmpty && outputs.all fun o => decide (o.derivation = .constant)) = true
  · simp only [hc] at h
    cases h
    exact Or.inl rfl
  · simp only [hc] at h
    cases h
    exact Or.inr ⟨outputs, _, houtputs, rfl⟩

theorem group_eq_ok (h : group env c sources = .ok r) :
    ∃ v, r = grouped c sources v ∨
      ∃ condition, c.condition = some condition ∧ r = filtered c (bare (grouped c sources v) condition) condition := by
  obtain ⟨v, -, h⟩ := bind_eq_ok h
  refine ⟨v, ?_⟩
  cases hc : c.condition with
  | none =>
    simp only [hc] at h
    cases h
    exact Or.inl rfl
  | some condition =>
    simp only [hc] at h
    split at h
    · cases h
      exact Or.inl rfl
    · cases h
      exact Or.inr ⟨condition, rfl, rfl⟩

theorem unnest_eq_ok {concepts : List String} (h : unnest env c concepts sources = .ok r) :
    ∃ grain, r = expanding (based c sources .unnest grain) concepts := by
  obtain ⟨r', hr, h⟩ := bind_eq_ok h
  obtain ⟨grain, rfl⟩ := base_eq_ok hr
  cases h
  exact ⟨grain, rfl⟩

theorem merge_eq_ok {explicit : Option (List NamedJoin)}
    (h : merge env c explicit (rs.map RelationSource.query) = .ok r) :
    passThrough c (mergedSources rs) = some r ∨
      passThrough c (mergedSources rs) = none ∧ ∃ joins, r = joined c (mergedSources rs) joins := by
  simp only [merge] at h
  rw [show dropCovered _ ((rs.map RelationSource.query).foldl addParent []) = mergedSources rs from rfl] at h
  cases hp : passThrough c (mergedSources rs) with
  | some r' =>
    simp only [hp] at h
    cases h
    exact Or.inl rfl
  | none =>
    simp only [hp] at h
    refine Or.inr ⟨rfl, ?_⟩
    split at h
    · obtain ⟨joins, -, h⟩ := bind_eq_ok h
      cases h
      exact ⟨joins, rfl⟩
    · cases h
      exact ⟨[], rfl⟩

/-! ## What a merge hands back -/

/-- a source that is what a merge with these outputs asks for: the only one, with the same outputs, or one that is
complete in all of them -/
structure Answers (outputs : List String) (merged : List RelationSource) (r : Relation) : Prop where
  mem : .query r ∈ merged
  covers : (merged = [.query r] ∧ ∀ x, x ∈ r.outputs ↔ x ∈ outputs) ∨ ∀ x ∈ outputs, x ∈ r.complete

/-- the source complete in every output, the first of several -/
theorem covering_eq_some {merged : List RelationSource}
    (h : (merged.findSome? fun s => match s with
      | .query r => if c.outputs.all r.complete.contains then some r else none
      | .datasource _ => none) = some r) : .query r ∈ merged ∧ ∀ x ∈ c.outputs, x ∈ r.complete := by
  obtain ⟨s, hs, hr⟩ := List.exists_of_findSome?_eq_some h
  cases s with
  | datasource d => exact absurd hr (by simp)
  | query q =>
    simp only at hr
    split at hr
    · rename_i hall
      cases hr
      exact ⟨hs, fun x hx => List.contains_iff_mem.1 (List.all_eq_true.1 hall x hx)⟩
    · exact absurd hr (by simp)

theorem passThrough_eq_some {merged : List RelationSource} (h : passThrough c merged = some r) :
    c.condition = none ∧ Answers c.outputs merged r := by
  simp only [passThrough] at h
  split at h
  · exact absurd h (by simp)
  · rename_i hc
    refine ⟨by simpa using hc, ?_⟩
    split at h
    · split at h
      · rename_i hsame
        cases h
        refine ⟨List.mem_cons_self, Or.inl ⟨rfl, fun x => ?_⟩⟩
        rw [← SortedSet.mem_ofList, hsame, SortedSet.mem_ofList]
      · exact ⟨(covering_eq_some h).1, Or.inr (covering_eq_some h).2⟩
    · exact ⟨(covering_eq_some h).1, Or.inr (covering_eq_some h).2⟩

/-! ## Every kind -/

/-- the relations that a node can resolve to over relations of its parents -/
inductive Ruled (env : Environment) (n : PlanNode) (rs : List Relation) : Relation → Prop
  /-- a constant node, or a select of constants only -/
  | constant (kind : n.kind.sourceKind = .constant ∨ n.kind.sourceKind = .select) : Ruled env n rs (constant n.core)
  | selected {d : Datasource} {acceptPartial : Bool} {outputs : List Concept} {grain : Grain}
      (kind : n.kind = .select d acceptPartial) (outputs_eq : env.conceptsFor n.core.outputs = .ok outputs) :
      Ruled env n rs (selected n.core d (rs.map RelationSource.query)
        (selectMap d n.core outputs (rs.map RelationSource.query)) grain)
  | based {kind : SourceKind} {grain : Grain}
      (kind_mem : kind = .filter ∨ kind = .window ∨ kind = .recursive ∨ kind = .union) :
      Ruled env n rs (based n.core (rs.map RelationSource.query) kind grain)
  | grouped {v : Grouping.Verdict} (kind : n.kind = .group) :
      Ruled env n rs (grouped n.core (rs.map RelationSource.query) v)
  | filtered {v : Grouping.Verdict} {condition : Condition} (kind : n.kind = .group)
      (condition_eq : n.core.condition = some condition) :
      Ruled env n rs (filtered n.core (bare (Resolve.grouped n.core (rs.map RelationSource.query) v) condition) condition)
  | unnested {concepts : List String} {grain : Grain} (kind : n.kind = .unnest concepts) :
      Ruled env n rs (expanding (Resolve.based n.core (rs.map RelationSource.query) .unnest grain) concepts)
  | handedBack {joins : Option (List NodeJoin)} {r : Relation} (kind : n.kind = .merge joins)
      (back : passThrough n.core (mergedSources rs) = some r) : Ruled env n rs r
  | joined {joins : Option (List NodeJoin)} {js : List RelationJoin} (kind : n.kind = .merge joins)
      (own : passThrough n.core (mergedSources rs) = none) : Ruled env n rs (joined n.core (mergedSources rs) js)

/-- **a relation that a node's rule returns is one of the forms for its kind** -/
theorem node_eq_ok {n : PlanNode} {explicit : List NamedJoin} (h : node env n rs explicit = .ok r) :
    Ruled env n rs r := by
  simp only [node] at h
  split at h
  case h_1 d acceptPartial hk =>
    rcases select_eq_ok h with rfl | ⟨outputs, grain, houtputs, rfl⟩
    · exact .constant (Or.inr (by rw [hk]; rfl))
    · exact .selected hk houtputs
  case h_2 hk =>
    cases h
    exact .constant (Or.inl (by rw [hk]; rfl))
  case h_3 hk =>
    obtain ⟨v, rfl | ⟨condition, hc, rfl⟩⟩ := group_eq_ok h
    · exact .grouped hk
    · exact .filtered hk hc
  case h_4 joins hk =>
    rcases merge_eq_ok h with hp | ⟨hp, js, rfl⟩
    · exact .handedBack hk hp
    · exact .joined hk hp
  case h_5 concepts hk =>
    obtain ⟨grain, rfl⟩ := unnest_eq_ok h
    exact .unnested hk
  all_goals
    obtain ⟨grain, rfl⟩ := base_eq_ok h
    exact .based (by simp)

end SemanticPlanner.Resolve
