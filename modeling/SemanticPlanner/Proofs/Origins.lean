/-
Where the columns of a relation come from.

  Offers           a source of a relation has a column under a name, or an expansion of that name makes it
  MapsOnly         every name that a concept map gives for an address has a property
  Known            a relation resolved for a node or for one below it, or a layer of such a relation
  Traced           each entry of a map comes from a relation of the same identifier that offers the column
  Resolves.traced  whatever is below a resolved relation is traced to known ones

A rule maps an address to sources of its own. Only where relations of one identifier are put together does a map get
entries of another relation, whose sources are not taken over along with them.
-/
import SemanticPlanner.Proofs.Naming

namespace SemanticPlanner

/-! ## Concept maps -/

/-- every name that the map gives for an address has the property -/
def MapsOnly (S : String → String → Prop) (m : NameMap NameSet) : Prop :=
  ∀ x names, m.get? x = some names → ∀ s ∈ names, S x s

namespace MapsOnly

variable {S T : String → String → Prop} {m n : NameMap NameSet}

theorem empty : MapsOnly S ∅ := fun x names h => by cases h

theorem mono (h : MapsOnly S m) (hS : ∀ x s, S x s → T x s) : MapsOnly T m :=
  fun x names hx s hs => hS x s (h x names hx s hs)

theorem insert (h : MapsOnly S m) {x : String} {names : NameSet} (hn : ∀ s ∈ names, S x s) :
    MapsOnly S (m.insert x names) := by
  intro y names' hy
  rw [SortedMap.get?_insert] at hy
  split at hy
  · rename_i he
    cases hy
    exact he ▸ hn
  · exact h y names' hy

/-- what a map gives for an address, nothing where it gives nothing -/
theorem getD (h : MapsOnly S m) (x : String) : ∀ s ∈ m.getD x ∅, S x s := by
  intro s hs
  rw [SortedMap.getD] at hs
  cases hx : m.get? x with
  | none =>
    rw [hx] at hs
    exact absurd hs (SortedSet.not_mem_empty s)
  | some names =>
    rw [hx] at hs
    exact h x names hx s hs

theorem update (h : MapsOnly S m) {x : String} {f : NameSet → NameSet}
    (hf : ∀ names, (∀ s ∈ names, S x s) → ∀ s ∈ f names, S x s) : MapsOnly S (m.update x ∅ f) :=
  h.insert (hf _ (h.getD x))

theorem foldl {α : Type} {step : NameMap NameSet → α → NameMap NameSet} {l : List α}
    (hstep : ∀ a ∈ l, ∀ m, MapsOnly S m → MapsOnly S (step m a)) (h : MapsOnly S m) : MapsOnly S (l.foldl step m) := by
  induction l generalizing m with
  | nil => exact h
  | cons a l ih =>
    exact ih (fun b hb => hstep b (List.mem_cons_of_mem _ hb)) (hstep a List.mem_cons_self m h)

theorem ofList {l : List (String × NameSet)} (h : ∀ e ∈ l, ∀ s ∈ e.2, S e.1 s) : MapsOnly S (SortedMap.ofList l) :=
  foldl (fun e he _ hm => hm.insert (h e he)) empty

/-- an entry of the map as it is listed -/
theorem listed (h : MapsOnly S m) {e : String × NameSet} (he : e ∈ m.toList) : ∀ s ∈ e.2, S e.1 s :=
  h e.1 e.2 (SortedMap.get?_eq_some_iff.2 he)

theorem uniteMaps (hm : MapsOnly S m) (hn : MapsOnly S n) : MapsOnly S (Relation.uniteMaps m n) := by
  refine foldl (fun e he _ hm => hm.update fun names hnames s hs => ?_) hm
  rcases SortedSet.mem_union.1 hs with hs | hs
  · exact hnames s hs
  · exact hn.listed he s hs

end MapsOnly

/-- a source of this name has the column -/
def HasSource (sources : List RelationSource) (x s : String) : Prop :=
  ∃ o ∈ sources, o.identifier = s ∧ x ∈ o.outputs

/-- **a concept map names sources that have the column** -/
theorem ConceptMap.mapsOnly_resolve (sources : List RelationSource) (targets inherited fullJoins : List String) :
    MapsOnly (HasSource sources) (resolve sources targets inherited fullJoins) := by
  have hself : ∀ o ∈ sources, ∀ x ∈ o.outputs, HasSource sources x o.identifier := fun o ho x hx => ⟨o, ho, rfl, hx⟩
  have hcomplete : ∀ o ∈ sources, ∀ m, MapsOnly (HasSource sources) m →
      MapsOnly (HasSource sources) (o.outputs.foldl (addComplete fullJoins o) m) := by
    intro o ho m hm
    refine .foldl (fun x hx m hm => ?_) hm
    unfold addComplete
    split
    · exact hm
    split
    · refine hm.update fun names hnames s hs => ?_
      rcases SortedSet.mem_insert.1 hs with rfl | hs
      · exact hself o ho x hx
      · exact hnames s hs
    · exact hm
  have hinherited : ∀ o ∈ sources, ∀ m, MapsOnly (HasSource sources) m →
      MapsOnly (HasSource sources) (o.outputs.foldl (addInherited inherited o) m) := by
    intro o ho m hm
    refine .foldl (fun x hx m hm => ?_) hm
    unfold addInherited
    split
    · exact hm
    split
    · refine hm.insert fun s hs => ?_
      rw [SortedSet.mem_singleton.1 hs]
      exact hself o ho x hx
    · exact hm
  refine .foldl (fun t _ m hm => hm.insert fun s hs => absurd hs (SortedSet.not_mem_empty s)) ?_
  exact .foldl hinherited (.foldl hcomplete .empty)

/-! ## What a relation offers -/

namespace Relation

/-- a source of this name has the column, or an expansion of this name makes it -/
inductive Offers (r : Relation) (x s : String) : Prop
  | source : HasSource r.sources x s → Offers r x s
  | expansion {j : UnnestJoin} : .unnest j ∈ r.joins → j.label = s → x ∈ j.concepts → Offers r x s

/-- a relation maps each address to what it offers the address by -/
def Grounded (r : Relation) : Prop := MapsOnly r.Offers r.conceptMap

end Relation

namespace Resolve

variable {env : Environment} {n : PlanNode} {rs : List Relation} {r : Relation} {d : Datasource} {c : NodeCore}

/-- a select maps an address to its datasource only if that provides it -/
theorem mapsOnly_ownMap (hd : ∀ x ∈ c.inputs, x ∈ d.outputs) (outputs : List Concept) :
    MapsOnly (fun x s => s = d.identifier ∧ x ∈ d.outputs) (ownMap d c outputs) := by
  refine .foldl (fun o _ m hm => ?_) (.ofList fun e he s hs => ?_)
  · unfold addSelected
    split
    · exact hm
    split
    · rename_i hprovides
      refine hm.insert fun s hs => ?_
      rw [SortedSet.mem_singleton.1 hs]
      exact ⟨rfl, Datasource.provides_iff.1 hprovides⟩
    split
    · exact hm.insert fun s hs => absurd hs (SortedSet.not_mem_empty s)
    · exact hm
  · obtain ⟨x, hx, rfl⟩ := List.mem_map.1 he
    exact ⟨SortedSet.mem_singleton.1 hs, hd x hx⟩

theorem grounded_selected (hd : ∀ x ∈ c.inputs, x ∈ d.outputs) (sources : List RelationSource)
    (outputs : List Concept) (grain : Grain) :
    (selected c d sources (selectMap d c outputs sources) grain).Grounded := by
  have hown : MapsOnly (HasSource (.datasource d :: sources)) (ownMap d c outputs) := by
    refine (mapsOnly_ownMap hd outputs).mono ?_
    rintro x s ⟨rfl, hx⟩
    exact ⟨_, List.mem_cons_self, rfl, hx⟩
  have hsources := (ConceptMap.mapsOnly_resolve sources c.outputs (inherited c) []).mono
    fun x s ⟨o, ho, hs⟩ => (⟨o, List.mem_cons_of_mem _ ho, hs⟩ : HasSource (.datasource d :: sources) x s)
  refine MapsOnly.mono (S := HasSource (.datasource d :: sources)) ?_ fun x s h => .source h
  show MapsOnly _ (selectMap d c outputs sources)
  rw [selectMap]
  split
  · exact hown
  · refine .foldl (fun e he m hm => ?_) hown
    unfold addFromParent
    split
    · exact hm.insert (hsources.listed he)
    · exact hm

theorem grounded_expanding (h : r.Grounded) (concepts : List String) : (expanding r concepts).Grounded := by
  have hjoin : ∀ x ∈ concepts, (expanding r concepts).Offers x (unnestLabel concepts) := fun x hx =>
    .expansion (List.mem_append_right _ List.mem_cons_self) rfl hx
  refine .foldl (fun x hx m hm => hm.insert fun s hs => ?_) (h.mono fun x s hs => ?_)
  · rw [SortedSet.mem_singleton.1 hs]
    exact hjoin x hx
  · cases hs with
    | source hs => exact .source hs
    | expansion hj hl hx => exact .expansion (List.mem_append_left _ hj) hl hx

end Resolve

/-! ## Where a column comes from -/

namespace Relation

variable {K : Relation → Prop} {q r : Relation}

/-- each entry of a relation's map comes from a relation of its identifier, among those given, that has a source for
it -/
def Traced (K : Relation → Prop) (q : Relation) : Prop :=
  MapsOnly (fun x s => ∃ b, K b ∧ b.identifier = q.identifier ∧ b.Offers x s) q.conceptMap

/-- columns resolved over a relation's own sources come from there -/
theorem grounded_of_resolve {targets inherited fullJoins : List String}
    (hm : q.conceptMap = ConceptMap.resolve q.sources targets inherited fullJoins) : q.Grounded := by
  rw [Grounded, hm]
  exact (ConceptMap.mapsOnly_resolve q.sources targets inherited fullJoins).mono fun _ _ h => .source h

theorem Grounded.traced (h : q.Grounded) (hq : K q) : q.Traced K := h.mono fun _ _ hs => ⟨q, hq, rfl, hs⟩

/-- everything a relation reads is traced, itself included, if it is and everything that its sources read -/
theorem traced_of_sources (hr : r.Traced K) (h : ∀ q, .query q ∈ r.sources → ∀ s, q.Within s → s.Traced K) :
    ∀ s, r.Within s → s.Traced K := by
  intro s hs
  rcases hs.cases_source with rfl | ⟨q, hq, hqs⟩
  · exact hr
  · exact h q hq s hqs

/-- relations put together have the entries of each of them -/
theorem traced_of_merges {rs : List Relation} (h : Resolve.Merges rs q)
    (hrs : ∀ r ∈ rs, ∀ s, r.Within s → s.Traced K) : ∀ s, q.Within s → s.Traced K := by
  induction h with
  | one hr => exact hrs _ hr
  | @more a b ha hb he ih =>
    refine traced_of_sources ?_ fun t ht s hs => ih s ((Within.source (.self : a.Within a) ht).trans hs)
    refine MapsOnly.uniteMaps (ih a .self) ((hrs b hb b .self).mono ?_)
    rintro x s ⟨o, ho, hi, hs⟩
    exact ⟨o, ho, hi.trans he.symm, hs⟩

/-- **a rule puts together a relation whose columns are its own**, and hands back only what its parents have -/
theorem traced_of_ruled {env : Environment} {n : PlanNode} {rs : List Relation} (h : Resolve.Ruled env n rs r)
    (hd : ∀ d acceptPartial, n.kind = .select d acceptPartial → ∀ x ∈ n.core.inputs, x ∈ d.outputs)
    (hrs : ∀ r ∈ rs, ∀ s, r.Within s → s.Traced K) (hK : ∀ s, r.Within s → K s) :
    ∀ s, r.Within s → s.Traced K := by
  have hparents : ∀ q, .query q ∈ rs.map RelationSource.query → ∀ s, q.Within s → s.Traced K := by
    intro q hq
    obtain ⟨s, hs, he⟩ := List.mem_map.1 hq
    cases he
    exact hrs _ hs
  have hmerged : ∀ q, .query q ∈ Resolve.mergedSources rs → ∀ s, q.Within s → s.Traced K := by
    intro q hq
    obtain ⟨s, he, hs⟩ := Resolve.mem_mergedSources hq
    cases he
    exact traced_of_merges hs hrs
  cases h with
  | constant =>
    refine traced_of_sources (.ofList fun e he s hs => ?_) fun q hq => absurd hq List.not_mem_nil
    obtain ⟨x, -, rfl⟩ := List.mem_map.1 he
    exact absurd hs (SortedSet.not_mem_empty s)
  | selected kind =>
    refine traced_of_sources ((Resolve.grounded_selected (hd _ _ kind) _ _ _).traced (hK _ .self)) fun q hq => ?_
    rcases List.mem_cons.1 hq with hq | hq
    · cases hq
    · exact hparents q hq
  | based => exact traced_of_sources ((grounded_of_resolve rfl).traced (hK _ .self)) hparents
  | grouped => exact traced_of_sources ((grounded_of_resolve rfl).traced (hK _ .self)) hparents
  | filtered =>
    refine traced_of_sources ((grounded_of_resolve rfl).traced (hK _ .self)) fun q hq => ?_
    cases List.mem_singleton.1 hq
    exact traced_of_sources ((grounded_of_resolve rfl).traced (hK _ (Within.self.source List.mem_cons_self))) hparents
  | @unnested concepts grain kind =>
    have hbase : (Resolve.based n.core (rs.map .query) .unnest grain).Grounded := grounded_of_resolve rfl
    exact traced_of_sources ((Resolve.grounded_expanding hbase _).traced (hK _ .self)) hparents
  | handedBack _ back => exact hmerged r (Resolve.passThrough_eq_some back).2.mem
  | joined => exact traced_of_sources ((grounded_of_resolve rfl).traced (hK _ .self)) hmerged

end Relation

namespace Arena

variable {a : Arena} {id p : PlanId} {q r : Relation}

/-- a relation resolved for a node or for one below it, or a layer of such a relation -/
def Known (a : Arena) (id : PlanId) (q : Relation) : Prop :=
  ∃ p r, (p = id ∨ a.DependsOn id p) ∧ a.Resolves p r ∧ r.Within q

theorem Resolves.known (h : a.Resolves id r) (hq : r.Within q) : a.Known id q := ⟨id, r, Or.inl rfl, h, hq⟩

theorem Known.of_parent (hp : p ∈ a.parents id) (h : a.Known p q) : a.Known id q := by
  obtain ⟨x, r, hx, hr, hq⟩ := h
  refine ⟨x, r, Or.inr ?_, hr, hq⟩
  rcases hx with rfl | hx
  · exact .of_parent hp
  · exact .head hp hx

/-- **every column comes from somewhere**: what a relation below a resolved one maps an address to is a source, of the
relation itself or of a known one of its identifier, that has the column -/
theorem Resolves.traced (h : a.Resolves id r)
    (hd : ∀ x d acceptPartial, (a.node x).kind = .select d acceptPartial → ∀ y ∈ (a.core x).inputs, y ∈ d.outputs) :
    ∀ s, r.Within s → s.Traced (a.Known id) := by
  induction h with
  | @intro id rs r length parents rule ih =>
    refine Relation.traced_of_ruled rule (hd id) (fun q hq s hs => ?_) fun s hs =>
      (Resolves.intro length parents rule).known hs
    obtain ⟨p, hp⟩ := Arena.mem_zip_of_mem_right (Nat.le_of_eq length) hq
    refine (ih _ hp s hs).mono ?_
    rintro x n ⟨b, hb, he⟩
    exact ⟨b, hb.of_parent (List.of_mem_zip hp).1, he⟩

end Arena

end SemanticPlanner
