/-
What the effective grain of a relation fixes.

  Fixed             the addresses whose values a row of a grain fixes, through the sources and the join pairs
  Contributes       the components that a join adds
  mem_effectiveGrain
                    the effective grain is what the joins contribute and what the sources outside all joins do
  Overlooked        a source whose grain does not count: another one stands for its name in the joins, or no join names
                    it and a membership test reads one of its outputs
  effectiveGrain_fixes
                    the grain of every other source is fixed, and nothing else is in the effective grain
  visits_not_fixed  a source with rows of its own that a membership test reads as well

A right side that is joined on exactly its own grain adds nothing: its keys are the right sides of pairs whose left sides
come with their source.
-/
import SemanticPlanner.Proofs.Sourcing
import SemanticPlanner.Proofs.Determined

namespace SemanticPlanner

namespace Grouping

variable {env : Environment} {r : Relation} {g : Grain} {s : RelationSource} {j : BaseJoin} {c : Collected} {a i : String}

/-! ## What a row fixes -/

/-- the addresses whose values a row of the grain fixes: its components, all outputs of a source whose grain is fixed, and
the right side of a join pair whose left side is -/
inductive Fixed (r : Relation) (g : Grain) : String → Prop
  | component {a : String} : a ∈ g.components → Fixed r g a
  | output {s : RelationSource} {a : String} : s ∈ r.sources → (∀ k ∈ s.grain.components, Fixed r g k) →
      a ∈ s.outputs → Fixed r g a
  | paired {j : BaseJoin} {p : ConceptPair} : .base j ∈ r.joins → p ∈ j.pairs → Fixed r g p.left → Fixed r g p.right

/-- the grain of the source is fixed -/
def FixesGrain (r : Relation) (g : Grain) (s : RelationSource) : Prop := ∀ a ∈ s.grain.components, Fixed r g a

/-- what the pairs of a join read on the left are outputs of the sources that they are read from -/
def ReadsOutputs (r : Relation) : Prop :=
  ∀ j, .base j ∈ r.joins → ∀ p ∈ j.pairs, ∃ s, r.source? p.existing = some s ∧ p.left ∈ s.outputs

theorem source?_eq_some (h : r.source? i = some s) : s ∈ r.sources ∧ s.identifier = i := by
  unfold Relation.source? at h
  have hi := List.find?_some h
  exact ⟨List.mem_of_find?_eq_some h, by simpa using hi⟩

theorem exists_source? (hs : s ∈ r.sources) : ∃ t, r.source? s.identifier = some t := by
  unfold Relation.source?
  exact Option.isSome_iff_exists.1 (List.find?_isSome.2 ⟨s, hs, by simp⟩)

/-! ## What a join contributes -/

/-- the sources that a join reads on its left, by identifier -/
def lefts (j : BaseJoin) : List String := j.pairs.map ConceptPair.existing ++ j.left.toList

/-- the sources that a join names -/
def names : RelationJoin → List String
  | .base j => j.right :: lefts j
  | .unnest _ => []

/-- a join on exactly the grain of its right source -/
def OnOwnGrain (env : Environment) (j : BaseJoin) (s : RelationSource) : Prop :=
  (Grain.ofConcepts (j.pairs.filterMap fun p => env.find? p.right)).components = s.grain.components

instance (env : Environment) (j : BaseJoin) (s : RelationSource) : Decidable (OnOwnGrain env j s) :=
  inferInstanceAs (Decidable (_ = _))

/-- the components that a join adds: what it expands, the grains of its left sources, and that of its right source unless
it is joined on exactly that -/
inductive Contributes (env : Environment) (r : Relation) : RelationJoin → String → Prop
  | expanded {j : UnnestJoin} {a : String} : a ∈ j.concepts → Contributes env r (.unnest j) a
  | left {j : BaseJoin} {i a : String} {s : RelationSource} : i ∈ lefts j → r.source? i = some s →
      a ∈ s.grain.components → Contributes env r (.base j) a
  | right {j : BaseJoin} {a : String} {s : RelationSource} : r.source? j.right = some s → ¬ OnOwnGrain env j s →
      a ∈ s.grain.components → Contributes env r (.base j) a

/-- what is collected once the left sources of a join are added -/
def withLefts (r : Relation) (c : Collected) (j : BaseJoin) : Collected :=
  ((lefts j).filterMap r.source?).foldl addGrain c

theorem mem_withLefts : a ∈ (withLefts r c j).grain.components ↔
    a ∈ c.grain.components ∨ ∃ i ∈ lefts j, ∃ s, r.source? i = some s ∧ a ∈ s.grain.components := by
  have hstep : ∀ (c : Collected) (s : RelationSource), a ∈ (addGrain c s).grain.components ↔
      a ∈ c.grain.components ∨ a ∈ s.grain.components := fun c s => SortedSet.mem_union
  apply (foldl_iff (fun c : Collected => a ∈ c.grain.components) hstep _ c).trans
  simp only [List.mem_filterMap]
  grind

theorem mem_seen_withLefts : i ∈ (withLefts r c j).seen ↔
    i ∈ c.seen ∨ i ∈ lefts j ∧ ∃ s, r.source? i = some s := by
  have hstep : ∀ (c : Collected) (s : RelationSource), i ∈ (addGrain c s).seen ↔ i ∈ c.seen ∨ s.identifier = i := by
    intro c s
    simp [addGrain, or_comm, eq_comm]
  apply (foldl_iff (fun c : Collected => i ∈ c.seen) hstep _ c).trans
  simp only [List.mem_filterMap]
  constructor
  · rintro (h | ⟨s, ⟨k, hk, hs⟩, rfl⟩)
    · exact Or.inl h
    · rw [(source?_eq_some hs).2]
      exact Or.inr ⟨hk, s, hs⟩
  · rintro (h | ⟨hi, s, hs⟩)
    · exact Or.inl h
    · exact Or.inr ⟨s, ⟨i, hi, hs⟩, (source?_eq_some hs).2⟩

theorem addBaseJoin_eq (env : Environment) (r : Relation) (c : Collected) (j : BaseJoin) :
    addBaseJoin env r c j = match r.source? j.right with
      | none => withLefts r c j
      | some s =>
        if Grain.ofConcepts (j.pairs.filterMap fun p => env.find? p.right) == s.grain then
          { withLefts r c j with seen := s.identifier :: (withLefts r c j).seen }
        else addGrain (withLefts r c j) s := by
  have hpairs : (j.pairs.filterMap fun p => r.source? p.existing) =
      (j.pairs.map ConceptPair.existing).filterMap r.source? := by
    rw [List.filterMap_map]
    rfl
  have hleft : (j.left.bind r.source?).toList = j.left.toList.filterMap r.source? := by
    cases j.left with
    | none => rfl
    | some l => cases h : r.source? l <;> simp [h]
  have hsame : (j.left.bind r.source?).toList.foldl addGrain
      ((j.pairs.filterMap fun p => r.source? p.existing).foldl addGrain c) = withLefts r c j := by
    rw [hpairs, hleft, ← List.foldl_append, ← List.filterMap_append]
    rfl
  rw [← hsame]
  rfl

/-- what is collected from a base join, by the source that it has on its right -/
theorem addBaseJoin_cases (env : Environment) (r : Relation) (c : Collected) (j : BaseJoin) :
    (r.source? j.right = none ∧ addBaseJoin env r c j = withLefts r c j) ∨
    ∃ s, r.source? j.right = some s ∧ (addBaseJoin env r c j).seen = s.identifier :: (withLefts r c j).seen ∧
      ∀ a, a ∈ (addBaseJoin env r c j).grain.components ↔
        a ∈ (withLefts r c j).grain.components ∨ ¬ OnOwnGrain env j s ∧ a ∈ s.grain.components := by
  rw [addBaseJoin_eq]
  cases hright : r.source? j.right with
  | none => exact Or.inl ⟨rfl, rfl⟩
  | some s =>
    refine Or.inr ⟨s, rfl, ?_⟩
    dsimp only
    split
    · rename_i hown
      have hown : OnOwnGrain env j s := of_decide_eq_true hown
      exact ⟨rfl, fun a => by simp [hown]⟩
    · rename_i hown
      have hown : ¬ OnOwnGrain env j s := fun h => hown (decide_eq_true h)
      refine ⟨rfl, fun a => ?_⟩
      simp only [hown, not_false_eq_true, true_and]
      exact SortedSet.mem_union

theorem mem_addJoin (j : RelationJoin) : a ∈ (addJoin env r c j).grain.components ↔
    a ∈ c.grain.components ∨ Contributes env r j a := by
  cases j with
  | unnest j =>
    have hexpanded : Contributes env r (.unnest j) a ↔ a ∈ j.concepts :=
      ⟨fun h => by cases h with | expanded h => exact h, .expanded⟩
    rw [hexpanded, ← SortedSet.mem_ofList]
    exact SortedSet.mem_union
  | base j =>
    have hbase : Contributes env r (.base j) a ↔
        (∃ i ∈ lefts j, ∃ s, r.source? i = some s ∧ a ∈ s.grain.components) ∨
          ∃ s, r.source? j.right = some s ∧ ¬ OnOwnGrain env j s ∧ a ∈ s.grain.components := by
      constructor
      · intro h
        cases h with
        | left hi hs ha => exact Or.inl ⟨_, hi, _, hs, ha⟩
        | right hs hown ha => exact Or.inr ⟨_, hs, hown, ha⟩
      · rintro (⟨i, hi, s, hs, ha⟩ | ⟨s, hs, hown, ha⟩)
        · exact .left hi hs ha
        · exact .right hs hown ha
    rw [hbase, ← or_assoc, ← mem_withLefts]
    change a ∈ (addBaseJoin env r c j).grain.components ↔ _
    rcases addBaseJoin_cases env r c j with ⟨hright, hadd⟩ | ⟨s, hright, -, hadd⟩
    · simp [hadd, hright]
    · simp [hadd, hright]

theorem mem_seen_addJoin (j : RelationJoin) : i ∈ (addJoin env r c j).seen ↔
    i ∈ c.seen ∨ i ∈ names j ∧ ∃ s, r.source? i = some s := by
  cases j with
  | unnest j => simp [addJoin, names]
  | base j =>
    change i ∈ (addBaseJoin env r c j).seen ↔ _
    rcases addBaseJoin_cases env r c j with ⟨hright, hadd⟩ | ⟨s, hright, hadd, -⟩
    · rw [hadd, mem_seen_withLefts]
      grind [names]
    · have hs := (source?_eq_some hright).2
      rw [hadd, List.mem_cons, mem_seen_withLefts, hs]
      grind [names]

/-! ## The effective grain -/

/-- the addresses that the relation's condition tests membership in -/
def tested (r : Relation) : List String :=
  match r.condition with
  | some c => c.existenceArguments
  | none => []

/-- a join names the source -/
def Named (r : Relation) (i : String) : Prop := ∃ j ∈ r.joins, i ∈ names j

/-- one of the source's outputs is read by a membership test -/
def SomeTested (r : Relation) (s : RelationSource) : Prop := ∃ x ∈ s.outputs, x ∈ tested r

/-- the source is read by membership tests only -/
def OnlyTested (r : Relation) (s : RelationSource) : Prop := ∀ x ∈ s.outputs, x ∈ tested r

theorem isExistence_iff : isExistence (tested r) s = true ↔ SomeTested r s := by
  unfold isExistence SomeTested
  cases h : tested r with
  | nil => simp
  | cons x l => simp

/-- what all joins collect -/
def collected (env : Environment) (r : Relation) : Collected := r.joins.foldl (addJoin env r) ⟨Grain.single, []⟩

theorem mem_collected : a ∈ (collected env r).grain.components ↔ ∃ j ∈ r.joins, Contributes env r j a := by
  apply (foldl_iff (fun c : Collected => a ∈ c.grain.components) (fun _ j => mem_addJoin j) r.joins _).trans
  exact or_iff_right (SortedSet.not_mem_empty a)

theorem mem_seen_collected (hs : s ∈ r.sources) : s.identifier ∈ (collected env r).seen ↔ Named r s.identifier := by
  apply (foldl_iff (fun c : Collected => s.identifier ∈ c.seen) (fun _ j => mem_seen_addJoin j) r.joins _).trans
  simp [Named, exists_source? hs]

/-- a source outside all joins counts unless a test reads it -/
theorem counts_iff (hs : s ∈ r.sources) :
    (!(collected env r).seen.contains s.identifier && !isExistence (tested r) s) = true ↔
      ¬ Named r s.identifier ∧ ¬ SomeTested r s := by
  rw [← @mem_seen_collected env r s hs, ← isExistence_iff]
  simp

theorem effectiveGrain_of_joins (hjoins : r.joins ≠ []) : effectiveGrain env (.query r) =
    (r.sources.filter fun s => !(collected env r).seen.contains s.identifier && !isExistence (tested r) s).foldl
      (fun g s => g.union s.grain) (collected env r).grain := by
  have hempty : r.joins.isEmpty = false := by simpa using hjoins
  rw [effectiveGrain, hempty]
  rfl

/-- **the effective grain is what the joins contribute, and the sources outside all joins that no test reads** -/
theorem mem_effectiveGrain (hjoins : r.joins ≠ []) : a ∈ (effectiveGrain env (.query r)).components ↔
    (∃ j ∈ r.joins, Contributes env r j a) ∨
      ∃ s ∈ r.sources, ¬ Named r s.identifier ∧ ¬ SomeTested r s ∧ a ∈ s.grain.components := by
  rw [effectiveGrain_of_joins hjoins]
  apply (foldl_iff (fun g : Grain => a ∈ g.components) (fun g s => SortedSet.mem_union) _ _).trans
  rw [mem_collected]
  apply or_congr_right
  constructor
  · rintro ⟨s, hs, ha⟩
    obtain ⟨hs, hcounts⟩ := List.mem_filter.1 hs
    obtain ⟨hnamed, htested⟩ := (counts_iff hs).1 hcounts
    exact ⟨s, hs, hnamed, htested, ha⟩
  · rintro ⟨s, hs, hnamed, htested, ha⟩
    exact ⟨s, List.mem_filter.2 ⟨hs, (counts_iff hs).2 ⟨hnamed, htested⟩⟩, ha⟩

/-! ## What is fixed -/

/-- a source whose grain does not count -/
inductive Overlooked (r : Relation) (s : RelationSource) : Prop
  /-- joins name its identifier, which stands for another source -/
  | shadowed : Named r s.identifier → r.source? s.identifier ≠ some s → Overlooked r s
  /-- no join names it, and a membership test reads one of its outputs -/
  | tested : ¬ Named r s.identifier → SomeTested r s → Overlooked r s

/-- the grain that a right source is joined on is fixed with the sources on the left -/
theorem fixesGrain_of_onOwnGrain (hk : env.Keyed) (hreads : ReadsOutputs r) (hj : .base j ∈ r.joins)
    (hown : OnOwnGrain env j s) (hlefts : ∀ i ∈ lefts j, ∀ t, r.source? i = some t → FixesGrain r g t) :
    FixesGrain r g s := by
  intro a ha
  rw [← hown] at ha
  obtain ⟨c, hc, rfl⟩ := Grain.mem_ofConcepts ha
  obtain ⟨p, hp, hfind⟩ := List.mem_filterMap.1 hc
  obtain ⟨t, ht, hleft⟩ := hreads j hj p hp
  have hexisting : p.existing ∈ lefts j := List.mem_append_left _ (List.mem_map_of_mem hp)
  have hfixed : Fixed r g p.left := .output (source?_eq_some ht).1 (hlefts _ hexisting t ht) hleft
  rw [hk _ _ hfind]
  exact .paired hj hp hfixed

/-- the grain of a source that a join names is fixed -/
theorem fixesGrain_of_named (hk : env.Keyed) (hjoins : r.joins ≠ []) (hreads : ReadsOutputs r)
    (hs : r.source? s.identifier = some s) (hnamed : Named r s.identifier) :
    FixesGrain r (effectiveGrain env (.query r)) s := by
  have hcontributed : ∀ j ∈ r.joins, ∀ a, Contributes env r j a → Fixed r (effectiveGrain env (.query r)) a :=
    fun j hj a ha => .component ((mem_effectiveGrain hjoins).2 (Or.inl ⟨j, hj, ha⟩))
  obtain ⟨j, hj, hname⟩ := hnamed
  cases j with
  | unnest j => exact absurd hname List.not_mem_nil
  | base j =>
    have hlefts : ∀ i ∈ lefts j, ∀ t, r.source? i = some t → FixesGrain r (effectiveGrain env (.query r)) t :=
      fun i hi t ht a ha => hcontributed _ hj a (.left hi ht ha)
    rcases List.mem_cons.1 hname with hright | hleft
    · by_cases hown : OnOwnGrain env j s
      · exact fixesGrain_of_onOwnGrain hk hreads hj hown hlefts
      · exact fun a ha => hcontributed _ hj a (.right (hright ▸ hs) hown ha)
    · exact hlefts _ hleft s hs

/-- **What the effective grain fixes.** The grain of every source of a joined relation is fixed by the effective grain,
unless the source is overlooked; and each component comes from an expansion or from a source that is not overlooked. So
the effective grain fixes the grains of all sources but those that are read by tests only exactly if it fixes the grains
of the overlooked ones among them. -/
theorem effectiveGrain_fixes (hk : env.Keyed) (hjoins : r.joins ≠ []) (hreads : ReadsOutputs r) :
    (∀ s ∈ r.sources, Overlooked r s ∨ FixesGrain r (effectiveGrain env (.query r)) s) ∧
    (∀ a ∈ (effectiveGrain env (.query r)).components, (∃ j, .unnest j ∈ r.joins ∧ a ∈ j.concepts) ∨
      ∃ s ∈ r.sources, ¬ Overlooked r s ∧ a ∈ s.grain.components) ∧
    ((∀ s ∈ r.sources, ¬ OnlyTested r s → FixesGrain r (effectiveGrain env (.query r)) s) ↔
      ∀ s ∈ r.sources, ¬ OnlyTested r s → Overlooked r s → FixesGrain r (effectiveGrain env (.query r)) s) := by
  have hall : ∀ s ∈ r.sources, Overlooked r s ∨ FixesGrain r (effectiveGrain env (.query r)) s := by
    intro s hs
    by_cases hnamed : Named r s.identifier
    · by_cases hsame : r.source? s.identifier = some s
      · exact Or.inr (fixesGrain_of_named hk hjoins hreads hsame hnamed)
      · exact Or.inl (.shadowed hnamed hsame)
    · by_cases htested : SomeTested r s
      · exact Or.inl (.tested hnamed htested)
      · exact Or.inr fun a ha => .component ((mem_effectiveGrain hjoins).2 (Or.inr ⟨s, hs, hnamed, htested, ha⟩))
  refine ⟨hall, fun a ha => ?_, fun h s hs honly _ => h s hs honly, fun h s hs honly => ?_⟩
  · have hnot : ∀ j ∈ r.joins, ∀ i ∈ names j, ∀ s, r.source? i = some s → s ∈ r.sources ∧ ¬ Overlooked r s := by
      intro j hj i hi s hs
      obtain ⟨hmem, rfl⟩ := source?_eq_some hs
      refine ⟨hmem, fun hover => ?_⟩
      cases hover with
      | shadowed _ hother => exact hother hs
      | tested hnamed _ => exact hnamed ⟨j, hj, hi⟩
    rcases (mem_effectiveGrain hjoins).1 ha with ⟨j, hj, hcontributes⟩ | ⟨s, hs, hnamed, htested, ha⟩
    · cases hcontributes with
      | expanded ha => exact Or.inl ⟨_, hj, ha⟩
      | left hi hs ha =>
        obtain ⟨hmem, hcounts⟩ := hnot _ hj _ (List.mem_cons_of_mem _ hi) _ hs
        exact Or.inr ⟨_, hmem, hcounts, ha⟩
      | right hs _ ha =>
        obtain ⟨hmem, hcounts⟩ := hnot _ hj _ List.mem_cons_self _ hs
        exact Or.inr ⟨_, hmem, hcounts, ha⟩
    · refine Or.inr ⟨s, hs, fun hover => ?_, ha⟩
      cases hover with
      | shadowed hnamed' _ => exact hnamed hnamed'
      | tested _ htested' => exact htested htested'
  · rcases hall s hs with hover | hfixes
    · exact h s hs honly hover
    · exact hfixes

/-! ## A source that is tested and read -/

def purchases : Environment := (Environment.empty.add (.key "customer" .integer)).add (.key "order" .integer)

def orders : RelationSource :=
  .datasource (.ofColumns "orders" [.bind "order" "order", .bind "customer" "customer"] ["order"])

def customers : RelationSource :=
  .datasource (.ofColumns "customers" [.bind "customer" "customer", .bind "name" "name"] ["customer"])

/-- each visit of a customer of rank -/
def visits : RelationSource := .datasource (.ofColumns "visits" [.bind "visit" "visit", .bind "vip" "vip"] ["visit"])

/-- the customers of orders, joined on their own grain -/
def ordered : Relation :=
  { (default : Relation) with
    identifier := "ordered"
    outputs := ["local.order", "local.name"]
    sources := [orders, customers]
    joins := [.base ⟨some "orders", "customers", .inner, [⟨"local.customer", "local.customer", "orders"⟩]⟩]
    grain := Grain.ofList ["local.order"] }

/-- orders by customers of rank, with all visits -/
def visited : Relation :=
  { ordered with
    outputs := ["local.order", "local.visit"]
    sources := [orders, customers, visits]
    condition := some (.membership (.concept "local.customer") .isIn "local.vip") }

theorem keyed_purchases : purchases.Keyed := (Environment.keyed_empty.add _).add _

theorem readsOutputs_of_ordered (hjoins : r.joins = ordered.joins) (horders : r.source? "orders" = some orders) :
    ReadsOutputs r := by
  intro j hj p hp
  rw [hjoins] at hj
  cases List.mem_singleton.1 hj
  cases List.mem_singleton.1 hp
  exact ⟨orders, horders, by decide⟩

theorem readsOutputs_ordered : ReadsOutputs ordered := readsOutputs_of_ordered rfl rfl

/-- an order fixes its customer, whose grain adds nothing -/
theorem effectiveGrain_fixes_customers : purchases.Keyed ∧ ordered.joins ≠ [] ∧ ReadsOutputs ordered ∧
    (effectiveGrain purchases (.query ordered)).components.toList = ["local.order"] ∧
    FixesGrain ordered (effectiveGrain purchases (.query ordered)) customers := by
  have hjoins : ordered.joins ≠ [] := by decide
  have hnot : ¬ Overlooked ordered customers := by
    intro h
    cases h with
    | shadowed _ hother => exact hother rfl
    | tested _ htested =>
      obtain ⟨x, -, hx⟩ := htested
      exact absurd hx List.not_mem_nil
  obtain ⟨hall, -⟩ := effectiveGrain_fixes keyed_purchases hjoins readsOutputs_ordered
  exact ⟨keyed_purchases, hjoins, readsOutputs_ordered, by decide +kernel,
    (hall customers (List.mem_cons_of_mem _ List.mem_cons_self)).resolve_left hnot⟩

/-- an order fixes nothing about visits -/
theorem mem_of_fixed_visited (h : Fixed visited (effectiveGrain purchases (.query visited)) a) :
    a ∈ ["local.order", "local.customer", "local.name"] := by
  have hgrain : (effectiveGrain purchases (.query visited)).components.toList = ["local.order"] := by decide +kernel
  induction h with
  | component ha =>
    rw [SortedSet.mem_def, hgrain] at ha
    exact List.mem_cons.2 (Or.inl (List.mem_singleton.1 ha))
  | @output s a hs _ ha ih =>
    have hs : s ∈ [orders, customers, visits] := hs
    simp only [List.mem_cons, List.not_mem_nil, or_false] at hs
    rcases hs with rfl | rfl | rfl
    · have houtputs : ∀ x ∈ orders.outputs, x ∈ ["local.order", "local.customer", "local.name"] := by decide
      exact houtputs a ha
    · have houtputs : ∀ x ∈ customers.outputs, x ∈ ["local.order", "local.customer", "local.name"] := by decide
      exact houtputs a ha
    · have hvisit := ih "local.visit" List.mem_cons_self
      exact absurd hvisit (by decide)
  | paired hj hp _ =>
    cases List.mem_singleton.1 hj
    cases List.mem_singleton.1 hp
    decide

/-- **A source whose rows do not count.** No join names the visits, so each order comes with every visit. One of their
columns is tested against, and for its sake they are passed over, although the other one is read from their rows. -/
theorem visits_not_fixed : purchases.Keyed ∧ visited.joins ≠ [] ∧ ReadsOutputs visited ∧ visits ∈ visited.sources ∧
    ¬ OnlyTested visited visits ∧ ¬ FixesGrain visited (effectiveGrain purchases (.query visited)) visits := by
  refine ⟨keyed_purchases, by decide, readsOutputs_of_ordered rfl rfl, ?_, ?_, ?_⟩
  · exact List.mem_cons_of_mem _ (List.mem_cons_of_mem _ List.mem_cons_self)
  · intro honly
    have hvisit := honly "local.visit" (by decide)
    exact absurd hvisit (by decide)
  · intro hfixes
    have hvisit := mem_of_fixed_visited (hfixes "local.visit" List.mem_cons_self)
    exact absurd hvisit (by decide)

end Grouping

end SemanticPlanner
