/-
Whether the conditions of an optimized plan can be evaluated on the rows they filter.

  FiltersRows          the condition of a step is scalar, given the columns that the step reads
  Refilters            a change of a step that keeps this: a condition is kept, dropped, narrowed by one on rows, or
                       has a constant written as its value
  Misplaces            the two rewrites that may not: the root returned, or an aggregate folded, where a condition then
                       stands in a step that computes an aggregate it filters by
  filtersRows_optimizeBy
                       conditions stay on rows unless a rewrite misplaces one; conditions on rows alone always do

A condition over aggregates stands in a step of its own above the grouping. Returning the root moves it into the
grouping without a look at what the grouping reads. Folding an aggregate takes a column that the parent reads for one
that it computes, and leaves the parent's condition as it is.
-/
import SemanticPlanner.Proofs.Scalar
import SemanticPlanner.Proofs.Tracking

namespace SemanticPlanner

variable {env : Environment} {s : OptimizerSettings} {p q : CtePlan} {c d parent root : Cte} {n x y : String}
variable {sort : Topological.Sorting}
  {r : Rule} {t : Condition}

/-! ## Columns read -/

namespace Cte

/-- an address is materialized if it is mapped to something -/
theorem mem_materialized : x ∈ c.materialized ↔ ∃ y, c.Maps x y := by
  show x ∈ ((c.sourceMap.toList.filter fun e => !e.2.isEmpty).map Prod.fst) ↔ _
  simp only [List.mem_map, List.mem_filter, Bool.not_eq_true', List.isEmpty_eq_false_iff, Maps]
  constructor
  · rintro ⟨⟨_, names⟩, ⟨hmem, hne⟩, rfl⟩
    obtain ⟨y, hy⟩ := List.exists_mem_of_ne_nil names hne
    exact ⟨y, names, hmem, hy⟩
  · rintro ⟨y, names, hmem, hy⟩
    exact ⟨(x, names), ⟨hmem, List.ne_nil_of_mem hy⟩, rfl⟩

/-- the condition of a step is scalar, given the columns that `m` finds in the step -/
def Filters (env : Environment) (m : Cte → NameSet) (c : Cte) : Prop :=
  ∀ t, c.condition = some t → t.isScalar env (m c) = true

/-- the condition of a step is scalar, given the columns that the step reads -/
abbrev FiltersRows (env : Environment) : Cte → Prop := Filters env materialized

/-- the condition of a step is scalar, whatever the step reads -/
abbrev FiltersPlainly (env : Environment) : Cte → Prop := Filters env fun _ => ∅

instance {m : Cte → NameSet} : Decidable (c.Filters env m) :=
  decidable_of_iff (∀ t ∈ c.condition, t.isScalar env (m c) = true) Iff.rfl

/-- a step that reads what another one reads, is found to have what that one is found to have -/
def Follows (m : Cte → NameSet) : Prop := ∀ (c d : Cte) (P : String → Prop),
  (∀ x ∈ c.materialized, P x → x ∈ d.materialized) → ∀ x ∈ m c, P x → x ∈ m d

theorem follows_materialized : Follows materialized := fun _ _ _ h => h

theorem follows_empty : Follows fun _ => ∅ := fun _ _ _ _ x hx => absurd hx (SortedSet.not_mem_empty x)

/-- a change of a step that leaves its condition on rows -/
inductive Refilters (env : Environment) (c d : Cte) : Prop
  | kept : d.condition = c.condition → (∀ x ∈ c.materialized, x ∈ d.materialized) → Refilters env c d
  | dropped : d.condition = none → Refilters env c d
  | narrowed {t : Condition} : t.isScalar env ∅ = true → d.condition = some (Condition.conjoin c.condition t) →
      (∀ x ∈ c.materialized, x ∈ d.materialized) → Refilters env c d
  | written {a : String} {v : Literal} : env.Fixed a → d.condition = c.condition.map (Condition.inline a v) →
      (∀ x ∈ c.materialized, x ≠ a → x ∈ d.materialized) → Refilters env c d

theorem Filters.refilter {m : Cte → NameSet} (hm : Follows m) (h : c.Filters env m) (hr : c.Refilters env d) :
    d.Filters env m := by
  have hall : (∀ x ∈ c.materialized, x ∈ d.materialized) → ∀ x ∈ m c, x ∈ m d :=
    fun hread x hx => hm c d (fun _ => True) (fun y hy _ => hread y hy) x hx trivial
  intro t ht
  cases hr with
  | kept hcond hread => exact Condition.isScalar_mono (hall hread) (h t (hcond ▸ ht))
  | dropped hcond =>
    rw [hcond] at ht
    cases ht
  | narrowed hscalar hcond hread =>
    rw [hcond] at ht
    cases ht
    refine Condition.isScalar_conjoin.2 ⟨fun e he => Condition.isScalar_mono (hall hread) (h e he), ?_⟩
    exact Condition.isScalar_mono (fun x hx => absurd hx (SortedSet.not_mem_empty x)) hscalar
  | @written a _ ha hcond hread =>
    rw [hcond] at ht
    obtain ⟨e, he, rfl⟩ := Option.map_eq_some_iff.1 ht
    exact Condition.isScalar_inline ha (hm c d (fun x => x ≠ a) hread) (h e he)

end Cte

/-! ## The rules -/

theorem InlineDatasource.Inlined.refilters (h : Inlined p c d) : c.Refilters env d := by
  have hframe : d.condition = c.condition ∧ ∀ x ∈ c.materialized, x ∈ d.materialized := by
    induction h with
    | none => exact ⟨rfl, fun x hx => hx⟩
    | next _ _ _ _ he ih =>
      obtain ⟨b, -, h⟩ := Cte.inlineParent_some he
      refine ⟨h.condition.trans ih.1, fun x hx => ?_⟩
      obtain ⟨y, names, hnames, hy⟩ := Cte.mem_materialized.1 (ih.2 x hx)
      exact Cte.mem_materialized.2 ⟨_, (Cte.maps_mapValues h.sourceMap).2 ⟨names, hnames, List.mem_map_of_mem hy⟩⟩
  exact .kept hframe.1 hframe.2

/-- what was mapped before an insertion of sources is mapped after it -/
theorem SortedMap.get?_foldl_insert_ne_nil {l : List (String × String)} {m : NameMap (List String)}
    {names : List String} (h : m.get? x = some names) (hne : names ≠ []) :
    ∃ names', (l.foldl (fun m e => m.insert e.1 [e.2]) m).get? x = some names' ∧ names' ≠ [] := by
  induction l generalizing m names with
  | nil => exact ⟨names, h, hne⟩
  | cons e l ih =>
    rw [List.foldl_cons]
    by_cases hx : x = e.1
    · exact @ih (m.insert e.1 [e.2]) [e.2] (by rw [SortedMap.get?_insert, if_pos hx]) (List.cons_ne_nil _ _)
    · exact @ih (m.insert e.1 [e.2]) names (by rw [SortedMap.get?_insert, if_neg hx, h]) hne

theorem PushPredicate.filterBy_refilters (ht : t.isScalar env ∅ = true) : c.Refilters env (filterBy t c) := by
  refine .narrowed ht rfl fun x hx => ?_
  obtain ⟨y, hy⟩ := Cte.mem_materialized.1 hx
  obtain ⟨names, hnames, hmem⟩ := Cte.maps_iff.1 hy
  obtain ⟨names', hnames', hne⟩ := SortedMap.get?_foldl_insert_ne_nil
    (l := borrowed c (SortedSet.ofList t.rowArguments)) hnames (List.ne_nil_of_mem hmem)
  obtain ⟨k, hk⟩ := List.exists_mem_of_ne_nil names' hne
  exact Cte.mem_materialized.2 ⟨k, Cte.maps_iff.2 ⟨names', hnames', hk⟩⟩

theorem InlineConstant.Written.refilters (h : Written env c d) : c.Refilters env d := by
  cases h with
  | @value address v hv =>
    unfold valueOf at hv
    split at hv
    · cases hv
    · split at hv
      · rename_i concept hconcept
        split at hv
        · refine .written (v := v) (Environment.fixed_of_constantValue hconcept hv) rfl fun x hx hne => ?_
          obtain ⟨y, hy⟩ := Cte.mem_materialized.1 hx
          obtain ⟨names, hnames, hmem⟩ := Cte.maps_iff.1 hy
          refine Cte.mem_materialized.2 ⟨y, Cte.maps_iff.2 ⟨names, ?_, hmem⟩⟩
          dsimp only
          rw [SortedMap.get?_insert, if_neg hne]
          exact hnames
        · cases hv
      · cases hv

/-- another name for a parent changes nothing that a condition depends on -/
theorem Cte.mem_materialized_replaceParent {old new : String} :
    x ∈ (c.replaceParent old new).materialized ↔ x ∈ c.materialized := by
  rw [mem_materialized, mem_materialized]
  constructor
  · rintro ⟨y, hy⟩
    rcases maps_replaceParent.1 hy with ⟨hy, -⟩ | ⟨hy, -⟩
    · exact ⟨old, hy⟩
    · exact ⟨y, hy⟩
  · rintro ⟨y, hy⟩
    by_cases h : y = old
    · exact ⟨new, maps_replaceParent.2 (Or.inl ⟨h ▸ hy, rfl⟩)⟩
    · exact ⟨y, maps_replaceParent.2 (Or.inr ⟨hy, h⟩)⟩

/-! ## Plans -/

/-- changes of a step, one after the other, that leave its condition on rows -/
abbrev Cte.RefiltersTo (env : Environment) : Cte → Cte → Prop := Relation.ReflTransGen (Refilters env)

theorem Cte.Filters.refilters {m : Cte → NameSet} (hm : Follows m) (h : c.Filters env m) (hr : c.RefiltersTo env d) :
    d.Filters env m := by
  induction hr with
  | refl => exact h
  | tail _ hr ih => exact ih.refilter hm hr

namespace CtePlan

/-- the conditions of all steps are scalar, given the columns that `m` finds in the step -/
def Filters (env : Environment) (m : Cte → NameSet) (p : CtePlan) : Prop := ∀ c ∈ p.ctes, c.Filters env m

/-- the conditions of all steps are scalar, given the columns that the step reads -/
abbrev FiltersRows (env : Environment) : CtePlan → Prop := Filters env Cte.materialized

/-- the conditions of all steps are scalar, whatever the step reads -/
abbrev FiltersPlainly (env : Environment) : CtePlan → Prop := Filters env fun _ => ∅

instance {m : Cte → NameSet} : Decidable (p.Filters env m) :=
  inferInstanceAs (Decidable (∀ c ∈ p.ctes, c.Filters env m))

/-- each step comes from one whose condition is left on rows -/
def RefiltersTo (env : Environment) (p q : CtePlan) : Prop := ∀ d ∈ q.ctes, ∃ c ∈ p.ctes, c.RefiltersTo env d

theorem RefiltersTo.of_subset (h : ∀ c ∈ q.ctes, c ∈ p.ctes) : p.RefiltersTo env q := fun c hc => ⟨c, h c hc, .refl⟩

theorem RefiltersTo.trans {r : CtePlan} (hpq : p.RefiltersTo env q) (hqr : q.RefiltersTo env r) :
    p.RefiltersTo env r := by
  intro e he
  obtain ⟨d, hd, hde⟩ := hqr e he
  obtain ⟨c, hc, hcd⟩ := hpq d hd
  exact ⟨c, hc, hcd.trans hde⟩

theorem RefiltersTo.modify {f : Cte → Cte} (hc : p.find? n = some c) (hf : c.RefiltersTo env (f c)) :
    p.RefiltersTo env (p.modify n f) := by
  intro d hd
  rcases mem_of_mem_modify hc hd with rfl | hd
  · exact ⟨c, (find?_some hc).1, hf⟩
  · exact ⟨d, hd, .refl⟩

theorem Filters.refilters {m : Cte → NameSet} (hm : Cte.Follows m) (h : p.Filters env m) (hpq : p.RefiltersTo env q) :
    q.Filters env m := by
  intro d hd
  obtain ⟨c, hc, hcd⟩ := hpq d hd
  exact (h c hc).refilters hm hcd

end CtePlan

/-- where no aggregate is folded, a rewrite leaves all conditions on rows -/
theorem Rewrite.refilters_or_folds (h : Rewrite env r p q) : p.RefiltersTo env q ∨
    ∃ c parent, r = .foldAggregate ∧ FoldAggregate.Absorbs env p c parent ∧ q = FoldAggregate.fold p c parent := by
  cases h with
  | inline hc hd => exact Or.inl (.modify hc (.single hd.refilters))
  | push hc ht => exact Or.inl (.modify hc (.single (PushPredicate.filterBy_refilters ht)))
  | drop hc => exact Or.inl (.modify hc (.single (.dropped rfl)))
  | write hc hd =>
    have hdrop : ∀ (d : Cte) names, d.Refilters env (InlineConstant.dropParents names d) :=
      fun d _ => .kept rfl fun _ hx => hx
    exact Or.inl (.modify hc ((Relation.ReflTransGen.mono (fun _ _ hw => hw.refilters) _ _ hd).tail (hdrop _ _)))
  | fold _ ha => exact Or.inr ⟨_, _, rfl, FoldAggregate.absorbs_of_absorber ha, rfl⟩

namespace FoldAggregate

/-- a step redirected, or redirected back, has its condition on rows as before -/
theorem replaceParent_refilters (old new : String) :
    c.Refilters env (c.replaceParent old new) ∧ (c.replaceParent old new).Refilters env c :=
  ⟨.kept rfl fun _ => Cte.mem_materialized_replaceParent.2, .kept rfl fun _ => Cte.mem_materialized_replaceParent.1⟩

/-- redirecting the readers leaves all conditions on rows, and puts none there -/
theorem redirect_refilters (readers : List String) (old new : String) :
    p.RefiltersTo env (redirect readers old new p) ∧
      ∀ c ∈ p.ctes, ∃ d ∈ (redirect readers old new p).ctes, d.RefiltersTo env c := by
  unfold redirect
  induction readers generalizing p with
  | nil => exact ⟨.of_subset fun _ hc => hc, fun c hc => ⟨c, hc, .refl⟩⟩
  | cons reader rest ih =>
    rw [List.foldl_cons]
    obtain ⟨hfrom, hto⟩ := @ih (p.modify reader fun c => c.replaceParent old new)
    constructor
    · refine .trans (fun d hd => ?_) hfrom
      rcases CtePlan.of_mem_modify hd with hd | ⟨c, hc, rfl⟩
      · exact ⟨d, hd, .refl⟩
      · exact ⟨c, hc, .single (replaceParent_refilters old new).1⟩
    · intro c hc
      rcases CtePlan.mem_modify_or hc with hc | hc
      · exact hto c hc
      · obtain ⟨d, hd, hdc⟩ := hto _ hc
        exact ⟨d, hd, hdc.tail (replaceParent_refilters old new).2⟩

/-- a fold leaves all conditions on rows, exactly if it leaves that of the parent there -/
theorem filters_fold {m : Cte → NameSet} (hm : Cte.Follows m) (hp : p.Filters env m) (ha : Absorbs env p c parent) :
    (fold p c parent).Filters env m ↔ (absorb c parent).Filters env m := by
  obtain ⟨hfrom, hto⟩ := @redirect_refilters env (p.modify parent.name (absorb c))
    (CtePlan.readersOf p.readers c.name) c.name parent.name
  constructor
  · intro h
    obtain ⟨d, hd, hda⟩ := hto _ (CtePlan.mem_modify_self ha.found)
    exact (h d hd).refilters hm hda
  · intro h
    have hmodified : (p.modify parent.name (absorb c)).Filters env m := by
      intro e he
      rcases CtePlan.mem_of_mem_modify ha.found he with rfl | he
      · exact h
      · exact hp e he
    exact hmodified.refilters hm hfrom

end FoldAggregate

namespace CtePlan

/-! ## Returned roots -/

/-- returning the root leaves all conditions on rows, exactly if it leaves its own there -/
theorem filters_collapse {m : Cte → NameSet} (hm : Cte.Follows m) (hp : p.Filters env m) (hy : p.Yields root parent) :
    (p.collapse parent.name).Filters env m ↔
      ∀ t, root.condition = some t → t.isScalar env (m (absorbRoot root parent)) = true := by
  have hparent : ∀ t, parent.condition = some t → t.isScalar env (m (absorbRoot root parent)) = true := by
    intro t ht
    have hread : ∀ x ∈ m parent, x ∈ m (absorbRoot root parent) :=
      fun x hx => hm parent (absorbRoot root parent) (fun _ => True) (fun _ hy _ => hy) x hx trivial
    exact Condition.isScalar_mono hread (hp parent (find?_some hy.found).1 t ht)
  have hsteps : (p.collapse parent.name).ctes = (p.modify parent.name (absorbRoot root)).ctes := by
    rw [collapse, hy.isRoot]
  constructor
  · intro h t ht
    have hmem : absorbRoot root parent ∈ (p.collapse parent.name).ctes := hsteps ▸ mem_modify_self hy.found
    have hboth := h _ hmem (Condition.conjoin parent.condition t) (by rw [absorbRoot, ht])
    exact (Condition.isScalar_conjoin.1 hboth).2
  · intro h e he
    rcases mem_of_mem_modify hy.found (hsteps ▸ he) with rfl | he
    · intro t ht
      cases hcond : root.condition with
      | none => exact hparent t (by rw [← ht, absorbRoot, hcond])
      | some u =>
        have hboth : some (Condition.conjoin parent.condition u) = some t := by rw [← ht, absorbRoot, hcond]
        rw [← Option.some.inj hboth]
        exact Condition.isScalar_conjoin.2 ⟨hparent, h u hcond⟩
    · exact hp e he

/-! ## Runs -/

/-- a rewrite after which a condition filters by a column that its step computes -/
inductive Misplaces (env : Environment) (s : OptimizerSettings) (p : CtePlan) : CtePlan → Prop
  /-- the root is returned with a condition that is not scalar, given what the parent reads -/
  | returned {root parent : Cte} {t : Condition} : s.directReturn = true → p.Yields root parent →
      root.condition = some t → t.isScalar env parent.materialized = false → Misplaces env s p (p.collapse parent.name)
  /-- an aggregate is folded into a parent whose condition is not scalar without the columns that are now computed -/
  | folded {c parent : Cte} {t : Condition} : s.mergeAggregate = true → FoldAggregate.Absorbs env p c parent →
      parent.condition = some t → t.isScalar env (FoldAggregate.absorb c parent).materialized = false →
      Misplaces env s p (FoldAggregate.fold p c parent)

/-- **one step of the optimizer leaves all conditions on rows, exactly if it misplaces none** -/
theorem filtersRows_advance (hp : p.FiltersRows env) (h : Advances sort env s p q) :
    q.FiltersRows env ↔ ¬ Misplaces env s p q := by
  constructor
  · intro hq hm
    cases hm with
    | @returned root parent t _ hy hcond hscalar =>
      have hrows : t.isScalar env parent.materialized = true :=
        (filters_collapse Cte.follows_materialized hp hy).1 hq t hcond
      rw [hscalar] at hrows
      cases hrows
    | @folded c parent t _ ha hcond hscalar =>
      have hrows : t.isScalar env (FoldAggregate.absorb c parent).materialized = true :=
        (FoldAggregate.filters_fold Cte.follows_materialized hp ha).1 hq t hcond
      rw [hscalar] at hrows
      cases hrows
  · intro hm
    cases h with
    | returned hon hreturns =>
      obtain ⟨n, hn, rfl⟩ := hreturns
      obtain ⟨root, parent, hy, rfl⟩ := yields_of_directParent hn
      refine (filters_collapse Cte.follows_materialized hp hy).2 fun t ht => ?_
      by_contra hscalar
      exact hm (.returned hon hy ht (Bool.not_eq_true _ ▸ hscalar))
    | improved h =>
      cases h with
      | rewrite hr h =>
        rcases h.refilters_or_folds with h | ⟨c, parent, rfl, ha, rfl⟩
        · exact hp.refilters Cte.follows_materialized h
        · refine (FoldAggregate.filters_fold Cte.follows_materialized hp ha).2 fun t ht => ?_
          by_contra hscalar
          exact hm (.folded hr ha ht (Bool.not_eq_true _ ▸ hscalar))
      | prune => exact hp.refilters Cte.follows_materialized (.of_subset fun c hc => (mem_prune.1 hc).1)
      | reorder h => exact hp.refilters Cte.follows_materialized (.of_subset (of_reorderBy h).2)

theorem filtersPlainly_advance (hp : p.FiltersPlainly env) (h : Advances sort env s p q) : q.FiltersPlainly env := by
  cases h with
  | returned _ hreturns =>
    obtain ⟨n, hn, rfl⟩ := hreturns
    obtain ⟨root, parent, hy, rfl⟩ := yields_of_directParent hn
    exact (filters_collapse Cte.follows_empty hp hy).2 (hp root (find?_some hy.isRoot).1)
  | improved h =>
    cases h with
    | rewrite _ h =>
      rcases h.refilters_or_folds with h | ⟨c, parent, -, ha, rfl⟩
      · exact hp.refilters Cte.follows_empty h
      · exact (FoldAggregate.filters_fold Cte.follows_empty hp ha).2 (hp parent (find?_some ha.found).1)
    | prune => exact hp.refilters Cte.follows_empty (.of_subset fun c hc => (mem_prune.1 hc).1)
    | reorder h => exact hp.refilters Cte.follows_empty (.of_subset (of_reorderBy h).2)

/-- **Filters stay on rows.** Take a plan whose conditions are scalar, given the columns that each step reads. So are
those of the optimized plan, unless at some step, up to which they were, the root is returned or an aggregate is folded
where a condition then filters by a column that its step computes. Where neither is done they always are, and conditions
that are scalar whatever is read stay so under all settings. -/
theorem filtersRows_optimizeBy (h : optimizeBy sort env s p = .ok q) :
    (p.FiltersRows env → q.FiltersRows env ∨ ∃ a b, Relation.ReflTransGen (Advances sort env s) p a ∧
      a.FiltersRows env ∧ Advances sort env s a b ∧ Misplaces env s a b ∧
        Relation.ReflTransGen (Advances sort env s) b q) ∧
    (s.directReturn = false → s.mergeAggregate = false → p.FiltersRows env → q.FiltersRows env) ∧
    (p.FiltersPlainly env → q.FiltersPlainly env) := by
  have hrun := optimizeBy_advances h
  have hrows : p.FiltersRows env → q.FiltersRows env ∨ ∃ a b, Relation.ReflTransGen (Advances sort env s) p a ∧
      a.FiltersRows env ∧ Advances sort env s a b ∧ Misplaces env s a b ∧
        Relation.ReflTransGen (Advances sort env s) b q := by
    clear h
    intro hp
    induction hrun using Relation.ReflTransGen.head_induction_on with
    | refl => exact Or.inl hp
    | @head a b hadvance hrest ih =>
      by_cases hb : b.FiltersRows env
      · refine (ih hb).imp_right fun ⟨a', b', ha', hrows, hadvance', hmisplaces, hrest'⟩ => ?_
        exact ⟨a', b', .head hadvance ha', hrows, hadvance', hmisplaces, hrest'⟩
      · rw [filtersRows_advance hp hadvance, not_not] at hb
        exact Or.inr ⟨a, b, .refl, hp, hadvance, hb, hrest⟩
  refine ⟨hrows, fun hreturn hfold hp => ?_, fun hp => ?_⟩
  · rcases hrows hp with hq | ⟨_, _, -, -, -, hmisplaces, -⟩
    · exact hq
    · cases hmisplaces with
      | returned hon => exact absurd (hon.symm.trans hreturn) Bool.noConfusion
      | folded hon => exact absurd (hon.symm.trans hfold) Bool.noConfusion
  · clear h hrows
    induction hrun with
    | refl => exact hp
    | tail _ hadvance ih => exact filtersPlainly_advance ih hadvance

/-- rows of which a column is above a limit -/
def above (address : String) : Condition := .comparison (.concept address) .gt (.literal (.integer 100))

/-- items with totals, filtered in a step below a grouping that computes totals anew -/
def regrouped (t : Condition) : CtePlan :=
  let items : Datasource := .ofColumns "items" [.bind "cat" "cat", .bind "tot" "tot"] []
  let sources := [("local.cat", ["items"]), ("local.tot", ["items"])]
  ⟨[{ plainStep "rows" .select [] [items] sources ["local.cat", "local.tot"] with condition := some t },
    plainStep "root" .group ["rows"] [] [("local.tot", [])] ["local.tot"]], "root"⟩

/-- totals are filtered above the grouping that computes them, and in it when the root was returned -/
theorem optimize_aboveTotal : ∃ plan steps q q',
    QueryPlan.make QueryPlan.totals ["local.cat", "local.tot"] (some (above "local.tot")) {} = .ok plan ∧
      plan.lower = .ok steps ∧ steps.FiltersRows QueryPlan.totals ∧ optimize QueryPlan.totals {} steps = .ok q ∧
      ¬ q.FiltersRows QueryPlan.totals ∧
      optimize QueryPlan.totals { directReturn := false, mergeAggregate := false } steps = .ok q' := by
  obtain ⟨plan, steps, hm, hl, hv⟩ := QueryPlan.exists_lowered
    (f := fun steps => (decide (steps.FiltersRows QueryPlan.totals),
      (optimize QueryPlan.totals {} steps).toOption.map (fun q : CtePlan => decide (q.FiltersRows QueryPlan.totals)),
      (optimize QueryPlan.totals { directReturn := false, mergeAggregate := false } steps).toOption.map fun _ => ()))
    (v := (true, some false, some ()))
    (show ((QueryPlan.make QueryPlan.totals ["local.cat", "local.tot"] (some (above "local.tot")) {}).toOption.bind _) =
      _ by decide +kernel)
  simp only [Prod.mk.injEq, decide_eq_true_eq] at hv
  obtain ⟨hrows, hreturned, hkept⟩ := hv
  obtain ⟨q, hq, hmisplaced⟩ := exists_optimized hreturned
  obtain ⟨q', hq', -⟩ := exists_optimized hkept
  exact ⟨plan, steps, q, q', hm, hl, hrows, hq, of_decide_eq_false hmisplaced, hq'⟩

/-- a filter can be moved to where its total is computed, by returning the root and by folding the grouping -/
theorem filters_misplaced : (∃ plan steps q,
    QueryPlan.make QueryPlan.totals ["local.cat", "local.tot"] (some (above "local.tot")) {} = .ok plan ∧
      plan.lower = .ok steps ∧ steps.FiltersRows QueryPlan.totals ∧ optimize QueryPlan.totals {} steps = .ok q ∧
      ¬ q.FiltersRows QueryPlan.totals) ∧
    (regrouped (above "local.tot")).FiltersRows QueryPlan.totals ∧ ∃ q,
      optimize QueryPlan.totals { directReturn := false } (regrouped (above "local.tot")) = .ok q ∧
        ¬ q.FiltersRows QueryPlan.totals := by
  obtain ⟨plan, steps, q, -, hm, hl, hrows, hq, hmisplaced, -⟩ := optimize_aboveTotal
  have hfolded : (optimize QueryPlan.totals { directReturn := false } (regrouped (above "local.tot"))).toOption.map
      (fun q : CtePlan => decide (q.FiltersRows QueryPlan.totals)) = some false := by decide +kernel
  obtain ⟨q', hq', hmisplaced'⟩ := exists_optimized hfolded
  exact ⟨⟨plan, steps, q, hm, hl, hrows, hq, hmisplaced⟩, by decide +kernel, q', hq', of_decide_eq_false hmisplaced'⟩

/-- a filter by totals is misplaced where the root is returned and stays where it is otherwise; one by a column of the
items is as good below the grouping -/
theorem filtersRows_optimize_above : (∃ steps q a b, optimize QueryPlan.totals {} steps = .ok q ∧
    Relation.ReflTransGen (Advances Topological.order QueryPlan.totals {}) steps a ∧ Misplaces QueryPlan.totals {} a b ∧
      Relation.ReflTransGen (Advances Topological.order QueryPlan.totals {}) b q) ∧
    (∃ steps q, optimize QueryPlan.totals { directReturn := false, mergeAggregate := false } steps = .ok q ∧
      steps.FiltersRows QueryPlan.totals ∧ q.FiltersRows QueryPlan.totals) ∧
    ∃ q, optimize QueryPlan.totals { directReturn := false } (regrouped (above "local.cat")) = .ok q ∧
      (regrouped (above "local.cat")).FiltersPlainly QueryPlan.totals ∧ q.FiltersPlainly QueryPlan.totals := by
  obtain ⟨-, steps, q, q', -, -, hrows, hq, hnot, hq'⟩ := optimize_aboveTotal
  obtain ⟨a, b, ha, -, -, hmisplaces, hb⟩ := ((filtersRows_optimizeBy hq).1 hrows).resolve_left hnot
  have hplain : (regrouped (above "local.cat")).FiltersPlainly QueryPlan.totals := by decide +kernel
  have hfolded : (optimize QueryPlan.totals { directReturn := false } (regrouped (above "local.cat"))).toOption.map
      (fun _ => ()) = some () := by decide +kernel
  obtain ⟨q'', hq'', -⟩ := exists_optimized hfolded
  have hkept : q'.FiltersRows QueryPlan.totals := (filtersRows_optimizeBy hq').2.1 rfl rfl hrows
  exact ⟨⟨steps, q, a, b, hq, ha, hmisplaces, hb⟩, ⟨steps, q', hq', hrows, hkept⟩, q'', hq'', hplain,
    (filtersRows_optimizeBy hq'').2.2 hplain⟩

end CtePlan

end SemanticPlanner
