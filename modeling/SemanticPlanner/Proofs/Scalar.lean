/-
When an expression or a condition is scalar.

  Environment.Walked        what a walk through function lineage knows when it has found no aggregate
  Expr.isScalar_iff         no aggregate is written in it, and none is reached by following function lineage
  Condition.isScalar_mono   further materialized columns leave a condition scalar
  Condition.isScalar_inline so does a constant that is written as its value, and then need not be materialized

A walk skips what it has seen, also what it is still below. That one is looked through when the walk comes back to it, so
nothing is missed although lineage may be cyclic. It is never out of depth: each concept that it goes through is a new
one, and only declared concepts have inputs to follow.
-/
import SemanticPlanner.Environment.Scalar
import SemanticPlanner.Proofs.Reach

namespace SemanticPlanner

variable {env : Environment} {m m' : NameSet} {a b : String} {v : Literal} {e e' : Expr}

/-! ## Aggregates that are written -/

namespace Expr

mutual

/-- an aggregate is written in the expression itself -/
def hasAggregate : Expr → Bool
  | concept _ => false
  | literal _ => false
  | function _ args => anyAggregate args
  | aggregate _ _ => true

def anyAggregate : List Expr → Bool
  | [] => false
  | e :: es => hasAggregate e || anyAggregate es

end

mutual

theorem mem_collect : ∀ (e : Expr) {out : List String}, a ∈ e.collect out ↔ a ∈ out ∨ e.mentions a = true
  | concept b, out => by simp [collect, mentions, mem_addNew, eq_comm]
  | literal _, _ => by simp [collect, mentions]
  | function _ args, _ => mem_collectAll args
  | aggregate _ args, _ => mem_collectAll args

theorem mem_collectAll : ∀ (es : List Expr) {out : List String},
    a ∈ collectAll out es ↔ a ∈ out ∨ mentionsAny a es = true
  | [], _ => by simp [collectAll, mentionsAny]
  | e :: es, out => by rw [collectAll, mem_collectAll es, mem_collect e, mentionsAny, Bool.or_eq_true, or_assoc]

end

theorem mem_concepts : a ∈ e.concepts ↔ e.mentions a = true := by
  rw [concepts, mem_collect, or_iff_right List.not_mem_nil]

theorem mem_argumentsOf {es : List Expr} : a ∈ Lineage.argumentsOf es ↔ mentionsAny a es = true := by
  induction es with
  | nil => simp [Lineage.argumentsOf, mentionsAny]
  | cons e es ih =>
    have hcons : Lineage.argumentsOf (e :: es) = e.concepts ++ Lineage.argumentsOf es := List.flatMap_cons
    rw [hcons, List.mem_append, ih, mem_concepts, mentionsAny, Bool.or_eq_true]

end Expr

/-! ## Function lineage -/

namespace Environment

/-- the concepts a function concept computes its value from, unless it is materialized -/
def functionInputs (env : Environment) (materialized : NameSet) (address : String) : List String :=
  if materialized.contains address then []
  else match env.lineage? address with
    | some (.function f) => Lineage.argumentsOf f.args
    | _ => []

/-- evaluating the concept evaluates an aggregate at this very step -/
def aggregatesAt (env : Environment) (materialized : NameSet) (address : String) : Bool :=
  if materialized.contains address then false
  else match env.lineage? address with
    | some (.aggregate _) => true
    | some (.function f) => Expr.anyAggregate f.args
    | _ => false

theorem functionInputs_eq {f : FunctionLineage} (ha : a ∉ m) (hf : env.lineage? a = some (.function f)) :
    env.functionInputs m a = Lineage.argumentsOf f.args := by
  rw [functionInputs, if_neg fun h => ha (SortedSet.contains_iff.1 h), hf]

theorem functionInputs_of_mem (ha : a ∈ m) : env.functionInputs m a = [] := if_pos (SortedSet.contains_iff.2 ha)

/-- nothing but a function is computed from inputs that are followed -/
theorem functionInputs_other (h : ∀ f, env.lineage? a = some (.function f) → False) : env.functionInputs m a = [] := by
  rw [functionInputs]
  split
  · rfl
  · split
    · rename_i f hf
      exact (h f hf).elim
    · rfl

theorem aggregatesAt_function {f : FunctionLineage} (ha : a ∉ m) (hf : env.lineage? a = some (.function f)) :
    env.aggregatesAt m a = Expr.anyAggregate f.args := by
  rw [aggregatesAt, if_neg fun h => ha (SortedSet.contains_iff.1 h), hf]

theorem aggregatesAt_aggregate {g : AggregateLineage} (ha : a ∉ m) (hg : env.lineage? a = some (.aggregate g)) :
    env.aggregatesAt m a = true := by
  rw [aggregatesAt, if_neg fun h => ha (SortedSet.contains_iff.1 h), hg]

/-- nothing but an aggregate or a function evaluates an aggregate -/
theorem aggregatesAt_other (hagg : ∀ g, env.lineage? a = some (.aggregate g) → False)
    (hfun : ∀ f, env.lineage? a = some (.function f) → False) : env.aggregatesAt m a = false := by
  rw [aggregatesAt]
  split
  · rfl
  · split
    · rename_i g hg
      exact (hagg g hg).elim
    · rename_i f hf
      exact (hfun f hf).elim
    · rfl

theorem aggregatesAt_of_mem (ha : a ∈ m) : env.aggregatesAt m a = false := if_pos (SortedSet.contains_iff.2 ha)

/-- only declared concepts have lineage -/
theorem mem_keys_of_lineage {l : Lineage} (h : env.lineage? a = some l) : a ∈ env.concepts.keys := by
  obtain ⟨c, hc, -⟩ := Option.bind_eq_some_iff.1 h
  exact SortedMap.mem_keys.2 ⟨c, hc⟩

/-- the value of an address is computed from nothing, whatever is materialized -/
structure Fixed (env : Environment) (a : String) : Prop where
  inputs : ∀ m, env.functionInputs m a = []
  plain : ∀ m, env.aggregatesAt m a = false

theorem fixed_of_constantValue {c : Concept} (hc : env.find? a = some c) (hv : c.constantValue = some v) :
    env.Fixed a := by
  have hlineage : env.lineage? a = some (.function ⟨.constant, [.literal v]⟩) := by
    obtain ⟨l, hl, hlv⟩ := Option.bind_eq_some_iff.1 hv
    rw [lineage?, hc, Option.bind_some, hl]
    unfold Lineage.constantValue at hlv
    split at hlv
    · cases hlv
      rfl
    · cases hlv
  refine ⟨fun m => ?_, fun m => ?_⟩
  · rw [functionInputs, hlineage]
    split
    · rfl
    · rfl
  · rw [aggregatesAt, hlineage]
    split
    · rfl
    · rfl

/-- what is fixed need not be materialized, and what is not materialized is followed further -/
theorem functionInputs_subset (hm : ∀ x ∈ m, x ∈ m' ∨ env.Fixed x) (h : b ∈ env.functionInputs m' a) :
    b ∈ env.functionInputs m a := by
  by_cases ha : a ∈ m
  · rcases hm a ha with ha' | hfixed
    · rw [functionInputs, if_pos (SortedSet.contains_iff.2 ha')] at h
      cases h
    · rw [hfixed.inputs] at h
      cases h
  · rw [functionInputs, if_neg fun h => ha (SortedSet.contains_iff.1 h)]
    unfold functionInputs at h
    split at h
    · cases h
    · exact h

theorem aggregatesAt_subset (hm : ∀ x ∈ m, x ∈ m' ∨ env.Fixed x) (h : env.aggregatesAt m' a = true) :
    env.aggregatesAt m a = true := by
  by_cases ha : a ∈ m
  · rcases hm a ha with ha' | hfixed
    · rw [aggregatesAt, if_pos (SortedSet.contains_iff.2 ha')] at h
      cases h
    · rw [hfixed.plain] at h
      cases h
  · rw [aggregatesAt, if_neg fun h => ha (SortedSet.contains_iff.1 h)]
    unfold aggregatesAt at h
    split at h
    · cases h
    · exact h

end Environment

/-! ## The walk through lineage -/

namespace Environment

/-- a walk that found no aggregate: it has seen the inputs of what it entered, and none of that is an aggregate -/
structure Walked (env : Environment) (m s t : NameSet) : Prop
    extends Reach.Explored (env.functionInputs m) (fun x => x ∈ m) s t where
  plain : ∀ x ∈ t, x ∉ s → env.aggregatesAt m x = false

variable {s t u : NameSet}

theorem Walked.refl (env : Environment) (m s : NameSet) : env.Walked m s s := ⟨.refl s, fun _ hx hnot => absurd hx hnot⟩

theorem Walked.trans (h : env.Walked m s t) (h' : env.Walked m t u) : env.Walked m s u := by
  refine ⟨h.toExplored.trans h'.toExplored, fun x hx hnew => ?_⟩
  by_cases ht : x ∈ t
  · exact h.plain x ht hnew
  · exact h'.plain x hx ht

theorem Walked.of_insert (h : env.Walked m (s.insert a) t) (hplain : env.aggregatesAt m a = false)
    (hinputs : ∀ y ∈ env.functionInputs m a, y ∈ t ∨ y ∈ m) : env.Walked m s t := by
  refine ⟨h.toExplored.of_insert hinputs, fun x hx hnew => ?_⟩
  by_cases he : x = a
  · exact he ▸ hplain
  · exact h.plain x hx fun hin => (SortedSet.mem_insert.1 hin).elim he hnew

/-- following function lineage from a concept leads to an aggregate -/
def Aggregates (env : Environment) (m : NameSet) (a : String) : Prop :=
  ∃ b, Reach.Reached (env.functionInputs m) (.singleton a) b ∧ env.aggregatesAt m b = true

theorem Aggregates.of_input (h : env.Aggregates m b) (hb : b ∈ env.functionInputs m a) : env.Aggregates m a := by
  obtain ⟨x, hx, hagg⟩ := h
  exact ⟨x, (Reach.Reached.step (.start (SortedSet.mem_singleton.2 rfl)) hb).trans hx, hagg⟩

end Environment

namespace Expr

open Environment

variable {look : NameSet → String → Bool × NameSet} {k : Nat} {s t : NameSet}

mutual

/-- an expression that is found scalar, if walks with few enough concepts unseen find no aggregate only where none is -/
theorem walked_of_scalarBy (hlook : ∀ {s a t}, Reach.unseen env.concepts.keys s < k → look s a = (true, t) →
    env.Walked m s t ∧ (a ∈ t ∨ a ∈ m)) : ∀ (e : Expr) {s t : NameSet}, Reach.unseen env.concepts.keys s < k →
      e.scalarBy look s = (true, t) →
        e.hasAggregate = false ∧ env.Walked m s t ∧ ∀ a, e.mentions a = true → a ∈ t ∨ a ∈ m
  | concept b, s, t, hs, h => by
    obtain ⟨hwalked, hb⟩ := hlook hs h
    exact ⟨rfl, hwalked, fun a ha => of_decide_eq_true ha ▸ hb⟩
  | literal _, s, t, _, h => by
    cases h
    exact ⟨rfl, .refl env m s, fun _ ha => by cases ha⟩
  | function _ args, _, _, hs, h => walked_of_allScalarBy hlook args hs h
  | aggregate _ _, _, _, _, h => by cases h

theorem walked_of_allScalarBy (hlook : ∀ {s a t}, Reach.unseen env.concepts.keys s < k → look s a = (true, t) →
    env.Walked m s t ∧ (a ∈ t ∨ a ∈ m)) : ∀ (es : List Expr) {s t : NameSet}, Reach.unseen env.concepts.keys s < k →
      allScalarBy look s es = (true, t) →
        anyAggregate es = false ∧ env.Walked m s t ∧ ∀ a, mentionsAny a es = true → a ∈ t ∨ a ∈ m
  | [], s, t, _, h => by
    cases h
    exact ⟨rfl, .refl env m s, fun _ ha => by cases ha⟩
  | e :: es, s, t, hs, h => by
    rw [allScalarBy] at h
    cases hfirst : e.scalarBy look s with
    | mk scalar u =>
      rw [hfirst] at h
      cases scalar with
      | false => cases h
      | true =>
        obtain ⟨hplain, hwalked, hseen⟩ := walked_of_scalarBy hlook e hs hfirst
        have hu := Nat.lt_of_le_of_lt (Reach.unseen_le hwalked.keeps) hs
        obtain ⟨hplain', hwalked', hseen'⟩ := walked_of_allScalarBy hlook es hu h
        refine ⟨by rw [anyAggregate, hplain, hplain']; rfl, hwalked.trans hwalked', fun a ha => ?_⟩
        rw [mentionsAny, Bool.or_eq_true] at ha
        exact ha.elim (fun ha => (hseen a ha).imp_left (hwalked'.keeps a)) (hseen' a)

end

mutual

/-- an expression that is found not to be scalar, if walks find only aggregates that are there -/
theorem aggregates_of_scalarBy (hlook : ∀ {s a t}, look s a = (false, t) → env.Aggregates m a) :
    ∀ (e : Expr) {s t : NameSet}, e.scalarBy look s = (false, t) →
      e.hasAggregate = true ∨ ∃ a, e.mentions a = true ∧ env.Aggregates m a
  | concept b, _, _, h => Or.inr ⟨b, decide_eq_true rfl, hlook h⟩
  | literal _, _, _, h => by cases h
  | function _ args, _, _, h => aggregates_of_allScalarBy hlook args h
  | aggregate _ _, _, _, _ => Or.inl rfl

theorem aggregates_of_allScalarBy (hlook : ∀ {s a t}, look s a = (false, t) → env.Aggregates m a) :
    ∀ (es : List Expr) {s t : NameSet}, allScalarBy look s es = (false, t) →
      anyAggregate es = true ∨ ∃ a, mentionsAny a es = true ∧ env.Aggregates m a
  | [], _, _, h => by cases h
  | e :: es, s, t, h => by
    rw [allScalarBy] at h
    simp only [anyAggregate, mentionsAny, Bool.or_eq_true]
    cases hfirst : e.scalarBy look s with
    | mk scalar u =>
      rw [hfirst] at h
      cases scalar with
      | false =>
        rcases aggregates_of_scalarBy hlook e hfirst with hagg | ⟨a, ha, hagg⟩
        · exact Or.inl (Or.inl hagg)
        · exact Or.inr ⟨a, Or.inl ha, hagg⟩
      | true =>
        rcases aggregates_of_allScalarBy hlook es h with hagg | ⟨a, ha, hagg⟩
        · exact Or.inl (Or.inr hagg)
        · exact Or.inr ⟨a, Or.inr ha, hagg⟩

end

end Expr

namespace Environment

variable {s t : NameSet} {fuel : Nat}

/-- **a walk that finds no aggregate has seen to it**, if it may go as deep as there are unseen concepts -/
theorem walked_of_looksScalar (hs : Reach.unseen env.concepts.keys s < fuel)
    (h : env.looksScalar m fuel s a = (true, t)) : env.Walked m s t ∧ (a ∈ t ∨ a ∈ m) := by
  induction fuel generalizing s a t with
  | zero => exact absurd hs (Nat.not_lt_zero _)
  | succ fuel ih =>
    rw [looksScalar] at h
    have hentered : a ∈ s.insert a := SortedSet.mem_insert.2 (Or.inl rfl)
    split at h
    · rename_i hskip
      cases h
      rw [Bool.or_eq_true, SortedSet.contains_iff, SortedSet.contains_iff] at hskip
      exact ⟨.refl env m s, hskip.symm⟩
    rename_i hnew
    rw [Bool.or_eq_true, SortedSet.contains_iff, SortedSet.contains_iff, not_or] at hnew
    obtain ⟨ha, has⟩ := hnew
    split at h
    · cases h
    · rename_i f hf
      have hdeclared := mem_keys_of_lineage hf
      have hfewer := Nat.lt_of_lt_of_le (Reach.unseen_insert_lt hdeclared has) (Nat.le_of_lt_succ hs)
      obtain ⟨hplain, hwalked, hseen⟩ := Expr.walked_of_allScalarBy ih f.args hfewer h
      refine ⟨hwalked.of_insert ((aggregatesAt_function ha hf).trans hplain) fun y hy => ?_,
        Or.inl (hwalked.keeps a hentered)⟩
      rw [functionInputs_eq ha hf, Expr.mem_argumentsOf] at hy
      exact hseen y hy
    · rename_i haggregate hfunction
      cases h
      refine ⟨(Walked.refl env m _).of_insert (aggregatesAt_other haggregate hfunction) fun y hy => ?_, Or.inl hentered⟩
      rw [functionInputs_other hfunction] at hy
      cases hy

/-- **an aggregate that a walk finds is there** -/
theorem aggregates_of_looksScalar (h : env.looksScalar m fuel s a = (false, t)) : env.Aggregates m a := by
  have hself : Reach.Reached (env.functionInputs m) (.singleton a) a := .start (SortedSet.mem_singleton.2 rfl)
  induction fuel generalizing s a t with
  | zero => cases h
  | succ fuel ih =>
    rw [looksScalar] at h
    split at h
    · cases h
    rename_i hnew
    rw [Bool.or_eq_true, SortedSet.contains_iff, SortedSet.contains_iff, not_or] at hnew
    obtain ⟨ha, -⟩ := hnew
    split at h
    · rename_i g hg
      exact ⟨a, hself, aggregatesAt_aggregate ha hg⟩
    · rename_i f hf
      have hfound := Expr.aggregates_of_allScalarBy
        (fun h => ih h (.start (SortedSet.mem_singleton.2 rfl))) f.args h
      rcases hfound with hagg | ⟨b, hb, hagg⟩
      · exact ⟨a, hself, (aggregatesAt_function ha hf).trans hagg⟩
      · refine hagg.of_input ?_
        rwa [functionInputs_eq ha hf, Expr.mem_argumentsOf]
    · cases h

end Environment

/-! ## Expressions -/

namespace Expr

/-- **no aggregate is written in a scalar expression, and none is reached from it** -/
theorem isScalar_iff : e.isScalar env m = true ↔ e.hasAggregate = false ∧
    ∀ a, Reach.Reached (env.functionInputs m) (SortedSet.ofList e.concepts) a → env.aggregatesAt m a = false := by
  have hdepth := Reach.unseen_keys_lt env.concepts ∅
  rw [isScalar]
  cases hwalk : e.scalarBy (env.looksScalar m (env.concepts.size + 1)) ∅ with
  | mk scalar t =>
    cases scalar with
    | true =>
      obtain ⟨hplain, hwalked, hseen⟩ := walked_of_scalarBy Environment.walked_of_looksScalar e hdepth hwalk
      refine ⟨fun _ => ⟨hplain, fun a ha => ?_⟩, fun _ => rfl⟩
      have hstart : ∀ x ∈ SortedSet.ofList e.concepts, x ∈ t ∨ x ∈ m := fun x hx =>
        hseen x (mem_concepts.1 (SortedSet.mem_ofList.1 hx))
      rcases hwalked.mem_of_reached (fun _ => Environment.functionInputs_of_mem) hstart ha with ha | ha
      · exact hwalked.plain a ha (SortedSet.not_mem_empty a)
      · exact Environment.aggregatesAt_of_mem ha
    | false =>
      refine ⟨fun h => absurd h Bool.false_ne_true, fun ⟨hplain, hnone⟩ => ?_⟩
      rcases aggregates_of_scalarBy Environment.aggregates_of_looksScalar e hwalk with hagg | ⟨a, ha, b, hb, hagg⟩
      · rw [hplain] at hagg
        cases hagg
      · have hstart : a ∈ SortedSet.ofList e.concepts := SortedSet.mem_ofList.2 (mem_concepts.2 ha)
        rw [hnone b ((Reach.Reached.start hstart).trans hb)] at hagg
        cases hagg

/-- an expression that reads no more is scalar with what another one needs, fixed columns apart -/
theorem isScalar_of_concepts (hm : ∀ x ∈ m, x ∈ m' ∨ env.Fixed x) (hplain : e'.hasAggregate = e.hasAggregate)
    (hconcepts : ∀ x ∈ e'.concepts, x ∈ e.concepts) (h : e.isScalar env m = true) : e'.isScalar env m' = true := by
  rw [isScalar_iff] at h ⊢
  refine ⟨hplain.trans h.1, fun a ha => ?_⟩
  have hreached : Reach.Reached (env.functionInputs m) (SortedSet.ofList e.concepts) a := by
    induction ha with
    | start hx => exact .start (SortedSet.mem_ofList.2 (hconcepts _ (SortedSet.mem_ofList.1 hx)))
    | step _ hxy ih => exact .step ih (Environment.functionInputs_subset hm hxy)
  have hbefore : env.aggregatesAt m a = false := h.2 a hreached
  rw [← Bool.not_eq_true] at hbefore ⊢
  exact fun hagg => hbefore (Environment.aggregatesAt_subset hm hagg)

mutual

theorem hasAggregate_inline (a : String) (v : Literal) : ∀ e : Expr, (e.inline a v).hasAggregate = e.hasAggregate
  | concept b => by
    rw [inline]
    split
    · rfl
    · rfl
  | literal _ => rfl
  | function _ args => anyAggregate_inlineAll a v args
  | aggregate _ _ => rfl

theorem anyAggregate_inlineAll (a : String) (v : Literal) :
    ∀ es : List Expr, anyAggregate (inlineAll a v es) = anyAggregate es
  | [] => rfl
  | e :: es => by rw [inlineAll, anyAggregate, anyAggregate, hasAggregate_inline a v e, anyAggregate_inlineAll a v es]

end

mutual

/-- an expression with a concept written as a value reads no more -/
theorem collect_inline_subset (a : String) (v : Literal) : ∀ (e : Expr) {out out' : List String},
    (∀ x ∈ out, x ∈ out') → ∀ x ∈ (e.inline a v).collect out, x ∈ e.collect out'
  | concept b, out, out', h, x, hx => by
    rw [inline] at hx
    rw [collect, mem_addNew]
    split at hx
    · exact Or.inl (h x hx)
    · rw [collect, mem_addNew] at hx
      exact hx.imp_left (h x)
  | literal _, _, _, h, x, hx => h x hx
  | function _ args, _, _, h, x, hx => collectAll_inlineAll_subset a v args h x hx
  | aggregate _ args, _, _, h, x, hx => collectAll_inlineAll_subset a v args h x hx

theorem collectAll_inlineAll_subset (a : String) (v : Literal) : ∀ (es : List Expr) {out out' : List String},
    (∀ x ∈ out, x ∈ out') → ∀ x ∈ collectAll out (inlineAll a v es), x ∈ collectAll out' es
  | [], _, _, h, x, hx => h x hx
  | e :: es, _, _, h, x, hx => collectAll_inlineAll_subset a v es (collect_inline_subset a v e h) x hx

end

end Expr

/-! ## Conditions -/

namespace Condition

variable {t t' : Condition}

/-- **further materialized columns leave a condition scalar** -/
theorem isScalar_mono (hm : ∀ x ∈ m, x ∈ m') (h : t.isScalar env m = true) : t.isScalar env m' = true := by
  have hexpr : ∀ e : Expr, e.isScalar env m = true → e.isScalar env m' = true :=
    fun e => Expr.isScalar_of_concepts (fun x hx => Or.inl (hm x hx)) rfl fun _ hx => hx
  induction t with
  | comparison l o r =>
    simp only [isScalar, Bool.and_eq_true] at h ⊢
    exact ⟨hexpr l h.1, hexpr r h.2⟩
  | membership => rfl
  | and l r ihl ihr =>
    simp only [isScalar, Bool.and_eq_true] at h ⊢
    exact ⟨ihl h.1, ihr h.2⟩
  | or l r ihl ihr =>
    simp only [isScalar, Bool.and_eq_true] at h ⊢
    exact ⟨ihl h.1, ihr h.2⟩
  | not t ih => exact ih h

/-- **a constant written as its value leaves a condition scalar**, and need not be materialized any more -/
theorem isScalar_inline (ha : env.Fixed a) (hm : ∀ x ∈ m, x ≠ a → x ∈ m') (h : t.isScalar env m = true) :
    (t.inline a v).isScalar env m' = true := by
  have hm' : ∀ x ∈ m, x ∈ m' ∨ env.Fixed x := by
    intro x hx
    by_cases he : x = a
    · exact Or.inr (he ▸ ha)
    · exact Or.inl (hm x hx he)
  have hexpr : ∀ e : Expr, e.isScalar env m = true → (e.inline a v).isScalar env m' = true :=
    fun e => Expr.isScalar_of_concepts hm' (Expr.hasAggregate_inline a v e)
      (Expr.collect_inline_subset a v e fun _ hx => hx)
  induction t with
  | comparison l o r =>
    simp only [inline, isScalar, Bool.and_eq_true] at h ⊢
    exact ⟨hexpr l h.1, hexpr r h.2⟩
  | membership => rfl
  | and l r ihl ihr =>
    simp only [inline, isScalar, Bool.and_eq_true] at h ⊢
    exact ⟨ihl h.1, ihr h.2⟩
  | or l r ihl ihr =>
    simp only [inline, isScalar, Bool.and_eq_true] at h ⊢
    exact ⟨ihl h.1, ihr h.2⟩
  | not t ih => exact ih h

/-- a conjunction is scalar exactly if its parts are -/
theorem isScalar_conjoin {existing : Option Condition} : (conjoin existing t).isScalar env m = true ↔
    (∀ c, existing = some c → c.isScalar env m = true) ∧ t.isScalar env m = true := by
  cases existing with
  | none => simp [conjoin]
  | some c => simp [conjoin, isScalar]

end Condition

end SemanticPlanner
