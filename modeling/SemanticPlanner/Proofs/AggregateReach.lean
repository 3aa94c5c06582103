/-
Which aggregates keep an expression or a condition from being scalar.

  LeadsTo                a way from an expression through arguments of functions and function lineage
  Expr.not_isScalar_iff  an expression is not scalar exactly if an aggregate lies on some such way
  isScalar_eq_false_iff  a condition is not scalar exactly if a side of one of its comparisons is not
  testedTotal_scalar     a membership test of an aggregate is taken for scalar

The lineage that is followed may be cyclic. What an aggregate is computed from is not followed: the aggregate itself is
what is looked for, and one is enough.
-/
import SemanticPlanner.Proofs.Scalar
import SemanticPlanner.Proofs.Substitution

namespace SemanticPlanner

variable {env : Environment} {m : NameSet} {a b : String} {d e x : Expr}

namespace Expr

/-! ## Ways through lineage -/

/-- from an expression one comes to another one by going into the arguments of functions, and from a concept that is
not materialized into those of its function lineage -/
inductive LeadsTo (env : Environment) (m : NameSet) (e : Expr) : Expr → Prop
  | here : LeadsTo env m e e
  | argument {op : FunctionOp} {args : List Expr} {x : Expr} : LeadsTo env m e (function op args) → x ∈ args →
      LeadsTo env m e x
  | lineage {a : String} {f : FunctionLineage} {x : Expr} : LeadsTo env m e (concept a) → a ∉ m →
      env.lineage? a = some (.function f) → x ∈ f.args → LeadsTo env m e x

/-- an aggregate that is written, or a concept that is one by its lineage and is not materialized -/
def IsAggregate (env : Environment) (m : NameSet) : Expr → Prop
  | aggregate _ _ => True
  | concept a => a ∉ m ∧ ∃ g, env.lineage? a = some (.aggregate g)
  | _ => False

/-- an aggregate has to be evaluated for the expression -/
def ReachesAggregate (env : Environment) (m : NameSet) (e : Expr) : Prop := ∃ x, e.LeadsTo env m x ∧ x.IsAggregate env m

mutual

/-- an aggregate that is written in an expression is come to with it -/
theorem reaches_of_hasAggregate : ∀ {x : Expr}, d.LeadsTo env m x → x.hasAggregate = true → d.ReachesAggregate env m
  | function _ _, hx, h => reaches_of_anyAggregate (fun _ hy => hx.argument hy) h
  | aggregate o args, hx, _ => ⟨aggregate o args, hx, trivial⟩

theorem reaches_of_anyAggregate : ∀ {es : List Expr}, (∀ y ∈ es, d.LeadsTo env m y) → anyAggregate es = true →
    d.ReachesAggregate env m
  | e :: es, hes, h => by
    rw [anyAggregate, Bool.or_eq_true] at h
    obtain ⟨he, hes⟩ := List.forall_mem_cons.1 hes
    rcases h with h | h
    · exact reaches_of_hasAggregate he h
    · exact reaches_of_anyAggregate hes h

end

mutual

/-- what a plain expression reads is come to with it -/
theorem leadsTo_concept : ∀ {x : Expr}, d.LeadsTo env m x → x.hasAggregate = false → x.mentions a = true →
    d.LeadsTo env m (concept a)
  | concept _, hx, _, h => of_decide_eq_true h ▸ hx
  | function _ _, hx, hplain, h => leadsTo_concept_of_any (fun _ hy => hx.argument hy) hplain h

theorem leadsTo_concept_of_any : ∀ {es : List Expr}, (∀ y ∈ es, d.LeadsTo env m y) → anyAggregate es = false →
    mentionsAny a es = true → d.LeadsTo env m (concept a)
  | e :: es, hes, hplain, h => by
    rw [anyAggregate, Bool.or_eq_false_iff] at hplain
    rw [mentionsAny, Bool.or_eq_true] at h
    obtain ⟨he, hes⟩ := List.forall_mem_cons.1 hes
    rcases h with h | h
    · exact leadsTo_concept he hplain.1 h
    · exact leadsTo_concept_of_any hes hplain.2 h

end

theorem hasAggregate_of_mem {es : List Expr} (h : anyAggregate es = false) (hx : x ∈ es) : x.hasAggregate = false := by
  induction es with
  | nil => cases hx
  | cons e es ih =>
    rw [anyAggregate, Bool.or_eq_false_iff] at h
    rcases List.mem_cons.1 hx with rfl | hx
    · exact h.1
    · exact ih h.2 hx

theorem mentionsAny_of_mem {es : List Expr} (hx : x ∈ es) (h : x.mentions a = true) : mentionsAny a es = true := by
  induction es with
  | nil => cases hx
  | cons e es ih =>
    rw [mentionsAny, Bool.or_eq_true]
    rcases List.mem_cons.1 hx with rfl | hx
    · exact Or.inl h
    · exact Or.inr (ih hx)

/-! ## Function lineage -/

/-- inputs are read by the arguments of function lineage -/
theorem mem_functionInputs (h : b ∈ env.functionInputs m a) :
    a ∉ m ∧ ∃ f, env.lineage? a = some (.function f) ∧ ∃ x ∈ f.args, b ∈ x.concepts := by
  unfold Environment.functionInputs at h
  split at h
  · cases h
  · rename_i hm
    split at h
    · rename_i f hf
      obtain ⟨x, hx, hb⟩ := List.mem_flatMap.1 h
      exact ⟨fun ha => hm (SortedSet.contains_iff.2 ha), f, hf, x, hx, hb⟩
    · cases h

/-- a concept that the search through lineage reaches is come to, unless an aggregate is -/
theorem leadsTo_of_reached (hplain : e.hasAggregate = false)
    (h : Reach.Reached (env.functionInputs m) (SortedSet.ofList e.concepts) a) :
    e.LeadsTo env m (concept a) ∨ e.ReachesAggregate env m := by
  induction h with
  | start ha => exact Or.inl (leadsTo_concept .here hplain (mem_concepts.1 (SortedSet.mem_ofList.1 ha)))
  | step _ hb ih =>
    rcases ih with ih | ih
    · obtain ⟨ha, f, hf, x, hx, hb⟩ := mem_functionInputs hb
      have hway : e.LeadsTo env m x := ih.lineage ha hf hx
      cases hagg : x.hasAggregate with
      | false => exact Or.inl (leadsTo_concept hway hagg (mem_concepts.1 hb))
      | true => exact Or.inr (reaches_of_hasAggregate hway hagg)
    · exact Or.inr ih

/-- where an aggregate is evaluated at a concept that is come to, one is come to -/
theorem reaches_of_aggregatesAt (hway : e.LeadsTo env m (concept a)) (h : env.aggregatesAt m a = true) :
    e.ReachesAggregate env m := by
  unfold Environment.aggregatesAt at h
  split at h
  · cases h
  · rename_i hm
    have ha : a ∉ m := fun ha => hm (SortedSet.contains_iff.2 ha)
    split at h
    · rename_i g hg
      exact ⟨concept a, hway, ha, g, hg⟩
    · rename_i f hf
      exact reaches_of_anyAggregate (fun y hy => hway.lineage ha hf hy) h
    · cases h

/-- what a scalar expression leads to is plain and reads what the search reaches -/
theorem plain_of_leadsTo (hscalar : e.isScalar env m = true) (h : e.LeadsTo env m x) : x.hasAggregate = false ∧
    ∀ b, x.mentions b = true → Reach.Reached (env.functionInputs m) (SortedSet.ofList e.concepts) b := by
  obtain ⟨hplain, hnone⟩ := isScalar_iff.1 hscalar
  induction h with
  | here => exact ⟨hplain, fun b hb => .start (SortedSet.mem_ofList.2 (mem_concepts.2 hb))⟩
  | argument _ hx ih => exact ⟨hasAggregate_of_mem ih.1 hx, fun b hb => ih.2 b (mentionsAny_of_mem hx hb)⟩
  | @lineage a f x _ ha hf hx ih =>
    have hreached := ih.2 a (decide_eq_true rfl)
    have hargs := Environment.aggregatesAt_function ha hf ▸ hnone a hreached
    refine ⟨hasAggregate_of_mem hargs hx, fun b hb => hreached.step ?_⟩
    rw [Environment.functionInputs_eq ha hf]
    exact List.mem_flatMap.2 ⟨x, hx, mem_concepts.2 hb⟩

/-- **an expression is not scalar exactly if it leads to an aggregate** -/
theorem not_isScalar_iff : e.isScalar env m = false ↔ e.ReachesAggregate env m := by
  constructor
  · intro h
    by_contra hnone
    have hplain : e.hasAggregate = false := by
      rw [← Bool.not_eq_true]
      exact fun hagg => hnone (reaches_of_hasAggregate .here hagg)
    rw [← Bool.not_eq_true, isScalar_iff] at h
    refine h ⟨hplain, fun a ha => ?_⟩
    rw [← Bool.not_eq_true]
    exact fun hagg => hnone (reaches_of_aggregatesAt ((leadsTo_of_reached hplain ha).resolve_right hnone) hagg)
  · rintro ⟨x, hway, hx⟩
    rw [← Bool.not_eq_true]
    intro hscalar
    obtain ⟨hplain, hreads⟩ := plain_of_leadsTo hscalar hway
    cases x with
    | concept a =>
      obtain ⟨ha, g, hg⟩ := hx
      have hnone := (isScalar_iff.1 hscalar).2 a (hreads a (decide_eq_true rfl))
      rw [Environment.aggregatesAt_aggregate ha hg] at hnone
      cases hnone
    | literal => exact hx
    | function => exact hx
    | aggregate => cases hplain

end Expr

namespace Condition

/-- the sides of the comparisons of a condition -/
def compared : Condition → List Expr
  | comparison l _ r => [l, r]
  | membership _ _ _ => []
  | and l r => compared l ++ compared r
  | or l r => compared l ++ compared r
  | not c => compared c

/-- what the membership tests of a condition look for -/
def tested : Condition → List Expr
  | comparison _ _ _ => []
  | membership l _ _ => [l]
  | and l r => tested l ++ tested r
  | or l r => tested l ++ tested r
  | not c => tested c

/--
**A condition is not scalar exactly if an aggregate has to be evaluated for a side of one of its comparisons.** Whatever
its membership tests look for does not count.
-/
theorem isScalar_eq_false_iff (c : Condition) (env : Environment) (m : NameSet) :
    c.isScalar env m = false ↔ ∃ e ∈ c.compared, e.ReachesAggregate env m := by
  induction c with
  | comparison l o r =>
    rw [isScalar, Bool.and_eq_false_iff, Expr.not_isScalar_iff, Expr.not_isScalar_iff]
    simp [compared]
  | membership l o r => simp [isScalar, compared]
  | and l r ihl ihr =>
    simp only [isScalar, Bool.and_eq_false_iff, ihl, ihr, compared, List.mem_append, or_and_right, exists_or]
  | or l r ihl ihr =>
    simp only [isScalar, Bool.and_eq_false_iff, ihl, ihr, compared, List.mem_append, or_and_right, exists_or]
  | not c ih => exact ih

/-- a total that is one of those allowed -/
def testedTotal : Condition := membership (.aggregate .sum [.concept "local.amount"]) .isIn "local.allowed"

/-- **a membership test is taken for scalar although an aggregate has to be evaluated for it** -/
theorem testedTotal_scalar : testedTotal.isScalar .empty ∅ = true ∧
    ∃ e ∈ testedTotal.compared ++ testedTotal.tested, e.ReachesAggregate .empty ∅ :=
  ⟨rfl, _, List.mem_singleton.2 rfl, _, .here, trivial⟩

end Condition

end SemanticPlanner
