/-
Writing a literal in place of a concept is a substitution.

  Interpretation          what literals, functions, aggregates, comparisons and membership tests mean
  Expr.value_inline       an expression keeps its value on every row on which the concept has the literal's value
  rowArguments_inline     the concept is no longer read, and all others are read in the same order
  inline_of_not_mentions  where the concept is not read, nothing is replaced
  inlineLiteral_laws      the laws together, with the outcome of a condition
  Written.outcome         a step whose constants are written as their values filters the same rows

The sources of membership tests are no part of the row: they are left alone, and so they may be the concept itself.
-/
import SemanticPlanner.Proofs.Entailment
import SemanticPlanner.Proofs.Rewriting
import SemanticPlanner.Proofs.Scalar

namespace SemanticPlanner

/-- the list without an item, when one more was added -/
theorem filter_ne_addNew (a b : String) (out : List String) :
    (addNew out b).filter (fun x => x ≠ a) =
      if b = a then out.filter (fun x => x ≠ a) else addNew (out.filter fun x => x ≠ a) b := by
  unfold addNew
  by_cases hb : b = a
  · by_cases hout : b ∈ out
    · simp [hb, hb ▸ hout]
    · simp [hb, hb ▸ hout]
  · by_cases hout : b ∈ out
    · simp [hb, hout]
    · simp [hb, hout]

namespace Truth

/-- the other outcome; what is unknown stays so -/
def not : Truth → Truth
  | no => yes
  | unknown => unknown
  | yes => no

/-- either: yes if either is yes, and unknown if neither is but one is unknown -/
def or (s t : Truth) : Truth := (s.not.and t.not).not

end Truth

/-- what the parts of an expression and of a condition mean, for values of some kind; the values may be whole columns,
over which aggregates range -/
structure Interpretation (α : Type) where
  literal : Literal → α
  function : FunctionOp → List α → α
  aggregate : AggregateOp → List α → α
  comparison : ComparisonOp → α → α → Truth
  /-- a value is tested against a concept, whose values do not come from the row -/
  membership : ComparisonOp → α → String → Truth

variable {α : Type} {i : Interpretation α} {row : String → α} {a : String} {v : Literal}

namespace Expr

mutual

/-- the value of an expression on a row -/
def value (i : Interpretation α) (row : String → α) : Expr → α
  | concept a => row a
  | literal l => i.literal l
  | function o args => i.function o (values i row args)
  | aggregate o args => i.aggregate o (values i row args)

def values (i : Interpretation α) (row : String → α) : List Expr → List α
  | [] => []
  | e :: es => value i row e :: values i row es

end

mutual

/-- **an expression keeps its value** on every row on which the concept has the literal's value -/
theorem value_inline (h : row a = i.literal v) : ∀ e : Expr, (e.inline a v).value i row = e.value i row
  | concept b => by
    by_cases hb : b = a
    · simp [inline, value, hb, h]
    · simp [inline, value, hb]
  | literal _ => rfl
  | function o args => by simp [inline, value, values_inline h args]
  | aggregate o args => by simp [inline, value, values_inline h args]

theorem values_inline (h : row a = i.literal v) : ∀ es : List Expr, values i row (inlineAll a v es) = values i row es
  | [] => rfl
  | e :: es => by simp [inlineAll, values, value_inline h e, values_inline h es]

end

mutual

/-- what is read after the replacement is what was read before, the concept apart -/
theorem collect_inline (a : String) (v : Literal) : ∀ (e : Expr) (out : List String),
    (e.inline a v).collect (out.filter fun x => x ≠ a) = (e.collect out).filter fun x => x ≠ a
  | concept b, out => by
    rw [inline, collect, filter_ne_addNew]
    by_cases hb : b = a
    · simp [hb, collect]
    · simp [hb, collect]
  | literal _, _ => rfl
  | function _ args, out => collectAll_inlineAll a v args out
  | aggregate _ args, out => collectAll_inlineAll a v args out

theorem collectAll_inlineAll (a : String) (v : Literal) : ∀ (es : List Expr) (out : List String),
    collectAll (out.filter fun x => x ≠ a) (inlineAll a v es) = (collectAll out es).filter fun x => x ≠ a
  | [], _ => rfl
  | e :: es, out => by rw [inlineAll, collectAll, collect_inline a v e out, collectAll_inlineAll a v es, collectAll]

end

mutual

/-- where the concept is not read, nothing is replaced -/
theorem inline_of_not_mentions : ∀ {e : Expr}, e.mentions a = false → e.inline a v = e
  | concept _, h => if_neg (of_decide_eq_false h)
  | literal _, _ => rfl
  | function o _, h => congrArg (function o) (inlineAll_of_not_mentions h)
  | aggregate o _, h => congrArg (aggregate o) (inlineAll_of_not_mentions h)

theorem inlineAll_of_not_mentions : ∀ {es : List Expr}, mentionsAny a es = false → inlineAll a v es = es
  | [], _ => rfl
  | e :: es, h => by
    rw [mentionsAny, Bool.or_eq_false_iff] at h
    rw [inlineAll, inline_of_not_mentions h.1, inlineAll_of_not_mentions h.2]

end

end Expr

namespace Condition

/-- the outcome of a condition on a row -/
def outcome (i : Interpretation α) (row : String → α) : Condition → Truth
  | comparison l o r => i.comparison o (l.value i row) (r.value i row)
  | membership l o r => i.membership o (l.value i row) r
  | and l r => (outcome i row l).and (outcome i row r)
  | or l r => (outcome i row l).or (outcome i row r)
  | not c => (outcome i row c).not

/-- **a condition keeps its outcome** on every row on which the concept has the literal's value -/
theorem outcome_inline (h : row a = i.literal v) (c : Condition) : (c.inline a v).outcome i row = c.outcome i row := by
  induction c with
  | comparison l o r => simp [inline, outcome, Expr.value_inline h]
  | membership l o r => simp [inline, outcome, Expr.value_inline h]
  | and l r ihl ihr => simp [inline, outcome, ihl, ihr]
  | or l r ihl ihr => simp [inline, outcome, ihl, ihr]
  | not c ih => simp [inline, outcome, ih]

theorem collectRow_inline (a : String) (v : Literal) (c : Condition) (out : List String) :
    (c.inline a v).collectRow (out.filter fun x => x ≠ a) = (c.collectRow out).filter fun x => x ≠ a := by
  induction c generalizing out with
  | comparison l o r => rw [inline, collectRow, collectRow, Expr.collect_inline, Expr.collect_inline]
  | membership l o r => rw [inline, collectRow, collectRow, Expr.collect_inline]
  | and l r ihl ihr => rw [inline, collectRow, collectRow, ihl, ihr]
  | or l r ihl ihr => rw [inline, collectRow, collectRow, ihl, ihr]
  | not c ih => rw [inline, collectRow, collectRow, ih]

/-- **the concept is no longer read, and all others are read in the same order** -/
theorem rowArguments_inline (a : String) (v : Literal) (c : Condition) :
    (c.inline a v).rowArguments = c.rowArguments.filter fun x => x ≠ a := collectRow_inline a v c []

theorem collectExistence_inline (a : String) (v : Literal) (c : Condition) (out : List String) :
    (c.inline a v).collectExistence out = c.collectExistence out := by
  induction c generalizing out with
  | comparison l o r => rfl
  | membership l o r => rfl
  | and l r ihl ihr => rw [inline, collectExistence, collectExistence, ihl, ihr]
  | or l r ihl ihr => rw [inline, collectExistence, collectExistence, ihl, ihr]
  | not c ih => rw [inline, collectExistence, collectExistence, ih]

theorem mem_collectRow {c : Condition} {out : List String} : a ∈ c.collectRow out ↔ a ∈ out ∨ c.mentions a = true := by
  induction c generalizing out with
  | comparison l o r => rw [collectRow, Expr.mem_collect, Expr.mem_collect, mentions, Bool.or_eq_true, or_assoc]
  | membership l o r => rw [collectRow, Expr.mem_collect, mentions]
  | and l r ihl ihr => rw [collectRow, ihr, ihl, mentions, Bool.or_eq_true, or_assoc]
  | or l r ihl ihr => rw [collectRow, ihr, ihl, mentions, Bool.or_eq_true, or_assoc]
  | not c ih => rw [collectRow, ih, mentions]

/-- the row is read at an address exactly if it is listed -/
theorem mentions_iff {c : Condition} : c.mentions a = true ↔ a ∈ c.rowArguments := by
  rw [rowArguments, mem_collectRow, or_iff_right List.not_mem_nil]

theorem inline_of_not_mentions {c : Condition} (h : c.mentions a = false) : c.inline a v = c := by
  induction c with
  | comparison l o r =>
    rw [mentions, Bool.or_eq_false_iff] at h
    rw [inline, Expr.inline_of_not_mentions h.1, Expr.inline_of_not_mentions h.2]
  | membership l o r => rw [inline, Expr.inline_of_not_mentions h]
  | and l r ihl ihr =>
    rw [mentions, Bool.or_eq_false_iff] at h
    rw [inline, ihl h.1, ihr h.2]
  | or l r ihl ihr =>
    rw [mentions, Bool.or_eq_false_iff] at h
    rw [inline, ihl h.1, ihr h.2]
  | not c ih => rw [inline, ih h]

/-- a second replacement finds nothing, whatever it would write -/
theorem inlineLiteral_inline (a : String) (v w : Literal) (c : Condition) :
    (c.inline a v).inlineLiteral a w = (false, c.inline a v) := by
  have hgone : (c.inline a v).mentions a = false := by
    rw [← Bool.not_eq_true, mentions_iff, rowArguments_inline]
    simp
  rw [inlineLiteral, hgone, inline_of_not_mentions hgone]

/--
**Writing a literal for a concept.** It is told whether the row was read at the concept. Afterwards the row is read at
all other concepts in the same order, and the sources of membership tests are what they were; a second replacement finds
nothing and changes nothing. On every row on which the concept has the literal's value, the condition has the outcome
that it had, whatever its functions, aggregates, comparisons and membership tests mean.
-/
theorem inlineLiteral_laws (c : Condition) (a : String) (v : Literal) :
    ((c.inlineLiteral a v).1 = true ↔ a ∈ c.rowArguments) ∧
    (c.inlineLiteral a v).2.rowArguments = c.rowArguments.filter (fun x => x ≠ a) ∧
    (c.inlineLiteral a v).2.existenceArguments = c.existenceArguments ∧
    (∀ w, (c.inlineLiteral a v).2.inlineLiteral a w = (false, (c.inlineLiteral a v).2)) ∧
    ∀ (α : Type) (i : Interpretation α) (row : String → α), row a = i.literal v →
      (c.inlineLiteral a v).2.outcome i row = c.outcome i row := by
  refine ⟨mentions_iff, rowArguments_inline a v c, collectExistence_inline a v c [], ?_, ?_⟩
  · intro w
    exact inlineLiteral_inline a v w c
  · intro α i row h
    exact outcome_inline h c

/-- more than the limit was ordered, and the limit is one of those in use -/
def overLimit : Condition :=
  and (comparison (.aggregate .sum [.function .multiply [.concept "local.limit", .concept "local.packs"]]) .gt
    (.concept "local.limit")) (membership (.concept "local.limit") .isIn "local.limit")

/-- numbers, with products and sums; the limits in use are those below ten -/
def ofNumbers : Interpretation ℤ where
  literal
    | .integer n => n
    | _ => 0
  function _ xs := xs.prod
  aggregate _ xs := xs.sum
  comparison _ x y := if y < x then .yes else .no
  membership _ x _ := if x < 10 then .yes else .no

/-- three packs, at a limit of seven -/
def threePacks (address : String) : ℤ := if address = "local.limit" then 7 else 3

/-- the limit is read in three places and is its own source in the third; the source stays -/
theorem inlineLiteral_laws_overLimit :
    overLimit.rowArguments = ["local.limit", "local.packs"] ∧
    (overLimit.inlineLiteral "local.limit" (.integer 7)).1 = true ∧
    (overLimit.inlineLiteral "local.limit" (.integer 7)).2.rowArguments = ["local.packs"] ∧
    (overLimit.inlineLiteral "local.limit" (.integer 7)).2.existenceArguments = ["local.limit"] ∧
    threePacks "local.limit" = ofNumbers.literal (.integer 7) ∧
    (overLimit.inlineLiteral "local.limit" (.integer 7)).2.outcome ofNumbers threePacks = .yes := by
  have hvalue : threePacks "local.limit" = ofNumbers.literal (.integer 7) := rfl
  obtain ⟨htold, hrow, hexistence, -, houtcome⟩ := inlineLiteral_laws overLimit "local.limit" (.integer 7)
  refine ⟨by decide, htold.2 (by decide), hrow.trans (by decide), hexistence.trans (by decide), hvalue, ?_⟩
  rw [houtcome ℤ ofNumbers threePacks hvalue]
  decide

/-- the outcome of a condition that may be absent -/
def outcomeOf (i : Interpretation α) (row : String → α) (c : Option Condition) : Truth := c.elim .yes (outcome i row)

end Condition

/-- an input that is written as its value is a declared constant of that value -/
theorem InlineConstant.constant_of_valueOf {env : Environment} {c : Cte} (h : valueOf env c a = some v) :
    ∃ x, env.find? a = some x ∧ x.constantValue = some v := by
  unfold valueOf at h
  split at h
  · cases h
  · split at h
    · rename_i x hx
      split at h
      · exact ⟨x, hx, h⟩
      · cases h
    · cases h

/-- a step whose constants are written as their values filters the same rows, where the constants have these values -/
theorem InlineConstant.Written.outcome {env : Environment} {c d : Cte}
    (hrow : ∀ a x v, env.find? a = some x → x.constantValue = some v → row a = i.literal v)
    (h : Relation.ReflTransGen (Written env) c d) :
    Condition.outcomeOf i row d.condition = Condition.outcomeOf i row c.condition := by
  induction h with
  | refl => rfl
  | @tail b _ _ h ih =>
    rw [← ih]
    cases h with
    | @value address v hv =>
      obtain ⟨x, hx, hvalue⟩ := constant_of_valueOf hv
      cases hcondition : b.condition with
      | none => simp [Condition.outcomeOf]
      | some t => simp [Condition.outcomeOf, Condition.outcome_inline (hrow address x v hx hvalue)]

end SemanticPlanner
