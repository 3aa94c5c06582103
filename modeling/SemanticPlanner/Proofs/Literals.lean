/-
When equal conditions are the same.

  Literal.Exact         neither a NaN nor a negative zero
  Each                  a property of every literal of an expression or a condition
  Condition.same_self   a condition equals itself if its literals do, which they do unless they are NaNs
  Condition.eq_of_same  where all literals are exact, equal conditions are the same

Equality compares floats as numbers: a NaN differs from itself, and the two zeros are equal although they are written
differently. These are the only two ways in which equality and identity come apart.
-/
import Mathlib
import SemanticPlanner.Proofs.Conjunctions

namespace SemanticPlanner

namespace Literal

/-- a float that is not a number -/
def isNaN : Literal → Bool
  | float x => x.isNaN
  | _ => false

/-- neither a NaN nor a negative zero -/
def Exact (l : Literal) : Prop := l.isNaN = false ∧ l ≠ float (-0)

theorem exact_of_ne_float {l : Literal} (h : ∀ x, l ≠ float x) : l.Exact := by
  refine ⟨?_, h _⟩
  cases l with
  | float x => exact absurd rfl (h x)
  | _ => rfl

theorem beq_self {l : Literal} (h : l.isNaN = false) : (l == l) = true := by
  cases l with
  | integer n => exact beq_self_eq_true n
  | float x =>
    rw [isNaN, Float.isNaN_eq_decide_eq_nan, decide_eq_false_iff_not] at h
    exact Float.beq_self_iff.2 h
  | text s => exact beq_self_eq_true s
  | boolean b => exact beq_self_eq_true b
  | null => rfl

/-- equal floats are the same, the negative zero apart -/
theorem float_eq_of_beq {x y : Float} (h : (x == y) = true) (hx : x ≠ -0) (hy : y ≠ -0) : x = y := by
  obtain ⟨-, -, he | ⟨-, he⟩ | ⟨he, -⟩⟩ := Float.beq_iff_ne_nan_and_eq.1 h
  · exact he
  · exact absurd he hy
  · exact absurd he hx

theorem eq_of_beq : ∀ {l m : Literal}, (l == m) = true → l.Exact → m.Exact → l = m
  | integer _, integer _, h, _, _ => congrArg integer (LawfulBEq.eq_of_beq h)
  | float _, float _, h, hx, hy =>
    congrArg float (float_eq_of_beq h (fun he => hx.2 (congrArg float he)) fun he => hy.2 (congrArg float he))
  | text _, text _, h, _, _ => congrArg text (LawfulBEq.eq_of_beq h)
  | boolean _, boolean _, h, _, _ => congrArg boolean (LawfulBEq.eq_of_beq h)
  | null, null, _, _, _ => rfl

end Literal

variable {P : Literal → Prop}

/-! ## Expressions -/

namespace Expr

mutual

/-- every literal of the expression has the property -/
def Each (P : Literal → Prop) : Expr → Prop
  | concept _ => True
  | literal l => P l
  | function _ args => EachOf P args
  | aggregate _ args => EachOf P args

def EachOf (P : Literal → Prop) : List Expr → Prop
  | [] => True
  | e :: es => Each P e ∧ EachOf P es

end

mutual

theorem same_self (hP : ∀ l, P l → (l == l) = true) : ∀ {e : Expr}, e.Each P → same e e = true
  | concept a, _ => beq_self_eq_true a
  | literal l, h => hP l h
  | function _ _, h => by
    rw [same, decide_eq_true rfl, Bool.true_and]
    exact sameAll_self hP h
  | aggregate _ _, h => by
    rw [same, decide_eq_true rfl, Bool.true_and]
    exact sameAll_self hP h

theorem sameAll_self (hP : ∀ l, P l → (l == l) = true) : ∀ {es : List Expr}, EachOf P es → sameAll es es = true
  | [], _ => rfl
  | _ :: _, h => Bool.and_eq_true_iff.2 ⟨same_self hP h.1, sameAll_self hP h.2⟩

end

mutual

theorem eq_of_same : ∀ {d e : Expr}, same d e = true → d.Each Literal.Exact → e.Each Literal.Exact → d = e
  | concept _, concept _, h, _, _ => congrArg concept (LawfulBEq.eq_of_beq h)
  | literal _, literal _, h, hd, he => congrArg literal (Literal.eq_of_beq h hd he)
  | function _ _, function _ _, h, hd, he => by
    rw [same, Bool.and_eq_true, decide_eq_true_eq] at h
    rw [h.1, eq_of_sameAll h.2 hd he]
  | aggregate _ _, aggregate _ _, h, hd, he => by
    rw [same, Bool.and_eq_true, decide_eq_true_eq] at h
    rw [h.1, eq_of_sameAll h.2 hd he]

theorem eq_of_sameAll : ∀ {ds es : List Expr}, sameAll ds es = true → EachOf Literal.Exact ds → EachOf Literal.Exact es →
    ds = es
  | [], [], _, _, _ => rfl
  | _ :: _, _ :: _, h, hd, he => by
    rw [sameAll, Bool.and_eq_true] at h
    rw [eq_of_same h.1 hd.1 he.1, eq_of_sameAll h.2 hd.2 he.2]

end

end Expr

/-! ## Conditions -/

namespace Condition

/-- every literal of the condition has the property -/
def Each (P : Literal → Prop) : Condition → Prop
  | comparison l _ r => l.Each P ∧ r.Each P
  | membership l _ _ => l.Each P
  | and l r => Each P l ∧ Each P r
  | or l r => Each P l ∧ Each P r
  | not c => Each P c

/-- a condition equals itself if its literals do -/
theorem same_self (hP : ∀ l, P l → (l == l) = true) : ∀ {c : Condition}, c.Each P → same c c = true
  | comparison _ _ _, h => by
    simp only [same, decide_true, Bool.and_true, Bool.and_eq_true]
    exact ⟨Expr.same_self hP h.1, Expr.same_self hP h.2⟩
  | membership _ _ _, h => by
    simp only [same, decide_true, Bool.and_true]
    exact Expr.same_self hP h
  | and _ _, h => Bool.and_eq_true_iff.2 ⟨same_self hP h.1, same_self hP h.2⟩
  | or _ _, h => Bool.and_eq_true_iff.2 ⟨same_self hP h.1, same_self hP h.2⟩
  | not c, h => same_self (c := c) hP h

/-- **equal conditions of exact literals are the same** -/
theorem eq_of_same : ∀ {a b : Condition}, same a b = true → a.Each Literal.Exact → b.Each Literal.Exact → a = b
  | comparison _ _ _, comparison _ _ _, h, ha, hb => by
    simp only [same, Bool.and_eq_true, decide_eq_true_eq] at h
    rw [Expr.eq_of_same h.1.1 ha.1 hb.1, h.1.2, Expr.eq_of_same h.2 ha.2 hb.2]
  | membership _ _ _, membership _ _ _, h, ha, hb => by
    simp only [same, Bool.and_eq_true, decide_eq_true_eq] at h
    rw [Expr.eq_of_same h.1.1 ha hb, h.1.2, h.2]
  | and _ _, and _ _, h, ha, hb => by
    rw [same, Bool.and_eq_true] at h
    rw [eq_of_same h.1 ha.1 hb.1, eq_of_same h.2 ha.2 hb.2]
  | or _ _, or _ _, h, ha, hb => by
    rw [same, Bool.and_eq_true] at h
    rw [eq_of_same h.1 ha.1 hb.1, eq_of_same h.2 ha.2 hb.2]
  | not c, not d, h, ha, hb => congrArg not (eq_of_same (a := c) (b := d) h ha hb)

/-- what holds of all literals holds of those of each term -/
theorem each_of_mem_terms {c t : Condition} (h : c.Each P) (ht : t ∈ c.terms) : t.Each P := by
  induction c with
  | and l r ihl ihr =>
    rcases List.mem_append.1 ht with ht | ht
    · exact ihl h.1 ht
    · exact ihr h.2 ht
  | _ => exact List.mem_singleton.1 ht ▸ h

end Condition

end SemanticPlanner
