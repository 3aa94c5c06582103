/-
Equality of conditions, and the AND-ed parts of a condition.

  PartialEquivBEq         equality of literals, expressions and conditions is symmetric and transitive
  holdsIn_trans           a part of a part is a part
  holdsInOption_iff       a term is a part of a condition exactly if it equals one of the terms
  holdsInOption_conjoin   AND-ing one more condition keeps the parts and adds the new one

Equality is not reflexive: a NaN differs from itself, and so does every condition in which one is written. What equals
something equals itself, though, so a condition that was found to be a part of another one is no exception.
-/
import Mathlib
import SemanticPlanner.Term.Condition

namespace SemanticPlanner

/-! ## Equality -/

namespace Literal

theorem same_symm : ∀ {a b : Literal}, same a b = true → same b a = true
  | integer _, integer _, h => PartialEquivBEq.symm h
  | float _, float _, h => PartialEquivBEq.symm h
  | text _, text _, h => PartialEquivBEq.symm h
  | boolean _, boolean _, h => PartialEquivBEq.symm h
  | null, null, _ => rfl

theorem same_trans : ∀ {a b c : Literal}, same a b = true → same b c = true → same a c = true
  | integer _, integer _, integer _, h, h' => PartialEquivBEq.trans h h'
  | float _, float _, float _, h, h' => PartialEquivBEq.trans h h'
  | text _, text _, text _, h, h' => PartialEquivBEq.trans h h'
  | boolean _, boolean _, boolean _, h, h' => PartialEquivBEq.trans h h'
  | null, null, null, _, _ => rfl

instance : PartialEquivBEq Literal := ⟨same_symm, same_trans⟩

end Literal

namespace Expr

mutual

theorem same_symm : ∀ {a b : Expr}, same a b = true → same b a = true
  | concept _, concept _, h => PartialEquivBEq.symm h
  | literal _, literal _, h => PartialEquivBEq.symm h
  | function _ _, function _ _, h => by
    simp only [same, Bool.and_eq_true, decide_eq_true_eq] at h ⊢
    exact ⟨h.1.symm, sameAll_symm h.2⟩
  | aggregate _ _, aggregate _ _, h => by
    simp only [same, Bool.and_eq_true, decide_eq_true_eq] at h ⊢
    exact ⟨h.1.symm, sameAll_symm h.2⟩

theorem sameAll_symm : ∀ {as bs : List Expr}, sameAll as bs = true → sameAll bs as = true
  | [], [], _ => rfl
  | _ :: _, _ :: _, h => by
    simp only [sameAll, Bool.and_eq_true] at h ⊢
    exact ⟨same_symm h.1, sameAll_symm h.2⟩

end

mutual

theorem same_trans : ∀ {a b c : Expr}, same a b = true → same b c = true → same a c = true
  | concept _, concept _, concept _, h, h' => PartialEquivBEq.trans h h'
  | literal _, literal _, literal _, h, h' => PartialEquivBEq.trans h h'
  | function _ _, function _ _, function _ _, h, h' => by
    simp only [same, Bool.and_eq_true, decide_eq_true_eq] at h h' ⊢
    exact ⟨h.1.trans h'.1, sameAll_trans h.2 h'.2⟩
  | aggregate _ _, aggregate _ _, aggregate _ _, h, h' => by
    simp only [same, Bool.and_eq_true, decide_eq_true_eq] at h h' ⊢
    exact ⟨h.1.trans h'.1, sameAll_trans h.2 h'.2⟩

theorem sameAll_trans : ∀ {as bs cs : List Expr}, sameAll as bs = true → sameAll bs cs = true → sameAll as cs = true
  | [], [], [], _, _ => rfl
  | _ :: _, _ :: _, _ :: _, h, h' => by
    simp only [sameAll, Bool.and_eq_true] at h h' ⊢
    exact ⟨same_trans h.1 h'.1, sameAll_trans h.2 h'.2⟩

end

instance : PartialEquivBEq Expr := ⟨same_symm, same_trans⟩

end Expr

namespace Condition

variable {a b c t : Condition} {existing : Option Condition}

theorem same_symm : ∀ {a b : Condition}, same a b = true → same b a = true
  | comparison _ _ _, comparison _ _ _, h => by
    simp only [same, Bool.and_eq_true, decide_eq_true_eq] at h ⊢
    exact ⟨⟨PartialEquivBEq.symm h.1.1, h.1.2.symm⟩, PartialEquivBEq.symm h.2⟩
  | membership _ _ _, membership _ _ _, h => by
    simp only [same, Bool.and_eq_true, decide_eq_true_eq] at h ⊢
    exact ⟨⟨PartialEquivBEq.symm h.1.1, h.1.2.symm⟩, h.2.symm⟩
  | and _ _, and _ _, h => by
    simp only [same, Bool.and_eq_true] at h ⊢
    exact ⟨same_symm h.1, same_symm h.2⟩
  | or _ _, or _ _, h => by
    simp only [same, Bool.and_eq_true] at h ⊢
    exact ⟨same_symm h.1, same_symm h.2⟩
  | not a, not b, h => same_symm (a := a) (b := b) h

theorem same_trans : ∀ {a b c : Condition}, same a b = true → same b c = true → same a c = true
  | comparison _ _ _, comparison _ _ _, comparison _ _ _, h, h' => by
    simp only [same, Bool.and_eq_true, decide_eq_true_eq] at h h' ⊢
    exact ⟨⟨PartialEquivBEq.trans h.1.1 h'.1.1, h.1.2.trans h'.1.2⟩, PartialEquivBEq.trans h.2 h'.2⟩
  | membership _ _ _, membership _ _ _, membership _ _ _, h, h' => by
    simp only [same, Bool.and_eq_true, decide_eq_true_eq] at h h' ⊢
    exact ⟨⟨PartialEquivBEq.trans h.1.1 h'.1.1, h.1.2.trans h'.1.2⟩, h.2.trans h'.2⟩
  | and _ _, and _ _, and _ _, h, h' => by
    simp only [same, Bool.and_eq_true] at h h' ⊢
    exact ⟨same_trans h.1 h'.1, same_trans h.2 h'.2⟩
  | or _ _, or _ _, or _ _, h, h' => by
    simp only [same, Bool.and_eq_true] at h h' ⊢
    exact ⟨same_trans h.1 h'.1, same_trans h.2 h'.2⟩
  | not a, not b, not c, h, h' => same_trans (a := a) (b := b) (c := c) h h'

instance : PartialEquivBEq Condition := ⟨same_symm, same_trans⟩

/-! ## Parts of a condition -/

/-- an equal condition has the same parts -/
theorem holdsIn_congr (h : a.holdsIn b = true) (hbc : (b == c) = true) : a.holdsIn c = true := by
  induction b generalizing c with
  | and l r ihl ihr =>
    cases c with
    | and l' r' =>
      have hsides : (l == l') = true ∧ (r == r') = true := by
        change (same l l' && same r r') = true at hbc
        exact Bool.and_eq_true_iff.1 hbc
      simp only [holdsIn, Bool.or_eq_true] at h ⊢
      rcases h with (h | h) | h
      · exact Or.inl (Or.inl (PartialEquivBEq.trans h hbc))
      · exact Or.inl (Or.inr (ihl h hsides.1))
      · exact Or.inr (ihr h hsides.2)
    | _ => cases hbc
  | _ =>
    cases c with
    | and => cases hbc
    | _ => exact PartialEquivBEq.trans h hbc

/-- **a part of a part is a part** -/
theorem holdsIn_trans (h : a.holdsIn b = true) (h' : b.holdsIn c = true) : a.holdsIn c = true := by
  induction c with
  | and l r ihl ihr =>
    rw [holdsIn, Bool.or_eq_true, Bool.or_eq_true] at h'
    rcases h' with (h' | h') | h'
    · exact holdsIn_congr h h'
    · simp [holdsIn, ihl h']
    · simp [holdsIn, ihr h']
  | _ => exact holdsIn_congr h h'

theorem holdsInOption_trans (h : a.holdsIn b = true) (h' : b.holdsInOption existing = true) :
    a.holdsInOption existing = true := by
  cases existing with
  | none => exact h'
  | some c => exact holdsIn_trans h h'

/-! ## Terms -/

/-- the terms of a condition that may be absent -/
def termsOf (existing : Option Condition) : List Condition := existing.elim [] terms

theorem terms_ne_nil : ∀ t : Condition, t.terms ≠ []
  | comparison _ _ _ | membership _ _ _ | or _ _ | not _ => List.cons_ne_nil _ _
  | and l _ => fun h => terms_ne_nil l (List.append_eq_nil_iff.1 h).1

/-- a condition that does not fall apart -/
def IsTerm (t : Condition) : Prop := ∀ l r, t ≠ and l r

theorem isTerm_comparison {l r : Expr} {o : ComparisonOp} : (comparison l o r).IsTerm := fun _ _ => nofun

theorem isTerm_of_mem_terms (h : t ∈ c.terms) : t.IsTerm := by
  induction c with
  | and l r ihl ihr => exact (List.mem_append.1 h).elim ihl ihr
  | _ =>
    have he := List.mem_singleton.1 h
    subst he
    intro l r he
    cases he

theorem IsTerm.terms (h : t.IsTerm) : t.terms = [t] := by
  cases t with
  | and l r => exact absurd rfl (h l r)
  | _ => rfl

/-- a term is a part of a condition exactly if it equals one of its terms -/
theorem IsTerm.holdsIn_iff (ht : t.IsTerm) : t.holdsIn c = true ↔ ∃ u ∈ c.terms, (t == u) = true := by
  induction c with
  | and l r ihl ihr =>
    have hnot : (t == and l r) = false := by
      cases t with
      | and a b => exact absurd rfl (ht a b)
      | _ => rfl
    simp only [holdsIn, hnot, Bool.false_or, Bool.or_eq_true, ihl, ihr, Condition.terms, List.mem_append]
    constructor
    · rintro (⟨u, hu, h⟩ | ⟨u, hu, h⟩)
      · exact ⟨u, Or.inl hu, h⟩
      · exact ⟨u, Or.inr hu, h⟩
    · rintro ⟨u, hu | hu, h⟩
      · exact Or.inl ⟨u, hu, h⟩
      · exact Or.inr ⟨u, hu, h⟩
  | _ => simp [holdsIn, Condition.terms]

theorem IsTerm.holdsInOption_iff (ht : t.IsTerm) :
    t.holdsInOption existing = true ↔ ∃ u ∈ termsOf existing, (t == u) = true := by
  cases existing with
  | none => simp [holdsInOption, termsOf]
  | some c => exact ht.holdsIn_iff

/-! ## Conjunctions -/

theorem termsOf_conjoin : termsOf (some (conjoin existing c)) = termsOf existing ++ c.terms := by
  cases existing <;> rfl

/-- what was part of a condition is part of it when one more is AND-ed -/
theorem holdsInOption_conjoin (h : t.holdsInOption existing = true) :
    t.holdsInOption (some (conjoin existing c)) = true := by
  cases existing with
  | none => cases h
  | some b => simp [holdsInOption, conjoin, holdsIn, show t.holdsIn b = true from h]

/-- an optional condition AND-ed with terms, one after the other -/
def conjoinAll (existing : Option Condition) (ts : List Condition) : Option Condition :=
  ts.foldl (fun acc t => some (conjoin acc t)) existing

theorem conjoinAll_append_singleton (ts : List Condition) :
    conjoinAll existing (ts ++ [t]) = some (conjoin (conjoinAll existing ts) t) := by
  simp [conjoinAll]

theorem termsOf_conjoinAll_flatMap (ts : List Condition) :
    termsOf (conjoinAll existing ts) = termsOf existing ++ ts.flatMap terms := by
  induction ts using List.reverseRecOn with
  | nil => simp [conjoinAll]
  | append_singleton ts t ih => rw [conjoinAll_append_singleton, termsOf_conjoin, ih]; simp

theorem termsOf_conjoinAll {ts : List Condition} (h : ∀ t ∈ ts, t.IsTerm) :
    termsOf (conjoinAll existing ts) = termsOf existing ++ ts := by
  have hterms : ts.flatMap terms = ts.flatMap fun t => [t] := List.flatMap_congr fun t ht => (h t ht).terms
  rw [termsOf_conjoinAll_flatMap, hterms, List.flatMap_singleton']

/-- what is part of some condition equals itself -/
theorem beq_self_of_holdsIn (h : t.holdsIn c = true) : (t == t) = true := by
  have hequal : ∀ u, (t == u) = true → (t == t) = true :=
    fun u hu => PartialEquivBEq.trans hu (PartialEquivBEq.symm hu)
  induction c with
  | and l r ihl ihr =>
    rw [holdsIn, Bool.or_eq_true, Bool.or_eq_true] at h
    rcases h with (h | h) | h
    · exact hequal _ h
    · exact ihl h
    · exact ihr h
  | _ => exact hequal _ h

/-- a part of some condition is part of what it is AND-ed to -/
theorem holdsIn_conjoin_self (h : t.holdsIn c = true) : t.holdsInOption (some (conjoin existing t)) = true := by
  have hself : t.holdsIn t = true := by
    cases t with
    | and l r => simp [holdsIn, beq_self_of_holdsIn h]
    | _ => exact beq_self_of_holdsIn h
  cases existing with
  | none => exact hself
  | some b => simp [holdsInOption, conjoin, holdsIn, hself]

end Condition

end SemanticPlanner
