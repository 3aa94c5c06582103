/-
What a conjunction says by its terms.

  Truth               the outcomes of a condition on a row, of which unknown is one
  value_eq_valueAll   a condition has the value of its terms taken together
  forall₂_terms       equal conditions have equal terms
  infix_of_holdsIn    the terms of a part stand together among the terms of the whole
  value_of_holdsIn    a part is true where the whole is
  conjunction_laws    taking apart and putting together, and what a part of a condition is
  zeros_conflated     a part that the whole does not have, as the two zeros are equal

Parts are told by equality, which is not identity: it takes the negative zero for the positive one, and a NaN for none.
Where neither is written (`Literal.Exact`), equal conditions are the same and a part is a part literally.
-/
import SemanticPlanner.Proofs.ItemByItem
import SemanticPlanner.Proofs.Literals

namespace SemanticPlanner

/-- the outcome of a condition on a row; a comparison with null is unknown -/
inductive Truth where
  | no
  | unknown
  | yes
deriving DecidableEq

namespace Truth

/-- both: no if either is no, and unknown if either is unknown -/
def and : Truth → Truth → Truth
  | no, _ => no
  | unknown, no => no
  | unknown, _ => unknown
  | yes, t => t

theorem and_yes (t : Truth) : t.and yes = t := by cases t <;> rfl

theorem and_assoc (s t u : Truth) : (s.and t).and u = s.and (t.and u) := by cases s <;> cases t <;> cases u <;> rfl

theorem and_eq_yes_iff {s t : Truth} : s.and t = yes ↔ s = yes ∧ t = yes := by cases s <;> cases t <;> decide

end Truth

namespace Condition

variable {a b c : Condition} {ts us : List Condition} {σ : Condition → Truth}

/-! ## Values -/

/-- the value of a condition, given those of the conditions that are no conjunctions -/
def value (σ : Condition → Truth) : Condition → Truth
  | and l r => (value σ l).and (value σ r)
  | c => σ c

/-- the value of several conditions taken together -/
def valueAll (σ : Condition → Truth) (ts : List Condition) : Truth := ts.foldr (fun t v => (σ t).and v) .yes

/-- equal conditions are given the same value -/
def Respects (σ : Condition → Truth) : Prop := ∀ t u : Condition, (t == u) = true → σ t = σ u

theorem valueAll_append : valueAll σ (ts ++ us) = (valueAll σ ts).and (valueAll σ us) := by
  induction ts with
  | nil => rfl
  | cons t ts ih =>
    change (σ t).and (valueAll σ (ts ++ us)) = ((σ t).and (valueAll σ ts)).and (valueAll σ us)
    rw [ih, Truth.and_assoc]

theorem valueAll_eq_yes_iff : valueAll σ ts = .yes ↔ ∀ t ∈ ts, σ t = .yes := by
  induction ts with
  | nil => simp [valueAll]
  | cons t ts ih =>
    change (σ t).and (valueAll σ ts) = .yes ↔ _
    rw [Truth.and_eq_yes_iff, ih, List.forall_mem_cons]

/-- **a condition has the value of its terms taken together** -/
theorem value_eq_valueAll : value σ c = valueAll σ c.terms := by
  induction c with
  | and l r ihl ihr =>
    rw [terms, valueAll_append, ← ihl, ← ihr]
    rfl
  | _ => exact (Truth.and_yes _).symm

/-- a condition is true exactly if all its terms are -/
theorem value_eq_yes_iff : value σ c = .yes ↔ ∀ t ∈ c.terms, σ t = .yes := by
  rw [value_eq_valueAll, valueAll_eq_yes_iff]

/-! ## Conjunctions of terms -/

/-- a conjunction has the terms of all that it is made of -/
theorem exists_ofTerms (h : ts ≠ []) : ∃ c, ofTerms ts = some c ∧ c.terms = ts.flatMap terms := by
  have hterms : termsOf (ofTerms ts) = ts.flatMap terms := termsOf_conjoinAll_flatMap ts
  cases hc : ofTerms ts with
  | none =>
    rw [hc] at hterms
    obtain ⟨t, ht⟩ := List.exists_mem_of_ne_nil ts h
    exact absurd (List.flatMap_eq_nil_iff.1 hterms.symm t ht) t.terms_ne_nil
  | some c =>
    rw [hc] at hterms
    exact ⟨c, rfl, hterms⟩

theorem flatMap_terms (c : Condition) : c.terms.flatMap terms = c.terms := by
  have hterms : c.terms.flatMap terms = c.terms.flatMap fun t => [t] :=
    List.flatMap_congr fun t ht => (isTerm_of_mem_terms ht).terms
  rw [hterms, List.flatMap_singleton']

/-! ## Parts -/

/-- equal conditions have equal terms, one by one -/
theorem forall₂_terms (h : (a == b) = true) : List.Forall₂ (fun t u => (t == u) = true) a.terms b.terms := by
  induction a generalizing b with
  | and l r ihl ihr =>
    cases b with
    | and l' r' =>
      obtain ⟨hl, hr⟩ := Bool.and_eq_true_iff.1 (show (same l l' && same r r') = true from h)
      exact List.rel_append (ihl hl) (ihr hr)
    | _ => cases h
  | _ =>
    cases b with
    | and => cases h
    | _ => exact .cons h .nil

/-- a part equals something whose terms stand together among the terms of the whole -/
theorem exists_part (h : a.holdsIn b = true) :
    ∃ p, (a == p) = true ∧ p.terms <:+: b.terms ∧ ∀ P, b.Each P → p.Each P := by
  induction b with
  | and l r ihl ihr =>
    rw [holdsIn, Bool.or_eq_true, Bool.or_eq_true] at h
    rcases h with (h | h) | h
    · exact ⟨_, h, List.infix_refl _, fun _ hP => hP⟩
    · obtain ⟨p, hp, hinfix, heach⟩ := ihl h
      exact ⟨p, hp, hinfix.trans (List.prefix_append _ _).isInfix, fun P hP => heach P hP.1⟩
    · obtain ⟨p, hp, hinfix, heach⟩ := ihr h
      exact ⟨p, hp, hinfix.trans (List.suffix_append _ _).isInfix, fun P hP => heach P hP.2⟩
  | _ => exact ⟨_, h, List.infix_refl _, fun _ hP => hP⟩

/-- the terms of a part stand together among the terms of the whole -/
theorem infix_of_holdsIn (h : a.holdsIn b = true) :
    ∃ us, us <:+: b.terms ∧ List.Forall₂ (fun t u => (t == u) = true) a.terms us := by
  obtain ⟨p, hp, hinfix, -⟩ := exists_part h
  exact ⟨p.terms, hinfix, forall₂_terms hp⟩

/-- **a part is true where the whole is** -/
theorem value_of_holdsIn (hσ : Respects σ) (h : a.holdsIn b = true) (hb : value σ b = .yes) : value σ a = .yes := by
  obtain ⟨ts, hts, hequal⟩ := infix_of_holdsIn h
  rw [value_eq_yes_iff] at hb ⊢
  intro t ht
  obtain ⟨u, hu, htu⟩ := exists_of_forall₂ hequal ht
  rw [hσ t u htu]
  exact hb u (hts.subset hu)

/-! ## Parts of exact literals -/

/-- where all literals are exact, the terms of a part are terms of the whole -/
theorem terms_infix_of_exact (ha : a.Each Literal.Exact) (hb : b.Each Literal.Exact) (h : a.holdsIn b = true) :
    a.terms <:+: b.terms := by
  obtain ⟨p, hp, hinfix, heach⟩ := exists_part h
  rw [eq_of_same hp ha (heach _ hb)]
  exact hinfix

/-- a part of exact literals is true where the whole is, whatever its terms stand for -/
theorem value_of_exact (ha : a.Each Literal.Exact) (hb : b.Each Literal.Exact) (h : a.holdsIn b = true)
    (hyes : value σ b = .yes) : value σ a = .yes := by
  rw [value_eq_yes_iff] at hyes ⊢
  exact fun t ht => hyes t ((terms_infix_of_exact ha hb h).subset ht)

/-- a term of exact literals is a part exactly if it is one of the terms -/
theorem IsTerm.holdsIn_iff_mem (hterm : a.IsTerm) (ha : a.Each Literal.Exact) (hb : b.Each Literal.Exact) :
    a.holdsIn b = true ↔ a ∈ b.terms := by
  rw [hterm.holdsIn_iff]
  constructor
  · rintro ⟨u, hu, hau⟩
    rw [eq_of_same hau ha (each_of_mem_terms hb hu)]
    exact hu
  · intro hmem
    exact ⟨a, hmem, same_self (fun _ hl => Literal.beq_self hl.1) ha⟩

/--
**Conjunctions and their terms.** What is put together from conditions has all their terms, and a condition that is
taken apart and put together again has the terms and the value that it had. The terms of a part equal terms that stand
together in the whole, and the part is true wherever the whole is; a part of a part is a part; and a term is a part if
it equals one of the terms. Where the literals are exact, to be equal is to be the same.
-/
theorem conjunction_laws (ts : List Condition) (a b c : Condition) :
    (ts ≠ [] → ∃ d, ofTerms ts = some d ∧ d.terms = ts.flatMap terms) ∧
    (∃ d, ofTerms c.terms = some d ∧ d.terms = c.terms ∧ ∀ σ, value σ d = value σ c) ∧
    (a.holdsIn b = true → (∃ us, us <:+: b.terms ∧ List.Forall₂ (fun t u => (t == u) = true) a.terms us) ∧
      ∀ σ, Respects σ → value σ b = .yes → value σ a = .yes) ∧
    (a.holdsIn b = true → b.holdsIn c = true → a.holdsIn c = true) ∧
    (a.IsTerm → (a.holdsIn b = true ↔ ∃ u ∈ b.terms, (a == u) = true)) ∧
    (a.Each Literal.Exact → b.Each Literal.Exact →
      (a.holdsIn b = true → a.terms <:+: b.terms ∧ ∀ σ, value σ b = .yes → value σ a = .yes) ∧
      (a.IsTerm → (a.holdsIn b = true ↔ a ∈ b.terms))) := by
  refine ⟨exists_ofTerms, ?_, ?_, holdsIn_trans, IsTerm.holdsIn_iff, ?_⟩
  · obtain ⟨d, hd, hterms⟩ := exists_ofTerms c.terms_ne_nil
    rw [flatMap_terms] at hterms
    refine ⟨d, hd, hterms, fun σ => ?_⟩
    rw [value_eq_valueAll, value_eq_valueAll, hterms]
  · intro h
    exact ⟨infix_of_holdsIn h, fun σ hσ => value_of_holdsIn hσ h⟩
  · intro ha hb
    exact ⟨fun h => ⟨terms_infix_of_exact ha hb h, fun _ => value_of_exact ha hb h⟩,
      fun hterm => hterm.holdsIn_iff_mem ha hb⟩

/-- the adults among the active customers of a country -/
theorem conjunction_laws_adults :
    let french := comparison (.concept "local.country") .eq (.literal (.text "FR"))
    let adult := comparison (.concept "local.age") .gte (.literal (.integer 18))
    let active := comparison (.concept "local.active") .eq (.literal (.boolean true))
    (∃ d, ofTerms [and french adult, active] = some d ∧ d.terms = [french, adult, active]) ∧
    (adult.holdsIn (and french adult) = true ∧ (and french adult).holdsIn (and (and french adult) active) = true ∧
      adult.holdsIn (and (and french adult) active) = true) ∧
    (adult.IsTerm ∧ adult.Each Literal.Exact ∧ (and french adult).Each Literal.Exact ∧ adult ∈ [french, adult]) ∧
    (Respects (fun _ => .yes) ∧ value (fun _ => .yes) adult = .yes) := by
  intro french adult active
  have hadult : adult.holdsIn (and french adult) = true := by decide
  have hwhole : (and french adult).holdsIn (and (and french adult) active) = true := by decide
  have hterm : adult.IsTerm := isTerm_comparison
  have hexact : adult.Each Literal.Exact := ⟨trivial, Literal.exact_of_ne_float fun x h => by cases h⟩
  have hexact' : (and french adult).Each Literal.Exact :=
    ⟨⟨trivial, Literal.exact_of_ne_float fun x h => by cases h⟩, hexact⟩
  have hrespects : Respects fun _ => .yes := fun _ _ _ => rfl
  obtain ⟨hofTerms, -, hpart, htrans, -, hsame⟩ :=
    conjunction_laws [and french adult, active] adult (and french adult) (and (and french adult) active)
  exact ⟨hofTerms (List.cons_ne_nil _ _), ⟨hadult, hwhole, htrans hadult hwhole⟩,
    ⟨hterm, hexact, hexact', ((hsame hexact hexact').2 hterm).1 hadult⟩,
    hrespects, (hpart hadult).2 _ hrespects rfl⟩

/-- **the two zeros are equal**: what is above zero is taken for a part of what is above the negative zero -/
theorem zeros_conflated :
    let one := comparison (.concept "local.y") .eq (.literal (.integer 1))
    let above := comparison (.concept "local.x") .gt (.literal (.float 0.0))
    let aboveNeg := comparison (.concept "local.x") .gt (.literal (.float (-0.0)))
    (above.Each fun l => l.isNaN = false) ∧ ((and one aboveNeg).Each fun l => l.isNaN = false) ∧
      above.IsTerm ∧ above.holdsIn (and one aboveNeg) = true ∧
      above ∉ (and one aboveNeg).terms ∧ ¬ above.terms <:+: (and one aboveNeg).terms ∧
      ∃ σ, value σ (and one aboveNeg) = .yes ∧ value σ above ≠ .yes := by
  intro one above aboveNeg
  have hone : above ≠ one := by
    intro h
    injection h with _ h
    cases h
  have hzero : above ≠ aboveNeg := by
    intro h
    injection h with _ _ h
    injection h with h
    exact (by decide +kernel : (0.0 : Float) ≠ -0.0) (Literal.float.inj h)
  have hmem : above ∉ (and one aboveNeg).terms := fun h => (List.mem_pair.1 h).elim hone hzero
  refine ⟨⟨trivial, rfl⟩, ⟨⟨trivial, rfl⟩, trivial, rfl⟩, isTerm_comparison, by decide +kernel, hmem,
    fun h => hmem (h.subset (List.mem_singleton.2 rfl)), ?_⟩
  classical
  refine ⟨fun c => if c = above then .no else .yes, ?_, ?_⟩
  · rw [value_eq_yes_iff]
    intro t ht
    exact if_neg fun h : t = above => hmem (h ▸ ht)
  · change (if above = above then Truth.no else .yes) ≠ .yes
    rw [if_pos rfl]
    exact fun h => by cases h

end Condition

end SemanticPlanner
