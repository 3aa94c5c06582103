/-
What the rules have still to do, as a number.

  weight      the sum of what the steps of a plan weigh
  Lightens    an application of a rule that changes the plan makes it lighter, and no other makes it heavier
  lightens    every rule has such weights

A step weighs, for the rule that reads datasources directly, its parents and those of them that are not registered yet;
for the rules that push and drop conditions, the terms that it does not filter by and the condition that it has; for the
rule that writes constants, the addresses that it reads; and for the rule that folds aggregates, one as long as it was
not folded. A step does not get heavier for one rule when another step changes.
-/
import SemanticPlanner.Proofs.OptimizedColumns
import SemanticPlanner.Proofs.Pushdown
import SemanticPlanner.Proofs.RowFilters
import Mathlib.Algebra.Order.BigOperators.Group.List
import Mathlib.Algebra.Order.Ring.Nat

namespace SemanticPlanner

variable {env : Environment} {s : OptimizerSettings} {p q : CtePlan} {c d parent : Cte} {n : String} {r : Rule}
  {g f : Cte → Cte}

namespace CtePlan

/-! ## Weights -/

variable {w w' : Cte → ℕ}

/-- the sum of what the steps weigh -/
def weight (w : Cte → ℕ) (p : CtePlan) : ℕ := (p.ctes.map w).sum

theorem weight_le (hq : q.ctes = p.ctes.map g) (hle : ∀ c ∈ p.ctes, w' (g c) ≤ w c) : q.weight w' ≤ p.weight w := by
  rw [weight, weight, hq, List.map_map]
  exact List.sum_le_sum hle

theorem weight_lt (hq : q.ctes = p.ctes.map g) (hle : ∀ c ∈ p.ctes, w' (g c) ≤ w c) (hc : c ∈ p.ctes)
    (hlt : w' (g c) < w c) : q.weight w' < p.weight w := by
  rw [weight, weight, hq, List.map_map]
  exact List.sum_lt_sum _ _ hle ⟨c, hc, hlt⟩

/-- a plan of which one step changes to a lighter one and the others get no heavier -/
theorem weight_modify_lt (hn : p.names.Nodup) (hc : p.find? n = some c) (hlt : w' (f c) < w c)
    (hothers : ∀ e ∈ p.ctes, e.name ≠ n → w' e ≤ w e) : (p.modify n f).weight w' < p.weight w := by
  obtain ⟨hmem, hname⟩ := find?_some hc
  have hchanged : ∀ e ∈ p.ctes, e.name = n → e = c := fun e he hen => eq_of_name hn he hmem (hen.trans hname.symm)
  refine weight_lt (ctes_modify hn n f) (fun e he => ?_) hmem (by rwa [if_pos hname])
  split
  · rename_i hen
    rw [hchanged e he hen]
    exact Nat.le_of_lt hlt
  · rename_i hne
    exact hothers e he hne

theorem weight_modify_le (hn : p.names.Nodup) (hc : p.find? n = some c) (hle : w (f c) ≤ w c) :
    (p.modify n f).weight w ≤ p.weight w := by
  obtain ⟨hmem, hname⟩ := find?_some hc
  refine weight_le (ctes_modify hn n f) fun e he => ?_
  split
  · rename_i hen
    rw [eq_of_name hn he hmem (hen.trans hname.symm)]
    exact hle
  · exact Nat.le_refl _

theorem weight_prune_le (w : Cte → ℕ) (p : CtePlan) : p.prune.weight w ≤ p.weight w :=
  (List.filter_sublist.map w).sum_le_sum fun _ _ => Nat.zero_le _

theorem Relists.weight (h : p.Relists q) (w : Cte → ℕ) : q.weight w = p.weight w := (h.perm.map w).sum_eq

end CtePlan

variable {J : Cte → Prop} {w : RuleMemory → Cte → ℕ} {memory : RuleMemory} {t u : Revision}

/-- `J` still holds of the steps, and the plan is no heavier than another one, and lighter if it was changed -/
structure Revision.Lightens (J : Cte → Prop) (w : RuleMemory → Cte → ℕ) (memory : RuleMemory) (p : CtePlan)
    (t : Revision) : Prop where
  kept : ∀ c ∈ t.plan.ctes, J c
  le : t.plan.weight (w t.memory) ≤ p.weight (w memory)
  lt : t.changed = true → t.plan.weight (w t.memory) < p.weight (w memory)

theorem Revision.Lightens.unchanged (hJ : ∀ c ∈ p.ctes, J c) : (Revision.unchanged memory p).Lightens J w memory p :=
  ⟨hJ, Nat.le_refl _, fun h => absurd h Bool.false_ne_true⟩

theorem Revision.Lightens.of_lt (hJ : ∀ c ∈ t.plan.ctes, J c)
    (hlt : t.plan.weight (w t.memory) < p.weight (w memory)) : t.Lightens J w memory p :=
  ⟨hJ, Nat.le_of_lt hlt, fun _ => hlt⟩

/-- as long as `J` holds of the steps of a plan, an application of the rule makes it no heavier, and lighter where it
changes it -/
def Rule.Lightens (env : Environment) (s : OptimizerSettings) (r : Rule) (J : Cte → Prop)
    (w : RuleMemory → Cte → ℕ) : Prop :=
  ∀ n memory p, p.WellFormed → (∀ c ∈ p.ctes, J c) → (r.apply s env n memory p).Lightens J w memory p

/-! ## The rules -/

/-- a condition that was dropped is gone -/
theorem PushPredicate.lightens_drop :
    Rule.Lightens env s .dropPredicate (fun _ => True) fun _ c => if c.condition.isSome then 1 else 0 := by
  intro n memory p hp hJ
  rcases applyRemoval_cases n memory p with he | ⟨c, condition, unread, hc, hcondition, -, -, he⟩
  · rw [Rule.apply, he]
    exact .unchanged hJ
  · rw [Rule.apply, he]
    refine .of_lt (fun _ _ => trivial) (CtePlan.weight_modify_lt hp.distinct hc ?_ fun _ _ _ => Nat.le_refl _)
    simp [dropCondition, hcondition]

/-- an input that has a value is read from somewhere -/
theorem InlineConstant.exists_source_of_valueOf {address : String} {v : Literal} (h : valueOf env c address = some v) :
    ∃ names, c.sourceMap.get? address = some names ∧ ∃ y, y ∈ names := by
  unfold valueOf at h
  split at h
  · cases h
  · rename_i hread
    cases hnames : c.sourceMap.get? address with
    | none => simp [SortedMap.getD, hnames] at hread
    | some names =>
      refine ⟨names, rfl, List.exists_mem_of_ne_nil names fun hnil => ?_⟩
      simp [SortedMap.getD, hnames, hnil] at hread

/-- an address that was written as its value is not read any more -/
theorem InlineConstant.Written.size_lt (h : Relation.TransGen (Written env) c d) :
    d.materialized.size < c.materialized.size := by
  have hstep : ∀ c d : Cte, Written env c d → d.materialized.size < c.materialized.size := by
    intro c d h
    have hsub : ∀ x ∈ d.materialized, x ∈ c.materialized := by
      intro x hx
      obtain ⟨y, hy⟩ := Cte.mem_materialized.1 hx
      exact Cte.mem_materialized.2 ⟨y, (Written.narrows (.single h)).2.2.2 x y hy⟩
    obtain ⟨x, hx, hnot⟩ : ∃ x ∈ c.materialized, x ∉ d.materialized := by
      cases h with
      | @value address v hv =>
        refine ⟨address, ?_, fun hin => ?_⟩
        · obtain ⟨names, hnames, y, hy⟩ := exists_source_of_valueOf hv
          exact Cte.mem_materialized.2 ⟨y, Cte.maps_iff.2 ⟨names, hnames, hy⟩⟩
        · obtain ⟨y, hy⟩ := Cte.mem_materialized.1 hin
          obtain ⟨names, hnames, hmem⟩ := Cte.maps_iff.1 hy
          dsimp only at hnames
          rw [SortedMap.get?_insert, if_pos rfl] at hnames
          cases hnames
          cases hmem
    by_contra hle
    exact hnot (SortedSet.mem_of_size_le hsub (Nat.le_of_not_lt hle) hx)
  induction h with
  | single h => exact hstep _ _ h
  | tail _ h ih => exact Nat.lt_trans (hstep _ _ h) ih

theorem InlineConstant.lightens :
    Rule.Lightens env s .inlineConstant (fun _ => True) fun _ c => c.materialized.size := by
  intro n memory p hp hJ
  rcases apply_cases env n memory p with he | ⟨c, d, hc, hd, he⟩
  · rw [Rule.apply, he]
    exact .unchanged hJ
  · rw [Rule.apply, he]
    have hlt : d.materialized.size < c.materialized.size := Written.size_lt hd
    exact .of_lt (fun _ _ => trivial) (CtePlan.weight_modify_lt hp.distinct hc hlt fun _ _ _ => Nat.le_refl _)

/-- an aggregate that was folded is remembered -/
theorem FoldAggregate.lightens : Rule.Lightens env s .foldAggregate (fun _ => True)
    fun memory c => if memory.folded.contains c.name then 0 else 1 := by
  intro n memory p hp hJ
  rcases apply_cases env n memory p with he | ⟨c, parent, hc, hparent, hnew, he⟩
  · rw [Rule.apply, he]
    exact .unchanged hJ
  · rw [Rule.apply, he]
    have hedits := fold_edits hp (absorbs_of_absorber hparent)
    obtain ⟨hmem, hname⟩ := CtePlan.find?_some hc
    refine .of_lt (fun _ _ => trivial) (CtePlan.weight_lt hedits.ctes (fun e hmem => ?_) hmem ?_)
    · rw [hedits.name e hmem]
      by_cases hfolded : e.name ∈ memory.folded
      · simp [SortedSet.contains_iff, SortedSet.mem_insert, hfolded]
      · rw [if_neg (SortedSet.contains_iff.not.2 hfolded)]
        split
        · exact Nat.zero_le _
        · exact Nat.le_refl _
    · rw [hedits.name c hmem, hname]
      simp [SortedSet.contains_iff, SortedSet.mem_insert, hnew]

/-! ## Moving terms -/

namespace PushPredicate

/-- the terms of a list by which a step does not filter -/
def missing (terms : List Condition) (c : Cte) : ℕ := (terms.filter fun t => !t.holdsInOption c.condition).length

theorem Push.names (h : Push env p q) : q.names = p.names := by
  obtain ⟨t, parent, -, rfl⟩ := h
  exact CtePlan.names_modify fun _ hc => hc

variable {terms : List Condition}

/-- the terms of the step are listed -/
def Listed (terms : List Condition) (c : Cte) : Prop := ∀ t ∈ Condition.termsOf c.condition, t ∈ terms

/-- a step that is filtered by one more of the terms misses it no longer -/
theorem missing_filterBy_lt {t : Condition} {e : Condition} (ht : t ∈ terms) (he : t.holdsIn e = true)
    (hnew : t.holdsInOption c.condition = false) : missing terms (filterBy t c) < missing terms c := by
  refine length_filter_lt (fun u _ hu => ?_) ht ?_ ?_
  · rw [Bool.not_eq_true'] at hu ⊢
    rw [← Bool.not_eq_true] at hu ⊢
    exact fun h => hu (Condition.holdsInOption_conjoin h)
  · rw [hnew]
    rfl
  · rw [filterBy, Condition.holdsIn_conjoin_self he]
    rfl

theorem Push.missing_lt (hn : p.names.Nodup) (hlisted : ∀ c ∈ p.ctes, Listed terms c) (h : Push env p q) :
    (∀ c ∈ q.ctes, Listed terms c) ∧ q.weight (missing terms) < p.weight (missing terms) := by
  obtain ⟨t, parent, hmoves, rfl⟩ := h
  obtain ⟨c, hc, hct⟩ := hmoves.origin
  have ht : t ∈ terms := hlisted c hc t hct
  constructor
  · intro d hd u hu
    rcases CtePlan.of_mem_modify hd with hd | ⟨e, he, rfl⟩
    · exact hlisted d hd u hu
    · have hterms : Condition.termsOf (filterBy t e).condition = Condition.termsOf e.condition ++ [t] := by
        rw [filterBy, Condition.termsOf_conjoin, hmoves.isTerm.terms]
      rw [hterms, List.mem_append, List.mem_singleton] at hu
      rcases hu with hu | rfl
      · exact hlisted e he u hu
      · exact ht
  · obtain ⟨_, e, he, rfl, hread⟩ := hmoves.read
    have hshared := hmoves.shared e he hread
    obtain ⟨condition, hcondition, hholds⟩ := (Option.any_eq_true _ _).1 hshared
    exact CtePlan.weight_modify_lt hn hmoves.found (missing_filterBy_lt ht hholds hmoves.new) fun _ _ _ => Nat.le_refl _

theorem pushes_missing_le (hn : p.names.Nodup) (hlisted : ∀ c ∈ p.ctes, Listed terms c)
    (h : Relation.ReflTransGen (Push env) p q) : q.names = p.names ∧ (∀ c ∈ q.ctes, Listed terms c) ∧
      q.weight (missing terms) ≤ p.weight (missing terms) := by
  induction h with
  | refl => exact ⟨rfl, hlisted, Nat.le_refl _⟩
  | tail _ hpush ih =>
    obtain ⟨hnames, hlisted, hle⟩ := ih
    obtain ⟨hkept, hlt⟩ := hpush.missing_lt (hnames ▸ hn) hlisted
    exact ⟨hpush.names.trans hnames, hkept, Nat.le_trans (Nat.le_of_lt hlt) hle⟩

/-- a step into which a term was moved misses one term less -/
theorem lightens_push (terms : List Condition) :
    Rule.Lightens env s .pushPredicate (Listed terms) fun _ => missing terms := by
  intro n memory p hp hlisted
  obtain ⟨hpushes, hchanged⟩ := apply_pushes env n memory hp.distinct
  obtain ⟨-, hkept, hle⟩ := pushes_missing_le hp.distinct hlisted hpushes
  refine ⟨hkept, hle, fun h => ?_⟩
  obtain ⟨q, hpq, hq⟩ := Relation.TransGen.tail'_iff.1 (hchanged h)
  obtain ⟨hnames, hmid, hle'⟩ := pushes_missing_le hp.distinct hlisted hpq
  exact Nat.lt_of_lt_of_le (hq.missing_lt (hnames ▸ hp.distinct) hmid).2 hle'

end PushPredicate

/-! ## Reading datasources -/

/-- the parent was read and is so no longer -/
theorem Cte.inlineParent_parents {e : Cte} (h : c.inlineParent parent = some e) :
    e.name = c.name ∧ parent.name ∈ c.parents ∧ e.parents = c.parents.filter fun m => m != parent.name := by
  unfold Cte.inlineParent at h
  split at h
  · cases h
  · split at h
    · cases h
    · rename_i hmem
      cases h
      exact ⟨rfl, by simpa using hmem, rfl⟩

theorem Cte.length_parents_inlineParent {e : Cte} (h : c.inlineParent parent = some e) :
    e.parents.length < c.parents.length := by
  obtain ⟨-, hread, hparents⟩ := inlineParent_parents h
  rw [hparents]
  exact List.length_filter_lt_length_iff_exists.2 ⟨parent.name, hread, by simp⟩

namespace InlineDatasource

/-- the parents of a step that are not registered for it yet -/
def unregistered (memory : RuleMemory) (c : Cte) : List String :=
  c.parents.filter fun m => !(memory.candidates.getD c.name ∅).contains m

/-- the parents of a step, and again those that are not registered yet -/
def outstanding (memory : RuleMemory) (c : Cte) : ℕ := c.parents.length + (unregistered memory c).length

/-- the step `d` has no parent `m` any longer: that was registered for it, its datasource not too often, and this is
read instead -/
structure ReadInstead (p : CtePlan) (cutoff : ℕ) (memory : RuleMemory) (n : String) (d : Cte) (m : String) : Prop where
  registered : m ∈ memory.candidates.getD n ∅
  datasource : ∃ x b, p.find? m = some x ∧ x.bareDatasource = some b ∧ memory.uses.getD b.identifier 0 ≤ cutoff ∧
    ∃ a ∈ d.datasources, a.identifier = b.identifier

/-- the step as the loop over its parents leaves it: of some of them the datasources are read instead -/
structure Reduces (p : CtePlan) (cutoff : ℕ) (memory : RuleMemory) (n : String) (c d : Cte) : Prop where
  name : d.name = c.name
  parents : d.parents.Sublist c.parents
  gone : ∀ m ∈ c.parents, m ∈ d.parents ∨ ReadInstead p cutoff memory n d m

theorem Reduces.inline {cutoff : ℕ} {memory : RuleMemory} {e : Cte} (h : Reduces p cutoff memory n c d)
    (he : d.inlineParent parent = some e) (hfind : p.find? parent.name = some parent)
    (hseen : parent.name ∈ memory.candidates.getD n ∅)
    (huses : ∀ b, parent.bareDatasource = some b → memory.uses.getD b.identifier 0 ≤ cutoff) :
    Reduces p cutoff memory n c e ∧ e.parents.length < c.parents.length := by
  have hlt := Nat.lt_of_lt_of_le (Cte.length_parents_inlineParent he) h.parents.length_le
  obtain ⟨hname, -, hparents⟩ := Cte.inlineParent_parents he
  obtain ⟨b, hb, hinlines⟩ := Cte.inlineParent_some he
  refine ⟨⟨hname.trans h.name, hparents ▸ List.filter_sublist.trans h.parents, fun m hm => ?_⟩, hlt⟩
  by_cases hname : m = parent.name
  · subst hname
    exact Or.inr ⟨hseen, parent, b, hfind, hb, huses b hb, hinlines.there⟩
  · rcases h.gone m hm with hkept | ⟨hregistered, x, b, hx, hb, hle, a, ha, hid⟩
    · rw [hparents]
      exact Or.inl (List.mem_filter.2 ⟨hkept, by simpa using hname⟩)
    · exact Or.inr ⟨hregistered, x, b, hx, hb, hle, a, hinlines.own a ha, hid⟩

/-- what the loop did: it inlined parents, at least one where it changed something, or it registered one at its end -/
inductive Proceeds (p : CtePlan) (cutoff : ℕ) (n : String) (c : Cte) (memory : RuleMemory) (t : Revision) : Prop
  | inlined {d : Cte} : Reduces p cutoff memory n c d → t.plan = (p.modify n fun _ => d) → t.memory = memory →
      (t.changed = true → d.parents.length < c.parents.length) → Proceeds p cutoff n c memory t
  | registered {d x : Cte} {m : String} {b : Datasource} : Reduces p cutoff memory n c d →
      t.plan = (p.modify n fun _ => d) → m ∈ c.parents → p.find? m = some x → x.bareDatasource = some b →
      m ∉ memory.candidates.getD n ∅ →
      t.memory.candidates = memory.candidates.insert n ((memory.candidates.getD n ∅).insert m) →
      t.memory.uses = memory.uses.update b.identifier 0 (· + 1) → Proceeds p cutoff n c memory t

theorem step_proceeds {cutoff : ℕ} (hc : p.find? n = some c) {parents : List Cte}
    (hparents : ∀ parent ∈ parents, parent.name ∈ c.parents ∧ p.find? parent.name = some parent) {memory : RuleMemory}
    {t : Revision} {d : Cte} (hd : Reduces p cutoff memory n c d) (hplan : t.plan = p.modify n fun _ => d)
    (hmemory : t.memory = memory) (hchanged : t.changed = true → d.parents.length < c.parents.length) :
    Proceeds p cutoff n c memory (step cutoff n parents t) := by
  induction parents generalizing t d with
  | nil => exact .inlined hd hplan hmemory hchanged
  | cons parent rest ih =>
    have hrest := @ih fun e he => hparents e (List.mem_cons_of_mem _ he)
    obtain ⟨hparent, hfind⟩ := hparents parent List.mem_cons_self
    rw [step]
    dsimp only
    split
    · exact hrest hd hplan hmemory hchanged
    · rename_i b hb
      split
      · rename_i hnew
        rw [hmemory] at hnew ⊢
        exact .registered hd hplan hparent hfind hb (SortedSet.not_contains_iff.1 hnew) rfl rfl
      · rename_i hseen
        split
        · exact hrest hd hplan hmemory hchanged
        · rename_i huses
          split
          · exact hrest hd hplan hmemory hchanged
          · rename_i e he
            obtain ⟨d', hd', hde⟩ := Option.bind_eq_some_iff.1 he
            have hname : d.name = n := hd.name.trans (CtePlan.find?_some hc).2
            rw [hplan, CtePlan.find?_modify hc hname, if_pos rfl] at hd'
            cases hd'
            have hin : parent.name ∈ memory.candidates.getD n ∅ := by
              rw [hmemory, SortedSet.not_contains_iff, not_not] at hseen
              exact hseen
            have hfew : ∀ b', parent.bareDatasource = some b' → memory.uses.getD b'.identifier 0 ≤ cutoff := by
              intro b' hb'
              rw [hb] at hb'
              obtain rfl := Option.some.inj hb'
              rw [← hmemory]
              exact Nat.le_of_not_lt huses
            obtain ⟨hreduces, hlt⟩ := hd.inline hde hfind hin hfew
            refine hrest hreduces ?_ hmemory fun _ => hlt
            rw [hplan]
            exact CtePlan.modify_modify hname

theorem apply_proceeds (cutoff : ℕ) (memory : RuleMemory) (hc : p.find? n = some c) :
    Proceeds p cutoff n c memory (apply cutoff n memory p) := by
  unfold apply
  rw [hc]
  refine step_proceeds hc (fun parent hparent => ?_) ⟨rfl, .refl _, fun m hm => Or.inl hm⟩
    (CtePlan.modify_self hc).symm rfl fun h => absurd h Bool.false_ne_true
  obtain ⟨m, hm, hfind⟩ := List.mem_filterMap.1 (List.mem_of_mem_filter hparent)
  rw [(CtePlan.find?_some hfind).2]
  exact ⟨hm, hfind⟩

theorem Reduces.unregistered_le {cutoff : ℕ} {memory : RuleMemory} (h : Reduces p cutoff memory n c d) :
    (unregistered memory d).length ≤ (unregistered memory c).length := by
  rw [unregistered, unregistered, h.name]
  exact (h.parents.filter _).length_le

/-- a parent that is registered for a step counts for that step only -/
theorem unregistered_lt {memory memory' : RuleMemory} {m : String} (hname : d.name = n) (hm : m ∈ d.parents)
    (hnew : m ∉ memory.candidates.getD n ∅)
    (h : memory'.candidates = memory.candidates.insert n ((memory.candidates.getD n ∅).insert m)) :
    (unregistered memory' d).length < (unregistered memory d).length ∧
      ∀ e : Cte, e.name ≠ n → unregistered memory' e = unregistered memory e := by
  have hseen : ∀ k, memory'.candidates.getD k ∅ =
      if k = n then (memory.candidates.getD n ∅).insert m else memory.candidates.getD k ∅ := by
    intro k
    rw [h, SortedMap.getD_insert]
  constructor
  · rw [unregistered, unregistered, hname, hseen, if_pos rfl]
    refine length_filter_lt (fun k _ hk => ?_) hm (SortedSet.not_contains_iff.2 hnew) ?_
    · rw [SortedSet.not_contains_iff, SortedSet.mem_insert, not_or] at hk
      exact SortedSet.not_contains_iff.2 hk.2
    · rw [Bool.not_eq_false', SortedSet.contains_iff, SortedSet.mem_insert]
      exact Or.inl rfl
  · intro e he
    rw [unregistered, unregistered, hseen, if_neg he]

/-- a parent that was inlined is gone, and one that was registered is not outstanding any longer -/
theorem lightens (env : Environment) (s : OptimizerSettings) :
    Rule.Lightens env s .inlineDatasource (fun _ => True) outstanding := by
  intro n memory p hp hJ
  rw [Rule.apply]
  cases hc : p.find? n with
  | none =>
    rw [apply, hc]
    exact .unchanged hJ
  | some c =>
    have hname : c.name = n := (CtePlan.find?_some hc).2
    cases apply_proceeds s.inlineDatasourceCutoff memory hc with
    | @inlined d hd hplan hmemory hchanged =>
      have hparents := hd.parents.length_le
      have hunregistered := hd.unregistered_le
      refine ⟨fun _ _ => trivial, ?_, fun h => ?_⟩
      · rw [hplan, hmemory]
        exact CtePlan.weight_modify_le hp.distinct hc (Nat.add_le_add hparents hunregistered)
      · rw [hplan, hmemory]
        exact CtePlan.weight_modify_lt hp.distinct hc (Nat.add_lt_add_of_lt_of_le (hchanged h) hunregistered)
          fun _ _ _ => Nat.le_refl _
    | @registered d _ m _ hd hplan hm _ _ hnew hcandidates _ =>
      have hleft : m ∈ d.parents := (hd.gone m hm).resolve_right fun h => hnew h.registered
      obtain ⟨hlt, hothers⟩ := unregistered_lt (hd.name.trans hname) hleft hnew hcandidates
      refine .of_lt (fun _ _ => trivial) ?_
      rw [hplan]
      refine CtePlan.weight_modify_lt hp.distinct hc ?_ fun e he hne => ?_
      · exact Nat.add_lt_add_of_le_of_lt hd.parents.length_le (Nat.lt_of_lt_of_le hlt hd.unregistered_le)
      · rw [outstanding, outstanding, hothers e hne]

end InlineDatasource

/-- **every rule has weights by which its changes make a plan lighter** -/
theorem Rule.lightens (env : Environment) (s : OptimizerSettings) (r : Rule) (p : CtePlan) :
    ∃ J w, r.Lightens env s J w ∧ ∀ c ∈ p.ctes, J c := by
  cases r with
  | inlineDatasource => exact ⟨_, _, InlineDatasource.lightens env s, fun _ _ => trivial⟩
  | pushPredicate =>
    exact ⟨_, _, PushPredicate.lightens_push (p.ctes.flatMap fun c => Condition.termsOf c.condition),
      fun c hc t ht => List.mem_flatMap.2 ⟨c, hc, ht⟩⟩
  | dropPredicate => exact ⟨_, _, PushPredicate.lightens_drop, fun _ _ => trivial⟩
  | inlineConstant => exact ⟨_, _, InlineConstant.lightens, fun _ _ => trivial⟩
  | foldAggregate => exact ⟨_, _, FoldAggregate.lightens, fun _ _ => trivial⟩

end SemanticPlanner
