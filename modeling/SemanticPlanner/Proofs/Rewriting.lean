/-
What the optimizer does to a plan, as single rewrites.

  Rewrite             one change of a plan by a rule, with what the rule has checked
  apply_rewrites      a rule applied to a step rewrites the plan, perhaps several times, perhaps not at all
  Improves            a rewrite by an enabled rule, the unread steps dropped, or the steps listed anew
  optimizeBy_eq_ok      an optimized plan is improved from the plan that is left when roots have been returned
  optimizeBy_eq_error   without an answer, a limit was reached or the steps of an improved plan could not be listed

What the rules remember only decides which of the rewrites are made, so it does not occur here.
-/
import SemanticPlanner.Cte.Optimize
import SemanticPlanner.Proofs.Columns
import SemanticPlanner.Proofs.Steps

namespace SemanticPlanner

variable {env : Environment} {s : OptimizerSettings} {p q : CtePlan} {c d : Cte} {n x y : String}
variable {sort : Topological.Sorting}

/-! ## Source maps -/

/-- an entry of a map after insertions is from before or is one that was inserted -/
theorem SortedMap.get?_foldl_insert {α ν : Type} {k : α → String} {v : α → ν} {l : List α} {m : NameMap ν} {w : ν}
    (h : (l.foldl (fun m a => m.insert (k a) (v a)) m).get? x = some w) :
    m.get? x = some w ∨ ∃ a ∈ l, k a = x ∧ v a = w := by
  induction l generalizing m with
  | nil => exact Or.inl h
  | cons a l ih =>
    rcases ih h with h | ⟨b, hb, he⟩
    · rw [SortedMap.get?_insert] at h
      split at h
      · rename_i hk
        exact Or.inr ⟨a, List.mem_cons_self, hk.symm, Option.some.inj h⟩
      · exact Or.inl h
    · exact Or.inr ⟨b, List.mem_cons_of_mem _ hb, he⟩

namespace Cte

theorem maps_iff : c.Maps x y ↔ ∃ names, c.sourceMap.get? x = some names ∧ y ∈ names := by
  simp only [Maps, SortedMap.get?_eq_some_iff]

theorem maps_mapValues {f : String → List String → List String}
    (hd : d.sourceMap = c.sourceMap.mapValues f) :
    d.Maps x y ↔ ∃ names, (x, names) ∈ c.sourceMap.toList ∧ y ∈ f x names := by
  simp only [Maps, hd, SortedMap.mapValues, List.mem_map, Prod.mk.injEq]
  constructor
  · rintro ⟨_, ⟨e, he, rfl, rfl⟩, hy⟩
    exact ⟨e.2, he, hy⟩
  · rintro ⟨names, he, hy⟩
    exact ⟨_, ⟨_, he, rfl, rfl⟩, hy⟩

theorem mem_dropRuns {l : List String} : x ∈ dropRuns l ↔ x ∈ l := by
  induction l with
  | nil => simp [dropRuns]
  | cons a l ih =>
    rw [List.mem_cons, ← ih, dropRuns]
    split
    · rename_i h
      simp [h]
    · rename_i b rest h
      rw [h]
      split
      · rename_i hab
        simp [hab]
      · simp

theorem maps_replaceParent {old new : String} :
    (c.replaceParent old new).Maps x y ↔ c.Maps x old ∧ y = new ∨ c.Maps x y ∧ y ≠ old := by
  rw [maps_mapValues (f := fun _ l => dropRuns (l.map fun k => if k = old then new else k)) rfl]
  simp only [mem_dropRuns, List.mem_map]
  constructor
  · rintro ⟨names, hmem, k, hk, rfl⟩
    by_cases h : k = old
    · exact Or.inl ⟨⟨names, hmem, h ▸ hk⟩, if_pos h⟩
    · rw [if_neg h]
      exact Or.inr ⟨⟨names, hmem, hk⟩, h⟩
  · rintro (⟨⟨names, hmem, hk⟩, rfl⟩ | ⟨⟨names, hmem, hk⟩, hne⟩)
    · exact ⟨names, hmem, old, hk, if_pos rfl⟩
    · exact ⟨names, hmem, y, hk, if_neg hne⟩

end Cte

/-! ## Rewrites -/

/-- parents of a step inlined one after the other; all were found replaceable in the step as it was at first -/
inductive InlineDatasource.Inlined (p : CtePlan) (c : Cte) : Cte → Prop
  | none : Inlined p c c
  | next {d e parent : Cte} : Inlined p c d → parent ∈ p.ctes → parent.name ∈ c.parents →
      isReplaceable c parent = true → d.inlineParent parent = some e → Inlined p c e

/-- an address that is read, written as the value of its constant -/
inductive InlineConstant.Written (env : Environment) (c : Cte) : Cte → Prop
  | value {address : String} {v : Literal} : valueOf env c address = some v →
      Written env c { c with
        condition := c.condition.map fun t => t.inline address v
        constants := c.constants.insert address v
        sourceMap := c.sourceMap.insert address [] }

/-- the steps that hold constants only -/
def InlineConstant.constantSteps (p : CtePlan) : List String :=
  (p.ctes.filter fun x => decide (x.kind = .constant)).map Cte.name

/-- the plan with an aggregate folded into its parent -/
def FoldAggregate.fold (p : CtePlan) (c parent : Cte) : CtePlan :=
  { redirect (CtePlan.readersOf p.readers c.name) c.name parent.name (p.modify parent.name (absorb c)) with
    root := if p.root = c.name then parent.name else p.root }

/-- one change of a plan by a rule -/
inductive Rewrite (env : Environment) : Rule → CtePlan → CtePlan → Prop
  | inline {p : CtePlan} {name : String} {c d : Cte} : p.find? name = some c → InlineDatasource.Inlined p c d →
      Rewrite env .inlineDatasource p (p.modify name fun _ => d)
  | push {p : CtePlan} {name : String} {parent : Cte} {term : Condition} {readers : List String} :
      p.find? name = some parent → term.isScalar env ∅ = true →
      PushPredicate.accepts env p readers term parent = true →
      Rewrite env .pushPredicate p (p.modify name (PushPredicate.filterBy term))
  | drop {p : CtePlan} {name : String} {c : Cte} {condition : Condition} {unread : List String} :
      p.find? name = some c → c.datasources = [] → PushPredicate.redundancy p c condition = some unread →
      Rewrite env .dropPredicate p (p.modify name (PushPredicate.dropCondition unread))
  | write {p : CtePlan} {name : String} {c d : Cte} : p.find? name = some c →
      Relation.ReflTransGen (InlineConstant.Written env) c d →
      Rewrite env .inlineConstant p (p.modify name fun _ =>
        InlineConstant.dropParents (InlineConstant.unread (InlineConstant.constantSteps p) d) d)
  | fold {p : CtePlan} {name : String} {c parent : Cte} : p.find? name = some c →
      FoldAggregate.absorber env p.readers p c = some parent →
      Rewrite env .foldAggregate p (FoldAggregate.fold p c parent)

/-- rewrites by one rule, one after the other -/
abbrev Rewrites (env : Environment) (r : Rule) : CtePlan → CtePlan → Prop := Relation.ReflTransGen (Rewrite env r)

/-! ## The rules -/

namespace Cte

/-- to its readers a step is the same: in its name, in its columns, and in whether it groups -/
structure Alike (c d : Cte) : Prop where
  name : d.name = c.name
  outputs : d.outputs = c.outputs
  hidden : d.hidden = c.hidden
  grouped : d.grouped = c.grouped

/-- a step in which a datasource takes the place of a parent -/
structure Inlines (c : Cte) (parent : String) (b : Datasource) (e : Cte) : Prop where
  alike : c.Alike e
  condition : e.condition = c.condition
  sourceMap : e.sourceMap = c.sourceMap.mapValues fun _ l => l.map fun k => if k = parent then b.identifier else k
  joins : e.joins = c.joins.map (CteJoin.rename parent b.identifier)
  parents {m : String} : m ∈ e.parents ↔ m ∈ c.parents ∧ m ≠ parent
  own : ∀ a ∈ c.datasources, a ∈ e.datasources
  added : ∀ a ∈ e.datasources, a ∈ c.datasources ∨ a = b
  there : ∃ a ∈ e.datasources, a.identifier = b.identifier

theorem inlineParent_some {parent e : Cte} (h : c.inlineParent parent = some e) :
    ∃ b, parent.bareDatasource = some b ∧ c.Inlines parent.name b e := by
  unfold inlineParent at h
  split at h
  · cases h
  · rename_i b hb
    split at h
    · cases h
    · cases h
      refine ⟨b, hb, ⟨rfl, rfl, rfl, rfl⟩, rfl, rfl, rfl, by simp, fun a ha => ?_, fun a ha => ?_, ?_⟩
      · dsimp only
        split
        · exact ha
        · exact List.mem_append_left _ ha
      · dsimp only at ha
        split at ha
        · exact Or.inl ha
        · simpa using ha
      · dsimp only
        split
        · rename_i hany
          obtain ⟨a, ha, he⟩ := List.any_eq_true.1 hany
          exact ⟨a, ha, eq_of_beq he⟩
        · exact ⟨b, by simp, rfl⟩

end Cte

namespace InlineDatasource

theorem Inlined.alike (h : Inlined p c d) : c.Alike d := by
  induction h with
  | none => exact ⟨rfl, rfl, rfl, rfl⟩
  | next _ _ _ _ he ih =>
    obtain ⟨b, -, h⟩ := Cte.inlineParent_some he
    exact ⟨h.alike.name.trans ih.name, h.alike.outputs.trans ih.outputs, h.alike.hidden.trans ih.hidden,
      h.alike.grouped.trans ih.grouped⟩

/-- the steps met so far leave the plan with the parents of the visited step inlined -/
theorem step_inlined {cutoff : Nat} (hc : p.find? n = some c) {parents : List Cte}
    (hparents : ∀ parent ∈ parents, parent ∈ p.ctes ∧ parent.name ∈ c.parents ∧ isReplaceable c parent = true)
    {r : Revision} (hr : ∃ d, Inlined p c d ∧ r.plan = p.modify n fun _ => d) :
    ∃ d, Inlined p c d ∧ (step cutoff n parents r).plan = p.modify n fun _ => d := by
  induction parents generalizing r with
  | nil => exact hr
  | cons parent rest ih =>
    have hrest := @ih fun e he => hparents e (List.mem_cons_of_mem _ he)
    rw [step]
    dsimp only
    split
    · exact hrest hr
    · split
      · exact hr
      · split
        · exact hrest hr
        · split
          · exact hrest hr
          · rename_i e he
            obtain ⟨d, hd, hplan⟩ := hr
            obtain ⟨d', hd', hde⟩ := Option.bind_eq_some_iff.1 he
            have hname : d.name = n := hd.alike.name.trans (CtePlan.find?_some hc).2
            rw [hplan, CtePlan.find?_modify hc hname, if_pos rfl] at hd'
            cases hd'
            obtain ⟨hmem, hparent, hreplaceable⟩ := hparents parent List.mem_cons_self
            refine hrest ⟨e, hd.next hmem hparent hreplaceable hde, ?_⟩
            rw [hplan]
            exact CtePlan.modify_modify hname

/-- an application exchanges one step for itself with parents inlined, or does nothing -/
theorem apply_cases (cutoff : Nat) (n : String) (memory : RuleMemory) (p : CtePlan) :
    apply cutoff n memory p = .unchanged memory p ∨ ∃ c d, p.find? n = some c ∧ Inlined p c d ∧
      (apply cutoff n memory p).plan = p.modify n fun _ => d := by
  unfold apply
  split
  · exact Or.inl rfl
  · rename_i c hc
    have hparents : ∀ parent ∈ (c.parents.filterMap p.find?).filter (isReplaceable c),
        parent ∈ p.ctes ∧ parent.name ∈ c.parents ∧ isReplaceable c parent = true := by
      intro parent hparent
      obtain ⟨hfound, hreplaceable⟩ := List.mem_filter.1 hparent
      obtain ⟨m, hm, hfind⟩ := List.mem_filterMap.1 hfound
      obtain ⟨hmem, rfl⟩ := CtePlan.find?_some hfind
      exact ⟨hmem, hm, hreplaceable⟩
    have hself : p = p.modify n fun _ => c := (CtePlan.modify_self hc).symm
    obtain ⟨d, hd, hplan⟩ := step_inlined hc hparents (r := .unchanged memory p) ⟨c, .none, hself⟩
    exact Or.inr ⟨c, d, hc, hd, hplan⟩

theorem apply_rewrites {cutoff : Nat} {memory : RuleMemory} :
    Rewrites env .inlineDatasource p (apply cutoff n memory p).plan := by
  rcases apply_cases cutoff n memory p with he | ⟨c, d, hc, hd, he⟩
  · rw [he]
    exact .refl
  · rw [he]
    exact .single (.inline hc hd)

end InlineDatasource

namespace PushPredicate

theorem offers_rewrites {readers : Readers} {offers : List (Condition × String)}
    (h : ∀ e ∈ offers, e.1.isScalar env ∅ = true) (r : Revision) :
    Rewrites env .pushPredicate r.plan (offers.foldl (offer env readers) r).plan := by
  induction offers generalizing r with
  | nil => exact .refl
  | cons e rest ih =>
    rw [List.foldl_cons]
    refine .trans ?_ (ih (fun t ht => h t (List.mem_cons_of_mem _ ht)) _)
    unfold offer
    split
    · exact .refl
    · rename_i parent hparent
      split
      · rename_i haccepts
        exact .single (.push hparent (h e List.mem_cons_self) haccepts)
      · exact .refl

theorem apply_rewrites {readers : Readers} {memory : RuleMemory} :
    Rewrites env .pushPredicate p (apply env readers n memory p).plan := by
  unfold apply
  split
  · exact .refl
  · split
    · exact .refl
    · split
      · exact .refl
      · refine offers_rewrites (fun e he => ?_) (.unchanged memory p)
        obtain ⟨t, ht, hq⟩ := List.mem_flatMap.1 he
        obtain ⟨m, -, rfl⟩ := List.mem_map.1 hq
        have hmovable := (List.mem_filter.1 ht).2
        rw [Bool.and_eq_true] at hmovable
        exact hmovable.1

/-- an application drops one condition, or does nothing -/
theorem applyRemoval_cases (n : String) (memory : RuleMemory) (p : CtePlan) :
    applyRemoval n memory p = .unchanged memory p ∨ ∃ c t unread, p.find? n = some c ∧ c.condition = some t ∧
      c.datasources = [] ∧ redundancy p c t = some unread ∧
      applyRemoval n memory p = ⟨true, memory, p.modify n (dropCondition unread)⟩ := by
  unfold applyRemoval
  split
  · exact Or.inl rfl
  · rename_i c hc
    split
    · exact Or.inl rfl
    · rename_i t ht
      split
      · exact Or.inl rfl
      · rename_i hown
        split
        · exact Or.inl rfl
        · rename_i unread hunread
          have hnone : c.datasources = [] := by simp_all
          exact Or.inr ⟨c, t, unread, hc, ht, hnone, hunread, rfl⟩

theorem applyRemoval_rewrites {memory : RuleMemory} :
    Rewrites env .dropPredicate p (applyRemoval n memory p).plan := by
  rcases applyRemoval_cases n memory p with he | ⟨c, t, unread, hc, -, hnone, hunread, he⟩
  · rw [he]
    exact .refl
  · rw [he]
    exact .single (.drop hc hnone hunread)

end PushPredicate

namespace InlineConstant

theorem inlineInput_written (e : Bool × Cte) (address : String) :
    inlineInput env e address = e ∨
      ∃ d, Written env e.2 d ∧ inlineInput env e address = (true, d) := by
  unfold inlineInput
  split
  · exact Or.inl rfl
  · rename_i v hv
    exact Or.inr ⟨_, .value hv, rfl⟩

/-- inputs are written as values, and at least one where this is reported -/
theorem foldl_written (inputs : List String) {e : Bool × Cte} (h : e.1 = true → Relation.TransGen (Written env) c e.2)
    (h' : Relation.ReflTransGen (Written env) c e.2) :
    (inputs.foldl (inlineInput env) e).1 = true →
      Relation.TransGen (Written env) c (inputs.foldl (inlineInput env) e).2 := by
  induction inputs generalizing e with
  | nil => exact h
  | cons address rest ih =>
    rw [List.foldl_cons]
    rcases inlineInput_written e address with he | ⟨d, hd, he⟩
    · rw [he]
      exact ih h h'
    · rw [he]
      exact ih (fun _ => .tail' h' hd) (h'.tail hd)

/-- an application writes inputs of one step as their values and detaches what is no longer read, or does nothing -/
theorem apply_cases (env : Environment) (n : String) (memory : RuleMemory) (p : CtePlan) :
    apply env n memory p = .unchanged memory p ∨ ∃ c d, p.find? n = some c ∧ Relation.TransGen (Written env) c d ∧
      apply env n memory p = ⟨true, memory, p.modify n fun _ => dropParents (unread (constantSteps p) d) d⟩ := by
  unfold apply
  split
  · exact Or.inl rfl
  · rename_i c hc
    dsimp only
    split
    · rename_i hchanged
      exact Or.inr ⟨c, _, hc, foldl_written c.inputs (fun h => absurd h Bool.false_ne_true) .refl hchanged, rfl⟩
    · exact Or.inl rfl

theorem apply_rewrites {memory : RuleMemory} : Rewrites env .inlineConstant p (apply env n memory p).plan := by
  rcases apply_cases env n memory p with he | ⟨c, d, hc, hd, he⟩
  · rw [he]
    exact .refl
  · rw [he]
    exact .single (.write hc hd.to_reflTransGen)

end InlineConstant

namespace FoldAggregate

@[simp] theorem root_redirect (readers : List String) (old new : String) (p : CtePlan) :
    (redirect readers old new p).root = p.root := by
  unfold redirect
  induction readers generalizing p with
  | nil => rfl
  | cons reader rest ih => exact ih _

/-- an application folds one aggregate, which was not folded before, or does nothing -/
theorem apply_cases (env : Environment) (n : String) (memory : RuleMemory) (p : CtePlan) :
    apply env p.readers n memory p = .unchanged memory p ∨ ∃ c parent, p.find? n = some c ∧
      absorber env p.readers p c = some parent ∧ n ∉ memory.folded ∧
      apply env p.readers n memory p =
        ⟨true, { memory with folded := memory.folded.insert n }, fold p c parent⟩ := by
  unfold apply
  split
  · exact Or.inl rfl
  · rename_i hnew
    split
    · exact Or.inl rfl
    · rename_i c hc
      split
      · exact Or.inl rfl
      · rename_i parent hparent
        refine Or.inr ⟨c, parent, hc, hparent, SortedSet.contains_iff.not.1 hnew, ?_⟩
        dsimp only
        rw [root_redirect, fold, (CtePlan.find?_some hc).2]
        rfl

theorem apply_rewrites {memory : RuleMemory} :
    Rewrites env .foldAggregate p (apply env p.readers n memory p).plan := by
  rcases apply_cases env n memory p with he | ⟨c, parent, hc, hparent, -, he⟩
  · rw [he]
    exact .refl
  · rw [he]
    exact .single (.fold hc hparent)

end FoldAggregate

/-- **a rule applied to a step rewrites the plan** -/
theorem Rule.apply_rewrites (r : Rule) {memory : RuleMemory} : Rewrites env r p (r.apply s env n memory p).plan := by
  cases r with
  | inlineDatasource => exact InlineDatasource.apply_rewrites
  | pushPredicate => exact PushPredicate.apply_rewrites
  | dropPredicate => exact PushPredicate.applyRemoval_rewrites
  | inlineConstant => exact InlineConstant.apply_rewrites
  | foldAggregate => exact FoldAggregate.apply_rewrites

/-- one application of a rule, to some step, whatever the rule remembers -/
def Rule.Applies (env : Environment) (s : OptimizerSettings) (r : Rule) (p q : CtePlan) : Prop :=
  ∃ name memory, q = (r.apply s env name memory p).plan

/-- a rule applied to steps in turn, each time to the plan as it is by then -/
def Rule.applyAll (r : Rule) (s : OptimizerSettings) (env : Environment) (names : List String) (w : Revision) :
    Revision :=
  names.foldl (fun w name => r.apply s env name w.memory w.plan) w

theorem Rule.applyAll_applies (r : Rule) (s : OptimizerSettings) (env : Environment) (names : List String)
    (w : Revision) :
    Relation.ReflTransGen (r.Applies env s) w.plan (r.applyAll s env names w).plan := by
  induction names generalizing w with
  | nil => exact .refl
  | cons name rest ih => exact .head ⟨name, w.memory, rfl⟩ (ih _)

/-! ## Runs of rules -/

namespace CtePlan

/-- an enabled rule rewrites the plan, the unread steps are dropped, or the steps are listed anew -/
inductive Improves (sort : Topological.Sorting) (env : Environment) (s : OptimizerSettings) :
    CtePlan → CtePlan → Prop
  | rewrite {r : Rule} {p q : CtePlan} : r.isEnabled s = true → Rewrite env r p q → Improves sort env s p q
  | prune (p : CtePlan) : Improves sort env s p p.prune
  | reorder {p q : CtePlan} : p.reorderBy sort = .ok q → Improves sort env s p q

/-- improvements one after the other -/
abbrev ImprovesTo (sort : Topological.Sorting) (env : Environment) (s : OptimizerSettings) :
    CtePlan → CtePlan → Prop :=
  Relation.ReflTransGen (Improves sort env s)

/-- an improved plan, a limit that was reached, or an improved plan whose steps cannot be listed -/
def Outcome (sort : Topological.Sorting) (env : Environment) (s : OptimizerSettings) (p : CtePlan) :
    Except PlanningError CtePlan → Prop
  | .ok q => ImprovesTo sort env s p q
  | .error e => (∃ what limit, e = .iterationLimit what limit) ∨
      ∃ q, ImprovesTo sort env s p q ∧ q.prune.reorderBy sort = .error e

theorem improvesTo_of_rewrites {r : Rule} (hr : r.isEnabled s = true) (h : Rewrites env r p q) :
    ImprovesTo sort env s p q :=
  Relation.ReflTransGen.mono (fun _ _ hpq => Improves.rewrite hr hpq) _ _ h

theorem visit_rewrites (r : Rule) (w : Revision) (n : String) :
    Rewrites env r w.plan (visit r s env w n).plan := by
  unfold visit
  split
  · exact .refl
  · exact r.apply_rewrites

theorem pass_rewrites (r : Rule) (memory : RuleMemory) (p : CtePlan) :
    Rewrites env r p (pass r s env memory p).plan := by
  have hfold : ∀ (names : List String) (w : Revision),
      Rewrites env r w.plan (names.foldl (visit r s env) w).plan := by
    intro names
    induction names with
    | nil => exact fun w => .refl
    | cons n rest ih => exact fun w => (visit_rewrites r w n).trans (ih _)
  exact hfold p.visitOrder (.unchanged memory p)

/-- a rule improves a plan, pass by pass -/
theorem runRule_outcome {r : Rule} (hr : r.isEnabled s = true) {b : CtePlan} (fuel : Nat) (memory : RuleMemory)
    (h : ImprovesTo sort env s b p) : Outcome sort env s b (runRule sort r s env fuel memory p) := by
  induction fuel generalizing memory p with
  | zero => exact Or.inl ⟨_, _, rfl⟩
  | succ fuel ih =>
    rw [runRule]
    have hpass : ImprovesTo sort env s b (pass r s env memory p).plan :=
      h.trans (improvesTo_of_rewrites hr (pass_rewrites r memory p))
    cases hq : (pass r s env memory p).plan.prune.reorderBy sort with
    | error e => exact Or.inr ⟨_, hpass, hq⟩
    | ok q =>
      have himproved : ImprovesTo sort env s b q := (hpass.tail (.prune _)).tail (.reorder hq)
      show Outcome sort env s b (if _ then _ else _)
      split
      · exact ih _ himproved
      · exact himproved

theorem foldlM_outcome {b : CtePlan} (rules : List Rule) (hrules : ∀ r ∈ rules, r.isEnabled s = true)
    (h : ImprovesTo sort env s b p) :
    Outcome sort env s b (rules.foldlM (fun p r => runRule sort r s env s.maxLoops {} p) p) := by
  induction rules generalizing p with
  | nil => exact h
  | cons r rest ih =>
    rw [List.foldlM_cons]
    have hrun := runRule_outcome (hrules r List.mem_cons_self) s.maxLoops {} h
    cases hq : runRule sort r s env s.maxLoops {} p with
    | error e =>
      rw [hq] at hrun
      exact hrun
    | ok q =>
      rw [hq] at hrun
      exact ih (fun t ht => hrules t (List.mem_cons_of_mem _ ht)) hrun

/-! ## The whole optimizer -/

/-- the root is dropped in favour of its single parent -/
def Returns (env : Environment) (p q : CtePlan) : Prop := ∃ n, p.directParent env = some n ∧ q = p.collapse n

/-- the plan that the rules start from: where roots are returned, what the last of them reads -/
inductive Started (env : Environment) (s : OptimizerSettings) (p : CtePlan) : CtePlan → Prop
  | asGiven : s.directReturn = false → Started env s p p
  | returned {q : CtePlan} : s.directReturn = true → Relation.ReflTransGen (Returns env) p q → Started env s p q.prune

theorem returnDirectly_eq_ok {limit fuel : Nat} (h : returnDirectly env limit fuel p = .ok q) :
    Relation.ReflTransGen (Returns env) p q := by
  induction fuel generalizing p with
  | zero =>
    rw [returnDirectly] at h
    split at h
    · cases h
      exact .refl
    · cases h
  | succ fuel ih =>
    rw [returnDirectly] at h
    split at h
    · cases h
      exact .refl
    · rename_i n hn
      exact .head ⟨n, hn, rfl⟩ (ih h)

theorem returnDirectly_eq_error {limit fuel : Nat} {e : PlanningError}
    (h : returnDirectly env limit fuel p = .error e) : e = .iterationLimit "direct return" limit := by
  induction fuel generalizing p with
  | zero =>
    rw [returnDirectly] at h
    split at h
    · cases h
    · cases h
      rfl
  | succ fuel ih =>
    rw [returnDirectly] at h
    split at h
    · cases h
    · exact ih h

/-- what the optimizer does, stage by stage -/
theorem optimizeBy_cases (sort : Topological.Sorting) (env : Environment) (s : OptimizerSettings) (p : CtePlan) :
    (∃ what limit, optimizeBy sort env s p = .error (.iterationLimit what limit)) ∨
      ∃ b, Started env s p b ∧ ∃ x, Outcome sort env s b x ∧
        optimizeBy sort env s p = x >>= fun q => q.prune.reorderBy sort := by
  have hrules : ∀ r ∈ Rule.all.filter (Rule.isEnabled s), r.isEnabled s = true := fun r hr => (List.mem_filter.1 hr).2
  unfold optimizeBy
  cases hdirect : s.directReturn with
  | false => exact Or.inr ⟨p, .asGiven hdirect, _, foldlM_outcome _ hrules .refl, rfl⟩
  | true =>
    cases hq : returnDirectly env s.maxLoops s.maxLoops p with
    | error e =>
      rw [returnDirectly_eq_error hq]
      exact Or.inl ⟨_, _, rfl⟩
    | ok q =>
      exact Or.inr ⟨q.prune, .returned hdirect (returnDirectly_eq_ok hq), _, foldlM_outcome _ hrules .refl, rfl⟩

/-- **an optimized plan is improved from the plan that the rules start from** -/
theorem optimizeBy_eq_ok (h : optimizeBy sort env s p = .ok q) :
    ∃ b r, Started env s p b ∧ ImprovesTo sort env s b r ∧ r.prune.reorderBy sort = .ok q := by
  rcases optimizeBy_cases sort env s p with ⟨_, _, he⟩ | ⟨b, hb, x, hx, he⟩
  · rw [he] at h
    cases h
  · rw [he] at h
    cases x with
    | error e => cases h
    | ok r => exact ⟨b, r, hb, hx, h⟩

/-- one step of the optimizer: the root is returned, or the plan improved -/
inductive Advances (sort : Topological.Sorting) (env : Environment) (s : OptimizerSettings) :
    CtePlan → CtePlan → Prop
  | returned {p q : CtePlan} : s.directReturn = true → Returns env p q → Advances sort env s p q
  | improved {p q : CtePlan} : Improves sort env s p q → Advances sort env s p q

/-- an optimized plan is reached step by step -/
theorem optimizeBy_advances (h : optimizeBy sort env s p = .ok q) : Relation.ReflTransGen (Advances sort env s) p q := by
  obtain ⟨b, r, hb, hr, hlist⟩ := optimizeBy_eq_ok h
  have hstart : Relation.ReflTransGen (Advances sort env s) p b := by
    cases hb with
    | asGiven => exact .refl
    | returned hon hreturns =>
      exact .tail (Relation.ReflTransGen.mono (fun _ _ => .returned hon) _ _ hreturns) (.improved (.prune _))
  have hend : ImprovesTo sort env s b q := (hr.tail (.prune r)).tail (.reorder hlist)
  exact hstart.trans (Relation.ReflTransGen.mono (fun _ _ => .improved) _ _ hend)

/-- a plan of which something was computed was optimized -/
theorem exists_optimized {α : Type} {f : CtePlan → α} {v : α} (h : (optimize env s p).toOption.map f = some v) :
    ∃ q, optimize env s p = .ok q ∧ f q = v := by
  cases hq : optimize env s p with
  | error e =>
    rw [hq] at h
    cases h
  | ok q =>
    rw [hq] at h
    exact ⟨q, rfl, Option.some.inj h⟩

/-- **without an answer, a limit was reached or the steps of an improved plan could not be listed** -/
theorem optimizeBy_eq_error {e : PlanningError} (h : optimizeBy sort env s p = .error e) :
    (∃ what limit, e = .iterationLimit what limit) ∨
      ∃ b r, Started env s p b ∧ ImprovesTo sort env s b r ∧ r.prune.reorderBy sort = .error e := by
  rcases optimizeBy_cases sort env s p with ⟨what, limit, he⟩ | ⟨b, hb, x, hx, he⟩
  · rw [he] at h
    cases h
    exact Or.inl ⟨what, limit, rfl⟩
  · rw [he] at h
    cases x with
    | error e' =>
      cases h
      exact hx.imp_right fun ⟨r, hr, her⟩ => ⟨b, r, hb, hr, her⟩
    | ok r => exact Or.inr ⟨b, r, hb, hx, h⟩

end CtePlan

end SemanticPlanner
