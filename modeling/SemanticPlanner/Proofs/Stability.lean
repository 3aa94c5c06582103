/-
Optimizing an optimized plan once more.

  runRule_last         a rule that ends has made a last pass, which changed nothing
  Finished             no constant is left to write and no aggregate to fold, as far as the rules for them are enabled
  optimizeBy_finished  an optimized plan is finished
  runEnabled_finished  these two rules only list the steps of a finished plan anew
  Turned               what the rules before them can make of a step: it is the same, or differs for good
  optimizeBy_again     the second run gives the plan back exactly where no root can be returned and the rules that run
                       first leave it as it is

The rules for constants and for aggregates run last, and neither gives the other anything to do, so they are done after
one run. What they do, though, can give the others something to do, and what the rule for datasources counts begins anew
with each run (`optimize_again_left_over`).
-/
import SemanticPlanner.Proofs.Convergence
import SemanticPlanner.Proofs.DroppedFilters
import SemanticPlanner.Proofs.OptimizedRoot

namespace SemanticPlanner

variable {env : Environment} {s : OptimizerSettings} {p q a : CtePlan} {c d parent : Cte} {n : String} {r : Rule}
  {memory : RuleMemory} {fuel : ℕ} {sort : Topological.Sorting}

namespace CtePlan

/-! ## Stages -/

/-- the plan in which roots have been returned, where they are at all -/
def started (env : Environment) (s : OptimizerSettings) (p : CtePlan) : Except PlanningError CtePlan :=
  if s.directReturn then prune <$> returnDirectly env s.maxLoops s.maxLoops p else .ok p

/-- those of the rules that are enabled, each run to its end -/
def runEnabled (sort : Topological.Sorting) (env : Environment) (s : OptimizerSettings) (rules : List Rule)
    (p : CtePlan) : Except PlanningError CtePlan :=
  (rules.filter (Rule.isEnabled s)).foldlM (fun p r => runRule sort r s env s.maxLoops {} p) p

theorem optimizeBy_eq : optimizeBy sort env s p =
    started env s p >>= fun b => runEnabled sort env s Rule.all b >>= fun a => a.prune.reorderBy sort := by
  unfold optimizeBy started
  cases s.directReturn with
  | false => rfl
  | true => rfl

theorem runEnabled_append (rules rules' : List Rule) (p : CtePlan) :
    runEnabled sort env s (rules ++ rules') p = runEnabled sort env s rules p >>= runEnabled sort env s rules' := by
  unfold runEnabled
  rw [List.filter_append, List.foldlM_append]

theorem runEnabled_singleton (r : Rule) (p : CtePlan) :
    runEnabled sort env s [r] p = if r.isEnabled s then runRule sort r s env s.maxLoops {} p else .ok p := by
  unfold runEnabled
  cases hr : r.isEnabled s with
  | false =>
    rw [List.filter_cons_of_neg (by rw [hr]; exact Bool.false_ne_true)]
    rfl
  | true =>
    rw [List.filter_cons_of_pos hr]
    exact bind_pure _

/-! ## Plans without unread steps -/

/-- a well-formed plan of which the root reads every step -/
structure Tidy (p : CtePlan) : Prop where
  wellFormed : p.WellFormed
  live : ∀ c ∈ p.ctes, p.Live c.name

theorem WellFormed.tidy_prune (hp : p.WellFormed) : p.prune.Tidy :=
  ⟨hp.prune, fun _ hc => (live_prune hp).2 ((mem_reachable hp).1 (mem_prune.1 hc).2)⟩

theorem Tidy.prune_eq (hp : p.Tidy) : p.prune = p := by
  have hall : p.ctes.filter (fun c => p.reachable.contains c.name) = p.ctes := by
    refine List.filter_eq_self.2 fun c hc => ?_
    exact SortedSet.contains_iff.2 ((mem_reachable hp.wellFormed).2 (hp.live c hc))
  show (⟨p.ctes.filter fun c => p.reachable.contains c.name, p.root⟩ : CtePlan) = p
  rw [hall]

theorem Relists.tidy (h : p.Relists q) (hp : p.Tidy) : q.Tidy :=
  ⟨h.wellFormed hp.wellFormed, fun c hc => h.live.2 (hp.live c (h.mem.1 hc))⟩

theorem Relists.refl (h : ParentsFirst p.ctes) : p.Relists p := ⟨rfl, .refl _, h⟩

theorem Relists.trans {b : CtePlan} (h : p.Relists q) (h' : q.Relists b) : p.Relists b :=
  ⟨h'.root.trans h.root, h'.perm.trans h.perm, h'.parentsFirst⟩

/-- a plan without unread steps is only listed anew -/
theorem Tidy.reorder (hsort : Topological.IsSort sort) (hp : p.Tidy) :
    ∃ q, p.prune.reorderBy sort = .ok q ∧ p.Relists q := by
  obtain ⟨q, hq, hroot, hperm, hfirst⟩ := reorderBy_eq_ok hsort hp.wellFormed
  exact ⟨q, hp.prune_eq.symm ▸ hq, hroot, hperm, hfirst⟩

/-! ## The last pass -/

theorem pass_listed (hsort : Topological.IsSort sort) (r : Rule) (s : OptimizerSettings) (env : Environment)
    (memory : RuleMemory) (hp : p.WellFormed) :
    ∃ q, (pass r s env memory p).plan.prune.reorderBy sort = .ok q ∧ (pass r s env memory p).plan.prune.Relists q ∧
      q.Tidy := by
  have hpassed : (pass r s env memory p).plan.WellFormed := hp.rewrites (pass_rewrites r memory p)
  obtain ⟨q, hq, hroot, hperm, hfirst⟩ := reorderBy_eq_ok hsort hpassed.prune
  have hlist : (pass r s env memory p).plan.prune.Relists q := ⟨hroot, hperm, hfirst⟩
  exact ⟨q, hq, hlist, hlist.tidy hpassed.tidy_prune⟩

/-- **a rule that ends has made a last pass, which changed nothing**; what every pass keeps of the plan and of what the rule
remembers holds before it -/
theorem runRule_last (hsort : Topological.IsSort sort) {K : RuleMemory → CtePlan → Prop}
    (hpass : ∀ memory p q, p.Tidy → K memory p → (pass r s env memory p).plan.prune.Relists q →
      K (pass r s env memory p).memory q)
    (hp : p.Tidy) (hK : K memory p) (h : runRule sort r s env fuel memory p = .ok q) :
    ∃ memory' p', p'.Tidy ∧ K memory' p' ∧ (pass r s env memory' p').changed = false ∧
      (pass r s env memory' p').plan.prune.Relists q := by
  induction fuel generalizing memory p with
  | zero => cases h
  | succ fuel ih =>
    obtain ⟨b, hb, hlist, htidy⟩ := pass_listed hsort r s env memory hp.wellFormed
    rw [runRule_succ hb] at h
    split at h
    · exact ih htidy (hpass memory p b hp hK hlist) h
    · rename_i hchanged
      cases h
      exact ⟨memory, p, hp, hK, Bool.eq_false_iff.2 hchanged, hlist⟩

/-- a rule leaves no unread steps, and lists parents first -/
theorem runRule_listed (hsort : Topological.IsSort sort) (hp : p.Tidy)
    (h : runRule sort r s env fuel memory p = .ok q) : q.Tidy ∧ ParentsFirst q.ctes := by
  obtain ⟨memory', p', hp', -, -, hlist⟩ :=
    runRule_last hsort (K := fun _ _ => True) (fun _ _ _ _ _ _ => trivial) hp trivial h
  exact ⟨hlist.tidy (hp'.wellFormed.rewrites (pass_rewrites r memory' p')).tidy_prune, hlist.parentsFirst⟩

/-- what the rewrites of a rule keep of every step holds of the steps that it leaves -/
theorem runRule_steps (hsort : Topological.IsSort sort) {J : Cte → Prop}
    (hrewrite : ∀ p q, p.WellFormed → (∀ c ∈ p.ctes, J c) → Rewrite env r p q → ∀ c ∈ q.ctes, J c)
    (hp : p.Tidy) (hJ : ∀ c ∈ p.ctes, J c) (h : runRule sort r s env fuel memory p = .ok q) : ∀ c ∈ q.ctes, J c := by
  have hpassed : ∀ memory p, p.Tidy → (∀ c ∈ p.ctes, J c) → ∀ c ∈ (pass r s env memory p).plan.ctes, J c := by
    intro memory p hp hJ
    have hall : ∀ b, Rewrites env r p b → b.WellFormed ∧ ∀ c ∈ b.ctes, J c := by
      intro b hb
      induction hb with
      | refl => exact ⟨hp.wellFormed, hJ⟩
      | tail _ hr ih => exact ⟨ih.1.rewrites (.single hr), hrewrite _ _ ih.1 ih.2 hr⟩
    exact (hall _ (pass_rewrites r memory p)).2
  obtain ⟨memory', p', hp', hJ', -, hlist⟩ := runRule_last hsort (K := fun _ p => ∀ c ∈ p.ctes, J c)
    (fun memory p q hp hJ hlist c hc => hpassed memory p hp hJ c (mem_prune.1 (hlist.mem.1 hc)).1) hp hJ h
  exact fun c hc => hpassed memory' p' hp' hJ' c (mem_prune.1 (hlist.mem.1 hc)).1

end CtePlan

/-! ## Rules that have nothing to do -/

/-- an application that reports no change has made none, neither to the plan nor to what is remembered -/
def Rule.Quiet (env : Environment) (s : OptimizerSettings) (r : Rule) : Prop :=
  ∀ n memory p, (r.apply s env n memory p).changed = false → r.apply s env n memory p = .unchanged memory p

theorem InlineConstant.quiet : Rule.Quiet env s .inlineConstant := by
  intro n memory p h
  rcases apply_cases env n memory p with he | ⟨c, d, -, -, he⟩
  · exact he
  · rw [Rule.apply, he] at h
    cases h

theorem FoldAggregate.quiet : Rule.Quiet env s .foldAggregate := by
  intro n memory p h
  rcases apply_cases env n memory p with he | ⟨c, parent, -, -, -, he⟩
  · exact he
  · rw [Rule.apply, he] at h
    cases h

namespace CtePlan

theorem visits_changed (names : List String) {t : Revision} (h : t.changed = true) :
    (names.foldl (visit r s env) t).changed = true := by
  induction names generalizing t with
  | nil => exact h
  | cons n rest ih =>
    refine ih ?_
    unfold visit
    split
    · exact h
    · show (t.changed || _) = true
      rw [h, Bool.true_or]

theorem visit_still (h : r.apply s env n memory p = .unchanged memory p) :
    visit r s env (.unchanged memory p) n = .unchanged memory p := by
  unfold visit
  split
  · rfl
  · show Revision.mk (false || (r.apply s env n memory p).changed) (r.apply s env n memory p).memory
      (r.apply s env n memory p).plan = .unchanged memory p
    rw [h]
    rfl

/-- a pass that reports no change has met no step that there was something to do for -/
theorem pass_quiet (hr : r.Quiet env s) (h : (pass r s env memory p).changed = false) :
    pass r s env memory p = .unchanged memory p ∧
      ∀ c ∈ p.ctes, r.apply s env c.name memory p = .unchanged memory p := by
  have hvisits : ∀ names : List String, (names.foldl (visit r s env) (.unchanged memory p)).changed = false →
      names.foldl (visit r s env) (.unchanged memory p) = .unchanged memory p ∧
        ∀ n ∈ names, (p.find? n).isSome → r.apply s env n memory p = .unchanged memory p := by
    intro names
    induction names with
    | nil => exact fun _ => ⟨rfl, fun _ hn => absurd hn List.not_mem_nil⟩
    | cons n rest ih =>
      intro h
      rw [List.foldl_cons] at h ⊢
      have hfirst : (visit r s env (.unchanged memory p) n).changed = false := by
        rw [Bool.eq_false_iff]
        intro hchanged
        rw [visits_changed rest hchanged] at h
        cases h
      have hn : visit r s env (.unchanged memory p) n = .unchanged memory p ∧
          ((p.find? n).isSome → r.apply s env n memory p = .unchanged memory p) := by
        cases hfind : p.find? n with
        | none =>
          unfold visit
          rw [show (Revision.unchanged memory p).plan.find? n = none from hfind]
          exact ⟨rfl, fun h => absurd h Bool.false_ne_true⟩
        | some c =>
          unfold visit at hfirst
          rw [show (Revision.unchanged memory p).plan.find? n = some c from hfind] at hfirst
          have happly : r.apply s env n memory p = .unchanged memory p := hr n memory p hfirst
          exact ⟨visit_still happly, fun _ => happly⟩
      rw [hn.1] at h ⊢
      obtain ⟨hrest, hothers⟩ := ih h
      refine ⟨hrest, fun m hm => ?_⟩
      rcases List.mem_cons.1 hm with rfl | hm
      · exact hn.2
      · exact hothers m hm
  obtain ⟨hsame, hnames⟩ := hvisits p.visitOrder h
  refine ⟨hsame, fun c hc => hnames c.name ?_ ?_⟩
  · unfold visitOrder
    by_cases hroot : c.name = p.root
    · rw [hroot]
      exact List.mem_cons_self
    · refine List.mem_cons_of_mem _ (List.mem_filter.2 ⟨List.mem_reverse.2 (name_mem hc), ?_⟩)
      exact bne_iff_ne.2 hroot
  · obtain ⟨d, hd⟩ := exists_find? (name_mem hc)
    rw [hd]
    rfl

theorem pass_still (h : ∀ n, r.apply s env n memory p = .unchanged memory p) :
    pass r s env memory p = .unchanged memory p := by
  have hvisits : ∀ names : List String, names.foldl (visit r s env) (.unchanged memory p) = .unchanged memory p := by
    intro names
    induction names with
    | nil => rfl
    | cons n rest ih => rw [List.foldl_cons, visit_still (h n), ih]
  exact hvisits p.visitOrder

/-- a rule that has nothing to do for any step lists the steps anew -/
theorem runRule_still (hsort : Topological.IsSort sort) (hp : p.Tidy)
    (h : ∀ n, r.apply s env n memory p = .unchanged memory p) (hfuel : fuel ≠ 0) :
    ∃ q, runRule sort r s env fuel memory p = .ok q ∧ p.Relists q := by
  obtain ⟨fuel, rfl⟩ := Nat.exists_eq_succ_of_ne_zero hfuel
  obtain ⟨q, hq, hlist⟩ := hp.reorder hsort
  refine ⟨q, ?_, hlist⟩
  have hpass : pass r s env memory p = .unchanged memory p := pass_still h
  rw [runRule_succ (q := q) (by rw [hpass]; exact hq), hpass]
  rfl

end CtePlan

/-! ## Constants -/

namespace InlineConstant

/-- no input that is read is a constant -/
def AtRest (env : Environment) (c : Cte) : Prop := ∀ x ∈ c.inputs, valueOf env c x = none

theorem AtRest.foldl_inlineInput {inputs : List String} (h : ∀ x ∈ inputs, valueOf env c x = none) :
    inputs.foldl (inlineInput env) (false, c) = (false, c) := by
  induction inputs with
  | nil => rfl
  | cons x rest ih =>
    have hx : inlineInput env (false, c) x = (false, c) := by
      unfold inlineInput
      rw [show valueOf env (false, c).2 x = none from h x List.mem_cons_self]
    rw [List.foldl_cons, hx]
    exact ih fun y hy => h y (List.mem_cons_of_mem _ hy)

theorem foldl_inlineInput_changed {inputs : List String} {e : Bool × Cte} (h : e.1 = true) :
    (inputs.foldl (inlineInput env) e).1 = true := by
  induction inputs generalizing e with
  | nil => exact h
  | cons x rest ih =>
    rcases inlineInput_written e x with he | ⟨d, -, he⟩
    · rw [List.foldl_cons, he]
      exact ih h
    · rw [List.foldl_cons, he]
      exact ih rfl

theorem valueOf_of_foldl_inlineInput {inputs : List String}
    (h : (inputs.foldl (inlineInput env) (false, c)).1 = false) : ∀ x ∈ inputs, valueOf env c x = none := by
  induction inputs with
  | nil => exact fun _ hx => absurd hx List.not_mem_nil
  | cons x rest ih =>
    rw [List.foldl_cons] at h
    cases hx : valueOf env c x with
    | none =>
      have hkept : inlineInput env (false, c) x = (false, c) := by
        unfold inlineInput
        rw [show valueOf env (false, c).2 x = none from hx]
      rw [hkept] at h
      intro y hy
      rcases List.mem_cons.1 hy with rfl | hy
      · exact hx
      · exact ih h y hy
    | some v =>
      have hwritten : (inlineInput env (false, c) x).1 = true := by
        unfold inlineInput
        rw [show valueOf env (false, c).2 x = some v from hx]
      rw [foldl_inlineInput_changed hwritten] at h
      cases h

theorem apply_atRest (h : ∀ c ∈ p.ctes, AtRest env c) (n : String) (memory : RuleMemory) :
    apply env n memory p = .unchanged memory p := by
  unfold apply
  split
  · rfl
  · rename_i c hc
    rw [AtRest.foldl_inlineInput (h c (CtePlan.find?_some hc).1)]
    rfl

theorem atRest_of_apply (hc : p.find? n = some c) (h : apply env n memory p = .unchanged memory p) : AtRest env c := by
  unfold apply at h
  rw [hc] at h
  dsimp only at h
  split at h
  · exact absurd (congrArg Revision.changed h).symm Bool.false_ne_true
  · rename_i hsame
    exact valueOf_of_foldl_inlineInput (Bool.eq_false_iff.2 hsame)

/-- a step that reads no further address with the same inputs -/
theorem AtRest.of_reads (h : AtRest env c) (hinputs : d.inputs = c.inputs)
    (hreads : ∀ x y, d.Maps x y → ∃ z, c.Maps x z) : AtRest env d := by
  intro x hx
  have hnone : valueOf env c x = none := h x (hinputs ▸ hx)
  cases hv : valueOf env d x with
  | none => rfl
  | some v =>
    obtain ⟨names, hnames, y, hy⟩ := exists_source_of_valueOf hv
    obtain ⟨z, hz⟩ := hreads x y (Cte.maps_iff.2 ⟨names, hnames, hy⟩)
    obtain ⟨names', hnames', hz⟩ := Cte.maps_iff.1 hz
    -- both entries name a source, so both steps ask the environment for the same constant
    unfold valueOf at hnone hv
    rw [SortedMap.getD, hnames', Option.getD_some, if_neg (by simp [List.ne_nil_of_mem hz])] at hnone
    rw [SortedMap.getD, hnames, Option.getD_some, if_neg (by simp [List.ne_nil_of_mem hy]), hnone] at hv
    cases hv

/-- folding an aggregate reads no constant that was not read before -/
theorem AtRest.fold (hp : p.WellFormed) (h : ∀ c ∈ p.ctes, AtRest env c) (hr : Rewrite env .foldAggregate p q) :
    ∀ c ∈ q.ctes, AtRest env c := by
  cases hr with
  | fold hc hparent =>
    have ha := FoldAggregate.absorbs_of_absorber hparent
    intro d hd
    obtain ⟨e, he, rfl⟩ := (FoldAggregate.fold_edits hp ha).mem.1 hd
    unfold FoldAggregate.refit
    split
    · exact (h e he).of_reads rfl fun x y hm => ⟨y, FoldAggregate.maps_absorb hm⟩
    · split
      · refine (h e he).of_reads rfl fun x y hm => ?_
        rcases Cte.maps_replaceParent.1 hm with ⟨hold, -⟩ | ⟨hkept, -⟩
        · exact ⟨_, hold⟩
        · exact ⟨_, hkept⟩
      · exact h e he

end InlineConstant

/-! ## Aggregates -/

namespace FoldAggregate

theorem absorber_of_absorbs (ha : Absorbs env p c parent) : absorber env p.readers p c = some parent := by
  have hreaders : CtePlan.readersOf p.readers parent.name = [c.name] := by
    refine List.perm_singleton.1 ((List.perm_ext_iff_of_nodup CtePlan.nodup_readersOf (List.nodup_singleton _)).2 fun n => ?_)
    rw [CtePlan.mem_readersOf, ha.read, List.mem_singleton]
  unfold absorber
  rw [ha.parents]
  show (p.find? parent.name).bind _ = _
  rw [ha.found, Option.bind_some, ha.foldable, ha.groups, hreaders, beq_self_eq_true]
  rfl

theorem Absorbs.of_relists (hp : p.WellFormed) (hl : p.Relists q) (ha : Absorbs env q c parent) :
    Absorbs env p c parent := by
  refine ⟨ha.parents, CtePlan.find?_of_mem hp.distinct (hl.mem.1 (CtePlan.find?_some ha.found).1), ha.foldable, ha.groups,
    fun n => ?_⟩
  rw [← hl.reads]
  exact ha.read n

/-- what was folded is not live, and stays so -/
def Forgotten (memory : RuleMemory) (p : CtePlan) : Prop := ∀ n ∈ memory.folded, ¬ p.Live n

theorem Forgotten.apply (hp : p.WellFormed) (h : Forgotten memory p) (n : String) :
    (apply env p.readers n memory p).plan.WellFormed ∧
      Forgotten (apply env p.readers n memory p).memory (apply env p.readers n memory p).plan := by
  rcases apply_cases env n memory p with he | ⟨c, parent, hc, hparent, -, he⟩
  · rw [he]
    exact ⟨hp, h⟩
  · have ha : Absorbs env p c parent := absorbs_of_absorber hparent
    rw [he]
    refine ⟨(fold_edits hp ha).wellFormed hp, fun m hm => ?_⟩
    rcases SortedSet.mem_insert.1 hm with rfl | hm
    · rw [← (CtePlan.find?_some hc).2]
      exact not_live_fold hp ha
    · exact fun hl => h m hm ((fold_edits hp ha).live hl)

theorem Forgotten.pass (hp : p.WellFormed) (h : Forgotten memory p) :
    (CtePlan.pass .foldAggregate s env memory p).plan.WellFormed ∧
      Forgotten (CtePlan.pass .foldAggregate s env memory p).memory (CtePlan.pass .foldAggregate s env memory p).plan := by
  have hvisits : ∀ (names : List String) (t : Revision), t.plan.WellFormed → Forgotten t.memory t.plan →
      (names.foldl (CtePlan.visit .foldAggregate s env) t).plan.WellFormed ∧
        Forgotten (names.foldl (CtePlan.visit .foldAggregate s env) t).memory
          (names.foldl (CtePlan.visit .foldAggregate s env) t).plan := by
    intro names
    induction names with
    | nil => exact fun t ht h => ⟨ht, h⟩
    | cons n rest ih =>
      intro t ht h
      rw [List.foldl_cons]
      unfold CtePlan.visit
      split
      · exact ih t ht h
      · exact ih _ (h.apply ht n).1 (h.apply ht n).2
  exact hvisits p.visitOrder _ hp h

/-- **a run of the rule leaves no aggregate to fold** -/
theorem runRule_folded (hsort : Topological.IsSort sort) (hp : p.Tidy)
    (h : CtePlan.runRule sort .foldAggregate s env fuel {} p = .ok q) :
    ∀ c ∈ q.ctes, ∀ parent, ¬ Absorbs env q c parent := by
  have hpass : ∀ memory p q, p.Tidy → Forgotten memory p →
      (CtePlan.pass .foldAggregate s env memory p).plan.prune.Relists q →
        Forgotten (CtePlan.pass .foldAggregate s env memory p).memory q := by
    intro memory p q hp hforgotten hlist n hn hl
    obtain ⟨hpassed, hkept⟩ : (CtePlan.pass .foldAggregate s env memory p).plan.WellFormed ∧ _ :=
      hforgotten.pass hp.wellFormed
    exact hkept n hn ((CtePlan.live_prune hpassed).1 (hlist.live.1 hl))
  have hnone : Forgotten {} p := fun n hn => absurd hn (SortedSet.not_mem_empty n)
  obtain ⟨memory, b, hb, hforgotten, hunchanged, hlist⟩ := CtePlan.runRule_last hsort hpass hp hnone h
  obtain ⟨hsame, hall⟩ := CtePlan.pass_quiet quiet hunchanged
  rw [hsame] at hlist
  have hsteps : b.Relists q := hb.prune_eq ▸ hlist
  intro c hc parent ha
  have hcb : c ∈ b.ctes := hsteps.mem.1 hc
  have hnew : c.name ∉ memory.folded := fun hin => hforgotten c.name hin (hb.live c hcb)
  have hstill := hall c hcb
  rw [Rule.apply, apply, if_neg (SortedSet.contains_iff.not.2 hnew),
    CtePlan.find?_of_mem hb.wellFormed.distinct hcb] at hstill
  dsimp only at hstill
  rw [absorber_of_absorbs (ha.of_relists hb.wellFormed hsteps)] at hstill
  exact absurd (congrArg Revision.changed hstill).symm Bool.false_ne_true

theorem apply_folded (h : ∀ c ∈ p.ctes, ∀ parent, ¬ Absorbs env p c parent) (n : String) (memory : RuleMemory) :
    apply env p.readers n memory p = .unchanged memory p := by
  rcases apply_cases env n memory p with he | ⟨c, parent, hc, hparent, -, -⟩
  · exact he
  · exact absurd (absorbs_of_absorber hparent) (h c (CtePlan.find?_some hc).1 parent)

end FoldAggregate

namespace CtePlan

/-! ## Finished plans -/

/-- no constant is left to write and no aggregate to fold, as far as the rules for them are enabled -/
structure Finished (env : Environment) (s : OptimizerSettings) (p : CtePlan) : Prop where
  constants : s.constantInlining = true → ∀ c ∈ p.ctes, InlineConstant.AtRest env c
  aggregates : s.mergeAggregate = true → ∀ c ∈ p.ctes, ∀ parent, ¬ FoldAggregate.Absorbs env p c parent

theorem Finished.relist (hp : p.WellFormed) (hf : Finished env s p) (hl : p.Relists q) : Finished env s q :=
  ⟨fun hon c hc => hf.constants hon c (hl.mem.1 hc),
    fun hon c hc parent ha => hf.aggregates hon c (hl.mem.1 hc) parent (ha.of_relists hp hl)⟩

/-- what each run of the rules keeps -/
theorem runEnabled_keeps (hsort : Topological.IsSort sort) {I : CtePlan → Prop} {rules : List Rule}
    (hrun : ∀ r ∈ rules, ∀ p q, p.Tidy → I p → runRule sort r s env s.maxLoops {} p = .ok q → I q)
    (hp : p.Tidy) (hI : I p) (h : runEnabled sort env s rules p = .ok q) : q.Tidy ∧ I q := by
  have hall : ∀ r ∈ rules.filter (Rule.isEnabled s), r ∈ rules := fun r hr => List.mem_of_mem_filter hr
  unfold runEnabled at h
  generalize rules.filter (Rule.isEnabled s) = enabled at h hall
  induction enabled generalizing p with
  | nil =>
    cases h
    exact ⟨hp, hI⟩
  | cons r rest ih =>
    rw [List.foldlM_cons] at h
    obtain ⟨b, hb, h⟩ := Resolve.bind_eq_ok h
    exact ih (runRule_listed hsort hp hb).1 (hrun r (hall r List.mem_cons_self) p b hp hI hb) h
      fun t ht => hall t (List.mem_cons_of_mem _ ht)

theorem runEnabled_tidy (hsort : Topological.IsSort sort) (rules : List Rule) (hp : p.Tidy)
    (h : runEnabled sort env s rules p = .ok q) : q.Tidy :=
  (runEnabled_keeps hsort (I := fun _ => True) (fun _ _ _ _ _ _ _ => trivial) hp trivial h).1

theorem runEnabled_parentsFirst (hsort : Topological.IsSort sort) (rules : List Rule) (hp : p.Tidy)
    (hfirst : ParentsFirst p.ctes) (h : runEnabled sort env s rules p = .ok q) : ParentsFirst q.ctes :=
  (runEnabled_keeps hsort (I := fun p => ParentsFirst p.ctes)
    (fun _ _ _ _ hp _ hrun => (runRule_listed hsort hp hrun).2) hp hfirst h).2

theorem runEnabled_steps (hsort : Topological.IsSort sort) {J : Cte → Prop} {rules : List Rule}
    (hrewrite : ∀ r ∈ rules, ∀ p q, p.WellFormed → (∀ c ∈ p.ctes, J c) → Rewrite env r p q → ∀ c ∈ q.ctes, J c)
    (hp : p.Tidy) (hJ : ∀ c ∈ p.ctes, J c) (h : runEnabled sort env s rules p = .ok q) : ∀ c ∈ q.ctes, J c :=
  (runEnabled_keeps hsort (I := fun p => ∀ c ∈ p.ctes, J c)
    (fun r hr _ _ hp hJ hrun => runRule_steps hsort (hrewrite r hr) hp hJ hrun) hp hJ h).2

/-- only folding an aggregate can change which step is the root -/
theorem runEnabled_root (hsort : Topological.IsSort sort) {rules : List Rule} (hrules : .foldAggregate ∉ rules)
    (hp : p.Tidy) (h : runEnabled sort env s rules p = .ok q) : q.root = p.root := by
  have hrewrites : ∀ r ∈ rules, ∀ p q, Rewrites env r p q → q.root = p.root := by
    intro r hr p q h
    induction h with
    | refl => rfl
    | tail _ hrewrite ih =>
      cases hrewrite with
      | fold => exact absurd hr hrules
      | _ => exact ih
  refine (runEnabled_keeps hsort (I := fun b => b.root = p.root) (fun r hr b t hb hroot hrun => ?_) hp rfl h).2
  obtain ⟨memory, b', -, hroot', -, hlist⟩ := runRule_last hsort (K := fun _ b => b.root = p.root)
    (fun memory b t _ hroot hlist => hlist.root.trans ((hrewrites r hr _ _ (pass_rewrites r memory b)).trans hroot))
    hb hroot hrun
  exact hlist.root.trans ((hrewrites r hr _ _ (pass_rewrites r memory b')).trans hroot')

/-- **the two rules that run last leave a finished plan** -/
theorem runEnabled_finishes (hsort : Topological.IsSort sort) (hp : p.Tidy)
    (h : runEnabled sort env s [.inlineConstant, .foldAggregate] p = .ok q) : Finished env s q := by
  rw [show [Rule.inlineConstant, .foldAggregate] = [.inlineConstant] ++ [.foldAggregate] from rfl,
    runEnabled_append] at h
  obtain ⟨b, hb, hq⟩ := Resolve.bind_eq_ok h
  have htidy : b.Tidy := runEnabled_tidy hsort [.inlineConstant] hp hb
  rw [runEnabled_singleton] at hb hq
  refine ⟨fun hon => ?_, fun hon => ?_⟩
  · rw [if_pos (show Rule.isEnabled s .inlineConstant = true from hon)] at hb
    obtain ⟨memory, p', hp', -, hunchanged, hlist⟩ :=
      runRule_last hsort (K := fun _ _ => True) (fun _ _ _ _ _ _ => trivial) hp trivial hb
    obtain ⟨hsame, hall⟩ := pass_quiet InlineConstant.quiet hunchanged
    rw [hsame] at hlist
    have hsteps : p'.Relists b := hp'.prune_eq ▸ hlist
    have hrest : ∀ c ∈ b.ctes, InlineConstant.AtRest env c := fun c hc =>
      InlineConstant.atRest_of_apply (find?_of_mem hp'.wellFormed.distinct (hsteps.mem.1 hc)) (hall c (hsteps.mem.1 hc))
    split at hq
    · exact runRule_steps hsort (fun _ _ hp h hr => InlineConstant.AtRest.fold hp h hr) htidy hrest hq
    · cases hq
      exact hrest
  · rw [if_pos (show Rule.isEnabled s .foldAggregate = true from hon)] at hq
    exact FoldAggregate.runRule_folded hsort htidy hq

/-- **they only list the steps of a finished plan anew** -/
theorem runEnabled_finished (hsort : Topological.IsSort sort) (hp : p.Tidy) (hf : Finished env s p)
    (hfirst : ParentsFirst p.ctes) (hpasses : ∀ r, Rule.isEnabled s r = true → s.maxLoops ≠ 0) :
    ∃ q, runEnabled sort env s [.inlineConstant, .foldAggregate] p = .ok q ∧ p.Relists q := by
  have hconstants : ∃ b, runEnabled sort env s [.inlineConstant] p = .ok b ∧ p.Relists b := by
    rw [runEnabled_singleton]
    split
    · rename_i hon
      exact runRule_still hsort hp (fun n => InlineConstant.apply_atRest (hf.constants hon) n {}) (hpasses _ hon)
    · exact ⟨p, rfl, .refl hfirst⟩
  obtain ⟨b, hb, hlist⟩ := hconstants
  have haggregates : ∃ q, runEnabled sort env s [.foldAggregate] b = .ok q ∧ b.Relists q := by
    rw [runEnabled_singleton]
    split
    · rename_i hon
      exact runRule_still hsort (hlist.tidy hp)
        (fun n => FoldAggregate.apply_folded ((hf.relist hp.wellFormed hlist).aggregates hon) n {}) (hpasses _ hon)
    · exact ⟨b, rfl, .refl hlist.parentsFirst⟩
  obtain ⟨q, hq, hlist'⟩ := haggregates
  refine ⟨q, ?_, hlist.trans hlist'⟩
  rw [show [Rule.inlineConstant, .foldAggregate] = [.inlineConstant] ++ [.foldAggregate] from rfl, runEnabled_append, hb]
  exact hq

end CtePlan

/-! ## What the other rules do to a step -/

namespace Condition

theorem length_terms_inline (x : String) (v : Literal) : ∀ t : Condition, (t.inline x v).terms.length = t.terms.length
  | comparison _ _ _ | membership _ _ _ | or _ _ | not _ => rfl
  | and l r => by
    rw [inline, terms, terms, List.length_append, List.length_append, length_terms_inline x v l,
      length_terms_inline x v r]

theorem length_termsOf_conjoin (existing : Option Condition) (t : Condition) :
    (termsOf existing).length < (termsOf (some (conjoin existing t))).length := by
  rw [termsOf_conjoin, List.length_append]
  exact Nat.lt_add_of_pos_right (List.length_pos_of_ne_nil t.terms_ne_nil)

end Condition

open Condition (termsOf)

namespace Cte

/-- a step that differs from what it was: by fewer parents, by more terms, or by a condition lost -/
def Departs (c d : Cte) : Prop :=
  d.parents.length < c.parents.length ∨ (termsOf c.condition).length < (termsOf d.condition).length ∨
    c.condition.isSome = true ∧ d.condition = none

theorem Departs.irrefl : ¬ c.Departs c := by
  rintro (h | h | ⟨hsome, hnone⟩)
  · exact Nat.lt_irrefl _ h
  · exact Nat.lt_irrefl _ h
  · rw [hnone] at hsome
    cases hsome

/-- a step that has no more parents, as many terms, and no condition where it had none -/
structure Lessens (c d : Cte) : Prop where
  parents : d.parents.length ≤ c.parents.length
  terms : (termsOf d.condition).length = (termsOf c.condition).length
  condition : c.condition = none → d.condition = none

theorem Lessens.refl : c.Lessens c := ⟨Nat.le_refl _, rfl, id⟩

theorem Lessens.trans {e : Cte} (h : c.Lessens d) (h' : d.Lessens e) : c.Lessens e :=
  ⟨Nat.le_trans h'.parents h.parents, h'.terms.trans h.terms, fun hc => h'.condition (h.condition hc)⟩

theorem Departs.lessens {e : Cte} (h : c.Departs d) (h' : d.Lessens e) : c.Departs e := by
  rcases h with h | h | ⟨hsome, hnone⟩
  · exact Or.inl (Nat.lt_of_le_of_lt h'.parents h)
  · exact Or.inr (Or.inl (h'.terms ▸ h))
  · exact Or.inr (Or.inr ⟨hsome, h'.condition hnone⟩)

/-- what the rules for datasources and conditions can make of a step; a condition can get lost once a rule drops
conditions -/
inductive Turned (drops : Prop) (c : Cte) : Cte → Prop
  | fewer {d : Cte} : d.parents.length < c.parents.length → Turned drops c d
  /-- a step without parents may also read more columns -/
  | alone {d : Cte} : d.parents = [] → (termsOf c.condition).length < (termsOf d.condition).length → Turned drops c d
  | refiltered {k : Option Condition} :
      k = c.condition ∨ (termsOf c.condition).length < (termsOf k).length ∨ drops ∧ k = none →
      Turned drops c { c with condition := k }

variable {drops : Prop}

theorem Turned.refl : Turned drops c c := .refiltered (k := c.condition) (Or.inl rfl)

theorem Turned.of_false (h : Turned False c d) : Turned drops c d := by
  cases h with
  | fewer h => exact .fewer h
  | alone h h' => exact .alone h h'
  | refiltered h => exact .refiltered (h.imp_right (Or.imp_right fun h => h.1.elim))

theorem Turned.length_parents (h : Turned drops c d) : d.parents.length ≤ c.parents.length := by
  cases h with
  | fewer h => exact Nat.le_of_lt h
  | alone h _ =>
    rw [h]
    exact Nat.zero_le _
  | refiltered _ => exact Nat.le_refl _

/-- **a step that was turned is the same or differs for good** -/
theorem Turned.eq_or_departs (h : Turned drops c d) : d = c ∨ c.Departs d := by
  cases h with
  | fewer h => exact Or.inr (Or.inl h)
  | alone _ h => exact Or.inr (Or.inr (Or.inl h))
  | refiltered h =>
    rcases h with rfl | h | ⟨-, rfl⟩
    · exact Or.inl rfl
    · exact Or.inr (Or.inr (Or.inl h))
    · cases hc : c.condition with
      | none =>
        refine Or.inl ?_
        rw [← hc]
      | some k => exact Or.inr (Or.inr (Or.inr ⟨by rw [hc]; rfl, rfl⟩))

theorem Turned.inline {e : Cte} (h : Turned drops c d) (he : InlineDatasource.Inlined p d e) : Turned drops c e := by
  have hsame : e = d ∨ e.parents.length < d.parents.length := by
    induction he with
    | none => exact Or.inl rfl
    | next _ _ _ _ he ih =>
      have hlt := length_parents_inlineParent he
      rcases ih with rfl | ih
      · exact Or.inr hlt
      · exact Or.inr (Nat.lt_trans hlt ih)
  rcases hsame with rfl | hlt
  · exact h
  · exact .fewer (Nat.lt_of_lt_of_le hlt h.length_parents)

theorem Turned.filterBy (h : Turned False c d) (t : Condition) : Turned False c (PushPredicate.filterBy t d) := by
  cases h with
  | fewer h => exact .fewer h
  | alone h h' => exact .alone h (Nat.lt_trans h' (Condition.length_termsOf_conjoin _ t))
  | @refiltered k h =>
    have hmore : (termsOf c.condition).length < (termsOf (some (Condition.conjoin k t))).length := by
      refine Nat.lt_of_le_of_lt ?_ (Condition.length_termsOf_conjoin k t)
      rcases h with rfl | h | ⟨h, -⟩
      · exact Nat.le_refl _
      · exact Nat.le_of_lt h
      · exact h.elim
    by_cases hparents : c.parents = []
    · exact .alone hparents hmore
    · have hnot : ({ c with condition := k } : Cte).bareDatasource = none := by
        refine if_neg fun hbare => hparents ?_
        simp only [isBare, Bool.and_eq_true, List.isEmpty_iff] at hbare
        exact hbare.1.1.2
      have hfiltered : PushPredicate.filterBy t { c with condition := k } =
          { c with condition := some (Condition.conjoin k t) } := by
        unfold PushPredicate.filterBy PushPredicate.borrowed
        rw [hnot]
        rfl
      rw [hfiltered]
      exact .refiltered (Or.inr (Or.inl hmore))

theorem Turned.dropCondition (h : Turned True c d) {condition : Condition} {unread : List String}
    (hunread : PushPredicate.redundancy p d condition = some unread) :
    Turned True c (PushPredicate.dropCondition unread d) := by
  by_cases hnil : unread = []
  · subst hnil
    have hdropped : PushPredicate.dropCondition [] d = { d with condition := none } := by
      have hmap : (d.sourceMap.mapValues fun _ l => l.filter fun x => !([] : List String).contains x) = d.sourceMap := by
        simp [SortedMap.mapValues]
      unfold PushPredicate.dropCondition
      rw [hmap]
      simp
    rw [hdropped]
    cases h with
    | fewer h => exact .fewer h
    | alone h _ =>
      obtain ⟨n, hn, -⟩ := (PushPredicate.redundant_of_redundancy hunread).kept
      rw [h] at hn
      cases hn
    | refiltered _ => exact .refiltered (Or.inr (Or.inr ⟨trivial, rfl⟩))
  · obtain ⟨m, hm⟩ := List.exists_mem_of_ne_nil unread hnil
    refine .fewer (Nat.lt_of_lt_of_le ?_ h.length_parents)
    exact List.length_filter_lt_length_iff_exists.2
      ⟨m, PushPredicate.mem_parents_of_unread hunread hm, by simpa using hm⟩

/-! ## What the last two rules do to a step -/

theorem Lessens.written (h : Relation.ReflTransGen (InlineConstant.Written env) c d) : c.Lessens d := by
  induction h with
  | refl => exact .refl
  | @tail d e _ hw ih =>
    refine ih.trans ?_
    cases hw with
    | @value x v _ =>
      refine ⟨Nat.le_refl _, ?_, fun hnone => congrArg (Option.map _) hnone⟩
      show (termsOf (d.condition.map fun t => t.inline x v)).length = _
      cases d.condition with
      | none => rfl
      | some t => exact Condition.length_terms_inline x v t

theorem Lessens.dropParents (names : List String) (c : Cte) : c.Lessens (InlineConstant.dropParents names c) :=
  ⟨List.length_filter_le _ _, rfl, id⟩

theorem Lessens.refit (aggregate parent c : Cte) : c.Lessens (FoldAggregate.refit aggregate parent c) := by
  unfold FoldAggregate.refit
  split
  · exact ⟨Nat.le_refl _, rfl, id⟩
  · split
    · refine ⟨?_, rfl, id⟩
      show (distinct _).length ≤ _
      have hsub : (distinct (c.parents.map fun m => if m = aggregate.name then parent.name else m)).Subperm
          (c.parents.map fun m => if m = aggregate.name then parent.name else m) :=
        List.subperm_of_subset (nodup_distinct _) fun _ h => mem_distinct.1 h
      simpa using hsub.length_le
    · exact .refl

end Cte

namespace CtePlan

/-- every step of a plan comes from one of the same name in another -/
def Traced (R : Cte → Cte → Prop) (p q : CtePlan) : Prop := ∀ d ∈ q.ctes, ∃ c ∈ p.ctes, c.name = d.name ∧ R c d

variable {R : Cte → Cte → Prop} {b : CtePlan}

theorem Traced.refl (h : ∀ c, R c c) (p : CtePlan) : Traced R p p := fun c hc => ⟨c, hc, rfl, h c⟩

theorem Traced.modify {f : Cte → Cte} (h : Traced R b p) (hc : p.find? n = some c) (hname : (f c).name = c.name)
    (hR : ∀ e, R e c → R e (f c)) : Traced R b (p.modify n f) := by
  intro d hd
  rcases mem_of_mem_modify hc hd with rfl | hd
  · obtain ⟨e, he, hen, hec⟩ := h c (find?_some hc).1
    exact ⟨e, he, hen.trans hname.symm, hR e hec⟩
  · exact h d hd

theorem Traced.inlined (h : Traced (Cte.Turned False) b p) (hr : Rewrite env .inlineDatasource p q) :
    Traced (Cte.Turned False) b q := by
  cases hr with
  | inline hc hd => exact h.modify hc hd.alike.name fun e he => he.inline hd

theorem Traced.pushed (h : Traced (Cte.Turned False) b p) (hr : Rewrite env .pushPredicate p q) :
    Traced (Cte.Turned False) b q := by
  cases hr with
  | push hc => exact h.modify hc rfl fun e he => he.filterBy _

theorem Traced.dropped (h : Traced (Cte.Turned True) b p) (hr : Rewrite env .dropPredicate p q) :
    Traced (Cte.Turned True) b q := by
  cases hr with
  | drop hc _ hunread => exact h.modify hc rfl fun e he => he.dropCondition hunread

theorem Traced.written (h : Traced Cte.Lessens b p) (hr : Rewrite env .inlineConstant p q) :
    Traced Cte.Lessens b q := by
  cases hr with
  | write hc hd =>
    exact h.modify hc (InlineConstant.Written.alike hd).1.name fun e he =>
      he.trans ((Cte.Lessens.written hd).trans (.dropParents _ _))

theorem Traced.folded (hp : p.WellFormed) (h : Traced Cte.Lessens b p) (hr : Rewrite env .foldAggregate p q) :
    Traced Cte.Lessens b q := by
  cases hr with
  | fold hc hparent =>
    have hedits := FoldAggregate.fold_edits hp (FoldAggregate.absorbs_of_absorber hparent)
    intro d hd
    obtain ⟨c, hc, rfl⟩ := hedits.mem.1 hd
    obtain ⟨e, he, hen, hec⟩ := h c hc
    exact ⟨e, he, hen.trans (hedits.name c hc).symm, hec.trans (.refit _ _ _)⟩

/-- **the rules for datasources and conditions turn every step** -/
theorem runEnabled_turned (hsort : Topological.IsSort sort) (hp : p.Tidy)
    (h : runEnabled sort env s [.inlineDatasource, .pushPredicate, .dropPredicate] p = .ok q) :
    Traced (Cte.Turned True) p q := by
  rw [show [Rule.inlineDatasource, .pushPredicate, .dropPredicate] =
    [.inlineDatasource, .pushPredicate] ++ [.dropPredicate] from rfl, runEnabled_append] at h
  obtain ⟨b, hb, hq⟩ := Resolve.bind_eq_ok h
  have hpushed : Traced (Cte.Turned False) p b := by
    refine runEnabled_steps hsort (fun r hr p' q' _ htraced hrewrite => ?_) hp (Traced.refl (fun _ => .refl) p) hb
    rcases List.mem_pair.1 hr with rfl | rfl
    · exact Traced.inlined htraced hrewrite
    · exact Traced.pushed htraced hrewrite
  have hturned : Traced (Cte.Turned True) p b := fun d hd =>
    let ⟨c, hc, hname, hcd⟩ := hpushed d hd
    ⟨c, hc, hname, hcd.of_false⟩
  refine runEnabled_steps hsort (fun r hr p' q' _ htraced hrewrite => ?_) (runEnabled_tidy hsort _ hp hb) hturned hq
  obtain rfl := List.mem_singleton.1 hr
  exact Traced.dropped htraced hrewrite

/-- **those for constants and aggregates lessen every step** -/
theorem runEnabled_lessened (hsort : Topological.IsSort sort) (hp : p.Tidy)
    (h : runEnabled sort env s [.inlineConstant, .foldAggregate] p = .ok q) :
    Traced Cte.Lessens p q := by
  refine runEnabled_steps hsort (fun r hr p' q' hp' htraced hrewrite => ?_) hp (Traced.refl (fun _ => .refl) p) h
  rcases List.mem_pair.1 hr with rfl | rfl
  · exact Traced.written htraced hrewrite
  · exact Traced.folded hp' htraced hrewrite

/-- a plan that was turned and lessened to itself was the same in between -/
theorem perm_of_traced (hp : p.Tidy) (ha : a.Tidy) (hturned : Traced (Cte.Turned True) p a)
    (hlessened : Traced Cte.Lessens a q) (hl : p.Relists q) : a.ctes.Perm p.ctes := by
  have hkept : ∀ c ∈ p.ctes, c ∈ a.ctes := by
    intro c hc
    obtain ⟨d, hd, hdc, hless⟩ := hlessened c (hl.mem.2 hc)
    obtain ⟨e, he, hed, hturn⟩ := hturned d hd
    obtain rfl := eq_of_name hp.wellFormed.distinct he hc (hed.trans hdc)
    rcases hturn.eq_or_departs with rfl | hdeparts
    · exact hd
    · exact absurd (hdeparts.lessens hless) Cte.Departs.irrefl
  refine (List.perm_ext_iff_of_nodup (.of_map _ ha.wellFormed.distinct) (.of_map _ hp.wellFormed.distinct)).2
    fun d => ⟨fun hd => ?_, hkept d⟩
  obtain ⟨c, hc, hcd, -⟩ := hturned d hd
  rwa [← eq_of_name ha.wellFormed.distinct (hkept c hc) hd hcd]

/-! ## The optimizer once more -/

theorem started_returned (hon : s.directReturn = true) (h : started env s p = .ok q) :
    ∃ b, returnDirectly env s.maxLoops s.maxLoops p = .ok b ∧ q = b.prune := by
  unfold started at h
  rw [if_pos hon] at h
  cases hb : returnDirectly env s.maxLoops s.maxLoops p with
  | error e =>
    rw [hb] at h
    cases h
  | ok b =>
    rw [hb] at h
    cases h
    exact ⟨b, rfl, rfl⟩

theorem started_tidy (hp : p.Tidy) (h : started env s p = .ok q) : q.Tidy := by
  cases hon : s.directReturn with
  | false =>
    unfold started at h
    rw [hon] at h
    cases h
    exact hp
  | true =>
    obtain ⟨b, hb, rfl⟩ := started_returned hon h
    exact (returned (I := fun _ => True) (fun _ _ _ _ _ => trivial) (returnDirectly_eq_ok hb) hp.wellFormed
      trivial).1.tidy_prune

theorem started_still (hp : p.Tidy) (h : s.directReturn = true → p.directParent env = none) :
    started env s p = .ok p := by
  unfold started
  split
  · rename_i hon
    unfold returnDirectly
    rw [h hon]
    exact congrArg Except.ok hp.prune_eq
  · rfl

/-- **an optimized plan is finished** -/
theorem optimizeBy_finished (hsort : Topological.IsSort sort) (hp : p.Tidy) (h : optimizeBy sort env s p = .ok q) :
    q.Tidy ∧ ParentsFirst q.ctes ∧ Finished env s q := by
  rw [optimizeBy_eq] at h
  obtain ⟨b, hb, h⟩ := Resolve.bind_eq_ok h
  obtain ⟨a, ha, hq⟩ := Resolve.bind_eq_ok h
  rw [show Rule.all = [.inlineDatasource, .pushPredicate, .dropPredicate] ++ [.inlineConstant, .foldAggregate] from rfl,
    runEnabled_append] at ha
  obtain ⟨t, ht, ha⟩ := Resolve.bind_eq_ok ha
  have htidy : t.Tidy := runEnabled_tidy hsort _ (started_tidy hp hb) ht
  have hatidy : a.Tidy := runEnabled_tidy hsort _ htidy ha
  rw [hatidy.prune_eq] at hq
  have hlist : a.Relists q := relists_of_reorderBy hsort hatidy.wellFormed hq
  exact ⟨hlist.tidy hatidy, hlist.parentsFirst, (runEnabled_finishes hsort htidy ha).relist hatidy.wellFormed hlist⟩

/-- where a rule is enabled, an optimized plan took a pass -/
theorem passes_of_optimizeBy (h : optimizeBy sort env s p = .ok q) (hr : r.isEnabled s = true) : s.maxLoops ≠ 0 := by
  intro hnone
  rw [optimizeBy_eq] at h
  obtain ⟨b, -, h⟩ := Resolve.bind_eq_ok h
  obtain ⟨a, ha, -⟩ := Resolve.bind_eq_ok h
  have hmem : r ∈ Rule.all.filter (Rule.isEnabled s) := by
    refine List.mem_filter.2 ⟨?_, hr⟩
    cases r <;> decide
  unfold runEnabled at ha
  cases hrules : Rule.all.filter (Rule.isEnabled s) with
  | nil =>
    rw [hrules] at hmem
    cases hmem
  | cons first rest =>
    rw [hrules, List.foldlM_cons, hnone] at ha
    cases ha

/-- the optimizer makes no step live, and where it returns the root, that is live no longer -/
theorem live_of_advances (hsort : Topological.IsSort sort) (hp : p.WellFormed)
    (h : Relation.ReflTransGen (Advances sort env s) p q) :
    q.WellFormed ∧ ∀ n, q.Live n → p.Live n := by
  induction h with
  | refl => exact ⟨hp, fun _ hn => hn⟩
  | tail _ hadvance ih =>
    obtain ⟨hmid, hlive⟩ := ih
    cases hadvance with
    | returned _ hr =>
      obtain ⟨g, hg⟩ := hr.edits hmid
      exact ⟨hg.wellFormed hmid, fun n hn => hlive n (hg.live hn)⟩
    | improved hi =>
      cases hi with
      | rewrite _ hr =>
        obtain ⟨g, hg⟩ := hr.edits hmid
        exact ⟨hg.wellFormed hmid, fun n hn => hlive n (hg.live hn)⟩
      | prune => exact ⟨hmid.prune, fun n hn => hlive n ((live_prune hmid).1 hn)⟩
      | reorder hq =>
        have hl := relists_of_reorderBy hsort hmid hq
        exact ⟨hl.wellFormed hmid, fun n hn => hlive n (hl.live.1 hn)⟩

/-- where the root can be returned, the optimizer goes on from the plan without it -/
theorem advances_of_directParent (hon : s.directReturn = true) (hn : p.directParent env = some n)
    (h : optimizeBy sort env s p = .ok q) : Relation.ReflTransGen (Advances sort env s) (p.collapse n) q := by
  rw [optimizeBy_eq] at h
  obtain ⟨b, hb, h⟩ := Resolve.bind_eq_ok h
  obtain ⟨a, ha, hq⟩ := Resolve.bind_eq_ok h
  obtain ⟨t, ht, rfl⟩ := started_returned hon hb
  have hreturned : Relation.ReflTransGen (Returns env) (p.collapse n) t := by
    unfold returnDirectly at ht
    rw [hn] at ht
    dsimp only at ht
    split at ht
    · cases ht
    · exact returnDirectly_eq_ok ht
  have himproved : ImprovesTo sort env s t.prune a := by
    have hrun : Outcome sort env s t.prune (runEnabled sort env s Rule.all t.prune) :=
      foldlM_outcome (Rule.all.filter (Rule.isEnabled s)) (fun r hr => (List.mem_filter.1 hr).2) .refl
    rwa [ha] at hrun
  have hlast : ImprovesTo sort env s t q := .head (.prune t) ((himproved.tail (.prune a)).tail (.reorder hq))
  exact (Relation.ReflTransGen.mono (fun _ _ => .returned hon) _ _ hreturned).trans
    (Relation.ReflTransGen.mono (fun _ _ => .improved) _ _ hlast)

/-- **optimizing an optimized plan gives it back, up to the order of its steps, exactly where no root can be returned and
the rules for datasources and conditions leave it as it is**, whichever sort lists the steps: constants and aggregates are
done after one run -/
theorem optimizeBy_again (hsort : Topological.IsSort sort) (hp : p.WellFormed)
    (hlive : ∀ c ∈ p.ctes, p.Live c.name) (h : optimizeBy sort env s p = .ok q) :
    (∃ q', optimizeBy sort env s q = .ok q' ∧ q.Relists q') ↔
      (s.directReturn = true → q.directParent env = none) ∧
        ∃ a, runEnabled sort env s [.inlineDatasource, .pushPredicate, .dropPredicate] q = .ok a ∧ q.Relists a := by
  obtain ⟨hq, hfirst, hfinished⟩ := optimizeBy_finished hsort ⟨hp, hlive⟩ h
  have hall : Rule.all = [.inlineDatasource, .pushPredicate, .dropPredicate] ++ [.inlineConstant, .foldAggregate] := rfl
  constructor
  · rintro ⟨q', hq', hl⟩
    have hreturn : s.directReturn = true → q.directParent env = none := by
      intro hon
      by_contra hsome
      obtain ⟨n, hn⟩ := Option.ne_none_iff_exists'.1 hsome
      have hreturns : Returns env q (q.collapse n) := ⟨n, hn, rfl⟩
      obtain ⟨g, hg⟩ := hreturns.edits hq.wellFormed
      have hcollapsed := hg.wellFormed hq.wellFormed
      have hshrinks := (live_of_advances hsort hcollapsed (advances_of_directParent hon hn hq')).2
      refine Nat.not_le_of_lt (hreturns.reachable_size_lt hq.wellFormed) (SortedSet.size_le_of_subset fun m hm => ?_)
      exact (mem_reachable hcollapsed).2 (hshrinks m (hl.live.2 ((mem_reachable hq.wellFormed).1 hm)))
    refine ⟨hreturn, ?_⟩
    rw [optimizeBy_eq, started_still hq hreturn, hall] at hq'
    change runEnabled sort env s _ q >>= _ = _ at hq'
    obtain ⟨t, ht, hq'⟩ := Resolve.bind_eq_ok hq'
    rw [runEnabled_append] at ht
    obtain ⟨a, ha, ht⟩ := Resolve.bind_eq_ok ht
    have hatidy : a.Tidy := runEnabled_tidy hsort _ hq ha
    have httidy : t.Tidy := runEnabled_tidy hsort _ hatidy ht
    rw [httidy.prune_eq] at hq'
    have hlessened : Traced Cte.Lessens a q' := fun d hd =>
      runEnabled_lessened hsort hatidy ht d ((relists_of_reorderBy hsort httidy.wellFormed hq').mem.1 hd)
    refine ⟨a, ha, ?_, perm_of_traced hq hatidy (runEnabled_turned hsort hq ha) hlessened hl, ?_⟩
    · exact runEnabled_root hsort (by decide) hq ha
    · exact runEnabled_parentsFirst hsort _ hq hfirst ha
  · rintro ⟨hreturn, a, ha, hl⟩
    have hatidy : a.Tidy := hl.tidy hq
    obtain ⟨t, ht, hl'⟩ := runEnabled_finished hsort hatidy (hfinished.relist hq.wellFormed hl) hl.parentsFirst
      fun _ hr => passes_of_optimizeBy h hr
    obtain ⟨q', hq', hl''⟩ := (hl'.tidy hatidy).reorder hsort
    refine ⟨q', ?_, (hl.trans hl').trans hl''⟩
    rw [optimizeBy_eq, started_still hq hreturn, hall]
    show runEnabled sort env s _ q >>= _ = _
    rw [runEnabled_append, ha]
    show runEnabled sort env s _ a >>= _ = _
    rw [ht]
    exact hq'

theorem total_wellFormed : total.WellFormed :=
  wellFormed_of_idxOf (by decide +kernel) (by decide +kernel) (by decide +kernel)

theorem live_of_reachable (hp : p.WellFormed) (h : ∀ c ∈ p.ctes, p.reachable.contains c.name = true) :
    ∀ c ∈ p.ctes, p.Live c.name := fun c hc => (mem_reachable hp).1 (SortedSet.contains_iff.1 (h c hc))

/-- where aggregates are folded and nothing else is done, there is nothing left to do -/
theorem optimize_again_total : ∃ q, optimize .empty foldingOnly total = .ok q ∧ q.names = ["rows", "root"] ∧
    ∃ q', optimize .empty foldingOnly q = .ok q' ∧ q.Relists q' := by
  have hlive := live_of_reachable total_wellFormed (by decide +kernel)
  obtain ⟨q, hq, hnames⟩ := exists_optimized
    (show (optimize .empty foldingOnly total).toOption.map names = some ["rows", "root"] by decide +kernel)
  have hfirst : ParentsFirst q.ctes := (optimizeBy_finished Topological.isSort_order ⟨total_wellFormed, hlive⟩ hq).2.1
  have hagain := optimizeBy_again Topological.isSort_order total_wellFormed hlive hq
  refine ⟨q, hq, hnames, hagain.2 ⟨fun h => ?_, q, rfl, .refl hfirst⟩⟩
  cases h

/-- steps that only read one and the same datasource, and a root that reads them -/
def sharing (steps : List String) : CtePlan :=
  ⟨steps.map (fun n => plainStep n .select [] [.ofColumns "items" [.bind "x" "x"] []] [("local.x", ["items"])]
      ["local.x"]) ++ [plainStep "root" .merge steps [] [("local.x", steps)] ["local.x"]], "root"⟩

/-- a root that filters its rows as they are filtered already, by a step that it reads for this only -/
def filteredTwice : CtePlan :=
  let items : Datasource := .ofColumns "items" [.bind "x" "x"] []
  let among : Condition := .membership (.concept "local.x") .isIn "local.vip"
  ⟨[{ plainStep "rows" .select [] [items] [("local.x", ["items"])] ["local.x"] with condition := some among },
    plainStep "vips" .group [] [.ofColumns "members" [.bind "vip" "vip"] []] [("local.vip", ["members"])] ["local.vip"],
    { plainStep "root" .merge ["rows", "vips"] [] [("local.x", ["rows"])] ["local.x"] with condition := some among }],
    "root"⟩

theorem exists_optimized_again {given left : List String} (hn : p.names.Nodup) (hroot : p.root ∈ p.names)
    (hparents : ∀ c ∈ p.ctes, ∀ m ∈ c.parents, p.names.idxOf m < p.names.idxOf c.name)
    (hreached : ∀ c ∈ p.ctes, p.reachable.contains c.name = true)
    (h : ((optimize env s p).toOption.bind fun q => (optimize env s q).toOption.map fun q' => (q.names, q'.names)) =
      some (given, left)) :
    p.WellFormed ∧ (∀ c ∈ p.ctes, p.Live c.name) ∧ ∃ q q', optimize env s p = .ok q ∧ optimize env s q = .ok q' ∧
      q.names = given ∧ q'.names = left := by
  have hp : p.WellFormed := wellFormed_of_idxOf hn hroot hparents
  cases hq : optimize env s p with
  | error e =>
    rw [hq] at h
    cases h
  | ok q =>
    rw [hq] at h
    obtain ⟨q', hq', hnames⟩ := exists_optimized h
    obtain ⟨hgiven, hleft⟩ := Prod.mk.inj hnames
    exact ⟨hp, live_of_reachable hp hreached, q, q', rfl, hq', hgiven, hleft⟩

/-- a second run inlines a step that the first one left over, as its datasource is counted anew; it returns a root of
which only the first one made the parent the single one; and without any rule it lists the steps in another order -/
theorem optimize_again_left_over :
    ((sharing ["a", "b", "c"]).WellFormed ∧ (∀ c ∈ (sharing ["a", "b", "c"]).ctes, (sharing ["a", "b", "c"]).Live c.name) ∧
      ∃ q q', optimize .empty {} (sharing ["a", "b", "c"]) = .ok q ∧ optimize .empty {} q = .ok q' ∧
        q.names = ["c", "root"] ∧ q'.names = ["root"]) ∧
    (filteredTwice.WellFormed ∧ (∀ c ∈ filteredTwice.ctes, filteredTwice.Live c.name) ∧
      ∃ q q', optimize .empty {} filteredTwice = .ok q ∧ optimize .empty {} q = .ok q' ∧
        q.names = ["rows", "root"] ∧ q'.names = ["rows"]) ∧
    ((sharing ["a", "b"]).WellFormed ∧ (∀ c ∈ (sharing ["a", "b"]).ctes, (sharing ["a", "b"]).Live c.name) ∧
      ∃ q q', optimize .empty { foldingOnly with mergeAggregate := false } (sharing ["a", "b"]) = .ok q ∧
        optimize .empty { foldingOnly with mergeAggregate := false } q = .ok q' ∧
        q.names = ["b", "a", "root"] ∧ q'.names = ["a", "b", "root"]) := by
  refine ⟨exists_optimized_again ?_ ?_ ?_ ?_ ?_, exists_optimized_again ?_ ?_ ?_ ?_ ?_,
    exists_optimized_again ?_ ?_ ?_ ?_ ?_⟩
  all_goals decide +kernel

end CtePlan

end SemanticPlanner
