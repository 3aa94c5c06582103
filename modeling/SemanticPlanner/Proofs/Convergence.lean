/-
The optimizer comes to an end, and where the end is does not depend on how many passes it may make.

  pass_lightens             a pass that changes a plan makes it lighter
  runRule_converges         so a rule has a last pass, and any limit from there on gives the plan after it
  returnDirectly_converges  the root is returned a number of times only: each time less of the plan is live
  optimizeBy_converges      from some limit on, the optimizer gives one and the same plan

A plan without its root is pruned to nothing after the first pass, so that it needs no weights.
-/
import SemanticPlanner.Proofs.Progress

namespace SemanticPlanner

variable {env : Environment} {s : OptimizerSettings} {p q : CtePlan} {c d : Cte} {n : String} {r : Rule}
  {J : Cte → Prop} {w : RuleMemory → Cte → ℕ} {memory : RuleMemory} {sort : Topological.Sorting}

/-! ## Limits -/

/-- the limit of passes does not matter to an application -/
theorem Rule.apply_maxLoops (r : Rule) (k : ℕ) : r.apply { s with maxLoops := k } env = r.apply s env := by
  cases r <;> rfl

theorem Rule.isEnabled_maxLoops (k : ℕ) : Rule.isEnabled { s with maxLoops := k } = Rule.isEnabled s := by
  funext r
  cases r <;> rfl

namespace CtePlan

theorem pass_maxLoops (r : Rule) (k : ℕ) : pass r { s with maxLoops := k } env = pass r s env := by
  have hvisit : visit r { s with maxLoops := k } env = visit r s env := by
    funext t name
    rw [visit, visit, r.apply_maxLoops]
  funext memory p
  rw [pass, pass, hvisit]

/-! ## Passes -/

theorem WellFormed.rewrites (hp : p.WellFormed) (h : Rewrites env r p q) : q.WellFormed := by
  induction h with
  | refl => exact hp
  | tail _ hr ih =>
    obtain ⟨g, hg⟩ := hr.edits ih
    exact hg.wellFormed ih

theorem visit_lightens (hr : r.Lightens env s J w) {t : Revision} (ht : t.plan.WellFormed)
    (h : t.Lightens J w memory p) (name : String) : (visit r s env t name).Lightens J w memory p := by
  unfold visit
  split
  · exact h
  · have happly := hr name t.memory t.plan ht h.kept
    refine ⟨happly.kept, Nat.le_trans happly.le h.le, fun hchanged => ?_⟩
    rcases Bool.or_eq_true_iff.1 hchanged with hbefore | hnow
    · exact Nat.lt_of_le_of_lt happly.le (h.lt hbefore)
    · exact Nat.lt_of_lt_of_le (happly.lt hnow) h.le

/-- **a pass that changes a plan makes it lighter** -/
theorem pass_lightens (hr : r.Lightens env s J w) (hp : p.WellFormed) (hJ : ∀ c ∈ p.ctes, J c) (memory : RuleMemory) :
    (pass r s env memory p).Lightens J w memory p := by
  have hfold : ∀ (names : List String) (t : Revision), t.plan.WellFormed → t.Lightens J w memory p →
      (names.foldl (visit r s env) t).Lightens J w memory p := by
    intro names
    induction names with
    | nil => exact fun t _ h => h
    | cons name rest ih =>
      exact fun t ht h => ih _ (ht.rewrites (visit_rewrites r t name)) (visit_lightens hr ht h name)
  exact hfold p.visitOrder _ hp (.unchanged hJ)

theorem runRule_succ {fuel : ℕ} (h : (pass r s env memory p).plan.prune.reorderBy sort = .ok q) :
    runRule sort r s env (fuel + 1) memory p =
      if (pass r s env memory p).changed then runRule sort r s env fuel (pass r s env memory p).memory q
      else .ok q := by
  rw [runRule, h]
  rfl

/-- **from some number of passes on, a rule ends, and with one and the same plan** -/
theorem runRule_converges (hsort : Topological.IsSort sort) (hr : r.Lightens env s J w) (hp : p.WellFormed)
    (hJ : ∀ c ∈ p.ctes, J c) (memory : RuleMemory) : ∃ N q, q.WellFormed ∧
      ∀ fuel, N ≤ fuel → ∀ k, runRule sort r { s with maxLoops := k } env fuel memory p = .ok q := by
  induction hweight : p.weight (w memory) using Nat.strong_induction_on generalizing p memory with
  | _ weight ih =>
    have hpass := pass_lightens hr hp hJ memory
    have hwell : (pass r s env memory p).plan.prune.WellFormed := (hp.rewrites (pass_rewrites r memory p)).prune
    obtain ⟨q, hq, hroot, hperm, hfirst⟩ := reorderBy_eq_ok hsort hwell
    have hlist : (pass r s env memory p).plan.prune.Relists q := ⟨hroot, hperm, hfirst⟩
    have hrun : ∀ fuel k, runRule sort r { s with maxLoops := k } env (fuel + 1) memory p =
        if (pass r s env memory p).changed then
          runRule sort r { s with maxLoops := k } env fuel (pass r s env memory p).memory q
        else .ok q := by
      intro fuel k
      rw [runRule_succ (q := q) (by rwa [pass_maxLoops]), pass_maxLoops]
    by_cases hchanged : (pass r s env memory p).changed = true
    · have hlighter : q.weight (w (pass r s env memory p).memory) < weight := by
        calc q.weight (w (pass r s env memory p).memory)
            = (pass r s env memory p).plan.prune.weight (w (pass r s env memory p).memory) := hlist.weight _
          _ ≤ (pass r s env memory p).plan.weight (w (pass r s env memory p).memory) := weight_prune_le _ _
          _ < weight := hweight ▸ hpass.lt hchanged
      have hkept : ∀ c ∈ q.ctes, J c := fun c hc => hpass.kept c (mem_prune.1 (hlist.mem.1 hc)).1
      obtain ⟨N, last, hlast, hall⟩ := ih _ hlighter (hlist.wellFormed hwell) hkept _ rfl
      refine ⟨N + 1, last, hlast, fun fuel hfuel k => ?_⟩
      obtain ⟨fuel, rfl⟩ := Nat.exists_eq_add_of_le' (Nat.le_trans (Nat.le_add_left 1 N) hfuel)
      rw [hrun, if_pos hchanged]
      exact hall fuel (Nat.le_of_succ_le_succ hfuel) k
    · refine ⟨1, q, hlist.wellFormed hwell, fun fuel hfuel k => ?_⟩
      obtain ⟨fuel, rfl⟩ := Nat.exists_eq_add_of_le' hfuel
      rw [hrun, if_neg hchanged]

/-- rules one after the other -/
theorem foldlM_converges (hsort : Topological.IsSort sort) (env : Environment) (s : OptimizerSettings)
    (rules : List Rule) (hp : p.WellFormed) :
    ∃ N q, q.WellFormed ∧ ∀ k, N ≤ k →
      rules.foldlM (fun p r => runRule sort r { s with maxLoops := k } env k {} p) p = .ok q := by
  induction rules generalizing p with
  | nil => exact ⟨0, p, hp, fun _ _ => rfl⟩
  | cons r rest ih =>
    obtain ⟨J, w, hr, hJ⟩ := r.lightens env s p
    obtain ⟨N, q, hq, hrun⟩ := runRule_converges hsort hr hp hJ {}
    obtain ⟨N', last, hlast, hrest⟩ := ih hq
    refine ⟨max N N', last, hlast, fun k hk => ?_⟩
    rw [List.foldlM_cons, hrun k (Nat.le_trans (Nat.le_max_left N N') hk) k]
    exact hrest k (Nat.le_trans (Nat.le_max_right N N') hk)

/-! ## Returning the root -/

theorem Returns.reads (h : Returns env p q) : p.Reads p.root q.root := by
  obtain ⟨n, hn, rfl⟩ := h
  obtain ⟨root, parent, hy, rfl⟩ := yields_of_directParent hn
  obtain ⟨hmem, hname⟩ := find?_some hy.isRoot
  refine ⟨root, hmem, hname, ?_⟩
  rw [collapse, hy.isRoot, hy.parents]
  exact List.mem_cons_self

/-- when the root is returned it is live no longer, and nothing becomes live -/
theorem Returns.reachable_size_lt (hp : p.WellFormed) (h : Returns env p q) : q.reachable.size < p.reachable.size := by
  obtain ⟨g, hg⟩ := h.edits hp
  have hq := hg.wellFormed hp
  have hsub : ∀ n ∈ q.reachable, n ∈ p.reachable :=
    fun n hn => (mem_reachable hp).2 (hg.live ((mem_reachable hq).1 hn))
  have hroot : p.root ∈ p.reachable := (mem_reachable hp).2 .refl
  have hgone : p.root ∉ q.reachable := by
    intro hin
    have hback : ∀ n, q.Live n → Relation.ReflTransGen p.Reads q.root n := by
      intro n hn
      induction hn with
      | refl => exact .refl
      | tail _ hread ih => exact ih.trans (hg.transGen hread).to_reflTransGen
    exact hp.acyclic _ (.head' h.reads (hback _ ((mem_reachable hq).1 hin)))
  by_contra hle
  exact hgone (SortedSet.mem_of_size_le hsub (Nat.le_of_not_lt hle) hroot)

theorem returnDirectly_converges (env : Environment) (hp : p.WellFormed) : ∃ N q, q.WellFormed ∧
    ∀ fuel, N ≤ fuel → ∀ limit, returnDirectly env limit fuel p = .ok q := by
  induction hsize : p.reachable.size using Nat.strong_induction_on generalizing p with
  | _ size ih =>
    cases hdirect : p.directParent env with
    | none =>
      refine ⟨0, p, hp, fun fuel _ limit => ?_⟩
      rw [returnDirectly, hdirect]
    | some parent =>
      have hreturns : Returns env p (p.collapse parent) := ⟨parent, hdirect, rfl⟩
      obtain ⟨g, hg⟩ := hreturns.edits hp
      obtain ⟨N, q, hq, hall⟩ := ih _ (hsize ▸ hreturns.reachable_size_lt hp) (hg.wellFormed hp) rfl
      refine ⟨N + 1, q, hq, fun fuel hfuel limit => ?_⟩
      obtain ⟨fuel, rfl⟩ := Nat.exists_eq_add_of_le' (Nat.le_trans (Nat.le_add_left 1 N) hfuel)
      rw [returnDirectly, hdirect]
      exact hall fuel (Nat.le_of_succ_le_succ hfuel) limit

/-! ## Plans without their root -/

theorem rootCte_unrooted (h : p.root ∉ p.names) : p.rootCte = none := by
  cases hroot : p.rootCte with
  | none => rfl
  | some c =>
    obtain ⟨hc, hname⟩ := find?_some hroot
    exact absurd (hname ▸ name_mem hc) h

theorem returnDirectly_unrooted {limit fuel : ℕ} (h : p.root ∉ p.names) :
    returnDirectly env limit fuel p = .ok p := by
  have hdirect : p.directParent env = none := by
    rw [directParent, rootCte_unrooted h]
    rfl
  unfold returnDirectly
  rw [hdirect]

/-- of a plan without its root nothing is kept -/
theorem prune_unrooted (h : p.root ∉ p.names) : p.prune = ⟨[], p.root⟩ := by
  have hnone : p.parentsOf p.root = [] := by
    rw [parentsOf, show p.find? p.root = none from rootCte_unrooted h]
  have hreachable : p.reachable = SortedSet.singleton p.root := by
    refine Reach.grow_eq_self fun x hx y hy => ?_
    rw [SortedSet.mem_singleton.1 hx, hnone] at hy
    cases hy
  have hctes : p.prune.ctes = [] := by
    refine List.eq_nil_iff_forall_not_mem.2 fun c hc => ?_
    obtain ⟨hmem, hin⟩ := mem_prune.1 hc
    rw [hreachable, SortedSet.mem_singleton] at hin
    exact h (hin ▸ name_mem hmem)
  show (⟨p.prune.ctes, p.root⟩ : CtePlan) = _
  rw [hctes]

theorem reorderBy_empty (hsort : Topological.IsSort sort) (root : String) :
    reorderBy sort ⟨[], root⟩ = .ok ⟨[], root⟩ := by
  have hacyclic : ∀ i : Nat, ¬ Relation.TransGen (fun a b => (a, b) ∈ ([] : List Topological.Edge)) i i := by
    intro i h
    obtain ⟨_, hfirst, -⟩ := Relation.TransGen.head'_iff.1 h
    cases hfirst
  obtain ⟨l, hl, hperm, -⟩ := @hsort 0 [] (fun _ _ h => by cases h) hacyclic
  obtain rfl : l = [] := List.perm_nil.1 hperm
  rw [reorderBy, show sort (⟨[], root⟩ : CtePlan).ctes.length (edges ⟨[], root⟩) = .ok [] from hl]
  rfl

theorem names_redirect (readers : List String) (old new : String) (p : CtePlan) :
    (FoldAggregate.redirect readers old new p).names = p.names := by
  unfold FoldAggregate.redirect
  induction readers generalizing p with
  | nil => rfl
  | cons reader rest ih => exact (ih _).trans (names_modify fun _ hc => hc)

/-- a rewrite keeps the steps' names -/
theorem Rewrite.names (h : Rewrite env r p q) : q.names = p.names := by
  cases h with
  | inline hc hd => exact names_modify fun _ _ => hd.alike.name.trans (find?_some hc).2
  | push => exact names_modify fun _ hc => hc
  | drop => exact names_modify fun _ hc => hc
  | write hc hd => exact names_modify fun _ _ => (InlineConstant.Written.alike hd).1.name.trans (find?_some hc).2
  | fold => exact (names_redirect _ _ _ _).trans (names_modify fun _ hc => hc)

/-- a root that is no step stays that -/
theorem Rewrites.unrooted (h : Rewrites env r p q) (hroot : p.root ∉ p.names) : q.root = p.root ∧ q.root ∉ q.names := by
  induction h with
  | refl => exact ⟨rfl, hroot⟩
  | @tail a b _ hr ih =>
    obtain ⟨ha, hnot⟩ := ih
    have hsame : b.root = a.root := by
      cases hr with
      | fold hc =>
        obtain ⟨hmem, -⟩ := find?_some hc
        refine if_neg fun he => hnot ?_
        rw [he]
        exact name_mem hmem
      | _ => rfl
    exact ⟨hsame.trans ha, by rwa [hsame, Rewrite.names hr]⟩

/-- the first pass over a plan without its root leaves nothing, and the second one does not change that -/
theorem runRule_unrooted (hsort : Topological.IsSort sort) (hroot : p.root ∉ p.names) (memory : RuleMemory) {fuel : ℕ}
    (hfuel : 2 ≤ fuel) :
    runRule sort r s env fuel memory p = .ok ⟨[], p.root⟩ := by
  have hpass : ∀ (p : CtePlan) memory, p.root ∉ p.names →
      (pass r s env memory p).plan.prune.reorderBy sort = .ok ⟨[], p.root⟩ := by
    intro p memory hroot
    obtain ⟨hsame, hnot⟩ := Rewrites.unrooted (pass_rewrites r memory p) hroot
    rw [prune_unrooted hnot, hsame]
    exact reorderBy_empty hsort p.root
  have hempty : ∀ memory, (pass r s env memory ⟨[], p.root⟩).changed = false := fun _ => rfl
  obtain ⟨fuel, rfl⟩ := Nat.exists_eq_add_of_le' hfuel
  rw [runRule_succ (hpass p memory hroot), runRule_succ (hpass ⟨[], p.root⟩ _ List.not_mem_nil), hempty]
  split
  · rfl
  · rfl

theorem foldlM_unrooted (hsort : Topological.IsSort sort) (env : Environment) (s : OptimizerSettings)
    (rules : List Rule) {k : ℕ} (hk : 2 ≤ k) (hroot : p.root ∉ p.names) :
    ∃ q, q.root = p.root ∧ q.root ∉ q.names ∧
      rules.foldlM (fun p r => runRule sort r s env k {} p) p = .ok q := by
  induction rules generalizing p with
  | nil => exact ⟨p, rfl, hroot, rfl⟩
  | cons r rest ih =>
    obtain ⟨q, hq, hnot, hrun⟩ := @ih ⟨[], p.root⟩ List.not_mem_nil
    refine ⟨q, hq, hnot, ?_⟩
    rw [List.foldlM_cons, runRule_unrooted hsort hroot {} hk]
    exact hrun

/-! ## The whole optimizer -/

/-- the last listing, after the root was returned and the rules have run -/
theorem optimizeBy_of_stages {a b : CtePlan}
    (hstart : (if s.directReturn then prune <$> returnDirectly env s.maxLoops s.maxLoops p else .ok p) = .ok b)
    (hrules : (Rule.all.filter (Rule.isEnabled s)).foldlM (fun p r => runRule sort r s env s.maxLoops {} p) b = .ok a) :
    optimizeBy sort env s p = a.prune.reorderBy sort := by
  have hstages : optimizeBy sort env s p =
      (if s.directReturn then prune <$> returnDirectly env s.maxLoops s.maxLoops p else .ok p) >>= fun b =>
        (Rule.all.filter (Rule.isEnabled s)).foldlM (fun p r => runRule sort r s env s.maxLoops {} p) b >>= fun a =>
          a.prune.reorderBy sort := by
    unfold optimizeBy
    cases s.directReturn with
    | false => rfl
    | true => rfl
  rw [hstages, hstart]
  exact congrArg (· >>= fun a => a.prune.reorderBy sort) hrules

/-- **from some limit on, the optimizer gives one and the same plan**, whichever sort lists the steps -/
theorem optimizeBy_converges (hsort : Topological.IsSort sort) (env : Environment) (s : OptimizerSettings)
    (hn : p.names.Nodup) (hparents : ∀ c ∈ p.ctes, ∀ n ∈ c.parents, n ∈ p.names)
    (hacyclic : ∀ n, ¬ Relation.TransGen p.Reads n n) :
    ∃ N q, ∀ k, N ≤ k → optimizeBy sort env { s with maxLoops := k } p = .ok q := by
  by_cases hroot : p.root ∈ p.names
  · have hp : p.WellFormed := ⟨hn, hroot, hparents, hacyclic⟩
    have hstart : ∃ N b, b.WellFormed ∧ ∀ k, N ≤ k →
        (if s.directReturn then prune <$> returnDirectly env k k p else .ok p) = .ok b := by
      cases s.directReturn with
      | false => exact ⟨0, p, hp, fun _ _ => rfl⟩
      | true =>
        obtain ⟨N, b, hb, hall⟩ := returnDirectly_converges env hp
        refine ⟨N, b.prune, hb.prune, fun k hk => ?_⟩
        rw [if_pos rfl, hall k hk k]
        rfl
    obtain ⟨N, b, hb, hreturned⟩ := hstart
    obtain ⟨N', a, ha, hrules⟩ := foldlM_converges hsort env s (Rule.all.filter (Rule.isEnabled s)) hb
    obtain ⟨q, hq, -⟩ := reorderBy_eq_ok hsort ha.prune
    refine ⟨max N N', q, fun k hk => ?_⟩
    have hlast := hrules k (Nat.le_trans (Nat.le_max_right N N') hk)
    rw [← Rule.isEnabled_maxLoops k] at hlast
    rw [optimizeBy_of_stages (hreturned k (Nat.le_trans (Nat.le_max_left N N') hk)) hlast]
    exact hq
  · refine ⟨2, ⟨[], p.root⟩, fun k hk => ?_⟩
    have hstart : ∃ b : CtePlan, b.root = p.root ∧ b.root ∉ b.names ∧
        (if s.directReturn then prune <$> returnDirectly env k k p else .ok p) = .ok b := by
      cases s.directReturn with
      | false => exact ⟨p, rfl, hroot, rfl⟩
      | true =>
        refine ⟨p.prune, rfl, ?_, ?_⟩
        · rw [prune_unrooted hroot]
          exact List.not_mem_nil
        · rw [if_pos rfl, returnDirectly_unrooted hroot]
          rfl
    obtain ⟨b, hb, hnot, hreturned⟩ := hstart
    obtain ⟨a, ha, hnot', hrules⟩ := foldlM_unrooted hsort env { s with maxLoops := k }
      (Rule.all.filter (Rule.isEnabled { s with maxLoops := k })) hk hnot
    rw [optimizeBy_of_stages hreturned hrules, prune_unrooted hnot', ha, hb]
    exact reorderBy_empty hsort p.root

/-- one pass is not enough where something changes; from some number on the passes are, also where the root is
missing -/
theorem optimize_converges_total : (optimize .empty { maxLoops := 1 } total).toOption.map names = none ∧
    (∃ N q, ∀ k, N ≤ k → optimize .empty { maxLoops := k } total = .ok q) ∧
    ∃ N q, ∀ k, N ≤ k → optimize .empty { maxLoops := k } { total with root := "missing" } = .ok q := by
  have hwell : total.WellFormed :=
    wellFormed_of_idxOf (by decide +kernel) (by decide +kernel) (by decide +kernel)
  refine ⟨by decide +kernel, ?_, ?_⟩
  · exact optimizeBy_converges Topological.isSort_order .empty {} hwell.distinct hwell.parents hwell.acyclic
  · exact optimizeBy_converges Topological.isSort_order .empty {} (p := { total with root := "missing" }) hwell.distinct
      hwell.parents hwell.acyclic

end CtePlan

end SemanticPlanner
