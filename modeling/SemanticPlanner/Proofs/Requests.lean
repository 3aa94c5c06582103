/-
Which requests each generator makes of its search.

  AgreeFrom                two searches agree on every request of a scope from some depth on
  sourceConcept_agree      whichever way a concept is sourced, its generator makes requests of the scope only, deeper
                           than the search it works for

A generator knows its search only by asking it. That two runs of it agree as long as their searches agree on some
requests says that it makes no other ones.
-/
import SemanticPlanner.Proofs.Agreement

namespace SemanticPlanner

/-- two searches do the same with every request of the scope that is at least so deep -/
def AgreeFrom (w : Scene) (σ : Scope w.environment) (d : Nat) (search search' : Search) : Prop :=
  ∀ r : Request, d ≤ r.depth → σ.Admits r → Agree w (search r) (search' r)

variable {w : Scene} {σ : Scope w.environment} {search search' : Search} {t : Task} {r : Request} {d depth : Nat}
  {c picked : Concept} {cs : List Concept} {condition : Option Condition} {id base : PlanId}

/-! ## What generators read -/

namespace Inputs

theorem knows_propertyKeys {keys : List Concept} (h : propertyKeys w.environment cs = .ok keys) : σ.KnowsAll keys := by
  obtain ⟨ls, hls, h⟩ := Resolve.bind_eq_ok h
  cases h
  refine .flatten fun l hl => ?_
  obtain ⟨c, -, hc⟩ := mem_mapM_ok hls hl
  exact Scope.knows_conceptsFor hc

theorem knows_ofFunction (h : ofFunction w.environment c = .ok cs) : σ.KnowsAll cs := by
  rw [ofFunction] at h
  split at h
  · obtain ⟨direct, hdirect, h⟩ := Resolve.bind_eq_ok h
    obtain ⟨components, hcomponents, h⟩ := Resolve.bind_eq_ok h
    obtain ⟨keys, hkeys, h⟩ := Resolve.bind_eq_ok h
    cases h
    exact .unique (.append (.append (Scope.knows_conceptsFor hdirect) (Scope.knows_conceptsFor hcomponents))
      (knows_propertyKeys hkeys))
  · exact Scope.knows_conceptsFor h
  · cases h

theorem knows_ofFilter {i : FilterInputs} (h : ofFilter w.environment c = .ok i) :
    σ.KnowsAll i.rows ∧ σ.KnowsAll i.existence := by
  rw [ofFilter] at h
  split at h
  · rename_i f _
    obtain ⟨content, hcontent, h⟩ := Resolve.bind_eq_ok h
    obtain ⟨read, hread, h⟩ := Resolve.bind_eq_ok h
    have hrest : ∀ keys, σ.KnowsAll keys → (do
        let existence ← w.environment.conceptsFor f.condition.existenceArguments
        pure (⟨Concept.unique (content :: read ++ keys), Concept.unique existence⟩ : FilterInputs)) = Except.ok i →
        σ.KnowsAll i.rows ∧ σ.KnowsAll i.existence := by
      intro keys hkeys h
      obtain ⟨existence, hexistence, h⟩ := Resolve.bind_eq_ok h
      cases h
      exact ⟨.unique (.append (.cons (Scope.knows_of_concept hcontent) (Scope.knows_conceptsFor hread)) hkeys),
        .unique (Scope.knows_conceptsFor hexistence)⟩
    dsimp only at h
    split at h
    · obtain ⟨keys, hkeys, h⟩ := Resolve.bind_eq_ok h
      exact hrest keys (Scope.knows_conceptsFor hkeys) h
    · exact hrest [] .nil h
  · cases h

theorem knows_ofWindow (h : ofWindow w.environment c = .ok cs) : σ.KnowsAll cs := by
  rw [ofWindow] at h
  split at h
  · obtain ⟨content, hcontent, h⟩ := Resolve.bind_eq_ok h
    obtain ⟨parts, hparts, h⟩ := Resolve.bind_eq_ok h
    obtain ⟨order, horder, h⟩ := Resolve.bind_eq_ok h
    cases h
    exact .unique (.append (.cons (Scope.knows_of_concept hcontent) (Scope.knows_conceptsFor hparts))
      (Scope.knows_conceptsFor horder))
  · cases h

end Inputs

/-- what a concept reads is known -/
theorem Agree.reads {f : Environment → Concept → Except PlanningError (List Concept)}
    (h : ∀ c ds, f w.environment c = .ok ds → σ.KnowsAll ds) (c : Concept) :
    Agree w (liftM (f w.environment c) : Planning (List Concept)) (liftM (f w.environment c)) σ.KnowsAll := .lift (h c)

/-- what several concepts read is known -/
theorem Agree.readsAll {f : Environment → Concept → Except PlanningError (List Concept)}
    (h : ∀ c ds, f w.environment c = .ok ds → σ.KnowsAll ds) (cs : List Concept) :
    Agree w (cs.mapM fun c => (liftM (f w.environment c) : Planning (List Concept)))
      (cs.mapM fun c => liftM (f w.environment c)) fun ls => σ.KnowsAll ls.flatten :=
  (Agree.mapM fun c _ => .reads h c).mono fun _ h => .flatten h

namespace Enrich

theorem lookups_agree (hs : AgreeFrom w σ (depth + 1) search search') (hk : σ.AllowsOption condition)
    (l : List (List String × List String)) :
    Agree w (lookups search depth condition l) (lookups search' depth condition l) := by
  induction l with
  | nil => exact .pure trivial
  | cons e rest ih =>
    refine .bind (.conceptsFor σ _) fun keys hkeys => .bind (.conceptsFor σ _) fun values hvalues => ?_
    refine .bind (hs _ (Nat.le_refl _) ⟨hkeys.append hvalues, hk⟩) fun found _ => ?_
    cases found with
    | none => exact .pure trivial
    | some id => exact .bind ih fun _ _ => .pure trivial

theorem withProperties_agree (hs : AgreeFrom w σ (depth + 1) search search') (hk : σ.AllowsOption condition)
    (properties : List Concept) :
    Agree w (withProperties search base properties depth condition)
      (withProperties search' base properties depth condition) := by
  refine .bind (lookups_agree hs hk _) fun found _ => ?_
  cases found with
  | none => exact .pure trivial
  | some parents => exact .core fun _ => .insert _ _

theorem withSearch_agree (hs : AgreeFrom w σ (depth + 1) search search') (hk : σ.AllowsOption condition)
    (core : NodeCore) {mandatory : List Concept} (hm : σ.KnowsAll mandatory) :
    Agree w (withSearch search base core mandatory depth condition)
      (withSearch search' base core mandatory depth condition) := by
  refine .bind (hs _ (Nat.le_refl _) ⟨hm, hk⟩) fun found _ => ?_
  cases found with
  | none => exact .pure trivial
  | some id => exact .insert _ _

theorem node_agree (hs : AgreeFrom w σ (depth + 1) search search') (hk : σ.AllowsOption condition)
    {joinKeys companions : List Concept} (hj : σ.KnowsAll joinKeys) (hc : σ.KnowsAll companions) :
    Agree w (node search base joinKeys companions depth condition)
      (node search' base joinKeys companions depth condition) := by
  refine .core fun core => ?_
  dsimp only
  split
  · exact .pure trivial
  split
  · exact withProperties_agree hs hk _
  · exact withSearch_agree hs hk core (.unique (hj.append (hc.filter _)))

end Enrich

theorem AgreeFrom.deeper (hs : AgreeFrom w σ d search search') : AgreeFrom w σ (d + 1) search search' :=
  fun r hd hr => hs r (Nat.le_of_succ_le hd) hr

namespace Derived

theorem function_agree (hs : AgreeFrom w σ t.depth search search') (ht : σ.Holds t) :
    Agree w (function search t) (function search' t) := by
  refine .environment (.bind (.reads (fun _ _ => Inputs.knows_ofFunction (σ := σ)) _) fun own hown => ?_)
  rw [List.partition_eq_filter_filter]
  refine .bind (.readsAll (fun _ _ => Inputs.knows_ofFunction (σ := σ)) _) fun peerInputs hpeers => ?_
  refine .bind (hs _ (Nat.le_succ _) ⟨.unique (.append (.unique (hown.append hpeers)) (ht.companions.filter _)),
    ht.condition⟩) fun found _ => ?_
  cases found with
  | none => exact .pure trivial
  | some id =>
    refine .bind (.edit fun _ => rfl) fun _ _ => .core fun core => ?_
    dsimp only
    split
    · exact .bind (.edit fun _ => rfl) fun _ _ => .pure trivial
    · exact .pure trivial

/-- a companion is absorbed with what it reads -/
theorem knows_absorb {g g' : Grouping} {companion : Concept} (h : absorb w.environment c g companion = .ok g')
    (hg : σ.KnowsAll g.inputs) : σ.KnowsAll g'.inputs := by
  rw [absorb] at h
  split at h
  · cases h
    exact hg
  obtain ⟨inputs, hinputs, h⟩ := Resolve.bind_eq_ok h
  dsimp only at h
  split at h
  · cases h
    exact .unique (hg.append (Inputs.knows_ofFunction hinputs))
  · cases h
    exact hg

theorem knows_absorbed {g g' : Grouping} (h : cs.foldlM (absorb w.environment c) g = .ok g')
    (hg : σ.KnowsAll g.inputs) : σ.KnowsAll g'.inputs := by
  induction cs generalizing g with
  | nil =>
    cases h
    exact hg
  | cons companion cs ih =>
    rw [List.foldlM_cons] at h
    obtain ⟨g₁, hg₁, h⟩ := Resolve.bind_eq_ok h
    exact ih h (knows_absorb hg₁ hg)

theorem aggregate_agree (hs : AgreeFrom w σ t.depth search search') (ht : σ.Holds t) :
    Agree w (aggregate search t) (aggregate search' t) := by
  refine .environment (.bind (.reads (fun _ _ => Inputs.knows_ofFunction (σ := σ)) _) fun own hown => ?_)
  refine .bind (.conceptsFor σ _) fun components hcomponents => ?_
  refine .bind (.lift (Q := fun g => σ.KnowsAll g.inputs) fun g hg =>
    knows_absorbed hg (.unique (hown.append hcomponents))) fun g hg => ?_
  refine .bind (hs _ (Nat.le_refl _) ⟨hg, ht.condition⟩) fun found _ => ?_
  cases found with
  | none => exact .pure trivial
  | some parent =>
    refine .bind (.insert _ _) fun id _ => ?_
    split
    · exact .pure trivial
    · exact .map (Enrich.node_agree hs.deeper ht.condition hcomponents ht.companions)

theorem regroup_agree (hs : AgreeFrom w σ t.depth search search') (ht : σ.Holds t) :
    Agree w (regroup search t) (regroup search' t) := by
  refine .bind (.conceptsFor σ _) fun args hargs => ?_
  refine .bind (hs _ (Nat.le_succ _) ⟨hargs, ht.condition⟩) fun found _ => ?_
  cases found with
  | none => exact .pure trivial
  | some parent =>
    refine .bind (.insert _ _) fun id _ => ?_
    split
    · exact .pure trivial
    refine .bind (hs _ (Nat.le_succ _) ⟨.unique (hargs.append ht.companions), ht.condition⟩) fun found _ => ?_
    cases found with
    | none => exact .pure trivial
    | some other => exact .bind (.insert _ _) fun _ _ => .bind (.edit fun _ => rfl) fun _ _ => .pure trivial

theorem window_agree (hs : AgreeFrom w σ t.depth search search') (ht : σ.Holds t) :
    Agree w (window search t) (window search' t) := by
  refine .environment (.bind (.reads (fun _ _ => Inputs.knows_ofWindow (σ := σ)) _) fun own hown => ?_)
  refine .bind (.readsAll (fun _ _ => Inputs.knows_ofWindow (σ := σ)) _) fun peerInputs hpeers => ?_
  refine .bind (hs _ (Nat.le_succ _) ⟨.unique (hown.append hpeers), ht.condition⟩) fun found _ => ?_
  cases found with
  | none => exact .pure trivial
  | some parent =>
    refine .bind (.insert _ _) fun base _ => .bind (.insert _ _) fun wrapped _ => ?_
    refine .bind (.conceptsFor σ _) fun joinKeys hjoin => ?_
    exact .map (Enrich.node_agree hs.deeper ht.condition hjoin ht.companions)

/-- an expansion above what was found, wrapped -/
theorem expand_agree (found : Option (List PlanId)) (inputs outputs : List String) :
    Agree w (match found with
      | none => pure none
      | some parents => do
        let base ← Planning.insert (.unnest [t.concept.address]) (above parents inputs outputs t)
        some <$> Planning.insert (.merge none) (above [base] outputs outputs t)) (match found with
      | none => pure none
      | some parents => do
        let base ← Planning.insert (.unnest [t.concept.address]) (above parents inputs outputs t)
        some <$> Planning.insert (.merge none) (above [base] outputs outputs t)) := by
  cases found with
  | none => exact .pure trivial
  | some parents => exact .bind (.insert _ _) fun _ _ => .map (.insert _ _)

theorem unnest_agree (hs : AgreeFrom w σ t.depth search search') (ht : σ.Holds t) :
    Agree w (unnest search t) (unnest search' t) := by
  refine .bind (.conceptsFor σ _) fun args hargs => ?_
  dsimp only
  split
  · exact .bind (.pure (Q := fun _ => True) trivial) fun found _ => expand_agree found _ _
  · refine .bind (hs _ (Nat.le_succ _) ⟨.unique (hargs.append (ht.companions.filter _)), ht.condition⟩) fun found _ => ?_
    exact .bind (.pure (Q := fun _ => True) trivial) fun found _ => expand_agree found _ _

theorem recursion_agree (hs : AgreeFrom w σ t.depth search search') (ht : σ.Holds t) :
    Agree w (recursion search t) (recursion search' t) := by
  refine .bind (.conceptsFor σ _) fun args hargs => ?_
  dsimp only
  split
  · exact .bind (.throw (Q := fun _ => False)) fun _ h => h.elim
  refine .bind (hs _ (Nat.le_succ _) ⟨hargs, ht.condition⟩) fun found _ => ?_
  cases found with
  | none => exact .pure trivial
  | some parent =>
    refine .bind (.insert _ _) fun base _ => .bind (.insert _ _) fun grouped _ => ?_
    exact .map (Enrich.node_agree hs.deeper ht.condition hargs ht.companions)

end Derived

namespace Filter

/-- what a filter's plan holds is in the scope of its task -/
structure Planned (σ : Scope w.environment) (t : Task) (plan : Plan) : Prop where
  task : plan.task = t
  condition : σ.Allowed plan.condition
  content : σ.Known plan.content
  others : σ.KnowsAll plan.others
  rows : σ.KnowsAll plan.rows
  existence : σ.KnowsAll plan.existence

theorem planned {p : Plan} (ht : σ.Holds t) (h : plan w.environment t = .ok p) : Planned σ t p := by
  rw [plan] at h
  split at h
  · rename_i f hf
    obtain ⟨content, hcontent, h⟩ := Resolve.bind_eq_ok h
    obtain ⟨own, hown, h⟩ := Resolve.bind_eq_ok h
    rw [List.partition_eq_filter_filter] at h
    obtain ⟨peerRows, hpeers, h⟩ := Resolve.bind_eq_ok h
    cases h
    obtain ⟨hrows, hexistence⟩ := Inputs.knows_ofFilter (σ := σ) hown
    have hpeers : σ.KnowsAll peerRows.flatten := .flatten fun l hl => by
      obtain ⟨c, -, hc⟩ := mem_mapM_ok hpeers hl
      rw [map_eq_pure_bind] at hc
      obtain ⟨i, hi, hc⟩ := Resolve.bind_eq_ok hc
      cases hc
      exact (Inputs.knows_ofFilter hi).1
    refine ⟨rfl, σ.lineage _ ht.concept _ ?_, Scope.knows_of_concept hcontent, ht.companions.filter _,
      .unique (hrows.append hpeers), hexistence⟩
    rw [Concept.conditions, hf]
    exact List.mem_singleton.2 rfl
  · cases h

variable {plan : Plan}

theorem push_agree (hs : AgreeFrom w σ t.depth search search') (ht : σ.Holds t) (hp : Planned σ t plan) :
    Agree w (push search plan) (push search' plan) := by
  obtain ⟨rfl, hcondition, -, hothers, hrows, -⟩ := hp
  have hk : σ.AllowsOption (if plan.isApplied then plan.task.condition else some plan.condition) := by
    split
    · exact ht.condition
    · exact fun k hk => Option.some.inj hk ▸ hcondition
  refine .bind (hs _ (Nat.le_succ _) ⟨.unique (hrows.append hothers), hk⟩) fun found _ => ?_
  cases found with
  | none => exact .pure trivial
  | some id => exact .bind (.edit fun _ => rfl) fun _ _ => .pure trivial

theorem sourceChecks_agree (hs : AgreeFrom w σ (depth + 1) search search') (hcs : σ.KnowsAll cs) :
    Agree w (sourceChecks search depth cs) (sourceChecks search' depth cs) := by
  induction cs with
  | nil => exact .pure trivial
  | cons c cs ih =>
    obtain ⟨hc, hcs⟩ := List.forall_mem_cons.1 hcs
    refine .bind (hs _ (Nat.le_refl _) ⟨.cons hc .nil, Scope.allows_none⟩) fun found _ => ?_
    cases found with
    | none => exact .pure trivial
    | some id => exact .bind (ih hcs) fun _ _ => .pure trivial

theorem separate_agree (hs : AgreeFrom w σ t.depth search search') (ht : σ.Holds t) (hp : Planned σ t plan) :
    Agree w (separate search plan) (separate search' plan) := by
  obtain ⟨rfl, -, -, -, hrows, hexistence⟩ := hp
  refine .bind (hs _ (Nat.le_succ _) ⟨hrows, ht.condition⟩) fun found _ => ?_
  cases found with
  | none => exact .pure trivial
  | some rows =>
    refine .bind (sourceChecks_agree hs.deeper hexistence) fun checks _ => ?_
    cases checks with
    | none => exact .pure trivial
    | some checks => exact .bind (.conceptsFor σ _) fun _ _ => .map (.insert _ _)

theorem joinBack_agree (hs : AgreeFrom w σ t.depth search search') (ht : σ.Holds t) (hp : Planned σ t plan) :
    Agree w (joinBack search plan id) (joinBack search' plan id) := by
  obtain ⟨rfl, -, hcontent, hothers, hrows, -⟩ := hp
  refine .bind (hs _ (Nat.le_succ _) ⟨.unique (.append (.cons hcontent hrows) hothers), ht.condition⟩) fun found _ => ?_
  cases found with
  | none => exact .pure trivial
  | some found => exact .insert _ _

theorem source_agree (hs : AgreeFrom w σ t.depth search search') (ht : σ.Holds t) :
    Agree w (source search t) (source search' t) := by
  refine .environment (.bind (.lift fun _ => planned ht) fun plan hp => ?_)
  split
  · exact push_agree hs ht hp
  refine .bind (separate_agree hs ht hp) fun found _ => ?_
  cases found with
  | none => exact .pure trivial
  | some id =>
    dsimp only
    split
    · exact .pure trivial
    · exact .map (joinBack_agree hs ht hp)

end Filter

/-! ## Inner selects -/

/-- an inner select makes one request -/
theorem sourceSelect_agree (h : Agree w (search { concepts := cs, depth, condition })
      (search' { concepts := cs, depth, condition })) :
    Agree w (sourceSelect search cs depth condition) (sourceSelect search' cs depth condition) := by
  rw [sourceSelect, sourceSelect]
  split
  · exact .pure trivial
  refine .bind h fun found _ => ?_
  cases found with
  | none => exact .pure trivial
  | some root =>
    refine .environment (.core fun core => .bind (.resolve _) fun relation _ => ?_)
    refine .bind (.lift fun _ _ => trivial) fun verdict (_ : True) => ?_
    split
    · exact .pure trivial
    · exact .bind (.insert _ _) fun _ _ => .bind (.resolve _) fun _ _ => .pure trivial

/-- a query makes one request, at depth zero -/
theorem sourceQuery_agree (h : Agree w (search { concepts := cs, depth := 0, condition })
      (search' { concepts := cs, depth := 0, condition })) :
    Agree w (sourceQuery search cs condition) (sourceQuery search' cs condition) := by
  refine .bind (sourceSelect_agree h) fun found _ => ?_
  cases found with
  | none => exact .throw
  | some id => exact .pure trivial

namespace Rowset

theorem expose_agree (env : Environment) (l : RowsetLineage) (σ : Scope w.environment) :
    Agree w (expose env l t id) (expose env l t id) := by
  have hrest : ∀ shown requested : List String, Agree w (do
      let stray := (← Planning.core id).outputs.filter fun o => !shown.contains o && !requested.contains o
      Planning.edit fun a => a.hideOutputs id stray
      let visible ← Planning.conceptsFor (← Planning.core id).visible
      Planning.edit fun a => a.setGrain id (some (Grain.ofConcepts visible))) (do
      let stray := (← Planning.core id).outputs.filter fun o => !shown.contains o && !requested.contains o
      Planning.edit fun a => a.hideOutputs id stray
      let visible ← Planning.conceptsFor (← Planning.core id).visible
      Planning.edit fun a => a.setGrain id (some (Grain.ofConcepts visible))) := by
    intro shown requested
    refine .core fun core => .bind (.edit fun _ => rfl) fun _ _ => .core fun core => ?_
    exact .bind (.conceptsFor σ _) fun _ _ => .edit fun _ => rfl
  refine .bind (.edit fun _ => rfl) fun _ _ => ?_
  dsimp only
  split
  · exact .bind (.edit fun _ => rfl) fun _ _ => hrest _ _
  · exact hrest _ _

theorem source_agree (hs : AgreeFrom w σ t.depth search search') (ht : σ.Holds t) :
    Agree w (source search t) (source search' t) := by
  refine .environment ?_
  split
  · rename_i l hl
    refine .bind (.pure (Q := fun v => v = l) rfl) ?_
    rintro l rfl
    refine .bind (.conceptsFor σ _) fun outputs houtputs => .bind (.conceptsFor σ _) fun hidden hhidden => ?_
    have hk : σ.AllowsOption l.select.condition := fun k hk => σ.lineage _ ht.concept k (by
      rw [Concept.conditions, hl]
      exact Option.mem_toList.2 hk)
    refine .bind (sourceSelect_agree (hs _ (Nat.le_succ _) ⟨(houtputs.append hhidden).unique, hk⟩)) fun found _ => ?_
    cases found with
    | none => exact .pure trivial
    | some id =>
      refine .bind (expose_agree _ _ σ) fun _ _ => .core fun core => ?_
      split
      · exact .pure trivial
      refine .bind (.conceptsFor σ _) fun inner _ => .bind (.conceptsFor σ _) fun joinKeys hjoin => ?_
      split
      · exact .pure trivial
      refine .bind (.edit fun _ => rfl) fun _ _ => ?_
      exact .map (Enrich.node_agree hs.deeper ht.condition hjoin ht.companions)
  · exact .bind (.throw (Q := fun _ => False)) fun _ h => h.elim

end Rowset

namespace Union

theorem knows_members {ms : List Concept} (h : members w.environment c = .ok ms) : σ.KnowsAll ms := by
  rw [members] at h
  split at h
  · exact Scope.knows_conceptsFor h
  · cases h

theorem knows_pairs {m : Concept} {candidates : List (List Concept)} (hm : σ.KnowsAll cs)
    (hc : ∀ l ∈ candidates, σ.KnowsAll l) : σ.KnowsAll (candidates.foldl (pair m) cs) := by
  induction candidates generalizing cs with
  | nil => exact hm
  | cons l rest ih =>
    obtain ⟨hl, hrest⟩ := List.forall_mem_cons.1 hc
    refine ih ?_ hrest
    rw [pair]
    split
    · rename_i d hd
      split
      · exact hm
      · exact hm.append (.cons (hl d (List.mem_of_find?_eq_some hd)) .nil)
    · exact hm

theorem knows_layers {others : List Concept} {ls : List (List Concept)} (h : layers w.environment c others = .ok ls) :
    ∀ l ∈ ls, σ.KnowsAll l := by
  obtain ⟨candidates, hcandidates, h⟩ := Resolve.bind_eq_ok h
  obtain ⟨own, hown, h⟩ := Resolve.bind_eq_ok h
  cases h
  intro l hl
  obtain ⟨m, hm, rfl⟩ := List.mem_map.1 hl
  refine knows_pairs (.cons (knows_members hown m hm) .nil) fun l hl => ?_
  obtain ⟨d, -, hd⟩ := mem_mapM_ok hcandidates hl
  exact knows_members hd

theorem sourceLayers_agree (hs : AgreeFrom w σ t.depth search search') (ht : σ.Holds t) (shown : List String)
    {ls : List (List Concept)} (hls : ∀ l ∈ ls, σ.KnowsAll l) :
    Agree w (sourceLayers search t shown ls) (sourceLayers search' t shown ls) := by
  induction ls with
  | nil => exact .pure trivial
  | cons layer rest ih =>
    obtain ⟨hl, hrest⟩ := List.forall_mem_cons.1 hls
    refine .bind (hs _ (Nat.le_succ _) ⟨hl, ht.condition⟩) fun found _ => ?_
    cases found with
    | none => exact .pure trivial
    | some id =>
      exact .core fun _ => .bind (.edit fun _ => rfl) fun _ _ => .bind (ih hrest) fun _ _ => .pure trivial

theorem source_agree (hs : AgreeFrom w σ t.depth search search') (ht : σ.Holds t) :
    Agree w (source search t) (source search' t) := by
  refine .environment (.bind (.lift fun _ => knows_layers (σ := σ)) fun ls hls => ?_)
  refine .bind (sourceLayers_agree hs ht _ hls) fun found _ => ?_
  cases found with
  | none => exact .pure trivial
  | some parents => exact .map (.insert _ _)

end Union

namespace Multiselect

theorem branches_agree (hs : AgreeFrom w σ (depth + 1) search search') (m : MultiselectLineage) {l : List InnerSelect}
    (hl : ∀ s ∈ l, σ.AllowsOption (conditionOf s)) :
    Agree w (branches search m depth l) (branches search' m depth l) := by
  induction l with
  | nil => exact .pure trivial
  | cons s rest ih =>
    obtain ⟨hk, hrest⟩ := List.forall_mem_cons.1 hl
    refine .bind (.conceptsFor σ _) fun outputs houtputs => ?_
    refine .bind (sourceSelect_agree (hs _ (Nat.le_refl _) ⟨houtputs, hk⟩)) fun found _ => ?_
    cases found with
    | none => exact .pure trivial
    | some id =>
      exact .core fun _ => .bind (.edit fun _ => rfl) fun _ _ => .bind (ih hrest) fun _ _ => .pure trivial

theorem source_agree (hs : AgreeFrom w σ t.depth search search') (ht : σ.Holds t) :
    Agree w (source search t) (source search' t) := by
  refine .environment ?_
  split
  · rename_i m hm
    refine .bind (.pure (Q := fun v => v = m) rfl) ?_
    rintro m rfl
    have hk : ∀ s ∈ m.selects, σ.AllowsOption (conditionOf s) := fun s hsel k hk => σ.lineage _ ht.concept k (by
      rw [Concept.conditions, hm]
      exact List.mem_filterMap.2 ⟨s, hsel, hk⟩)
    refine .bind (branches_agree hs.deeper m hk) fun found _ => ?_
    cases found with
    | none => exact .pure trivial
    | some bs =>
      refine .bind (.mapM (Q := fun _ => True) fun b _ => .core fun _ => .pure trivial) fun cores _ => ?_
      refine .bind (.conceptsFor σ _) fun outputs _ => .bind (.insert _ _) fun id _ => ?_
      split
      · exact .pure trivial
      dsimp only
      split
      · exact .pure trivial
      refine .bind (.conceptsFor σ _) fun joinKeys hjoin => ?_
      exact .map (Enrich.node_agree hs.deeper ht.condition hjoin ht.companions)
  · exact .bind (.throw (Q := fun _ => False)) fun _ h => h.elim

end Multiselect

/-! ## Datasources -/

namespace Direct

theorem readSource_agree (source : GraphSource) (cs : List Concept) (acceptPartial : Bool) (depth : Nat)
    (condition : Option Condition) : Agree w (readSource source cs acceptPartial depth condition)
      (readSource source cs acceptPartial depth condition) := by
  cases source with
  | single d => exact .bind (.insert _ _) fun _ _ => .pure trivial
  | union ds =>
    refine .bind (.mapM (Q := fun _ => True) fun _ _ => .insert _ _) fun parents _ => ?_
    exact .bind (.insert _ _) fun _ _ => .pure trivial

theorem sourceNode_agree (source : GraphSource) (cs : List Concept) (acceptPartial : Bool) (depth : Nat)
    (condition : Option Condition) : Agree w (sourceNode source cs acceptPartial depth condition)
      (sourceNode source cs acceptPartial depth condition) := by
  rw [sourceNode]
  split
  · exact .insert _ _
  refine .bind (readSource_agree source cs acceptPartial depth condition) ?_
  rintro ⟨id, grouping⟩ -
  dsimp only
  split
  · exact .pure trivial
  · exact .core fun _ => .insert _ _

theorem constantsOnly_agree (cs : List Concept) (depth : Nat) (condition : Option Condition)
    (σ : Scope w.environment) :
    Agree w (constantsOnly cs depth condition) (constantsOnly cs depth condition) := by
  have hrest : ∀ read : List Concept, Agree w (if !read.all isConstant then pure none else
      some <$> Planning.insert .constant
        (((NodeCore.of [] (Concept.addresses (cs ++ read))).withDepth depth).withCondition condition))
      (if !read.all isConstant then pure none else
      some <$> Planning.insert .constant
        (((NodeCore.of [] (Concept.addresses (cs ++ read))).withDepth depth).withCondition condition)) := by
    intro read
    split
    · exact .pure trivial
    · exact .map (.insert _ _)
  cases condition with
  | none => exact .bind (.pure (Q := fun _ => True) trivial) fun read _ => hrest read
  | some c => exact .bind (.conceptsFor σ _) fun read _ => hrest read

theorem chosenNode_agree (g : ReferenceGraph) (e : GraphNode × List GraphNode) :
    Agree w (chosenNode g r e) (chosenNode g r e) := by
  rw [chosenNode]
  split
  · exact .pure trivial
  · refine .bind (.mapM (Q := fun _ => True) fun a _ => .environment (.lift fun _ _ => trivial)) fun cs _ => ?_
    exact .map (sourceNode_agree _ cs _ _ _)

/-- the only parent of a match, or all of them merged -/
theorem combined_agree (plain : List Concept) (parents : List PlanId) :
    Agree w (match parents with
      | [one] => pure (some one)
      | _ => some <$> mergeParents r plain parents) (match parents with
      | [one] => pure (some one)
      | _ => some <$> mergeParents r plain parents) := by
  split
  · exact .pure trivial
  · exact .map (.bind (.mapM (Q := fun _ => True) fun _ _ => .core fun _ => .pure trivial) fun _ _ => .insert _ _)

theorem source_agree (σ : Scope w.environment) : Agree w (source r) (source r) := by
  rw [source]
  rcases r.concepts.partition isConstant with ⟨constants, plain⟩
  dsimp only
  split
  · exact constantsOnly_agree _ _ _ σ
  refine .get fun p _ => ?_
  split
  · exact .pure trivial
  refine .bind (.mapM (Q := fun _ => True) fun e _ => chosenNode_agree _ e) fun nodes _ => ?_
  split
  · exact .pure trivial
  split
  · exact .bind (.pure (Q := fun _ => True) trivial) fun parents _ => combined_agree plain parents
  · refine .bind (.insert _ _) fun c _ => ?_
    exact .bind (.pure (Q := fun _ => True) trivial) fun parents _ => combined_agree plain parents

end Direct

theorem matchOnce_agree (σ : Scope w.environment) : Agree w (matchOnce r) (matchOnce r) := by
  refine .bind (.recallMatch _) fun outcome _ => ?_
  cases outcome with
  | some found => exact .pure trivial
  | none => exact .bind (Direct.source_agree σ) fun found _ => .bind (.storeMatch _ _) fun _ _ => .pure trivial

/-! ## Bridges and pseudonyms -/

namespace Bridged

theorem sourcePieces_agree (hs : AgreeFrom w σ (depth + 1) search search') {l : List (List Concept)}
    (hl : ∀ piece ∈ l, σ.KnowsAll piece) :
    Agree w (sourcePieces search depth l) (sourcePieces search' depth l) := by
  induction l with
  | nil => exact .pure trivial
  | cons piece rest ih =>
    obtain ⟨hpiece, hrest⟩ := List.forall_mem_cons.1 hl
    refine .bind (hs _ (Nat.le_refl _) ⟨hpiece, Scope.allows_none⟩) fun found _ => ?_
    cases found with
    | none => exact .pure trivial
    | some id => exact .bind (ih hrest) fun _ _ => .pure trivial

/-- the pieces of a bridge hold declared concepts -/
theorem knows_groups {graph : ReferenceGraph} {a : Bridge.Aim} {limit : Nat} {gs : List (List Concept)}
    (h : Bridge.groups w.environment graph a condition limit = .ok (some gs)) : ∀ g ∈ gs, σ.KnowsAll g := by
  obtain ⟨found, -, h⟩ := Resolve.bind_eq_ok h
  cases found with
  | nil => cases h
  | cons first rest =>
    dsimp only at h
    split at h
    · cases h
    obtain ⟨listed, hlisted, h⟩ := Resolve.bind_eq_ok h
    cases h
    intro g hg
    obtain ⟨piece, -, hpiece⟩ := mem_mapM_ok hlisted (List.mem_of_mem_filter (List.mem_of_mem_filter hg))
    intro c hc
    obtain ⟨x, -, hx⟩ := mem_mapM_ok hpiece hc
    exact Scope.knows_of_concept hx

theorem knows_firstGroups {p : Planner} (hp : p.scene = w) {gs : List (List Concept)}
    (h : firstGroups p r cs = .ok (some gs)) : ∀ g ∈ gs, σ.KnowsAll g := by
  cases hp
  obtain ⟨first, hfirst, h⟩ := Resolve.bind_eq_ok h
  cases first with
  | some gs' =>
    cases h
    exact knows_groups hfirst
  | none => exact knows_groups h

theorem mergePieces_agree (targets : List Concept) (depth : Nat) (parents : List PlanId) :
    Agree w (mergePieces targets depth parents) (mergePieces targets depth parents) := by
  unfold mergePieces
  split
  · exact .pure trivial
  · refine .environment (.bind (.mapM (Q := fun _ => True) fun _ _ => .core fun _ => .pure trivial) fun _ _ => ?_)
    exact .insert _ _

theorem source_agree (hs : AgreeFrom w σ r.depth search search') : Agree w (source search r) (source search' r) := by
  refine .get fun p hp => .bind (.lift fun _ _ => trivial) fun concepts (_ : True) => ?_
  refine .bind (.lift (Q := fun o => ∀ gs, o = some gs → ∀ g ∈ gs, σ.KnowsAll g) fun o ho gs he =>
    knows_firstGroups hp (he ▸ ho)) fun groups hgroups => ?_
  cases groups with
  | none => exact .pure trivial
  | some groups =>
    dsimp only
    split
    · exact .pure trivial
    refine .bind (sourcePieces_agree hs.deeper (hgroups groups rfl)) fun found _ => ?_
    cases found with
    | none => exact .pure trivial
    | some parents => exact .map (mergePieces_agree _ _ _)

end Bridged

namespace Synonym

theorem mem_combinations {α : Type} {ls : List (List α)} {xs : List α} (h : xs ∈ combinations ls) {x : α}
    (hx : x ∈ xs) : ∃ l ∈ ls, x ∈ l := by
  induction ls generalizing xs with
  | nil =>
    rw [combinations, List.mem_singleton] at h
    subst h
    exact absurd hx List.not_mem_nil
  | cons l ls ih =>
    obtain ⟨a, ha, h⟩ := List.mem_flatMap.1 h
    obtain ⟨ys, hys, rfl⟩ := List.mem_map.1 h
    rcases List.mem_cons.1 hx with rfl | hx
    · exact ⟨l, List.mem_cons_self, ha⟩
    · obtain ⟨l', hl', hxl⟩ := ih hys hx
      exact ⟨l', List.mem_cons_of_mem l hl', hxl⟩

/-- targets are replaced by declared concepts only -/
theorem knows_candidates (hcs : σ.KnowsAll cs) : ∀ l ∈ candidates w.environment cs, σ.KnowsAll l := by
  intro l hl c hc
  have hl := (sortBy_perm _ _).mem_iff.1 (List.mem_of_mem_filter hl)
  obtain ⟨options, ho, hco⟩ := mem_combinations hl hc
  obtain ⟨d, hd, rfl⟩ := List.mem_map.1 ho
  rcases List.mem_cons.1 (mem_sortOn.1 hco) with rfl | hco
  · exact hcs c (mem_sortOn.1 hd)
  · obtain ⟨a, -, ha⟩ := List.mem_filterMap.1 hco
    exact σ.declared a c ha

theorem firstSourced_agree (hs : AgreeFrom w σ r.depth search search') (hr : σ.Admits r) {l : List (List Concept)}
    (hl : ∀ cs ∈ l, σ.KnowsAll cs) : Agree w (firstSourced search r l) (firstSourced search' r l) := by
  induction l with
  | nil => exact .pure trivial
  | cons cs rest ih =>
    obtain ⟨hcs, hrest⟩ := List.forall_mem_cons.1 hl
    refine .bind (hs _ (Nat.le_refl _) ⟨hcs, hr.condition⟩) fun found _ => ?_
    cases found with
    | some id => exact .pure trivial
    | none => exact ih hrest

theorem source_agree (hs : AgreeFrom w σ r.depth search search') (hr : σ.Admits r) :
    Agree w (source search r) (source search' r) := by
  refine .environment ?_
  split
  · exact .pure trivial
  · exact firstSourced_agree hs hr (knows_candidates hr.concepts)

end Synonym

/-! ## Roots -/

namespace Root

theorem bridged_agree (hs : AgreeFrom w σ r.depth search search') :
    Agree w (bridged search r) (bridged search' r) := by
  refine .bind (Bridged.source_agree (r := { r with acceptPartial := false }) hs) fun found _ => ?_
  cases found with
  | some id => exact .pure trivial
  | none =>
    dsimp only
    split
    · exact Bridged.source_agree hs
    · exact .pure trivial

theorem synonyms_agree (hs : AgreeFrom w σ r.depth search search') (hr : σ.Admits r) :
    Agree w (synonyms search r) (synonyms search' r) := by
  refine .get fun p _ => ?_
  split
  · exact .during (Synonym.source_agree hs hr)
  · exact .pure trivial

theorem together_agree (hs : AgreeFrom w σ r.depth search search') (hr : σ.Admits r) :
    Agree w (together search r) (together search' r) := by
  refine .get fun p _ => ?_
  split
  · exact .pure trivial
  · exact .during (hs _ (Nat.le_refl _) ⟨hr.concepts, Scope.allows_none⟩)

theorem source_agree (hs : AgreeFrom w σ r.depth search search') (hr : σ.Admits r) :
    Agree w (source search r) (source search' r) := by
  rw [source, source]
  split
  · exact together_agree hs hr
  refine .bind (bridged_agree hs) fun found _ => ?_
  cases found with
  | some id => exact .bind (.core fun _ => .edit fun _ => rfl) fun _ _ => .pure trivial
  | none =>
    refine .bind (synonyms_agree hs hr) fun found _ => ?_
    cases found with
    | some id => exact .pure trivial
    | none =>
      dsimp only [constants]
      split
      · exact .map (.insert _ _)
      · exact .pure trivial

end Root

/-! ## Every derivation -/

theorem sourceDerived_agree (hs : AgreeFrom w σ r.depth search search') (hp : σ.Known picked) (hr : σ.Admits r) :
    Agree w (sourceDerived search picked r) (sourceDerived search' picked r) := by
  have ht : σ.Holds ⟨picked, r.concepts.drop 1, r.depth, r.condition⟩ :=
    ⟨hp, hr.concepts.of_subset (List.drop_subset 1 _), hr.condition⟩
  rw [sourceDerived, sourceDerived]
  split
  · exact Derived.window_agree hs ht
  · exact Filter.source_agree hs ht
  · exact Derived.unnest_agree hs ht
  · exact Derived.recursion_agree hs ht
  · exact Union.source_agree hs ht
  · exact Rowset.source_agree hs ht
  · exact Multiselect.source_agree hs ht
  · exact Derived.aggregate_agree hs ⟨ht.concept, ht.companions.filter _, ht.condition⟩
  · exact Derived.function_agree hs ht
  · exact Derived.regroup_agree hs ht
  · exact Root.source_agree hs hr
  · exact Root.source_agree hs hr

/-- **a concept is sourced with requests of the scope that are deeper than the search it is picked in** -/
theorem sourceConcept_agree (hs : AgreeFrom w σ (depth + 1) search search') (hp : σ.Known picked) (hcs : σ.KnowsAll cs)
    (hk : σ.AllowsOption condition) (acceptPartial : Bool) :
    Agree w (sourceConcept search picked cs depth acceptPartial condition)
      (sourceConcept search' picked cs depth acceptPartial condition) := by
  refine .bind (matchOnce_agree σ) fun found _ => ?_
  cases found with
  | some id => exact .pure trivial
  | none => exact sourceDerived_agree hs hp ⟨.cons hp hcs, hk⟩

end SemanticPlanner
