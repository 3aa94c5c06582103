/-
How deep searches nest.

  Nests                 the requests that a search may make while it is at work on another one
  Bounded               requests below which searches nest at most so many levels
  searchAnew_agree      a search makes no request but those nested in its own
  searchWithin_agree    where the nesting is bounded, no more levels than that change anything
  search_nesting        a nested search is deeper, or the one retry, or what a membership test reads; without membership
                        tests the guard on the depth alone bounds the nesting

A membership test is sourced as a query of its own, at depth zero, so the depth says nothing about what is nested in it.
Every other nested request stays among the declared concepts and the conditions of their lineages (`Scope.ofRequest`).
-/
import SemanticPlanner.Proofs.PickOrder
import SemanticPlanner.Proofs.Requests
import SemanticPlanner.Search.Query

namespace SemanticPlanner

variable {w : Scene} {env : Environment} {σ : Scope w.environment} {search search' : Search} {r s : Request} {g : Goal}
  {c : Concept} {cs : List Concept} {id : PlanId} {n m : Nat}

/-! ## Nested requests -/

/-- the concepts of a request and the declared ones, with the request's condition and those of their lineages -/
def Scope.ofRequest (env : Environment) (r : Request) : Scope env where
  Known c := c ∈ r.concepts ∨ ∃ a, env.find? a = some c
  Allowed k := r.condition = some k ∨ ∃ c, (c ∈ r.concepts ∨ ∃ a, env.find? a = some c) ∧ k ∈ c.conditions
  declared a _ h := Or.inr ⟨a, h⟩
  lineage c hc _ hk := Or.inr ⟨c, hc, hk⟩

theorem Scope.admits_ofRequest (env : Environment) (r : Request) : (Scope.ofRequest env r).Admits r :=
  ⟨fun _ h => Or.inl h, fun _ h => Or.inl h⟩

/-- what a search may ask of another one while it is at work on a request -/
inductive Nests (env : Environment) (r : Request) : Request → Prop
  | deeper {s : Request} : r.depth < s.depth → (Scope.ofRequest env r).Admits s → Nests env r s
  /-- the same goal with partial sources, after a search that accepts none -/
  | retry {s : Request} : r.acceptPartial = false → s.acceptPartial = true → s.depth = r.depth →
      s.condition = r.condition → (Scope.ofRequest env r).Admits s → Nests env r s
  /-- what a membership test of the condition reads -/
  | test {k : Condition} {a : String} {cs : List Concept} : r.condition = some k → a ∈ k.existenceArguments →
      env.conceptsFor [a] = .ok cs → Nests env r { concepts := cs, depth := 0 }

/-! ## What a search asks -/

namespace Goal

/-- a goal is that of its request, and stays in its scope -/
structure Serves (σ : Scope env) (g : Goal) (r : Request) : Prop where
  depth : g.depth = r.depth
  acceptPartial : g.acceptPartial = r.acceptPartial
  condition : g.condition = r.condition
  mandatory : σ.KnowsAll g.mandatory

theorem serves_of {σ : Scope env} (hr : σ.Admits r) (h : Goal.of env r = .ok g) : g.Serves σ r := by
  have hasked : σ.KnowsAll (Concept.unique r.concepts) := hr.concepts.unique
  rw [Goal.of] at h
  split at h
  · rename_i hnone
    cases h
    exact ⟨rfl, rfl, hnone.symm, hasked⟩
  · rename_i k hk
    obtain ⟨read, hread, h⟩ := Resolve.bind_eq_ok h
    cases h
    refine ⟨rfl, rfl, hk.symm, ?_⟩
    dsimp only
    split
    · exact .unique (hasked.append (Scope.knows_conceptsFor hread))
    · exact hasked

theorem allows_conditionFor (hk : σ.AllowsOption g.condition) : σ.AllowsOption (g.conditionFor c) := by
  rw [conditionFor]
  split
  · exact hk
  split
  · exact Scope.allows_none
  · exact hk

end Goal

theorem knows_companions {picked : Concept} {exhausted : NameSet} {condition : Option Condition} {ds : List Concept}
    (hcs : σ.KnowsAll cs) (h : companions w.environment picked cs exhausted condition = .ok ds) : σ.KnowsAll ds := by
  rw [companions] at h
  split at h
  · cases h
    exact .nil
  dsimp only at h
  split at h
  · cases h
    exact hcs.filter _
  split at h
  · cases h
    exact hcs.filter _
  · obtain ⟨read, hread, h⟩ := Resolve.bind_eq_ok h
    cases h
    exact .unique (.filter (.append (Scope.knows_conceptsFor hread) (hcs.filter _)) _)

namespace Coverage

theorem check_environment (stack : List PlanId) (mandatory completion : List Concept) (condition : Option Condition)
    (acceptPartial : Bool) : Arena.Yields (fun a => a.environment = env)
      (check stack mandatory completion condition acceptPartial) fun _ => True := by
  have htally : ∀ t id, Arena.Yields (fun a => a.environment = env) (tallyNode acceptPartial t id) fun _ => True := by
    intro t id
    refine .get fun a _ => .bind (Arena.resolveWithin_environment _ id) fun r _ => .get fun a _ => ?_
    exact .bind (.mono (.mapM (P := fun _ _ => True) fun _ _ => .lift fun _ _ => trivial) fun _ _ => trivial)
      fun _ (_ : True) => .pure trivial
  have hall : ∀ t, Arena.Yields (fun a => a.environment = env) (stack.foldlM (tallyNode acceptPartial) t)
      fun _ => True := by
    induction stack with
    | nil => exact fun t => .pure trivial
    | cons id stack ih =>
      intro t
      rw [List.foldlM_cons]
      exact .bind (htally t id) fun t _ => ih t
  exact .bind (hall {}) fun t _ => .get fun a _ => .pure trivial

end Coverage

theorem attempt_agree (hs : AgreeFrom w σ (g.depth + 1) search search') (hm : σ.KnowsAll g.mandatory)
    (hk : σ.AllowsOption g.condition) (p : Progress) (hc : σ.Known c) :
    Agree w (attempt search g p c) (attempt search' g p c) := by
  have hcheck : ∀ p : Progress, Agree w (do
      let coverage ← Planning.resolving
        (Coverage.check p.stack g.mandatory g.completion g.condition g.acceptPartial)
      if coverage.result = .conditionUnmet then throw (conditionMismatch g (← p.stack.mapM Planning.core))
      pure { p with attempted := p.attempted.insert c.address, found := coverage.found, coverage }) (do
      let coverage ← Planning.resolving
        (Coverage.check p.stack g.mandatory g.completion g.condition g.acceptPartial)
      if coverage.result = .conditionUnmet then throw (conditionMismatch g (← p.stack.mapM Planning.core))
      pure { p with attempted := p.attempted.insert c.address, found := coverage.found, coverage }) := by
    intro p
    refine .bind (.resolving fun _ => Coverage.check_environment _ _ _ _ _) fun coverage _ => ?_
    split
    · refine .bind (.mapM (Q := fun _ => True) fun _ _ => .core fun _ => .pure trivial) fun cores _ => ?_
      exact .bind (.throw (Q := fun _ => False)) fun _ h => h.elim
    · exact .pure trivial
  refine .environment (.bind (.lift fun _ h => knows_companions (σ := σ) (hm.filter _) h) fun others hothers => ?_)
  refine .bind (sourceConcept_agree hs hc hothers (Goal.allows_conditionFor hk) _) fun generated _ => ?_
  cases generated with
  | none => exact .bind (.pure (Q := fun _ => True) trivial) fun p _ => hcheck p
  | some id =>
    exact .bind (.resolve id) fun _ _ => .bind (.pure (Q := fun _ => True) trivial) fun p _ => hcheck p

theorem attempts_agree (hs : AgreeFrom w σ (g.depth + 1) search search') (hm : σ.KnowsAll g.mandatory)
    (hk : σ.AllowsOption g.condition) (fuel : Nat) (p : Progress) :
    Agree w (attempts search g fuel p) (attempts search' g fuel p) := by
  induction fuel generalizing p with
  | zero => exact .pure trivial
  | succ fuel ih =>
    rw [attempts, attempts]
    split
    · exact .pure trivial
    refine .environment ?_
    split
    · exact .pure trivial
    · rename_i picked hpicked
      refine .bind (attempt_agree hs hm hk p (hm picked (Priority.left_of_next hpicked).1)) fun p _ => ?_
      split
      · exact .pure trivial
      · exact ih p

/-- a membership test makes one request, for what it reads -/
theorem addExistence_agree {a : String} (h : ∀ cs, w.environment.conceptsFor [a] = .ok cs →
      Agree w (search { concepts := cs, depth := 0 }) (search' { concepts := cs, depth := 0 })) :
    Agree w (addExistence search id a) (addExistence search' id a) := by
  refine .core fun core => ?_
  split
  · exact .pure trivial
  refine .bind (.environment (.lift (Q := fun cs => w.environment.conceptsFor [a] = .ok cs) fun _ h => h)) fun cs hcs => ?_
  exact .bind (sourceQuery_agree (h cs hcs)) fun _ _ => .bind (.addParents _ _) fun _ _ => .edit fun _ => rfl

theorem finish_agree (p : Progress) (h : ∀ k, g.condition = some k → ∀ a ∈ k.existenceArguments, ∀ cs,
      w.environment.conceptsFor [a] = .ok cs →
        Agree w (search { concepts := cs, depth := 0 }) (search' { concepts := cs, depth := 0 })) :
    Agree w (finish search g p) (finish search' g p) := by
  refine .bind (.mapM (Q := fun _ => True) fun _ _ => .core fun _ => .pure trivial) fun cores _ => ?_
  dsimp only
  have hmerge : ∀ outputs, Agree w (mergeStack g p outputs) (mergeStack g p outputs) := by
    intro outputs
    unfold mergeStack
    split
    · exact .pure trivial
    · exact .insert _ _
  refine .bind (hmerge _) fun id _ => .bind (.resolve id) fun _ _ => ?_
  cases hk : g.condition with
  | none => exact .pure trivial
  | some k =>
    dsimp only
    split
    · exact .bind (.edit fun _ => rfl) fun _ _ => .pure trivial
    · refine .bind (.edit fun _ => rfl) fun _ _ => ?_
      exact .bind (.forIn fun a ha => addExistence_agree (h k hk a ha)) fun _ _ => .pure trivial

/-- **a search makes no request but those nested in its own** -/
theorem searchAnew_agree (h : ∀ s, Nests w.environment r s → Agree w (search s) (search' s)) :
    Agree w (searchAnew search r) (searchAnew search' r) := by
  have hr := Scope.admits_ofRequest w.environment r
  refine .environment (.bind (.lift fun _ => Goal.serves_of hr) fun g hg => ?_)
  have hk : (Scope.ofRequest w.environment r).AllowsOption g.condition := hg.condition ▸ hr.condition
  have hs : AgreeFrom w (Scope.ofRequest w.environment r) (g.depth + 1) search search' := fun s hd ha =>
    h s (.deeper (hg.depth ▸ hd) ha)
  refine .bind (attempts_agree hs hg.mandatory hk _ _) fun p _ => ?_
  split
  · refine .bind (finish_agree p fun k hc a ha cs hcs => h _ (.test (hg.condition ▸ hc) ha hcs)) fun id _ => .pure trivial
  refine .get fun q _ => ?_
  split
  · rename_i hretry
    have hno : g.acceptPartial = false := by
      rw [Bool.and_eq_true, Bool.not_eq_true'] at hretry
      exact hretry.1
    exact h _ (.retry (hg.acceptPartial ▸ hno) rfl hg.depth hg.condition ⟨hg.mandatory, hk⟩)
  · exact .pure trivial

/-! ## Levels of nesting -/

/-- searches nest at most `n` deep below the request: deeper ones are refused, or there are none -/
inductive Bounded (w : Scene) : Nat → Request → Prop
  | beyond {n : Nat} {r : Request} : w.settings.maxDepth < r.depth → Bounded w n r
  | within {n : Nat} {r : Request} : (∀ s, Nests w.environment r s → Bounded w n s) → Bounded w (n + 1) r

/-- a request beyond the limit is refused at any level -/
theorem searchWithin_beyond (h : w.settings.maxDepth < r.depth) (n : Nat) :
    Agree w (searchWithin n r) (throw (.depthExceeded w.settings.maxDepth)) := by
  intro p hp
  cases hp
  cases n with
  | zero => exact ⟨rfl, rfl, fun _ h => by cases h⟩
  | succ n =>
    have hrun : (searchWithin (n + 1) r).run p = (.error (.depthExceeded p.settings.maxDepth), p) := by
      show (ite (p.settings.maxDepth < r.depth) _ _ : Planning (Option PlanId)).run p = _
      rw [if_pos (show p.settings.maxDepth < r.depth from h)]
      rfl
    rw [hrun]
    exact ⟨rfl, rfl, fun _ h => by cases h⟩

/-- levels that agree on what is nested make levels that agree -/
theorem searchWithin_step (h : ∀ s, Nests w.environment r s → Agree w (searchWithin m s) (searchWithin n s)) :
    Agree w (searchWithin (m + 1) r) (searchWithin (n + 1) r) := by
  refine .get fun p _ => ?_
  dsimp only
  split
  · exact .bind (.throw (Q := fun _ => False)) fun _ h => h.elim
  refine .bind (.recallSearch _) fun outcome _ => ?_
  cases outcome with
  | some found => exact .pure trivial
  | none => exact .bind (searchAnew_agree h) fun found _ => .bind (.storeSearch _ _) fun _ _ => .pure trivial

/-- **where the nesting is bounded, no more levels than that change anything** -/
theorem searchWithin_agree (h : Bounded w n r) (hm : n ≤ m) : Agree w (searchWithin m r) (searchWithin n r) := by
  induction h generalizing m with
  | beyond h => exact (searchWithin_beyond h m).trans (searchWithin_beyond h _).symm
  | @within n r _ ih =>
    obtain ⟨m, rfl⟩ : ∃ k, m = k + 1 := ⟨m - 1, by omega⟩
    exact searchWithin_step fun s hs => ih s hs (Nat.le_of_succ_le_succ hm)

/-- a search leaves its scene as it is -/
theorem searchWithin_self (n : Nat) (r : Request) : Agree w (searchWithin n r) (searchWithin n r) := by
  induction n generalizing r with
  | zero => exact .get fun _ _ => .throw
  | succ n ih => exact searchWithin_step fun s _ => ih s

/-! ## Without membership tests -/

/-- no condition in reach of the request tests membership -/
structure Untested (env : Environment) (r : Request) : Prop where
  declared : ∀ a c, env.find? a = some c → ∀ k ∈ c.conditions, k.existenceArguments = []
  concepts : ∀ c ∈ r.concepts, ∀ k ∈ c.conditions, k.existenceArguments = []
  condition : ∀ k, r.condition = some k → k.existenceArguments = []

namespace Untested

/-- what is nested in such a request is one again, and deeper or the retry -/
theorem nested (h : Untested env r) (hs : Nests env r s) : Untested env s ∧
    (r.depth < s.depth ∨ r.acceptPartial = false ∧ s.acceptPartial = true ∧ s.depth = r.depth) := by
  have hknown : ∀ c, (c ∈ r.concepts ∨ ∃ a, env.find? a = some c) → ∀ k ∈ c.conditions, k.existenceArguments = [] := by
    rintro c (hc | ⟨a, ha⟩)
    · exact h.concepts c hc
    · exact h.declared a c ha
  have hscope : ∀ s, (Scope.ofRequest env r).Admits s → Untested env s := by
    refine fun s hs => ⟨h.declared, fun c hc => hknown c (hs.concepts c hc), fun k hk => ?_⟩
    rcases hs.condition k hk with hk | ⟨c, hc, hk⟩
    · exact h.condition k hk
    · exact hknown c hc k hk
  cases hs with
  | deeper hd hs => exact ⟨hscope _ hs, Or.inl hd⟩
  | retry hp ha hd _ hs => exact ⟨hscope _ hs, Or.inr ⟨hp, ha, hd⟩⟩
  | test hk ha _ =>
    rw [h.condition _ hk] at ha
    exact absurd ha List.not_mem_nil

/-- the levels left for a request: two for each depth that the guard allows, but one where the retry is under way -/
def levels (limit : Nat) (r : Request) : Nat := 2 * (limit + 1 - r.depth) - if r.acceptPartial then 1 else 0

theorem bounded (h : Untested w.environment r) (hn : levels w.settings.maxDepth r ≤ n) : Bounded w n r := by
  induction n generalizing r with
  | zero =>
    refine .beyond ?_
    rw [levels] at hn
    split at hn <;> omega
  | succ n ih =>
    by_cases hd : w.settings.maxDepth < r.depth
    · exact .beyond hd
    refine .within fun s hs => ?_
    obtain ⟨hu, hs⟩ := h.nested hs
    refine ih hu ?_
    rw [levels] at hn ⊢
    rcases hs with hs | ⟨hp, ha, hs⟩
    · split <;> split at hn <;> omega
    · rw [if_pos ha]
      rw [hp, if_neg Bool.false_ne_true] at hn
      omega

end Untested

theorem run_get {α : Type} {next : Planner → Planning α} (p : Planner) :
    (MonadStateOf.get >>= next).run p = (next p).run p := rfl

/-- a search is provided with the levels that its state asks for -/
theorem run_search (r : Request) (p : Planner) :
    (SemanticPlanner.search r).run p = (searchWithin p.nesting r).run p := run_get p

/-- **The nesting of searches.** Whatever a search asks another one while it is at work is deeper, the one retry with
partial sources, or what a membership test of its condition reads. Where no condition in reach tests membership, two
levels for each depth that the guard allows are all there are, however many more are provided for. -/
theorem search_nesting (w : Scene) (r : Request) :
    (∀ search search' : Search, (∀ s, Nests w.environment r s → Agree w (search s) (search' s)) →
      Agree w (searchAnew search r) (searchAnew search' r)) ∧
    (Untested w.environment r → ∀ n, 2 * (w.settings.maxDepth + 1 - r.depth) ≤ n →
      Agree w (searchWithin n r) (SemanticPlanner.search r)) := by
  refine ⟨fun _ _ => searchAnew_agree, fun hu n hn p hp => ?_⟩
  have hb : Bounded w (2 * (w.settings.maxDepth + 1 - r.depth)) r := hu.bounded (Nat.sub_le _ _)
  have hlimit : p.settings.maxDepth = w.settings.maxDepth := congrArg (fun w => w.settings.maxDepth) hp
  have henough : 2 * (w.settings.maxDepth + 1 - r.depth) ≤ p.nesting := by
    rw [Planner.nesting, hlimit]
    exact Nat.le_trans (by omega) (Nat.le_mul_of_pos_right _ (Nat.succ_pos _))
  rw [run_search]
  exact (searchWithin_agree hb hn).trans (searchWithin_agree hb henough).symm p hp

/-! ## Where depth starts anew -/

/-- keys of two tables, and the total of one of them -/
def twoTables : Environment :=
  { concepts := SortedMap.ofList
      [("local.x", .key "x" .integer), ("local.y", .key "y" .integer),
        ("local.total", .derived "total" .integer .metric (.aggregate ⟨.sum, [.concept "local.y"], []⟩) Grain.single
          .singleRow)]
    datasources := SortedMap.ofList
      [("xs", .ofColumns "xs" [.bind "x" "x"] ["x"]), ("ys", .ofColumns "ys" [.bind "y" "y"] ["y"])] }

/-- a search that refuses to start at depth zero, unless with partial sources -/
def refusingTop (search : Search) : Search := fun r =>
  if r.depth = 0 ∧ r.acceptPartial = false then throw (.depthExceeded 0) else search r

theorem refusingTop_agree (h : Agree w (search s) (search s)) (hs : s.depth ≠ 0 ∨ s.acceptPartial = true) :
    Agree w (search s) (refusingTop search s) := by
  rw [refusingTop, if_neg]
  · exact h
  · rintro ⟨hd, ha⟩
    rcases hs with hs | hs
    · exact hs hd
    · rw [ha] at hs
      cases hs

/-- the total alone: nothing nested in its search starts at depth zero, and two depths make four levels -/
theorem nesting_total : ∃ r : Request, Untested twoTables r ∧
    (∀ n s, Nests twoTables r s →
      Agree ⟨twoTables, { maxDepth := 1 }⟩ (searchWithin n s) (refusingTop (searchWithin n) s)) ∧
    (∀ n, Agree ⟨twoTables, { maxDepth := 1 }⟩ (searchAnew (searchWithin n) r)
      (searchAnew (refusingTop (searchWithin n)) r)) ∧
    ∀ n, 4 ≤ n → Agree ⟨twoTables, { maxDepth := 1 }⟩ (searchWithin n r) (SemanticPlanner.search r) := by
  let r : Request := { concepts := (twoTables.find? "local.total").toList, depth := 0 }
  have hdeclared : ∀ e ∈ twoTables.concepts.toList, ∀ k ∈ e.2.conditions, k.existenceArguments = [] := by
    decide +kernel
  have hu : Untested twoTables r := by
    refine ⟨fun a c h => hdeclared _ (SortedMap.get?_eq_some_iff.1 h), fun c hc => ?_, fun k h => by cases h⟩
    have hfind : twoTables.find? "local.total" = some c := Option.mem_toList.1 hc
    exact hdeclared _ (SortedMap.get?_eq_some_iff.1 hfind)
  have hnested : ∀ n s, Nests twoTables r s →
      Agree ⟨twoTables, { maxDepth := 1 }⟩ (searchWithin n s) (refusingTop (searchWithin n) s) := by
    refine fun n s hs => refusingTop_agree (searchWithin_self n s) ?_
    rcases (hu.nested hs).2 with hd | ⟨-, ha, -⟩
    · exact Or.inl (Nat.ne_of_gt hd)
    · exact Or.inr ha
  obtain ⟨hnests, hbound⟩ := search_nesting ⟨twoTables, { maxDepth := 1 }⟩ r
  exact ⟨r, hu, hnested, fun n => hnests _ _ (hnested n), fun n hn => hbound hu n hn⟩

/-- **a membership test starts at depth zero**, so a request at depth zero may nest another one there, and a plan may
need a search at a greater depth than its searches are deep: the total alone needs depth one, and a test that reads it
no more than that -/
theorem membership_starts_anew :
    (¬ ∀ (w : Scene) (r : Request) (search search' : Search), (∀ s : Request,
        r.depth < s.depth ∨ r.acceptPartial = false ∧ s.acceptPartial = true ∧ s.depth = r.depth →
          Agree w (search s) (search' s)) → Agree w (searchAnew search r) (searchAnew search' r)) ∧
    (QueryPlan.make twoTables ["local.total"] none { maxDepth := 0 }).toOption.isSome = false ∧
    (QueryPlan.make twoTables ["local.x"] (some (.membership (.concept "local.x") .isIn "local.total"))
      { maxDepth := 1 }).toOption.isSome = true := by
  refine ⟨fun h => ?_, by decide +kernel, by decide +kernel⟩
  let r : Request :=
    { concepts := (twoTables.find? "local.x").toList, depth := 0
      condition := some (.membership (.concept "local.x") .isIn "local.total") }
  let p : Planner := ⟨.empty twoTables, (ReferenceGraph.ofEnvironment twoTables).toOption.getD default, {}, {}⟩
  have hagree := (h p.scene r (fun _ => pure none) (refusingTop fun _ => pure none) (fun s hs => ?_) p rfl).1
  · have hleft : ((searchAnew (fun _ => pure none) r).run p).1 = .error (.unresolvable ["local.total"]) := by
      decide +kernel
    have hright : ((searchAnew (refusingTop fun _ => pure none) r).run p).1 = .error (.depthExceeded 0) := by
      decide +kernel
    rw [hagree, hright] at hleft
    cases hleft
  · refine @refusingTop_agree p.scene (fun _ => pure none) s (.pure trivial) ?_
    rcases hs with hd | ⟨-, ha, -⟩
    · exact Or.inl (Nat.ne_of_gt hd)
    · exact Or.inr ha

end SemanticPlanner
