/-
Declarations step by step, and what is left of the ones that fail.

  Declaring          a step that reads and changes the environment and can fail; what it has changed then stays
  derived, metric, merge, datasource, rowset, multiselect
                     the steps of each declaration that can fail, in order
  Reads              a step that changes nothing
  run_derived, run_metric, run_merge, run_datasource, run_rowset, run_multiselect
                     step by step, a declaration gives what it gives as a whole
  failed_keeps       a declaration that fails has changed nothing, unless it is a multiselect
  halfAligned_kept   the concepts of a multiselect stay that were aligned before the first one that cannot be

Every declaration but a multiselect has made all its checks by the time it puts the first concept.
-/
import SemanticPlanner.Proofs.Declaring

namespace SemanticPlanner

/-- a step of a declaration -/
abbrev Declaring := ExceptT PlanningError (StateM Environment)

namespace Declaring

variable {α β : Type} {env env' : Environment} {e : PlanningError}

/-! ## The steps of declarations -/

/-- a concept put at its address -/
def put (c : Concept) : Declaring String := do
  modify fun env => env.add c
  pure c.address

def derived (name : String) (datatype : DataType) (lineage : Lineage) : Declaring String := do
  let address := Address.qualify name
  for a in lineage.arguments do
    if a != address && !(← get).isDeclared a then throw (.undefinedConcept a)
  let attributes ← (← get).attributesOf address lineage
  let c := Concept.derived name datatype attributes.purpose lineage attributes.grain attributes.granularity
  put { c with keys := attributes.keys }

def metric (name : String) (datatype : DataType) (op : AggregateOp) (argument : String) (byKeys : List String) :
    Declaring String :=
  derived name datatype (.aggregate ⟨op, [.concept (Address.qualify argument)], byKeys.map Address.qualify⟩)

def merge (source target : String) : Declaring Unit := do
  let source := Address.qualify source
  let target := Address.qualify target
  if !(← get).isDeclared source then throw (.undefinedConcept source)
  if !(← get).isDeclared target then throw (.undefinedConcept target)
  if source != target then
    modify fun env => env.addPseudonym source target
    modify fun env => env.addPseudonym target source

def datasource (d : Datasource) : Declaring Unit := do
  for c in d.columns do
    if !(← get).isDeclared c.concept then throw (.undefinedConcept c.concept)
  modify fun env => { env with datasources := env.datasources.insert d.identifier d }

def rowset (name : String) (select : InnerSelect) : Declaring (List String) := do
  let contents ← (← get).conceptsFor select.output
  let exposed := SortedMap.ofList (contents.map fun c => (c.address, Environment.rowsetAddress name c))
  contents.mapM fun c => put (Environment.rowsetConcept name select exposed c)

/-- one alignment looked up and put -/
def aligned (name : String) (selects : List InnerSelect) (align : List Alignment) (item : Alignment) :
    Declaring String := do
  let c ← (← get).alignedConcept name selects align item
  put c

def multiselect (name : String) (selects : List InnerSelect) (align : List Alignment) : Declaring (List String) := do
  let align := align.map fun a => { a with aligned := Address.qualify a.aligned }
  align.mapM (aligned name selects align)

/-! ## Steps that change nothing -/

theorem run_put (c : Concept) : (put c).run env = (.ok c.address, env.add c) := rfl

/-- a step that first looks at the environment -/
theorem run_get {next : Environment → Declaring α} : (get >>= next).run env = (next env).run env := rfl

/-- the step leaves the environment alone, and has the given outcome in it -/
def Reads (step : Declaring α) (v : Environment → Except PlanningError α) : Prop := ∀ env, step.run env = (v env, env)

namespace Reads

variable {step : Declaring α} {v : Environment → Except PlanningError α}

theorem pure (x : α) : Reads (Pure.pure x) fun _ => .ok x := fun _ => rfl

theorem bind {next : α → Declaring β} {w : α → Environment → Except PlanningError β} (h : Reads step v)
    (hn : ∀ x, Reads (next x) (w x)) : Reads (step >>= next) fun env => v env >>= fun x => w x env := by
  intro env
  show _ = (v env >>= fun x => w x env, env)
  rw [Arena.run_bind, h env]
  cases v env with
  | error e => rfl
  | ok x => exact hn x env

/-- a loop over a list -/
theorem forIn {l : List β} {step : β → PUnit → Declaring (ForInStep PUnit)}
    {v : Environment → β → PUnit → Except PlanningError (ForInStep PUnit)}
    (h : ∀ x u, Reads (step x u) fun env => v env x u) (u : PUnit) :
    Reads (ForIn.forIn l u step) fun env => ForIn.forIn l u (v env) := by
  induction l generalizing u with
  | nil => exact fun _ => rfl
  | cons x l ih =>
    simp only [List.forIn_cons]
    refine (h x u).bind fun r => ?_
    cases r with
    | done u => exact .pure u
    | yield u => exact ih u

end Reads

/-- one round of a loop that refuses an item -/
def refuse (refused : β → Bool) (error : β → PlanningError) (x : β) (_ : PUnit) :
    Except PlanningError (ForInStep PUnit) := do
  if refused x then throw (error x)
  pure (.yield PUnit.unit)

/-- a loop that refuses an item by what is declared -/
theorem reads_checks {l : List β} (refused : Environment → β → Bool) {error : β → PlanningError} :
    Reads (ForIn.forIn l PUnit.unit fun x _ => do
        if refused (← get) x = true then throw (error x)
        pure (ForInStep.yield PUnit.unit))
      fun env => ForIn.forIn l PUnit.unit (refuse (refused env) error) := by
  refine .forIn (fun x _ env => ?_) _
  rw [run_get]
  simp only [refuse]
  cases refused env x <;> rfl

/-! ## Step by step, and as a whole -/

/-- an outcome that comes with a new environment, as a step leaves it -/
def inPlace (env : Environment) : Except PlanningError (Environment × α) → Except PlanningError α × Environment
  | .ok (env', v) => (.ok v, env')
  | .error e => (.error e, env)

/-- what follows a step that reads starts from the same environment -/
theorem Reads.run_bind {step : Declaring α} {v : Environment → Except PlanningError α} {next : α → Declaring β}
    {w : α → Except PlanningError (Environment × β)} (h : Reads step v)
    (hn : ∀ x, (next x).run env = inPlace env (w x)) : (step >>= next).run env = inPlace env (v env >>= w) := by
  rw [Arena.run_bind, h env]
  cases v env with
  | error e => rfl
  | ok x => exact hn x

/-- so does what follows a question to the environment -/
theorem run_ask {f : Environment → Except PlanningError α} {next : α → Declaring β}
    {w : α → Except PlanningError (Environment × β)} (hn : ∀ x, (next x).run env = inPlace env (w x)) :
    (get >>= fun e => liftM (f e) >>= next).run env = inPlace env (f env >>= w) := by
  have hreads : Reads (liftM (f env) : Declaring α) fun _ => f env := fun _ => rfl
  exact hreads.run_bind hn

theorem run_derived (name : String) (datatype : DataType) (lineage : Lineage) :
    (derived name datatype lineage).run env = inPlace env (env.declareDerived name datatype lineage) :=
  (reads_checks fun env a => a != Address.qualify name && !env.isDeclared a).run_bind fun _ =>
    run_ask fun _ => rfl

theorem run_metric (name : String) (datatype : DataType) (op : AggregateOp) (argument : String)
    (byKeys : List String) : (metric name datatype op argument byKeys).run env =
      inPlace env (env.declareMetric name datatype op argument byKeys) :=
  run_derived _ _ _

theorem run_merge (source target : String) :
    (merge source target).run env = inPlace env ((env.merge source target).map fun e => (e, ())) := by
  rw [merge, Environment.merge]
  cases hs : env.isDeclared (Address.qualify source) with
  | false =>
    simp only [run_get, hs]
    rfl
  | true =>
    cases ht : env.isDeclared (Address.qualify target) with
    | false =>
      simp only [run_get, hs, ht, Bool.not_true, Bool.false_eq_true, if_false]
      rfl
    | true =>
      simp only [run_get, hs, ht, Bool.not_true, Bool.false_eq_true, if_false, bne_iff_ne, ne_eq, ite_not]
      split <;> rfl

/-- checks made one by one refuse what a search for a refused item finds -/
theorem forIn_eq_find? {l : List β} {refused : β → Bool} {error : β → PlanningError} :
    ForIn.forIn l PUnit.unit (refuse refused error) =
      match l.find? refused with
      | some x => Except.error (error x)
      | none => .ok PUnit.unit := by
  induction l with
  | nil => rfl
  | cons x l ih =>
    rw [List.forIn_cons, List.find?_cons, refuse]
    cases refused x with
    | true => rfl
    | false => exact ih

theorem run_datasource (d : Datasource) :
    (datasource d).run env = inPlace env ((env.declareDatasource d).map fun e => (e, ())) := by
  have hrun : (datasource d).run env = inPlace env (do
      ForIn.forIn d.columns PUnit.unit
        (refuse (fun c => !env.isDeclared c.concept) fun c => .undefinedConcept c.concept)
      .ok ({ env with datasources := env.datasources.insert d.identifier d }, ())) :=
    (reads_checks fun env (c : Column) => !env.isDeclared c.concept).run_bind fun _ => rfl
  rw [hrun, forIn_eq_find?, Environment.declareDatasource]
  cases d.columns.find? fun c => !env.isDeclared c.concept <;> rfl

/-- concepts put one after the other -/
theorem run_mapM_put (f : β → Concept) (l : List β) :
    (l.mapM fun x => put (f x)).run env = (.ok (Concept.addresses (l.map f)), (l.map f).foldl .add env) := by
  induction l generalizing env with
  | nil => rfl
  | cons x l ih =>
    rw [List.mapM_cons, Arena.run_bind, run_put]
    simp only []
    rw [Arena.run_bind, ih]
    rfl

theorem run_rowset (name : String) (select : InnerSelect) :
    (rowset name select).run env = inPlace env (env.declareRowset name select) :=
  run_ask fun contents => run_mapM_put _ contents

/-- one alignment looked up and put, or nothing changed -/
theorem run_aligned (name : String) (selects : List InnerSelect) (align : List Alignment) (item : Alignment) :
    (aligned name selects align item).run env = match env.alignedConcept name selects align item with
      | .ok c => (.ok c.address, env.add c)
      | .error e => (.error e, env) := by
  show (liftM (env.alignedConcept name selects align item) >>= put : Declaring String).run env = _
  cases env.alignedConcept name selects align item <;> rfl

/-- alignments looked up and put one after the other -/
theorem run_mapM_aligned (name : String) (selects : List InnerSelect) (align l : List Alignment)
    (created : List String) : Environment.declareAligned name selects align created env l =
      (((l.mapM (aligned name selects align)).run env).2,
        ((l.mapM (aligned name selects align)).run env).1.map fun xs => created ++ xs) := by
  induction l generalizing env created with
  | nil =>
    rw [List.mapM_nil, Environment.declareAligned]
    show _ = (env, Except.ok (created ++ []))
    rw [List.append_nil]
  | cons item l ih =>
    rw [Environment.declareAligned, List.mapM_cons, Arena.run_bind, run_aligned]
    cases env.alignedConcept name selects align item with
    | error e => rfl
    | ok c =>
      simp only [ih, Arena.run_bind]
      rcases (l.mapM (aligned name selects align)).run (env.add c) with ⟨_ | xs, env'⟩
      · rfl
      · show (env', Except.ok (created ++ [c.address] ++ xs)) = (env', Except.ok (created ++ c.address :: xs))
        rw [List.append_assoc, List.singleton_append]

theorem run_multiselect (name : String) (selects : List InnerSelect) (align : List Alignment) :
    (multiselect name selects align).run env =
      ((env.declareMultiselect name selects align).2, (env.declareMultiselect name selects align).1) := by
  rw [Environment.declareMultiselect, run_mapM_aligned, multiselect]
  simp only []
  rcases (List.mapM (aligned name selects _) _ : Declaring (List String)).run env with ⟨_ | xs, env'⟩ <;> rfl

/-! ## Declarations that fail -/

/-- a declaration that can fail -/
inductive Change where
  | derived (name : String) (datatype : DataType) (lineage : Lineage)
  | metric (name : String) (datatype : DataType) (op : AggregateOp) (argument : String) (byKeys : List String)
  | merge (source target : String)
  | datasource (d : Datasource)
  | rowset (name : String) (select : InnerSelect)
  | multiselect (name : String) (selects : List InnerSelect) (align : List Alignment)

/-- its steps, which return the addresses it declares -/
def Change.program : Change → Declaring (List String)
  | derived name datatype lineage => List.singleton <$> Declaring.derived name datatype lineage
  | metric name datatype op argument byKeys => List.singleton <$> Declaring.metric name datatype op argument byKeys
  | merge source target => (fun _ => []) <$> Declaring.merge source target
  | datasource d => (fun _ => []) <$> Declaring.datasource d
  | rowset name select => Declaring.rowset name select
  | multiselect name selects align => Declaring.multiselect name selects align

/-- some alignments of a multiselect were declared, and the one after them cannot be -/
def HalfAligned (env : Environment) (name : String) (selects : List InnerSelect) (align : List Alignment)
    (e : PlanningError) (env' : Environment) : Prop :=
  ∃ before item after cs,
    align.map (fun a => { a with aligned := Address.qualify a.aligned }) = before ++ item :: after ∧
    Concept.addresses cs = before.map Alignment.aligned ∧ env' = cs.foldl .add env ∧
    env'.alignedConcept name selects (before ++ item :: after) item = .error e

theorem inPlace_error {v : Except PlanningError (Environment × α)} (h : inPlace env v = (.error e, env')) :
    env' = env := by
  cases v with
  | error e => exact (congrArg Prod.snd h).symm
  | ok v => cases h

/-- what is made of the outcome changes nothing -/
theorem run_map_error {f : α → β} {step : Declaring α} (h : (f <$> step).run env = (.error e, env')) :
    step.run env = (.error e, env') := by
  have hmap : (f <$> step).run env = ((step.run env).1.map f, (step.run env).2) := by
    rw [map_eq_pure_bind, Arena.run_bind]
    rcases step.run env with ⟨_ | v, env'⟩ <;> rfl
  rw [hmap] at h
  rcases hs : step.run env with ⟨e' | v, env''⟩
  · rw [hs] at h
    cases h
    rfl
  · rw [hs] at h
    cases h

/-- alignments that were put before the first one that failed -/
theorem halfAligned_of_run {name : String} {selects : List InnerSelect} {align l : List Alignment}
    (h : (l.mapM (aligned name selects align)).run env = (.error e, env')) :
    ∃ before item after cs, l = before ++ item :: after ∧
      Concept.addresses cs = before.map (fun a => Address.qualify a.aligned) ∧ env' = cs.foldl .add env ∧
      env'.alignedConcept name selects align item = .error e := by
  induction l generalizing env with
  | nil => cases h
  | cons item l ih =>
    rw [List.mapM_cons, Arena.run_bind, run_aligned] at h
    cases hc : env.alignedConcept name selects align item with
    | error e' =>
      rw [hc] at h
      cases h
      exact ⟨[], item, l, [], rfl, rfl, rfl, hc⟩
    | ok c =>
      rw [hc] at h
      simp only [Arena.run_bind] at h
      rcases hl : (l.mapM (aligned name selects align)).run (env.add c) with ⟨e' | xs, env''⟩
      · rw [hl] at h
        cases h
        obtain ⟨before, item', after, cs, rfl, haddresses, henv, herror⟩ := ih hl
        refine ⟨item :: before, item', after, c :: cs, rfl, ?_, henv, herror⟩
        rw [List.map_cons, ← haddresses, ← (Environment.alignedConcept_eq_ok hc).2.1]
        rfl
      · rw [hl] at h
        cases h

/-- **Atomicity.** A declaration that fails leaves the datasources as they are. It leaves the concepts as they are too,
unless it is a multiselect: then the concepts stay that were put for the alignments before the first one that cannot be
looked up, and nothing else has changed. -/
theorem failed_keeps {c : Change} (h : c.program.run env = (.error e, env')) :
    env'.datasources = env.datasources ∧
      (env' = env ∨ ∃ name selects align, c = .multiselect name selects align ∧
        HalfAligned env name selects align e env') := by
  cases c with
  | derived name datatype lineage =>
    obtain rfl := inPlace_error ((run_derived name datatype lineage).symm.trans (run_map_error h))
    exact ⟨rfl, Or.inl rfl⟩
  | metric name datatype op argument byKeys =>
    obtain rfl := inPlace_error ((run_metric name datatype op argument byKeys).symm.trans (run_map_error h))
    exact ⟨rfl, Or.inl rfl⟩
  | merge source target =>
    obtain rfl := inPlace_error ((run_merge source target).symm.trans (run_map_error h))
    exact ⟨rfl, Or.inl rfl⟩
  | datasource d =>
    obtain rfl := inPlace_error ((run_datasource d).symm.trans (run_map_error h))
    exact ⟨rfl, Or.inl rfl⟩
  | rowset name select =>
    obtain rfl := inPlace_error ((run_rowset name select).symm.trans h)
    exact ⟨rfl, Or.inl rfl⟩
  | multiselect name selects align =>
    obtain ⟨before, item, after, cs, hsplit, haddresses, rfl, herror⟩ := halfAligned_of_run h
    refine ⟨Environment.datasources_addAll env cs, Or.inr ⟨name, selects, align, rfl, before, item, after, cs, hsplit,
      ?_, rfl, hsplit ▸ herror⟩⟩
    rw [haddresses]
    refine List.map_congr_left fun a ha => ?_
    obtain ⟨b, -, rfl⟩ := List.mem_map.1 (hsplit ▸ List.mem_append_left _ ha)
    exact Address.qualify_qualify _

/-- an environment with one key -/
def oneKey : Environment := Environment.empty.add (.key "id" .integer)

/-- a rowset that exposes something undeclared leaves no concept behind -/
theorem failed_keeps_rowset :
    (Change.rowset "rows" ⟨["local.id", "local.missing"], [], none, none⟩).program.run oneKey =
      (.error (.undefinedConcept "local.missing"), oneKey) := by
  obtain ⟨env', hrun⟩ : ∃ env',
      (Change.rowset "rows" ⟨["local.id", "local.missing"], [], none, none⟩).program.run oneKey =
        (.error (.undefinedConcept "local.missing"), env') := ⟨_, rfl⟩
  rcases (failed_keeps hrun).2 with rfl | ⟨_, _, _, h, -⟩
  · exact hrun
  · cases h

/-- a multiselect that aligns the key, and then something undeclared -/
def halfAlignable : Change := .multiselect "both" [] [⟨"any", ["local.id"]⟩, ⟨"other", ["local.missing"]⟩]

/-- its first alignment stays although it fails -/
theorem halfAligned_kept : ∃ env',
    halfAlignable.program.run oneKey = (.error (.undefinedConcept "local.missing"), env') ∧
      oneKey.isDeclared "local.any" = false ∧ env'.isDeclared "local.any" = true :=
  ⟨_, rfl, rfl, rfl⟩

end Declaring

end SemanticPlanner
