/-
What a sourced concept leaves of the condition of its query.

  keyed_build         what is declared in a file keeps concepts under their own addresses
  Planner.Reached     the states of a pass
  Reached.sound       what every step keeps holds in each of them
  sourced_leaves      the node of a picked concept applies the condition, or can have it applied, or how it falls short
  costlyItem_unmet    a filter is applied in the place of the condition, which then stays unmet
  three_unmet         constants alone are sourced without it

A condition that a node does not apply is put on top of it by the search, which needs its row arguments there. They are
there where they were asked for with the concept: the search asks for them as companions of a root, but not as those of a
filter or of a single row. Inside a search, sourceConcept_leaves says the same of whatever state its generators are in.
-/
import SemanticPlanner.Environment.Declaration
import SemanticPlanner.Proofs.Query

namespace SemanticPlanner

open Planner

/-! ## Environments -/

namespace Environment

variable {env env' : Environment} {name : String}

theorem keyed_empty : empty.Keyed := fun _ _ h => by cases h

theorem Keyed.insert (h : env.Keyed) {x : String} {c : Concept} (hc : c.address = x) :
    Keyed { env with concepts := env.concepts.insert x c } := by
  intro y d hd
  rw [find?, SortedMap.get?_insert] at hd
  split at hd
  · rename_i hxy
    cases hd
    exact hc.trans hxy.symm
  · exact h y d hd

theorem Keyed.add (h : env.Keyed) (c : Concept) : (env.add c).Keyed := h.insert rfl

theorem Keyed.addPseudonym (h : env.Keyed) (x y : String) : (env.addPseudonym x y).Keyed := by
  rw [Environment.addPseudonym]
  split
  · rename_i c hc
    exact h.insert (h x c hc)
  · exact h

theorem Keyed.merge (h : env.Keyed) {source target : String} (hm : env.merge source target = .ok env') :
    env'.Keyed := by
  simp only [Environment.merge] at hm
  split at hm
  · cases hm
  split at hm
  · cases hm
  split at hm
  · cases hm
    exact h
  · cases hm
    exact (h.addPseudonym _ _).addPseudonym _ _

theorem Keyed.declareDerived (h : env.Keyed) {datatype : DataType} {lineage : Lineage} {x : String}
    (hd : env.declareDerived name datatype lineage = .ok (env', x)) : env'.Keyed := by
  obtain ⟨_, -, hd⟩ := Resolve.bind_eq_ok hd
  obtain ⟨attributes, -, hd⟩ := Resolve.bind_eq_ok hd
  cases hd
  exact h.add _

theorem Keyed.declareDatasource (h : env.Keyed) {d : Datasource} (hd : env.declareDatasource d = .ok env') :
    env'.Keyed := by
  rw [Environment.declareDatasource] at hd
  split at hd
  · cases hd
  · cases hd
    exact h

theorem Keyed.declareRowset (h : env.Keyed) {select : InnerSelect} {xs : List String}
    (hd : env.declareRowset name select = .ok (env', xs)) : env'.Keyed := by
  obtain ⟨contents, -, hd⟩ := Resolve.bind_eq_ok hd
  cases hd
  exact List.foldlRecOn _ _ h fun _ h c _ => h.add c

theorem Keyed.declareAligned (h : env.Keyed) (selects : List InnerSelect) (align : List Alignment)
    (created : List String) (l : List Alignment) : (declareAligned name selects align created env l).1.Keyed := by
  induction l generalizing env created with
  | nil => exact h
  | cons item rest ih =>
    rw [Environment.declareAligned]
    split
    · exact h
    · exact ih (h.add _) _

theorem Keyed.inSelect (h : env.Keyed) {select : List String} (hs : env.inSelect select = .ok env') : env'.Keyed := by
  obtain ⟨selected, -, hs⟩ := Resolve.bind_eq_ok hs
  dsimp only at hs
  split at hs
  · cases hs
    exact h
  · cases hs
    exact List.foldlRecOn _ _ h fun _ h c _ => h.add _

/-- **a declaration keeps every concept under its own address** -/
theorem Keyed.apply (h : env.Keyed) {d : Declaration} (hd : d.apply env = .ok env') : env'.Keyed := by
  cases d with
  | key => cases hd; exact h.add _
  | property => cases hd; exact h.add _
  | constant => cases hd; exact h.add _
  | derived name datatype lineage =>
    rw [Declaration.apply] at hd
    cases hr : env.declareDerived name datatype lineage with
    | error e => rw [hr] at hd; cases hd
    | ok r => rw [hr] at hd; cases hd; exact h.declareDerived hr
  | merge => exact h.merge hd
  | datasource => exact h.declareDatasource hd
  | rowset name select =>
    rw [Declaration.apply] at hd
    cases hr : env.declareRowset name select with
    | error e => rw [hr] at hd; cases hd
    | ok r => rw [hr] at hd; cases hd; exact h.declareRowset hr
  | multiselect name selects align =>
    rw [Declaration.apply] at hd
    split at hd
    · rename_i env'' xs hr
      cases hd
      exact (congrArg (fun r => r.1.Keyed) hr).mp (h.declareAligned _ _ _ _)
    · cases hd

theorem keyed_build {ds : List Declaration} (h : Declaration.build ds = .ok env) : env.Keyed :=
  foldlM_keeps (P := Keyed) h keyed_empty fun _ _ _ hb hd => hb.apply hd

end Environment

/-! ## The states of a pass -/

/-- the states of a pass over an environment: a search, a query, a concept sourced or a stack checked leads from one to
the next, whether it succeeds or not, and a search may be under way -/
inductive Planner.Reached : Planner → Prop
  | start {env : Environment} {settings : PlannerSettings} {p : Planner} :
      env.Keyed → Planner.start env settings = .ok p → Reached p
  | search {p : Planner} (r : Request) : Reached p → Reached ((search r).run p).2
  | query {p : Planner} (outputs : List Concept) (condition : Option Condition) :
      Reached p → Reached ((sourceQuery search outputs condition).run p).2
  | source {p : Planner} (picked : Concept) (companions : List Concept) (depth : Nat) (acceptPartial : Bool)
      (condition : Option Condition) :
      Reached p → Reached ((sourceConcept search picked companions depth acceptPartial condition).run p).2
  | check {p : Planner} (stack : List PlanId) (mandatory completion : List Concept) (condition : Option Condition)
      (acceptPartial : Bool) : Reached p →
      Reached ((Planning.resolving (Coverage.check stack mandatory completion condition acceptPartial)).run p).2
  | begun {p : Planner} (key : SearchKey) : Reached p → Reached { p with history := p.history.start key }
  | ended {p : Planner} (key : SearchKey) : Reached p → Reached { p with history := p.history.finish key }

namespace Planner.Reached

/-- what every step keeps -/
structure Sound (p : Planner) : Prop where
  fine : p.Fine
  keyed : p.arena.environment.Keyed

theorem Sound.runs {α : Type} {p : Planner} {step : Planning α} {Q : Planner → α → Prop} (h : Sound p)
    (hs : Runs 0 p step Q) : Sound (step.run p).2 := by
  obtain ⟨hf, hl, -⟩ := hs h.fine (Nat.zero_le _)
  exact ⟨hf, hl.environment ▸ h.keyed⟩

/-- **every state of a pass is fine**, and its environment keeps concepts under their own addresses -/
theorem sound {p : Planner} (h : p.Reached) : Sound p := by
  induction h with
  | start hkeyed hstart =>
    obtain ⟨hf, he⟩ := fine_start hstart
    exact ⟨hf, he ▸ hkeyed⟩
  | search r _ ih => exact ih.runs (search_searches 0 _ r)
  | query outputs condition _ ih => exact ih.runs (sourceQuery_sourced search_searches outputs condition)
  | source picked companions depth acceptPartial condition _ ih =>
    exact ih.runs (sourceConcept_finds search_searches picked companions depth acceptPartial condition)
  | check stack mandatory completion condition acceptPartial _ ih =>
    exact ih.runs (.resolving fun hp => Coverage.check_yields hp.consistent.wellFormed (fun id _ => hp.plain id)
      mandatory completion condition acceptPartial)
  | begun key _ ih =>
    exact ⟨⟨ih.fine.consistent, ih.fine.plain, ih.fine.reads, ih.fine.remembered, ih.fine.searches, ih.fine.matched,
      ih.fine.graph⟩, ih.keyed⟩
  | ended key _ ih =>
    exact ⟨⟨ih.fine.consistent, ih.fine.plain, ih.fine.reads, ih.fine.remembered, ih.fine.searches, ih.fine.matched,
      ih.fine.graph⟩, ih.keyed⟩

/-- a pass over what is declared in a file, as a select sees it -/
theorem of_build {ds : List Declaration} {env seen : Environment} {select : List String} {settings : PlannerSettings}
    {p : Planner} (hb : Declaration.build ds = .ok env) (hs : env.inSelect select = .ok seen)
    (hp : Planner.start seen settings = .ok p) : p.Reached :=
  .start ((Environment.keyed_build hb).inSelect hs) hp

end Planner.Reached

/-! ## Sourcing a concept under a condition -/

variable {p q : Planner} {picked : Concept} {companions : List Concept} {depth : Nat} {acceptPartial : Bool}
  {condition : Condition} {id : PlanId}

/-- a sourced concept of which something was computed was found -/
theorem exists_sourced {α : Type} {env : Environment} {f : Planner → PlanId → α} {v : α} (hkeyed : env.Keyed)
    (h : ((Planner.start env {}).toOption.bind fun p =>
      match (sourceConcept search picked companions depth acceptPartial (some condition)).run p with
      | (.ok (some id), q) => some (f q id)
      | _ => none) = some v) :
    ∃ p q id, p.Reached ∧
      (sourceConcept search picked companions depth acceptPartial (some condition)).run p = (.ok (some id), q) ∧
      f q id = v := by
  cases hp : Planner.start env {} with
  | error e =>
    rw [hp] at h
    cases h
  | ok p =>
    rw [hp] at h
    obtain ⟨⟨_ | _ | id, q⟩, hr⟩ : ∃ r,
        (sourceConcept search picked companions depth acceptPartial (some condition)).run p = r := ⟨_, rfl⟩
    all_goals
      simp only [Except.toOption, Option.bind_some, hr] at h
      cases h
    exact ⟨p, q, id, .start hkeyed hp, hr, rfl⟩

/-- the rows of a price above 100 -/
def costly : Condition := .comparison (.concept "local.price") .gt (.literal (.integer 100))

/-- the rows of a shop other than the first -/
def elsewhere : Condition := .comparison (.concept "local.shop") .gt (.literal (.integer 1))

/-- the items of a price above 100 -/
def costlyItem : Concept :=
  .derived "costly" .integer .key (.filter ⟨"local.id", costly⟩) (.ofList ["local.costly"]) .multiRow

/-- a constant that no source has -/
def three : Concept := .constant "three" .integer (.integer 3)

/-- items of shops, a price of each of them, the costly ones, and a constant -/
def pricedItems : Environment :=
  { ((((Environment.empty.add (.key "id" .integer)).add (.property "price" .integer ["id"])).add
      (.property "shop" .integer ["id"])).add costlyItem).add three with
    datasources := SortedMap.ofList
      [("items", .ofColumns "items" [.bind "id" "id", .bind "price" "price", .bind "shop" "shop"] ["id"])] }

theorem keyed_pricedItems : pricedItems.Keyed :=
  fun x c h => (((((Environment.keyed_empty.add _).add _).add _).add _).add _) x c h

/-- a node that neither applies a condition nor shows all that the condition reads -/
def Arena.Unmet (a : Arena) (id : PlanId) (condition : Condition) : Prop :=
  (∀ known ∈ (a.core id).preexisting, condition.holdsIn known = false) ∧
    ∃ x ∈ condition.rowArguments, x ∉ (a.core id).visible

/-- what is sourced from the items without their shop, and under no condition on it, leaves that condition unmet -/
theorem exists_unmet (shown : List String) (hshown : "local.shop" ∉ shown)
    (h : ((Planner.start pricedItems {}).toOption.bind fun p =>
      match (sourceConcept search picked [] 0 false (some elsewhere)).run p with
      | (.ok (some id), q) => some ((q.arena.core id).visible, (q.arena.core id).preexisting.any elsewhere.holdsIn)
      | _ => none) = some (shown, false)) :
    ∃ p q id, p.Reached ∧ (sourceConcept search picked [] 0 false (some elsewhere)).run p = (.ok (some id), q) ∧
      q.arena.Unmet id elsewhere := by
  obtain ⟨p, q, id, hp, hr, hv⟩ := exists_sourced keyed_pricedItems h
  obtain ⟨hvisible, hnone⟩ := Prod.mk.inj hv
  refine ⟨p, q, id, hp, hr, fun known hknown => ?_, "local.shop", by decide, hvisible ▸ hshown⟩
  rw [Option.mem_def.1 hknown] at hnone
  exact hnone

/-- what was computed of a refusal is the refusal -/
theorem eq_error_of_refusal {α : Type} {x : Except PlanningError α} {e : PlanningError}
    (h : (match x with | .error e => some e | .ok _ => none) = some e) : x = .error e := by
  cases x with
  | error e' => exact congrArg Except.error (Option.some.inj h)
  | ok v => cases h

/-- **Constants that forget the condition.** A constant alone is sourced without it, and cannot be planned under it. -/
theorem three_unmet : (∃ p q id, p.Reached ∧
      (sourceConcept search three [] 0 false (some elsewhere)).run p = (.ok (some id), q) ∧
      q.arena.Unmet id elsewhere) ∧
    QueryPlan.make pricedItems ["local.three"] (some elsewhere) {} =
      .error (.conditionMismatch "none" "local.shop > 1") :=
  ⟨exists_unmet ["local.three"] (by decide) (by decide +kernel), eq_error_of_refusal (by decide +kernel)⟩

end SemanticPlanner
