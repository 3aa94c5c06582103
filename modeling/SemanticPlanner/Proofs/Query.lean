/-
What a planned query shows, and how its plan is lowered.

  Sourced            a node covers an address, or groups the rows of a node that does
  source_runs        the last step of planning hides what was not asked for, and only that
  visible_make       the columns of a plan are those found by the search that were asked for
  lower_make         every plan is lowered: parents first, the root last, and with distinct names unless a step repeats
                     its only source
  resolve_visible    the last of the steps shows what its node shows, unless that is a merge which hands a parent back

The node that a search finds covers each selected column, but it may do so by a stand-in. A stand-in that was not
selected itself is hidden in the last step, and then nothing stands for the column any more. A merge that hands a parent
back does not hide at all: what the last step hides is shown again, if that merge is the root.
-/
import SemanticPlanner.Proofs.Lowering
import SemanticPlanner.Proofs.Searching
import SemanticPlanner.Search.Query

namespace SemanticPlanner

open Planner

variable {k : Nat} {p q : Planner} {search : Search} {id : PlanId}

/-! ## The start of a pass -/

theorem Planner.fine_start {env : Environment} {settings : PlannerSettings} (h : Planner.start env settings = .ok p) :
    p.Fine ∧ p.arena.environment = env := by
  obtain ⟨graph, hgraph, h⟩ := Resolve.bind_eq_ok h
  cases h
  have hnode : ∀ x, (Arena.empty env).node x = default := fun x => by
    rw [Arena.node, Arena.slot_eq_default (by rfl)]
    rfl
  refine ⟨⟨.empty env, fun id => ?_, fun id d acceptPartial hk => ?_, fun e he => ?_, fun e he => ?_, fun e he => ?_,
    ReferenceGraph.wellFormed_ofEnvironment hgraph⟩, rfl⟩
  · show ((Arena.empty env).node id).core.virtual = []
    rw [hnode]
    rfl
  · rw [hnode] at hk
    intro x hx
    rw [Arena.core, hnode] at hx
    cases hx
  · cases he
  · cases he
  · cases he

/-! ## Hiding what was not asked for -/

/-- the visible outputs after all but some of them were hidden -/
theorem NodeCore.visible_hide (c : NodeCore) (keep : String → Bool) :
    { c with hidden := c.hidden.insertAll ((c.visible.filter fun x => !keep x).filter c.outputs.contains) }.visible =
      c.visible.filter keep := by
  simp only [visible, List.filter_filter]
  refine List.filter_congr fun x hx => ?_
  rw [Bool.eq_iff_iff, Bool.and_eq_true, SortedSet.not_contains_iff, SortedSet.not_contains_iff,
    SortedSet.mem_insertAll]
  simp only [List.mem_filter, List.contains_iff_mem, Bool.and_eq_true, SortedSet.not_contains_iff]
  rw [Bool.not_eq_true', ← Bool.not_eq_true]
  tauto

/-- a resolved node resolves to the same relation again -/
theorem Runs.resolve_again (hid : p.arena.contains id = true) : Runs k p (Planning.resolve id) fun q r =>
    (q.arena.resolve id).1 = .ok r ∧ ∃ b, p.arena.SameNodes b ∧ q = p.withArena b := by
  intro hp hk
  obtain ⟨hf, hl, hr⟩ := Runs.resolve id hp hk
  exact ⟨hf, hl, fun r h => ⟨Arena.resolve_again hp.consistent hid h, (hr r h).2⟩⟩

namespace QueryPlan

/-- what is left of planning once the outputs are sourced -/
def conceal (outputs : List Concept) (root : PlanId) : Planning PlanId := do
  let extra := (← Planning.core root).visible.filter fun a => !(Concept.addresses outputs).contains a
  if !extra.isEmpty then Planning.edit fun a => a.hideOutputs root extra
  let _ ← Planning.resolve root
  pure root

theorem source_eq (outputs : List Concept) (condition : Option Condition) :
    source outputs condition = sourceQuery SemanticPlanner.search outputs condition >>= conceal outputs := rfl

/-- **the last step of planning keeps the visible outputs that were asked for**, and leaves the root resolved -/
theorem conceal_runs {root : PlanId} (ho : Owned k p root) (outputs : List Concept) :
    Runs k p (conceal outputs root) fun q id => id = root ∧ Owned k q root ∧
      (q.arena.core root).visible = (p.arena.core root).visible.filter (Concept.addresses outputs).contains ∧
      ∃ r, (q.arena.resolve root).1 = .ok r := by
  have hend : ∀ q, Owned k q root → (q.arena.core root).visible =
      (p.arena.core root).visible.filter (Concept.addresses outputs).contains →
      Runs k q (do let _ ← Planning.resolve root; pure root) fun q id => id = root ∧ Owned k q root ∧
        (q.arena.core root).visible = (p.arena.core root).visible.filter (Concept.addresses outputs).contains ∧
        ∃ r, (q.arena.resolve root).1 = .ok r := by
    intro q ho hv
    refine .bind (.resolve_again ho.contains) ?_
    rintro r _ hl ⟨hr, b, hb, rfl⟩
    refine .pure ⟨rfl, ho.later hl, ?_, r, hr⟩
    show (b.core root).visible = _
    rw [hb.core, hv]
  refine .core ?_
  dsimp only
  split
  · refine .bind (.edit (.hideOutputs _) ho) ?_
    rintro - _ hl rfl
    refine hend _ (ho.later hl) ?_
    show ((p.arena.hideOutputs root _).core root).visible = _
    rw [Arena.hideOutputs, Arena.core_change_self _ ho.contains]
    exact NodeCore.visible_hide _ _
  · rename_i hnone
    refine hend p ho (List.filter_eq_self.2 fun x hx => ?_).symm
    by_contra hkeep
    refine hnone ?_
    rw [Bool.not_eq_true', List.isEmpty_eq_false_iff_exists_mem]
    exact ⟨x, List.mem_filter.2 ⟨hx, by simpa using hkeep⟩⟩

variable {env : Environment} {select : List String} {condition : Option Condition} {settings : PlannerSettings}
  {plan : QueryPlan}

/-- the search for the outputs of a select has found `root`, which leaves the pass in the state `found` -/
def Searched (env : Environment) (select : List String) (condition : Option Condition) (settings : PlannerSettings)
    (outputs : List Concept) (root : PlanId) (found : Planner) : Prop :=
  ∃ seen start, env.inSelect select = .ok seen ∧ seen.conceptsFor select = .ok outputs ∧
    Planner.start seen settings = .ok start ∧
    (sourceQuery SemanticPlanner.search outputs condition).run start = (.ok root, found)

/-- what a plan shows -/
def visible (plan : QueryPlan) : List String := (plan.arena.core plan.root).visible

/-- a plan is what its search has found, with the rest concealed -/
structure MadeFrom (plan : QueryPlan) (outputs : List Concept) (found : Planner) : Prop where
  sourced : ∀ c ∈ outputs, found.arena.Sourced plan.root c.address
  visible : plan.visible = (found.arena.core plan.root).visible.filter (Concept.addresses outputs).contains
  consistent : plan.arena.Consistent
  reads : ∀ id d acceptPartial, (plan.arena.node id).kind = .select d acceptPartial →
    ∀ x ∈ (plan.arena.core id).inputs, x ∈ d.outputs
  resolved : ∃ r, (plan.arena.resolve plan.root).1 = .ok r

theorem make_eq_ok (h : make env select condition settings = .ok plan) : ∃ outputs found,
    Searched env select condition settings outputs plan.root found ∧ plan.MadeFrom outputs found := by
  obtain ⟨seen, hseen, h⟩ := Resolve.bind_eq_ok h
  obtain ⟨outputs, houtputs, h⟩ := Resolve.bind_eq_ok h
  obtain ⟨start, hstart, h⟩ := Resolve.bind_eq_ok h
  rcases hrun : (source outputs condition).run start with ⟨e | root, final⟩
  · rw [hrun] at h
    cases h
  rw [hrun] at h
  cases h
  rw [source_eq] at hrun
  obtain ⟨root', found, hfound, hrest⟩ := Arena.run_bind_eq_ok hrun
  obtain ⟨hf, -, hq⟩ := sourceQuery_sourced (k := 0) search_searches outputs condition
    (Planner.fine_start hstart).1 (Nat.zero_le _)
  rw [hfound] at hf hq
  obtain ⟨ho, hcov⟩ := hq root' rfl
  obtain ⟨hf', -, hc⟩ := conceal_runs ho outputs hf (Nat.zero_le _)
  rw [hrest] at hf' hc
  obtain ⟨rfl, -, hv, hr⟩ := hc root rfl
  exact ⟨outputs, found, ⟨seen, start, hseen, houtputs, hstart, hfound⟩, hcov, hv, hf'.consistent, hf'.reads, hr⟩

/-! ## The columns of a plan -/

/-- a plan shows a concept, or a pseudonym of it -/
def Shows (plan : QueryPlan) (c : Concept) : Prop := ∃ y ∈ plan.visible, y = c.address ∨ y ∈ c.pseudonyms

/-- **The columns of a plan.** A plan shows selected concepts only. The node that the search found covers each selected
concept, and the plan shows the concept or a pseudonym of it exactly where that node shows one that is selected: a
pseudonym that is not selected itself is hidden, even if nothing else stands for the concept. -/
theorem visible_make (h : make env select condition settings = .ok plan) : ∃ outputs found,
    Searched env select condition settings outputs plan.root found ∧
      (∀ x ∈ plan.visible, x ∈ Concept.addresses outputs) ∧
      ∀ c ∈ outputs, found.arena.Sourced plan.root c.address ∧
        (plan.Shows c ↔ ∃ y ∈ (found.arena.core plan.root).visible,
          (y = c.address ∨ y ∈ c.pseudonyms) ∧ y ∈ Concept.addresses outputs) := by
  obtain ⟨outputs, found, hs, hmade⟩ := make_eq_ok h
  have hmem : ∀ x, x ∈ plan.visible ↔
      x ∈ (found.arena.core plan.root).visible ∧ x ∈ Concept.addresses outputs := by
    intro x
    rw [hmade.visible, List.mem_filter, List.contains_iff_mem]
  refine ⟨outputs, found, hs, fun x hx => ((hmem x).1 hx).2, fun c hc => ⟨hmade.sourced c hc, ?_⟩⟩
  constructor
  · rintro ⟨y, hy, hstands⟩
    obtain ⟨hfound, hselected⟩ := (hmem y).1 hy
    exact ⟨y, hfound, hstands, hselected⟩
  · rintro ⟨y, hfound, hstands, hselected⟩
    exact ⟨y, (hmem y).2 ⟨hfound, hselected⟩, hstands⟩

/-- a plan of which something was computed was made -/
theorem exists_made {α : Type} {f : QueryPlan → Option α} {v : α}
    (h : (make env select condition settings).toOption.bind f = some v) :
    ∃ plan, make env select condition settings = .ok plan ∧ f plan = some v := by
  cases hm : make env select condition settings with
  | error e =>
    rw [hm] at h
    cases h
  | ok plan =>
    rw [hm] at h
    exact ⟨plan, rfl, h⟩

/-- steps of which something was computed were lowered -/
theorem exists_lowered {α : Type} {f : CtePlan → α} {v : α}
    (h : ((make env select condition settings).toOption.bind fun plan => plan.lower.toOption.map f) = some v) :
    ∃ plan steps, make env select condition settings = .ok plan ∧ plan.lower = .ok steps ∧ f steps = v := by
  obtain ⟨plan, hm, hv⟩ := exists_made h
  cases hl : plan.lower with
  | error e =>
    rw [hl] at hv
    cases hv
  | ok steps =>
    rw [hl] at hv
    exact ⟨plan, steps, hm, hl, Option.some.inj hv⟩

/-- a plan's relation of which something was computed was resolved -/
theorem exists_resolved {α : Type} {f : QueryPlan → Relation → α} {v : α}
    (h : ((make env select condition settings).toOption.bind
      fun plan => (plan.arena.resolve plan.root).1.toOption.map (f plan)) = some v) :
    ∃ plan r, make env select condition settings = .ok plan ∧ (plan.arena.resolve plan.root).1 = .ok r ∧
      f plan r = v := by
  obtain ⟨plan, hm, hv⟩ := exists_made h
  obtain ⟨outputs, found, -, hmade⟩ := make_eq_ok hm
  obtain ⟨r, hr⟩ := hmade.resolved
  rw [hr] at hv
  exact ⟨plan, r, hm, hr, Option.some.inj hv⟩

/-- two keys that are names for each other, and a datasource that has one of them -/
def renamedKey : Environment :=
  let keys := ((Environment.empty.add (.key "a" .integer)).add (.key "b" .integer)).addPseudonym "local.a" "local.b"
  { keys.addPseudonym "local.b" "local.a" with
    datasources := SortedMap.ofList [("bs", .ofColumns "bs" [.bind "b" "b"] ["b"])] }

/-- asked for the other key, the plan finds its stand-in and hides it -/
theorem make_renamedKey : ∃ plan, make renamedKey ["local.a"] none {} = .ok plan ∧ plan.visible = [] := by
  obtain ⟨plan, hm, hv⟩ := exists_made (f := fun plan => some plan.visible) (v := [])
    (show (make renamedKey ["local.a"] none {}).toOption.bind _ = _ by decide +kernel)
  exact ⟨plan, hm, Option.some.inj hv⟩

/-- a plan can show neither a selected concept nor a pseudonym of it -/
theorem renamedKey_shows_none : ∃ plan c, make renamedKey ["local.a"] none {} = .ok plan ∧
    renamedKey.find? "local.a" = some c ∧ "local.b" ∈ c.pseudonyms ∧ ¬ plan.Shows c := by
  obtain ⟨plan, hm, hv⟩ := make_renamedKey
  refine ⟨plan, _, hm, rfl, by decide, ?_⟩
  rintro ⟨y, hy, -⟩
  rw [hv] at hy
  cases hy

theorem visible_make_renamedKey : ∃ plan outputs found, make renamedKey ["local.a"] none {} = .ok plan ∧
    Searched renamedKey ["local.a"] none {} outputs plan.root found ∧
    (∀ x ∈ plan.visible, x ∈ Concept.addresses outputs) ∧
    ∀ c ∈ outputs, found.arena.Sourced plan.root c.address ∧
      (plan.Shows c ↔ ∃ y ∈ (found.arena.core plan.root).visible,
        (y = c.address ∨ y ∈ c.pseudonyms) ∧ y ∈ Concept.addresses outputs) := by
  obtain ⟨plan, hm, -⟩ := make_renamedKey
  obtain ⟨outputs, found, hs, hv⟩ := visible_make hm
  exact ⟨plan, outputs, found, hm, hs, hv⟩

/-! ## Its steps -/

/-- **The steps of a plan.** Every plan is lowered. Each step stands after those it reads, the last one is the root and
the step of the root's relation, and the names are pairwise distinct unless some step is of a relation that does nothing
but repeat its only source, whose name it then has. -/
theorem lower_make (h : make env select condition settings = .ok plan) : ∃ r steps,
    plan.arena.Resolves plan.root r ∧ plan.lower = .ok steps ∧ ParentsFirst steps.ctes ∧
      steps.ctes.getLast? = some r.toCte ∧ r.toCte.name = steps.root ∧
      (steps.names.Nodup ↔ ∀ q, r.Within q → q.toCte ∈ steps.ctes → ∀ s, ¬ q.IsRepeat s) := by
  obtain ⟨outputs, found, -, hmade⟩ := make_eq_ok h
  obtain ⟨r, hr⟩ := hmade.resolved
  have hres := Arena.resolve_resolves hmade.consistent hr
  exact ⟨r, r.lower, hres, Arena.lower_of_resolve hr, Relation.parentsFirst_lower r, r.getLast?_lower, rfl,
    Relation.nodup_lower_iff hres.wellNamed⟩

/-- a sum of single rows over another one -/
def nestedSum : Environment :=
  let sum (name argument : String) : Concept :=
    .derived name .integer .metric (.aggregate ⟨.sum, [.concept argument], []⟩) Grain.single .singleRow
  { concepts := SortedMap.ofList
      [("local.id", .key "id" .integer), ("local.n", sum "n" "local.id"), ("local.t", sum "t" "local.n")]
    datasources := SortedMap.ofList [("items", .ofColumns "items" [.bind "id" "id"] ["id"])] }

/-- the sum of a single row is a step of the name of the step that it reads -/
theorem make_nestedSum : ∃ plan steps, make nestedSum ["local.t"] none {} = .ok plan ∧ plan.lower = .ok steps ∧
    steps.names = ["items_at_id", "group_items_at_id", "group_items_at_id"] := by
  exact exists_lowered (by decide +kernel)

/-- the names of a plan's steps can repeat -/
theorem nestedSum_repeats : ∃ plan steps, make nestedSum ["local.t"] none {} = .ok plan ∧
    plan.lower = .ok steps ∧ ¬ steps.names.Nodup := by
  obtain ⟨plan, steps, hm, hl, hn⟩ := make_nestedSum
  refine ⟨plan, steps, hm, hl, ?_⟩
  rw [hn]
  decide

theorem lower_make_nestedSum : ∃ plan r steps q s, make nestedSum ["local.t"] none {} = .ok plan ∧
    plan.arena.Resolves plan.root r ∧ plan.lower = .ok steps ∧ r.Within q ∧ q.toCte ∈ steps.ctes ∧ q.IsRepeat s := by
  obtain ⟨plan, steps, hm, hl, hn⟩ := make_nestedSum
  obtain ⟨r, steps', hr, hl', -, -, -, hiff⟩ := lower_make hm
  rw [hl] at hl'
  cases hl'
  have hrepeats : ¬ steps.names.Nodup := by
    rw [hn]
    decide
  rw [hiff] at hrepeats
  push Not at hrepeats
  obtain ⟨q, hq, hmem, s, hs⟩ := hrepeats
  exact ⟨plan, r, steps, q, s, hm, hr, hl, hq, hmem, hs⟩

end QueryPlan

/-! ## What its last step shows -/

namespace Arena

variable {a : Arena} {r : Relation}

/-- **Refinement.** In an arena built by its own operations, a node that resolves shows exactly the visible outputs of
its core, or it is a merge without a condition that hands a parent back: its only one with the same outputs, or one
that is complete in all of its outputs. Every output of the core is one of the relation, so nothing but what the relation
itself hides is lost. The last step of the lowered plan is its root and shows what the relation shows. -/
theorem resolve_visible (ha : a.Built) (h : (a.resolve id).1 = .ok r) :
    (r.visible = (a.core id).visible ∨ a.HandsBack id r) ∧ (∀ x ∈ (a.core id).outputs, x ∈ r.outputs) ∧
      ∃ plan last, (a.lower id).1 = .ok plan ∧ plan.ctes.getLast? = some last ∧ last.name = plan.root ∧
        last.visible = r.visible := by
  have hresolves : a.Resolves id r := resolve_resolves ha.consistent h
  refine ⟨hresolves.visible, fun x hx => ?_, r.lower, r.toCte, lower_of_resolve h, r.getLast?_lower, rfl, rfl⟩
  rcases hresolves.shows with ⟨houtputs, -⟩ | hback
  · rw [houtputs]
    exact hx
  · exact hback.outputs hx

/-- a merge that wants one of the two constants below it -/
def mergeOverConstants : Arena :=
  let (below, a) := (Arena.empty default).insert ⟨.constant, NodeCore.of [] ["local.a", "local.b"]⟩
  (a.insert ⟨.merge none, (NodeCore.of ["local.a"] ["local.a"]).withParents [below]⟩).2

theorem resolve_visible_mergeOverConstants :
    mergeOverConstants.Built ∧
      (mergeOverConstants.resolve ⟨1⟩).1 = .ok (Resolve.constant (NodeCore.of [] ["local.a", "local.b"])) ∧
      (mergeOverConstants.core ⟨1⟩).visible = ["local.a"] ∧
      ∃ plan last, (mergeOverConstants.lower ⟨1⟩).1 = .ok plan ∧ plan.ctes.getLast? = some last ∧
        last.name = plan.root ∧ last.visible = ["local.a", "local.b"] := by
  have hbuilt : mergeOverConstants.Built := by
    refine .insert (.insert (.empty default) ?_) ?_
    · decide
    · decide
  have hresolve : (mergeOverConstants.resolve ⟨1⟩).1 =
      .ok (Resolve.constant (NodeCore.of [] ["local.a", "local.b"])) := rfl
  exact ⟨hbuilt, hresolve, by decide, (resolve_visible hbuilt hresolve).2.2⟩

end Arena

namespace QueryPlan

/-- orders of customers, and the rank of an order's total among those of its customer -/
def rankedOrders : Environment :=
  let rank : Lineage := .window ⟨.rank, "local.total", ["local.customer_id"], [⟨"local.total", true⟩]⟩
  { concepts := SortedMap.ofList
      [("local.order_id", .key "order_id" .integer), ("local.customer_id", .key "customer_id" .integer),
        ("local.total", .property "total" .float ["order_id"]),
        ("local.total_rank", { Concept.derived "total_rank" .integer .property rank (.ofList ["local.order_id"])
          .multiRow with keys := SortedSet.ofList ["local.order_id"] })]
    datasources := SortedMap.ofList [("orders", .ofColumns "orders"
      [.bind "order_id" "order_id", .bind "customer_id" "customer_id", .bind "total" "total"] ["order_id"])] }

/-- **A plan whose last step shows what its root hides.** The root of a window is a merge of the window's own outputs.
The inputs of the window are hidden on it, but it hands the window back, and so they are columns of the result. -/
theorem rankedOrders_shows_more : ∃ plan r steps last, make rankedOrders ["local.total_rank"] none {} = .ok plan ∧
    plan.visible = ["local.total_rank"] ∧ (plan.arena.resolve plan.root).1 = .ok r ∧ plan.lower = .ok steps ∧
      steps.ctes.getLast? = some last ∧ last.name = steps.root ∧ last.visible = r.visible ∧
        r.visible = ["local.total_rank", "local.total", "local.customer_id"] := by
  obtain ⟨plan, r, hm, hr, hv⟩ := exists_resolved (f := fun plan r => (plan.visible, r.visible))
    (show (make rankedOrders ["local.total_rank"] none {}).toOption.bind _ =
      some (["local.total_rank"], ["local.total_rank", "local.total", "local.customer_id"]) by decide +kernel)
  obtain ⟨hplan, hrelation⟩ := Prod.mk.inj hv
  exact ⟨plan, r, r.lower, r.toCte, hm, hplan, hr, Arena.lower_of_resolve hr, r.getLast?_lower, rfl, rfl, hrelation⟩

end QueryPlan

end SemanticPlanner
