/-
Whether the columns that a lowered plan reads are there.

  Closed            every entry of a source map names something the step reads that has the column
  Loses             a column is gone: its source was that of another relation of the name, or a step without the column
                    was written under the name of the source
  closed_lower_iff  a lowered relation is closed exactly if it loses no column
  closed_make       so it is with every plan, and a plan whose relations can be told apart by name is closed

Relations of one identifier that differ in their outputs are common: a select is named for its datasource and its grain,
not for what it reads. Two of them are put together where they meet below one merge, but elsewhere the first to be
written stands for both.
-/
import SemanticPlanner.Proofs.Origins
import SemanticPlanner.Proofs.Query

namespace SemanticPlanner

namespace Cte

/-- an entry of the source map of a step -/
def Maps (c : Cte) (x s : String) : Prop := ∃ names, (x, names) ∈ c.sourceMap.toList ∧ s ∈ names

/-- something that a step reads under a name has the column: a datasource of its own, another step, or an expansion of
its own -/
inductive Reads (steps : List Cte) (c : Cte) (x s : String) : Prop
  | datasource {d : Datasource} : d ∈ c.datasources → d.identifier = s → d.provides x = true → Reads steps c x s
  | step {e : Cte} : s ∈ c.parents → e ∈ steps → e.name = s → x ∈ e.outputs → Reads steps c x s
  | expansion {j : UnnestJoin} : .unnest j ∈ c.joins → j.label = s → x ∈ j.concepts → Reads steps c x s

/-- the test of `Reads` -/
def reads (steps : List Cte) (c : Cte) (x s : String) : Bool :=
  (c.datasources.any fun d => d.identifier == s && d.provides x)
    || (c.parents.contains s && steps.any fun e => e.name == s && e.outputs.contains x)
    || c.joins.any fun j =>
      match j with
      | .unnest j => j.label == s && j.concepts.contains x
      | .base .. => false

theorem reads_iff {steps : List Cte} {c : Cte} {x s : String} : c.reads steps x s = true ↔ c.Reads steps x s := by
  simp only [reads, Bool.or_eq_true, Bool.and_eq_true, List.any_eq_true, List.contains_iff_mem, beq_iff_eq]
  constructor
  · rintro ((⟨d, hd, he, hx⟩ | ⟨hs, e, he, hn, hx⟩) | ⟨j, hj, h⟩)
    · exact .datasource hd he hx
    · exact .step hs he hn hx
    · cases j with
      | base => cases h
      | unnest j =>
        rw [Bool.and_eq_true, beq_iff_eq, List.contains_iff_mem] at h
        exact .expansion hj h.1 h.2
  · intro h
    cases h with
    | datasource hd he hx => exact Or.inl (Or.inl ⟨_, hd, he, hx⟩)
    | step hs he hn hx => exact Or.inl (Or.inr ⟨hs, _, he, hn, hx⟩)
    | expansion hj hl hx =>
      refine Or.inr ⟨_, hj, ?_⟩
      rw [Bool.and_eq_true, beq_iff_eq, List.contains_iff_mem]
      exact ⟨hl, hx⟩

end Cte

/-- every entry of a source map names something that the step reads and that has the column -/
def CtePlan.Closed (p : CtePlan) : Prop := ∀ c ∈ p.ctes, ∀ x s, c.Maps x s → c.Reads p.ctes x s

namespace Relation

variable {r q : Relation} {x s : String}

theorem maps_toCte : r.toCte.Maps x s ↔ ∃ names, r.conceptMap.get? x = some names ∧ s ∈ names := by
  have hmem : ∀ ss, (x, ss) ∈ r.toCte.sourceMap.toList ↔ ∃ names, (x, names) ∈ r.conceptMap.toList ∧ names.toList = ss := by
    intro ss
    show (x, ss) ∈ r.conceptMap.toList.map _ ↔ _
    simp [Prod.ext_iff]
  constructor
  · rintro ⟨ss, hss, hs⟩
    obtain ⟨names, hn, rfl⟩ := (hmem ss).1 hss
    exact ⟨names, SortedMap.get?_eq_some_iff.2 hn, hs⟩
  · rintro ⟨names, hn, hs⟩
    exact ⟨names.toList, (hmem _).2 ⟨names, SortedMap.get?_eq_some_iff.1 hn, rfl⟩, hs⟩

theorem mem_ownDatasources {d : Datasource} : d ∈ r.ownDatasources ↔ .datasource d ∈ r.sources := by
  simp only [ownDatasources, List.mem_filterMap]
  constructor
  · rintro ⟨o, ho, he⟩
    cases o with
    | datasource d' =>
      cases he
      exact ho
    | query q => cases he
  · exact fun h => ⟨_, h, rfl⟩

theorem unnest_mem_joins {j : UnnestJoin} : .unnest j ∈ r.toCte.joins ↔ .unnest j ∈ r.joins := by
  show .unnest j ∈ r.joins.map CteJoin.ofJoin ↔ _
  constructor
  · intro h
    obtain ⟨k, hk, he⟩ := List.mem_map.1 h
    cases k with
    | base b => cases he
    | unnest j' =>
      cases he
      exact hk
  · exact fun h => List.mem_map.2 ⟨_, h, rfl⟩

/-- what the step of a relation reads the relation offers, but for the columns of other steps -/
theorem offers_of_reads {steps : List Cte} (h : r.toCte.Reads steps x s) :
    r.Offers x s ∨ s ∈ r.parentNames ∧ ∃ e ∈ steps, e.name = s ∧ x ∈ e.outputs := by
  cases h with
  | datasource hd he hx => exact Or.inl (.source ⟨_, mem_ownDatasources.1 hd, he, Datasource.provides_iff.1 hx⟩)
  | step hs he hn hx => exact Or.inr ⟨hs, _, he, hn, hx⟩
  | expansion hj hl hx => exact Or.inl (.expansion (unnest_mem_joins.1 hj) hl hx)

end Relation

/-! ## Lost columns -/

/-- a column that the step of a relation maps to a name, and that nothing it reads under the name has -/
inductive Arena.Loses (a : Arena) (id : PlanId) (steps : List Cte) (q : Relation) (x s : String) : Prop
  /-- another relation of the identifier has a source for the column, and this one has none -/
  | source {b : Relation} (known : a.Known id b) (same : b.identifier = q.identifier) (other : b.Offers x s)
      (own : ¬ q.Offers x s) (written : s ∈ q.parentNames → ∀ e ∈ steps, e.name = s → x ∉ e.outputs) :
      Loses a id steps q x s
  /-- a relation it reads has the column, and no step that is written under its name has -/
  | column {t : Relation} (read : .query t ∈ q.sources) (named : t.identifier = s) (shown : x ∈ t.outputs)
      (datasources : ∀ d, .datasource d ∈ q.sources → d.identifier = s → x ∉ d.outputs)
      (expansions : ∀ j, .unnest j ∈ q.joins → j.label = s → x ∉ j.concepts)
      (written : ∀ e ∈ steps, e.name = s → x ∉ e.outputs) : Loses a id steps q x s

/-- known relations of one identifier have the same outputs, and sources for the same columns -/
def Arena.Unambiguous (a : Arena) (id : PlanId) : Prop :=
  ∀ q q', a.Known id q → a.Known id q' → q.identifier = q'.identifier →
    (∀ x ∈ q.outputs, x ∈ q'.outputs) ∧ ∀ x s, q.Offers x s → q'.Offers x s

namespace Arena

variable {a : Arena} {id : PlanId} {r q : Relation} {x s : String} {steps : List Cte}

/-- a column that is lost is not read -/
theorem Loses.not_reads (h : a.Loses id steps q x s) : ¬ q.toCte.Reads steps x s := by
  intro hr
  cases h with
  | source known same other own written =>
    rcases Relation.offers_of_reads hr with ho | ⟨hs, e, he, hn, hx⟩
    · exact own ho
    · exact written hs e he hn hx
  | column read named shown datasources expansions written =>
    cases hr with
    | datasource hd he hx => exact datasources _ (Relation.mem_ownDatasources.1 hd) he (Datasource.provides_iff.1 hx)
    | step hs he hn hx => exact written _ he hn hx
    | expansion hj hl hx => exact expansions _ (Relation.unnest_mem_joins.1 hj) hl hx

/-- a column that is mapped and not read is lost -/
theorem loses_of_not_reads (ht : q.Traced (a.Known id)) (hm : q.toCte.Maps x s)
    (hr : ¬ q.toCte.Reads steps x s) : a.Loses id steps q x s := by
  by_cases ho : q.Offers x s
  · cases ho with
    | source hsource =>
      obtain ⟨o, hmem, hn, hx⟩ := hsource
      cases o with
      | datasource d =>
        exact absurd (.datasource (Relation.mem_ownDatasources.2 hmem) hn (Datasource.provides_iff.2 hx)) hr
      | query t =>
        have hparent : s ∈ q.parentNames := Relation.mem_parentNames.2 ⟨t, hmem, hn⟩
        refine .column hmem hn hx (fun d hd he hxd => hr ?_) (fun j hj hl hxj => hr ?_) fun e he hne hxe => hr ?_
        · exact .datasource (Relation.mem_ownDatasources.2 hd) he (Datasource.provides_iff.2 hxd)
        · exact .expansion (Relation.unnest_mem_joins.2 hj) hl hxj
        · exact .step hparent he hne hxe
    | expansion hj hl hx => exact absurd (.expansion (Relation.unnest_mem_joins.2 hj) hl hx) hr
  · obtain ⟨names, hnames, hs⟩ := Relation.maps_toCte.1 hm
    obtain ⟨b, hb, he, hoff⟩ := ht x names hnames s hs
    exact .source hb he hoff ho fun hp e hmem hn hx => hr (.step hp hmem hn hx)

/-- **a lowered relation is closed exactly if none of its steps loses a column** -/
theorem closed_lower_iff (ht : ∀ q, r.Within q → q.Traced (a.Known id)) : r.lower.Closed ↔
    ∀ q, r.Within q → q.toCte ∈ r.lower.ctes → ∀ x s, q.toCte.Maps x s → ¬ a.Loses id r.lower.ctes q x s := by
  constructor
  · intro hc q hq hmem x s hm hl
    exact hl.not_reads (hc _ hmem x s hm)
  · intro h c hc x s hm
    obtain ⟨q, hq, rfl⟩ := Relation.mem_lower hc
    by_contra hr
    exact h q hq hc x s hm (loses_of_not_reads (ht q hq) hm hr)

/-- what is written under the name of a source is the step of a relation of that identifier -/
theorem written_of_parent (hq : q.toCte ∈ r.lower.ctes) (hs : s ∈ q.parentNames) :
    ∃ t, r.Within t ∧ t.toCte ∈ r.lower.ctes ∧ t.identifier = s := by
  obtain ⟨i, hi, he⟩ := List.getElem_of_mem hq
  obtain ⟨j, d, -, hd, hn⟩ := Relation.parentsFirst_lower r i _ (List.getElem?_eq_some_iff.2 ⟨hi, he⟩) s hs
  have hmem : d ∈ r.lower.ctes := List.mem_of_getElem? hd
  obtain ⟨t, ht, rfl⟩ := Relation.mem_lower hmem
  exact ⟨t, ht, hmem, hn⟩

/-- relations that can be told apart by name lose no column -/
theorem Unambiguous.not_loses (hu : a.Unambiguous id) (hr : a.Resolves id r) (hq : r.Within q)
    (hmem : q.toCte ∈ r.lower.ctes) : ¬ a.Loses id r.lower.ctes q x s := by
  intro hl
  cases hl with
  | source known same other own => exact own ((hu _ _ known (hr.known hq) same).2 x s other)
  | @column t read named shown datasources expansions written =>
    obtain ⟨e, he, hwritten, hn⟩ := written_of_parent hmem (Relation.mem_parentNames.2 ⟨t, read, named⟩)
    have hsame := (hu t e (hr.known (hq.source read)) (hr.known he) (named.trans hn.symm)).1
    exact written _ hwritten hn (hsame x shown)

end Arena

/-! ## The columns of a plan's steps -/

namespace QueryPlan

variable {env : Environment} {select : List String} {condition : Option Condition} {settings : PlannerSettings}
  {plan : QueryPlan}

/-- **Column closure.** Each entry of a source map of a lowered plan comes from a relation known under the step's name,
which has a source for the column. The plan is closed exactly if no step loses a column, to another relation of its own
name or to another one of a source's name; if known relations can be told apart by name, none does. -/
theorem closed_make (h : make env select condition settings = .ok plan) : ∃ r steps,
    plan.arena.Resolves plan.root r ∧ plan.lower = .ok steps ∧
      (∀ q, r.Within q → q.Traced (plan.arena.Known plan.root)) ∧
      (steps.Closed ↔ ∀ q, r.Within q → q.toCte ∈ steps.ctes →
        ∀ x s, q.toCte.Maps x s → ¬ plan.arena.Loses plan.root steps.ctes q x s) ∧
      (plan.arena.Unambiguous plan.root → steps.Closed) := by
  obtain ⟨outputs, found, -, hmade⟩ := make_eq_ok h
  obtain ⟨r, hr⟩ := hmade.resolved
  have hres := Arena.resolve_resolves hmade.consistent hr
  have htraced := hres.traced hmade.reads
  have hiff := Arena.closed_lower_iff htraced
  exact ⟨r, r.lower, hres, Arena.lower_of_resolve hr, htraced, hiff,
    fun hu => hiff.2 fun q hq hmem x s _ => hu.not_loses hres hq hmem⟩

/-- items with a category and a value, and the total of the values by category -/
def totals : Environment :=
  let total : Concept :=
    .derived "tot" .float .metric (.aggregate ⟨.sum, [.concept "local.value"], ["local.cat"]⟩) (.ofList ["local.cat"])
      .multiRow
  { concepts := SortedMap.ofList [("local.id", .key "id" .integer), ("local.value", .property "value" .integer ["id"]),
      ("local.cat", .property "cat" .integer ["id"]), ("local.tot", { total with keys := SortedSet.ofList ["local.cat"] })]
    datasources := SortedMap.ofList
      [("items", .ofColumns "items" [.bind "id" "id", .bind "value" "value", .bind "cat" "cat"] ["id"])] }

/-- the grouping reads the values from the step of another select of the items, which was written first -/
theorem make_totals : ∃ plan steps c, make totals ["local.id", "local.tot"] none {} = .ok plan ∧
    plan.lower = .ok steps ∧ c ∈ steps.ctes ∧ c.name = "group_items_at_id_at_cat" ∧
    c.Maps "local.value" "items_at_id" ∧ ¬ c.Reads steps.ctes "local.value" "items_at_id" := by
  obtain ⟨plan, steps, hm, hl, hv⟩ := exists_lowered
    (f := fun steps => (steps.ctes.find? fun c => c.name == "group_items_at_id_at_cat").map fun c =>
      (c.sourceMap.get? "local.value", c.reads steps.ctes "local.value" "items_at_id"))
    (v := some (some ["items_at_id"], false))
    (show ((make totals ["local.id", "local.tot"] none {}).toOption.bind _) = _ by decide +kernel)
  obtain ⟨c, hc, he⟩ := Option.map_eq_some_iff.1 hv
  obtain ⟨hmap, hreads⟩ := Prod.mk.inj he
  refine ⟨plan, steps, c, hm, hl, List.mem_of_find?_eq_some hc, ?_, ?_, ?_⟩
  · have hname := List.find?_some hc
    exact eq_of_beq hname
  · exact ⟨_, SortedMap.get?_eq_some_iff.1 hmap, List.mem_singleton.2 rfl⟩
  · rw [← Cte.reads_iff, hreads]
    exact Bool.false_ne_true

/-- a plan need not be closed -/
theorem totals_not_closed : ∃ plan steps, make totals ["local.id", "local.tot"] none {} = .ok plan ∧
    plan.lower = .ok steps ∧ ¬ steps.Closed := by
  obtain ⟨plan, steps, c, hm, hl, hc, -, hmaps, hreads⟩ := make_totals
  exact ⟨plan, steps, hm, hl, fun h => hreads (h c hc _ _ hmaps)⟩

theorem closed_make_totals : ∃ plan r steps q x s, make totals ["local.id", "local.tot"] none {} = .ok plan ∧
    plan.arena.Resolves plan.root r ∧ plan.lower = .ok steps ∧ r.Within q ∧ q.toCte ∈ steps.ctes ∧
    q.toCte.Maps x s ∧ plan.arena.Loses plan.root steps.ctes q x s := by
  obtain ⟨plan, steps, c, hm, hl, hc, -, hmaps, hreads⟩ := make_totals
  obtain ⟨r, steps', hr, hl', -, hiff, -⟩ := closed_make hm
  rw [hl] at hl'
  cases hl'
  have hopen : ¬ steps.Closed := fun h => hreads (h c hc _ _ hmaps)
  rw [hiff] at hopen
  push Not at hopen
  obtain ⟨q, hq, hmem, x, s, hx, hlost⟩ := hopen
  exact ⟨plan, r, steps, q, x, s, hm, hr, hl, hq, hmem, hx, hlost⟩

end QueryPlan

end SemanticPlanner
