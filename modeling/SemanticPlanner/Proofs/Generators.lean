/-
Every generator finds nodes that are new to whoever called it, and most apply the condition of the query.

  Searches    a search whose result is owned, covers what was asked for and applies the condition of its request
  Finds       what is found is owned
  FindsUnder  what is found is owned and applies the condition
  Filter.source_finds, Rowset.source_follows, Multiselect.source_follows
              what is found otherwise where a filter is applied by the node of its rows, and by inner selects

A generator changes only nodes that it inserted or was handed by a search, and reads only nodes it holds. The lemma of
each generator takes its search as it is; the search itself is closed over them in the modules above. Inner selects,
rowsets and multiselects are sourced under conditions of their own, and a filter may be applied by its rows in the place
of the condition of the query.
-/
import SemanticPlanner.Proofs.Planning
import SemanticPlanner.Sourcing.Derivation

namespace SemanticPlanner

open Planner

/-! ## Cores as they are put together -/

namespace NodeCore

theorem syncPreexisting_eq (c : NodeCore) :
    c.syncPreexisting = { c with preexisting := c.syncPreexisting.preexisting } := by
  simp only [syncPreexisting]
  split
  · rfl
  · split <;> rfl
  · rfl

@[simp] theorem parents_withPreexisting (c : NodeCore) (k : Option Condition) :
    (c.withPreexisting k).parents = c.parents := by
  rw [withPreexisting, syncPreexisting_eq]

@[simp] theorem virtual_withPreexisting (c : NodeCore) (k : Option Condition) :
    (c.withPreexisting k).virtual = c.virtual := by
  rw [withPreexisting, syncPreexisting_eq]

@[simp] theorem inputs_withPreexisting (c : NodeCore) (k : Option Condition) :
    (c.withPreexisting k).inputs = c.inputs := by
  rw [withPreexisting, syncPreexisting_eq]

@[simp] theorem parents_withCondition (c : NodeCore) (k : Option Condition) :
    (c.withCondition k).parents = c.parents := by
  rw [withCondition, syncPreexisting_eq]

@[simp] theorem virtual_withCondition (c : NodeCore) (k : Option Condition) :
    (c.withCondition k).virtual = c.virtual := by
  rw [withCondition, syncPreexisting_eq]

@[simp] theorem inputs_withCondition (c : NodeCore) (k : Option Condition) :
    (c.withCondition k).inputs = c.inputs := by
  rw [withCondition, syncPreexisting_eq]

@[simp] theorem outputs_withPreexisting (c : NodeCore) (k : Option Condition) :
    (c.withPreexisting k).outputs = c.outputs := by
  rw [withPreexisting, syncPreexisting_eq]

@[simp] theorem hidden_withPreexisting (c : NodeCore) (k : Option Condition) :
    (c.withPreexisting k).hidden = c.hidden := by
  rw [withPreexisting, syncPreexisting_eq]

@[simp] theorem outputs_withCondition (c : NodeCore) (k : Option Condition) :
    (c.withCondition k).outputs = c.outputs := by
  rw [withCondition, syncPreexisting_eq]

@[simp] theorem hidden_withCondition (c : NodeCore) (k : Option Condition) :
    (c.withCondition k).hidden = c.hidden := by
  rw [withCondition, syncPreexisting_eq]

end NodeCore

/-- a search whose result may be changed, covers what was asked for and applies the condition -/
def Searches (search : Search) : Prop := ∀ k p r, Runs k p (search r) fun q o =>
  ∀ id, o = some id → Owned k q id ∧ (∀ c ∈ r.concepts, q.arena.Covers id c.address) ∧ q.arena.Meets id r.condition

/-- what is found may be changed -/
def Finds (k : Nat) (q : Planner) (found : Option PlanId) : Prop := ∀ id, found = some id → Owned k q id

/-- all that is found may be changed -/
def FindsAll (k : Nat) (q : Planner) (found : Option (List PlanId)) : Prop :=
  ∀ ids, found = some ids → ∀ id ∈ ids, Owned k q id

/-- a node that may be changed and applies the condition, if there is one -/
structure Held (k : Nat) (condition : Option Condition) (q : Planner) (id : PlanId) : Prop where
  owned : Owned k q id
  meets : q.arena.Meets id condition

/-- what is found is held under the condition -/
def FindsUnder (k : Nat) (condition : Option Condition) (q : Planner) (found : Option PlanId) : Prop :=
  ∀ id, found = some id → Held k condition q id

variable {k : Nat} {p q : Planner} {search : Search} {t : Task} {id : PlanId} {condition : Option Condition}

theorem Held.weaken {m : Nat} (h : Held m condition q id) (hk : k ≤ m) : Held k condition q id :=
  ⟨h.owned.weaken hk, h.meets⟩

/-- a node is held after steps that change no node that was there -/
theorem Held.later (h : Held k condition p id) (hl : Later p.arena.size p q) : Held k condition q id :=
  ⟨h.owned.later hl, hl.meets h.owned.contains h.meets⟩

theorem Searches.finds (hs : Searches search) (r : Request) : Runs k p (search r) (Finds k) :=
  (hs k p r).mono fun _ _ _ h id hid => (h id hid).1

theorem Searches.findsUnder (hs : Searches search) (r : Request) : Runs k p (search r) (FindsUnder k r.condition) :=
  (hs k p r).mono fun _ _ _ h id hid => ⟨(h id hid).1, (h id hid).2.2⟩

/-- a search changes no node that was there before it -/
theorem Searches.below (hs : Searches search) (r : Request) :
    Runs k p (search r) fun q found => FindsUnder k r.condition q found ∧ Later p.arena.size p q :=
  .belowAll (Q := fun m => FindsUnder m r.condition) (fun _ => hs.findsUnder r) fun _ _ _ hk h id hid =>
    (h id hid).weaken hk

theorem FindsUnder.none : FindsUnder k condition q none := fun _ h => by cases h

theorem FindsUnder.some (h : Held k condition q id) : FindsUnder k condition q (some id) := fun _ e =>
  Option.some.inj e ▸ h

/-- a step that only computes -/
theorem Runs.computes {α : Type} {v : Except PlanningError α} : Runs k p (liftM v : Planning α) fun _ _ => True :=
  .lift fun _ _ => trivial

/-- computations for each item of a list -/
theorem Runs.computesAll {α β : Type} {f : α → Except PlanningError β} {l : List α} :
    Runs k p (l.mapM fun x => (liftM (f x) : Planning β)) fun _ _ => True :=
  (Runs.mapM (Q := fun _ _ => True) (fun _ _ _ _ => .computes) fun _ _ _ _ _ => trivial).mono fun _ _ _ _ => trivial

theorem FindsAll.none : FindsAll k q none := fun _ h => by cases h

theorem FindsAll.some {ids : List PlanId} (h : ∀ id ∈ ids, Owned k q id) : FindsAll k q (some ids) := fun _ e =>
  Option.some.inj e ▸ h

theorem FindsAll.nil : FindsAll k q (Option.some []) := .some fun _ h => absurd h List.not_mem_nil

/-- one more node found before the others -/
theorem FindsAll.cons {rest : Option (List PlanId)} (h : FindsAll k q rest) (ho : Owned k q id) :
    FindsAll k q (rest.map (id :: ·)) := by
  cases rest with
  | none => exact .none
  | some l => exact .some (List.forall_mem_cons.2 ⟨ho, h l rfl⟩)

/-! ## Cores over owned nodes -/

/-- a core that stands on owned nodes only, and keeps none of its outputs virtual -/
structure Standing (k : Nat) (p : Planner) (core : NodeCore) : Prop where
  owned : ∀ x ∈ core.parents, Owned k p x
  virtual : core.virtual = []

namespace Standing

variable {core : NodeCore}

theorem withPreexisting (h : Standing k p core) (c : Option Condition) : Standing k p (core.withPreexisting c) :=
  ⟨by rw [NodeCore.parents_withPreexisting]; exact h.owned, by rw [NodeCore.virtual_withPreexisting]; exact h.virtual⟩

theorem withCondition (h : Standing k p core) (c : Option Condition) : Standing k p (core.withCondition c) :=
  ⟨by rw [NodeCore.parents_withCondition]; exact h.owned, by rw [NodeCore.virtual_withCondition]; exact h.virtual⟩

theorem withForceGroup (h : Standing k p core) (b : Option Bool) : Standing k p (core.withForceGroup b) :=
  ⟨h.owned, h.virtual⟩

/-- a node may be inserted for it, if it is not one that reads a datasource -/
theorem insertable {kind : NodeKind} (h : Standing k p core) (hk : kind.sourceKind ≠ .select) :
    Runs.Insertable p kind core :=
  ⟨fun x hx => (h.owned x hx).contains, h.virtual, fun d acceptPartial e => absurd (by rw [e]; rfl) hk⟩

/-- the node inserted for it is owned -/
theorem inserted {kind : NodeKind} (h : Standing k p core) (hk : kind.sourceKind ≠ .select) :
    Runs k p (Planning.insert kind core) fun q id => Owned k q id :=
  (Runs.insert (h.insertable hk)).mono fun _ _ _ h => h.owned

/-- the node inserted for it is held under what the core applies -/
theorem held {kind : NodeKind} (h : Standing k p core) (hk : kind.sourceKind ≠ .select)
    (hc : ∀ c ∈ condition, core.Applies c.display) :
    Runs k p (Planning.insert kind core) fun q id => Held k condition q id :=
  (Runs.insert (h.insertable hk)).mono fun _ _ _ h => ⟨h.owned, Arena.meets_of_core h.preexisting hc⟩

end Standing

/-- an owned node edited in its outputs or its grain alone is held still -/
theorem Runs.edit_held {g : Arena → Arena} (hg : Edits id g) (hu : Arena.Unfiltered g) (h : Held k condition p id) :
    Runs k p (Planning.edit g) fun q _ => Held k condition q id := by
  refine (Runs.edit hg h.owned).mono ?_
  rintro _ _ hl rfl
  exact ⟨h.owned.later hl, h.meets.edit hu⟩

/-- what is found at last -/
theorem Runs.foundUnder {step : Planning PlanId} (h : Runs k p step fun q id => Held k condition q id) :
    Runs k p (some <$> step) (FindsUnder k condition) := by
  rw [map_eq_pure_bind]
  exact h.bind fun id q _ ho => .pure (.some ho)

theorem forall_owned_cons {l : List PlanId} (h : Owned k p id) (hl : ∀ x ∈ l, Owned k p x) :
    ∀ x ∈ id :: l, Owned k p x :=
  List.forall_mem_cons.2 ⟨h, hl⟩

theorem forall_owned_one (h : Owned k p id) : ∀ x ∈ [id], Owned k p x :=
  forall_owned_cons h fun _ hx => absurd hx List.not_mem_nil

namespace Enrich

variable {base : PlanId}

theorem lookups_finds (hs : Searches search) (depth : Nat) (condition : Option Condition)
    (l : List (List String × List String)) : Runs k p (lookups search depth condition l) (FindsAll k) := by
  induction l generalizing p with
  | nil => exact .pure .nil
  | cons e rest ih =>
    refine .bind (.conceptsFor _) fun _ q _ _ => .bind (.conceptsFor _) fun _ q _ _ => ?_
    refine .bind (hs.finds _) fun found q _ hf => ?_
    cases found with
    | none => exact .pure .none
    | some id =>
      exact .bind ih fun rest' q' hl hrest => .pure (hrest.cons ((hf id rfl).later hl))

/-- the base as it was, or a node above it that applies the condition -/
structure Enriched (k : Nat) (p : Planner) (base : PlanId) (condition : Option Condition) (q : Planner) (id : PlanId) :
    Prop where
  owned : Owned k q id
  base_or_meets : id = base ∧ Later p.arena.size p q ∨ q.arena.Meets id condition

theorem Enriched.unchanged (hb : Owned k p base) (hl : Later p.arena.size p q) : Enriched k p base condition q base :=
  ⟨hb.later hl, Or.inl ⟨rfl, hl⟩⟩

/-- a node inserted above the base for the condition -/
theorem merge_enriched {s : Planner} {core : NodeCore} (h : Standing k q (core.withPreexisting condition)) :
    Runs k q (Planning.insert (.merge none) (core.withPreexisting condition)) (Enriched k s base condition) :=
  Runs.mono (Standing.held h (fun e => by cases e) (NodeCore.meets_withPreexisting _)) fun _ _ _ h =>
    ⟨h.owned, Or.inr h.meets⟩

theorem withProperties_enriched (hs : Searches search) (hb : Owned k p base) (properties : List Concept) (depth : Nat) :
    Runs k p (withProperties search base properties depth condition) (Enriched k p base condition) := by
  refine .bind (.belowAll (Q := FindsAll) (fun _ => lookups_finds hs _ _ _) fun _ _ _ hk h ids he id hid =>
    (h ids he id hid).weaken hk) ?_
  rintro found q - ⟨hf, hl⟩
  cases found with
  | none => exact .pure (.unchanged hb hl)
  | some parents =>
    have hparents : ∀ x ∈ base :: parents, Owned k q x := forall_owned_cons (hb.later hl) (hf parents rfl)
    exact .core (merge_enriched (.withPreexisting ⟨hparents, rfl⟩ _))

theorem withSearch_enriched (hs : Searches search) (hb : Owned k p base) (core : NodeCore) (mandatory : List Concept)
    (depth : Nat) : Runs k p (withSearch search base core mandatory depth condition) (Enriched k p base condition) := by
  refine .bind (hs.below _) ?_
  rintro found q - ⟨hf, hl⟩
  cases found with
  | none => exact .pure (.unchanged hb hl)
  | some id =>
    have hparents : ∀ x ∈ [id, base], Owned k q x :=
      forall_owned_cons (hf id rfl).owned (forall_owned_one (hb.later hl))
    exact merge_enriched (.withPreexisting ⟨hparents, rfl⟩ _)

/-- **an enriched node applies the condition**, and one that could not be enriched is the base -/
theorem node_enriched (hs : Searches search) (hb : Owned k p base) (joinKeys companions : List Concept) (depth : Nat) :
    Runs k p (node search base joinKeys companions depth condition) (Enriched k p base condition) := by
  refine .core ?_
  dsimp only
  split
  · exact .pure (.unchanged hb (.refl _ p))
  · split
    · exact withProperties_enriched hs hb _ _
    · exact withSearch_enriched hs hb _ _ _

theorem node_held (hs : Searches search) (hb : Held k condition p base) (joinKeys companions : List Concept)
    (depth : Nat) : Runs k p (node search base joinKeys companions depth condition) fun q id => Held k condition q id := by
  refine (node_enriched hs hb.owned _ _ _).mono fun q id _ h => ?_
  rcases h.base_or_meets with ⟨rfl, hl⟩ | hmeets
  · exact hb.later hl
  · exact ⟨h.owned, hmeets⟩

end Enrich

namespace Derived

/-- a node above owned ones -/
theorem above_held {kind : NodeKind} {ps : List PlanId} (inputs outputs : List String) (hp : ∀ x ∈ ps, Owned k p x)
    (hk : kind.sourceKind ≠ .select) :
    Runs k p (Planning.insert kind (above ps inputs outputs t)) fun q id => Held k t.condition q id :=
  Standing.held (.withPreexisting ⟨hp, rfl⟩ _) hk (NodeCore.meets_withPreexisting _)

theorem function_finds (hs : Searches search) : Runs k p (function search t) (FindsUnder k t.condition) := by
  refine .environment ?_
  refine .bind .computes fun own q _ _ => ?_
  rcases t.companions.partition _ with ⟨peers, others⟩
  refine .bind .computesAll fun peerInputs q _ _ => ?_
  refine .bind (hs.findsUnder _) fun found q _ hf => ?_
  cases found with
  | none => exact .pure .none
  | some id =>
    refine .bind (.edit_held (.addOutputs _) (.change fun _ => rfl) (hf id rfl)) fun _ q _ ho => ?_
    refine .core ?_
    dsimp only
    split
    · exact .bind (.edit_held (.removeOutputs _) (.change fun _ => rfl) ho) fun _ q _ ho => .pure (.some ho)
    · exact .pure (.some ho)

theorem aggregate_finds (hs : Searches search) : Runs k p (aggregate search t) (FindsUnder k t.condition) := by
  refine .environment ?_
  refine .bind .computes fun own q _ _ => ?_
  refine .bind (.conceptsFor _) fun components q _ _ => ?_
  refine .bind .computes fun g q _ _ => ?_
  refine .bind (hs.finds _) fun found q _ hf => ?_
  cases found with
  | none => exact .pure .none
  | some parent =>
    refine .bind (above_held _ _ (forall_owned_one (hf parent rfl)) nofun) fun id q _ ho => ?_
    split
    · exact .pure (.some ho)
    · exact .foundUnder (Enrich.node_held hs ho _ _ _)

theorem regroup_finds (hs : Searches search) : Runs k p (regroup search t) (FindsUnder k t.condition) := by
  refine .bind (.conceptsFor _) fun args q _ _ => ?_
  refine .bind (hs.finds _) fun found q _ hf => ?_
  cases found with
  | none => exact .pure .none
  | some parent =>
    refine .bind (above_held _ _ (forall_owned_one (hf parent rfl)) nofun) fun id q _ ho => ?_
    split
    · exact .pure (.some ho)
    · refine .bind (hs.below _) ?_
      rintro found q - ⟨hf, hl⟩
      cases found with
      | none => exact .pure (.some (ho.later hl))
      | some other =>
        have hparents : ∀ x ∈ [id, other], Owned k q x :=
          forall_owned_cons (ho.owned.later hl) (forall_owned_one (hf other rfl).owned)
        refine .bind (above_held _ _ hparents nofun) fun merged q _ hm => ?_
        exact .bind (.edit_held (.setWholeGrain _) (.change fun _ => rfl) hm) fun _ q _ hm => .pure (.some hm)

theorem window_finds (hs : Searches search) : Runs k p (window search t) (FindsUnder k t.condition) := by
  refine .environment ?_
  refine .bind .computes fun own q _ _ => ?_
  refine .bind .computesAll fun peerInputs q _ _ => ?_
  refine .bind (hs.finds _) fun found q _ hf => ?_
  cases found with
  | none => exact .pure .none
  | some parent =>
    refine .bind (above_held _ _ (forall_owned_one (hf parent rfl)) nofun) fun base q _ hb => ?_
    refine .bind (Standing.held (.withPreexisting ⟨forall_owned_one hb.owned, rfl⟩ _) nofun
      (NodeCore.meets_withPreexisting _)) fun wrapped q _ hw => ?_
    refine .bind (.conceptsFor _) ?_
    rintro joinKeys _ - ⟨rfl, -⟩
    exact .foundUnder (Enrich.node_held hs hw _ _ _)

/-- an expansion above what was found, wrapped -/
theorem expand_finds {found : Option (List PlanId)} (hf : FindsAll k p found) (array : List String)
    (inputs outputs wrapped : List String) :
    Runs k p (match found with
      | none => pure none
      | some parents => do
        let base ← Planning.insert (.unnest array) (above parents inputs outputs t)
        some <$> Planning.insert (.merge none) (above [base] wrapped outputs t)) (FindsUnder k t.condition) := by
  cases found with
  | none => exact .pure .none
  | some parents =>
    refine .bind (above_held _ _ (hf parents rfl) nofun) fun base q _ hb => ?_
    exact .foundUnder (above_held _ _ (forall_owned_one hb.owned) nofun)

theorem unnest_finds (hs : Searches search) : Runs k p (unnest search t) (FindsUnder k t.condition) := by
  refine .bind (.conceptsFor _) fun args q _ _ => ?_
  dsimp only
  split
  · exact .bind (.pure (Q := FindsAll k) .nil) fun found q _ hf => expand_finds hf _ _ _ _
  · refine .bind (hs.finds _) fun found q _ hf => ?_
    refine .bind (.pure (Q := FindsAll k) ?_) fun found q _ hf => expand_finds hf _ _ _ _
    cases found with
    | none => exact .none
    | some one => exact .some (forall_owned_one (hf one rfl))

theorem recursion_finds (hs : Searches search) : Runs k p (recursion search t) (FindsUnder k t.condition) := by
  refine .bind (.conceptsFor _) fun args q _ _ => ?_
  dsimp only
  split
  · exact .bind (.throw (Q := fun _ _ => False)) fun _ _ _ h => h.elim
  refine .bind (hs.finds _) fun found q _ hf => ?_
  cases found with
  | none => exact .pure .none
  | some parent =>
    refine .bind (above_held _ _ (forall_owned_one (hf parent rfl)) nofun) fun base q _ hb => ?_
    refine .bind (Standing.held (.withPreexisting ⟨forall_owned_one hb.owned, rfl⟩ _) nofun
      (NodeCore.meets_withPreexisting _)) fun grouped q _ hg => ?_
    exact .foundUnder (Enrich.node_held hs hg _ _ _)

end Derived

namespace Filter

variable {plan : Plan}

/-- the condition under which a filter is applied by the node that sources its rows -/
def Plan.pushed (plan : Plan) : Option Condition := if plan.isApplied then plan.task.condition else some plan.condition

/-- **a filter that is applied by the node of its rows** leaves there what was asked for beside it -/
theorem push_finds (hs : Searches search) : Runs k p (push search plan) fun q found => ∀ id, found = some id →
    Held k plan.pushed q id ∧ ∀ c ∈ plan.outputs ++ plan.others, q.arena.Reaches id c.address := by
  refine .bind (hs k p _) fun found q _ hf => ?_
  cases found with
  | none => exact .pure fun id h => by cases h
  | some id =>
    obtain ⟨ho, hcovers, hmeets⟩ := hf id rfl
    refine .assume fun hfine _ => .bind (.edit (.addOutputs _) ho) ?_
    rintro - q' hl rfl
    refine .pure fun id' e => ?_
    cases e
    have hmeets' : (q.arena.addOutputs id (Concept.addresses plan.outputs)).Meets id plan.pushed :=
      hmeets.edit (g := fun a => a.addOutputs id (Concept.addresses plan.outputs)) (.change fun _ => rfl)
    refine ⟨⟨ho.later hl, hmeets'⟩, fun c hc => ?_⟩
    rcases List.mem_append.1 hc with hc | hc
    · exact (Arena.covers_addOutputs ho.contains (List.mem_map_of_mem hc)).reaches
    · have hmem : c.address ∈ Concept.addresses (Concept.unique (plan.rows ++ plan.others)) :=
        Concept.mem_addresses_unique.2 (List.mem_map_of_mem (List.mem_append_right _ hc))
      obtain ⟨d, hd, he⟩ := List.mem_map.1 hmem
      exact he ▸ (hcovers d hd).addOutputs hfine.consistent.wellFormed ho.contains _

theorem sourceChecks_finds (hs : Searches search) (depth : Nat) (cs : List Concept) :
    Runs k p (sourceChecks search depth cs) (FindsAll k) := by
  induction cs generalizing p with
  | nil => exact .pure .nil
  | cons c rest ih =>
    refine .bind (hs.finds _) fun found q _ hf => ?_
    cases found with
    | none => exact .pure .none
    | some id => exact .bind ih fun rest' q' hl hrest => .pure (hrest.cons ((hf id rfl).later hl))

theorem separate_finds (hs : Searches search) :
    Runs k p (separate search plan) (FindsUnder k plan.task.condition) := by
  refine .bind (hs.finds _) fun found q _ hf => ?_
  cases found with
  | none => exact .pure .none
  | some rows =>
    refine .bind (sourceChecks_finds hs _ _) fun checks q hl hc => ?_
    cases checks with
    | none => exact .pure .none
    | some checks =>
      refine .bind (.conceptsFor _) fun read q hl' _ => ?_
      have hparents : ∀ x ∈ rows :: checks, Owned k q x :=
        forall_owned_cons (((hf rows rfl).later hl).later hl') fun x hx => (hc checks rfl x hx).later hl'
      exact .foundUnder (Standing.held (.withCondition (.withPreexisting ⟨hparents, rfl⟩ _) _) nofun fun c hmem =>
        (NodeCore.meets_withPreexisting _ c hmem).withCondition _)

theorem joinBack_held (hs : Searches search) {filtered : PlanId} (ho : Held k plan.task.condition p filtered) :
    Runs k p (joinBack search plan filtered) fun q id => Held k plan.task.condition q id := by
  refine .bind (hs.below _) ?_
  rintro found q - ⟨hf, hl⟩
  cases found with
  | none => exact .pure (ho.later hl)
  | some id =>
    have hparents : ∀ x ∈ [id, filtered], Owned k q x :=
      forall_owned_cons (hf id rfl).owned (forall_owned_one (ho.owned.later hl))
    exact Standing.held (.withPreexisting ⟨hparents, rfl⟩ _) nofun (NodeCore.meets_withPreexisting _)

/-- a plan of a filter has a place for everything that was asked for -/
theorem of_plan {env : Environment} (h : Filter.plan env t = .ok plan) : plan.task = t ∧
    (∀ c ∈ t.concept :: t.companions, c ∈ plan.outputs ++ plan.others) ∧
    ∃ f, t.concept.lineage = some (.filter f) ∧ f.condition = plan.condition := by
  rw [Filter.plan] at h
  split at h
  · rename_i f hf
    rw [List.partition_eq_filter_filter] at h
    obtain ⟨content, -, h⟩ := Resolve.bind_eq_ok h
    obtain ⟨own, -, h⟩ := Resolve.bind_eq_ok h
    obtain ⟨peerRows, -, h⟩ := Resolve.bind_eq_ok h
    cases h
    refine ⟨rfl, fun c hc => ?_, f, hf, rfl⟩
    rw [List.cons_append, List.mem_cons, List.mem_append]
    refine (List.mem_cons.1 hc).imp_right fun hc => ?_
    by_cases hpeer : isPeer f.condition c = true
    · exact Or.inl (List.mem_filter.2 ⟨hc, hpeer⟩)
    · exact Or.inr (List.mem_filter.2 ⟨hc, by simpa using hpeer⟩)
  · cases h

/-- the node of its rows applies a filter in the place of the condition of the query: every companion is on the row, and
all that was asked for is there -/
structure Folds (q : Planner) (t : Task) (id : PlanId) : Prop where
  plan : ∃ plan, Filter.plan q.arena.environment t = .ok plan ∧ plan.othersFit = true ∧ plan.isApplied = false
  applies : ∃ f, t.concept.lineage = some (.filter f) ∧ q.arena.Applies id f.condition.display
  reaches : ∀ c ∈ t.concept :: t.companions, q.arena.Reaches id c.address

/-- **a filter is sourced under the condition of the query**, unless the node of its rows applies it alone -/
theorem source_finds (hs : Searches search) : Runs k p (source search t) fun q found =>
    ∀ id, found = some id → Owned k q id ∧ (Folds q t id ∨ q.arena.Meets id t.condition) := by
  have hend : ∀ q found, FindsUnder k t.condition q found → ∀ id, found = some id →
      Owned k q id ∧ (Folds q t id ∨ q.arena.Meets id t.condition) := fun q found h id hid =>
    ⟨(h id hid).owned, Or.inr (h id hid).meets⟩
  refine .environment (.bind (.lift (Q := fun q plan => q = p ∧ Filter.plan p.arena.environment t = .ok plan)
    fun plan h => ⟨rfl, h⟩) ?_)
  rintro plan _ - ⟨rfl, hplan⟩
  obtain ⟨htask, hasked, f, hf, hcondition⟩ := of_plan hplan
  split
  · rename_i hpush
    simp only [Bool.and_eq_true, Bool.or_eq_true] at hpush
    refine (push_finds hs).mono fun q found hl h id hid => ⟨(h id hid).1.owned, ?_⟩
    have hmeets := (h id hid).1.meets
    rw [Plan.pushed, htask] at hmeets
    split at hmeets
    · exact Or.inr hmeets
    · rename_i hnot
      refine Or.inl ⟨⟨plan, hl.environment ▸ hplan, hpush.2.resolve_left hnot, Bool.eq_false_iff.2 hnot⟩, ⟨f, hf, ?_⟩,
        fun c hc => (h id hid).2 c (hasked c hc)⟩
      exact hcondition ▸ hmeets _ rfl
  · refine .mono (.bind (separate_finds hs) fun found q _ hf => ?_) fun q found _ h => hend q found h
    rw [htask] at hf
    cases found with
    | none => exact .pure .none
    | some id =>
      dsimp only
      split
      · exact .pure (.some (hf id rfl))
      · exact htask ▸ .foundUnder (joinBack_held hs (htask.symm ▸ hf id rfl))

end Filter

/-! ## Inner selects -/

/-- the rows of a node, or of the one that it stands on, satisfy the condition of an inner select -/
def Arena.Selects (a : Arena) (id : PlanId) (condition : Option Condition) : Prop :=
  ∃ m, (m = id ∨ a.parents id = [m]) ∧ a.Meets m condition

/-- a node that may be changed, for an inner select -/
structure Chosen (k : Nat) (condition : Option Condition) (q : Planner) (id : PlanId) : Prop where
  owned : Owned k q id
  selects : q.arena.Selects id condition

namespace Chosen

theorem weaken {m : Nat} (h : Chosen m condition q id) (hk : k ≤ m) : Chosen k condition q id :=
  ⟨h.owned.weaken hk, h.selects⟩

theorem later (h : Chosen k condition p id) (hp : p.Fine) (hl : Later p.arena.size p q) : Chosen k condition q id := by
  obtain ⟨m, hm, hmeets⟩ := h.selects
  have hnode := hl.old id (Arena.contains_iff.1 h.owned.contains)
  have hcontains : p.arena.contains m = true := by
    rcases hm with rfl | hm
    · exact h.owned.contains
    · exact Arena.contains_of_dependsOn hp.consistent.wellFormed (.of_parent (by rw [hm]; exact List.mem_cons_self))
  refine ⟨h.owned.later hl, m, hm.imp_right fun hm => ?_, hl.meets hcontains hmeets⟩
  rw [Arena.parents, Arena.core, hnode]
  exact hm

/-- a node edited in its outputs or its grain alone -/
theorem edit {g : Arena → Arena} (h : Chosen k condition p id) (hg : Runs.Edits id g) (hu : Arena.Unfiltered g) :
    Runs k p (Planning.edit g) fun q _ => Chosen k condition q id := by
  refine (Runs.edit hg h.owned).mono ?_
  rintro _ _ hl rfl
  obtain ⟨m, hm, hmeets⟩ := h.selects
  exact ⟨h.owned.later hl, m, hm.imp_right ((hg.touches p.arena).2.2.trans ·), hmeets.edit hu⟩

end Chosen

/-- **a select is sourced under its condition into a node for each of its outputs** -/
theorem sourceSelect_sourced (hs : Searches search) (outputs : List Concept) (depth : Nat)
    (condition : Option Condition) : Runs k p (sourceSelect search outputs depth condition) fun q found =>
      ∀ id, found = some id → Chosen k condition q id ∧ ∀ c ∈ outputs, q.arena.Sourced id c.address := by
  rw [sourceSelect]
  split
  · exact .pure fun id h => by cases h
  refine .bind (hs k p _) fun found q _ hf => ?_
  cases found with
  | none => exact .pure fun id h => by cases h
  | some root =>
    obtain ⟨ho, hcov, hmeets⟩ := hf root rfl
    refine .environment (.core (.bind (.resolve root) ?_))
    rintro relation q' hl ⟨-, b, hb, rfl⟩
    refine .bind (.lift (Q := fun q'' _ => q'' = q.withArena b) fun _ _ => rfl) ?_
    rintro verdict _ - rfl
    have hcore : b.core root = q.arena.core root := hb.core root
    have hrest : ∀ c ∈ outputs, (q.withArena b).arena.Covers root c.address := fun c hc => (hcov c hc).sameNodes hb
    have hmeets : (q.withArena b).arena.Meets root condition := hmeets.of_node (hb.node root)
    split
    · refine .pure fun id he => ?_
      cases he
      exact ⟨⟨ho.later hl, root, Or.inl rfl, hmeets⟩, fun c hc => .covered (hrest c hc)⟩
    · have hstanding := forall_owned_one (ho.later hl)
      refine .assume fun hp hk => .bind (.insert (Standing.insertable ⟨hstanding, rfl⟩ nofun)) fun id s _ hid => ?_
      refine .bind (.resolve id) ?_
      rintro - s' hl' ⟨-, c, hc, rfl⟩
      refine .pure fun id' he => ?_
      cases he
      have hselects : Chosen k condition (s.withArena c) id := by
        refine ⟨hid.owned.later hl', root, Or.inr ?_, Arena.Meets.of_node ?_ (hc.node root)⟩
        · exact (congrArg NodeCore.parents (hc.core id)).trans hid.parents
        · exact hid.later.meets (ho.later hl).contains hmeets
      refine ⟨hselects, fun x hx => Arena.Sourced.sameNodes ?_ hc⟩
      have hold : s.arena.core root = b.core root :=
        congrArg PlanNode.core (hid.later.old root (Arena.contains_iff.1 (ho.later hl).contains))
      refine .grouped (by rw [hid.kind]; rfl) hid.parents ?_
        (hid.later.covers hp (ho.later hl).contains (hrest x hx))
      rw [hold, hcore, NodeCore.visible_eq_outputs hid.hidden, hid.outputs]
      rfl

theorem sourceSelect_chosen (hs : Searches search) (outputs : List Concept) (depth : Nat)
    (condition : Option Condition) : Runs k p (sourceSelect search outputs depth condition) fun q found =>
      ∀ id, found = some id → Chosen k condition q id :=
  (sourceSelect_sourced hs outputs depth condition).mono fun _ _ _ h id hid => (h id hid).1

theorem sourceQuery_sourced (hs : Searches search) (outputs : List Concept) (condition : Option Condition) :
    Runs k p (sourceQuery search outputs condition) fun q id =>
      Owned k q id ∧ ∀ c ∈ outputs, q.arena.Sourced id c.address := by
  refine .bind (sourceSelect_sourced hs _ _ _) fun found q _ hf => ?_
  cases found with
  | none => exact .throw
  | some id => exact .pure ⟨(hf id rfl).1.owned, (hf id rfl).2⟩

namespace Rowset

/-- what the select only needed for itself is hidden, and the grain is that of the rest -/
theorem hideStray_chosen (ho : Chosen k condition p id) (shown requested : List String) : Runs k p (do
      let stray := (← Planning.core id).outputs.filter fun o => !shown.contains o && !requested.contains o
      Planning.edit fun a => a.hideOutputs id stray
      let visible ← Planning.conceptsFor (← Planning.core id).visible
      Planning.edit fun a => a.setGrain id (some (Grain.ofConcepts visible))) fun q _ => Chosen k condition q id := by
  refine .core (.bind (ho.edit (.hideOutputs _) (.change fun _ => rfl)) fun _ q _ ho => .core ?_)
  refine .bind (.conceptsFor _) ?_
  rintro visible _ - ⟨rfl, -⟩
  exact ho.edit (.setGrain _) (.change fun _ => rfl)

theorem expose_chosen {env : Environment} {r : RowsetLineage} (ho : Chosen k condition p id) :
    Runs k p (expose env r t id) fun q _ => Chosen k condition q id := by
  have hedits : ∀ cs ds, Runs.Edits id fun a => (a.addOutputs id cs).addOutputs id ds := fun cs ds =>
    .comp (.addOutputs cs) (.addOutputs ds)
  have hunfiltered : ∀ cs ds, Arena.Unfiltered fun a => (a.addOutputs id cs).addOutputs id ds := fun cs ds =>
    .comp (g := fun a => a.addOutputs id cs) (h := fun a => a.addOutputs id ds) (.change fun _ => rfl)
      (.change fun _ => rfl)
  refine .bind (ho.edit (hedits _ _) (hunfiltered _ _)) fun _ q _ ho => ?_
  dsimp only
  split
  · refine .bind (ho.edit (.addPartials _) (.change fun _ => rfl)) fun _ q _ ho => ?_
    exact hideStray_chosen ho _ _
  · exact hideStray_chosen ho _ _

/-- the condition of the query is applied, or the node is that of the inner select, under its own condition -/
def Follows (q : Planner) (t : Task) (id : PlanId) : Prop :=
  q.arena.Meets id t.condition ∨ ∃ r, t.concept.lineage = some (.rowset r) ∧ q.arena.Selects id r.select.condition

/-- **a rowset is planned on its own**, and what it is enriched with under the condition of the query -/
theorem source_follows (hs : Searches search) : Runs k p (source search t) fun q found =>
    ∀ id, found = some id → Owned k q id ∧ Follows q t id := by
  refine .environment ?_
  split
  · rename_i r hr
    refine .bind (.pure (Q := fun q' r' => q' = p ∧ r' = r) ⟨rfl, rfl⟩) ?_
    rintro s _ - ⟨rfl, rfl⟩
    refine .bind (.conceptsFor _) fun outputs q _ _ => .bind (.conceptsFor _) fun hidden q _ _ => ?_
    refine .bind (sourceSelect_chosen hs _ _ _) fun found q _ hf => ?_
    cases found with
    | none => exact .pure fun id h => by cases h
    | some id =>
      have hown : ∀ q, Chosen k s.select.condition q id → ∀ id', some id = some id' → Owned k q id' ∧ Follows q t id' := by
        intro q h id' e
        cases e
        exact ⟨h.owned, Or.inr ⟨s, hr, h.selects⟩⟩
      refine .bind (expose_chosen (hf id rfl)) fun _ q _ ho => .core ?_
      split
      · exact .pure (hown _ ho)
      refine .bind (.conceptsFor _) ?_
      rintro inner q' - ⟨hq, -⟩
      refine .bind (.conceptsFor _) ?_
      rintro joinKeys q'' - ⟨hq', -⟩
      obtain rfl : q'' = _ := hq'.trans hq
      split
      · exact .pure (hown _ ho)
      refine .bind (ho.edit (.showOutputs _) (.change fun _ => rfl)) fun _ q _ ho => .assume fun hfine _ => ?_
      rw [map_eq_pure_bind]
      refine .bind (Enrich.node_enriched hs ho.owned _ _ _) fun id' q' _ h => .pure fun id'' e => ?_
      cases e
      rcases h.base_or_meets with ⟨rfl, hl⟩ | hmeets
      · exact hown _ (ho.later hfine hl) _ rfl
      · exact ⟨h.owned, Or.inl hmeets⟩
  · exact .bind (.throw (Q := fun _ _ => False)) fun _ _ _ h => h.elim

end Rowset

namespace Union

theorem sourceLayers_finds (hs : Searches search) (shown : List String) (ls : List (List Concept)) :
    Runs k p (sourceLayers search t shown ls) (FindsAll k) := by
  induction ls generalizing p with
  | nil => exact .pure .nil
  | cons layer rest ih =>
    refine .bind (hs.finds _) fun found q _ hf => ?_
    cases found with
    | none => exact .pure .none
    | some id =>
      refine .core (.bind (.edit_owned (.comp (.hideOutputs _) (.addOutputs _)) (hf id rfl)) fun _ q _ ho => ?_)
      exact .bind ih fun rest' q' hl hrest => .pure (hrest.cons (ho.later hl))

theorem source_finds (hs : Searches search) : Runs k p (source search t) (FindsUnder k t.condition) := by
  refine .environment (.bind .computes fun ls q _ _ => ?_)
  refine .bind (sourceLayers_finds hs _ _) fun found q _ hf => ?_
  cases found with
  | none => exact .pure .none
  | some parents =>
    exact .foundUnder (Standing.held (.withPreexisting ⟨hf parents rfl, rfl⟩ _) nofun
      (NodeCore.meets_withPreexisting _))

end Union

namespace Multiselect

/-- the branches of inner selects, each in the place of its select -/
def Branches (k : Nat) (q : Planner) (l : List InnerSelect) (bs : List Branch) : Prop :=
  List.Forall₂ (fun s b => Chosen k (conditionOf s) q b.node) l bs

theorem Branches.later {l : List InnerSelect} {bs : List Branch} (h : Branches k p l bs) (hp : p.Fine)
    (hl : Later p.arena.size p q) : Branches k q l bs := h.imp fun _ _ hc => hc.later hp hl

theorem Branches.owned {l : List InnerSelect} {bs : List Branch} (h : Branches k q l bs) :
    ∀ b ∈ bs, Owned k q b.node := by
  intro b hb
  obtain ⟨s, -, hc⟩ := exists_of_forall₂ h.flip hb
  exact hc.owned

theorem branches_chosen (hs : Searches search) (m : MultiselectLineage) (depth : Nat) (l : List InnerSelect) :
    Runs k p (branches search m depth l) fun q found => ∀ bs, found = some bs → Branches k q l bs := by
  induction l generalizing k p with
  | nil => exact .pure fun bs h => by cases h; exact .nil
  | cons s rest ih =>
    refine .bind (.conceptsFor _) fun outputs q _ _ => ?_
    refine .bind (sourceSelect_chosen hs _ _ _) fun found q _ hf => ?_
    cases found with
    | none => exact .pure fun bs h => by cases h
    | some id =>
      refine .core (.bind ((hf id rfl).edit (.addOutputs _) (.change fun _ => rfl)) fun _ q _ ho => ?_)
      refine .assume fun hfine _ => ?_
      refine .bind (.belowAll (Q := fun j q found => ∀ bs, found = some bs → Branches j q rest bs) (fun j => ih)
        fun _ _ _ hk h bs hbs => (h bs hbs).imp fun _ _ hc => hc.weaken hk) ?_
      rintro found q' - ⟨hrest, hl⟩
      refine .pure fun bs h => ?_
      obtain ⟨bs', rfl, rfl⟩ := Option.map_eq_some_iff.1 h
      exact .cons (ho.later hfine hl) (hrest bs' rfl)

/-- the condition of the query is applied, or every inner select is on a parent of its own, under its own condition -/
def Follows (q : Planner) (t : Task) (id : PlanId) : Prop :=
  q.arena.Meets id t.condition ∨ ∃ m, t.concept.lineage = some (.multiselect m) ∧
    List.Forall₂ (fun s b => q.arena.Selects b (conditionOf s)) m.selects (q.arena.parents id)

/-- **the selects of a multiselect are planned on their own**, and what it is enriched with under the condition of the
query -/
theorem source_follows (hs : Searches search) : Runs k p (source search t) fun q found =>
    ∀ id, found = some id → Owned k q id ∧ Follows q t id := by
  refine .environment ?_
  split
  · rename_i m hm
    refine .bind (.pure (Q := fun q' m' => q' = p ∧ m' = m) ⟨rfl, rfl⟩) ?_
    rintro m _ - ⟨rfl, rfl⟩
    refine .bind (branches_chosen hs m _ _) fun found q _ hf => ?_
    cases found with
    | none => exact .pure fun id h => by cases h
    | some bs =>
      dsimp only
      have hcores : Runs k q (bs.mapM fun b => Planning.core b.node) fun q' _ => q' = q := by
        show Runs k q (bs.mapM (Planning.core ∘ Branch.node)) fun q' _ => q' = q
        rw [← List.mapM_map]
        exact (Runs.cores _).mono fun _ _ _ h => h.1
      refine .bind hcores ?_
      rintro cores _ - rfl
      refine .bind (.conceptsFor _) ?_
      rintro cs _ - ⟨rfl, -⟩
      have hbranches := hf bs rfl
      have hown : ∀ q id, Owned k q id → q.arena.parents id = bs.map Branch.node → Branches k q m.selects bs →
          ∀ id', some id = some id' → Owned k q id' ∧ Follows q t id' := by
        intro q id ho hparents hbranches id' e
        cases e
        refine ⟨ho, Or.inr ⟨m, hm, ?_⟩⟩
        rw [hparents, List.forall₂_map_right_iff]
        exact hbranches.imp fun _ _ h => h.selects
      have hstanding : ∀ x ∈ bs.map Branch.node, Owned k _ x := List.forall_mem_map.2 hbranches.owned
      refine .assume fun hfine _ => .bind (.insert (Standing.insertable ⟨hstanding, rfl⟩ nofun)) fun id q' _ hid => ?_
      have hbranches' := hbranches.later hfine hid.later
      split
      · exact .pure (hown _ _ hid.owned hid.parents hbranches')
      split
      · exact .pure (hown _ _ hid.owned hid.parents hbranches')
      refine .bind (.conceptsFor _) ?_
      rintro joinKeys _ - ⟨rfl, -⟩
      rw [map_eq_pure_bind]
      refine .assume fun hfine' _ => .bind (Enrich.node_enriched hs hid.owned _ _ _) fun id' q'' _ h => .pure ?_
      rcases h.base_or_meets with ⟨rfl, hl⟩ | hmeets
      · refine hown _ _ h.owned ?_ (hbranches'.later hfine' hl)
        rw [Arena.parents, Arena.core, hl.old _ (Arena.contains_iff.1 hid.owned.contains)]
        exact hid.parents
      · intro _ e
        cases e
        exact ⟨h.owned, Or.inl hmeets⟩
  · exact .bind (.throw (Q := fun _ _ => False)) fun _ _ _ h => h.elim

end Multiselect

end SemanticPlanner
