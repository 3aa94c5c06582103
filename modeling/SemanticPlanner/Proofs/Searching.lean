/-
A search that finds a node covers everything it was asked for, and applies its condition.

  Attempted        what holds between two picks of a search
  finish_covering  a complete stack is made one node, which covers what the stack did and applies the condition
  search_searches  a search, however deep it nests and whatever it remembers, finds a node that is the caller's own,
                   covers the concepts of its request and applies its condition

The stack of a search is checked anew after every pick, so that only its ownership has to be carried from one pick to
the next. What follows a complete check (merging, conditions, membership tests) changes no node below those of the stack
and takes no visible output away.
-/
import SemanticPlanner.Proofs.Dispatch
import SemanticPlanner.Search.Loop

namespace SemanticPlanner

open Planner

variable {k : Nat} {p q : Planner} {search : Search} {r : Request} {g : Goal} {id : PlanId}

/-! ## Goals -/

/-- a goal asks for what its request asks for under the same condition, and is complete with what it asks for -/
structure Goal.Aims (g : Goal) (r : Request) : Prop where
  condition : g.condition = r.condition
  asked : ∀ x ∈ Concept.addresses r.concepts, x ∈ Concept.addresses g.mandatory
  completed : ∀ x ∈ Concept.addresses g.mandatory, x ∈ Concept.addresses g.completion

theorem Goal.aims_of {env : Environment} (h : Goal.of env r = .ok g) : g.Aims r := by
  have hunique : ∀ x ∈ Concept.addresses r.concepts, x ∈ Concept.addresses (Concept.unique r.concepts) :=
    fun x hx => Concept.mem_addresses_unique.2 hx
  rw [Goal.of] at h
  split at h
  · rename_i hnone
    cases h
    exact ⟨hnone.symm, hunique, fun x hx => hx⟩
  · rename_i c hsome
    obtain ⟨read, -, h⟩ := Resolve.bind_eq_ok h
    cases h
    have hcompletion : ∀ x ∈ Concept.addresses (Concept.unique r.concepts),
        x ∈ Concept.addresses (Concept.unique (Concept.unique r.concepts ++ read)) := by
      intro x hx
      rw [Concept.mem_addresses_unique, Concept.addresses, List.map_append]
      exact List.mem_append_left _ hx
    refine ⟨hsome.symm, fun x hx => ?_, fun x hx => ?_⟩
    · dsimp only
      split
      · exact hcompletion x (hunique x hx)
      · exact hunique x hx
    · dsimp only at hx
      split at hx
      · exact hx
      · exact hcompletion x hx

/-! ## Attempts -/

/-- what holds between two picks of a search -/
structure Attempted (k : Nat) (g : Goal) (q : Planner) (s : Progress) : Prop where
  owned : ∀ id ∈ s.stack, Owned k q id
  covers : s.isComplete = true → ∀ m ∈ g.mandatory, ∃ id ∈ s.stack, q.arena.Covers id m.address
  virtual : ∀ x, x ∉ s.coverage.virtual

/-- a stack of owned nodes checked -/
theorem Runs.checked {stack : List PlanId} (hs : ∀ id ∈ stack, Owned k p id) (mandatory completion : List Concept)
    (condition : Option Condition) (acceptPartial : Bool) :
    Runs k p (Planning.resolving (Coverage.check stack mandatory completion condition acceptPartial)) fun q c =>
      (∀ id ∈ stack, Owned k q id) ∧ Coverage.Checked q.arena stack mandatory c := by
  refine (Runs.resolving fun hp => Coverage.check_yields hp.consistent.wellFormed (fun id _ => hp.plain id) mandatory
    completion condition acceptPartial).mono ?_
  rintro q c hl ⟨hc, b, hb, rfl⟩
  refine ⟨fun id hid => (hs id hid).later hl, fun he m hm => ?_, hc.virtual⟩
  obtain ⟨id, hid, hcov⟩ := hc.covers he m hm
  exact ⟨id, hid, hcov.sameNodes hb⟩

theorem attempt_attempted (hs : Searches search) {s : Progress} (h : Attempted k g p s) (picked : Concept) :
    Runs k p (attempt search g s picked) (Attempted k g) := by
  have hcheck : ∀ q, ∀ s : Progress, (∀ id ∈ s.stack, Owned k q id) → Runs k q (do
      let coverage ← Planning.resolving
        (Coverage.check s.stack g.mandatory g.completion g.condition g.acceptPartial)
      if coverage.result = .conditionUnmet then throw (conditionMismatch g (← s.stack.mapM Planning.core))
      pure { s with attempted := s.attempted.insert picked.address, found := coverage.found, coverage })
      (Attempted k g) := by
    intro q s ho
    refine .bind (.checked ho _ _ _ _) fun c q' _ hc => ?_
    have hend : Runs k q' (pure { s with
        attempted := s.attempted.insert picked.address, found := c.found, coverage := c }) (Attempted k g) := by
      refine .pure ⟨hc.1, fun hcomplete => ?_, hc.2.virtual⟩
      exact hc.2.covers (of_decide_eq_true hcomplete)
    split
    · exact .bind (.cores _) fun cores q _ _ => .bind (.throw (Q := fun _ _ => False)) fun _ _ _ h => h.elim
    · exact hend
  refine .environment (.bind .computes fun others q hl _ => ?_)
  refine .bind (sourceConcept_finds hs _ _ _ _ _) fun generated q' hl' hf => ?_
  have ho : ∀ id ∈ s.stack, Owned k q' id := fun id hid => ((h.owned id hid).later hl).later hl'
  cases generated with
  | none => exact .bind (.pure (Q := fun q v => ∀ id ∈ v.stack, Owned k q id) ho) fun s q _ ho => hcheck q s ho
  | some id =>
    refine .bind (.resolve id) fun _ q'' hl'' _ => ?_
    refine .bind (.pure (Q := fun q v => ∀ id ∈ v.stack, Owned k q id) fun x hx => ?_) fun s q _ ho => hcheck q s ho
    rcases List.mem_append.1 hx with hx | hx
    · exact (ho x hx).later hl''
    · rw [List.mem_singleton.1 hx]
      exact (hf id rfl).later hl''

/-- **picks keep the stack owned and its last check true** -/
theorem attempts_attempted (hs : Searches search) {s : Progress} (h : Attempted k g p s) (fuel : Nat) :
    Runs k p (attempts search g fuel s) (Attempted k g) := by
  induction fuel generalizing p s with
  | zero => exact .pure h
  | succ fuel ih =>
    rw [attempts]
    split
    · exact .pure h
    refine .environment ?_
    split
    · exact .pure h
    · refine .bind (attempt_attempted hs h _) fun s q _ hs' => ?_
      split
      · exact .pure hs'
      · exact ih hs'

/-! ## Making the stack one node -/

/-- a node of the caller's own that covers the concepts and applies the condition -/
structure Covering (k : Nat) (cs : List Concept) (condition : Option Condition) (q : Planner) (id : PlanId) : Prop where
  owned : Owned k q id
  covers : ∀ c ∈ cs, q.arena.Covers id c.address
  meets : q.arena.Meets id condition

namespace Covering

variable {cs : List Concept} {condition condition' : Option Condition}

theorem sameNodes (h : Covering k cs condition p id) (hl : Later k p q) {b : Arena} (hb : p.arena.SameNodes b)
    (hq : q = p.withArena b) : Covering k cs condition q id := by
  subst hq
  exact ⟨h.owned.later hl, fun c hc => (h.covers c hc).sameNodes hb, h.meets.of_node (hb.node id)⟩

/-- a node covers what it did after steps that change no node that was there -/
theorem later (h : Covering k cs condition p id) (hp : p.Fine) (hl : Later p.arena.size p q) :
    Covering k cs condition q id :=
  ⟨h.owned.later hl, fun c hc => hl.covers hp h.owned.contains (h.covers c hc), hl.meets h.owned.contains h.meets⟩

/-- a node changed in place covers what it did if it shows the same and has its parents still -/
theorem changed (h : Covering k cs condition p id) (hp : p.Fine) {f : NodeCore → NodeCore}
    (ho : ∀ c, (f c).outputs = c.outputs) (hh : ∀ c, (f c).hidden = c.hidden)
    (hps : ∀ c, c.parents <+: (f c).parents) (hm : ∀ c ∈ condition', (f (p.arena.core id)).Applies c.display)
    (hl : Later k p (p.withArena (p.arena.change id f))) :
    Covering k cs condition' (p.withArena (p.arena.change id f)) id := by
  have hcore : (p.arena.change id f).core id = f (p.arena.core id) :=
    Arena.core_change_self f h.owned.contains
  refine ⟨h.owned.later hl, fun c hc => (h.covers c hc).change rfl ?_ ?_ ?_ ?_ fun y hy => ?_, fun c hc => ?_⟩
  · show ((p.arena.change id f).slot id).node.kind = _
    rw [Arena.slot_change]
    split <;> rfl
  · exact (congrArg NodeCore.outputs hcore).trans (ho _)
  · exact (congrArg NodeCore.hidden hcore).trans (hh _)
  · have := hps (p.arena.core id)
    rwa [← hcore] at this
  · refine Arena.node_change_of_ne f ?_
    rintro rfl
    exact hp.consistent.wellFormed.acyclic _ hy
  · show ((p.arena.change id f).core id).Applies _
    rw [hcore]
    exact hm c hc

end Covering

/-- an owned node edited without a change to what it shows or stands on -/
theorem Runs.edit_covering {cs : List Concept} {condition : Option Condition} (condition' : Option Condition)
    {f : NodeCore → NodeCore} (h : Covering k cs condition p id) (hf : Keeps f) (ho : ∀ c, (f c).outputs = c.outputs)
    (hh : ∀ c, (f c).hidden = c.hidden) (hm : ∀ c ∈ condition', (f (p.arena.core id)).Applies c.display) :
    Runs k p (Planning.edit fun a => a.change id f) fun q _ => Covering k cs condition' q id := by
  refine .assume fun hp _ => (Runs.edit (.change hf) h.owned).mono ?_
  rintro q - hl rfl
  exact h.changed hp ho hh (fun c => hf.parents c ▸ List.prefix_rfl) hm hl

theorem prefix_addAllNew {α : Type} [DecidableEq α] (out l : List α) : out <+: addAllNew out l := by
  induction l generalizing out with
  | nil => exact List.prefix_rfl
  | cons y l ih =>
    refine List.IsPrefix.trans ?_ (ih (addNew out y))
    rw [addNew]
    split
    · exact List.prefix_rfl
    · exact List.prefix_append _ _

/-- what a membership test reads may be joined to a node without taking anything from it -/
theorem addExistence_covering (hs : Searches search) {cs : List Concept} {condition : Option Condition}
    (h : Covering k cs condition p id) (address : String) :
    Runs k p (addExistence search id address) fun q _ => Covering k cs condition q id := by
  refine .assume fun hp _ => .core ?_
  split
  · exact .pure h
  refine .bind (.conceptsFor _) ?_
  rintro read _ - ⟨rfl, -⟩
  refine .bind (.below (sourceQuery_sourced hs _ _)) ?_
  rintro parent q - ⟨⟨ho, -⟩, hl⟩
  have hq := h.later hp hl
  refine .assume fun hfine _ => .bind (.addParents hq.owned fun x hx => ?_) ?_
  · rw [List.mem_singleton.1 hx]
    exact ho.contains
  · rintro - q' hl' ⟨-, rfl⟩
    have hc := hq.changed (f := fun c => { c with parents := addAllNew c.parents [parent] }) hfine
      (fun _ => rfl) (fun _ => rfl) (fun c => prefix_addAllNew c.parents [parent]) hq.meets hl'
    exact .edit_covering condition hc ⟨fun _ => rfl, fun _ => rfl, fun _ => rfl⟩ (fun _ => rfl) (fun _ => rfl) hc.meets

/-- the stack as one node covers what the stack did -/
theorem mergeStack_covering {s : Progress} (h : Attempted k g p s) (hc : s.isComplete = true) {outputs : List String}
    (ho : ∀ m ∈ g.mandatory, m.address ∈ outputs) :
    Runs k p (mergeStack g s outputs) fun q id => Covering k g.mandatory none q id := by
  have hmerge : Runs k p (Planning.insert (.merge none)
      (((NodeCore.of outputs outputs).withParents s.stack).withDepth g.depth))
      fun q id => Covering k g.mandatory none q id := by
    have hstanding : Standing k p (((NodeCore.of outputs outputs).withParents s.stack).withDepth g.depth) :=
      ⟨h.owned, rfl⟩
    exact (Runs.insert (hstanding.insertable (by nofun))).mono fun q id _ hid =>
      ⟨hid.owned, fun m hm => hid.covers rfl (mem_distinct.2 (ho m hm)), .none⟩
  unfold mergeStack
  split
  · rename_i one hstack
    refine .pure ⟨h.owned one (by rw [hstack]; exact List.mem_cons_self), fun m hm => ?_, .none⟩
    obtain ⟨id, hid, hcov⟩ := h.covers hc m hm
    rw [hstack] at hid
    rwa [List.mem_singleton.1 hid] at hcov
  · exact hmerge

/-- a condition added to a node is applied by it -/
theorem applies_addCondition (core : NodeCore) (c : Condition) :
    let whole := if c.holdsInOption core.condition then core.condition else some (Condition.conjoin core.condition c)
    { core with condition := whole, preexisting := whole : NodeCore }.Applies c.display := by
  dsimp only
  split
  · rename_i hholds
    obtain ⟨known, hknown, hpart⟩ := (Option.any_eq_true _ _).1 hholds
    exact ⟨c, known, rfl, hknown, Condition.partOf_of_holdsIn hpart⟩
  · refine ⟨c, _, rfl, rfl, ?_⟩
    cases core.condition with
    | none => exact .self
    | some own => exact .right .self

/-- **a complete stack is made a node that covers all that was mandatory and applies the condition** -/
theorem finish_covering (hs : Searches search) {s : Progress} (h : Attempted k g p s) (hc : s.isComplete = true)
    (hg : g.Aims r) : Runs k p (finish search g s) fun q id => Covering k g.mandatory g.condition q id := by
  refine .bind (.cores _) ?_
  rintro cores _ - ⟨rfl, -⟩
  dsimp only
  refine .bind (mergeStack_covering h hc fun m hm => ?_) fun id q _ hid => ?_
  · refine List.mem_filter.2 ⟨?_, ?_⟩
    · have hmem : m.address ∈ Concept.addresses g.mandatory := List.mem_map_of_mem hm
      split
      · exact hmem
      · exact hg.completed _ hmem
    · exact SortedSet.not_contains_iff.2 (h.virtual _)
  refine .bind (.resolve id) ?_
  rintro - q' hl ⟨-, b, hb, hq⟩
  have hid := hid.sameNodes hl hb hq
  split
  · rename_i hnone
    exact .pure (hnone ▸ hid)
  rename_i c hsome
  rw [hsome]
  split
  · refine .bind (.edit_covering (some c) hid ⟨fun _ => rfl, fun _ => rfl, fun _ => rfl⟩ (fun _ => rfl)
      (fun _ => rfl) ?_) ?_
    · intro d hd
      cases Option.mem_def.1 hd
      exact ⟨c, c, rfl, rfl, .self⟩
    · exact fun _ q _ hid => .pure hid
  · refine .bind (.edit_covering (some c) hid ⟨fun _ => rfl, fun _ => rfl, fun _ => rfl⟩ (fun _ => rfl)
      (fun _ => rfl) ?_) ?_
    · intro d hd
      cases Option.mem_def.1 hd
      exact applies_addCondition _ c
    · intro _ q _ hid
      refine .bind (.forIn (J := fun q => Covering k g.mandatory (some c) q id) (fun x _ q _ h => ?_) hid) fun _ q _ hid =>
        .pure hid
      exact addExistence_covering hs h x

/-! ## The search -/

theorem searchAnew_searches (hs : Searches search) : Searches (searchAnew search) := by
  intro k p r
  refine .environment (.bind (.lift (Q := fun _ g => g.Aims r) fun g hg => Goal.aims_of hg) fun g q _ hg => ?_)
  have hstart : Attempted k g q {} :=
    ⟨fun id h => absurd h List.not_mem_nil, fun h => absurd h (by decide), fun x => SortedSet.not_mem_empty x⟩
  -- what covers the mandatory concepts covers those of the request
  have hasked : ∀ q id, Covering k g.mandatory g.condition q id →
      Owned k q id ∧ (∀ c ∈ r.concepts, q.arena.Covers id c.address) ∧ q.arena.Meets id r.condition := by
    intro q id h
    refine ⟨h.owned, fun c hc => ?_, hg.condition ▸ h.meets⟩
    obtain ⟨m, hm, he⟩ := List.mem_map.1 (hg.asked c.address (List.mem_map_of_mem hc))
    exact he ▸ h.covers m hm
  refine .bind (attempts_attempted hs hstart _) fun s q _ hs' => ?_
  split
  · rename_i hdone
    rw [Bool.and_eq_true] at hdone
    refine .bind (finish_covering hs hs' hdone.1 hg) fun id q _ hid => .pure fun id' he => ?_
    exact Option.some.inj he ▸ hasked q id hid
  · refine .get ?_
    split
    · refine (hs k q g.retry).mono fun q' o _ ho id hid => ?_
      obtain ⟨how, hcov, hmeets⟩ := ho id hid
      exact hasked q' id ⟨how, hcov, hmeets⟩
    · exact .pure fun id h => by cases h

/-- a search of any depth, remembered or not -/
theorem searchWithin_searches (fuel : Nat) : Searches (searchWithin fuel) := by
  induction fuel with
  | zero => exact fun k p r => .get .throw
  | succ fuel ih =>
    intro k p r
    refine .get ?_
    dsimp only
    split
    · exact .bind (.throw (Q := fun _ _ => False)) fun _ _ _ h => h.elim
    refine .bind (.recallSearch _) fun outcome q _ ho => ?_
    cases outcome with
    | some found =>
      refine .pure fun id hid => ?_
      obtain ⟨how, hcov, happlies⟩ := ho id (congrArg some hid)
      exact ⟨how, fun c hc => hcov _ (Request.mem_key.2 (List.mem_map_of_mem hc)), fun c hc =>
        happlies _ (Option.map_eq_some_iff.2 ⟨c, hc, rfl⟩)⟩
    | none =>
      refine .bind (searchAnew_searches ih k q r) fun found q _ hf => .assume fun hfine _ => ?_
      refine .bind (.below (.storeSearch _ fun id hid => ?_)) fun _ q' hl hq => .pure fun id hid => ?_
      · obtain ⟨how, hcov, hmeets⟩ := hf id hid
        refine ⟨how.contains, fun x hx => ?_, fun t ht => ?_⟩
        · obtain ⟨c, hc, rfl⟩ := List.mem_map.1 (Request.mem_key.1 hx)
          exact hcov c hc
        · obtain ⟨c, hc, rfl⟩ := Option.map_eq_some_iff.1 ht
          exact hmeets c hc
      · obtain ⟨how, hcov, hmeets⟩ := hf id hid
        exact ⟨how.later hl, fun c hc => hq.2.covers hfine how.contains (hcov c hc), hq.2.meets how.contains hmeets⟩

/-- **a search finds a node that is the caller's own, covers every concept of its request and applies its condition** -/
theorem search_searches : Searches SemanticPlanner.search :=
  fun k p r => .get (searchWithin_searches _ k p r)

end SemanticPlanner
