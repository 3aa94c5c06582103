/-
Whichever way a concept is sourced, the node found is new to whoever asked for it, and leaves little of the condition.

  Leaves                 a node applies the condition, or has what it takes to apply it, or how it falls short of both
  source_serves          a match of datasources applies the condition or covers the targets
  restricted_retains     a node over a bridge still has what it covered once it is cut down
  sourceConcept_leaves   every derivation, the matches and the memory of them included

A match of datasources inserts selects that read what their datasources provide. Bridges and pseudonyms only combine
what searches hand out, and a remembered match is handed out as a copy.
-/
import SemanticPlanner.Proofs.Bridging
import SemanticPlanner.Proofs.Generators

namespace SemanticPlanner

open Planner

variable {k : Nat} {p q : Planner} {search : Search} {t : Task} {r : Request} {id : PlanId}

/-! ## Datasources -/

/-- a node of the caller's own that covers the addresses -/
structure Carries (k : Nat) (xs : List String) (q : Planner) (id : PlanId) : Prop where
  owned : Owned k q id
  covers : ∀ x ∈ xs, q.arena.Covers id x

theorem Carries.later {xs : List String} (h : Carries k xs p id) (hp : p.Fine) (hl : Later p.arena.size p q) :
    Carries k xs q id :=
  ⟨h.owned.later hl, fun x hx => hl.covers hp h.owned.contains (h.covers x hx)⟩

theorem Carries.weaken {m : Nat} {xs : List String} (h : Carries m xs q id) (hk : k ≤ m) : Carries k xs q id :=
  ⟨h.owned.weaken hk, h.covers⟩

/-- the node inserted for a core covers what the core puts out -/
theorem Runs.insert_carries {kind : NodeKind} {core : NodeCore} {xs : List String} (hc : Runs.Insertable p kind core)
    (hh : core.hidden = ∅) (hx : ∀ x ∈ xs, x ∈ core.outputs) :
    Runs k p (Planning.insert kind core) fun q id => Carries k xs q id :=
  (Runs.insert hc).mono fun _ _ _ h => ⟨h.owned, fun x hmem => h.covers hh (hx x hmem)⟩

theorem Planner.Serves.of_meets (h : q.arena.Meets id r.condition) : q.Serves r.key id := by
  refine fun _ => Or.inl fun t ht => ?_
  obtain ⟨c, hc, rfl⟩ := Option.map_eq_some_iff.1 ht
  exact h c hc

/-- a key holds the addresses of its request -/
theorem Request.mem_key {x : String} : x ∈ r.key.concepts ↔ x ∈ Concept.addresses r.concepts := SortedSet.mem_ofList

namespace Direct

variable {d : Datasource} {cs : List Concept} {depth : Nat} {condition : Option Condition} {acceptPartial : Bool}

theorem inputs_selectCore : (selectCore d cs depth condition).inputs = distinct d.outputs := by
  simp only [selectCore, NodeCore.inputs_withCondition, NodeCore.inputs_withPreexisting]
  rfl

theorem mem_outputs_selectCore {x : String} :
    x ∈ (selectCore d cs depth condition).outputs ↔ x ∈ Concept.addresses cs := by
  simp only [selectCore, NodeCore.outputs_withCondition, NodeCore.outputs_withPreexisting]
  exact mem_distinct.trans mem_sortOn

theorem hidden_selectCore : (selectCore d cs depth condition).hidden = ∅ := by
  simp only [selectCore, NodeCore.hidden_withCondition, NodeCore.hidden_withPreexisting]
  rfl

/-- a select reads columns of its datasource and stands on nothing -/
theorem insertable_selectCore :
    Runs.Insertable p (.select d acceptPartial) (selectCore d cs depth condition) := by
  have hstanding : Standing 0 p (selectCore d cs depth condition) :=
    .withCondition (.withPreexisting ⟨fun _ hx => absurd hx List.not_mem_nil, rfl⟩ _) _
  refine ⟨fun x hx => (hstanding.owned x hx).contains, hstanding.virtual, fun d' acceptPartial' e x hx => ?_⟩
  obtain ⟨rfl, -⟩ := NodeKind.select.inj e
  rw [inputs_selectCore] at hx
  exact mem_distinct.1 hx

theorem select_carries : Runs k p (Planning.insert (.select d acceptPartial) (selectCore d cs depth condition))
    fun q id => Carries k (Concept.addresses cs) q id :=
  .insert_carries insertable_selectCore hidden_selectCore fun _ hx => mem_outputs_selectCore.2 hx

theorem readSource_carries (source : GraphSource) (cs : List Concept) (acceptPartial : Bool) (depth : Nat)
    (condition : Option Condition) :
    Runs k p (readSource source cs acceptPartial depth condition) fun q v => Carries k (Concept.addresses cs) q v.1 := by
  cases source with
  | single d => exact .bind select_carries fun id q _ ho => .pure ho
  | union ds =>
    refine .bind (.mapM (Q := fun q v => Owned k q v) (fun _ _ _ _ => select_carries.mono fun _ _ _ h => h.owned)
      fun v q q' hl ho => ho.later hl) fun parents q _ hps => ?_
    have hstanding : Standing k q (((NodeCore.of (Concept.addresses cs) (Concept.addresses cs)).withParents
        parents).withDepth depth) := ⟨hps, rfl⟩
    refine .bind (.insert_carries (hstanding.insertable nofun) rfl fun x hx => mem_distinct.2 hx) fun id q _ ho => .pure ho

/-- a core that stands on nothing -/
theorem standing_of (outputs : List String) (depth : Nat) :
    Standing k p ((NodeCore.of [] outputs).withDepth depth) :=
  ⟨fun _ hx => absurd hx List.not_mem_nil, rfl⟩

/-- **the node of a source covers the concepts read from it** -/
theorem sourceNode_carries (source : GraphSource) (cs : List Concept) (acceptPartial : Bool) (depth : Nat)
    (condition : Option Condition) :
    Runs k p (sourceNode source cs acceptPartial depth condition) fun q id => Carries k (Concept.addresses cs) q id := by
  rw [sourceNode]
  split
  · refine .insert_carries (((standing_of (k := k) _ _).withPreexisting _).insertable nofun) ?_ fun x hx => ?_
    · rw [NodeCore.hidden_withPreexisting]
      rfl
    · rw [NodeCore.outputs_withPreexisting]
      exact mem_distinct.2 hx
  · refine .bind (readSource_carries source cs acceptPartial depth condition) ?_
    rintro ⟨id, grouping⟩ q - ho
    dsimp only
    split
    · exact .pure ho
    · have hstanding := forall_owned_one ho.owned
      refine .core (.insert_carries (Standing.insertable (k := k)
        (.withForceGroup (.withPreexisting ⟨hstanding, rfl⟩ _) _) nofun) ?_ fun x hx => ?_)
      · exact NodeCore.hidden_withPreexisting _ _
      · refine (NodeCore.outputs_withPreexisting _ _).symm ▸ ?_
        exact mem_distinct.2 hx

theorem constantsOnly_finds (cs : List Concept) (depth : Nat) (condition : Option Condition) :
    Runs k p (constantsOnly cs depth condition) (FindsUnder k condition) := by
  have hrest : ∀ q, ∀ read : List Concept, Runs k q (if !read.all isConstant then pure none else
      some <$> Planning.insert .constant
        (((NodeCore.of [] (Concept.addresses (cs ++ read))).withDepth depth).withCondition condition))
      (FindsUnder k condition) := by
    intro q read
    split
    · exact .pure .none
    · refine .foundUnder (((standing_of _ _).withCondition _).held nofun ?_)
      rintro c rfl
      exact NodeCore.applies_withCondition rfl c
  cases condition with
  | none => exact .bind (.pure (Q := fun _ _ => True) trivial) fun read q _ _ => hrest q read
  | some c => exact .bind (.conceptsFor _) fun read q _ _ => hrest q read

/-- what is found for a chosen datasource is owned and covers the concepts it contributes; the datasource is missing if
there is none -/
def FoundFor (k : Nat) (g : ReferenceGraph) (e : GraphNode × List GraphNode) (q : Planner) (found : Option PlanId) : Prop :=
  (∀ id, found = some id →
    Owned k q id ∧ (q.arena.environment.Keyed → ∀ x ∈ e.2.filterMap GraphNode.address?, q.arena.Covers id x)) ∧
  ((g.sources.get? e.1).isSome = true → found ≠ none)

theorem chosenNode_finds (g : ReferenceGraph) (e : GraphNode × List GraphNode) :
    Runs k p (chosenNode g r e) (FoundFor k g e) := by
  rw [chosenNode]
  split
  · rename_i hnone
    refine .pure ⟨nofun, fun h => ?_⟩
    rw [hnone] at h
    cases h
  · refine .bind (.concepts _) ?_
    rintro cs _ - ⟨rfl, hcs⟩
    rw [map_eq_pure_bind]
    refine .bind (sourceNode_carries _ cs _ _ _) fun id q hl ho => .pure ⟨fun id' e => ?_, fun _ => nofun⟩
    cases e
    refine ⟨ho.owned, fun hkeyed x hx => ho.covers x ?_⟩
    rw [hl.environment] at hkeyed
    rw [hkeyed.addresses_mapM hcs]
    exact hx

/-- **several parents of a match are merged into a node for all that was asked for** -/
theorem mergeParents_carries (plain : List Concept) {parents : List PlanId} (hp : ∀ x ∈ parents, Owned k p x) :
    Runs k p (mergeParents r plain parents) fun q id => Carries k (Concept.addresses r.concepts) q id := by
  refine .bind (.cores _) fun cores q hl _ => ?_
  refine .insert_carries (Standing.insertable (k := k)
    (.withPreexisting ⟨fun x hx => (hp x hx).later hl, rfl⟩ _) nofun) ?_ fun x hx => ?_
  · exact NodeCore.hidden_withPreexisting _ _
  · rw [NodeCore.outputs_withPreexisting]
    exact mem_distinct.2 hx

/-- what several parents are made into -/
theorem combined_serves (plain : List Concept) {parents : List PlanId} (hp : ∀ x ∈ parents, Owned k p x)
    (hone : ∀ one, parents = [one] →
      p.arena.environment.Keyed → ∀ x ∈ Concept.addresses r.concepts, p.arena.Covers one x) :
    Runs k p (match parents with
      | [one] => pure (some one)
      | _ => some <$> mergeParents r plain parents) fun q found =>
        ∀ id, found = some id → Owned k q id ∧ q.Serves r.key id := by
  split
  · rename_i one
    refine .pure fun id e => ?_
    cases e
    exact ⟨hp _ List.mem_cons_self, fun hkeyed => Or.inr fun x hx => hone one rfl hkeyed x (Request.mem_key.1 hx)⟩
  · rw [map_eq_pure_bind]
    refine .bind (mergeParents_carries plain hp) fun id q _ ho => .pure fun id' e => ?_
    cases e
    exact ⟨ho.owned, fun _ => Or.inr fun x hx => ho.covers x (Request.mem_key.1 hx)⟩

theorem exists_matching {env : Environment} {graph g : ReferenceGraph} {targets : List Concept}
    (h : firstMatch env graph targets acceptPartial condition = some g) :
    ∃ b, Match.matching env graph targets b condition = some g := by
  rw [firstMatch] at h
  rcases Option.or_eq_some_iff.1 h with h | ⟨-, h⟩
  · exact ⟨false, h⟩
  · split at h
    · exact ⟨true, h⟩
    · cases h

/-- what is found for the chosen datasources is still so when all of them have been looked at -/
theorem chosenNodes_find (g : ReferenceGraph) (l : List (GraphNode × List GraphNode)) :
    Runs k p (l.mapM (chosenNode g r)) fun q nodes => List.Forall₂ (fun e found => FoundFor k g e q found) l nodes ∧
      Later p.arena.size p q := by
  refine .mapM_below (fun e _ q => .belowAll (Q := fun m => FoundFor m g e) (fun _ => chosenNode_finds g e)
    fun _ _ _ hk h => ⟨fun id hid => ⟨(h.1 id hid).1.weaken hk, (h.1 id hid).2⟩, h.2⟩) fun e v q q' hq hl h => ?_
  refine ⟨fun id hid => ⟨(h.1 id hid).1.later hl, fun hkeyed x hx => ?_⟩, h.2⟩
  exact hl.covers hq (h.1 id hid).1.contains ((h.1 id hid).2 (hl.environment ▸ hkeyed) x hx)

/-- a lone parent is the node of every chosen datasource, and so covers what each of them contributes -/
theorem lone_covers {g : ReferenceGraph} {l : List (GraphNode × List GraphNode)} {nodes : List (Option PlanId)}
    {e : GraphNode × List GraphNode} {x : String}
    (h : List.Forall₂ (fun e found => FoundFor k g e p found) l nodes) (hone : nodes.reduceOption = [id])
    (hk : p.arena.environment.Keyed) (he : e ∈ l) (hsource : (g.sources.get? e.1).isSome = true)
    (hx : x ∈ e.2.filterMap GraphNode.address?) : p.arena.Covers id x := by
  obtain ⟨v, hv, hfound⟩ := exists_of_forall₂ h he
  obtain ⟨id', rfl⟩ := Option.ne_none_iff_exists'.1 (hfound.2 hsource)
  have hid : id' ∈ nodes.reduceOption := List.mem_filterMap.2 ⟨_, hv, rfl⟩
  rw [hone, List.mem_singleton] at hid
  exact hid ▸ (hfound.1 id' rfl).2 hk x hx

/-- **a direct match applies the condition or covers all that was asked for** -/
theorem source_serves : Runs k p (source r) fun q found =>
    ∀ id, found = some id → Owned k q id ∧ q.Serves r.key id := by
  rw [source, List.partition_eq_filter_filter]
  dsimp only
  split
  · exact (constantsOnly_finds _ _ _).mono fun q found _ h id hid => ⟨(h id hid).owned, .of_meets (h id hid).meets⟩
  refine .assume fun hfine _ => .get ?_
  split
  · exact .pure fun id h => by cases h
  rename_i g hmatch
  obtain ⟨b, hmatch⟩ := exists_matching hmatch
  obtain ⟨hg, hlinks⟩ := Match.matching_covers hfine.graph hmatch
  refine .bind (chosenNodes_find g _) ?_
  rintro nodes q hl ⟨hnodes, -⟩
  have hparents : ∀ x ∈ nodes.filterMap id, Owned k q x := by
    intro x hx
    obtain ⟨v, hv, hx⟩ := List.mem_filterMap.1 hx
    obtain ⟨e, -, he⟩ := exists_of_forall₂ hnodes.flip hv
    exact (he.1 x hx).1
  have hone : ∀ one, nodes.filterMap id = [one] → q.arena.environment.Keyed →
      ∀ x ∈ Concept.addresses (r.concepts.filter fun c => !isConstant c), q.arena.Covers one x := by
    intro one hone hkeyed x hx
    obtain ⟨e, he, hsource, hxe⟩ := Match.chosen_covers r.condition hg hlinks hx
    exact lone_covers hnodes hone hkeyed he hsource hxe
  split
  · exact .pure fun id h => by cases h
  rename_i hsome
  split
  · rename_i hempty
    refine .bind (.pure (Q := fun s ps => s = q ∧ ps = nodes.filterMap id) ⟨rfl, rfl⟩) ?_
    rintro _ _ - ⟨rfl, rfl⟩
    refine combined_serves _ hparents fun one h hkeyed x hx => hone one h hkeyed x ?_
    have hplain : r.concepts.filter (fun c => !isConstant c) = r.concepts := by
      rw [List.isEmpty_iff, List.filter_eq_nil_iff] at hempty
      exact List.filter_eq_self.2 fun c hc => by rw [Bool.eq_false_iff.2 (hempty c hc), Bool.not_false]
    rwa [hplain]
  · refine .bind (((standing_of _ _).withPreexisting _).inserted nofun) fun c q' hl hc => ?_
    refine .bind (.pure (Q := fun s ps => s = q' ∧ ps = nodes.filterMap id ++ [c]) ⟨rfl, rfl⟩) ?_
    rintro _ _ - ⟨rfl, rfl⟩
    refine combined_serves _ (fun x hx => ?_) fun one h => ?_
    · rcases List.mem_append.1 hx with hx | hx
      · exact (hparents x hx).later hl
      · rw [List.mem_singleton.1 hx]
        exact hc
    · -- the constants come on top of at least one other parent
      rw [List.append_eq_singleton_iff] at h
      rcases h with ⟨h, -⟩ | ⟨-, h⟩
      · exact absurd (List.isEmpty_iff.2 h) hsome
      · cases h

end Direct

/-- **a match is remembered**, and what is handed out is the caller's own, applies the condition or covers all that was
asked for -/
theorem matchOnce_serves : Runs k p (matchOnce r) fun q found =>
    ∀ id, found = some id → Owned k q id ∧ q.Serves r.key id := by
  refine .bind (.recallMatch _) fun outcome q _ ho => ?_
  cases outcome with
  | some found => exact .pure fun id hid => ho id (congrArg some hid)
  | none =>
    refine .bind Direct.source_serves fun found q _ hf => .assume fun hfine _ => ?_
    refine .bind (.below (.storeMatch _ fun id hid => ⟨(hf id hid).1.contains, (hf id hid).2⟩)) ?_
    rintro _ q' hl ⟨-, hl'⟩
    exact .pure fun id hid => ⟨(hf id hid).1.later hl, hl'.serves hfine (hf id hid).1.contains (hf id hid).2⟩

/-! ## Bridges and pseudonyms -/

namespace Bridged

/-- every piece that is sourced has a node that covers it -/
theorem sourcePieces_carries (hs : Searches search) (depth : Nat) (l : List (List Concept)) :
    Runs k p (sourcePieces search depth l) fun q found => ∀ ids, found = some ids →
      List.Forall₂ (fun cs id => Carries k (Concept.addresses cs) q id) l ids := by
  induction l generalizing k p with
  | nil => exact .pure fun ids h => Option.some.inj h ▸ .nil
  | cons piece rest ih =>
    refine .bind (hs k p _) fun found q _ hf => ?_
    cases found with
    | none => exact .pure fun ids h => by cases h
    | some id =>
      have hid : Carries k (Concept.addresses piece) q id := ⟨(hf id rfl).1, List.forall_mem_map.2 (hf id rfl).2.1⟩
      refine .assume fun hfine hk => .bind (.belowAll (Q := fun m s found => ∀ ids, found = some ids →
        List.Forall₂ (fun cs id => Carries m (Concept.addresses cs) s id) rest ids) (fun _ => ih) ?_) ?_
      · exact fun s found m hk h ids e => (h ids e).imp fun _ _ h => h.weaken hk
      rintro found' q' - ⟨hrest, hl⟩
      refine .pure fun ids h => ?_
      cases found' with
      | none => cases h
      | some l' =>
        cases h
        exact .cons (hid.later hfine hl) (hrest l' rfl)

/-- a node that the pieces of a bridge are joined into: it or its parents cover the concepts, and it puts out the names
of a concept that such a node shows -/
structure Joined (k : Nat) (cs : List Concept) (q : Planner) (id : PlanId) : Prop where
  owned : Owned k q id
  parts : q.arena.environment.Keyed → ∀ c ∈ cs, ∃ m, (m = id ∨ m ∈ q.arena.parents id) ∧ q.arena.Covers m c.address ∧
    ∀ y ∈ (q.arena.core m).visible, y = c.address ∨ y ∈ c.pseudonyms → y ∈ (q.arena.core id).outputs

theorem mergePieces_joined {groups : List (List Concept)} {parents : List PlanId} {targets : List Concept}
    (hps : List.Forall₂ (fun cs id => Carries k (Concept.addresses cs) p id) groups parents)
    (hg : p.arena.environment.Keyed → ∀ c ∈ targets, ∃ cs ∈ groups, c.address ∈ Concept.addresses cs) (depth : Nat) :
    Runs k p (mergePieces targets depth parents) (Joined k targets) := by
  have howned : ∀ x ∈ parents, Owned k p x := fun x hx => by
    obtain ⟨cs, -, h⟩ := exists_of_forall₂ hps.flip hx
    exact h.owned
  unfold mergePieces
  split
  · rename_i one
    refine .pure ⟨howned one List.mem_cons_self, fun hkeyed c hc => ?_⟩
    obtain ⟨cs, hcs, hmem⟩ := hg hkeyed c hc
    obtain ⟨m, hm, hcarries⟩ := exists_of_forall₂ hps hcs
    rw [List.mem_singleton] at hm
    subst hm
    exact ⟨m, Or.inl rfl, hcarries.covers _ hmem, fun y hy _ => List.mem_of_mem_filter hy⟩
  · refine .environment (.bind (.cores _) ?_)
    rintro cores _ - ⟨rfl, rfl⟩
    refine .assume fun hfine _ => .mono (.insert (Standing.insertable ⟨howned, rfl⟩ nofun)) fun q id _ hid => ?_
    refine ⟨hid.owned, fun hkeyed c hc => ?_⟩
    obtain ⟨cs, hcs, hmem⟩ := hg (hid.later.environment ▸ hkeyed) c hc
    obtain ⟨m, hm, hcarries⟩ := exists_of_forall₂ hps hcs
    have hsame : q.arena.core m = _ :=
      congrArg PlanNode.core (hid.later.old m (Arena.contains_iff.1 hcarries.owned.contains))
    refine ⟨m, Or.inr (hid.parents ▸ hm), hid.later.covers hfine hcarries.owned.contains (hcarries.covers _ hmem), ?_⟩
    intro y hy hname
    rw [hsame] at hy
    rw [hid.outputs]
    refine mem_distinct.2 (List.mem_filter.2 ⟨mem_distinct.2 (List.mem_flatMap.2 ⟨_, List.mem_map_of_mem hm, hy⟩), ?_⟩)
    refine List.any_eq_true.2 ⟨c, hc, ?_⟩
    rw [Bool.or_eq_true, Bool.or_eq_true, beq_iff_eq]
    rcases hname with rfl | hname
    · exact Or.inl (Or.inl rfl)
    · exact Or.inl (Or.inr (SortedSet.contains_iff.2 hname))

theorem mem_wanted {env : Environment} {cs : List Concept} (h : wanted env r = .ok cs) {c : Concept}
    (hc : c ∈ r.concepts) : c.address ∈ Concept.addresses cs := by
  have hread : ∃ read, cs = Concept.unique (sortOn Concept.address (r.concepts ++ read)) := by
    rw [wanted] at h
    split at h
    · obtain ⟨read, -, h⟩ := Resolve.bind_eq_ok h
      cases h
      exact ⟨read, rfl⟩
    · cases h
      exact ⟨[], rfl⟩
  obtain ⟨read, rfl⟩ := hread
  rw [Concept.mem_addresses_unique]
  exact List.mem_map_of_mem (mem_sortOn.2 (List.mem_append_left _ hc))

/-- every wanted concept is in a group of the first bridge -/
theorem firstGroups_covers {cs : List Concept} {gs : List (List Concept)} (h : firstGroups p r cs = .ok (some gs))
    (hkeyed : p.arena.environment.Keyed) {c : Concept} (hc : c ∈ cs) : ∃ g ∈ gs, c.address ∈ Concept.addresses g := by
  obtain ⟨first, hfirst, h⟩ := Resolve.bind_eq_ok h
  split at h
  · cases h
    exact Bridge.groups_covers hkeyed hfirst hc
  · exact Bridge.groups_covers hkeyed h hc

/-- **what a bridge is joined into has every concept that was asked for in one of its parts** -/
theorem source_joined (hs : Searches search) : Runs k p (source search r) fun q found =>
    ∀ id, found = some id → Joined k r.concepts q id := by
  refine .get (.bind (.lift (Q := fun q cs => q = p ∧ wanted p.arena.environment r = .ok cs) fun cs h => ⟨rfl, h⟩) ?_)
  rintro cs q - ⟨rfl, hcs⟩
  refine .bind (.lift (Q := fun s gs => s = q ∧ firstGroups q r cs = .ok gs) fun gs h => ⟨rfl, h⟩) ?_
  rintro gs s - ⟨rfl, hgs⟩
  cases gs with
  | none => exact .pure fun id h => by cases h
  | some groups =>
    dsimp only
    split
    · exact .pure fun id h => by cases h
    · refine .bind (sourcePieces_carries hs _ _) fun found q hl hf => ?_
      cases found with
      | none => exact .pure fun id h => by cases h
      | some parents =>
        dsimp only
        rw [map_eq_pure_bind]
        refine .bind (mergePieces_joined (hf parents rfl) (fun hkeyed c hc => ?_) _) fun id q' _ h => .pure fun id' e =>
          Option.some.inj e ▸ h
        obtain ⟨c', hc', he⟩ := List.mem_map.1 (mem_wanted hcs hc)
        rw [hl.environment] at hkeyed
        exact he ▸ firstGroups_covers hgs hkeyed hc'

end Bridged

namespace Synonym

theorem firstSourced_finds (hs : Searches search) (l : List (List Concept)) :
    Runs k p (firstSourced search r l) (FindsUnder k r.condition) := by
  induction l generalizing p with
  | nil => exact .pure .none
  | cons cs rest ih =>
    refine .bind (hs.findsUnder _) fun found q _ hf => ?_
    cases found with
    | some id => exact .pure hf
    | none => exact ih

theorem source_finds (hs : Searches search) : Runs k p (source search r) (FindsUnder k r.condition) := by
  refine .environment ?_
  split
  · exact .pure .none
  · exact firstSourced_finds hs _

end Synonym

/-! ## Roots -/

namespace Root

/-- what is found outlasts the mark of its search -/
theorem during_finds {key : SearchKey} {step : Planning (Option PlanId)} {Q : Planner → Option PlanId → Prop}
    (h : ∀ q, Runs k q step Q) (hQ : ∀ q v, Q q v → Q { q with history := q.history.finish key } v) :
    Runs k p (Planning.during key step) Q :=
  .during (h _) hQ

/-- a concept over a bridge: covered, or withheld by the node or by one that it stands on -/
def Retains (a : Arena) (id : PlanId) (x : String) : Prop :=
  a.Covers id x ∨ ∃ m, (m = id ∨ m ∈ a.parents id) ∧ a.Withholds m x

/-- the arena of a node cut down to the targets -/
def restricted (a : Arena) (id : PlanId) (targets : List Concept) : Arena :=
  (a.setOutputs id (keptOutputs targets (a.core id).outputs)).hideOutputs id
    (redundantOutputs targets (a.core id).outputs)

theorem outputs_restricted {a : Arena} (h : a.contains id = true) (targets : List Concept) :
    ((restricted a id targets).core id).outputs = distinct (keptOutputs targets (a.core id).outputs) := by
  have hset : (a.setOutputs id (keptOutputs targets (a.core id).outputs)).contains id = true :=
    (Arena.contains_change _).trans h
  rw [restricted, Arena.hideOutputs, Arena.core_change_self _ hset, Arena.setOutputs, Arena.core_change_self _ h]

/-- **a node cut down to the targets still has those that it or its parents had** -/
theorem restricted_retains {a : Arena} (ha : a.Consistent) (hid : a.contains id = true) {targets : List Concept}
    {c : Concept} (hc : c ∈ targets) (hnames : a.environment.OnlyNames c) {m : PlanId} (hm : m = id ∨ m ∈ a.parents id)
    (hcovers : a.Covers m c.address)
    (hout : ∀ y ∈ (a.core m).visible, y = c.address ∨ y ∈ c.pseudonyms → y ∈ (a.core id).outputs) :
    Retains (restricted a id targets) id c.address := by
  obtain ⟨ht, -, hps⟩ : Runs.Touches id a (restricted a id targets) ∧ _ ∧
      (restricted a id targets).parents id = a.parents id :=
    (Runs.Edits.comp (.setOutputs (keptOutputs targets (a.core id).outputs))
      (.hideOutputs (redundantOutputs targets (a.core id).outputs))).touches a
  have henv : (restricted a id targets).environment = a.environment := ht.environment
  have houtputs := outputs_restricted hid targets
  -- what the node stands on has not changed
  have hbelow : ∀ x ∈ a.parents id, a.AgreeBelow (restricted a id targets) x := fun x hx =>
    Arena.agreeBelow_of_others ha.wellFormed ht.others hx
  obtain ⟨y, hy, hv⟩ := hcovers
  have hname := hnames y hy
  -- a name of the concept stays where it was put out
  have hmine : y ∈ (a.core id).outputs → Retains (restricted a id targets) id c.address := by
    intro hmem
    have hkept : y ∈ ((restricted a id targets).core id).outputs := by
      rw [houtputs]
      refine mem_distinct.2 (List.mem_filter.2 ⟨hmem, List.any_eq_true.2 ⟨c, hc, ?_⟩⟩)
      rw [Bool.or_eq_true, beq_iff_eq, SortedSet.contains_iff]
      exact hname.imp_left Eq.symm
    by_cases hvisible : y ∈ ((restricted a id targets).core id).visible
    · exact Or.inl ⟨y, henv ▸ hy, Or.inl hvisible⟩
    · exact Or.inr ⟨id, Or.inl rfl, y, henv ▸ hy, hvisible, Or.inl hkept⟩
  by_cases hshown : y ∈ (a.core m).visible
  · exact hmine (hout y hshown hname)
  obtain ⟨r, hback, hyr⟩ := hv.resolve_left hshown
  rcases hm with rfl | hm
  · obtain ⟨hkind, rs, hrs, hl, hanswers⟩ := hback
    rcases hanswers.covers with ⟨-, hsame⟩ | hall
    · exact hmine ((hsame y).1 (List.mem_of_mem_filter hyr))
    · -- fewer outputs are complete in the same source still
      refine Or.inl ⟨y, henv ▸ hy, Or.inr ⟨r, ⟨ht.kind ▸ hkind, rs, fun e he => ?_, hps ▸ hl, hanswers.mem, Or.inr ?_⟩,
        hyr⟩⟩
      · rw [hps] at he
        exact (hrs e he).congr henv (hbelow _ (List.of_mem_zip he).1)
      · intro x hx
        rw [houtputs] at hx
        exact hall x (List.mem_of_mem_filter (mem_distinct.1 hx))
  · have hagree := hbelow m hm
    refine Or.inr ⟨m, Or.inr (hps ▸ hm), y, henv ▸ hy, ?_,
      Or.inr ⟨r, hback.congr henv hagree, List.mem_of_mem_filter hyr⟩⟩
    rw [Arena.core, hagree m (Or.inl rfl)]
    exact hshown

theorem restrict_retains {targets : List Concept} (h : Bridged.Joined k targets p id) :
    Runs k p (restrict id targets) fun q _ => Owned k q id ∧ (q.arena.environment.Keyed → ∀ c ∈ targets,
      q.arena.environment.OnlyNames c → Retains q.arena id c.address) := by
  refine .assume fun hfine _ => .core ((Runs.edit (.comp (.setOutputs _) (.hideOutputs _)) h.owned).mono ?_)
  rintro q - hl rfl
  refine ⟨h.owned.later hl, fun hkeyed c hc hnames => ?_⟩
  rw [hl.environment] at hkeyed hnames
  obtain ⟨m, hm, hcovers, hout⟩ := h.parts hkeyed c hc
  exact restricted_retains hfine.consistent h.owned.contains hc hnames hm hcovers hout

theorem bridged_joined (hs : Searches search) : Runs k p (bridged search r) fun q found =>
    ∀ id, found = some id → Bridged.Joined k r.concepts q id := by
  refine .bind (Bridged.source_joined hs) fun found q _ hf => ?_
  cases found with
  | some id => exact .pure hf
  | none =>
    dsimp only
    split
    · exact Bridged.source_joined hs
    · exact .pure fun id h => by cases h

theorem synonyms_finds (hs : Searches search) : Runs k p (synonyms search r) (FindsUnder k r.condition) := by
  refine .get ?_
  split
  · exact during_finds (fun _ => Synonym.source_finds hs) fun q v hf id hid =>
      ⟨⟨(hf id hid).owned.le, (hf id hid).owned.contains, (hf id hid).owned.free⟩, (hf id hid).meets⟩
  · exact .pure .none

/-- a node of nothing but constants: no condition is applied to it, nor does it have anything else to test one on -/
structure Alone (q : Planner) (r : Request) (id : PlanId) : Prop where
  constant : ∀ c ∈ r.concepts, c.derivation = .constant
  kind : (q.arena.node id).kind = .constant
  visible : (q.arena.core id).visible = distinct (Concept.addresses r.concepts)
  preexisting : (q.arena.core id).preexisting = none

theorem constants_alone : Runs k p (constants r) fun q found =>
    ∀ id, found = some id → Owned k q id ∧ Alone q r id := by
  rw [constants]
  split
  · rename_i hall
    have hconstant : ∀ c ∈ r.concepts, c.derivation = .constant := fun c hc =>
      of_decide_eq_true (List.all_eq_true.1 hall c hc)
    rw [map_eq_pure_bind]
    refine .bind (Runs.insert ((Direct.standing_of (k := k) _ _).insertable nofun)) fun id q _ h => .pure fun id' e => ?_
    cases e
    exact ⟨h.owned, hconstant, h.kind, (NodeCore.visible_eq_outputs h.hidden).trans h.outputs, h.preexisting⟩
  · exact .pure fun id h => by cases h

theorem together_carries (hs : Searches search) : Runs k p (together search r) fun q found =>
    ∀ id, found = some id → Carries k (Concept.addresses r.concepts) q id := by
  refine .get ?_
  split
  · exact .pure fun id h => by cases h
  · refine during_finds (fun q => (hs k q _).mono fun q found _ h id hid =>
      ⟨(h id hid).1, List.forall_mem_map.2 (h id hid).2.1⟩) fun q v hf id hid => ?_
    exact ⟨⟨(hf id hid).owned.le, (hf id hid).owned.contains, (hf id hid).owned.free⟩, (hf id hid).covers⟩

end Root

/-! ## Every derivation -/

/-- what a node that was found for a picked concept leaves of the condition of its request -/
inductive Leaves (q : Planner) (picked : Concept) (r : Request) (id : PlanId) : Prop
  /-- the node applies the condition -/
  | applied : q.arena.Meets id r.condition → Leaves q picked r id
  /-- the node covers all that was asked for and all that the condition reads, so that it can be applied to the node -/
  | applicable : (∀ c ∈ r.concepts, q.arena.Covers id c.address) →
      (∀ c ∈ r.condition, ∀ x ∈ c.rowArguments, q.arena.Covers id x) → Leaves q picked r id
  /-- the node covers all that was asked for, and something that the condition reads was not asked for -/
  | unasked : (∀ c ∈ r.concepts, q.arena.Covers id c.address) →
      (∃ c ∈ r.condition, ∃ x ∈ c.rowArguments, x ∉ Concept.addresses r.concepts) → Leaves q picked r id
  /-- constants that are in no source and over no bridge -/
  | alone : Root.Alone q r id → Leaves q picked r id
  /-- roots and constants over a bridge: the pieces are sourced without the condition, and the node is cut down to the
  concepts themselves and their own pseudonyms -/
  | bridged : picked.derivation = .root ∨ picked.derivation = .constant → Root.needsRowContext r.concepts = false →
      (∀ c ∈ r.concepts, q.arena.environment.OnlyNames c → Root.Retains q.arena id c.address) → Leaves q picked r id
  /-- a rowset that was not enriched: its inner select is planned on its own, under a condition of its own -/
  | rowset {s : RowsetLineage} : picked.lineage = some (.rowset s) → q.arena.Selects id s.select.condition →
      Leaves q picked r id
  /-- a multiselect that was not enriched: each of its inner selects is planned on its own -/
  | multiselect {m : MultiselectLineage} : picked.lineage = some (.multiselect m) →
      List.Forall₂ (fun s b => q.arena.Selects b (Multiselect.conditionOf s)) m.selects (q.arena.parents id) →
      Leaves q picked r id
  /-- the node of a filter's rows applies the filter in the place of the condition -/
  | folded : picked.derivation = .filter → Filter.Folds q ⟨picked, r.concepts.drop 1, r.depth, r.condition⟩ id →
      Leaves q picked r id

/-- what is found is owned, and leaves of the condition what it may -/
def FindsLeaving (k : Nat) (picked : Concept) (r : Request) (q : Planner) (found : Option PlanId) : Prop :=
  ∀ id, found = some id → Owned k q id ∧ (q.arena.environment.Keyed → Leaves q picked r id)

theorem FindsUnder.leaving {picked : Concept} {found : Option PlanId} (h : FindsUnder k r.condition q found) :
    FindsLeaving k picked r q found := fun id hid => ⟨(h id hid).owned, fun _ => .applied (h id hid).meets⟩

/-- where all that was asked for is covered, what the condition reads is covered or was not asked for -/
theorem Leaves.of_covers {picked : Concept} (h : ∀ c ∈ r.concepts, q.arena.Covers id c.address) :
    Leaves q picked r id := by
  by_cases hasked : ∀ c ∈ r.condition, ∀ x ∈ c.rowArguments, x ∈ Concept.addresses r.concepts
  · refine .applicable h fun c hc x hx => ?_
    obtain ⟨d, hd, rfl⟩ := List.mem_map.1 (hasked c hc x hx)
    exact h d hd
  · push Not at hasked
    exact .unasked h hasked

theorem FindsLeaving.of_carries {picked : Concept} {found : Option PlanId}
    (h : ∀ id, found = some id → Carries k (Concept.addresses r.concepts) q id) : FindsLeaving k picked r q found :=
  fun id hid => ⟨(h id hid).owned, fun _ => .of_covers fun _ hc => (h id hid).covers _ (List.mem_map_of_mem hc)⟩

theorem Root.source_leaves (hs : Searches search) {picked : Concept}
    (hpicked : picked.derivation = .root ∨ picked.derivation = .constant) :
    Runs k p (Root.source search r) (FindsLeaving k picked r) := by
  rw [Root.source]
  split
  · exact (Root.together_carries hs).mono fun _ _ _ h => .of_carries h
  rename_i hcontext
  refine .bind (Root.bridged_joined hs) fun found q _ hf => ?_
  cases found with
  | some id =>
    refine .bind (Root.restrict_retains (hf id rfl)) fun _ q _ h => .pure fun id' e => ?_
    cases e
    exact ⟨h.1, fun hkeyed => .bridged hpicked (Bool.eq_false_iff.2 hcontext) (h.2 hkeyed)⟩
  | none =>
    refine .bind (Root.synonyms_finds hs) fun found q _ hf => ?_
    cases found with
    | some id => exact .pure hf.leaving
    | none => exact Root.constants_alone.mono fun _ _ _ h id hid => ⟨(h id hid).1, fun _ => .alone (h id hid).2⟩

/-- **what each derivation leaves of the condition** -/
theorem sourceDerived_leaves (hs : Searches search) (picked : Concept) :
    Runs k p (sourceDerived search picked r) (FindsLeaving k picked r) := by
  rw [sourceDerived]
  split
  · exact (Derived.window_finds hs).mono fun _ _ _ h => h.leaving
  · rename_i hfilter
    refine (Filter.source_finds hs).mono fun q found _ h id hid => ⟨(h id hid).1, fun _ => ?_⟩
    rcases (h id hid).2 with h | h
    · exact .folded hfilter h
    · exact .applied h
  · exact (Derived.unnest_finds hs).mono fun _ _ _ h => h.leaving
  · exact (Derived.recursion_finds hs).mono fun _ _ _ h => h.leaving
  · exact (Union.source_finds hs).mono fun _ _ _ h => h.leaving
  · refine (Rowset.source_follows hs).mono fun _ _ _ h id hid => ⟨(h id hid).1, fun _ => ?_⟩
    rcases (h id hid).2 with h | ⟨s, hs, h⟩
    · exact .applied h
    · exact .rowset hs h
  · refine (Multiselect.source_follows hs).mono fun _ _ _ h id hid => ⟨(h id hid).1, fun _ => ?_⟩
    rcases (h id hid).2 with h | ⟨m, hm, h⟩
    · exact .applied h
    · exact .multiselect hm h
  · exact (Derived.aggregate_finds hs).mono fun _ _ _ h => h.leaving
  · exact (Derived.function_finds hs).mono fun _ _ _ h => h.leaving
  · exact (Derived.regroup_finds hs).mono fun _ _ _ h => h.leaving
  · rename_i hroot
    exact Root.source_leaves hs (Or.inl hroot)
  · rename_i hconstant
    exact Root.source_leaves hs (Or.inr hconstant)

/-- **whatever node a picked concept is sourced into is the caller's own**, and applies the condition or leaves it to be
applied, the bridges and derivations apart that have conditions of their own -/
theorem sourceConcept_leaves (hs : Searches search) (picked : Concept) (companions : List Concept) (depth : Nat)
    (acceptPartial : Bool) (condition : Option Condition) :
    Runs k p (sourceConcept search picked companions depth acceptPartial condition)
      (FindsLeaving k picked ⟨picked :: companions, depth + 1, acceptPartial, condition⟩) := by
  refine .bind matchOnce_serves fun found q _ hf => ?_
  cases found with
  | some id =>
    refine .pure fun id' e => ?_
    cases e
    refine ⟨(hf id rfl).1, fun hkeyed => ?_⟩
    rcases (hf id rfl).2 hkeyed with h | h
    · exact .applied fun c hc => h _ (Option.map_eq_some_iff.2 ⟨c, hc, rfl⟩)
    · exact .of_covers fun c hc => h _ (Request.mem_key.2 (List.mem_map_of_mem hc))
  | none => exact sourceDerived_leaves hs picked

theorem sourceConcept_finds (hs : Searches search) (picked : Concept) (companions : List Concept) (depth : Nat)
    (acceptPartial : Bool) (condition : Option Condition) :
    Runs k p (sourceConcept search picked companions depth acceptPartial condition) (Finds k) :=
  (sourceConcept_leaves hs picked companions depth acceptPartial condition).mono fun _ _ _ h id hid => (h id hid).1

end SemanticPlanner
