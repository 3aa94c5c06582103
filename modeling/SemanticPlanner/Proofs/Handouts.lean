/-
What a planning pass remembers stays as it was stored, whatever is done to what was stored and handed out.

  OutcomeTable       the tables of searches and of matches
  Step, Steps        what may happen to the arena and the tables of a pass
  Step.preserves     nodes that are remembered do not change, and only new nodes come to be remembered
  handOut_stored     a node that is handed out resolves as what was stored did when it was stored
  copies_isolated    the results on copies and on the tables together
  crossedJoins_renamed
                     a copy whose joins cannot be ordered reports them under other names than its original

Nobody else holds a remembered node: it is a copy of its own, and it is only copied further. So every change that is
made to a plan is made to a node that is not private.
-/
import SemanticPlanner.Proofs.Isolation
import SemanticPlanner.Proofs.Planning

namespace SemanticPlanner

/-! ## Tables -/

/-- a table of outcomes that a pass keeps -/
inductive OutcomeTable where
  | searches
  | matched
deriving DecidableEq

namespace OutcomeTable

def outcomes (t : OutcomeTable) (p : Planner) : Outcomes :=
  match t with
  | searches => p.history.searches
  | matched => p.history.matched

def store : OutcomeTable → SearchKey → Option PlanId → Planning Unit
  | searches => Planning.storeSearch
  | matched => Planning.storeMatch

def handOut : OutcomeTable → SearchKey → Planning (Option (Option PlanId))
  | searches => Planning.recallSearch
  | matched => Planning.recallMatch

variable {t t' : OutcomeTable} {key key' : SearchKey} {node : Option PlanId} {p : Planner}

/-- the pass once an outcome is stored -/
def stored (t : OutcomeTable) (key : SearchKey) (node : Option PlanId) (p : Planner) : Planner :=
  ((t.store key node).run p).2

theorem stored_arena : (t.stored key node p).arena = (Outcomes.copyOf node p.arena).2 := by
  cases t <;> rfl

theorem stored_outcomes : t'.outcomes (t.stored key node p) =
    if t' = t then (key, (Outcomes.copyOf node p.arena).1) :: t.outcomes p else t'.outcomes p := by
  cases t <;> cases t' <;> rfl

/-- only the arena changes when an outcome is looked up -/
theorem run_handOut : (t.handOut key).run p =
    (.ok ((t.outcomes p).lookUp key p.arena).1, p.withArena ((t.outcomes p).lookUp key p.arena).2) := by
  cases t <;> rfl

theorem mem_remembered {e : SearchKey × Option PlanId} : e ∈ p.remembered ↔ ∃ t : OutcomeTable, e ∈ t.outcomes p := by
  rw [Planner.remembered, List.mem_append]
  constructor
  · rintro (h | h)
    · exact ⟨searches, h⟩
    · exact ⟨matched, h⟩
  · rintro ⟨_ | _, h⟩
    · exact Or.inl h
    · exact Or.inr h

theorem remembered_of_lookup (h : List.lookup key (t.outcomes p) = some node) : (key, node) ∈ p.remembered := by
  obtain ⟨l₁, l₂, hsplit, -⟩ := List.lookup_eq_some_iff.1 h
  exact mem_remembered.2 ⟨t, hsplit ▸ List.mem_append_right _ List.mem_cons_self⟩

/-- storing under a key changes what is found under it, in its table only -/
theorem lookup_stored : List.lookup key' (t'.outcomes (t.stored key node p)) =
    if t' = t ∧ key' = key then some (Outcomes.copyOf node p.arena).1 else List.lookup key' (t'.outcomes p) := by
  rw [stored_outcomes]
  by_cases ht : t' = t
  · subst ht
    by_cases hk : key' = key
    · simp [hk]
    · have : (key' == key) = false := by simpa using hk
      simp [hk, List.lookup_cons, this]
  · simp [ht]

end OutcomeTable

namespace Planner

open Arena

variable {p q s : Planner} {t : OutcomeTable} {key : SearchKey} {node : Option PlanId} {id k x : PlanId}
  {W : OutcomeTable → SearchKey → Prop}

/-! ## Steps -/

/-- the arena is built, and remembered nodes are in it -/
structure Sealed (p : Planner) : Prop where
  built : p.arena.Built
  contains : ∀ e ∈ p.remembered, ∀ id, e.2 = some id → p.arena.contains id = true

/-- what may happen to a pass: an operation of the arena that changes no remembered node, an outcome stored under a key
of `W`, an outcome looked up, a search marked as under way or as finished -/
inductive Step (W : OutcomeTable → SearchKey → Prop) : Planner → Planner → Prop
  | edit {p : Planner} {b : Arena} (h : Edit {x | ¬ p.Private x} p.arena b) : Step W p (p.withArena b)
  | store {p : Planner} {t : OutcomeTable} {key : SearchKey} {node : Option PlanId} (hw : W t key)
      (hid : ∀ id ∈ node, p.arena.contains id = true) : Step W p (t.stored key node p)
  | handOut {p : Planner} {t : OutcomeTable} {key : SearchKey} : Step W p ((t.handOut key).run p).2
  | start {p : Planner} (key : SearchKey) : Step W p { p with history := p.history.start key }
  | finish {p : Planner} (key : SearchKey) : Step W p { p with history := p.history.finish key }

abbrev Steps (W : OutcomeTable → SearchKey → Prop) : Planner → Planner → Prop := Relation.ReflTransGen (Step W)

/-- what is remembered does not change, and only new nodes come to be remembered -/
structure Preserves (p q : Planner) : Prop where
  sealed : q.Sealed
  spares : Spares {x | ¬ p.Private x} p.arena q.arena
  fresh : ∀ x, q.Private x → p.Private x ∨ p.arena.contains x = false

theorem Sealed.contains_private (hp : p.Sealed) (hx : p.Private x) : p.arena.contains x = true := by
  obtain ⟨e, he, id, hid, hx⟩ := hx
  rcases hx with rfl | hx
  · exact hp.contains e he x hid
  · exact contains_of_dependsOn hp.built.consistent.wellFormed hx

/-- a remembered node is as it was, with all it depends on, where private nodes are spared -/
theorem Sealed.agreeBelow (hp : p.Sealed) {b : Arena} (hs : Spares {x | ¬ p.Private x} p.arena b)
    {e : SearchKey × Option PlanId} (he : e ∈ p.remembered) (hid : e.2 = some id) : p.arena.AgreeBelow b id :=
  hs.agreeBelow hp.built.consistent.wellFormed (hp.contains e he id hid) fun _ hx h => h ⟨e, he, id, hid, hx⟩

/-- where private nodes are spared, no other node becomes private -/
theorem Sealed.private_withArena (hp : p.Sealed) {b : Arena} (hs : Spares {x | ¬ p.Private x} p.arena b)
    (hx : (p.withArena b).Private x) : p.Private x := by
  obtain ⟨e, he, id, hid, hx⟩ := hx
  exact ⟨e, he, id, hid, hx.imp_right (hp.agreeBelow hs he hid).dependsOn.1⟩

/-- the arena is changed where nothing is remembered, or extended -/
theorem Sealed.withArena (hp : p.Sealed) {b : Arena} (hb : b.Built) (hs : Spares {x | ¬ p.Private x} p.arena b) :
    Preserves p (p.withArena b) :=
  ⟨⟨hb, fun e he id hid => hs.contains id (hp.contains e he id hid)⟩, hs,
    fun _ hx => Or.inl (hp.private_withArena hs hx)⟩

/-- a node copied where there is one -/
theorem copyOf_built {a : Arena} (ha : a.Built) (hid : ∀ id ∈ node, a.contains id = true) :
    (Outcomes.copyOf node a).2.Built ∧ a.Extends (Outcomes.copyOf node a).2 := by
  cases node with
  | none => exact ⟨ha, .refl a⟩
  | some id => exact ⟨ha.copy (hid id rfl), copy_extends ha.consistent (hid id rfl)⟩

/-- the copy that is kept is in the arena, and new with all it depends on -/
theorem copyOf_new {a : Arena} (ha : a.Built) (hid : ∀ id ∈ node, a.contains id = true)
    (hk : (Outcomes.copyOf node a).1 = some k) : (Outcomes.copyOf node a).2.contains k = true ∧
      ∀ x, (Outcomes.copyOf node a).2.Below k x → a.contains x = false := by
  cases node with
  | none => cases hk
  | some id =>
    cases hk
    obtain ⟨-, hcontains, -, f, hf, hcopy, -⟩ := copy_spec ha.consistent (hid id rfl)
    refine ⟨hcontains, fun x hx => decide_eq_false (Nat.not_lt_of_le (hcopy.size_le ?_))⟩
    rw [hf]
    exact hx

theorem Sealed.stored (hp : p.Sealed) (hid : ∀ id ∈ node, p.arena.contains id = true) :
    Preserves p (t.stored key node p) := by
  obtain ⟨hb, hextends⟩ := copyOf_built hp.built hid
  have hspares : Spares {x | ¬ p.Private x} p.arena (Outcomes.copyOf node p.arena).2 := .of_extends hextends
  -- an entry is the new one or one of before
  have hentry : ∀ e ∈ (t.stored key node p).remembered,
      e = (key, (Outcomes.copyOf node p.arena).1) ∨ e ∈ p.remembered := by
    intro e he
    obtain ⟨t', he⟩ := OutcomeTable.mem_remembered.1 he
    rw [OutcomeTable.stored_outcomes] at he
    split at he
    · exact (List.mem_cons.1 he).imp_right fun h => OutcomeTable.mem_remembered.2 ⟨t, h⟩
    · exact Or.inr (OutcomeTable.mem_remembered.2 ⟨t', he⟩)
  refine ⟨⟨?_, fun e he id' hid' => ?_⟩, ?_, ?_⟩
  · rw [OutcomeTable.stored_arena]
    exact hb
  · rw [OutcomeTable.stored_arena]
    rcases hentry e he with rfl | he
    · exact (copyOf_new hp.built hid hid').1
    · exact hextends.contains (hp.contains e he id' hid')
  · rw [OutcomeTable.stored_arena]
    exact hspares
  · rintro x ⟨e, he, id', hid', hx⟩
    rw [OutcomeTable.stored_arena] at hx
    rcases hentry e he with rfl | he
    · exact Or.inr ((copyOf_new hp.built hid hid').2 x hx)
    · exact Or.inl ⟨e, he, id', hid', hx.imp_right (hp.agreeBelow hspares he hid').dependsOn.1⟩

theorem Sealed.handOut (hp : p.Sealed) : Preserves p ((t.handOut key).run p).2 := by
  rw [OutcomeTable.run_handOut]
  cases hl : List.lookup key (t.outcomes p) with
  | none =>
    simp only [Outcomes.lookUp, hl]
    exact hp.withArena hp.built (.refl _)
  | some kept =>
    simp only [Outcomes.lookUp, hl]
    have hmem : (key, kept) ∈ p.remembered := OutcomeTable.remembered_of_lookup hl
    obtain ⟨hb, hextends⟩ := copyOf_built hp.built fun id hid => hp.contains _ hmem id hid
    exact hp.withArena hb (.of_extends hextends)

/-- **no step changes what is remembered**, nor comes to remember a node that is there -/
theorem Step.preserves (hp : p.Sealed) (h : Step W p q) : Preserves p q := by
  cases h with
  | edit h => exact hp.withArena (h.built hp.built) (h.spares hp.built)
  | store _ hid => exact hp.stored hid
  | handOut => exact hp.handOut
  | start key => exact ⟨⟨hp.built, hp.contains⟩, .refl _, fun x hx => Or.inl hx⟩
  | finish key => exact ⟨⟨hp.built, hp.contains⟩, .refl _, fun x hx => Or.inl hx⟩

/-- what is found under a key is found until something is stored under it -/
theorem Step.lookup (h : Step W p q) (hw : ¬ W t key) :
    List.lookup key (t.outcomes q) = List.lookup key (t.outcomes p) := by
  cases h with
  | edit h => cases t <;> rfl
  | @store t' key' node hw' _ =>
    rw [OutcomeTable.lookup_stored, if_neg ?_]
    rintro ⟨rfl, rfl⟩
    exact hw hw'
  | handOut =>
    rw [OutcomeTable.run_handOut]
    cases t <;> rfl
  | start key => cases t <;> rfl
  | finish key => cases t <;> rfl

theorem Steps.sealed (hp : p.Sealed) (h : Steps W p q) : q.Sealed := by
  induction h with
  | refl => exact hp
  | tail _ h ih => exact (h.preserves ih).sealed

/-- **what is not remembered may be changed for good**: it never comes to be remembered -/
theorem Steps.not_private (hp : p.Sealed) (h : Steps W p q) (hx : p.arena.contains x = true) (hpriv : ¬ p.Private x) :
    q.arena.contains x = true ∧ ¬ q.Private x := by
  induction h with
  | refl => exact ⟨hx, hpriv⟩
  | @tail q s hq h ih =>
    have hstep := h.preserves (Steps.sealed hp hq)
    refine ⟨hstep.spares.contains x ih.1, fun hs => ?_⟩
    rcases hstep.fresh x hs with hs | hs
    · exact ih.2 hs
    · rw [ih.1] at hs
      exact absurd hs (by simp)

/-- what is kept under a key stays under it and as it was -/
theorem Steps.kept (hp : p.Sealed) (h : Steps W p q) (hw : ¬ W t key) :
    List.lookup key (t.outcomes q) = List.lookup key (t.outcomes p) ∧
      ∀ k, List.lookup key (t.outcomes p) = some (some k) →
        q.arena.environment = p.arena.environment ∧ p.arena.AgreeBelow q.arena k := by
  induction h with
  | refl => exact ⟨rfl, fun k _ => ⟨rfl, fun _ _ => rfl⟩⟩
  | @tail q s hq h ih =>
    have hsealed := Steps.sealed hp hq
    have hstep := h.preserves hsealed
    refine ⟨(h.lookup hw).trans ih.1, fun k hk => ?_⟩
    obtain ⟨henv, hagree⟩ := ih.2 k hk
    have hmem : (key, some k) ∈ q.remembered := OutcomeTable.remembered_of_lookup (ih.1.trans hk)
    refine ⟨hstep.spares.environment.trans henv, fun x hx => ?_⟩
    have hx' : q.arena.Below k x := hx.imp_right hagree.dependsOn.2
    exact (hsealed.agreeBelow hstep.spares hmem rfl x hx').trans (hagree x hx)

/-! ## Handouts -/

/-- `n` is a copy, made between `s` and `q`, of the node that `id` was in `a`: it resolves as that did, and nobody else
holds it or anything it depends on -/
structure HandedOut (a : Arena) (s q : Planner) (id n : PlanId) : Prop where
  copy : ∃ f, f id = n ∧ Mirrors a q.arena f id ∧ Alike f (a.resolve id).1 (q.arena.resolve n).1
  fresh : ∀ x, q.arena.Below n x → s.arena.contains x = false ∧ ¬ q.Private x

/-- what was stored stays under its key, with all it depends on -/
theorem kept_stored (hp : p.Sealed) (hid : ∀ id ∈ node, p.arena.contains id = true)
    (hs : Steps (fun t' key' => ¬ (t' = t ∧ key' = key)) (t.stored key node p) s) :
    s.Sealed ∧ List.lookup key (t.outcomes s) = some (Outcomes.copyOf node p.arena).1 ∧
      ∀ k, (Outcomes.copyOf node p.arena).1 = some k →
        Mirrors (Outcomes.copyOf node p.arena).2 s.arena (fun x => x) k := by
  have hstored : Preserves p (t.stored key node p) := hp.stored hid
  have hkey : ¬ ¬ (t = t ∧ key = key) := fun h => h ⟨rfl, rfl⟩
  obtain ⟨hlookup, hkept⟩ := Steps.kept hstored.sealed hs hkey
  rw [OutcomeTable.lookup_stored, if_pos ⟨rfl, rfl⟩] at hlookup hkept
  refine ⟨Steps.sealed hstored.sealed hs, hlookup, fun k hk => ?_⟩
  obtain ⟨henv, hagree⟩ := hkept k (congrArg some hk)
  rw [OutcomeTable.stored_arena] at henv hagree
  exact .of_agreeBelow henv hagree

/-- a remembered node that mirrors another is handed out as a copy of that one -/
theorem handedOut_copy {a : Arena} {f : PlanId → PlanId} (ha : a.Built) (hj : a.JoinsBelow id) (hs : s.Sealed)
    (hmem : (key, some (f id)) ∈ s.remembered) (h : Mirrors a s.arena f id) :
    HandedOut a s (s.withArena (s.arena.copy (f id)).2) id (s.arena.copy (f id)).1 := by
  have hin : s.arena.contains (f id) = true := hs.contains _ hmem _ rfl
  obtain ⟨g, hg, hcopy⟩ := copy_copiesOnto hs.built.consistent hin (h.joinsBelow hj)
  have hmirrors : Mirrors a (s.arena.copy (f id)).2 (g ∘ f) id := h.trans hcopy.mirrors
  refine ⟨⟨g ∘ f, hg, hmirrors, ?_⟩, fun x hx => ?_⟩
  · rw [← hg]
    exact hmirrors.resolve ha (hs.built.copy hin) hj
  · rw [← hg] at hx
    obtain ⟨y, hy, rfl⟩ := hcopy.mirrors.of_below_image hx
    have hnew := (hcopy.onto.mapsTo hy).2
    refine ⟨hnew, fun hpriv => ?_⟩
    -- what is private now was private before, and so it was there
    have hback := hs.contains_private (hs.private_withArena (.of_extends hcopy.extended) hpriv)
    rw [hnew] at hback
    exact absurd hback (by simp)

/-- **what is handed out resolves as what was stored did when it was stored** -/
theorem handOut_stored (hp : p.Sealed) (hid : ∀ id ∈ node, p.arena.contains id = true ∧ p.arena.JoinsBelow id)
    (hs : Steps (fun t' key' => ¬ (t' = t ∧ key' = key)) (t.stored key node p) s) :
    ∃ found q, (t.handOut key).run s = (.ok (some found), q) ∧ Option.Rel (HandedOut p.arena s q) node found := by
  obtain ⟨hsealed, hlookup, hkept⟩ := kept_stored hp (fun id h => (hid id h).1) hs
  rw [OutcomeTable.run_handOut]
  cases node with
  | none =>
    simp only [Outcomes.lookUp, hlookup]
    exact ⟨none, _, rfl, .none⟩
  | some id =>
    obtain ⟨hcontains, hj⟩ := hid id rfl
    -- from the node to the one that is kept, unchanged since then, and on to the one that is handed out
    obtain ⟨f, hf, hcopy⟩ := copy_copiesOnto hp.built.consistent hcontains hj
    have hname : (Outcomes.copyOf (some id) p.arena).1 = some (f id) := congrArg some hf.symm
    have hnow : Mirrors p.arena s.arena f id := hcopy.mirrors.trans (hkept (f id) hname)
    rw [hname] at hlookup
    simp only [Outcomes.lookUp, hlookup]
    have hmem : (key, some (f id)) ∈ s.remembered := OutcomeTable.remembered_of_lookup hlookup
    exact ⟨_, _, rfl, .some (handedOut_copy hp.built hj hsealed hmem hnow)⟩

/-- a pass from its start, whatever was done to it -/
def Running (p : Planner) : Prop :=
  ∃ env graph settings, Steps (fun _ _ => True) ⟨Arena.empty env, graph, {}, settings⟩ p

theorem Running.sealed (hp : p.Running) : p.Sealed := by
  obtain ⟨env, graph, settings, hs⟩ := hp
  exact Steps.sealed ⟨.empty env, fun e he => absurd he List.not_mem_nil⟩ hs

end Planner

open Planner

/-- **Isolation.** Where explicit joins name parents, a copy of a node of a built arena has one new node for each node
below its original, of the same shape and content, and nothing that was there has changed. It resolves as its original,
but that the error of joins without an order is about the copies, and changes to either do not show in the other. What
is looked up in a table, after anything was done to a pass but to store under the same key, is a new node that resolves
so as the stored one did when it was stored, and that nobody else holds. What was not remembered then is not remembered
since, so that all of it could be changed. -/
theorem copies_isolated :
    (∀ a : Arena, a.Built → ∀ id, a.contains id = true → a.JoinsBelow id →
      ∃ f, f id = (a.copy id).1 ∧ Arena.Isolated a (a.copy id).2 f id) ∧
    ∀ p : Planner, p.Running → ∀ (t : OutcomeTable) key node,
      (∀ id ∈ node, p.arena.contains id = true ∧ p.arena.JoinsBelow id) →
      ∀ s, Steps (fun t' key' => ¬ (t' = t ∧ key' = key)) (t.stored key node p) s →
        (∃ found q, (t.handOut key).run s = (.ok (some found), q) ∧ Option.Rel (HandedOut p.arena s q) node found) ∧
        ∀ x, p.arena.contains x = true → ¬ p.Private x → ¬ s.Private x := by
  refine ⟨fun a ha id hid hj => ha.copy_isolated hid hj, fun p hp t key node hnode s hs => ⟨?_, fun x hx hpriv => ?_⟩⟩
  · exact handOut_stored hp.sealed hnode hs
  · have hstored : Preserves p (t.stored key node p) := hp.sealed.stored fun id h => (hnode id h).1
    refine (Steps.not_private hstored.sealed hs (hstored.spares.contains x hx) fun h => ?_).2
    rcases hstored.fresh x h with h | h
    · exact hpriv h
    · rw [hx] at h
      exact absurd h (by simp)

/-- a pass that has made a constant -/
def madeConstant : Planner :=
  ⟨((Arena.empty default).insert ⟨.constant, NodeCore.of [] ["local.a"]⟩).2, default, {}, default⟩

theorem running_madeConstant : madeConstant.Running :=
  ⟨default, default, default, .single (.edit (.insert (by decide)))⟩

def constantKey : SearchKey := .of ["local.a"] false none

/-- the constant was stored, and handed out -/
def handedConstant : Planner :=
  ((OutcomeTable.searches.handOut constantKey).run (OutcomeTable.searches.stored constantKey (some ⟨0⟩) madeConstant)).2

/-- and then given another output -/
def editedSince : Planner := handedConstant.withArena (handedConstant.arena.addOutputs ⟨0⟩ ["local.c"])

/-- a merge is copied with the constants that it joins, and a node handed out after the change resolves as the constant
did before -/
theorem copies_isolated_editedSince :
    (∃ f, f ⟨2⟩ = ⟨5⟩ ∧ Arena.Isolated Arena.joinedConstants (Arena.joinedConstants.copy ⟨2⟩).2 f ⟨2⟩) ∧
    (editedSince.arena.resolve ⟨0⟩).1 = .ok (Resolve.constant (NodeCore.of [] ["local.a", "local.c"])) ∧
      ∃ n q, (OutcomeTable.searches.handOut constantKey).run editedSince = (.ok (some (some n)), q) ∧
        (q.arena.resolve n).1 = .ok (Resolve.constant (NodeCore.of [] ["local.a"])) := by
  have hj : ∀ x, madeConstant.arena.JoinsParents x := Arena.joinsParents_of_ids (by decide)
  have hnode : ∀ id ∈ some (⟨0⟩ : PlanId),
      madeConstant.arena.contains id = true ∧ madeConstant.arena.JoinsBelow id := by
    rintro id ⟨⟩
    exact ⟨by decide, fun x _ => hj x⟩
  have hstored := copies_isolated.2 madeConstant running_madeConstant .searches constantKey _ hnode
  have hhanded : Steps (fun t' key' => ¬ (t' = OutcomeTable.searches ∧ key' = constantKey))
      (OutcomeTable.searches.stored constantKey (some ⟨0⟩) madeConstant) handedConstant := .single .handOut
  have hfree : ¬ handedConstant.Private ⟨0⟩ :=
    (hstored _ hhanded).2 ⟨0⟩ (by decide) fun ⟨e, he, _⟩ => absurd he List.not_mem_nil
  have hedit : Arena.Edit {x | ¬ handedConstant.Private x} handedConstant.arena
      (handedConstant.arena.addOutputs ⟨0⟩ ["local.c"]) := by
    rw [Arena.addOutputs]
    exact .change hfree fun _ => rfl
  obtain ⟨⟨found, q, hrun, hout⟩, -⟩ := hstored editedSince (hhanded.tail (.edit hedit))
  cases hout with
  | @some _ n hout =>
    obtain ⟨f, -, -, halike⟩ := hout.copy
    have hr : (madeConstant.arena.resolve ⟨0⟩).1 = .ok (Resolve.constant (NodeCore.of [] ["local.a"])) := rfl
    rw [hr] at halike
    refine ⟨?_, rfl, n, q, hrun, ?_⟩
    · exact copies_isolated.1 Arena.joinedConstants Arena.built_joinedConstants ⟨2⟩ (by decide)
        fun x _ => Arena.joinsParents_of_ids (by decide) x
    generalize (q.arena.resolve n).1 = v at halike
    cases halike
    rfl

/-- two relations, each of which has to be joined before the other -/
def crossedJoins : Arena :=
  let (l, a) := (Arena.empty default).insert ⟨.filter, (NodeCore.of [] ["local.a"]).withGrain Grain.single⟩
  let (r, a) := a.insert ⟨.window, (NodeCore.of [] ["local.b"]).withGrain Grain.single⟩
  (a.insert ⟨.merge (some [⟨l, r, [], .inner⟩, ⟨r, l, [], .inner⟩]),
    (NodeCore.of ["local.a", "local.b"] ["local.a", "local.b"]).withParents [l, r]⟩).2

theorem resolve_crossedJoins : (crossedJoins.resolve ⟨2⟩).1 = .error (.joinOrder "#0,#1" "#0,#1") := by rfl

/-- the error of a copy is about the copies, and so it is another one -/
theorem crossedJoins_renamed :
    crossedJoins.Built ∧ (∀ x, crossedJoins.JoinsParents x) ∧
      ((crossedJoins.copy ⟨2⟩).2.resolve (crossedJoins.copy ⟨2⟩).1).1 = .error (.joinOrder "#3,#4" "#3,#4") ∧
      ((crossedJoins.copy ⟨2⟩).2.resolve (crossedJoins.copy ⟨2⟩).1).1 ≠ (crossedJoins.resolve ⟨2⟩).1 := by
  have hcopy : ((crossedJoins.copy ⟨2⟩).2.resolve (crossedJoins.copy ⟨2⟩).1).1 =
      .error (.joinOrder "#3,#4" "#3,#4") := by rfl
  refine ⟨.insert (.insert (.insert (.empty default) ?_) ?_) ?_, Arena.joinsParents_of_ids (by decide), hcopy, ?_⟩
  · decide
  · decide
  · decide
  · rw [hcopy, resolve_crossedJoins]
    intro h
    injection h with h
    injection h with h
    exact absurd h (by decide)

end SemanticPlanner
