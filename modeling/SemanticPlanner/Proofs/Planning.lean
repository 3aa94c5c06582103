/-
What every step of a planning pass preserves.

  Fine      the arena is consistent, no node has virtual outputs, selects read what their datasource provides, every
            remembered search has a node that covers what it was searched for and applies its condition, and every
            remembered match one that does the one or the other
  Private   a remembered node, or one that such a node depends on
  Later     nodes below a bound and private nodes are as they were, and only new nodes have become private
  Owned     a node at or above the bound that is not private, and so may be changed
  Runs      a step keeps the state fine and leaves a later one, and what it returns has a property

A search hands out copies and stores copies, so that the nodes it remembers are never among those that a generator
holds. The bound is the size of the arena when a generator starts: whatever it changes it has made, or was handed, since.
-/
import SemanticPlanner.Proofs.Applying
import SemanticPlanner.Proofs.Coverage
import SemanticPlanner.Proofs.Matching
import SemanticPlanner.Sourcing.Planner

namespace SemanticPlanner

namespace Planner

variable {p q s : Planner} {k m : Nat} {id x : PlanId}

/-- the outcomes remembered of searches and of matches -/
def remembered (p : Planner) : Outcomes := p.history.searches ++ p.history.matched

/-- a node remembered for a search or a match, or one that such a node depends on -/
def Private (p : Planner) (x : PlanId) : Prop :=
  ∃ e ∈ p.remembered, ∃ id, e.2 = some id ∧ (x = id ∨ p.arena.DependsOn id x)

/-- a node matched for a key applies the condition of the key, or covers its concepts -/
def Serves (p : Planner) (key : SearchKey) (id : PlanId) : Prop :=
  p.arena.environment.Keyed →
    (∀ t ∈ key.condition, p.arena.Applies id t) ∨ ∀ x ∈ key.concepts, p.arena.Covers id x

structure Fine (p : Planner) : Prop where
  consistent : p.arena.Consistent
  plain : ∀ id, (p.arena.core id).virtual = []
  /-- a select reads columns of its datasource -/
  reads : ∀ id d acceptPartial, (p.arena.node id).kind = .select d acceptPartial →
    ∀ x ∈ (p.arena.core id).inputs, x ∈ d.outputs
  remembered : ∀ e ∈ p.remembered, ∀ id, e.2 = some id → p.arena.contains id = true
  /-- a remembered search covers its concepts and applies its condition -/
  searches : ∀ e ∈ p.history.searches, ∀ id, e.2 = some id →
    (∀ x ∈ e.1.concepts, p.arena.Covers id x) ∧ ∀ t ∈ e.1.condition, p.arena.Applies id t
  matched : ∀ e ∈ p.history.matched, ∀ id, e.2 = some id → p.Serves e.1 id
  graph : p.graph.WellFormed

/-- nothing of the node is virtual, and a select reads columns of its datasource -/
structure Proper (n : PlanNode) : Prop where
  virtual : n.core.virtual = []
  reads : ∀ d acceptPartial, n.kind = .select d acceptPartial → ∀ x ∈ n.core.inputs, x ∈ d.outputs

theorem Proper.copy {f : PlanId → PlanId} {n m : PlanNode} (h : Proper n) (hm : Arena.IsCopyOf f n m) : Proper m := by
  refine ⟨?_, fun d acceptPartial hkind x hx => ?_⟩
  · rw [hm.1]
    exact h.virtual
  · rw [hm.1] at hx
    exact h.reads d acceptPartial (hm.select hkind) x hx

theorem Fine.proper (hp : p.Fine) (x : PlanId) : Proper (p.arena.node x) := ⟨hp.plain x, hp.reads x⟩

/-- what may have happened between two states of a pass, as seen by one who must not change nodes below a bound -/
structure Later (k : Nat) (p q : Planner) : Prop where
  environment : q.arena.environment = p.arena.environment
  size : p.arena.size ≤ q.arena.size
  old : ∀ x, x.index < k → q.arena.node x = p.arena.node x
  guarded : ∀ x, p.Private x → q.Private x ∧ q.arena.node x = p.arena.node x
  fresh : ∀ x, q.Private x → p.Private x ∨ p.arena.size ≤ x.index

namespace Later

theorem refl (k : Nat) (p : Planner) : Later k p p :=
  ⟨rfl, Nat.le_refl _, fun _ _ => rfl, fun _ h => ⟨h, rfl⟩, fun _ h => Or.inl h⟩

theorem trans (h : Later k p q) (h' : Later k q s) : Later k p s := by
  refine ⟨h'.environment.trans h.environment, Nat.le_trans h.size h'.size,
    fun x hx => (h'.old x hx).trans (h.old x hx), fun x hx => ?_, fun x hx => ?_⟩
  · obtain ⟨hq, he⟩ := h.guarded x hx
    obtain ⟨hs, he'⟩ := h'.guarded x hq
    exact ⟨hs, he'.trans he⟩
  · rcases h'.fresh x hx with hq | hsize
    · exact h.fresh x hq
    · exact Or.inr (Nat.le_trans h.size hsize)

/-- a lower bound promises less -/
theorem weaken (h : Later m p q) (hk : k ≤ m) : Later k p q :=
  ⟨h.environment, h.size, fun x hx => h.old x (Nat.lt_of_lt_of_le hx hk), h.guarded, h.fresh⟩

theorem contains (h : Later k p q) (hx : p.arena.contains x = true) : q.arena.contains x = true :=
  Arena.contains_iff.2 (Nat.lt_of_lt_of_le (Arena.contains_iff.1 hx) h.size)

/-- where no old node has changed, nothing below an old node has -/
theorem agreeBelow (h : Later p.arena.size p q) (hp : p.Fine) (hx : p.arena.contains id = true) :
    p.arena.AgreeBelow q.arena id := by
  intro x hid
  refine h.old x (Arena.contains_iff.1 ?_)
  rcases hid with rfl | hd
  · exact hx
  · exact Arena.contains_of_dependsOn hp.consistent.wellFormed hd

theorem covers (h : Later p.arena.size p q) (hp : p.Fine) (hx : p.arena.contains id = true) {a : String}
    (hc : p.arena.Covers id a) : q.arena.Covers id a :=
  hc.congr h.environment (h.agreeBelow hp hx)

theorem meets (h : Later p.arena.size p q) (hx : p.arena.contains id = true) {condition : Option Condition}
    (hc : p.arena.Meets id condition) : q.arena.Meets id condition :=
  hc.of_node (h.old id (Arena.contains_iff.1 hx))

theorem serves (h : Later p.arena.size p q) (hp : p.Fine) (hx : p.arena.contains id = true) {key : SearchKey}
    (hs : p.Serves key id) : q.Serves key id := fun hkeyed =>
  (hs (h.environment ▸ hkeyed)).imp (fun hc t ht => (hc t ht).of_node (h.old id (Arena.contains_iff.1 hx)))
    fun hc x hy => h.covers hp hx (hc x hy)

end Later

/-- a node that may be changed: not below the bound, and not remembered -/
structure Owned (k : Nat) (p : Planner) (id : PlanId) : Prop where
  le : k ≤ id.index
  contains : p.arena.contains id = true
  free : ¬ p.Private id

theorem Owned.later (h : Owned k p id) (hl : Later m p q) : Owned k q id := by
  refine ⟨h.le, hl.contains h.contains, fun hq => ?_⟩
  rcases hl.fresh id hq with hp | hs
  · exact h.free hp
  · have := Arena.contains_iff.1 h.contains
    omega

/-- a lower bound promises less -/
theorem Owned.weaken (h : Owned m p id) (hk : k ≤ m) : Owned k p id := ⟨Nat.le_trans hk h.le, h.contains, h.free⟩

/-- private nodes are in the arena -/
theorem Fine.contains_private (hp : p.Fine) (hx : p.Private x) : p.arena.contains x = true := by
  obtain ⟨e, he, id, hid, hx⟩ := hx
  rcases hx with rfl | hd
  · exact hp.remembered e he x hid
  · exact Arena.contains_of_dependsOn hp.consistent.wellFormed hd

/-- a node that was not there is not private once it is -/
theorem Fine.owned_new (hp : p.Fine) (hk : k ≤ p.arena.size) (hs : q.Private x → p.Private x)
    (hx : p.arena.size ≤ x.index) (hq : q.arena.contains x = true) : Owned k q x := by
  refine ⟨Nat.le_trans hk hx, hq, fun h => ?_⟩
  have := Arena.contains_iff.1 (hp.contains_private (hs h))
  omega

/-- the pass with another arena -/
def withArena (p : Planner) (b : Arena) : Planner := { p with arena := b }

/-- **an arena put in the place of another keeps the state fine** if it is built, changes no node that must not be
changed, and has nodes of the same sort -/
theorem Fine.withArena (hp : p.Fine) (hk : k ≤ p.arena.size) {b : Arena} (hb : b.Consistent)
    (he : b.environment = p.arena.environment) (hs : p.arena.size ≤ b.size)
    (hproper : ∀ x, Proper (b.node x))
    (hn : ∀ x, p.arena.contains x = true → x.index < k ∨ p.Private x → b.node x = p.arena.node x) :
    (p.withArena b).Fine ∧ Later k p (p.withArena b) ∧ ∀ x, (p.withArena b).Private x → p.Private x := by
  have hcontains : ∀ x, p.arena.contains x = true → b.contains x = true := fun x hx =>
    Arena.contains_iff.2 (Nat.lt_of_lt_of_le (Arena.contains_iff.1 hx) hs)
  -- a remembered node and everything below it is private, so none of it has changed
  have hagree : ∀ e ∈ p.remembered, ∀ id, e.2 = some id → p.arena.AgreeBelow b id := by
    intro e hmem id hid x hx
    have hpriv : p.Private x := ⟨e, hmem, id, hid, hx⟩
    exact hn x (hp.contains_private hpriv) (Or.inr hpriv)
  have hback : ∀ x, (p.withArena b).Private x → p.Private x := by
    rintro x ⟨e, hmem, id, hid, hx⟩
    exact ⟨e, hmem, id, hid, hx.imp_right (hagree e hmem id hid).dependsOn.1⟩
  refine ⟨⟨hb, fun x => (hproper x).virtual, fun x => (hproper x).reads, ?_, ?_, ?_, hp.graph⟩, ⟨he, hs, ?_, ?_, ?_⟩,
    hback⟩
  · intro e hmem id hid
    exact hcontains id (hp.remembered e hmem id hid)
  · intro e hmem id hid
    obtain ⟨hcov, happ⟩ := hp.searches e hmem id hid
    have ha := hagree e (List.mem_append_left _ hmem) id hid
    exact ⟨fun x hx => (hcov x hx).congr he ha, fun t ht => (happ t ht).of_node (ha id (Or.inl rfl))⟩
  · intro e hmem id hid hkeyed
    have ha := hagree e (List.mem_append_right _ hmem) id hid
    exact (hp.matched e hmem id hid (he ▸ hkeyed)).imp (fun h t ht => (h t ht).of_node (ha id (Or.inl rfl)))
      fun h x hx => (h x hx).congr he ha
  · intro x hx
    exact hn x (Arena.contains_iff.2 (Nat.lt_of_lt_of_le hx hk)) (Or.inl hx)
  · rintro x ⟨e, hmem, id, hid, hx⟩
    have hpriv : p.Private x := ⟨e, hmem, id, hid, hx⟩
    exact ⟨⟨e, hmem, id, hid, hx.imp_right (hagree e hmem id hid).dependsOn.2⟩,
      hn x (hp.contains_private hpriv) (Or.inr hpriv)⟩
  · exact fun x hx => Or.inl (hback x hx)

/-- **a copy of a node may be taken**: the copy is owned, is new with all it depends on, and covers and applies what the
node does -/
theorem Fine.copy (hp : p.Fine) (hk : k ≤ p.arena.size) (hid : p.arena.contains id = true) :
    (p.withArena (p.arena.copy id).2).Fine ∧ Later k p (p.withArena (p.arena.copy id).2) ∧
      Owned k (p.withArena (p.arena.copy id).2) (p.arena.copy id).1 ∧
      (∀ x, p.arena.Covers id x → (p.arena.copy id).2.Covers (p.arena.copy id).1 x) ∧
      (∀ t, p.arena.Applies id t → (p.arena.copy id).2.Applies (p.arena.copy id).1 t) ∧
      ∀ y, y = (p.arena.copy id).1 ∨ (p.arena.copy id).2.DependsOn (p.arena.copy id).1 y → p.arena.size ≤ y.index := by
  obtain ⟨hb, hnew, -, f, hf, hcopy, -⟩ := Arena.copy_spec hp.consistent hid
  have hextends := Arena.copy_extends hp.consistent hid
  have hproper : ∀ y, Proper ((p.arena.copy id).2.node y) := by
    intro y
    rcases Arena.node_copy hp.consistent hid y with h | ⟨f, x, h⟩
    · exact h ▸ hp.proper y
    · exact (hp.proper x).copy h
  set b := (p.arena.copy id).2
  set new := (p.arena.copy id).1
  obtain ⟨hfine, hlater, hback⟩ := hp.withArena hk hb hcopy.environment hextends.size hproper fun x hx _ =>
    hextends.node hx
  have hbelow : ∀ y, y = new ∨ b.DependsOn new y → p.arena.size ≤ y.index := fun y hy => hcopy.size_le (hf ▸ hy)
  refine ⟨hfine, hlater, hp.owned_new hk (hback _) (hbelow new (Or.inl rfl)) hnew, fun x hx => ?_, fun t ht => ?_, hbelow⟩
  · exact hf ▸ hx.copy hcopy
  · have hcore : (b.core (f id)).preexisting = (p.arena.core id).preexisting := by
      rw [Arena.core, (hcopy.node id (Or.inl rfl)).1]
      rfl
    exact hf ▸ ht.congr hcore

end Planner

/-! ## Steps -/

/-- the step keeps a fine state fine and leaves a later one, and what it returns has the given property -/
def Runs {α : Type} (k : Nat) (p : Planner) (step : Planning α) (Q : Planner → α → Prop) : Prop :=
  p.Fine → k ≤ p.arena.size →
    (step.run p).2.Fine ∧ Planner.Later k p (step.run p).2 ∧ ∀ v, (step.run p).1 = .ok v → Q (step.run p).2 v

namespace Runs

open Planner

variable {α β : Type} {k : Nat} {p : Planner} {Q : Planner → α → Prop} {R : Planner → β → Prop} {id : PlanId}

theorem pure {v : α} (h : Q p v) : Runs k p (Pure.pure v) Q :=
  fun hp _ => ⟨hp, .refl k p, fun _ e => Except.ok.inj e ▸ h⟩

theorem throw {e : PlanningError} : Runs k p (MonadExcept.throw e) Q := fun hp _ => ⟨hp, .refl k p, fun _ h => by cases h⟩

theorem lift {v : Except PlanningError α} (h : ∀ w, v = .ok w → Q p w) : Runs k p (liftM v : Planning α) Q :=
  fun hp _ => ⟨hp, .refl k p, h⟩

theorem mono {Q' : Planner → α → Prop} {step : Planning α} (h : Runs k p step Q)
    (hq : ∀ q v, Later k p q → Q q v → Q' q v) : Runs k p step Q' := by
  intro hp hk
  obtain ⟨hf, hl, hQ⟩ := h hp hk
  exact ⟨hf, hl, fun v hv => hq _ v hl (hQ v hv)⟩

theorem bind {step : Planning α} {next : α → Planning β} (h : Runs k p step Q)
    (hn : ∀ v q, Later k p q → Q q v → Runs k q (next v) R) : Runs k p (step >>= next) R := by
  intro hp hk
  obtain ⟨hf, hl, hQ⟩ := h hp hk
  rw [Arena.run_bind]
  rcases hs : step.run p with ⟨e | v, q⟩
  · rw [hs] at hf hl
    exact ⟨hf, hl, fun v hv => by cases hv⟩
  · rw [hs] at hf hl hQ
    obtain ⟨hf', hl', hR⟩ := hn v q hl (hQ v rfl) hf (Nat.le_trans hk hl.size)
    exact ⟨hf', hl.trans hl', hR⟩

/-- a step that changes no node that is there promises so to every bound -/
theorem below {step : Planning α} (h : Runs p.arena.size p step Q) :
    Runs k p step fun q v => Q q v ∧ Later p.arena.size p q := by
  intro hp hk
  obtain ⟨hf, hl, hQ⟩ := h hp (Nat.le_refl _)
  exact ⟨hf, hl.weaken hk, fun v hv => ⟨hQ v hv, hl⟩⟩

/-- the same of a step that is known to any bound, as long as a lower bound asks for no more -/
theorem belowAll {step : Planning α} {Q : Nat → Planner → α → Prop} (h : ∀ m, Runs m p step (Q m))
    (hQ : ∀ q v m, k ≤ m → Q m q v → Q k q v) : Runs k p step fun q v => Q k q v ∧ Later p.arena.size p q :=
  fun hp hk => (below ((h _).mono fun q v _ hv => hQ q v _ hk hv)) hp hk

/-- facts about the state a step starts in may be used -/
theorem assume {step : Planning α} (h : p.Fine → k ≤ p.arena.size → Runs k p step Q) : Runs k p step Q :=
  fun hp hk => h hp hk hp hk

theorem get {next : Planner → Planning α} (h : Runs k p (next p) Q) : Runs k p (MonadStateOf.get >>= next) Q := h

theorem core {next : NodeCore → Planning α} (h : Runs k p (next (p.arena.core id)) Q) :
    Runs k p (Planning.core id >>= next) Q := h

theorem environment {next : Environment → Planning α} (h : Runs k p (next p.arena.environment) Q) :
    Runs k p (Planning.environment >>= next) Q := h

theorem conceptsFor (addresses : List String) :
    Runs k p (Planning.conceptsFor addresses) fun q v => q = p ∧ p.arena.environment.conceptsFor addresses = .ok v :=
  fun hp _ => ⟨hp, .refl k p, fun _ h => ⟨rfl, h⟩⟩

theorem concept (address : String) :
    Runs k p (Planning.concept address) fun q v => q = p ∧ p.arena.environment.concept address = .ok v :=
  fun hp _ => ⟨hp, .refl k p, fun _ h => ⟨rfl, h⟩⟩

/-! ## Changes -/

/-- an arena that differs in one node, which has kept its kind, its inputs and its virtual outputs -/
structure Touches (id : PlanId) (a b : Arena) : Prop where
  environment : b.environment = a.environment
  size : b.size = a.size
  others : ∀ x, x ≠ id → b.node x = a.node x
  kind : (b.node id).kind = (a.node id).kind
  inputs : (b.core id).inputs = (a.core id).inputs
  virtual : (b.core id).virtual = (a.core id).virtual

namespace Touches

variable {a b c : Arena}

theorem trans (h : Touches id a b) (h' : Touches id b c) : Touches id a c :=
  ⟨h'.environment.trans h.environment, h'.size.trans h.size, fun x hx => (h'.others x hx).trans (h.others x hx),
    h'.kind.trans h.kind, h'.inputs.trans h.inputs, h'.virtual.trans h.virtual⟩

theorem change {f : NodeCore → NodeCore} (hi : ∀ c, (f c).inputs = c.inputs) (hv : ∀ c, (f c).virtual = c.virtual) :
    Touches id a (a.change id f) := by
  refine ⟨rfl, Arena.size_change f, fun x hx => Arena.node_change_of_ne f hx, ?_, ?_, ?_⟩
  · rw [Arena.node, Arena.slot_change]
    split <;> rfl
  · rw [Arena.core, Arena.node, Arena.slot_change]
    split
    · exact hi _
    · rfl
  · rw [Arena.core, Arena.node, Arena.slot_change]
    split
    · exact hv _
    · rfl

/-- an owned node may be touched -/
theorem fine {b : Arena} (h : Touches id p.arena b) (hp : p.Fine) (hk : k ≤ p.arena.size) (ho : Owned k p id)
    (hb : b.Consistent) : (p.withArena b).Fine ∧ Later k p (p.withArena b) := by
  have hproper : ∀ x, Proper (b.node x) := by
    intro x
    by_cases hx : x = id
    · subst hx
      exact ⟨h.virtual.trans (hp.plain x), fun d acceptPartial hkind y hy =>
        hp.reads x d acceptPartial (h.kind ▸ hkind) y (h.inputs ▸ hy)⟩
    · exact h.others x hx ▸ hp.proper x
  obtain ⟨hf, hl, -⟩ := hp.withArena (k := k) hk hb h.environment (Nat.le_of_eq h.size.symm) hproper
    (fun x _ hx => h.others x fun e => by
      subst e
      rcases hx with hx | hx
      · have := ho.le
        omega
      · exact ho.free hx)
  exact ⟨hf, hl⟩

end Touches

/-- a change of a core that leaves its parents, its inputs and its virtual outputs alone -/
structure Keeps (f : NodeCore → NodeCore) : Prop where
  parents : ∀ c, (f c).parents = c.parents
  inputs : ∀ c, (f c).inputs = c.inputs
  virtual : ∀ c, (f c).virtual = c.virtual

/-- a change of one node, made of such changes of its core -/
inductive Edits (id : PlanId) : (Arena → Arena) → Prop
  | change {f : NodeCore → NodeCore} : Keeps f → Edits id fun a => a.change id f
  | comp {g h : Arena → Arena} : Edits id g → Edits id h → Edits id fun a => h (g a)

namespace Edits

theorem addOutputs (cs : List String) : Edits id fun a => a.addOutputs id cs :=
  .change ⟨fun _ => rfl, fun _ => rfl, fun _ => rfl⟩

theorem setOutputs (cs : List String) : Edits id fun a => a.setOutputs id cs :=
  .change ⟨fun _ => rfl, fun _ => rfl, fun _ => rfl⟩

theorem hideOutputs (cs : List String) : Edits id fun a => a.hideOutputs id cs :=
  .change ⟨fun _ => rfl, fun _ => rfl, fun _ => rfl⟩

theorem showOutputs (cs : List String) : Edits id fun a => a.showOutputs id cs :=
  .change ⟨fun _ => rfl, fun _ => rfl, fun _ => rfl⟩

theorem removeOutputs (cs : List String) : Edits id fun a => a.removeOutputs id cs :=
  .change ⟨fun _ => rfl, fun _ => rfl, fun _ => rfl⟩

theorem addPartials (cs : List String) : Edits id fun a => a.addPartials id cs :=
  .change ⟨fun _ => rfl, fun _ => rfl, fun _ => rfl⟩

theorem setGrain (g : Option Grain) : Edits id fun a => a.setGrain id g :=
  .change ⟨fun _ => rfl, fun _ => rfl, fun _ => rfl⟩

theorem setWholeGrain (w : Bool) : Edits id fun a => a.setWholeGrain id w :=
  .change ⟨fun _ => rfl, fun _ => rfl, fun _ => rfl⟩

theorem touches {g : Arena → Arena} (h : Edits id g) (a : Arena) :
    Touches id a (g a) ∧ (a.Consistent → (g a).Consistent) ∧ (g a).parents id = a.parents id := by
  induction h generalizing a with
  | @change f hf =>
    refine ⟨.change hf.inputs hf.virtual, fun ha => ha.change hf.parents, ?_⟩
    exact Arena.parents_change f (hf.parents _)
  | @comp g h _ _ ihg ihh =>
    obtain ⟨h₁, hc₁, hp₁⟩ := ihg a
    obtain ⟨h₂, hc₂, hp₂⟩ := ihh (g a)
    exact ⟨h₁.trans h₂, fun ha => hc₂ (hc₁ ha), hp₂.trans hp₁⟩

end Edits

/-- **an owned node may be edited** -/
theorem edit {g : Arena → Arena} (hg : Edits id g) (ho : Owned k p id) :
    Runs k p (Planning.edit g) fun q _ => q = p.withArena (g p.arena) := by
  intro hp hk
  obtain ⟨ht, hc, -⟩ := hg.touches p.arena
  obtain ⟨hf, hl⟩ := ht.fine hp hk ho (hc hp.consistent)
  exact ⟨hf, hl, fun _ _ => rfl⟩

/-- a changed core may be put back where the state is fine -/
theorem edit_owned {g : Arena → Arena} (hg : Edits id g) (ho : Owned k p id) :
    Runs k p (Planning.edit g) fun q _ => Owned k q id :=
  (edit hg ho).mono fun _ _ hl _ => ho.later hl

/-- what a node must be to be put in -/
structure Insertable (p : Planner) (kind : NodeKind) (core : NodeCore) : Prop where
  parents : ∀ x ∈ core.parents, p.arena.contains x = true
  virtual : core.virtual = []
  reads : ∀ d acceptPartial, kind = .select d acceptPartial → ∀ x ∈ core.inputs, x ∈ d.outputs

/-- what a node is that was put in -/
structure Inserted (k : Nat) (p : Planner) (kind : NodeKind) (core : NodeCore) (q : Planner) (id : PlanId) : Prop where
  owned : Owned k q id
  later : Later p.arena.size p q
  kind : (q.arena.node id).kind = kind
  parents : q.arena.parents id = core.parents
  outputs : (q.arena.core id).outputs = core.outputs
  hidden : (q.arena.core id).hidden = core.hidden
  preexisting : (q.arena.core id).preexisting = core.preexisting

/-- a node that was put in covers what it shows -/
theorem Inserted.covers {kind : NodeKind} {core : NodeCore} {q : Planner} (h : Inserted k p kind core q id)
    (hh : core.hidden = ∅) {x : String} (hx : x ∈ core.outputs) : q.arena.Covers id x := by
  refine ⟨x, Or.inl rfl, Or.inl ?_⟩
  rw [NodeCore.visible_eq_outputs (h.hidden.trans hh), h.outputs]
  exact hx

theorem inheriting_eq (a : Arena) (c : NodeCore) :
    a.inheriting c = { c with partials := (a.inheriting c).partials, nullables := (a.inheriting c).nullables } := by
  simp only [Arena.inheriting]
  split <;> rfl

/-- **a new node is owned** -/
theorem insert {kind : NodeKind} {core : NodeCore} (hc : Insertable p kind core) :
    Runs k p (Planning.insert kind core) (Inserted k p kind core) := by
  intro hp hk
  set n : PlanNode := ⟨kind, p.arena.inheriting core⟩ with hn
  have hcore : p.arena.inheriting core = _ := inheriting_eq p.arena core
  have hnew : (p.arena.append n).2.node (p.arena.append n).1 = n := Arena.node_append_new n
  have hcons : (p.arena.append n).2.Consistent := hp.consistent.append fun x hx => by
    rw [hn, hcore] at hx
    exact hc.parents x hx
  have hput : Proper n := by
    rw [hn, hcore]
    exact ⟨hc.virtual, hc.reads⟩
  have hproper : ∀ x, Proper ((p.arena.append n).2.node x) := by
    intro x
    rcases Arena.node_append n x with h | h
    · rw [h]
      exact hput
    · rw [h]
      exact hp.proper x
  have hextends := Arena.Extends.append (a := p.arena) n
  have hwith := fun (m : Nat) (hm : m ≤ p.arena.size) =>
    hp.withArena hm hcons rfl hextends.size hproper fun x hx _ => hextends.node hx
  obtain ⟨hf, hl, hback⟩ := hwith k hk
  obtain ⟨-, hsize, -⟩ := hwith p.arena.size (Nat.le_refl _)
  refine ⟨hf, hl, fun v hv => ?_⟩
  cases hv
  show Inserted k p kind core (p.withArena (p.arena.append n).2) (p.arena.append n).1
  refine ⟨hp.owned_new hk (hback _) (Nat.le_refl _) (Arena.contains_append_new n), hsize, ?_, ?_, ?_, ?_, ?_⟩
  · exact congrArg PlanNode.kind hnew
  · show ((p.arena.append n).2.node (p.arena.append n).1).core.parents = _
    rw [hnew, hn, hcore]
  · show ((p.arena.append n).2.node (p.arena.append n).1).core.outputs = _
    rw [hnew, hn, hcore]
  · show ((p.arena.append n).2.node (p.arena.append n).1).core.hidden = _
    rw [hnew, hn, hcore]
  · show ((p.arena.append n).2.node (p.arena.append n).1).core.preexisting = _
    rw [hnew, hn, hcore]

/-- a step that changes kept relations only -/
theorem resolving {step : Arena.Resolving α} {S : α → Prop}
    (h : p.Fine → Arena.Yields p.arena.KeepsNodes step S) :
    Runs k p (Planning.resolving step) fun q v => S v ∧ ∃ b, p.arena.SameNodes b ∧ q = p.withArena b := by
  intro hp hk
  obtain ⟨hkeeps, hS⟩ := h hp p.arena ⟨.refl _, hp.consistent.sound⟩
  obtain ⟨hf, hl, -⟩ := hp.withArena (k := k) hk (hp.consistent.keeps hkeeps) hkeeps.1.environment
    (Nat.le_of_eq hkeeps.1.size.symm) (fun x => hkeeps.1.node x ▸ hp.proper x) (fun x _ _ => hkeeps.1.node x)
  exact ⟨hf, hl, fun v hv => ⟨hS v hv, _, hkeeps.1, rfl⟩⟩

theorem resolve (id : PlanId) : Runs k p (Planning.resolve id) fun q r =>
    p.arena.Resolves id r ∧ ∃ b, p.arena.SameNodes b ∧ q = p.withArena b :=
  resolving fun hp a ha => Arena.resolveWithin_yields hp.consistent.wellFormed (a.size + 1) id a ha

/-- parents added to an owned node -/
theorem addParents {ps : List PlanId} (ho : Owned k p id) (hps : ∀ x ∈ ps, p.arena.contains x = true) :
    Runs k p (Planning.addParents id ps) fun q _ => (∀ x ∈ ps, x ≠ id ∧ ¬ p.arena.DependsOn x id) ∧
      q = p.withArena (p.arena.change id fun c => { c with parents := addAllNew c.parents ps }) := by
  refine .get (.bind (.lift (Q := fun q b => q = p ∧ p.arena.addParents id ps = .ok b) fun b hb => ⟨rfl, hb⟩) ?_)
  rintro b q - ⟨hq, hb⟩ hp hk
  subst hq
  obtain ⟨rfl, hfree⟩ := Arena.addParents_eq_ok hp.consistent.wellFormed hb
  have ht : Touches id q.arena (q.arena.change id fun c => { c with parents := addAllNew c.parents ps }) :=
    .change (fun _ => rfl) fun _ => rfl
  obtain ⟨hf, hl⟩ := ht.fine hp hk ho (hp.consistent.addParents hps hb)
  exact ⟨hf, hl, fun _ _ => ⟨hfree, rfl⟩⟩

/-! ## Lists of steps -/

/-- a step taken for each item; what is known of a result has to outlast the steps after it -/
theorem mapM {l : List β} {step : β → Planning α} (h : ∀ x ∈ l, ∀ q, Later k p q → Runs k q (step x) Q)
    (hQ : ∀ v q q', Later k q q' → Q q v → Q q' v) : Runs k p (l.mapM step) fun q vs => ∀ v ∈ vs, Q q v := by
  induction l generalizing p with
  | nil =>
    rw [List.mapM_nil]
    exact .pure fun v hv => absurd hv List.not_mem_nil
  | cons x l ih =>
    rw [List.mapM_cons]
    refine .bind (h x List.mem_cons_self p (.refl k p)) fun v q hl hv => ?_
    refine .bind (ih fun y hy q' hl' => h y (List.mem_cons_of_mem _ hy) q' (hl.trans hl')) fun vs q' hl' hvs => .pure ?_
    intro w hw
    rcases List.mem_cons.1 hw with rfl | hw
    · exact hQ w q q' hl' hv
    · exact hvs w hw

/-- a step that changes no old node taken for each item; what is known of a result has to outlast such steps -/
theorem mapM_below {l : List β} {step : β → Planning α} {Q : β → Planner → α → Prop}
    (h : ∀ x ∈ l, ∀ q, Runs k q (step x) fun q' v => Q x q' v ∧ Later q.arena.size q q')
    (hQ : ∀ x v q q', q.Fine → Later q.arena.size q q' → Q x q v → Q x q' v) :
    Runs k p (l.mapM step) fun q vs => List.Forall₂ (fun x v => Q x q v) l vs ∧ Later p.arena.size p q := by
  induction l generalizing p with
  | nil =>
    rw [List.mapM_nil]
    exact .pure ⟨.nil, .refl _ p⟩
  | cons x l ih =>
    rw [List.mapM_cons]
    refine .bind (h x List.mem_cons_self p) ?_
    rintro v q - ⟨hv, hl⟩
    refine .assume fun hq _ => .bind (ih fun y hy => h y (List.mem_cons_of_mem _ hy)) ?_
    rintro vs q' - ⟨hvs, hl'⟩
    exact .pure ⟨.cons (hQ x v q q' hq hl' hv) hvs, hl.trans (hl'.weaken hl.size)⟩

/-- concepts are looked up without a change -/
theorem concepts (l : List String) :
    Runs k p (l.mapM Planning.concept) fun q cs => q = p ∧ l.mapM p.arena.environment.concept = .ok cs := by
  induction l with
  | nil =>
    rw [List.mapM_nil]
    exact .pure ⟨rfl, rfl⟩
  | cons x l ih =>
    rw [List.mapM_cons]
    refine .bind (.concept x) ?_
    rintro c q - ⟨rfl, hc⟩
    refine .bind ih ?_
    rintro cs q - ⟨rfl, hcs⟩
    refine .pure ⟨rfl, ?_⟩
    rw [List.mapM_cons, hc, hcs]
    rfl

/-- nodes are read without a change -/
theorem cores (l : List PlanId) : Runs k p (l.mapM Planning.core) fun q vs => q = p ∧ vs = l.map p.arena.core := by
  induction l with
  | nil =>
    rw [List.mapM_nil]
    exact .pure ⟨rfl, rfl⟩
  | cons x l ih =>
    rw [List.mapM_cons]
    refine .core (.bind ih ?_)
    rintro vs q - ⟨rfl, rfl⟩
    exact .pure ⟨rfl, rfl⟩

/-- a loop keeps what each round keeps -/
theorem forIn {l : List β} {step : β → Planning PUnit} {J : Planner → Prop}
    (h : ∀ x ∈ l, ∀ q, Later k p q → J q → Runs k q (step x) fun q' _ => J q') (hp : J p) :
    Runs k p (ForIn.forIn l PUnit.unit fun x _ => do
      step x
      Pure.pure (ForInStep.yield PUnit.unit)) fun q _ => J q := by
  induction l generalizing p with
  | nil => exact .pure hp
  | cons x l ih =>
    rw [List.forIn_cons]
    simp only [bind_assoc, pure_bind]
    refine .bind (h x List.mem_cons_self p (.refl k p) hp) fun _ q hl hq => ?_
    exact ih (fun y hy q' hl' => h y (List.mem_cons_of_mem _ hy) q' (hl.trans hl')) hq

/-! ## What is remembered -/

theorem during {key : SearchKey} {step : Planning α} (h : Runs k { p with history := p.history.start key } step Q)
    (hQ : ∀ q v, Q q v → Q { q with history := q.history.finish key } v) : Runs k p (Planning.during key step) Q := by
  intro hp hk
  obtain ⟨hf, hl, hv⟩ := h ⟨hp.consistent, hp.plain, hp.reads, hp.remembered, hp.searches, hp.matched, hp.graph⟩ hk
  refine ⟨⟨hf.consistent, hf.plain, hf.reads, hf.remembered, hf.searches, hf.matched, hf.graph⟩,
    ⟨hl.environment, hl.size, hl.old, hl.guarded, hl.fresh⟩, fun v he => hQ _ v (hv v he)⟩

/-- a remembered node is handed out as a copy -/
theorem lookUp {m : Outcomes} (key : SearchKey) (hp : p.Fine) (hk : k ≤ p.arena.size)
    (hm : ∀ e ∈ m, ∀ id, e.2 = some id → p.arena.contains id = true) :
    (p.withArena (m.lookUp key p.arena).2).Fine ∧ Later k p (p.withArena (m.lookUp key p.arena).2) ∧
      ∀ id, (m.lookUp key p.arena).1 = some (some id) → Owned k (p.withArena (m.lookUp key p.arena).2) id ∧
        ∃ kept, (key, some kept) ∈ m ∧ (∀ x, p.arena.Covers kept x → (m.lookUp key p.arena).2.Covers id x) ∧
          ∀ t, p.arena.Applies kept t → (m.lookUp key p.arena).2.Applies id t := by
  rcases hl : List.lookup key m with _ | _ | kept
  · simp only [Outcomes.lookUp, hl]
    exact ⟨hp, .refl k p, fun id h => by cases h⟩
  · simp only [Outcomes.lookUp, hl, Outcomes.copyOf]
    exact ⟨hp, .refl k p, fun id h => by cases h⟩
  · have hmem : (key, some kept) ∈ m := by
      obtain ⟨l₁, l₂, rfl, -⟩ := List.lookup_eq_some_iff.1 hl
      exact List.mem_append_right _ List.mem_cons_self
    obtain ⟨hf, hlater, hown, hcov, happ, -⟩ := hp.copy hk (hm _ hmem kept rfl)
    simp only [Outcomes.lookUp, hl, Outcomes.copyOf]
    refine ⟨hf, hlater, fun id h => ?_⟩
    cases h
    exact ⟨hown, kept, hmem, hcov, happ⟩

/-- a remembered search is handed out as a copy that covers what was searched for and applies the condition -/
theorem recallSearch (key : SearchKey) : Runs k p (Planning.recallSearch key) fun q v =>
    ∀ id, v = some (some id) → Owned k q id ∧ (∀ x ∈ key.concepts, q.arena.Covers id x) ∧
      ∀ t ∈ key.condition, q.arena.Applies id t := by
  intro hp hk
  obtain ⟨hf, hl, hv⟩ := lookUp key hp hk fun e he id hid => hp.remembered e (List.mem_append_left _ he) id hid
  refine ⟨hf, hl, fun v h id hid => ?_⟩
  cases h
  obtain ⟨hown, kept, hmem, hcov, happ⟩ := hv id hid
  obtain ⟨hcov', happ'⟩ := hp.searches _ hmem kept rfl
  exact ⟨hown, fun x hx => hcov x (hcov' x hx), fun t ht => happ t (happ' t ht)⟩

theorem recallMatch (key : SearchKey) : Runs k p (Planning.recallMatch key) fun q v =>
    ∀ id, v = some (some id) → Owned k q id ∧ q.Serves key id := by
  intro hp hk
  obtain ⟨hf, hl, hv⟩ := lookUp key hp hk fun e he id hid => hp.remembered e (List.mem_append_right _ he) id hid
  refine ⟨hf, hl, fun v h id hid => ?_⟩
  cases h
  obtain ⟨hown, kept, hmem, hcov, happ⟩ := hv id hid
  refine ⟨hown, fun hkeyed => ?_⟩
  exact (hp.matched _ hmem kept rfl (hl.environment ▸ hkeyed)).imp (fun h t ht => happ t (h t ht))
    fun h x hx => hcov x (h x hx)

/-- one entry more leaves a later state, if its node is new with all it depends on -/
theorem later_remember {q : Planner} {key : SearchKey} {found : Option PlanId} (hl : Later k p (p.withArena q.arena))
    (hr : ∀ e, e ∈ q.remembered ↔ e = (key, found) ∨ e ∈ p.remembered)
    (hnew : ∀ id, found = some id → ∀ x, x = id ∨ q.arena.DependsOn id x → p.arena.size ≤ x.index) : Later k p q := by
  refine ⟨hl.environment, hl.size, hl.old, fun x hx => ?_, fun x hx => ?_⟩
  · obtain ⟨⟨e, he, id, hid, hx⟩, hn⟩ := hl.guarded x hx
    exact ⟨⟨e, (hr e).2 (Or.inr he), id, hid, hx⟩, hn⟩
  · obtain ⟨e, he, id, hid, hx⟩ := hx
    rcases (hr e).1 he with rfl | he
    · exact Or.inr (hnew id hid x hx)
    · exact hl.fresh x ⟨e, he, id, hid, hx⟩

/-- **an outcome may be remembered**: its node is a copy that nobody holds, and covers and applies what the node does -/
theorem stored {q : Planner} (key : SearchKey) {found : Option PlanId} (hp : p.Fine) (hk : k ≤ p.arena.size)
    (hc : ∀ id, found = some id → p.arena.contains id = true) (ha : q.arena = (Outcomes.copyOf found p.arena).2)
    (hr : ∀ e, e ∈ q.remembered ↔ e = (key, (Outcomes.copyOf found p.arena).1) ∨ e ∈ p.remembered) :
    (p.withArena q.arena).Fine ∧ Later k p q ∧ (∀ e ∈ q.remembered, ∀ id, e.2 = some id → q.arena.contains id = true) ∧
      ∀ new, (Outcomes.copyOf found p.arena).1 = some new → ∃ id, found = some id ∧
        (∀ x, p.arena.Covers id x → q.arena.Covers new x) ∧ ∀ t, p.arena.Applies id t → q.arena.Applies new t := by
  cases found with
  | none =>
    have hsame : p.withArena q.arena = p := congrArg p.withArena ha
    have hl : Later k p (p.withArena q.arena) := hsame ▸ .refl k p
    refine ⟨hsame ▸ hp, later_remember hl hr nofun, fun e he id hid => ?_, nofun⟩
    rcases (hr e).1 he with rfl | he
    · cases hid
    · exact hl.contains (hp.remembered e he id hid)
  | some id =>
    have ha : q.arena = (p.arena.copy id).2 := ha
    obtain ⟨hf, hl, hown, hcov, happ, hnew⟩ := hp.copy hk (hc id rfl)
    rw [← ha] at hf hl hown hcov happ hnew
    refine ⟨hf, later_remember hl hr fun new hid => ?_, fun e he new hid => ?_, fun new hid => ?_⟩
    · cases hid
      exact hnew
    · rcases (hr e).1 he with rfl | he
      · cases hid
        exact hown.contains
      · exact hf.remembered e he new hid
    · cases hid
      exact ⟨id, rfl, hcov, happ⟩

/-- a search is remembered by a copy of its node, which nobody holds -/
theorem storeSearch (key : SearchKey) {found : Option PlanId}
    (h : ∀ id, found = some id → p.arena.contains id = true ∧ (∀ x ∈ key.concepts, p.arena.Covers id x) ∧
      ∀ t ∈ key.condition, p.arena.Applies id t) :
    Runs k p (Planning.storeSearch key found) fun _ _ => True := by
  intro hp hk
  set q : Planner := ((Planning.storeSearch key found).run p).2 with hq
  obtain ⟨hf, hl, hrem, hnew⟩ := stored (q := q) key hp hk (fun id hid => (h id hid).1) rfl fun e => List.mem_cons
  refine ⟨⟨hf.consistent, hf.plain, hf.reads, hrem, ?_, hf.matched, hp.graph⟩, hl, fun _ _ => trivial⟩
  intro e he new hid
  rcases List.mem_cons.1 he with rfl | he
  · obtain ⟨id, rfl, hcov, happ⟩ := hnew new hid
    obtain ⟨-, hcov', happ'⟩ := h id rfl
    exact ⟨fun x hx => hcov x (hcov' x hx), fun t ht => happ t (happ' t ht)⟩
  · exact hf.searches e he new hid

/-- a match is remembered by a copy of its node, which nobody holds -/
theorem storeMatch (key : SearchKey) {found : Option PlanId}
    (h : ∀ id, found = some id → p.arena.contains id = true ∧ p.Serves key id) :
    Runs k p (Planning.storeMatch key found) fun _ _ => True := by
  intro hp hk
  set q : Planner := ((Planning.storeMatch key found).run p).2 with hq
  obtain ⟨hf, hl, hrem, hnew⟩ := stored (q := q) key hp hk (fun id hid => (h id hid).1) rfl fun e =>
    List.perm_middle.mem_iff.trans List.mem_cons
  refine ⟨⟨hf.consistent, hf.plain, hf.reads, hrem, hf.searches, ?_, hp.graph⟩, hl, fun _ _ => trivial⟩
  intro e he new hid hkeyed
  rcases List.mem_cons.1 he with rfl | he
  · obtain ⟨id, rfl, hcov, happ⟩ := hnew new hid
    exact ((h id rfl).2 (hl.environment ▸ hkeyed)).imp (fun hc t ht => happ t (hc t ht)) fun hc x hx => hcov x (hc x hx)
  · exact hf.matched e he new hid hkeyed

end Runs

end SemanticPlanner
