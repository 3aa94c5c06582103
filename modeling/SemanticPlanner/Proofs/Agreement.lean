/-
Two runs of one step with different searches agree as long as the searches do.

  Scene        the environment and the settings of a pass, which no step changes
  Scope        concepts and conditions that planning does not leave: declared ones, and what their lineage says
  Agree        two steps do the same in a scene, which stays, and what they return has a property
  AgreeFrom    two searches agree on every request of a scope from some depth on

A generator knows its search only by asking it, so its lemma says which requests it asks: those of its scope that are no
shallower than its task. Every other step of a generator is the same on both sides, and agrees with itself.
-/
import SemanticPlanner.Proofs.Coverage
import SemanticPlanner.Proofs.Determined
import SemanticPlanner.Sourcing.Derivation

namespace SemanticPlanner

/-! ## Scenes and scopes -/

/-- what no step of a pass changes -/
structure Scene where
  environment : Environment
  settings : PlannerSettings

def Planner.scene (p : Planner) : Scene := ⟨p.arena.environment, p.settings⟩

/-- the conditions that a concept's lineage holds -/
def Concept.conditions (c : Concept) : List Condition :=
  match c.lineage with
  | some (.filter f) => [f.condition]
  | some (.rowset r) => r.select.condition.toList
  | some (.multiselect m) => m.selects.filterMap Multiselect.conditionOf
  | _ => []

/-- concepts that include the declared ones, and conditions that include those of their lineages -/
structure Scope (env : Environment) where
  Known : Concept → Prop
  Allowed : Condition → Prop
  declared : ∀ a c, env.find? a = some c → Known c
  lineage : ∀ c, Known c → ∀ k ∈ c.conditions, Allowed k

namespace Scope

variable {env : Environment} (σ : Scope env)

def KnowsAll (cs : List Concept) : Prop := ∀ c ∈ cs, σ.Known c

def AllowsOption (condition : Option Condition) : Prop := ∀ k, condition = some k → σ.Allowed k

/-- the request stays in the scope -/
structure Admits (r : Request) : Prop where
  concepts : σ.KnowsAll r.concepts
  condition : σ.AllowsOption r.condition

/-- the task stays in the scope -/
structure Holds (t : Task) : Prop where
  concept : σ.Known t.concept
  companions : σ.KnowsAll t.companions
  condition : σ.AllowsOption t.condition

variable {σ} {cs ds : List Concept} {c : Concept}

theorem allows_none : σ.AllowsOption none := fun _ h => by cases h

theorem knows_of_concept {a : String} (h : env.concept a = .ok c) : σ.Known c :=
  σ.declared a c (Environment.concept_eq_ok h)

theorem knows_conceptsFor {addresses : List String} (h : env.conceptsFor addresses = .ok cs) : σ.KnowsAll cs :=
  fun c hc => by
    obtain ⟨a, -, ha⟩ := Environment.mem_conceptsFor h hc
    exact σ.declared a c ha

namespace KnowsAll

theorem nil : σ.KnowsAll [] := fun _ h => absurd h List.not_mem_nil

theorem cons (h : σ.Known c) (h' : σ.KnowsAll cs) : σ.KnowsAll (c :: cs) := List.forall_mem_cons.2 ⟨h, h'⟩

theorem append (h : σ.KnowsAll cs) (h' : σ.KnowsAll ds) : σ.KnowsAll (cs ++ ds) := List.forall_mem_append.2 ⟨h, h'⟩

theorem of_subset (h : σ.KnowsAll cs) (hd : ds ⊆ cs) : σ.KnowsAll ds := fun c hc => h c (hd hc)

theorem filter (h : σ.KnowsAll cs) (p : Concept → Bool) : σ.KnowsAll (cs.filter p) :=
  fun c hc => h c (List.mem_of_mem_filter hc)

theorem flatten {ls : List (List Concept)} (h : ∀ l ∈ ls, σ.KnowsAll l) : σ.KnowsAll ls.flatten := fun c hc => by
  obtain ⟨l, hl, hc⟩ := List.mem_flatten.1 hc
  exact h l hl c hc

/-- one concept an address is left of known ones -/
theorem unique (h : σ.KnowsAll cs) : σ.KnowsAll (Concept.unique cs) := by
  have hstep : ∀ out, σ.KnowsAll out → σ.KnowsAll (cs.foldl
      (fun out c => if out.any fun d => d.address == c.address then out else out ++ [c]) out) := by
    induction cs with
    | nil => exact fun out hout => hout
    | cons c cs ih =>
      obtain ⟨hc, hcs⟩ := List.forall_mem_cons.1 h
      intro out hout
      refine ih hcs _ ?_
      dsimp only
      split
      · exact hout
      · exact hout.append (.cons hc .nil)
  exact hstep [] .nil

end KnowsAll

end Scope

/-! ## Steps on the arena -/

namespace Arena

theorem resolveWithin_environment {env : Environment} (fuel : Nat) (id : PlanId) :
    Yields (fun a => a.environment = env) (resolveWithin fuel id) fun _ => True := by
  induction fuel generalizing id with
  | zero => exact .get fun _ _ => .throw
  | succ fuel ih =>
    refine .get fun a _ => ?_
    dsimp only
    split
    · exact .pure trivial
    refine .bind (.mapM (P := fun _ _ => True) fun p _ => ih p) fun parents _ => ?_
    refine .bind (.mapM (P := fun _ _ => True) fun j _ => ?_) fun joins _ => ?_
    · exact .bind (ih j.left) fun _ _ => .bind (ih j.right) fun _ _ => .pure trivial
    refine .bind (.lift fun _ _ => trivial) fun r (_ : True) => ?_
    exact fun b hb => ⟨hb, fun _ _ => trivial⟩

theorem environment_copyFrom (fuel : Nat) (id : PlanId) (s : Copying) :
    (copyFrom fuel id s).2.arena.environment = s.arena.environment := by
  induction fuel generalizing id s with
  | zero => rfl
  | succ fuel ih =>
    have hall : ∀ (l : List PlanId) (s : Copying),
        (l.mapM (copyFrom fuel) s).2.arena.environment = s.arena.environment := by
      intro l
      induction l with
      | nil => exact fun s => rfl
      | cons p l ihl =>
        intro s
        rw [List.mapM_cons]
        exact (ihl _).trans (ih p s)
    cases hc : s.copies.get? id with
    | some new => rw [copyFrom_of_copied hc]
    | none =>
      rw [copyFrom_of_new hc]
      exact hall _ s

/-- a copy is made in the same environment -/
theorem environment_copy (a : Arena) (id : PlanId) : (a.copy id).2.environment = a.environment :=
  environment_copyFrom (a.size + 1) id ⟨a, ∅⟩

end Arena

namespace Outcomes

theorem environment_copyOf (node : Option PlanId) (a : Arena) : (copyOf node a).2.environment = a.environment := by
  cases node with
  | none => rfl
  | some id => exact Arena.environment_copy a id

theorem environment_store (m : Outcomes) (key : SearchKey) (node : Option PlanId) (a : Arena) :
    (m.store key node a).2.environment = a.environment := environment_copyOf node a

theorem environment_lookUp (m : Outcomes) (key : SearchKey) (a : Arena) :
    (m.lookUp key a).2.environment = a.environment := by
  rw [lookUp]
  split
  · rfl
  · exact environment_copyOf _ a

end Outcomes

/-! ## Steps that agree -/

/-- two steps do the same wherever the scene is the given one; the scene stays, and what they return has a property -/
def Agree {α : Type} (w : Scene) (x y : Planning α) (Q : α → Prop := fun _ => True) : Prop :=
  ∀ p : Planner, p.scene = w → x.run p = y.run p ∧ (x.run p).2.scene = w ∧ ∀ v, (x.run p).1 = .ok v → Q v

namespace Agree

variable {α β : Type} {w : Scene} {x y : Planning α} {f g : α → Planning β} {Q : α → Prop} {R : β → Prop} {id : PlanId}

theorem pure {v : α} (h : Q v) : Agree w (Pure.pure v) (Pure.pure v) Q :=
  fun _ hp => ⟨rfl, hp, fun _ e => Except.ok.inj e ▸ h⟩

theorem throw {e : PlanningError} : Agree w (MonadExcept.throw e) (MonadExcept.throw e) Q :=
  fun _ hp => ⟨rfl, hp, fun _ h => by cases h⟩

theorem lift {v : Except PlanningError α} (h : ∀ u, v = .ok u → Q u) :
    Agree w (liftM v : Planning α) (liftM v) Q := fun _ hp => ⟨rfl, hp, h⟩

theorem mono {Q' : α → Prop} (h : Agree w x y Q) (hq : ∀ v, Q v → Q' v) : Agree w x y Q' :=
  fun p hp => ⟨(h p hp).1, (h p hp).2.1, fun v hv => hq v ((h p hp).2.2 v hv)⟩

theorem symm (h : Agree w x y Q) : Agree w y x Q := fun p hp => by
  obtain ⟨he, hs, hQ⟩ := h p hp
  exact ⟨he.symm, he ▸ hs, he ▸ hQ⟩

theorem trans {z : Planning α} (h : Agree w x y Q) (h' : Agree w y z Q) : Agree w x z Q := fun p hp =>
  ⟨(h p hp).1.trans (h' p hp).1, (h p hp).2⟩

theorem bind (h : Agree w x y Q) (hn : ∀ v, Q v → Agree w (f v) (g v) R) : Agree w (x >>= f) (y >>= g) R := by
  intro p hp
  obtain ⟨he, hs, hQ⟩ := h p hp
  rw [Arena.run_bind, Arena.run_bind, ← he]
  rcases hx : x.run p with ⟨e | v, q⟩
  · rw [hx] at hs
    exact ⟨rfl, hs, fun v hv => by cases hv⟩
  · rw [hx] at hs hQ
    exact hn v (hQ v rfl) q hs

theorem map {f : α → β} (h : Agree w x y Q) : Agree w (f <$> x) (f <$> y) := by
  rw [map_eq_pure_bind, map_eq_pure_bind]
  exact h.bind fun _ _ => .pure trivial

/-- the state may be read, and is one of the scene -/
theorem get {f g : Planner → Planning β} (h : ∀ p : Planner, p.scene = w → Agree w (f p) (g p) R) :
    Agree w (MonadStateOf.get >>= f) (MonadStateOf.get >>= g) R := fun p hp => h p hp p hp

theorem environment {f g : Environment → Planning β} (h : Agree w (f w.environment) (g w.environment) R) :
    Agree w (Planning.environment >>= f) (Planning.environment >>= g) R := by
  intro p hp
  cases hp
  exact h p rfl

theorem core {f g : NodeCore → Planning β} (h : ∀ c, Agree w (f c) (g c) R) :
    Agree w (Planning.core id >>= f) (Planning.core id >>= g) R := fun p hp => h _ p hp

theorem conceptsFor (σ : Scope w.environment) (addresses : List String) :
    Agree w (Planning.conceptsFor addresses) (Planning.conceptsFor addresses) σ.KnowsAll :=
  .environment (.lift fun _ h => Scope.knows_conceptsFor h)

/-! ## Steps without a search -/

/-- a step that leaves the environment and the settings alone agrees with itself -/
theorem steady (h : ∀ p : Planner, (x.run p).2.scene = p.scene) : Agree w x x := fun p hp =>
  ⟨rfl, (h p).trans hp, fun _ _ => trivial⟩

theorem insert (kind : NodeKind) (c : NodeCore) : Agree w (Planning.insert kind c) (Planning.insert kind c) :=
  .steady fun _ => rfl

theorem edit {change : Arena → Arena} (h : ∀ a, (change a).environment = a.environment) :
    Agree w (Planning.edit change) (Planning.edit change) :=
  .steady fun p => congrArg (Scene.mk · p.settings) (h p.arena)

theorem resolving {step : Arena.Resolving α} (h : ∀ env, Arena.Yields (fun a => a.environment = env) step Q) :
    Agree w (Planning.resolving step) (Planning.resolving step) Q := by
  intro p hp
  obtain ⟨he, hQ⟩ := h p.arena.environment p.arena rfl
  exact ⟨rfl, (congrArg (Scene.mk · p.settings) he).trans hp, hQ⟩

theorem resolve (id : PlanId) : Agree w (Planning.resolve id) (Planning.resolve id) :=
  .resolving fun _ a ha => Arena.resolveWithin_environment (a.size + 1) id a ha

theorem addParents (id : PlanId) (ps : List PlanId) :
    Agree w (Planning.addParents id ps) (Planning.addParents id ps) := by
  refine .get fun p hp => .bind (.lift (Q := fun b => b.environment = w.environment) fun b hb => ?_) fun b hb => ?_
  · rw [Arena.addParents] at hb
    split at hb
    · cases hb
    · cases hb
      exact congrArg Scene.environment hp
  · refine fun q hq => ⟨rfl, ?_, fun _ _ => trivial⟩
    cases hq
    exact congrArg (Scene.mk · q.settings) hb

theorem during {key : SearchKey} (h : Agree w x y Q) :
    Agree w (Planning.during key x) (Planning.during key y) Q := by
  intro p hp
  obtain ⟨he, hs, hQ⟩ := h { p with history := p.history.start key } hp
  refine ⟨?_, hs, hQ⟩
  exact congrArg (fun o => (o.1, { o.2 with history := o.2.history.finish key })) he

theorem recallSearch (key : SearchKey) : Agree w (Planning.recallSearch key) (Planning.recallSearch key) :=
  .steady fun p => congrArg (Scene.mk · p.settings) (p.history.searches.environment_lookUp key p.arena)

theorem storeSearch (key : SearchKey) (node : Option PlanId) :
    Agree w (Planning.storeSearch key node) (Planning.storeSearch key node) :=
  .steady fun p => congrArg (Scene.mk · p.settings) (p.history.searches.environment_store key node p.arena)

theorem recallMatch (key : SearchKey) : Agree w (Planning.recallMatch key) (Planning.recallMatch key) :=
  .steady fun p => congrArg (Scene.mk · p.settings) (p.history.matched.environment_lookUp key p.arena)

theorem storeMatch (key : SearchKey) (node : Option PlanId) :
    Agree w (Planning.storeMatch key node) (Planning.storeMatch key node) :=
  .steady fun p => congrArg (Scene.mk · p.settings) (p.history.matched.environment_store key node p.arena)

/-! ## Lists of steps -/

theorem forIn {l : List β} {f g : β → Planning PUnit} (h : ∀ b ∈ l, Agree w (f b) (g b)) :
    Agree w (ForIn.forIn l PUnit.unit fun b _ => do
      f b
      Pure.pure (ForInStep.yield PUnit.unit)) (ForIn.forIn l PUnit.unit fun b _ => do
      g b
      Pure.pure (ForInStep.yield PUnit.unit)) := by
  induction l with
  | nil => exact .pure trivial
  | cons b l ih =>
    obtain ⟨hb, hl⟩ := List.forall_mem_cons.1 h
    rw [List.forIn_cons, List.forIn_cons]
    simp only [bind_assoc, pure_bind]
    exact hb.bind fun _ _ => ih hl

theorem mapM {l : List β} {f g : β → Planning α} (h : ∀ b ∈ l, Agree w (f b) (g b) Q) :
    Agree w (l.mapM f) (l.mapM g) fun vs => ∀ v ∈ vs, Q v := by
  induction l with
  | nil =>
    rw [List.mapM_nil, List.mapM_nil]
    exact .pure fun v hv => absurd hv List.not_mem_nil
  | cons b l ih =>
    obtain ⟨hb, hl⟩ := List.forall_mem_cons.1 h
    rw [List.mapM_cons, List.mapM_cons]
    exact hb.bind fun v hv => (ih hl).bind fun vs hvs => .pure (List.forall_mem_cons.2 ⟨hv, hvs⟩)

end Agree

end SemanticPlanner
