/-
A copy and its original do not see each other's changes.

  Edit, Edits        one operation of an arena, and several, that change nodes of a set only
  Edit.spares        every other node is as it was
  Edits.resolve      a node resolves as before if nothing that it depends on is changed
  Built.copy_isolated
                     a copy resolves as its original, but for the names in the error of joins without an order, and
                     changes to either do not show in the other

What a node resolves to is told by the node and all it depends on. A copy depends on new nodes only, and its original
on old ones only, so that a change to what the one depends on is no change to what the other depends on.
-/
import SemanticPlanner.Proofs.Transparency

namespace SemanticPlanner.Arena

variable {a b c : Arena} {S : Set PlanId} {id x : PlanId}

/-! ## Edits -/

/-- an operation on an arena that changes a node of a set, adds nodes or resolves -/
inductive Edit (S : Set PlanId) : Arena → Arena → Prop
  | insert {a : Arena} {n : PlanNode} (hn : ∀ p ∈ n.core.parents, a.contains p = true) : Edit S a (a.insert n).2
  | change {a : Arena} {id : PlanId} {f : NodeCore → NodeCore} (hid : id ∈ S) (hf : ∀ c, (f c).parents = c.parents) :
      Edit S a (a.change id f)
  | addParents {a b : Arena} {id : PlanId} {ps : List PlanId} (hid : id ∈ S) (hp : ∀ p ∈ ps, a.contains p = true)
      (hb : a.addParents id ps = .ok b) : Edit S a b
  | copy {a : Arena} {id : PlanId} (hid : a.contains id = true) : Edit S a (a.copy id).2
  | resolve {a : Arena} {id : PlanId} : Edit S a (a.resolve id).2
  | rebuild {a : Arena} {id : PlanId} : Edit S a (a.rebuild id).2

/-- operations one after the other -/
abbrev Edits (S : Set PlanId) : Arena → Arena → Prop := Relation.ReflTransGen (Edit S)

/-- the nodes outside a set are as they were -/
structure Spares (S : Set PlanId) (a b : Arena) : Prop where
  environment : b.environment = a.environment
  contains : ∀ x, a.contains x = true → b.contains x = true
  node : ∀ x, a.contains x = true → x ∉ S → b.node x = a.node x

namespace Spares

theorem refl (a : Arena) : Spares S a a := ⟨rfl, fun _ h => h, fun _ _ _ => rfl⟩

theorem trans (h : Spares S a b) (h' : Spares S b c) : Spares S a c :=
  ⟨h'.environment.trans h.environment, fun x hx => h'.contains x (h.contains x hx),
    fun x hx hS => (h'.node x (h.contains x hx) hS).trans (h.node x hx hS)⟩

theorem of_extends (h : a.Extends b) : Spares S a b :=
  ⟨h.environment, fun _ hx => h.contains hx, fun _ hx _ => h.node hx⟩

theorem of_sameNodes (h : a.SameNodes b) : Spares S a b :=
  ⟨h.environment, fun x hx => (h.contains x).trans hx, fun x _ _ => h.node x⟩

theorem of_change {f : NodeCore → NodeCore} (hid : id ∈ S) : Spares S a (a.change id f) :=
  ⟨rfl, fun _ hx => (contains_change f).trans hx, fun _ _ hS => node_change_of_ne f fun e => hS (e ▸ hid)⟩

/-- a node with nothing below it in the set is as it was, with all it depends on -/
theorem agreeBelow (h : Spares S a b) (ha : a.WellFormed) (hid : a.contains id = true)
    (hS : ∀ x, a.Below id x → x ∉ S) : a.AgreeBelow b id := by
  intro x hx
  refine h.node x ?_ (hS x hx)
  rcases hx with rfl | hx
  · exact hid
  · exact contains_of_dependsOn ha hx

end Spares

theorem rebuild_sameNodes (ha : a.Consistent) : a.SameNodes (a.rebuild id).2 :=
  SameNodes.forget.trans (resolve_keeps ha.forget id).1

theorem Edit.built (ha : a.Built) (h : Edit S a b) : b.Built := by
  cases h with
  | insert hn => exact ha.insert hn
  | change _ hf => exact ha.change hf
  | addParents _ hp hb => exact ha.addParents hp hb
  | copy hid => exact ha.copy hid
  | resolve => exact ha.resolve
  | rebuild => exact ha.rebuild

/-- **an operation leaves every node outside its set as it was** -/
theorem Edit.spares (ha : a.Built) (h : Edit S a b) : Spares S a b := by
  cases h with
  | insert _ => exact .of_extends (.append _)
  | change hid _ => exact .of_change hid
  | addParents hid _ hb =>
    obtain ⟨rfl, -⟩ := addParents_eq_ok ha.consistent.wellFormed hb
    exact .of_change hid
  | copy hid => exact .of_extends (copy_extends ha.consistent hid)
  | @resolve id => exact .of_sameNodes (resolve_keeps ha.consistent id).1
  | rebuild => exact .of_sameNodes (rebuild_sameNodes ha.consistent)

theorem Edits.spares (ha : a.Built) (h : Edits S a b) : b.Built ∧ Spares S a b := by
  induction h with
  | refl => exact ⟨ha, .refl a⟩
  | tail _ h ih => exact ⟨h.built ih.1, ih.2.trans (h.spares ih.1)⟩

/-- a node resolves alike in built arenas that agree on all it depends on -/
theorem Built.resolve_congr (ha : a.Built) (hb : b.Built) (he : b.environment = a.environment)
    (h : a.AgreeBelow b id) (hj : a.JoinsBelow id) : (b.resolve id).1 = (a.resolve id).1 := by
  rw [ha.resolve_eq hj, hb.resolve_eq (h.joinsBelow hj),
    resolveFresh_congr ha.consistent.wellFormed hb.consistent.wellFormed he h hj]

/-- **a node resolves as before if nothing that it depends on was changed** -/
theorem Edits.resolve (ha : a.Built) (h : Edits S a b) (hid : a.contains id = true) (hj : a.JoinsBelow id)
    (hS : ∀ x, a.Below id x → x ∉ S) : (b.resolve id).1 = (a.resolve id).1 := by
  obtain ⟨hb, hspares⟩ := Edits.spares ha h
  exact ha.resolve_congr hb hspares.environment (hspares.agreeBelow ha.consistent.wellFormed hid hS) hj

/-! ## Copies -/

/-- a node and its image in a built arena resolve alike -/
theorem Mirrors.resolve {f : PlanId → PlanId} (h : Mirrors a b f id) (ha : a.Built) (hb : b.Built)
    (hj : a.JoinsBelow id) : Alike f (a.resolve id).1 (b.resolve (f id)).1 := by
  rw [ha.resolve_eq hj, hb.resolve_eq (h.joinsBelow hj)]
  exact h.resolveFresh ha.consistent.wellFormed hb.consistent.wellFormed hj

/-- what a copy shares with its original, and what it does not -/
structure Isolated (a b : Arena) (f : PlanId → PlanId) (id : PlanId) : Prop where
  copies : CopiesOnto a b f id
  /-- it resolves as its original, of which nothing has changed -/
  resolve : Alike f (a.resolve id).1 (b.resolve (f id)).1 ∧ (b.resolve id).1 = (a.resolve id).1
  /-- changes to nodes that the original does not depend on do not show in it -/
  original : ∀ c, Edits {x | ¬ b.Below id x} b c → (c.resolve id).1 = (b.resolve id).1
  /-- changes to nodes that the copy does not depend on do not show in it -/
  copy : ∀ c, Edits {x | ¬ b.Below (f id) x} b c → (c.resolve (f id)).1 = (b.resolve (f id)).1
  /-- nothing is below both -/
  disjoint : ∀ x, b.Below id x → ¬ b.Below (f id) x

/-- **a copy is isolated from its original** -/
theorem Built.copy_isolated (ha : a.Built) (hid : a.contains id = true) (hj : a.JoinsBelow id) :
    ∃ f, f id = (a.copy id).1 ∧ Isolated a (a.copy id).2 f id := by
  obtain ⟨f, hf, hc⟩ := copy_copiesOnto ha.consistent hid hj
  have hb : (a.copy id).2.Built := ha.copy hid
  have hwf := ha.consistent.wellFormed
  set b := (a.copy id).2
  have hagree : a.AgreeBelow b id :=
    (Spares.of_extends (S := ∅) hc.extended).agreeBelow hwf hid fun x _ => Set.notMem_empty x
  have hnew : ∀ x, b.Below (f id) x → b.contains x = true ∧ a.contains x = false := by
    intro x hx
    obtain ⟨y, hy, rfl⟩ := hc.mirrors.of_below_image hx
    exact hc.onto.mapsTo hy
  refine ⟨f, hf, hc, ⟨hc.mirrors.resolve ha hb hj, ha.resolve_congr hb hc.extended.environment hagree hj⟩,
    fun c h => ?_, fun c h => ?_, fun x hx hx' => ?_⟩
  · exact h.resolve hb (hc.extended.contains hid) (hagree.joinsBelow hj) fun x hx h => h hx
  · exact h.resolve hb (hnew _ (Or.inl rfl)).1 (hc.mirrors.joinsBelow hj) fun x hx h => h hx
  · have hold : a.contains x = true := by
      rcases hx with rfl | hx
      · exact hid
      · exact contains_of_dependsOn hwf (hagree.dependsOn.1 hx)
    rw [(hnew x hx').2] at hold
    exact absurd hold (by simp)

end SemanticPlanner.Arena
