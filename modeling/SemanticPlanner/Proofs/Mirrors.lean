/-
Plans of the same shape resolve alike.

  JoinsParents     the explicit joins of a merge name its parents
  Mirrors          a renaming that carries a node and everything below it onto nodes of the same content
  round            one round of resolving a node, given how the nodes it names resolve
  Mirrors.fresh    a node and its image resolve alike, given more rounds than they have ancestors
  freshWithin_eq   so the rounds do not matter, and a node resolves by its rule from what its parents resolve to

The induction is on the rounds: each goes from a node to its parents, which have fewer ancestors.
-/
import SemanticPlanner.Proofs.Memo
import SemanticPlanner.Proofs.Renaming

namespace SemanticPlanner.Arena

variable {a b c : Arena} {f g : PlanId → PlanId} {id p x y : PlanId} {r : Relation}

/-- the node itself, or one that it depends on -/
abbrev Below (a : Arena) (id x : PlanId) : Prop := x = id ∨ a.DependsOn id x

theorem Below.trans (h : a.Below id x) (h' : a.Below x y) : a.Below id y := by
  rcases h with rfl | h
  · exact h'
  · rcases h' with rfl | h'
    · exact Or.inr h
    · exact Or.inr (h.trans h')

theorem Below.parent (h : a.Below id x) (hp : p ∈ a.parents x) : a.Below id p := h.trans (Or.inr (.of_parent hp))

/-- the explicit joins of a node name its parents -/
def JoinsParents (a : Arena) (x : PlanId) : Prop :=
  ∀ j ∈ (a.node x).kind.joins, j.left ∈ a.parents x ∧ j.right ∈ a.parents x

instance : Decidable (a.JoinsParents x) := inferInstanceAs (Decidable (∀ j ∈ _, _))

/-- what is not in an arena has no joins -/
theorem joinsParents_of_ids (h : ∀ x ∈ a.ids, a.JoinsParents x) (x : PlanId) : a.JoinsParents x := by
  by_cases hx : a.contains x = true
  · exact h x (mem_ids.2 hx)
  · intro j hj
    rw [node, slot_eq_default (by simpa using hx)] at hj
    exact absurd hj List.not_mem_nil

/-- so do those of all it depends on -/
def JoinsBelow (a : Arena) (id : PlanId) : Prop := ∀ x, a.Below id x → a.JoinsParents x

theorem JoinsBelow.of_below (h : a.JoinsBelow id) (hx : a.Below id x) : a.JoinsBelow x :=
  fun y hy => h y (hx.trans hy)

/-! ## Mirrored plans -/

/-- `f` carries a node and everything below it onto nodes that differ in the names of parents and joined nodes only -/
structure Mirrors (a b : Arena) (f : PlanId → PlanId) (id : PlanId) : Prop where
  environment : b.environment = a.environment
  injective : Set.InjOn f {x | a.Below id x}
  node : ∀ x, a.Below id x → b.node (f x) = (a.node x).rename f

namespace Mirrors

theorem parents (h : Mirrors a b f id) (hx : a.Below id x) : b.parents (f x) = (a.parents x).map f := by
  rw [Arena.parents, core, h.node x hx]
  rfl

theorem of_below (h : Mirrors a b f id) (hx : a.Below id x) : Mirrors a b f x :=
  ⟨h.environment, fun _ hy _ hz e => h.injective (hx.trans hy) (hx.trans hz) e, fun y hy => h.node y (hx.trans hy)⟩

/-- what a node depends on is carried below its image -/
theorem below (h : Mirrors a b f id) (hx : a.Below id x) : b.Below (f id) (f x) := by
  rcases hx with rfl | hx
  · exact Or.inl rfl
  · induction hx with
    | single hp =>
      refine Or.inr (.of_parent ?_)
      rw [h.parents (Or.inl rfl)]
      exact List.mem_map_of_mem hp
    | tail hd hp ih =>
      refine ih.parent ?_
      rw [h.parents (Or.inr hd)]
      exact List.mem_map_of_mem hp

/-- nothing else is below the image -/
theorem of_below_image (h : Mirrors a b f id) (hy : b.Below (f id) y) : ∃ x, a.Below id x ∧ y = f x := by
  have hstep : ∀ x, a.Below id x → ∀ z ∈ b.parents (f x), ∃ w, a.Below id w ∧ z = f w := by
    intro x hx z hz
    rw [h.parents hx] at hz
    obtain ⟨w, hw, rfl⟩ := List.mem_map.1 hz
    exact ⟨w, hx.parent hw, rfl⟩
  rcases hy with rfl | hy
  · exact ⟨id, Or.inl rfl, rfl⟩
  · induction hy with
    | single hz => exact hstep id (Or.inl rfl) _ hz
    | tail _ hz ih =>
      obtain ⟨x, hx, rfl⟩ := ih
      exact hstep x hx _ hz

theorem trans (h : Mirrors a b f id) (h' : Mirrors b c g (f id)) : Mirrors a c (g ∘ f) id := by
  refine ⟨h'.environment.trans h.environment, fun x hx y hy e => ?_, fun x hx => ?_⟩
  · exact h.injective hx hy (h'.injective (h.below hx) (h.below hy) e)
  · rw [Function.comp_apply, h'.node _ (h.below hx), h.node x hx, PlanNode.rename_rename]

theorem of_agreeBelow (he : b.environment = a.environment) (h : a.AgreeBelow b id) : Mirrors a b (fun x => x) id :=
  ⟨he, fun _ _ _ _ e => e, fun x hx => (h x hx).trans (PlanNode.rename_id _).symm⟩

theorem joinsParents (h : Mirrors a b f id) (hx : a.Below id x) (hj : a.JoinsParents x) : b.JoinsParents (f x) := by
  intro j hmem
  rw [h.node x hx, PlanNode.rename, NodeKind.joins_renameJoins] at hmem
  obtain ⟨i, hi, rfl⟩ := List.mem_map.1 hmem
  rw [h.parents hx]
  exact ⟨List.mem_map_of_mem (hj i hi).1, List.mem_map_of_mem (hj i hi).2⟩

theorem joinsBelow (h : Mirrors a b f id) (hj : a.JoinsBelow id) : b.JoinsBelow (f id) := by
  intro y hy
  obtain ⟨x, hx, rfl⟩ := h.of_below_image hy
  exact h.joinsParents hx (hj x hx)

end Mirrors

theorem AgreeBelow.joinsBelow (h : a.AgreeBelow b id) (hj : a.JoinsBelow id) : b.JoinsBelow id := by
  intro x hx
  have hx' : a.Below id x := hx.imp_right h.dependsOn.1
  rw [JoinsParents, h x hx', h.parents hx']
  exact hj x hx'

/-! ## Rounds -/

/-- an explicit join with what its two sides resolve to by `step` -/
def nameJoin (step : PlanId → Except PlanningError Relation) (j : NodeJoin) :
    Except PlanningError Resolve.NamedJoin := do
  let l ← step j.left
  let r ← step j.right
  pure ⟨j, l.identifier, r.identifier⟩

/-- one round of resolving a node, `step` being how the nodes resolve that it names -/
def round (a : Arena) (step : PlanId → Except PlanningError Relation) (id : PlanId) :
    Except PlanningError Relation := do
  let parents ← (a.parents id).mapM step
  let joins ← (a.node id).kind.joins.mapM (nameJoin step)
  Resolve.node a.environment (a.node id) parents joins

theorem freshWithin_succ (n : Nat) : a.freshWithin (n + 1) id = a.round (a.freshWithin n) id := rfl

variable {step step' : PlanId → Except PlanningError Relation}

/-- the joins that were named are the explicit ones -/
theorem map_join_of_nameJoin {js : List NodeJoin} {joins : List Resolve.NamedJoin}
    (h : js.mapM (nameJoin step) = .ok joins) : joins.map Resolve.NamedJoin.join = js := by
  induction js generalizing joins with
  | nil =>
    cases h
    rfl
  | cons j js ih =>
    rw [List.mapM_cons] at h
    obtain ⟨n, hn, h⟩ := Resolve.bind_eq_ok h
    obtain ⟨ns, hns, h⟩ := Resolve.bind_eq_ok h
    obtain ⟨l, hl, hn⟩ := Resolve.bind_eq_ok hn
    obtain ⟨r, hr, hn⟩ := Resolve.bind_eq_ok hn
    cases hn
    cases h
    rw [List.map_cons, ih hns]

theorem Mirrors.round (h : Mirrors a b f id) (hj : a.JoinsParents id)
    (hs : ∀ p ∈ a.parents id, Alike f (step p) (step' (f p))) :
    Alike f (a.round step id) (b.round step' (f id)) := by
  have hself : a.Below id id := Or.inl rfl
  rw [Arena.round, Arena.round, h.parents hself, h.node id hself, h.environment]
  refine (Renamed.mapM_alike hs).bind fun rs _ => ?_
  rw [PlanNode.rename, NodeKind.joins_renameJoins]
  refine (Renamed.mapM (g := Resolve.NamedJoin.rename f) fun j hmem => ?_).bind fun joins hjoins => ?_
  · refine (hs _ (hj j hmem).1).bind fun l _ => ?_
    exact (hs _ (hj j hmem).2).bind fun r _ => .ok _
  · refine Resolve.node_rename h.injective ?_
    rw [map_join_of_nameJoin hjoins]
    exact fun j hmem => ⟨hself.parent (hj j hmem).1, hself.parent (hj j hmem).2⟩

/-- **a node and its image resolve alike**, given more rounds than they have ancestors -/
theorem Mirrors.fresh {m n : Nat} (ha : a.WellFormed) (hb : b.WellFormed) (h : Mirrors a b f id) (hj : a.JoinsBelow id)
    (hm : a.height id < m) (hn : b.height (f id) < n) :
    Alike f (a.freshWithin m id) (b.freshWithin n (f id)) := by
  induction m generalizing id n with
  | zero => exact absurd hm (Nat.not_lt_zero _)
  | succ m ih =>
    obtain ⟨n, rfl⟩ : ∃ k, n = k + 1 := ⟨n - 1, by omega⟩
    rw [freshWithin_succ, freshWithin_succ]
    refine h.round (hj id (Or.inl rfl)) fun p hp => ?_
    have hbelow : a.Below id p := Or.inr (.of_parent hp)
    have hp' : f p ∈ b.parents (f id) := by
      rw [h.parents (Or.inl rfl)]
      exact List.mem_map_of_mem hp
    have := height_lt ha hp
    have := height_lt hb hp'
    exact ih (h.of_below hbelow) (hj.of_below hbelow) (by omega) (by omega)

/-- a node resolves anew as its image does -/
theorem Mirrors.resolveFresh (ha : a.WellFormed) (hb : b.WellFormed) (h : Mirrors a b f id) (hj : a.JoinsBelow id) :
    Alike f (a.resolveFresh id) (b.resolveFresh (f id)) :=
  h.fresh ha hb hj (Nat.lt_succ_of_le (height_le ha)) (Nat.lt_succ_of_le (height_le hb))

/-- a node resolves anew alike in arenas that agree on all it depends on -/
theorem resolveFresh_congr (ha : a.WellFormed) (hb : b.WellFormed) (he : b.environment = a.environment)
    (h : a.AgreeBelow b id) (hj : a.JoinsBelow id) : b.resolveFresh id = a.resolveFresh id :=
  ((Mirrors.of_agreeBelow he h).resolveFresh ha hb hj).eq

/-- **the rounds do not matter** beyond the number of ancestors -/
theorem freshWithin_eq (ha : a.WellFormed) (hj : a.JoinsBelow id) {n : Nat} (hn : a.height id < n) :
    a.freshWithin n id = a.resolveFresh id :=
  ((Mirrors.of_agreeBelow rfl fun _ _ => rfl).fresh ha ha hj (Nat.lt_succ_of_le (height_le ha)) hn).eq

/-- a node resolves by its rule from what its parents and joined nodes resolve to -/
theorem resolveFresh_eq_round (ha : a.WellFormed) (hj : a.JoinsBelow id) :
    a.resolveFresh id = a.round a.resolveFresh id := by
  have hround : Alike (fun x => x) (a.round a.resolveFresh id) (a.round (a.freshWithin a.size) id) := by
    refine (Mirrors.of_agreeBelow rfl fun _ _ => rfl).round (hj id (Or.inl rfl)) fun p hp => ?_
    have hlt := Nat.lt_of_lt_of_le (height_lt ha hp) (height_le ha)
    have hjp : a.JoinsBelow p := hj.of_below (Or.inr (.of_parent hp))
    rw [freshWithin_eq ha hjp hlt]
    exact (Mirrors.of_agreeBelow rfl fun _ _ => rfl).resolveFresh ha ha hjp
  rw [resolveFresh, freshWithin_succ]
  exact hround.eq

end SemanticPlanner.Arena
