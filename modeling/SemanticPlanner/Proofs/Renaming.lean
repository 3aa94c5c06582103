/-
What the rules of resolution make of a plan whose nodes are numbered otherwise.

  Renamed, Alike    the outcome of a step, and that of the same step over renamed nodes
  order_rename      explicit joins are ordered alike under every renaming that keeps the joined nodes apart
  alike_base, alike_select, alike_group, alike_unnest
                    no other rule fails for want of an order of joins
  explicitJoins_rename, merge_rename
                    a merge joins the same relations
  node_rename       the rule of a renamed node has the outcome of the rule of the node

Only the error of joins that cannot be ordered says which nodes it is about, so it is the only outcome that a renaming
can be seen in.
-/
import SemanticPlanner.Plan.Copy
import SemanticPlanner.Proofs.Rules
import Mathlib.Data.List.Find
import Mathlib.Data.Set.Function
import Mathlib.Tactic.Set

namespace SemanticPlanner

/-! ## Renamed nodes -/

/-- the images of the members of a set -/
def SortedSet.image {α β : Type} [Sorts α] [Sorts β] (f : α → β) (s : SortedSet α) : SortedSet β :=
  SortedSet.ofList (s.toList.map f)

theorem SortedSet.mem_image {α β : Type} [Sorts α] [Sorts β] {f : α → β} {s : SortedSet α} {y : β} :
    y ∈ s.image f ↔ ∃ x ∈ s, f x = y := by
  rw [image, mem_ofList, List.mem_map]
  rfl

theorem SortedSet.image_id {α : Type} [Sorts α] (s : SortedSet α) : s.image (fun x => x) = s :=
  SortedSet.ext fun x => by rw [mem_image]; exact ⟨fun ⟨_, hy, e⟩ => e ▸ hy, fun hx => ⟨x, hx, rfl⟩⟩

def NodeJoin.rename (f : PlanId → PlanId) (j : NodeJoin) : NodeJoin := { j with left := f j.left, right := f j.right }

theorem NodeKind.joins_renameJoins (k : NodeKind) (f : PlanId → PlanId) :
    (k.renameJoins f).joins = k.joins.map (.rename f) := by
  cases k with
  | merge joins => cases joins <;> rfl
  | _ => rfl

/-- a node with its parents and explicit joins renamed -/
def PlanNode.rename (f : PlanId → PlanId) (n : PlanNode) : PlanNode :=
  ⟨n.kind.renameJoins f, { n.core with parents := n.core.parents.map f }⟩

namespace NodeKind

theorem renameJoins_id (k : NodeKind) : k.renameJoins (fun x => x) = k := by
  cases k with
  | merge joins =>
    cases joins with
    | none => rfl
    | some js => exact congrArg (fun l => merge (some l)) (List.map_id js)
  | _ => rfl

theorem renameJoins_renameJoins (k : NodeKind) (f g : PlanId → PlanId) :
    (k.renameJoins f).renameJoins g = k.renameJoins (g ∘ f) := by
  cases k with
  | merge joins =>
    cases joins with
    | none => rfl
    | some js => exact congrArg (fun l => merge (some l)) List.map_map
  | _ => rfl

/-- only the joined nodes matter -/
theorem renameJoins_congr {k : NodeKind} {f g : PlanId → PlanId}
    (h : ∀ j ∈ k.joins, f j.left = g j.left ∧ f j.right = g j.right) : k.renameJoins f = k.renameJoins g := by
  cases k with
  | merge joins =>
    cases joins with
    | none => rfl
    | some js =>
      refine congrArg (fun l => merge (some l)) (List.map_congr_left fun j hj => ?_)
      rw [(h j hj).1, (h j hj).2]
  | _ => rfl

end NodeKind

namespace PlanNode

theorem rename_id (n : PlanNode) : n.rename (fun x => x) = n := by
  rw [rename, NodeKind.renameJoins_id, List.map_id']

theorem rename_rename (n : PlanNode) (f g : PlanId → PlanId) : (n.rename f).rename g = n.rename (g ∘ f) := by
  simp only [rename, NodeKind.renameJoins_renameJoins, List.map_map]

end PlanNode

/-- what a step has come to, and what the same step over renamed nodes has come to: `g` of what the first returned, or
its error, except that the error of joins without an order is about the renamed nodes -/
inductive Renamed {α β : Type} (f : PlanId → PlanId) (g : α → β) :
    Except PlanningError α → Except PlanningError β → Prop
  | ok (v : α) : Renamed f g (.ok v) (.ok (g v))
  | error (e : PlanningError) (he : ∀ lefts rights, e ≠ .joinOrder lefts rights) : Renamed f g (.error e) (.error e)
  | joinOrder (lefts rights : SortedSet PlanId) :
      Renamed f g (.error (.joinOrder (JoinOrder.idsText lefts) (JoinOrder.idsText rights)))
        (.error (.joinOrder (JoinOrder.idsText (lefts.image f)) (JoinOrder.idsText (rights.image f))))

/-- the same outcome, except that the error of joins without an order is about the renamed nodes -/
abbrev Alike {α : Type} (f : PlanId → PlanId) (v w : Except PlanningError α) : Prop := Renamed f id v w

namespace Renamed

variable {α β γ δ : Type} {f : PlanId → PlanId} {g : α → β} {h : γ → δ} {v : Except PlanningError α}
  {w : Except PlanningError β}

theorem bind {next : α → Except PlanningError γ} {next' : β → Except PlanningError δ} (hv : Renamed f g v w)
    (hn : ∀ x, v = .ok x → Renamed f h (next x) (next' (g x))) : Renamed f h (v >>= next) (w >>= next') := by
  cases hv with
  | ok x => exact hn x rfl
  | error e he => exact .error e he
  | joinOrder ls rs => exact .joinOrder ls rs

/-- a step that names no node, and what follows it -/
theorem bind_self {next : α → Except PlanningError γ} (hv : Alike f v v) (hn : ∀ x, Alike f (next x) (next x)) :
    Alike f (v >>= next) (v >>= next) :=
  hv.bind fun x _ => hn x

/-- a step taken for each item of a list, and for each of their images -/
theorem mapM {l : List γ} {image : γ → δ} {step : γ → Except PlanningError α} {step' : δ → Except PlanningError β}
    (hs : ∀ x ∈ l, Renamed f g (step x) (step' (image x))) :
    Renamed f (List.map g) (l.mapM step) ((l.map image).mapM step') := by
  induction l with
  | nil => exact .ok []
  | cons x l ih =>
    rw [List.map_cons, List.mapM_cons, List.mapM_cons]
    refine (hs x List.mem_cons_self).bind fun y _ => ?_
    refine (ih fun z hz => hs z (List.mem_cons_of_mem _ hz)).bind fun ys _ => ?_
    exact .ok (y :: ys)

theorem mapM_alike {l : List γ} {image : γ → δ} {step : γ → Except PlanningError α}
    {step' : δ → Except PlanningError α} (hs : ∀ x ∈ l, Alike f (step x) (step' (image x))) :
    Alike f (l.mapM step) ((l.map image).mapM step') := by
  have := mapM hs
  rwa [List.map_id_fun] at this

/-- nothing renamed, nothing changed -/
theorem eq {w : Except PlanningError α} (h : Alike (fun x => x) v w) : w = v := by
  cases h with
  | ok x => rfl
  | error e => rfl
  | joinOrder ls rs => rw [SortedSet.image_id, SortedSet.image_id]

end Renamed

/-! ## The order of joins -/

namespace JoinOrder

variable {f : PlanId → PlanId} {S : Set PlanId} {js : List NodeJoin} {j : NodeJoin} {x : PlanId} {s : Sweep}

/-- the joins are between nodes of a set -/
def Within (S : Set PlanId) (js : List NodeJoin) : Prop := ∀ j ∈ js, j.left ∈ S ∧ j.right ∈ S

theorem lefts_rename : lefts (js.map (.rename f)) = (lefts js).image f := by
  refine SortedSet.ext fun y => ?_
  simp only [lefts, SortedSet.mem_image, SortedSet.mem_ofList, List.mem_map, exists_exists_and_eq_and]
  rfl

theorem rights_rename : rights (js.map (.rename f)) = (rights js).image f := by
  refine SortedSet.ext fun y => ?_
  simp only [rights, SortedSet.mem_image, SortedSet.mem_ofList, List.mem_map, exists_exists_and_eq_and]
  rfl

theorem mem_image (hf : Set.InjOn f S) {s : SortedSet PlanId} (hs : ∀ y ∈ s, y ∈ S) (hx : x ∈ S) :
    f x ∈ s.image f ↔ x ∈ s := by
  rw [SortedSet.mem_image]
  exact ⟨fun ⟨y, hy, e⟩ => hf (hs y hy) hx e ▸ hy, fun h => ⟨x, h, rfl⟩⟩

theorem contains_image (hf : Set.InjOn f S) {s : SortedSet PlanId} (hs : ∀ y ∈ s, y ∈ S) (hx : x ∈ S) :
    (s.image f).contains (f x) = s.contains x := by
  rw [Bool.eq_iff_iff, SortedSet.contains_iff, SortedSet.contains_iff, mem_image hf hs hx]

theorem insert_image {s : SortedSet PlanId} : (s.image f).insert (f x) = (s.insert x).image f := by
  refine SortedSet.ext fun y => ?_
  simp only [SortedSet.mem_insert, SortedSet.mem_image, or_and_right, exists_or, exists_eq_left, @eq_comm _ y]

/-- joins between nodes that are kept apart are kept apart -/
theorem rename_inj (hf : Set.InjOn f S) {i : NodeJoin} (hi : i.left ∈ S ∧ i.right ∈ S) (hj : j.left ∈ S ∧ j.right ∈ S) :
    i.rename f = j.rename f ↔ i = j := by
  constructor
  · intro h
    simp only [NodeJoin.rename, NodeJoin.mk.injEq] at h
    obtain ⟨hleft, hright, hrest⟩ := h
    cases i
    cases j
    rw [NodeJoin.mk.injEq]
    exact ⟨hf hi.1 hj.1 hleft, hf hi.2 hj.2 hright, hrest⟩
  · rintro rfl
    rfl

def Sweep.rename (f : PlanId → PlanId) (s : Sweep) : Sweep :=
  ⟨s.ordered.map (.rename f), s.available.image f, s.remaining.map (.rename f)⟩

/-- a sweep that knows of nodes of a set only -/
structure Sweep.Within (S : Set PlanId) (s : Sweep) : Prop where
  ordered : JoinOrder.Within S s.ordered
  available : ∀ x ∈ s.available, x ∈ S
  remaining : JoinOrder.Within S s.remaining

theorem Within.concat (hjs : Within S js) (hj : j.left ∈ S ∧ j.right ∈ S) : Within S (js ++ [j]) := by
  intro i hi
  rcases List.mem_append.1 hi with hi | hi
  · exact hjs i hi
  · exact List.mem_singleton.1 hi ▸ hj

theorem Sweep.Within.place (hs : s.Within S) (hj : j.left ∈ S ∧ j.right ∈ S) : (place s j).Within S := by
  rw [JoinOrder.place]
  split
  · split
    · exact hs
    · refine ⟨hs.ordered.concat hj, fun x hx => ?_, hs.remaining⟩
      rcases SortedSet.mem_insert.1 hx with rfl | hx
      · exact hj.2
      · exact hs.available x hx
  · exact ⟨hs.ordered, hs.available, hs.remaining.concat hj⟩

theorem place_rename (hf : Set.InjOn f S) (hs : s.Within S) (hj : j.left ∈ S ∧ j.right ∈ S) :
    place (s.rename f) (j.rename f) = (place s j).rename f := by
  have hl : (s.rename f).available.contains (j.rename f).left = s.available.contains j.left :=
    contains_image hf hs.available hj.1
  have hr : (s.rename f).available.contains (j.rename f).right = s.available.contains j.right :=
    contains_image hf hs.available hj.2
  rw [place, place, hl, hr]
  split
  · split
    · rfl
    · simp only [Sweep.rename, List.map_append, List.map_cons, List.map_nil, ← insert_image]
      rfl
  · simp only [Sweep.rename, List.map_append, List.map_cons, List.map_nil]

theorem foldl_place_rename (hf : Set.InjOn f S) (hs : s.Within S) (hjs : Within S js) :
    (js.map (.rename f)).foldl place (s.rename f) = (js.foldl place s).rename f ∧ (js.foldl place s).Within S := by
  induction js generalizing s with
  | nil => exact ⟨rfl, hs⟩
  | cons j js ih =>
    have hj := hjs j List.mem_cons_self
    rw [List.map_cons, List.foldl_cons, List.foldl_cons, place_rename hf hs hj]
    exact ih (hs.place hj) fun i hi => hjs i (List.mem_cons_of_mem _ hi)

theorem sweep_rename (hf : Set.InjOn f S) (n : Nat) (hs : s.Within S) (hjs : Within S js) :
    Renamed f (List.map (.rename f)) (sweep n s js) (sweep n (s.rename f) (js.map (.rename f))) ∧
      ∀ o, sweep n s js = .ok o → Within S o := by
  induction n generalizing s js with
  | zero => exact ⟨.ok _, fun o h => Except.ok.inj h ▸ hs.ordered⟩
  | succ n ih =>
    have hstart : ({ s with remaining := [] } : Sweep).Within S :=
      ⟨hs.ordered, hs.available, fun j hj => absurd hj List.not_mem_nil⟩
    obtain ⟨ht, hwithin⟩ := foldl_place_rename hf hstart hjs
    set t := js.foldl place { s with remaining := [] } with htdef
    have ht' : (js.map (.rename f)).foldl place { s.rename f with remaining := [] } = t.rename f := ht
    have hempty : (t.rename f).remaining.isEmpty = t.remaining.isEmpty := List.isEmpty_map
    have hlength : (t.rename f).remaining.length = t.remaining.length := List.length_map _
    simp only [sweep, ← htdef, ht', hempty, hlength, List.length_map]
    split
    · exact ⟨.ok _, fun o h => Except.ok.inj h ▸ hwithin.ordered⟩
    · split
      · refine ⟨?_, fun o h => by cases h⟩
        rw [Sweep.rename, lefts_rename, rights_rename]
        exact .joinOrder _ _
      · exact ih hwithin hwithin.remaining

theorem Within.lefts (hjs : Within S js) : ∀ x ∈ lefts js, x ∈ S := by
  intro x hx
  obtain ⟨j, hj, rfl⟩ := List.mem_map.1 (SortedSet.mem_ofList.1 hx)
  exact (hjs j hj).1

theorem Within.rights (hjs : Within S js) : ∀ x ∈ rights js, x ∈ S := by
  intro x hx
  obtain ⟨j, hj, rfl⟩ := List.mem_map.1 (SortedSet.mem_ofList.1 hx)
  exact (hjs j hj).2

/-- the first join from a node that is never joined to another is the image of the first such join -/
theorem find?_rename (hf : Set.InjOn f S) (hjs : Within S js) :
    (js.map (NodeJoin.rename f)).find? (fun j => (((lefts js).image f).diff ((rights js).image f)).contains j.left) =
      (js.find? fun j => ((lefts js).diff (rights js)).contains j.left).map (.rename f) := by
  rw [List.find?_map]
  refine congrArg _ (List.find?_congr fun j hj => ?_)
  have hmem := (hjs j hj).1
  have hl : f j.left ∈ (lefts js).image f ↔ j.left ∈ lefts js := mem_image hf hjs.lefts hmem
  have hr : f j.left ∈ (rights js).image f ↔ j.left ∈ rights js := mem_image hf hjs.rights hmem
  show (((lefts js).image f).diff ((rights js).image f)).contains (f j.left) = _
  rw [Bool.eq_iff_iff, SortedSet.contains_iff, SortedSet.contains_iff, SortedSet.mem_diff, SortedSet.mem_diff, hl, hr]

/-- the sweep that a first join starts -/
def Sweep.start (j : NodeJoin) : Sweep := ⟨[j], SortedSet.ofList [j.left, j.right], []⟩

theorem Sweep.Within.start (hj : j.left ∈ S ∧ j.right ∈ S) : (Sweep.start j).Within S := by
  refine ⟨fun i hi => List.mem_singleton.1 hi ▸ hj, fun x hx => ?_, fun i hi => absurd hi List.not_mem_nil⟩
  have := SortedSet.mem_ofList.1 hx
  simp only [List.mem_cons, List.not_mem_nil, or_false] at this
  rcases this with rfl | rfl
  · exact hj.1
  · exact hj.2

theorem start_rename : (Sweep.start j).rename f = Sweep.start (j.rename f) := by
  have havailable : (SortedSet.ofList [j.left, j.right]).image f = SortedSet.ofList [f j.left, f j.right] := by
    refine SortedSet.ext fun y => ?_
    simp only [SortedSet.mem_image, SortedSet.mem_ofList, List.mem_cons, List.not_mem_nil, or_false,
      or_and_right, exists_or, exists_eq_left, eq_comm]
  rw [Sweep.rename, Sweep.start, havailable]
  rfl

theorem filter_ne_rename (hf : Set.InjOn f S) (hjs : Within S js) (hj : j.left ∈ S ∧ j.right ∈ S) :
    (js.map (.rename f)).filter (fun i => decide (i ≠ j.rename f)) =
      (js.filter fun i => decide (i ≠ j)).map (.rename f) := by
  rw [List.filter_map]
  refine congrArg _ (List.filter_congr fun i hi => ?_)
  simp only [Function.comp_apply, ne_eq, rename_inj hf (hjs i hi) hj]

/-- **joins are ordered alike** under a renaming that keeps the joined nodes apart -/
theorem order_rename (hf : Set.InjOn f S) (hjs : Within S js) :
    Renamed f (List.map (.rename f)) (order js) (order (js.map (.rename f))) ∧
      ∀ o, order js = .ok o → Within S o := by
  simp only [order, List.isEmpty_map, lefts_rename, rights_rename, find?_rename hf hjs, List.length_map]
  split
  · exact ⟨.ok [], fun o h => Except.ok.inj h ▸ fun j hj => absurd hj List.not_mem_nil⟩
  · cases hb : js.find? fun j => ((lefts js).diff (rights js)).contains j.left with
    | none => exact ⟨.joinOrder _ _, fun o h => by cases h⟩
    | some base =>
      have hbase := hjs base (List.mem_of_find?_eq_some hb)
      have hothers : Within S (js.filter fun j => decide (j ≠ base)) := fun j hj => hjs j (List.mem_filter.1 hj).1
      have hsweep := sweep_rename hf (js.length + 1) (.start hbase) hothers
      rw [start_rename, ← filter_ne_rename hf hjs hbase] at hsweep
      exact hsweep

end JoinOrder

/-! ## Steps that name no node

A step that is alike to itself, whatever the renaming, does not fail for want of an order of joins. -/

section

variable {f : PlanId → PlanId} {env : Environment} {addresses : List String}

theorem Environment.alike_conceptsFor : Alike f (env.conceptsFor addresses) (env.conceptsFor addresses) := by
  have hconcept : ∀ a ∈ distinct addresses, Alike f (env.concept a) (env.concept (id a)) := by
    intro a _
    rw [id, Environment.concept]
    split
    · exact .ok _
    · exact .error _ fun _ _ h => by cases h
  have := Renamed.mapM_alike hconcept
  rwa [List.map_id] at this

theorem Environment.alike_grainOf : Alike f (env.grainOf addresses) (env.grainOf addresses) :=
  alike_conceptsFor.bind_self fun _ => .ok _

theorem Grouping.alike_check {parents : List RelationSource} :
    Alike f (check env addresses parents) (check env addresses parents) := by
  -- the target with its renames undone is the last one to be tried, and two ways lead there
  have hlast : ∀ (supplied target : Grain) (as : List String), Alike f
      (env.grainOf as >>= fun g => if supplied.isSubset g = true then pure (⟨g, supplied, false⟩ : Verdict)
        else pure ⟨target, supplied, true⟩)
      (env.grainOf as >>= fun g => if supplied.isSubset g = true then pure ⟨g, supplied, false⟩
        else pure ⟨target, supplied, true⟩) := fun supplied target as =>
    Environment.alike_grainOf.bind_self fun g => by split <;> exact .ok _
  refine Environment.alike_conceptsFor.bind_self fun concepts => ?_
  dsimp only
  split
  · exact .ok _
  split
  · exact .ok _
  split
  · exact .ok _
  split
  · refine Environment.alike_grainOf.bind_self fun g => ?_
    split
    · exact .ok _
    · exact hlast _ _ _
  · exact hlast _ _ _

namespace Resolve

variable {c : NodeCore} {sources : List RelationSource}

theorem alike_base {kind : SourceKind} : Alike f (base env c sources kind) (base env c sources kind) := by
  rw [base]
  cases c.grain with
  | some g => exact .ok _
  | none => exact Environment.alike_grainOf.bind_self fun _ => .ok _

theorem alike_select {d : Datasource} : Alike f (select env c d sources) (select env c d sources) := by
  refine Environment.alike_conceptsFor.bind_self fun outputs => ?_
  split
  · exact .ok _
  · exact .ok _

theorem alike_group : Alike f (group env c sources) (group env c sources) := by
  refine Grouping.alike_check.bind_self fun v => ?_
  split
  · exact .ok _
  · split <;> exact .ok _

theorem alike_unnest {concepts : List String} :
    Alike f (unnest env c concepts sources) (unnest env c concepts sources) :=
  alike_base.bind_self fun _ => .ok _

end Resolve

end

/-! ## The rules -/

namespace Resolve

open JoinOrder

variable {f : PlanId → PlanId} {S : Set PlanId} {env : Environment} {c : NodeCore} {joins : List NamedJoin}

def NamedJoin.rename (f : PlanId → PlanId) (j : NamedJoin) : NamedJoin := { j with join := j.join.rename f }

theorem idOf_rename (hf : Set.InjOn f S) (hjs : Within S (joins.map NamedJoin.join)) {x : PlanId} (hx : x ∈ S) :
    idOf (joins.map (.rename f)) (f x) = idOf joins x := by
  have heq : ∀ {y}, y ∈ S → (f y == f x) = (y == x) := fun hy => by
    rw [Bool.eq_iff_iff, beq_iff_eq, beq_iff_eq]
    exact ⟨hf hy hx, fun e => e ▸ rfl⟩
  have hends : ∀ j ∈ joins, j.join.left ∈ S ∧ j.join.right ∈ S := fun j hj => hjs _ (List.mem_map_of_mem hj)
  have hfind : (joins.map (NamedJoin.rename f)).find? (fun j => j.join.left == f x || j.join.right == f x) =
      (joins.find? fun j => j.join.left == x || j.join.right == x).map (.rename f) := by
    rw [List.find?_map]
    refine congrArg _ (List.find?_congr fun j hj => ?_)
    exact congrArg₂ _ (heq (hends j hj).1) (heq (hends j hj).2)
  rw [idOf, hfind, idOf]
  cases hj : joins.find? fun j => j.join.left == x || j.join.right == x with
  | none => rfl
  | some j =>
    have hleft : ((NamedJoin.rename f j).join.left == f x) = (j.join.left == x) :=
      heq (hends j (List.mem_of_find?_eq_some hj)).1
    simp only [Option.map_some, hleft]
    rfl

/-- an explicit join, between what its two sides resolve to -/
def between (joins : List NamedJoin) (j : NodeJoin) : RelationJoin :=
  .base ⟨some (idOf joins j.left), idOf joins j.right, j.kind, j.concepts.map fun c => ⟨c, c, idOf joins j.left⟩⟩

theorem explicitJoins_eq :
    explicitJoins joins = order (joins.map NamedJoin.join) >>= fun o => pure (o.map (between joins)) := rfl

theorem explicitJoins_rename (hf : Set.InjOn f S) (hjs : Within S (joins.map NamedJoin.join)) :
    Alike f (explicitJoins joins) (explicitJoins (joins.map (.rename f))) := by
  have hmap : (joins.map (.rename f)).map NamedJoin.join = (joins.map NamedJoin.join).map (.rename f) := by
    rw [List.map_map, List.map_map]
    rfl
  rw [explicitJoins_eq, explicitJoins_eq, hmap]
  refine (order_rename hf hjs).1.bind fun o ho => ?_
  have hwithin := (order_rename hf hjs).2 o ho
  have hsame : (o.map (.rename f)).map (between (joins.map (.rename f))) = o.map (between joins) := by
    rw [List.map_map]
    refine List.map_congr_left fun j hj => ?_
    have hl : idOf (joins.map (.rename f)) (j.rename f).left = idOf joins j.left := idOf_rename hf hjs (hwithin j hj).1
    have hr : idOf (joins.map (.rename f)) (j.rename f).right = idOf joins j.right :=
      idOf_rename hf hjs (hwithin j hj).2
    rw [Function.comp_apply, between, hl, hr]
    rfl
  rw [hsame]
  exact .ok _

theorem mergeJoins_rename (hf : Set.InjOn f S) {sources : List RelationSource} {pregrain : Grain}
    {explicit : Option (List NamedJoin)} (hjs : ∀ js ∈ explicit, Within S (js.map NamedJoin.join)) :
    Alike f (mergeJoins env sources explicit pregrain)
      (mergeJoins env sources (explicit.map (List.map (.rename f))) pregrain) := by
  cases explicit with
  | none =>
    rw [Option.map_none, mergeJoins]
    split <;> exact .ok _
  | some js =>
    cases js with
    | nil => exact .ok _
    | cons j js => exact explicitJoins_rename hf (hjs _ rfl)

/-- **a merge joins the same relations** under a renaming of the nodes that its joins name -/
theorem merge_rename (hf : Set.InjOn f S) {sources : List RelationSource} {explicit : Option (List NamedJoin)}
    (hjs : ∀ js ∈ explicit, Within S (js.map NamedJoin.join)) :
    Alike f (merge env c explicit sources) (merge env c (explicit.map (List.map (.rename f))) sources) := by
  simp only [merge]
  split
  · exact .ok _
  · set keep := fun j : NamedJoin => j.left != j.right &&
      !(droppedIds (sources.foldl addParent []).length (sources.foldl addParent [])).contains j.left &&
      !(droppedIds (sources.foldl addParent []).length (sources.foldl addParent [])).contains j.right with hkeep
    -- which joins are kept is told by what their sides resolve to, not by their numbers
    have hkept : (explicit.map (List.map (.rename f))).map (fun js => js.filter keep) =
        (explicit.map fun js => js.filter keep).map (List.map (.rename f)) := by
      cases explicit with
      | none => rfl
      | some js =>
        simp only [Option.map_some, List.filter_map]
        rfl
    have hwithin : ∀ js ∈ explicit.map fun js => js.filter keep, Within S (js.map NamedJoin.join) := by
      intro js hmem
      obtain ⟨all, hall, rfl⟩ := Option.map_eq_some_iff.1 hmem
      intro j hj
      obtain ⟨i, hi, rfl⟩ := List.mem_map.1 hj
      exact hjs all hall _ (List.mem_map_of_mem (List.mem_filter.1 hi).1)
    rw [hkept]
    split
    · exact (mergeJoins_rename hf hwithin).bind fun _ _ => .ok _
    · exact .ok _

/-- **the rule of a renamed node has the outcome of the rule of the node** -/
theorem node_rename (hf : Set.InjOn f S) {n : PlanNode} {rs : List Relation} {explicit : List NamedJoin}
    (hjs : Within S (explicit.map NamedJoin.join)) :
    Alike f (node env n rs explicit) (node env (n.rename f) rs (explicit.map (.rename f))) := by
  obtain ⟨kind, core⟩ := n
  cases kind with
  | merge joins =>
    cases joins with
    | none => exact merge_rename hf fun js h => by cases h
    | some js =>
      have hsome : ∀ js ∈ some explicit, Within S (js.map NamedJoin.join) := by
        rintro js ⟨⟩
        exact hjs
      exact merge_rename hf hsome
  | select d => exact alike_select
  | constant => exact .ok _
  | group => exact alike_group
  | unnest concepts => exact alike_unnest
  | filter | window | recursive | union => exact alike_base

end Resolve

end SemanticPlanner
