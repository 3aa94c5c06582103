/-
Copies keep what they are copied from, and resolve to the same relations.

  Copied           a state of copying: the old nodes as they were, and every copy reading copies of what it was
                   copied from
  copyFrom_spec    a node copied with everything below it; only nodes below it get copies
  IsCopy           a renaming that carries a node and everything below it onto new nodes
  copy_spec        a copy is one, in an arena that is consistent and has the old nodes unchanged
  IsCopy.resolves  a copy has the relations of its original
  copy_copiesOnto  where joins name parents, a copy has one new node for each node below its original, of its content

The rounds that copying is given last, since each goes from a node to a parent of fewer ancestors. No node below another
one is above it, so nothing is copied twice.
-/
import SemanticPlanner.Plan.Copy
import SemanticPlanner.Proofs.Mirrors

namespace SemanticPlanner.Arena

variable {a b : Arena} {id p q x y : PlanId} {r : Relation}

/-- the name of a copy; what has none keeps its own -/
def Copying.name (s : Copying) (p : PlanId) : PlanId := s.copies.getD p p

/-- the node is a copy, in which the parents and explicit joins have the given names -/
def IsCopyOf (f : PlanId → PlanId) (n m : PlanNode) : Prop :=
  m.core = { n.core with parents := n.core.parents.map f } ∧ ∃ g, m.kind = n.kind.renameJoins g

/-- one entry of the copies made: a new node that reads copies of what the old one reads -/
structure CopiedTo (a : Arena) (s : Copying) (x y : PlanId) : Prop where
  old : a.contains x = true
  fresh : a.size ≤ y.index
  contained : s.arena.contains y = true
  node : IsCopyOf s.name (a.node x) (s.arena.node y)
  parents : ∀ p ∈ a.parents x, (s.copies.get? p).isSome = true
  /-- joins of parents are joins of their copies -/
  joins : a.JoinsParents x → (s.arena.node y).kind = (a.node x).kind.renameJoins s.name

/-- the arena while something of `a` is copied -/
structure Copied (a : Arena) (s : Copying) : Prop where
  consistent : s.arena.Consistent
  extended : a.Extends s.arena
  copies : ∀ x y, s.copies.get? x = some y → CopiedTo a s x y
  /-- no node is the copy of two -/
  injective : ∀ x x' y, s.copies.get? x = some y → s.copies.get? x' = some y → x = x'
  new : ∀ y, s.arena.contains y = true → a.contains y = true ∨ ∃ x, s.copies.get? x = some y

/-- nothing is copied yet -/
theorem Copied.start (ha : a.Consistent) : Copied a ⟨a, ∅⟩ :=
  ⟨ha, .refl a, fun _ _ h => (by cases h), fun _ _ _ h => (by cases h), fun _ h => Or.inl h⟩

/-- more copies made: nodes and copies that were there stay -/
structure Copying.Grows (s t : Copying) : Prop where
  slots : ∀ x, s.arena.contains x = true → t.arena.contains x = true ∧ t.arena.slot x = s.arena.slot x
  copies : ∀ x y, s.copies.get? x = some y → t.copies.get? x = some y

namespace Copying.Grows

variable {s t u : Copying}

theorem refl (s : Copying) : s.Grows s := ⟨fun _ h => ⟨h, rfl⟩, fun _ _ h => h⟩

theorem trans (h : s.Grows t) (h' : t.Grows u) : s.Grows u := by
  refine ⟨fun x hx => ?_, fun x y hxy => h'.copies x y (h.copies x y hxy)⟩
  obtain ⟨ht, he⟩ := h.slots x hx
  obtain ⟨hu, he'⟩ := h'.slots x ht
  exact ⟨hu, he'.trans he⟩

/-- the name of a copy that is made stays -/
theorem name (h : s.Grows t) (hp : (s.copies.get? p).isSome = true) : t.name p = s.name p := by
  obtain ⟨y, hy⟩ := Option.isSome_iff_exists.1 hp
  simp only [Copying.name, SortedMap.getD, hy, h.copies p y hy]

theorem isSome (h : s.Grows t) (hp : (s.copies.get? p).isSome = true) : (t.copies.get? p).isSome = true := by
  obtain ⟨y, hy⟩ := Option.isSome_iff_exists.1 hp
  rw [h.copies p y hy]
  rfl

/-- parents that are copied keep the names of their copies -/
theorem renameParents (h : s.Grows t) (hps : ∀ p ∈ a.parents x, (s.copies.get? p).isSome = true) :
    { (a.node x).core with parents := (a.parents x).map t.name } =
      { (a.node x).core with parents := (a.parents x).map s.name } :=
  congrArg (fun ps => { (a.node x).core with parents := ps }) (List.map_congr_left fun p hp => h.name (hps p hp))

/-- and so do joins of parents -/
theorem renameJoins (h : s.Grows t) (hps : ∀ p ∈ a.parents x, (s.copies.get? p).isSome = true)
    (hj : a.JoinsParents x) : (a.node x).kind.renameJoins t.name = (a.node x).kind.renameJoins s.name :=
  NodeKind.renameJoins_congr fun j hmem => ⟨h.name (hps _ (hj j hmem).1), h.name (hps _ (hj j hmem).2)⟩

/-- an entry stays right -/
theorem copiedTo (h : s.Grows t) (hc : CopiedTo a s x y) : CopiedTo a t x y := by
  obtain ⟨hcont, hslot⟩ := h.slots y hc.contained
  have hnode : t.arena.node y = s.arena.node y := congrArg Slot.node hslot
  refine ⟨hc.old, hc.fresh, hcont, ?_, fun p hp => h.isSome (hc.parents p hp), fun hj => ?_⟩
  · rw [hnode]
    exact ⟨hc.node.1.trans (h.renameParents hc.parents).symm, hc.node.2⟩
  · rw [hnode]
    exact (hc.joins hj).trans (h.renameJoins hc.parents hj).symm

end Copying.Grows

/-- a step that copies some nodes with what is below them -/
structure Copies (a : Arena) (l : List PlanId) (s t : Copying) : Prop where
  copied : Copied a t
  grows : s.Grows t
  all : ∀ p ∈ l, (t.copies.get? p).isSome = true
  only : ∀ x, (t.copies.get? x).isSome = true →
    (s.copies.get? x).isSome = true ∨ ∃ p ∈ l, x = p ∨ a.DependsOn p x

/-! ## One node put at the end -/

namespace Copying

variable {s : Copying} {ps : List PlanId}

theorem get?_put : (put id ps s).2.copies.get? x = if x = id then some (put id ps s).1 else s.copies.get? x :=
  SortedMap.get?_insert s.copies id x _

theorem get?_put_self : (put id ps s).2.copies.get? id = some (put id ps s).1 := by
  rw [get?_put, if_pos rfl]

theorem contains_put : (put id ps s).2.arena.contains y = true ↔ s.arena.contains y = true ∨ y = (put id ps s).1 :=
  contains_append _

theorem node_put : (put id ps s).2.arena.node (put id ps s).1 =
    ⟨(s.arena.node id).kind.renameJoins s.name, { (s.arena.node id).core with parents := ps }⟩ :=
  node_append_new _

theorem grows_put (ps : List PlanId) (hnew : s.copies.get? id = none) : s.Grows (put id ps s).2 := by
  refine ⟨fun x hx => ⟨contains_put.2 (Or.inl hx), slot_append_of_contains _ hx⟩, fun x y hxy => ?_⟩
  rw [get?_put, if_neg ?_, hxy]
  rintro rfl
  rw [hnew] at hxy
  cases hxy

end Copying

namespace Copied

variable {s : Copying}

/-- a node whose parents are copied is put with the names of their copies -/
theorem copiedTo_put (hs : Copied a s) (hid : a.contains id = true)
    (hps : ∀ p ∈ a.parents id, (s.copies.get? p).isSome = true) (hnew : s.copies.get? id = none) :
    CopiedTo a (Copying.put id ((a.parents id).map s.name) s).2 id
      (Copying.put id ((a.parents id).map s.name) s).1 := by
  have hgrows := Copying.grows_put ((a.parents id).map s.name) hnew
  refine ⟨hid, hs.extended.size, Copying.contains_put.2 (Or.inr rfl), ?_, fun p hp => hgrows.isSome (hps p hp),
    fun hj => ?_⟩
  · rw [Copying.node_put, hs.extended.node hid]
    exact ⟨(hgrows.renameParents hps).symm, s.name, rfl⟩
  · rw [Copying.node_put, hs.extended.node hid]
    exact (hgrows.renameJoins hps hj).symm

/-- the new node is no copy yet, since every copy is in the arena already -/
theorem ne_put (hs : Copied a s) {ps : List PlanId} (hxy : s.copies.get? x = some y) :
    y ≠ (Copying.put id ps s).1 := by
  rintro rfl
  exact Nat.lt_irrefl _ (contains_iff.1 (hs.copies x _ hxy).contained)

/-- no node is the copy of two, the new one included -/
theorem injective_put (hs : Copied a s) {ps : List PlanId} {x' : PlanId}
    (hx : (Copying.put id ps s).2.copies.get? x = some y) (hx' : (Copying.put id ps s).2.copies.get? x' = some y) :
    x = x' := by
  rw [Copying.get?_put] at hx hx'
  split at hx <;> rename_i hid <;> split at hx' <;> rename_i hid'
  · rw [hid, hid']
  · exact absurd (Option.some.inj hx).symm (hs.ne_put hx')
  · exact absurd (Option.some.inj hx').symm (hs.ne_put hx)
  · exact hs.injective x x' y hx hx'

/-- **one node put at the end, reading the copies of its parents** -/
theorem put (hs : Copied a s) (hid : a.contains id = true)
    (hps : ∀ p ∈ a.parents id, (s.copies.get? p).isSome = true) (hnew : s.copies.get? id = none) :
    Copied a (Copying.put id ((a.parents id).map s.name) s).2 := by
  have hgrows := Copying.grows_put ((a.parents id).map s.name) hnew
  refine ⟨hs.consistent.append fun p hp => ?_, hs.extended.trans (.append _), fun x y hxy => ?_,
    fun x x' y => hs.injective_put, fun y hy => ?_⟩
  · obtain ⟨p', hp', rfl⟩ := List.mem_map.1 hp
    obtain ⟨y, hy⟩ := Option.isSome_iff_exists.1 (hps p' hp')
    simp only [Copying.name, SortedMap.getD, hy, Option.getD_some]
    exact (hs.copies p' y hy).contained
  · rw [Copying.get?_put] at hxy
    split at hxy
    · rename_i hx
      obtain rfl := hx
      obtain rfl := Option.some.inj hxy
      exact hs.copiedTo_put hid hps hnew
    · exact hgrows.copiedTo (hs.copies x y hxy)
  · rcases Copying.contains_put.1 hy with hy | rfl
    · rcases hs.new y hy with hold | ⟨x, hx⟩
      · exact Or.inl hold
      · exact Or.inr ⟨x, hgrows.copies x y hx⟩
    · exact Or.inr ⟨id, Copying.get?_put_self⟩

end Copied

/-! ## A node with everything below it -/

/-- nodes copied one after the other -/
theorem mapM_copyFrom_spec {step : PlanId → StateM Copying PlanId} {l : List PlanId}
    (hstep : ∀ p ∈ l, ∀ s, Copied a s → Copies a [p] s (step p s).2 ∧ (step p s).2.copies.get? p = some (step p s).1)
    {s : Copying} (hs : Copied a s) :
    Copies a l s (l.mapM step s).2 ∧ (l.mapM step s).1 = l.map (l.mapM step s).2.name := by
  induction l generalizing s with
  | nil => exact ⟨⟨hs, .refl s, fun p hp => absurd hp List.not_mem_nil, fun x hx => Or.inl hx⟩, rfl⟩
  | cons p l ih =>
    obtain ⟨hp, hname⟩ := hstep p List.mem_cons_self s hs
    obtain ⟨hl, hnames⟩ := ih (fun q hq => hstep q (List.mem_cons_of_mem _ hq)) hp.copied
    have hrun : (p :: l).mapM step s =
        ((step p s).1 :: (l.mapM step (step p s).2).1, (l.mapM step (step p s).2).2) := by
      rw [List.mapM_cons]
      rfl
    rw [hrun]
    have hsome := hp.all p List.mem_cons_self
    refine ⟨⟨hl.copied, hp.grows.trans hl.grows, ?_, ?_⟩, ?_⟩
    · intro q hq
      rcases List.mem_cons.1 hq with rfl | hq
      · exact hl.grows.isSome hsome
      · exact hl.all q hq
    · intro x hx
      rcases hl.only x hx with hx | ⟨q, hq, hqx⟩
      · rcases hp.only x hx with hx | ⟨q, hq, hqx⟩
        · exact Or.inl hx
        · rw [List.mem_singleton.1 hq] at hqx
          exact Or.inr ⟨p, List.mem_cons_self, hqx⟩
      · exact Or.inr ⟨q, List.mem_cons_of_mem _ hq, hqx⟩
    · rw [List.map_cons, hnames, hl.grows.name hsome, Copying.name, SortedMap.getD, hname]
      rfl

/-- a node that was copied is not copied again -/
theorem copyFrom_of_copied {fuel : Nat} {s : Copying} {new : PlanId} (h : s.copies.get? id = some new) :
    copyFrom (fuel + 1) id s = (new, s) := by
  simp only [copyFrom, bind, StateT.bind, get, getThe, MonadStateOf.get, StateT.get, pure, h]
  rfl

/-- a node that was not copied is put after the copies of its parents -/
theorem copyFrom_of_new {fuel : Nat} {s : Copying} (h : s.copies.get? id = none) :
    copyFrom (fuel + 1) id s = Copying.put id ((s.arena.parents id).mapM (copyFrom fuel) s).1
      ((s.arena.parents id).mapM (copyFrom fuel) s).2 := by
  simp only [copyFrom, bind, StateT.bind, get, getThe, MonadStateOf.get, StateT.get, pure, h]
  rfl

/-- **a node copied with everything below it**, given more rounds than it has ancestors -/
theorem copyFrom_spec (ha : a.WellFormed) {fuel : Nat} (hid : a.contains id = true) (hf : a.height id < fuel)
    {s : Copying} (hs : Copied a s) :
    Copies a [id] s (copyFrom fuel id s).2 ∧ (copyFrom fuel id s).2.copies.get? id = some (copyFrom fuel id s).1 := by
  induction fuel generalizing id s with
  | zero => exact absurd hf (Nat.not_lt_zero _)
  | succ fuel ih =>
    cases hc : s.copies.get? id with
    | some new =>
      rw [copyFrom_of_copied hc]
      exact ⟨⟨hs, .refl s, fun p hp => by rw [List.mem_singleton.1 hp, hc]; rfl, fun x hx => Or.inl hx⟩, hc⟩
    | none =>
      obtain ⟨hps, hnames⟩ := mapM_copyFrom_spec (l := a.parents id) (s := s)
        (fun p hp t ht => ih (ha.closed id p hp) (Nat.lt_of_lt_of_le (height_lt ha hp) (Nat.le_of_lt_succ hf)) ht) hs
      have hpar : s.arena.parents id = a.parents id := hs.extended.parents hid
      rw [copyFrom_of_new hc, hpar, hnames]
      set t := ((a.parents id).mapM (copyFrom fuel) s).2
      -- the node is not below its own parents, so copying them has not copied it
      have hnew : t.copies.get? id = none := by
        by_contra hsome
        rcases hps.only id (Option.isSome_iff_ne_none.2 hsome) with h | ⟨p, hp, rfl | hd⟩
        · rw [hc] at h
          exact absurd h (by simp)
        · exact ha.acyclic id (.of_parent hp)
        · exact ha.acyclic id (hd.head hp)
      have hgrows := Copying.grows_put ((a.parents id).map t.name) hnew
      refine ⟨⟨hps.copied.put hid hps.all hnew, hps.grows.trans hgrows, fun p hp => ?_, fun x hx => ?_⟩,
        Copying.get?_put_self⟩
      · rw [List.mem_singleton.1 hp, Copying.get?_put_self]
        rfl
      · rw [Copying.get?_put] at hx
        split at hx
        · rename_i hxid
          exact Or.inr ⟨id, List.mem_cons_self, Or.inl hxid⟩
        · rcases hps.only x hx with h | ⟨p, hp, hpx⟩
          · exact Or.inl h
          · refine Or.inr ⟨id, List.mem_cons_self, Or.inr ?_⟩
            rcases hpx with rfl | hpx
            · exact .of_parent hp
            · exact hpx.head hp

/-! ## What a copy is -/

/-- `f` carries `id` and everything below it onto nodes that `a` does not have -/
structure IsCopy (a b : Arena) (f : PlanId → PlanId) (id : PlanId) : Prop where
  environment : b.environment = a.environment
  fresh : ∀ x, x = id ∨ a.DependsOn id x → a.size ≤ (f x).index
  node : ∀ x, x = id ∨ a.DependsOn id x → IsCopyOf f (a.node x) (b.node (f x))

namespace IsCopy

variable {f : PlanId → PlanId}

theorem parents (h : IsCopy a b f id) (hx : x = id ∨ a.DependsOn id x) : b.parents (f x) = (a.parents x).map f := by
  rw [Arena.parents, core, (h.node x hx).1]
  rfl

/-- a copy is a copy at every node below -/
theorem parent (h : IsCopy a b f id) (hp : p ∈ a.parents id) : IsCopy a b f p := by
  have hbelow : ∀ x, x = p ∨ a.DependsOn p x → x = id ∨ a.DependsOn id x := by
    intro x hx
    rcases hx with rfl | hx
    · exact Or.inr (.of_parent hp)
    · exact Or.inr (hx.head hp)
  exact ⟨h.environment, fun x hx => h.fresh x (hbelow x hx), fun x hx => h.node x (hbelow x hx)⟩

/-- a copy depends on copies only -/
theorem dependsOn (h : IsCopy a b f id) (hd : b.DependsOn (f id) y) : ∃ x, a.DependsOn id x ∧ y = f x := by
  induction hd with
  | single hy =>
    rw [h.parents (Or.inl rfl)] at hy
    obtain ⟨x, hx, rfl⟩ := List.mem_map.1 hy
    exact ⟨x, .of_parent hx, rfl⟩
  | tail _ hz ih =>
    obtain ⟨x, hx, rfl⟩ := ih
    rw [h.parents (Or.inr hx)] at hz
    obtain ⟨w, hw, rfl⟩ := List.mem_map.1 hz
    exact ⟨w, hx.tail hw, rfl⟩

/-- neither a copy nor anything it depends on was there before -/
theorem size_le (h : IsCopy a b f id) (hy : y = f id ∨ b.DependsOn (f id) y) : a.size ≤ y.index := by
  rcases hy with rfl | hy
  · exact h.fresh id (Or.inl rfl)
  · obtain ⟨x, hx, rfl⟩ := h.dependsOn hy
    exact h.fresh x (Or.inr hx)

end IsCopy

theorem IsCopyOf.sourceKind {f : PlanId → PlanId} {n m : PlanNode} (h : IsCopyOf f n m) :
    m.kind.sourceKind = n.kind.sourceKind := by
  obtain ⟨-, g, hkind⟩ := h
  rw [hkind]
  cases n.kind with
  | merge joins => cases joins <;> rfl
  | _ => rfl

/-- only a select is copied to a select -/
theorem IsCopyOf.select {f : PlanId → PlanId} {n m : PlanNode} {d : Datasource} {acceptPartial : Bool}
    (h : IsCopyOf f n m) (hm : m.kind = .select d acceptPartial) : n.kind = .select d acceptPartial := by
  obtain ⟨-, g, hkind⟩ := h
  rw [hkind] at hm
  cases hn : n.kind with
  | merge joins => cases joins <;> rw [hn] at hm <;> cases hm
  | _ => rw [hn] at hm; exact hm

/-- the rule of a copy gives what the rule of its original gives -/
theorem IsCopyOf.ruled {env : Environment} {f : PlanId → PlanId} {n m : PlanNode} {rs : List Relation}
    (h : IsCopyOf f n m) (hr : Resolve.Ruled env n rs r) : Resolve.Ruled env m rs r := by
  have hsame := h.sourceKind
  obtain ⟨hcore, g, hkind⟩ := h
  cases m with
  | mk kind core =>
    subst hcore
    cases hr with
    | constant hk => exact .constant (hsame.symm ▸ hk)
    | selected hk ho => exact .selected (by rw [hkind, hk]; rfl) ho
    | based hk => exact .based hk
    | grouped hk => exact .grouped (by rw [hkind, hk]; rfl)
    | filtered hk hc => exact .filtered (by rw [hkind, hk]; rfl) hc
    | unnested hk => exact .unnested (by rw [hkind, hk]; rfl)
    | @handedBack joins _ hk hb =>
      cases joins with
      | none => exact .handedBack (by rw [hkind, hk]; rfl) hb
      | some js => exact .handedBack (by rw [hkind, hk]; rfl) hb
    | @joined joins _ hk ho =>
      cases joins with
      | none => exact .joined (by rw [hkind, hk]; rfl) ho
      | some js => exact .joined (by rw [hkind, hk]; rfl) ho

/-- **a copy has the relations of its original** -/
theorem IsCopy.resolves {f : PlanId → PlanId} (h : IsCopy a b f id) (hr : a.Resolves id r) : b.Resolves (f id) r := by
  induction hr with
  | @intro id rs r length parents rule ih =>
    have hps := h.parents (Or.inl rfl)
    have hlength : rs.length = (b.parents (f id)).length := by rw [hps, List.length_map, length]
    refine .intro hlength ?_ ?_
    · intro e he
      rw [hps, List.zip_map_left] at he
      obtain ⟨w, hw, rfl⟩ := List.mem_map.1 he
      exact ih w hw (h.parent (List.of_mem_zip hw).1)
    · rw [h.environment]
      exact (h.node id (Or.inl rfl)).ruled rule

/-- the copies that are made of a node are those of everything below it -/
theorem copy_copied (ha : a.Consistent) (hid : a.contains id = true) :
    ∃ s : Copying, a.copy id = (s.name id, s.arena) ∧ Copied a s ∧
      (∀ x, a.Below id x → CopiedTo a s x (s.name x) ∧ s.copies.get? x = some (s.name x)) ∧
      ∀ x, (s.copies.get? x).isSome = true → a.Below id x := by
  obtain ⟨hc, hname⟩ := copyFrom_spec ha.wellFormed hid
    (Nat.lt_succ_of_le (height_le ha.wellFormed)) (.start ha)
  set s := (copyFrom (a.size + 1) id ⟨a, ∅⟩).2 with hs
  -- everything below the node has a copy, as copies read copies
  have hbelow : ∀ x, a.Below id x → (s.copies.get? x).isSome = true := by
    intro x hx
    rcases hx with rfl | hx
    · exact hc.all x List.mem_cons_self
    · induction hx with
      | single hy =>
        obtain ⟨y, hget⟩ := Option.isSome_iff_exists.1 (hc.all id List.mem_cons_self)
        exact (hc.copied.copies id y hget).parents _ hy
      | tail _ hz ih =>
        obtain ⟨y, hget⟩ := Option.isSome_iff_exists.1 ih
        exact (hc.copied.copies _ y hget).parents _ hz
  refine ⟨s, ?_, hc.copied, fun x hx => ?_, fun x hx => ?_⟩
  · have hid' : s.name id = (copyFrom (a.size + 1) id ⟨a, ∅⟩).1 := by
      simp only [Copying.name, SortedMap.getD, hname, Option.getD_some]
    rw [hid']
    rfl
  · obtain ⟨y, hget⟩ := Option.isSome_iff_exists.1 (hbelow x hx)
    have hy : s.name x = y := by simp only [Copying.name, SortedMap.getD, hget, Option.getD_some]
    rw [hy]
    exact ⟨hc.copied.copies x y hget, hget⟩
  · rcases hc.only x hx with hx | ⟨p, hp, hpx⟩
    · exact absurd hx Bool.false_ne_true
    · exact List.mem_singleton.1 hp ▸ hpx

theorem copy_extends (ha : a.Consistent) (hid : a.contains id = true) : a.Extends (a.copy id).2 := by
  obtain ⟨s, hcopy, hc, -⟩ := copy_copied ha hid
  rw [hcopy]
  exact hc.extended

/-- **a copy is a new node in an arena that is otherwise as it was** -/
theorem copy_spec (ha : a.Consistent) (hid : a.contains id = true) :
    (a.copy id).2.Consistent ∧ (a.copy id).2.contains (a.copy id).1 = true ∧
      (∀ x, a.contains x = true → (a.copy id).2.contains x = true ∧ (a.copy id).2.slot x = a.slot x) ∧
      ∃ f, f id = (a.copy id).1 ∧ IsCopy a (a.copy id).2 f id ∧
        ∀ y, (a.copy id).2.contains y = true → a.contains y = true ∨
          ∃ x, a.contains x = true ∧ IsCopyOf f (a.node x) ((a.copy id).2.node y) := by
  obtain ⟨s, hcopy, hc, hbelow, -⟩ := copy_copied ha hid
  rw [hcopy]
  refine ⟨hc.consistent, (hbelow id (Or.inl rfl)).1.contained,
    fun x hx => ⟨hc.extended.contains hx, hc.extended.slot x hx⟩, s.name, rfl,
    ⟨hc.extended.environment, fun x hx => (hbelow x hx).1.fresh, fun x hx => (hbelow x hx).1.node⟩, fun y hy => ?_⟩
  refine (hc.new y hy).imp_right fun ⟨x, hx⟩ => ?_
  exact ⟨x, (hc.copies x y hx).old, (hc.copies x y hx).node⟩

/-- after a copy is taken a node is the one it was, or a copy of one that was there -/
theorem node_copy (ha : a.Consistent) (hid : a.contains id = true) (y : PlanId) :
    (a.copy id).2.node y = a.node y ∨ ∃ f x, IsCopyOf f (a.node x) ((a.copy id).2.node y) := by
  obtain ⟨-, -, hold, f, -, -, hmade⟩ := copy_spec ha hid
  by_cases hy : (a.copy id).2.contains y = true
  · rcases hmade y hy with hy | ⟨x, -, hx⟩
    · exact Or.inl (congrArg Slot.node (hold y hy).2)
    · exact Or.inr ⟨f, x, hx⟩
  · have hno : a.contains y ≠ true := fun h => hy (hold y h).1
    left
    rw [node, node, slot_eq_default (by simpa using hy), slot_eq_default (by simpa using hno)]

/-- `b` is `a` with one new node for each node below `id`, `f` telling which, that reads the new nodes -/
structure CopiesOnto (a b : Arena) (f : PlanId → PlanId) (id : PlanId) : Prop where
  extended : a.Extends b
  onto : Set.BijOn f {x | a.Below id x} {y | b.contains y = true ∧ a.contains y = false}
  mirrors : Mirrors a b f id

/-- **a copy has one new node for each node below its original, of the same shape and content** -/
theorem copy_copiesOnto (ha : a.Consistent) (hid : a.contains id = true) (hj : a.JoinsBelow id) :
    ∃ f, f id = (a.copy id).1 ∧ CopiesOnto a (a.copy id).2 f id := by
  obtain ⟨s, hcopy, hc, hbelow, honly⟩ := copy_copied ha hid
  rw [hcopy]
  have hinj : Set.InjOn s.name {x | a.Below id x} := fun x hx x' hx' e =>
    hc.injective x x' _ (hbelow x hx).2 (e ▸ (hbelow x' hx').2)
  have hnew : ∀ y, a.size ≤ y.index → a.contains y = false := fun y hy =>
    decide_eq_false (Nat.not_lt_of_le hy)
  refine ⟨s.name, rfl, hc.extended, ⟨fun x hx => ?_, hinj, fun y hy => ?_⟩, hc.extended.environment, hinj,
    fun x hx => ?_⟩
  · exact ⟨(hbelow x hx).1.contained, hnew _ (hbelow x hx).1.fresh⟩
  · rcases hc.new y hy.1 with h | ⟨x, hx⟩
    · rw [hy.2] at h
      exact absurd h (by simp)
    · have hx' : a.Below id x := honly x (by rw [hx]; rfl)
      exact ⟨x, hx', Option.some.inj ((hbelow x hx').2.symm.trans hx)⟩
  · have hcopied := (hbelow x hx).1
    have hkind := hcopied.joins (hj x hx)
    have hcore := hcopied.node.1
    rw [PlanNode.rename, ← hkind, ← hcore]

end SemanticPlanner.Arena
