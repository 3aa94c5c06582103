/-
What the operations of an arena keep: parents are there, and no node depends on itself.

  DependsOn       a node reads another, directly or through others
  WellFormed      parents are in the arena, no version is ahead of the clock, no node depends on itself
  mem_ancestors   the ancestors of a node are exactly what it depends on
  height_lt       a parent has fewer ancestors than the node that reads it
  Extends         nodes were added, and those that were there are as they were
  WellFormed.append, WellFormed.change, WellFormed.addParents, WellFormed.of_sameNodes
                  every operation leaves a well-formed arena well-formed

An edge from a node to a new parent closes a cycle only if the parent depended on the node, and such parents are
refused; every other operation leaves the edges of the nodes that are there alone.
-/
import SemanticPlanner.Plan.Memo
import SemanticPlanner.Proofs.Reach
import Mathlib.Logic.Relation

namespace SemanticPlanner.Arena

variable {a b : Arena} {id p q x y : PlanId}

/-! ## Slots -/

theorem contains_iff : a.contains id = true ↔ id.index < a.size := decide_eq_true_iff

theorem slot_eq_default (h : a.contains id = false) : a.slot id = default := by
  have hi : a.slots.size ≤ id.index := Nat.le_of_not_lt (of_decide_eq_false h)
  simp [slot, hi]

theorem parents_eq_nil (h : a.contains id = false) : a.parents id = [] := by
  simp only [parents, core, node, slot_eq_default h]
  rfl

/-- only a node of the arena has parents -/
theorem contains_of_mem_parents (h : p ∈ a.parents id) : a.contains id = true := by
  by_contra hc
  rw [parents_eq_nil (by simpa using hc)] at h
  exact List.not_mem_nil h

/-- a node put at the end is read under its own number, every other as before -/
theorem slot_append (n : PlanNode) :
    (a.append n).2.slot x = if x.index = a.size then ⟨n, a.clock + 1, none⟩ else a.slot x := by
  simp only [append, slot, size, Array.getD_eq_getD_getElem?, Array.getElem?_push]
  split <;> simp

/-- the arena with one slot rewritten -/
def rewriteSlot (a : Arena) (id : PlanId) (g : Slot → Slot) (clock : Nat) : Arena :=
  { a with slots := a.slots.modify id.index g, clock }

theorem slot_rewriteSlot (g : Slot → Slot) (k : Nat) :
    (a.rewriteSlot id g k).slot x = if x = id ∧ a.contains id = true then g (a.slot id) else a.slot x := by
  have hx : x = id ↔ x.index = id.index := ⟨fun e => e ▸ rfl, fun e => by cases x; cases id; simp_all⟩
  simp only [rewriteSlot, slot, Array.getD_eq_getD_getElem?, Array.getElem?_modify, contains_iff, size]
  by_cases he : x.index = id.index
  · by_cases hl : id.index < a.slots.size
    · simp [hx, he, hl]
    · simp [hl, he]
  · simp [hx, he, Ne.symm he]

theorem size_rewriteSlot (g : Slot → Slot) (k : Nat) : (a.rewriteSlot id g k).size = a.size := by
  simp [rewriteSlot, size]

theorem change_eq (f : NodeCore → NodeCore) :
    a.change id f = a.rewriteSlot id
      (fun s => { s with node := { s.node with core := f s.node.core }, version := a.clock + 1 }) (a.clock + 1) := rfl

theorem remember_eq (stamp : Nat) (r : Relation) :
    a.remember id stamp r = a.rewriteSlot id (fun s => { s with memo := some (stamp, r) }) a.clock := rfl

theorem forget_eq : a.forget id = a.rewriteSlot id (fun s => { s with memo := none }) a.clock := rfl

theorem size_change (f : NodeCore → NodeCore) : (a.change id f).size = a.size := size_rewriteSlot _ _

theorem contains_change (f : NodeCore → NodeCore) : (a.change id f).contains x = a.contains x := by
  simp only [contains, size_change]

theorem slot_change (f : NodeCore → NodeCore) :
    (a.change id f).slot x = if x = id ∧ a.contains id = true then
      { a.slot id with node := { a.node id with core := f (a.core id) }, version := a.clock + 1 } else a.slot x := by
  rw [change_eq, slot_rewriteSlot]
  rfl

theorem slot_change_of_ne (f : NodeCore → NodeCore) (h : x ≠ id) : (a.change id f).slot x = a.slot x := by
  rw [slot_change, if_neg fun e => h e.1]

theorem core_change_self (f : NodeCore → NodeCore) (h : a.contains id = true) :
    (a.change id f).core id = f (a.core id) := by
  rw [core, node, slot_change, if_pos ⟨rfl, h⟩]

theorem node_change_of_ne (f : NodeCore → NodeCore) (h : x ≠ id) : (a.change id f).node x = a.node x := by
  rw [node, slot_change_of_ne f h]
  rfl

/-- a change that keeps the parents of a core keeps those of every node -/
theorem parents_change (f : NodeCore → NodeCore) (hf : (f (a.core id)).parents = (a.core id).parents) :
    (a.change id f).parents x = a.parents x := by
  by_cases h : x = id ∧ a.contains id = true
  · obtain ⟨rfl, hc⟩ := h
    rw [parents, core_change_self f hc, hf]
    rfl
  · simp only [parents, core, node, slot_change, if_neg h]

theorem size_append (n : PlanNode) : (a.append n).2.size = a.size + 1 := by simp [append, size]

theorem slot_append_of_contains (n : PlanNode) (h : a.contains x = true) : (a.append n).2.slot x = a.slot x := by
  rw [slot_append, if_neg (Nat.ne_of_lt (contains_iff.1 h))]

theorem node_append_new (n : PlanNode) : (a.append n).2.node (a.append n).1 = n := by
  have hi : (a.append n).1.index = a.size := rfl
  rw [node, slot_append, if_pos hi]

/-- after a node is put at the end a node is that one, or the one it was -/
theorem node_append (n : PlanNode) (x : PlanId) : (a.append n).2.node x = n ∨ (a.append n).2.node x = a.node x := by
  rw [node, slot_append]
  split
  · exact Or.inl rfl
  · exact Or.inr rfl

theorem contains_append_new (n : PlanNode) : (a.append n).2.contains (a.append n).1 = true := by
  rw [contains_iff, size_append]
  exact Nat.lt_succ_self _

/-- what was in the arena still is, and one node more -/
theorem contains_append (n : PlanNode) :
    (a.append n).2.contains x = true ↔ a.contains x = true ∨ x = (a.append n).1 := by
  rw [contains_iff, contains_iff, size_append]
  have : x = (a.append n).1 ↔ x.index = a.size := ⟨fun e => e ▸ rfl, fun e => by cases x; simp_all [append]⟩
  rw [this]
  omega

/-! ## Dependence -/

/-- `id` reads `p`, directly or through other nodes -/
def DependsOn (a : Arena) (id p : PlanId) : Prop := Relation.TransGen (fun x y => y ∈ a.parents x) id p

namespace DependsOn

theorem of_parent (h : p ∈ a.parents id) : a.DependsOn id p := .single h

theorem head (h : p ∈ a.parents id) (hq : a.DependsOn p q) : a.DependsOn id q := Relation.TransGen.head h hq

theorem tail (h : a.DependsOn id p) (hq : q ∈ a.parents p) : a.DependsOn id q := Relation.TransGen.tail h hq

theorem trans (h : a.DependsOn id p) (hq : a.DependsOn p q) : a.DependsOn id q := Relation.TransGen.trans h hq

/-- the first edge of a dependence -/
theorem cases_parent (h : a.DependsOn id q) : ∃ p ∈ a.parents id, p = q ∨ a.DependsOn p q := by
  rcases Relation.TransGen.head'_iff.1 h with ⟨p, hp, hpq⟩
  refine ⟨p, hp, ?_⟩
  rcases Relation.reflTransGen_iff_eq_or_transGen.1 hpq with e | hd
  · exact Or.inl e.symm
  · exact Or.inr hd

/-- arenas whose nodes have the same parents wherever `id` leads have the same dependences of it -/
theorem of_same_parents (hid : b.parents id = a.parents id) (hs : ∀ x, a.DependsOn id x → b.parents x = a.parents x)
    (h : a.DependsOn id q) : b.DependsOn id q := by
  induction h with
  | single hp => exact .of_parent (hid ▸ hp)
  | tail hd hp ih => exact ih.tail (hs _ hd ▸ hp)

theorem iff_of_same_parents (hid : b.parents id = a.parents id)
    (hs : ∀ x, a.DependsOn id x → b.parents x = a.parents x) : b.DependsOn id q ↔ a.DependsOn id q := by
  refine ⟨fun h => ?_, of_same_parents hid hs⟩
  induction h with
  | single hp => exact .of_parent (hid ▸ hp)
  | tail _ hp ih => exact ih.tail (hs _ ih ▸ hp)

end DependsOn

/-! ## Well-formed arenas -/

structure WellFormed (a : Arena) : Prop where
  /-- parents are in the arena -/
  closed : ∀ id, ∀ p ∈ a.parents id, a.contains p = true
  /-- no version is ahead of the clock -/
  dated : ∀ id, a.version id ≤ a.clock
  acyclic : ∀ id, ¬ a.DependsOn id id

/-- every number a node of the arena can have -/
def ids (a : Arena) : List PlanId := (List.range a.size).map PlanId.mk

theorem mem_ids : id ∈ a.ids ↔ a.contains id = true := by
  rw [contains_iff, ids, List.mem_map]
  constructor
  · rintro ⟨i, hi, rfl⟩
    exact List.mem_range.1 hi
  · intro h
    exact ⟨id.index, List.mem_range.2 h, rfl⟩

theorem length_ids : a.ids.length = a.size := by simp [ids]

theorem contains_of_dependsOn (ha : a.WellFormed) (h : a.DependsOn id q) : a.contains q = true := by
  induction h with
  | single hp => exact ha.closed _ _ hp
  | tail _ hp _ => exact ha.closed _ _ hp

/-- going over parents finds what a node depends on, given more rounds than there are nodes -/
theorem mem_grow_parents (ha : a.WellFormed) {n : Nat} (hn : a.size < n) :
    x ∈ Reach.grow a.parents n (SortedSet.ofList (a.parents id)) ↔ a.DependsOn id x := by
  have hgrown : x ∈ Reach.grow a.parents n (SortedSet.ofList (a.parents id)) ↔
      Reach.Reached a.parents (SortedSet.ofList (a.parents id)) x := by
    refine Reach.mem_grow_iff (l := a.ids) ?_ ?_ ?_
    · intro y hy
      exact mem_ids.2 (ha.closed id y (SortedSet.mem_ofList.1 hy))
    · intro y _ z hz
      exact mem_ids.2 (ha.closed y z hz)
    · rw [length_ids]
      omega
  rw [hgrown]
  clear hgrown
  constructor
  · intro h
    induction h with
    | start hp => exact .of_parent (SortedSet.mem_ofList.1 hp)
    | step _ hp ih => exact ih.tail hp
  · intro h
    induction h with
    | single hp => exact .start (SortedSet.mem_ofList.2 hp)
    | tail _ hp ih => exact .step ih hp

/-- **the ancestors of a node are exactly what it depends on** -/
theorem mem_ancestors (ha : a.WellFormed) : x ∈ a.ancestors id ↔ a.DependsOn id x :=
  mem_grow_parents ha (Nat.lt_succ_self _)

/-- the number of ancestors of a node -/
def height (a : Arena) (id : PlanId) : Nat := (a.ancestors id).size

theorem height_le (ha : a.WellFormed) : a.height id ≤ a.size := by
  have := (List.subperm_of_subset (a.ancestors id).nodup fun x hx =>
    mem_ids.2 (contains_of_dependsOn ha ((mem_ancestors ha).1 hx))).length_le
  rwa [length_ids] at this

/-- a parent has fewer ancestors than a node that reads it -/
theorem height_lt (ha : a.WellFormed) (h : p ∈ a.parents id) : a.height p < a.height id := by
  have hsub : ∀ x ∈ a.ancestors p, x ∈ a.ancestors id := fun x hx =>
    (mem_ancestors ha).2 (.head h ((mem_ancestors ha).1 hx))
  have hle := SortedSet.size_le_of_subset hsub
  rcases Nat.lt_or_ge (a.height p) (a.height id) with hlt | hge
  · exact hlt
  · have hp : p ∈ a.ancestors p := SortedSet.mem_of_size_le hsub hge ((mem_ancestors ha).2 (.of_parent h))
    exact absurd ((mem_ancestors ha).1 hp) (ha.acyclic p)

/-! ## What keeps an arena well-formed -/

/-- two arenas that differ in kept relations only -/
structure SameNodes (a b : Arena) : Prop where
  environment : b.environment = a.environment
  clock : b.clock = a.clock
  size : b.size = a.size
  node : ∀ x, b.node x = a.node x
  version : ∀ x, b.version x = a.version x

namespace SameNodes

theorem refl (a : Arena) : a.SameNodes a := ⟨rfl, rfl, rfl, fun _ => rfl, fun _ => rfl⟩

theorem trans {c : Arena} (h : a.SameNodes b) (h' : b.SameNodes c) : a.SameNodes c :=
  ⟨h'.environment.trans h.environment, h'.clock.trans h.clock, h'.size.trans h.size,
    fun x => (h'.node x).trans (h.node x), fun x => (h'.version x).trans (h.version x)⟩

theorem core (h : a.SameNodes b) (x : PlanId) : b.core x = a.core x := congrArg PlanNode.core (h.node x)

theorem parents (h : a.SameNodes b) (x : PlanId) : b.parents x = a.parents x := congrArg NodeCore.parents (h.core x)

theorem contains (h : a.SameNodes b) (x : PlanId) : b.contains x = a.contains x := by
  simp only [Arena.contains, h.size]

theorem dependsOn (h : a.SameNodes b) : b.DependsOn id q ↔ a.DependsOn id q :=
  DependsOn.iff_of_same_parents (h.parents id) fun x _ => h.parents x

/-- a slot rewritten in its kept relation only -/
theorem rewriteSlot (g : Slot → Slot) (hn : ∀ s, (g s).node = s.node) (hv : ∀ s, (g s).version = s.version) :
    a.SameNodes (a.rewriteSlot id g a.clock) := by
  have hslot : ∀ x, ((a.rewriteSlot id g a.clock).slot x).node = (a.slot x).node ∧
      ((a.rewriteSlot id g a.clock).slot x).version = (a.slot x).version := by
    intro x
    rw [slot_rewriteSlot]
    split
    · rename_i h
      rw [hn, hv, h.1]
      exact ⟨rfl, rfl⟩
    · exact ⟨rfl, rfl⟩
  exact ⟨rfl, rfl, size_rewriteSlot _ _, fun x => (hslot x).1, fun x => (hslot x).2⟩

theorem remember (stamp : Nat) (r : Relation) : a.SameNodes (a.remember id stamp r) :=
  rewriteSlot _ (fun _ => rfl) fun _ => rfl

theorem forget : a.SameNodes (a.forget id) := rewriteSlot _ (fun _ => rfl) fun _ => rfl

end SameNodes

/-- an arena with more nodes: what was there is as it was, and nothing is kept of the new nodes -/
structure Extends (a b : Arena) : Prop where
  environment : b.environment = a.environment
  clock : a.clock ≤ b.clock
  size : a.size ≤ b.size
  slot : ∀ x, a.contains x = true → b.slot x = a.slot x
  blank : ∀ x, a.contains x = false → (b.slot x).memo = none

namespace Extends

theorem refl (a : Arena) : a.Extends a := by
  refine ⟨rfl, Nat.le_refl _, Nat.le_refl _, fun _ _ => rfl, fun x hx => ?_⟩
  rw [slot_eq_default hx]
  rfl

theorem contains (h : a.Extends b) (hx : a.contains x = true) : b.contains x = true :=
  contains_iff.2 (Nat.lt_of_lt_of_le (contains_iff.1 hx) h.size)

theorem node (h : a.Extends b) (hx : a.contains x = true) : b.node x = a.node x := congrArg Slot.node (h.slot x hx)

theorem parents (h : a.Extends b) (hx : a.contains x = true) : b.parents x = a.parents x :=
  congrArg (fun n => n.core.parents) (h.node hx)

theorem trans {c : Arena} (h : a.Extends b) (h' : b.Extends c) : a.Extends c := by
  refine ⟨h'.environment.trans h.environment, Nat.le_trans h.clock h'.clock, Nat.le_trans h.size h'.size,
    fun x hx => (h'.slot x (h.contains hx)).trans (h.slot x hx), fun x hx => ?_⟩
  by_cases hb : b.contains x = true
  · rw [h'.slot x hb]
    exact h.blank x hx
  · exact h'.blank x (by simpa using hb)

theorem append (n : PlanNode) : a.Extends (a.append n).2 := by
  refine ⟨rfl, Nat.le_succ _, ?_, fun x hx => slot_append_of_contains n hx, fun x hx => ?_⟩
  · rw [size_append]
    exact Nat.le_succ _
  · rw [slot_append]
    split
    · rfl
    · rw [slot_eq_default hx]
      rfl

end Extends

namespace WellFormed

theorem empty (env : Environment) : (Arena.empty env).WellFormed := by
  have hnone : ∀ id, (Arena.empty env).parents id = [] := fun id => parents_eq_nil rfl
  refine ⟨?_, ?_, ?_⟩
  · intro id p hp
    rw [hnone] at hp
    exact absurd hp List.not_mem_nil
  · intro id
    simp [version, slot, Arena.empty]
    rfl
  · intro id h
    obtain ⟨p, hp, -⟩ := h.cases_parent
    rw [hnone] at hp
    exact absurd hp List.not_mem_nil

theorem of_sameNodes (ha : a.WellFormed) (h : a.SameNodes b) : b.WellFormed := by
  refine ⟨?_, ?_, ?_⟩
  · intro id p hp
    rw [h.contains]
    exact ha.closed id p (h.parents id ▸ hp)
  · intro id
    rw [h.version, h.clock]
    exact ha.dated id
  · intro id hd
    exact ha.acyclic id (h.dependsOn.1 hd)

/-- a node's dependences are those of before a node is put at the end -/
theorem dependsOn_append (ha : a.WellFormed) (n : PlanNode) (h : a.contains id = true) :
    (a.append n).2.DependsOn id q ↔ a.DependsOn id q := by
  have hs : ∀ x, a.contains x = true → (a.append n).2.parents x = a.parents x := by
    intro x hx
    simp only [parents, core, node, slot_append_of_contains n hx]
  exact DependsOn.iff_of_same_parents (hs id h) fun x hx => hs x (contains_of_dependsOn ha hx)

theorem append (ha : a.WellFormed) {n : PlanNode} (hn : ∀ p ∈ n.core.parents, a.contains p = true) :
    (a.append n).2.WellFormed := by
  have hnew : (a.append n).2.parents (a.append n).1 = n.core.parents := by
    rw [parents, core, node_append_new]
  have hold : ∀ x, a.contains x = true → (a.append n).2.parents x = a.parents x := by
    intro x hx
    simp only [parents, core, node, slot_append_of_contains n hx]
  have hclosed : ∀ x, ∀ p ∈ (a.append n).2.parents x, a.contains p = true := by
    intro x p hp
    rcases (contains_append n).1 (contains_of_mem_parents hp) with hx | rfl
    · exact ha.closed x p (hold x hx ▸ hp)
    · exact hn p (hnew ▸ hp)
  refine ⟨fun x p hp => (contains_append n).2 (Or.inl (hclosed x p hp)), ?_, ?_⟩
  · intro x
    have := ha.dated x
    rw [version, slot_append]
    split
    · exact Nat.le_refl _
    · exact Nat.le_succ_of_le this
  · intro x hd
    -- a node on a cycle is a parent, so it was there before, and its dependences are the old ones
    have hx : a.contains x = true := by
      rcases Relation.TransGen.tail'_iff.1 hd with ⟨y, -, hy⟩
      exact hclosed y x hy
    exact ha.acyclic x ((dependsOn_append ha n hx).1 hd)

/-- a change of a core that keeps its parents -/
theorem change (ha : a.WellFormed) {f : NodeCore → NodeCore} (hf : ∀ c, (f c).parents = c.parents) :
    (a.change id f).WellFormed := by
  have hp : ∀ x, (a.change id f).parents x = a.parents x := fun x => parents_change f (hf _)
  refine ⟨?_, ?_, ?_⟩
  · intro x p hx
    rw [contains_change]
    exact ha.closed x p (hp x ▸ hx)
  · intro x
    have := ha.dated x
    rw [version, slot_change]
    split
    · exact Nat.le_refl _
    · exact Nat.le_succ_of_le this
  · intro x hd
    exact ha.acyclic x ((DependsOn.iff_of_same_parents (hp x) fun y _ => hp y).1 hd)

end WellFormed

/-- what new parents are accepted, and what they change -/
theorem addParents_eq_ok {ps : List PlanId} (ha : a.WellFormed) (h : a.addParents id ps = .ok b) :
    b = a.change id (fun c => { c with parents := addAllNew c.parents ps }) ∧
      ∀ p ∈ ps, p ≠ id ∧ ¬ a.DependsOn p id := by
  simp only [addParents] at h
  split at h
  · exact absurd h (by simp)
  · rename_i hany
    refine ⟨(Except.ok.inj h).symm, fun p hp => ?_⟩
    have hpart : ¬ (p == id || (a.ancestors p).contains id) = true := fun e => hany (List.any_eq_true.2 ⟨p, hp, e⟩)
    rw [Bool.or_eq_true, not_or, beq_iff_eq, SortedSet.contains_iff] at hpart
    exact ⟨hpart.1, fun hd => hpart.2 ((mem_ancestors ha).2 hd)⟩

/-- a dependence through new edges uses an old path up to the first and an old path from the last of them -/
theorem dependsOn_newParents {ps : List PlanId} (hb : ∀ x, ∀ y ∈ b.parents x, y ∈ a.parents x ∨ x = id ∧ y ∈ ps)
    (hps : ∀ p ∈ ps, p ≠ id ∧ ¬ a.DependsOn p id) (h : b.DependsOn x y) :
    a.DependsOn x y ∨ (x = id ∨ a.DependsOn x id) ∧ ∃ p ∈ ps, p = y ∨ a.DependsOn p y := by
  induction h with
  | single hy =>
    rcases hb _ _ hy with hy | ⟨rfl, hy⟩
    · exact Or.inl (.of_parent hy)
    · exact Or.inr ⟨Or.inl rfl, _, hy, Or.inl rfl⟩
  | @tail y z _ hz ih =>
    rcases ih with hd | ⟨hx, p, hp, hpy⟩ <;> rcases hb _ _ hz with hz | ⟨rfl, hz⟩
    · exact Or.inl (hd.tail hz)
    · exact Or.inr ⟨Or.inr hd, _, hz, Or.inl rfl⟩
    · rcases hpy with rfl | hpy
      · exact Or.inr ⟨hx, p, hp, Or.inr (.of_parent hz)⟩
      · exact Or.inr ⟨hx, p, hp, Or.inr (hpy.tail hz)⟩
    · rcases hpy with rfl | hpy
      · exact absurd rfl (hps p hp).1
      · exact absurd hpy (hps p hp).2

theorem WellFormed.addParents {ps : List PlanId} (ha : a.WellFormed) (hps : ∀ p ∈ ps, a.contains p = true)
    (h : a.addParents id ps = .ok b) : b.WellFormed := by
  obtain ⟨rfl, hfree⟩ := addParents_eq_ok ha h
  set b := a.change id (fun c => { c with parents := addAllNew c.parents ps }) with hb
  have hedges : ∀ x, ∀ y ∈ b.parents x, y ∈ a.parents x ∨ x = id ∧ y ∈ ps := by
    intro x y hy
    by_cases hx : x = id ∧ a.contains id = true
    · obtain ⟨rfl, hc⟩ := hx
      rw [hb, parents, core_change_self _ hc] at hy
      exact (mem_addAllNew.1 hy).imp_right fun h => ⟨rfl, h⟩
    · rw [hb, parents, core, node, slot_change, if_neg hx] at hy
      exact Or.inl hy
  refine ⟨?_, ?_, ?_⟩
  · intro x y hy
    rw [hb, contains_change]
    rcases hedges x y hy with hy | ⟨-, hy⟩
    · exact ha.closed x y hy
    · exact hps y hy
  · intro x
    have := ha.dated x
    rw [hb, version, slot_change]
    split
    · exact Nat.le_refl _
    · exact Nat.le_succ_of_le this
  · intro x hd
    rcases dependsOn_newParents hedges hfree hd with hd | ⟨hx, p, hp, hpx⟩
    · exact ha.acyclic x hd
    · -- the new parent would have depended on the node already
      rcases hx with rfl | hx
      · exact hpx.elim (hfree p hp).1 (hfree p hp).2
      · rcases hpx with rfl | hpx
        · exact (hfree p hp).2 hx
        · exact (hfree p hp).2 (hpx.trans hx)

end SemanticPlanner.Arena
