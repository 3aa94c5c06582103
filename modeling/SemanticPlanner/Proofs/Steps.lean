/-
Plans of named steps: which step reads which, what the root reads, and how the steps are listed.

  WellFormed     names are distinct, the root and all parents are there, and no step reads itself, directly or not
  Live           the root reads a step, directly or through others
  mem_reachable  pruning keeps exactly the live steps
  reorderBy_eq_ok
                 the steps of a well-formed plan can be listed, each once and after its parents
  getLast?_root  a list of live steps, each after its parents, ends with the root
-/
import SemanticPlanner.Proofs.Lowering
import SemanticPlanner.Proofs.Reach
import SemanticPlanner.Proofs.Topological
import Mathlib.Data.List.Induction
import Mathlib.Data.List.Nodup

namespace SemanticPlanner

namespace CtePlan

variable {p q : CtePlan} {c d : Cte} {n m : String} {f : Cte → Cte} {sort : Topological.Sorting}

/-! ## Steps by name -/

theorem find?_some (h : p.find? n = some c) : c ∈ p.ctes ∧ c.name = n :=
  ⟨List.mem_of_find?_eq_some h, eq_of_beq (List.find?_some (p := fun c : Cte => c.name == n) h)⟩

theorem mem_names : n ∈ p.names ↔ ∃ c ∈ p.ctes, c.name = n := List.mem_map

theorem name_mem (h : c ∈ p.ctes) : c.name ∈ p.names := List.mem_map_of_mem h

theorem exists_find? (h : n ∈ p.names) : ∃ c, p.find? n = some c := by
  obtain ⟨c, hc, hn⟩ := mem_names.1 h
  rw [← Option.isSome_iff_exists, find?, List.find?_isSome]
  exact ⟨c, hc, beq_iff_eq.2 hn⟩

/-- distinct names tell steps apart -/
theorem eq_of_name (hn : p.names.Nodup) (hc : c ∈ p.ctes) (hd : d ∈ p.ctes) (h : c.name = d.name) : c = d :=
  List.inj_on_of_nodup_map hn hc hd h

theorem find?_of_mem (hn : p.names.Nodup) (hc : c ∈ p.ctes) : p.find? c.name = some c := by
  obtain ⟨d, hd⟩ := exists_find? (name_mem hc)
  obtain ⟨hmem, hname⟩ := find?_some hd
  rw [hd, eq_of_name hn hmem hc hname]

/-- steps exchanged one by one for others of their names -/
theorem names_of_map {g : Cte → Cte} (hq : q.ctes = p.ctes.map g) (hname : ∀ c ∈ p.ctes, (g c).name = c.name) :
    q.names = p.names := by
  rw [names, hq, List.map_map]
  exact List.map_congr_left hname

/-! ## One step changed -/

theorem names_modify (hf : ∀ c, c.name = n → (f c).name = n) : (p.modify n f).names = p.names := by
  obtain ⟨ctes, root⟩ := p
  unfold names modify
  induction ctes with
  | nil => rfl
  | cons c rest ih =>
    simp only [modifyIn]
    split
    · rename_i h
      simp [h, hf c h]
    · simpa using ih

/-- the first step of the name is the only one that changes -/
theorem mem_of_mem_modify (h : p.find? n = some c) (hd : d ∈ (p.modify n f).ctes) : d = f c ∨ d ∈ p.ctes := by
  obtain ⟨ctes, root⟩ := p
  unfold find? at h
  unfold modify at hd
  induction ctes with
  | nil => cases hd
  | cons e rest ih =>
    simp only [modifyIn] at hd
    by_cases he : e.name = n
    · rw [List.find?_cons_of_pos (by simpa using he)] at h
      rw [if_pos he] at hd
      cases h
      exact (List.mem_cons.1 hd).imp_right (List.mem_cons_of_mem _)
    · rw [List.find?_cons_of_neg (by simpa using he)] at h
      rw [if_neg he] at hd
      rcases List.mem_cons.1 hd with rfl | hd
      · exact Or.inr List.mem_cons_self
      · exact (ih h hd).imp_right (List.mem_cons_of_mem _)

/-- a step of the changed plan is one of the given plan, or such a one changed -/
theorem of_mem_modify (h : d ∈ (p.modify n f).ctes) : d ∈ p.ctes ∨ ∃ c ∈ p.ctes, d = f c := by
  obtain ⟨ctes, root⟩ := p
  unfold modify at h
  induction ctes with
  | nil => cases h
  | cons e rest ih =>
    simp only [modifyIn] at h
    split at h
    · rcases List.mem_cons.1 h with rfl | h
      · exact Or.inr ⟨e, List.mem_cons_self, rfl⟩
      · exact Or.inl (List.mem_cons_of_mem _ h)
    · rcases List.mem_cons.1 h with rfl | h
      · exact Or.inl List.mem_cons_self
      · exact (ih h).imp (List.mem_cons_of_mem _) fun ⟨c, hc, he⟩ => ⟨c, List.mem_cons_of_mem _ hc, he⟩

/-- a step of the given plan is there after the change, or is there changed -/
theorem mem_modify_or (hc : c ∈ p.ctes) : c ∈ (p.modify n f).ctes ∨ f c ∈ (p.modify n f).ctes := by
  obtain ⟨ctes, root⟩ := p
  unfold modify
  induction ctes with
  | nil => cases hc
  | cons e rest ih =>
    simp only [modifyIn]
    split
    · rcases List.mem_cons.1 hc with rfl | hc
      · exact Or.inr List.mem_cons_self
      · exact Or.inl (List.mem_cons_of_mem _ hc)
    · rcases List.mem_cons.1 hc with rfl | hc
      · exact Or.inl List.mem_cons_self
      · exact (ih hc).imp (List.mem_cons_of_mem _) (List.mem_cons_of_mem _)

theorem mem_modify_self (h : p.find? n = some c) : f c ∈ (p.modify n f).ctes := by
  obtain ⟨ctes, root⟩ := p
  unfold find? at h
  unfold modify
  induction ctes with
  | nil => cases h
  | cons e rest ih =>
    simp only [modifyIn]
    by_cases he : e.name = n
    · rw [List.find?_cons_of_pos (by simpa using he)] at h
      cases h
      rw [if_pos he]
      exact List.mem_cons_self
    · rw [List.find?_cons_of_neg (by simpa using he)] at h
      rw [if_neg he]
      exact List.mem_cons_of_mem _ (ih h)

/-- with distinct names, all steps of the name change -/
theorem ctes_modify (hn : p.names.Nodup) (n : String) (f : Cte → Cte) :
    (p.modify n f).ctes = p.ctes.map fun c => if c.name = n then f c else c := by
  obtain ⟨ctes, root⟩ := p
  unfold names at hn
  unfold modify
  induction ctes with
  | nil => rfl
  | cons c rest ih =>
    rw [List.map_cons, List.nodup_cons] at hn
    simp only [modifyIn]
    split
    · rename_i h
      have hrest : ∀ d ∈ rest, (if d.name = n then f d else d) = d := by
        intro d hd
        refine if_neg fun hd' => hn.1 ?_
        rw [h, ← hd']
        exact List.mem_map_of_mem hd
      rw [List.map_cons, if_pos h, List.map_congr_left hrest, List.map_id']
    · rename_i h
      rw [List.map_cons, if_neg h]
      exact congrArg _ (ih hn.2)

theorem find?_modify (h : p.find? n = some c) (hf : (f c).name = n) :
    (p.modify n f).find? m = if m = n then some (f c) else p.find? m := by
  obtain ⟨ctes, root⟩ := p
  unfold find? at h ⊢
  unfold modify
  induction ctes with
  | nil => cases h
  | cons e rest ih =>
    simp only [modifyIn]
    by_cases he : e.name = n
    · rw [List.find?_cons_of_pos (by simpa using he)] at h
      cases h
      rw [if_pos he]
      by_cases hm : m = n
      · rw [if_pos hm, List.find?_cons_of_pos (by simp [hf, hm])]
      · rw [if_neg hm, List.find?_cons_of_neg (by simpa [hf] using fun e => hm e.symm),
          List.find?_cons_of_neg (by simpa [he] using fun e => hm e.symm)]
    · rw [List.find?_cons_of_neg (by simpa using he)] at h
      rw [if_neg he]
      by_cases hm : e.name = m
      · rw [List.find?_cons_of_pos (by simpa using hm), List.find?_cons_of_pos (by simpa using hm),
          if_neg fun e' => he (hm.trans e')]
      · rw [List.find?_cons_of_neg (by simpa using hm), List.find?_cons_of_neg (by simpa using hm)]
        exact ih h

/-- step by step, what the changed step is to the given one, if every step is that to itself -/
theorem forall₂_modify {R : Cte → Cte → Prop} (hrefl : ∀ c ∈ p.ctes, R c c)
    (hf : ∀ c, p.find? n = some c → R c (f c)) : List.Forall₂ R p.ctes (p.modify n f).ctes := by
  obtain ⟨ctes, root⟩ := p
  unfold find? at hf
  unfold modify
  induction ctes with
  | nil => exact .nil
  | cons e rest ih =>
    obtain ⟨he, hrest⟩ := List.forall_mem_cons.1 hrefl
    simp only [modifyIn]
    split
    · rename_i hname
      refine .cons (hf e ?_) (List.forall₂_same.2 hrest)
      rw [List.find?_cons_of_pos (by simpa using hname)]
    · rename_i hname
      refine .cons he (ih hrest fun c hc => hf c ?_)
      rw [List.find?_cons_of_neg (by simpa using hname)]
      exact hc

/-- what a change of a step leaves as it is -/
theorem map_modify {α : Type} {φ : Cte → α} (hf : ∀ c, φ (f c) = φ c) : (p.modify n f).ctes.map φ = p.ctes.map φ := by
  obtain ⟨ctes, root⟩ := p
  unfold modify
  induction ctes with
  | nil => rfl
  | cons e rest ih =>
    simp only [modifyIn]
    split
    · rw [List.map_cons, List.map_cons, hf]
    · rw [List.map_cons, List.map_cons, ih]

/-- of two changes of a step the last one stays -/
theorem modify_modify (hf : c.name = n) :
    (p.modify n fun _ => c).modify n (fun _ => d) = p.modify n fun _ => d := by
  obtain ⟨ctes, root⟩ := p
  simp only [modify, mk.injEq, and_true]
  induction ctes with
  | nil => rfl
  | cons e rest ih =>
    by_cases he : e.name = n
    · simp [modifyIn, he, hf]
    · simp [modifyIn, he, ih]

/-- a step exchanged for itself -/
theorem modify_self (h : p.find? n = some c) : (p.modify n fun _ => c) = p := by
  obtain ⟨ctes, root⟩ := p
  unfold find? at h
  simp only [modify, mk.injEq, and_true]
  induction ctes with
  | nil => rfl
  | cons e rest ih =>
    by_cases he : e.name = n
    · rw [List.find?_cons_of_pos (by simpa using he)] at h
      cases h
      simp [modifyIn, he]
    · rw [List.find?_cons_of_neg (by simpa using he)] at h
      simp [modifyIn, he, ih h]

/-! ## Readers -/

/-- a step reads another one by name -/
def Reads (p : CtePlan) (a b : String) : Prop := ∃ c ∈ p.ctes, c.name = a ∧ b ∈ c.parents

theorem readersOf_update (r : Readers) (k m : String) :
    readersOf (r.update k [] fun l => addNew l m) n = if n = k then addNew (readersOf r n) m else readersOf r n := by
  rw [readersOf, SortedMap.getD, SortedMap.update, SortedMap.get?_insert]
  by_cases h : n = k
  · subst h
    simp [readersOf]
  · simp [readersOf, SortedMap.getD, h]

/-- the steps that read a step, in their order, each once -/
theorem readersOf_readers :
    readersOf p.readers n =
      distinct (p.ctes.flatMap fun c => (c.parents.filter fun q => q = n).map fun _ => c.name) := by
  have hparents : ∀ (c : Cte) (l : List String) (r : Readers),
      readersOf (l.foldl (fun r q => r.update q [] fun l => addNew l c.name) r) n =
        addAllNew (readersOf r n) ((l.filter fun q => q = n).map fun _ => c.name) := by
    intro c l
    induction l with
    | nil => exact fun r => rfl
    | cons k rest ih =>
      intro r
      rw [List.foldl_cons, ih, readersOf_update]
      by_cases h : k = n
      · simp [h, addAllNew]
      · simp [h, Ne.symm h]
  have hsteps : ∀ (l : List Cte) (r : Readers),
      readersOf (l.foldl (fun r c => c.parents.foldl (fun r q => r.update q [] fun l => addNew l c.name) r) r) n =
        addAllNew (readersOf r n) (l.flatMap fun c => (c.parents.filter fun q => q = n).map fun _ => c.name) := by
    intro l
    induction l with
    | nil => exact fun r => rfl
    | cons c rest ih =>
      intro r
      rw [List.foldl_cons, ih, hparents, List.flatMap_cons, addAllNew, addAllNew, addAllNew, List.foldl_append]
  exact hsteps p.ctes ∅

theorem mem_readersOf : m ∈ readersOf p.readers n ↔ p.Reads m n := by
  rw [readersOf_readers, mem_distinct, List.mem_flatMap]
  constructor
  · rintro ⟨c, hc, hm⟩
    obtain ⟨q, hq, rfl⟩ := List.mem_map.1 hm
    obtain ⟨hmem, he⟩ := List.mem_filter.1 hq
    exact ⟨c, hc, rfl, of_decide_eq_true he ▸ hmem⟩
  · rintro ⟨c, hc, rfl, hn⟩
    exact ⟨c, hc, List.mem_map.2 ⟨n, List.mem_filter.2 ⟨hn, decide_eq_true rfl⟩, rfl⟩⟩

theorem nodup_readersOf : (readersOf p.readers n).Nodup := by
  rw [readersOf_readers]
  exact nodup_distinct _

/-! ## Well-formed plans -/

/-- names are distinct, the root and all parents are there, and no step reads itself, directly or not -/
structure WellFormed (p : CtePlan) : Prop where
  distinct : p.names.Nodup
  rooted : p.root ∈ p.names
  parents : ∀ c ∈ p.ctes, ∀ n ∈ c.parents, n ∈ p.names
  acyclic : ∀ n, ¬ Relation.TransGen p.Reads n n

/-- a plan whose steps stand after their parents, each under a name of its own -/
theorem wellFormed_of_idxOf (hn : p.names.Nodup) (hroot : p.root ∈ p.names)
    (h : ∀ c ∈ p.ctes, ∀ m ∈ c.parents, p.names.idxOf m < p.names.idxOf c.name) : p.WellFormed := by
  have hread : ∀ n m, Relation.TransGen p.Reads n m → p.names.idxOf m < p.names.idxOf n := by
    intro n m hr
    induction hr with
    | single hr =>
      obtain ⟨c, hc, rfl, hm⟩ := hr
      exact h c hc _ hm
    | tail _ hr ih =>
      obtain ⟨c, hc, rfl, hm⟩ := hr
      exact Nat.lt_trans (h c hc _ hm) ih
  refine ⟨hn, hroot, fun c hc m hm => ?_, fun n hn => Nat.lt_irrefl _ (hread n n hn)⟩
  have hlt := h c hc m hm
  have hle : p.names.idxOf c.name ≤ p.names.length := List.idxOf_le_length
  exact List.idxOf_lt_length_iff.1 (by omega)

/-- the root reads a step, directly or through others, or is it -/
def Live (p : CtePlan) (n : String) : Prop := Relation.ReflTransGen p.Reads p.root n

theorem WellFormed.mem_names_of_reads (h : p.WellFormed) (hr : p.Reads n m) : m ∈ p.names := by
  obtain ⟨c, hc, -, hm⟩ := hr
  exact h.parents c hc m hm

theorem WellFormed.live_mem (h : p.WellFormed) (hl : p.Live n) : n ∈ p.names := by
  induction hl with
  | refl => exact h.rooted
  | tail _ hr _ => exact h.mem_names_of_reads hr

theorem mem_parentsOf (hn : p.names.Nodup) : m ∈ p.parentsOf n ↔ p.Reads n m := by
  unfold parentsOf
  constructor
  · intro h
    split at h
    · rename_i c hc
      obtain ⟨hmem, hname⟩ := find?_some hc
      exact ⟨c, hmem, hname, h⟩
    · cases h
  · rintro ⟨c, hc, rfl, hm⟩
    rw [find?_of_mem hn hc]
    exact hm

/-- **pruning keeps exactly the live steps** -/
theorem mem_reachable (h : p.WellFormed) : n ∈ p.reachable ↔ p.Live n := by
  have hstart : ∀ x ∈ SortedSet.singleton p.root, x ∈ p.names := by
    intro x hx
    rw [SortedSet.mem_singleton.1 hx]
    exact h.rooted
  have hclosed : ∀ x ∈ p.names, ∀ y ∈ p.parentsOf x, y ∈ p.names :=
    fun x _ y hy => h.mem_names_of_reads ((mem_parentsOf h.distinct).1 hy)
  have hlength : p.names.length ≤ (SortedSet.singleton p.root).size + (p.ctes.length + 2) := by
    rw [names, List.length_map]
    omega
  rw [reachable, Reach.mem_grow_iff hstart hclosed hlength]
  constructor
  · intro hr
    induction hr with
    | start hx => rw [SortedSet.mem_singleton.1 hx]; exact .refl
    | step _ hy ih => exact ih.tail ((mem_parentsOf h.distinct).1 hy)
  · intro hl
    induction hl with
    | refl => exact .start (SortedSet.mem_singleton.2 rfl)
    | tail _ hr ih => exact ih.step ((mem_parentsOf h.distinct).2 hr)

theorem mem_prune : c ∈ p.prune.ctes ↔ c ∈ p.ctes ∧ c.name ∈ p.reachable := by
  rw [prune, List.mem_filter, SortedSet.contains_iff]

@[simp] theorem root_prune : p.prune.root = p.root := rfl

/-! ## Listing the steps -/

theorem position_some {i : Nat} (h : p.position n = some i) : ∃ c, p.ctes[i]? = some c ∧ c.name = n := by
  obtain ⟨e, he, rfl⟩ := Option.map_eq_some_iff.1 h
  obtain ⟨hmem, hname⟩ := List.mem_filter.1 (List.mem_of_getLast? he)
  exact ⟨e.1, List.mem_zipIdx_iff_getElem?.1 hmem, eq_of_beq hname⟩

theorem exists_position (h : n ∈ p.names) : ∃ i, p.position n = some i := by
  obtain ⟨c, hc, hn⟩ := mem_names.1 h
  obtain ⟨i, hi, rfl⟩ := List.getElem_of_mem hc
  have hmem : (p.ctes[i], i) ∈ p.ctes.zipIdx.filter fun e => e.1.name == n := by
    refine List.mem_filter.2 ⟨List.mem_zipIdx_iff_getElem?.2 (List.getElem?_eq_getElem hi), beq_iff_eq.2 hn⟩
  rw [← Option.isSome_iff_exists, position, Option.isSome_map, List.getLast?_isSome]
  exact List.ne_nil_of_mem hmem

/-- an edge stands for a step that reads another one -/
theorem mem_edges {i j : Nat} :
    (i, j) ∈ p.edges ↔ ∃ c ∈ p.ctes, ∃ n ∈ c.parents, p.position n = some i ∧ p.position c.name = some j := by
  simp only [edges, List.mem_flatMap, List.mem_filterMap]
  constructor
  · rintro ⟨c, hc, n, hn, he⟩
    split at he
    · rename_i k l hk hl
      cases he
      exact ⟨c, hc, n, hn, hk, hl⟩
    · cases he
  · rintro ⟨c, hc, n, hn, hi, hj⟩
    refine ⟨c, hc, n, hn, ?_⟩
    rw [hi, hj]

/-- an edge, read backwards, between the names of the steps at its ends -/
theorem reads_of_mem_edges {i j : Nat} (h : (i, j) ∈ p.edges) :
    ∃ c d, p.ctes[i]? = some c ∧ p.ctes[j]? = some d ∧ p.Reads d.name c.name := by
  obtain ⟨e, he, n, hn, hi, hj⟩ := mem_edges.1 h
  obtain ⟨c, hc, hcn⟩ := position_some hi
  obtain ⟨d, hd, hdn⟩ := position_some hj
  exact ⟨c, d, hc, hd, e, he, hdn.symm, hcn ▸ hn⟩

theorem reads_of_transGen {i j : Nat} (h : Relation.TransGen (fun a b => (a, b) ∈ p.edges) i j) :
    ∃ c d, p.ctes[i]? = some c ∧ p.ctes[j]? = some d ∧ Relation.TransGen p.Reads d.name c.name := by
  induction h with
  | single h =>
    obtain ⟨c, d, hc, hd, hr⟩ := reads_of_mem_edges h
    exact ⟨c, d, hc, hd, .single hr⟩
  | tail _ h ih =>
    obtain ⟨c, d, hc, hd, hr⟩ := ih
    obtain ⟨d', e, hd', he, hr'⟩ := reads_of_mem_edges h
    rw [hd] at hd'
    cases hd'
    exact ⟨c, e, hc, he, .head hr' hr⟩

theorem filterMap_getElem?_range (l : List Cte) : (List.range l.length).filterMap (fun i => l[i]?) = l := by
  induction l using List.reverseRecOn with
  | nil => rfl
  | append_singleton l c ih =>
    have hfront : (List.range l.length).filterMap (fun i => (l ++ [c])[i]?) = l := by
      rw [List.filterMap_congr fun i hi => List.getElem?_append_left (List.mem_range.1 hi)]
      exact ih
    rw [List.length_append, List.length_singleton, List.range_succ, List.filterMap_append, hfront]
    simp

/-- the steps are only listed anew -/
theorem of_reorderBy (h : p.reorderBy sort = .ok q) : q.root = p.root ∧ ∀ c ∈ q.ctes, c ∈ p.ctes := by
  unfold reorderBy at h
  split at h
  · cases h
    refine ⟨rfl, fun c hc => ?_⟩
    obtain ⟨i, -, hi⟩ := List.mem_filterMap.1 hc
    exact List.mem_of_getElem? hi
  · cases h

theorem getElem?_filterMap {α β : Type} {g : α → Option β} {l : List α} (h : ∀ a ∈ l, (g a).isSome) (k : Nat) :
    (l.filterMap g)[k]? = l[k]?.bind g := by
  induction l generalizing k with
  | nil => rfl
  | cons a l ih =>
    obtain ⟨b, hb⟩ := Option.isSome_iff_exists.1 (h a List.mem_cons_self)
    rw [List.filterMap_cons_some hb]
    cases k with
    | zero => simp [hb]
    | succ k => simpa using ih (fun a ha => h a (List.mem_cons_of_mem _ ha)) k

/-- distinct names stand at distinct positions -/
theorem index_unique (hn : p.names.Nodup) {i j : Nat} (hi : p.ctes[i]? = some c) (hj : p.ctes[j]? = some d)
    (h : c.name = d.name) : i = j := by
  have hname : ∀ {k : Nat} {e : Cte}, p.ctes[k]? = some e → p.names[k]? = some e.name := by
    intro k e he
    rw [names, List.getElem?_map, he]
    rfl
  have hsame : p.names[i]? = p.names[j]? := by rw [hname hi, hname hj, h]
  exact (List.getElem?_inj (List.getElem?_eq_some_iff.1 (hname hi)).1 hn).1 hsame

theorem position_eq (hn : p.names.Nodup) {i : Nat} (hi : p.ctes[i]? = some c) : p.position c.name = some i := by
  obtain ⟨j, hj⟩ := exists_position (name_mem (List.mem_of_getElem? hi))
  obtain ⟨d, hd, hname⟩ := position_some hj
  rw [hj, index_unique hn hd hi hname]

/-- a list of positions in which those of parents come first, as a list of steps -/
theorem WellFormed.parentsFirst (h : p.WellFormed) {l : List Nat} (hl : l.Perm (List.range p.ctes.length))
    (hs : Topological.Settled p.edges l) : ParentsFirst (l.filterMap fun i => p.ctes[i]?) := by
  have hnodup : l.Nodup := hl.nodup_iff.2 List.nodup_range
  have hmem : ∀ i, i ∈ l ↔ i < p.ctes.length := fun i => hl.mem_iff.trans List.mem_range
  have hget := getElem?_filterMap (g := fun i => p.ctes[i]?) (l := l) fun i hi => by simpa using (hmem i).1 hi
  intro k c hc n hn
  rw [hget] at hc
  obtain ⟨i, hi, hci⟩ := Option.bind_eq_some_iff.1 hc
  have hpc : c ∈ p.ctes := List.mem_of_getElem? hci
  obtain ⟨j, hj⟩ := exists_position (h.parents c hpc n hn)
  obtain ⟨d, hd, hdn⟩ := position_some hj
  have hedge : (j, i) ∈ p.edges := mem_edges.2 ⟨c, hpc, n, hn, hj, position_eq h.distinct hci⟩
  have hjl : j ∈ l := (hmem j).2 (List.getElem?_eq_some_iff.1 hd).1
  obtain ⟨hk, hik⟩ := List.getElem?_eq_some_iff.1 hi
  have hsplit : l = l.take k ++ i :: l.drop (k + 1) := by
    rw [← hik, List.getElem_cons_drop, List.take_append_drop]
  obtain ⟨m, hm, hjm⟩ := List.getElem_of_mem (hs.mem_before hnodup hsplit hjl hedge)
  rw [List.length_take] at hm
  refine ⟨m, d, by omega, ?_, hdn⟩
  rw [List.getElem_take] at hjm
  rw [hget, List.getElem?_eq_getElem (by omega), hjm]
  exact hd

/-- **the steps of a well-formed plan can be listed**, each once and after its parents -/
theorem reorderBy_eq_ok (hsort : Topological.IsSort sort) (h : p.WellFormed) :
    ∃ q, p.reorderBy sort = .ok q ∧ q.root = p.root ∧ q.ctes.Perm p.ctes ∧ ParentsFirst q.ctes := by
  have hin : ∀ i j, (i, j) ∈ p.edges → i < p.ctes.length ∧ j < p.ctes.length := by
    intro i j he
    obtain ⟨c, d, hc, hd, -⟩ := reads_of_mem_edges he
    exact ⟨(List.getElem?_eq_some_iff.1 hc).1, (List.getElem?_eq_some_iff.1 hd).1⟩
  have hacyclic : ∀ i, ¬ Relation.TransGen (fun a b => (a, b) ∈ p.edges) i i := by
    intro i hi
    obtain ⟨c, d, hc, hd, hr⟩ := reads_of_transGen hi
    rw [hc] at hd
    cases hd
    exact h.acyclic _ hr
  obtain ⟨l, hl, hperm, hs⟩ := hsort hin hacyclic
  refine ⟨{ p with ctes := l.filterMap fun i => p.ctes[i]? }, ?_, rfl, ?_, h.parentsFirst hperm hs⟩
  · rw [reorderBy, hl]
  · have := hperm.filterMap fun i => p.ctes[i]?
    rwa [filterMap_getElem?_range] at this

/-- **a list of live steps, each after its parents, ends with the root** -/
theorem getLast?_root (h : p.WellFormed) (hlive : ∀ c ∈ p.ctes, p.Live c.name) (hfirst : ParentsFirst p.ctes) :
    ∃ c, p.ctes.getLast? = some c ∧ c.name = p.root := by
  obtain ⟨r, hr, -⟩ := mem_names.1 h.rooted
  obtain ⟨c, hc⟩ := Option.isSome_iff_exists.1 (List.getLast?_isSome.2 (List.ne_nil_of_mem hr))
  refine ⟨c, hc, ?_⟩
  -- a live step that is not the root has a reader, which would have to follow it
  rcases Relation.ReflTransGen.cases_tail (hlive c (List.mem_of_getLast? hc)) with he | ⟨n, -, d, hd, -, hcd⟩
  · exact he
  · obtain ⟨i, hi, rfl⟩ := List.getElem_of_mem hd
    obtain ⟨j, e, hj, he, hname⟩ := hfirst i _ (List.getElem?_eq_getElem hi) _ hcd
    rw [List.getLast?_eq_getElem?] at hc
    have hlast := index_unique h.distinct he hc hname
    omega

/-! ## Small plans -/

/-- a step without joins, without a condition and at no grain -/
def plainStep (name : String) (kind : SourceKind) (parents : List String) (datasources : List Datasource)
    (sources : List (String × List String)) (outputs : List String) : Cte :=
  { name, kind, parents, datasources, sourceMap := SortedMap.ofList sources, inputs := outputs, outputs, hidden := ∅,
    partials := [], nullables := [], grain := Grain.ofList [], grouped := false, joins := [], condition := none,
    constants := ∅ }

end CtePlan

end SemanticPlanner
