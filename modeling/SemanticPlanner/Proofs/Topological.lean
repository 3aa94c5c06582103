/-
Listing the nodes of a graph without cycles. Only the promise of a sort is used elsewhere, not the walk behind it.

  Settled           every successor of a listed node is listed behind it
  Ranked            every edge leads to a node of smaller rank
  walkFrom_walked   a walk into a node lists the node and all that follows from it, and leaves the list settled
  IsSort            what a topological sort promises: a graph without cycles is listed, each node once and before its
                    successors
  isSort_order      the depth first walk keeps this promise

A node that was entered and is not listed is one the walk is still below, so it has a larger rank than the node that is
walked into next. A successor that was entered before is therefore listed already.
-/
import SemanticPlanner.Order.Topological
import Mathlib.Data.List.Basic
import Mathlib.Data.List.Perm.Subperm
import Mathlib.Logic.Relation

namespace SemanticPlanner.Topological

variable {edges : List Edge} {rank : Nat → Nat} {n fuel : Nat}

theorem mem_successors {i j : Nat} : j ∈ successors edges i ↔ (i, j) ∈ edges := by
  simp only [successors, List.mem_map, List.mem_filter, beq_iff_eq]
  constructor
  · rintro ⟨⟨a, b⟩, ⟨he, rfl⟩, rfl⟩
    exact he
  · intro h
    exact ⟨(i, j), ⟨h, rfl⟩, rfl⟩

theorem mem_predecessors {i j : Nat} : i ∈ predecessors edges j ↔ (i, j) ∈ edges := by
  simp only [predecessors, List.mem_map, List.mem_filter, beq_iff_eq]
  constructor
  · rintro ⟨⟨a, b⟩, ⟨he, rfl⟩, rfl⟩
    exact he
  · intro h
    exact ⟨(i, j), ⟨h, rfl⟩, rfl⟩

/-! ## Settled lists -/

/-- every successor of a listed node is listed behind it -/
def Settled (edges : List Edge) : List Nat → Prop
  | [] => True
  | i :: rest => (∀ j ∈ successors edges i, j ∈ rest) ∧ Settled edges rest

theorem Settled.mem_of_edge {l : List Nat} (h : Settled edges l) {i j : Nat} (hi : i ∈ l) (he : (i, j) ∈ edges) :
    j ∈ l := by
  induction l with
  | nil => cases hi
  | cons k rest ih =>
    rcases List.mem_cons.1 hi with rfl | hi
    · exact List.mem_cons_of_mem _ (h.1 j (mem_successors.2 he))
    · exact List.mem_cons_of_mem _ (ih h.2 hi)

/-- what leads to a listed node stands before it -/
theorem Settled.mem_before {l a b : List Nat} (h : Settled edges l) (hn : l.Nodup) {i j : Nat} (hl : l = a ++ j :: b)
    (hi : i ∈ l) (he : (i, j) ∈ edges) : i ∈ a := by
  induction l generalizing a with
  | nil => cases hi
  | cons k rest ih =>
    have hk := (List.nodup_cons.1 hn).1
    cases a with
    | nil =>
      obtain ⟨rfl, rfl⟩ := List.cons.inj hl
      rcases List.mem_cons.1 hi with rfl | hi
      · exact absurd (h.1 _ (mem_successors.2 he)) hk
      · exact absurd (h.2.mem_of_edge hi he) hk
    | cons k' a =>
      obtain ⟨rfl, hrest⟩ := List.cons.inj hl
      rcases List.mem_cons.1 hi with rfl | hi
      · exact List.mem_cons_self
      · exact List.mem_cons_of_mem _ (ih h.2 (List.nodup_cons.1 hn).2 hrest hi)

/-- a settled list is not broken anywhere -/
theorem firstBroken_eq_none {before l : List Nat} (h : Settled edges l) (hn : l.Nodup)
    (hall : ∀ i j, (i, j) ∈ edges → j ∈ l → i ∈ before ∨ i ∈ l) : firstBroken edges before l = none := by
  induction l generalizing before with
  | nil => rfl
  | cons j rest ih =>
    have hnone : (predecessors edges j).find? (fun p => !before.contains p) = none := by
      rw [List.find?_eq_none]
      intro i hi
      have he := mem_predecessors.1 hi
      rcases hall i j he List.mem_cons_self with hb | hb
      · simp [hb]
      · exact absurd (h.mem_before hn (a := []) rfl hb he) List.not_mem_nil
    rw [firstBroken, hnone]
    refine ih h.2 (List.nodup_cons.1 hn).2 fun i k he hk => ?_
    rcases hall i k he (List.mem_cons_of_mem _ hk) with hb | hb
    · exact Or.inl (List.mem_cons_of_mem _ hb)
    · rcases List.mem_cons.1 hb with rfl | hb
      · exact Or.inl List.mem_cons_self
      · exact Or.inr hb

/-! ## Walks -/

/-- every edge leads to a node of smaller rank -/
def Ranked (edges : List Edge) (rank : Nat → Nat) : Prop := ∀ i j, (i, j) ∈ edges → rank j < rank i

/-- the list of a walk is settled and holds nodes that were entered, each once -/
structure Walk.Sound (edges : List Edge) (n : Nat) (w : Walk) : Prop where
  entered : ∀ i ∈ w.listed, i ∈ w.entered
  inside : ∀ i ∈ w.listed, i < n
  nodup : w.listed.Nodup
  settled : Settled edges w.listed

/-- what a walk adds: new nodes are listed, and what it leaves unlisted was entered before -/
structure Walk.Adds (w v : Walk) : Prop where
  listed : ∀ i ∈ w.listed, i ∈ v.listed
  entered : ∀ i ∈ w.entered, i ∈ v.entered
  fresh : ∀ i ∈ v.listed, i ∈ w.listed ∨ i ∉ w.entered
  unlisted : ∀ i ∈ v.entered, i ∉ v.listed → i ∈ w.entered

theorem Walk.Adds.refl (w : Walk) : w.Adds w :=
  ⟨fun _ h => h, fun _ h => h, fun _ h => Or.inl h, fun _ h _ => h⟩

theorem Walk.Adds.trans {w v u : Walk} (h : w.Adds v) (h' : v.Adds u) : w.Adds u := by
  refine ⟨fun i hi => h'.listed i (h.listed i hi), fun i hi => h'.entered i (h.entered i hi), fun i hi => ?_,
    fun i hi hn => h.unlisted i (h'.unlisted i hi hn) fun hv => hn (h'.listed i hv)⟩
  rcases h'.fresh i hi with hv | hv
  · exact h.fresh i hv
  · exact Or.inr fun hw => hv (h.entered i hw)

/-- a walk may go into a node: the open ones are all of larger rank -/
def Walk.Above (rank : Nat → Nat) (w : Walk) (i : Nat) : Prop := ∀ k ∈ w.entered, k ∉ w.listed → rank i < rank k

theorem Walk.Above.adds {w v : Walk} {i : Nat} (h : w.Above rank i) (hv : w.Adds v) : v.Above rank i :=
  fun k hk hn => h k (hv.unlisted k hk hn) fun hw => hn (hv.listed k hw)

/-! A walk enters a node, walks its successors, and lists the node. -/

theorem Walk.Sound.enter {w : Walk} {i : Nat} (hw : w.Sound edges n) :
    Walk.Sound edges n { w with entered := i :: w.entered } :=
  ⟨fun k hk => List.mem_cons_of_mem _ (hw.entered k hk), hw.inside, hw.nodup, hw.settled⟩

theorem Walk.Above.enter {w : Walk} {i j : Nat} (h : w.Above rank i) (hlt : rank j < rank i) :
    Walk.Above rank { w with entered := i :: w.entered } j := by
  intro k hk hn
  rcases List.mem_cons.1 hk with rfl | hk
  · exact hlt
  · exact Nat.lt_trans hlt (h k hk hn)

theorem Walk.Sound.list {v : Walk} {i : Nat} (hv : v.Sound edges n) (hi : i < n) (hentered : i ∈ v.entered)
    (hnew : i ∉ v.listed) (hsucc : ∀ j ∈ successors edges i, j ∈ v.listed) :
    Walk.Sound edges n { v with listed := i :: v.listed } where
  entered := List.forall_mem_cons.2 ⟨hentered, hv.entered⟩
  inside := List.forall_mem_cons.2 ⟨hi, hv.inside⟩
  nodup := List.nodup_cons.2 ⟨hnew, hv.nodup⟩
  settled := ⟨hsucc, hv.settled⟩

theorem Walk.Adds.list {w v : Walk} {i : Nat} (h : Walk.Adds { w with entered := i :: w.entered } v)
    (hi : i ∉ w.entered) : w.Adds { v with listed := i :: v.listed } := by
  refine ⟨fun k hk => List.mem_cons_of_mem _ (h.listed k hk), fun k hk => h.entered k (List.mem_cons_of_mem _ hk),
    fun k hk => ?_, fun k hk hn => ?_⟩
  · rcases List.mem_cons.1 hk with rfl | hk
    · exact Or.inr hi
    · exact (h.fresh k hk).imp_right fun hk hw => hk (List.mem_cons_of_mem _ hw)
  · rcases List.mem_cons.1 (h.unlisted k hk fun hv => hn (List.mem_cons_of_mem _ hv)) with rfl | hk
    · exact absurd List.mem_cons_self hn
    · exact hk

/-- walking from `w` has ended in a sound walk with the nodes of `l` listed -/
def Walked (edges : List Edge) (n : Nat) (w : Walk) (l : List Nat) (x : Except Nat Walk) : Prop :=
  ∃ v, x = .ok v ∧ v.Sound edges n ∧ w.Adds v ∧ ∀ i ∈ l, i ∈ v.listed

theorem foldlM_walked
    (hwalk : ∀ w i, w.Sound edges n → i < n → rank i < fuel → w.Above rank i →
      Walked edges n w [i] (walkFrom edges fuel w i))
    (l : List Nat) {w : Walk} (hw : w.Sound edges n) (hl : ∀ i ∈ l, i < n ∧ rank i < fuel ∧ w.Above rank i) :
    Walked edges n w l (l.foldlM (walkFrom edges fuel) w) := by
  induction l generalizing w with
  | nil => exact ⟨w, rfl, hw, .refl w, by simp⟩
  | cons i rest ih =>
    obtain ⟨hin, hrank, habove⟩ := hl i List.mem_cons_self
    obtain ⟨v, hv, hsv, hav, hiv⟩ := hwalk w i hw hin hrank habove
    have hrest : ∀ k ∈ rest, k < n ∧ rank k < fuel ∧ v.Above rank k := fun k hk =>
      let ⟨h, h', h''⟩ := hl k (List.mem_cons_of_mem _ hk)
      ⟨h, h', h''.adds hav⟩
    obtain ⟨u, hu, hsu, hau, hru⟩ := ih hsv hrest
    refine ⟨u, ?_, hsu, hav.trans hau, fun k hk => ?_⟩
    · rw [List.foldlM_cons, hv]
      exact hu
    · rcases List.mem_cons.1 hk with rfl | hk
      · exact hau.listed _ (hiv _ List.mem_cons_self)
      · exact hru k hk

/-- **a walk into a node lists it**, given fuel for its rank -/
theorem walkFrom_walked (hr : Ranked edges rank) (hin : ∀ i j, (i, j) ∈ edges → i < n ∧ j < n) (fuel : Nat) :
    ∀ w i, w.Sound edges n → i < n → rank i < fuel → w.Above rank i →
      Walked edges n w [i] (walkFrom edges fuel w i) := by
  induction fuel with
  | zero => intro _ _ _ _ h; omega
  | succ fuel ih =>
    intro w i hw hi hrank habove
    rw [walkFrom]
    by_cases he : i ∈ w.entered
    · have hlisted : i ∈ w.listed := by
        by_contra hn
        exact absurd (habove i he hn) (Nat.lt_irrefl _)
      rw [if_pos (List.contains_iff_mem.2 he)]
      exact ⟨w, rfl, hw, .refl w, by simpa using hlisted⟩
    · have hloop : ¬ (successors edges i).contains i = true := by
        intro h
        exact absurd (hr i i (mem_successors.1 (List.contains_iff_mem.1 h))) (Nat.lt_irrefl _)
      rw [if_neg (by simpa using he), if_neg hloop]
      have hsucc : ∀ j ∈ successors edges i, j < n ∧ rank j < fuel ∧
          Walk.Above rank { w with entered := i :: w.entered } j := by
        intro j hj
        have hedge := mem_successors.1 hj
        have hlt := hr i j hedge
        exact ⟨(hin i j hedge).2, by omega, habove.enter hlt⟩
      obtain ⟨v, hv, hsv, hav, hjv⟩ := foldlM_walked ih (successors edges i) hw.enter hsucc
      have hnew : i ∉ v.listed := by
        intro h
        rcases hav.fresh i h with h | h
        · exact he (hw.entered i h)
        · exact h List.mem_cons_self
      refine ⟨{ v with listed := i :: v.listed }, ?_, hsv.list hi (hav.entered _ List.mem_cons_self) hnew hjv,
        hav.list he, by simp⟩
      rw [hv]
      rfl

/-! ## Graphs without cycles -/

/-- the nodes below `n` that a node leads to, counted -/
noncomputable def descendants (edges : List Edge) (n i : Nat) : Nat := by
  classical exact ((List.range n).filter fun j => decide (Relation.TransGen (fun a b => (a, b) ∈ edges) i j)).length

theorem descendants_le (edges : List Edge) (n i : Nat) : descendants edges n i ≤ n := by
  classical
  unfold descendants
  calc _ ≤ (List.range n).length := List.length_filter_le _ _
    _ = n := List.length_range

theorem ranked_descendants (hin : ∀ i j, (i, j) ∈ edges → i < n ∧ j < n)
    (hacyclic : ∀ i, ¬ Relation.TransGen (fun a b => (a, b) ∈ edges) i i) : Ranked edges (descendants edges n) := by
  classical
  intro i j he
  unfold descendants
  -- `i` leads to all that `j` leads to, and to `j`
  have hsub : j :: (List.range n).filter (fun k => decide (Relation.TransGen (fun a b => (a, b) ∈ edges) j k)) ⊆
      (List.range n).filter (fun k => decide (Relation.TransGen (fun a b => (a, b) ∈ edges) i k)) := by
    intro k hk
    rcases List.mem_cons.1 hk with rfl | hk
    · exact List.mem_filter.2 ⟨List.mem_range.2 (hin i _ he).2, decide_eq_true (.single he)⟩
    · obtain ⟨hkn, hjk⟩ := List.mem_filter.1 hk
      exact List.mem_filter.2 ⟨hkn, decide_eq_true ((Relation.TransGen.single he).trans (of_decide_eq_true hjk))⟩
  have hnodup : (j :: (List.range n).filter
      (fun k => decide (Relation.TransGen (fun a b => (a, b) ∈ edges) j k))).Nodup := by
    refine List.nodup_cons.2 ⟨fun h => ?_, List.nodup_range.filter _⟩
    exact hacyclic j (of_decide_eq_true (List.mem_filter.1 h).2)
  exact (List.subperm_of_subset hnodup hsub).length_le

/-- what a topological sort promises: a graph without cycles is listed, each node once and before its successors -/
def IsSort (sort : Sorting) : Prop := ∀ {n : Nat} {edges : List Edge}, (∀ i j, (i, j) ∈ edges → i < n ∧ j < n) →
  (∀ i, ¬ Relation.TransGen (fun a b => (a, b) ∈ edges) i i) →
    ∃ l, sort n edges = .ok l ∧ l.Perm (List.range n) ∧ Settled edges l

/-- **the depth first walk is a topological sort** -/
theorem isSort_order : IsSort order := by
  intro n edges hin hacyclic
  have hr := ranked_descendants hin hacyclic
  have hstart : Walk.Sound edges n ⟨[], []⟩ := ⟨by simp, by simp, by simp, trivial⟩
  obtain ⟨w, hw, hs, -, hall⟩ := foldlM_walked (walkFrom_walked hr hin (n + 1)) (List.range n) hstart fun i hi =>
    ⟨List.mem_range.1 hi, Nat.lt_succ_of_le (descendants_le edges n i), fun k hk => absurd hk List.not_mem_nil⟩
  have hperm : w.listed.Perm (List.range n) := by
    rw [List.perm_ext_iff_of_nodup hs.nodup List.nodup_range]
    exact fun i => ⟨fun hi => List.mem_range.2 (hs.inside i hi), hall i⟩
  have hbroken : firstBroken edges [] w.listed = none := by
    refine firstBroken_eq_none hs.settled hs.nodup fun i j he _ => Or.inr ?_
    exact hall i (List.mem_range.2 (hin i j he).1)
  refine ⟨w.listed, ?_, hperm, hs.settled⟩
  simp only [order, hw, bind, Except.bind, hbroken]

end SemanticPlanner.Topological
