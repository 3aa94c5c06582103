/-
Following successors to the end.

  mem_of_size_le   a set inside another of at most its size has every member of it
  grow_closed      with a round for each address still missing, the grown set has the successors of all its members
  mem_grow_iff     and then holds exactly what is reached
  Explored         what a walk that enters each address once has seen when it ends
  Explored.mem_of_reached
                   all that can be reached, where it started with nothing
  exists_transGen_self
                   what never ends within a set goes around a cycle

The bound on the rounds is a list that is closed under successors: a round that is not the last adds a member of it. The
bound on the depth of a walk is how many addresses it has not entered: each one that it goes through is a new one.
-/
import SemanticPlanner.Order.Reach
import SemanticPlanner.Order.SortedMap
import SemanticPlanner.Proofs.ItemByItem
import Mathlib.Data.Finite.Defs
import Mathlib.Data.Fintype.Order
import Mathlib.Data.List.Basic
import Mathlib.Data.List.Perm.Subperm
import Mathlib.Order.WellFounded

namespace SemanticPlanner

variable {α : Type} [Sorts α]

namespace SortedSet

theorem size_le_of_subset {s t : SortedSet α} (h : ∀ x ∈ s, x ∈ t) : s.size ≤ t.size :=
  (List.subperm_of_subset s.nodup fun _ hx => h _ hx).length_le

/-- a list no longer than a set inside it has no member beyond the set -/
theorem mem_of_length_le {s : SortedSet α} {l : List α} (h : ∀ x ∈ s, x ∈ l) (hl : l.length ≤ s.size) {x : α}
    (hx : x ∈ l) : x ∈ s :=
  ((List.subperm_of_subset s.nodup fun _ hy => h _ hy).perm_of_length_le hl).mem_iff.2 hx

theorem mem_of_size_le {s t : SortedSet α} (h : ∀ x ∈ s, x ∈ t) (hs : t.size ≤ s.size) {x : α} (hx : x ∈ t) : x ∈ s :=
  mem_of_length_le h hs hx

end SortedSet

/-- a relation that goes on from every member of a finite collection goes around a cycle in it -/
theorem exists_transGen_self {s : SortedSet α} {P : α → Prop} {R : α → α → Prop} {a : α} (hs : ∀ b, P b → b ∈ s)
    (ha : P a) (hnext : ∀ b, P b → ∃ k, P k ∧ R b k) : ∃ b, P b ∧ Relation.TransGen R b b := by
  by_contra hcycle
  push Not at hcycle
  have hfinite : Finite {b // P b} := (s.toList.finite_toSet.subset fun b hb => hs b hb).to_subtype
  have hirrefl : Std.Irrefl fun x y : {b // P b} => Relation.TransGen R y.1 x.1 := ⟨fun x => hcycle x.1 x.2⟩
  have htrans : IsTrans {b // P b} fun x y => Relation.TransGen R y.1 x.1 := ⟨fun _ _ _ hxy hyz => hyz.trans hxy⟩
  have hwell : WellFounded fun x y : {b // P b} => Relation.TransGen R y.1 x.1 :=
    Finite.wellFounded_of_trans_of_irrefl _
  obtain ⟨last, -, hlast⟩ := hwell.has_min Set.univ ⟨⟨a, ha⟩, trivial⟩
  obtain ⟨k, hk, hR⟩ := hnext last.1 last.2
  exact hlast ⟨k, hk⟩ trivial (.single hR)

/-- a rank that falls along a relation excludes cycles in it -/
theorem not_transGen_self {β : Type} {R : β → β → Prop} (rank : β → Nat) (h : ∀ a b, R a b → rank b < rank a) (a : β) :
    ¬ Relation.TransGen R a a := by
  have hfalls : ∀ {b c}, Relation.TransGen R b c → rank c < rank b := by
    intro b c hbc
    induction hbc with
    | single hR => exact h _ _ hR
    | tail _ hR ih => exact Nat.lt_trans (h _ _ hR) ih
  exact fun hcycle => Nat.lt_irrefl _ (hfalls hcycle)

namespace Reach

variable {next : α → List α}

/-- one round holds what was there and the successors of it -/
theorem mem_round {s : SortedSet α} {x : α} :
    x ∈ s.insertAll (s.toList.flatMap next) ↔ x ∈ s ∨ ∃ y ∈ s, x ∈ next y := by
  rw [SortedSet.mem_insertAll, List.mem_flatMap]
  rfl

/-- with a round for each member of a closed list that is still missing, nothing is left to add -/
theorem grow_closed {n : Nat} {s : SortedSet α} {l : List α} (hs : ∀ x ∈ s, x ∈ l)
    (hl : ∀ x ∈ l, ∀ y ∈ next x, y ∈ l) (hn : l.length ≤ s.size + n) :
    ∀ x ∈ grow next n s, ∀ y ∈ next x, y ∈ grow next n s := by
  induction n generalizing s with
  | zero =>
    intro x hx y hy
    exact SortedSet.mem_of_length_le hs (by omega) (hl x (hs x hx) y hy)
  | succ n ih =>
    have hgrown : ∀ x ∈ s, x ∈ s.insertAll (s.toList.flatMap next) := fun x hx => mem_round.2 (Or.inl hx)
    have hsize := SortedSet.size_le_of_subset hgrown
    simp only [grow]
    split
    · rename_i hsame
      -- the round added nothing, so the set was closed before it
      intro x hx y hy
      exact SortedSet.mem_of_size_le hgrown (by omega) (mem_round.2 (Or.inr ⟨x, hx, hy⟩))
    · refine ih ?_ (by omega)
      intro x hx
      rcases mem_round.1 hx with hx | ⟨y, hy, hxy⟩
      · exact hs x hx
      · exact hl y (hs y hy) x hxy

/-- **the grown set holds exactly what is reached**, given a round for each member of a closed list -/
theorem mem_grow_iff {n : Nat} {s : SortedSet α} {l : List α} (hs : ∀ x ∈ s, x ∈ l)
    (hl : ∀ x ∈ l, ∀ y ∈ next x, y ∈ l) (hn : l.length ≤ s.size + n) {x : α} :
    x ∈ grow next n s ↔ Reached next s x := by
  refine ⟨reached_of_mem_grow, fun h => ?_⟩
  induction h with
  | start hx => exact mem_grow_of_mem hx
  | step _ hxy ih => exact grow_closed hs hl hn _ ih _ hxy

/-- a set with the successors of its members is not grown any further -/
theorem grow_eq_self {n : Nat} {s : SortedSet α} (hs : ∀ x ∈ s, ∀ y ∈ next x, y ∈ s) : grow next n s = s := by
  have hround : s.insertAll (s.toList.flatMap next) = s := by
    refine SortedSet.ext fun x => mem_round.trans ⟨?_, Or.inl⟩
    rintro (hx | ⟨y, hy, hxy⟩)
    · exact hx
    · exact hs y hy x hxy
  cases n with
  | zero => rfl
  | succ n =>
    simp only [grow]
    rw [hround, if_pos rfl]

/-! ## Walks that enter each address once -/

/-- a walk has seen the successors of everything that it has entered, apart from those it need not see -/
structure Explored (next : α → List α) (spared : α → Prop) (s t : SortedSet α) : Prop where
  keeps : ∀ x ∈ s, x ∈ t
  closed : ∀ x ∈ t, x ∉ s → ∀ y ∈ next x, y ∈ t ∨ spared y

variable {spared : α → Prop} {s t u : SortedSet α} {x : α}

theorem Explored.refl (s : SortedSet α) : Explored next spared s s := ⟨fun _ hx => hx, fun _ hx hnot => absurd hx hnot⟩

theorem Explored.trans (h : Explored next spared s t) (h' : Explored next spared t u) : Explored next spared s u := by
  refine ⟨fun x hx => h'.keeps x (h.keeps x hx), fun x hx hnew y hy => ?_⟩
  by_cases ht : x ∈ t
  · exact (h.closed x ht hnew y hy).imp_left (h'.keeps y)
  · exact h'.closed x hx ht y hy

/-- the address that is entered has its successors seen when the walk below it ends -/
theorem Explored.of_insert (h : Explored next spared (s.insert x) t) (hx : ∀ y ∈ next x, y ∈ t ∨ spared y) :
    Explored next spared s t := by
  refine ⟨fun y hy => h.keeps y (SortedSet.mem_insert.2 (Or.inr hy)), fun y hy hnew => ?_⟩
  by_cases he : y = x
  · exact he ▸ hx
  · exact h.closed y hy fun hin => (SortedSet.mem_insert.1 hin).elim he hnew

/-- **a walk that started with nothing has seen all that can be reached** from what it has seen, if what it need not see
leads nowhere -/
theorem Explored.mem_of_reached (h : Explored next spared ∅ t) (hspared : ∀ x, spared x → next x = [])
    (hs : ∀ x ∈ s, x ∈ t ∨ spared x) (hx : Reached next s x) : x ∈ t ∨ spared x := by
  induction hx with
  | start hx => exact hs _ hx
  | @step a b _ hb ih =>
    rcases ih with ha | ha
    · exact h.closed a ha (SortedSet.not_mem_empty a) b hb
    · rw [hspared a ha] at hb
      cases hb

/-- what is reached from things that are reached -/
theorem Reached.through {y : α} (h' : Reached next t y) (h : ∀ x ∈ t, Reached next s x) : Reached next s y := by
  induction h' with
  | start hy => exact h _ hy
  | step _ hb ih => exact ih.step hb

theorem Reached.trans {y : α} (h : Reached next s x) (h' : Reached next (.singleton x) y) : Reached next s y :=
  h'.through fun _ hz => SortedSet.mem_singleton.1 hz ▸ h

/-- what the successors of something reached lead to -/
theorem Reached.of_next {y : α} (h : Reached next s x) (h' : Reached next (.ofList (next x)) y) : Reached next s y :=
  h'.through fun _ hz => h.step (SortedSet.mem_ofList.1 hz)

/-- how many of a list are not in a set -/
def unseen [DecidableEq α] (l : List α) (s : SortedSet α) : Nat := (l.filter fun x => !s.contains x).length

/-- no more are unseen than a map has keys -/
theorem unseen_keys_lt [DecidableEq α] {ν : Type} (m : SortedMap α ν) (s : SortedSet α) :
    unseen m.keys s < m.size + 1 := by
  have hle : unseen m.keys s ≤ m.keys.length := List.length_filter_le _ _
  rw [SortedMap.keys, List.length_map] at hle
  exact Nat.lt_succ_of_le hle

theorem unseen_le [DecidableEq α] {l : List α} (h : ∀ x ∈ s, x ∈ t) : unseen l t ≤ unseen l s := by
  refine (List.monotone_filter_right l fun x hx => ?_).length_le
  rw [SortedSet.not_contains_iff] at hx ⊢
  exact fun hs => hx (h x hs)

/-- a walk enters an address of the list at most as often as there are unseen ones -/
theorem unseen_insert_lt [DecidableEq α] {l : List α} (hx : x ∈ l) (hs : x ∉ s) :
    unseen l (s.insert x) < unseen l s := by
  refine length_filter_lt (fun y _ hy => ?_) hx (SortedSet.not_contains_iff.2 hs) ?_
  · rw [SortedSet.not_contains_iff] at hy ⊢
    exact fun h => hy (SortedSet.mem_insert.2 (Or.inr h))
  · rw [SortedSet.contains_iff.2 (SortedSet.mem_insert.2 (Or.inl rfl))]
    rfl

end Reach

end SemanticPlanner
