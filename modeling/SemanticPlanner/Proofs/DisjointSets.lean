/-
Disjoint sets of numbers, and what a run of unions makes of them.

  IsUnionFind           what `init`, `union` and `find` promise: numbers start by themselves, and a union puts together
                        the sets of its two numbers and no others
  same_unite_iff        after any unions in any order, two numbers are in one set exactly if a chain of the pairs leads
                        from one to the other
  RankedSets.isUnionFind sets by rank keep these promises

Which number stands for a set is left open: nothing but the equality of two `find`s is promised.
-/
import Mathlib.Data.List.Induction
import Mathlib.Logic.Relation
import SemanticPlanner.Order.DisjointSets

namespace SemanticPlanner

namespace UnionFind

variable {uf : UnionFind} {n x y : Nat} {s : uf.Sets} {l : List (Nat × Nat)}

/-- two numbers are in one set -/
def Same (uf : UnionFind) (s : uf.Sets) (x y : Nat) : Prop := uf.find s x = uf.find s y

/-- sets as they come about, by unions of numbers in bounds -/
inductive Made (uf : UnionFind) (n : Nat) : uf.Sets → Prop
  | init : Made uf n (uf.init n)
  | union {s : uf.Sets} {a b : Nat} : Made uf n s → a < n → b < n → Made uf n (uf.union s a b)

/-- each number starts by itself, and a union puts together the sets of its two numbers and no others -/
structure IsUnionFind (uf : UnionFind) : Prop where
  init : ∀ {n x y}, x < n → y < n → (uf.Same (uf.init n) x y ↔ x = y)
  union : ∀ {n s a b x y}, uf.Made n s → a < n → b < n → x < n → y < n → (uf.Same (uf.union s a b) x y ↔
    uf.Same s x y ∨ (uf.Same s x a ∧ uf.Same s b y) ∨ (uf.Same s x b ∧ uf.Same s a y))

theorem unite_append (e : Nat × Nat) : uf.unite n (l ++ [e]) = uf.union (uf.unite n l) e.1 e.2 := by
  simp [unite]

/-- a chain of pairs leads from one number to another -/
def Chained (l : List (Nat × Nat)) : Nat → Nat → Prop := Relation.EqvGen fun a b => (a, b) ∈ l

namespace Chained

theorem symm (h : Chained l x y) : Chained l y x := Relation.EqvGen.symm _ _ h

theorem trans {z : Nat} (h : Chained l x y) (h' : Chained l y z) : Chained l x z := Relation.EqvGen.trans _ _ _ h h'

theorem nil_iff : Chained [] x y ↔ x = y := by
  constructor
  · intro h
    induction h with
    | rel _ _ h => cases h
    | refl => rfl
    | symm _ _ _ ih => exact ih.symm
    | trans _ _ _ _ _ ih ih' => exact ih.trans ih'
  · intro h
    exact h ▸ .refl x

/-- one more pair links what was chained to its one end with what was chained to the other -/
theorem append_iff {a b : Nat} : Chained (l ++ [(a, b)]) x y ↔
    Chained l x y ∨ (Chained l x a ∧ Chained l b y) ∨ (Chained l x b ∧ Chained l a y) := by
  have hkeeps : ∀ {x y}, Chained l x y → Chained (l ++ [(a, b)]) x y :=
    Relation.EqvGen.mono (fun _ _ => List.mem_append_left _) _ _
  have hnew : Chained (l ++ [(a, b)]) a b := .rel _ _ (List.mem_append_right _ (List.mem_singleton_self _))
  constructor
  · intro h
    induction h with
    | rel x y hxy =>
      rcases List.mem_append.1 hxy with hxy | hxy
      · exact Or.inl (.rel _ _ hxy)
      · cases List.mem_singleton.1 hxy
        exact Or.inr (Or.inl ⟨.refl _, .refl _⟩)
    | refl x => exact Or.inl (.refl x)
    | symm x y _ ih =>
      rcases ih with h | ⟨h, h'⟩ | ⟨h, h'⟩
      · exact Or.inl h.symm
      · exact Or.inr (Or.inr ⟨h'.symm, h.symm⟩)
      · exact Or.inr (Or.inl ⟨h'.symm, h.symm⟩)
    | trans x y z _ _ ih ih' =>
      rcases ih with h | ⟨h, h'⟩ | ⟨h, h'⟩
      · rcases ih' with k | ⟨k, k'⟩ | ⟨k, k'⟩
        · exact Or.inl (h.trans k)
        · exact Or.inr (Or.inl ⟨h.trans k, k'⟩)
        · exact Or.inr (Or.inr ⟨h.trans k, k'⟩)
      · rcases ih' with k | ⟨-, k'⟩ | ⟨-, k'⟩
        · exact Or.inr (Or.inl ⟨h, h'.trans k⟩)
        · exact Or.inr (Or.inl ⟨h, k'⟩)
        · exact Or.inl (h.trans k')
      · rcases ih' with k | ⟨-, k'⟩ | ⟨-, k'⟩
        · exact Or.inr (Or.inr ⟨h, h'.trans k⟩)
        · exact Or.inl (h.trans k')
        · exact Or.inr (Or.inr ⟨h, k'⟩)
  · intro h
    rcases h with h | ⟨h, h'⟩ | ⟨h, h'⟩
    · exact hkeeps h
    · exact ((hkeeps h).trans hnew).trans (hkeeps h')
    · exact ((hkeeps h).trans hnew.symm).trans (hkeeps h')

end Chained

theorem made_unite (hl : ∀ e ∈ l, e.1 < n ∧ e.2 < n) : uf.Made n (uf.unite n l) := by
  induction l using List.reverseRecOn with
  | nil => exact .init
  | append_singleton l e ih =>
    obtain ⟨ha, hb⟩ := hl e (List.mem_append_right _ (List.mem_singleton_self e))
    rw [unite_append]
    exact (ih fun d hd => hl d (List.mem_append_left _ hd)).union ha hb

/-- **after any unions, two numbers are in one set exactly if a chain of the pairs leads from one to the other** -/
theorem same_unite_iff (huf : uf.IsUnionFind) (hl : ∀ e ∈ l, e.1 < n ∧ e.2 < n) (hx : x < n) (hy : y < n) :
    uf.Same (uf.unite n l) x y ↔ Chained l x y := by
  induction l using List.reverseRecOn generalizing x y with
  | nil => exact (huf.init hx hy).trans Chained.nil_iff.symm
  | append_singleton l e ih =>
    obtain ⟨a, b⟩ := e
    have hold : ∀ d ∈ l, d.1 < n ∧ d.2 < n := fun d hd => hl d (List.mem_append_left _ hd)
    obtain ⟨ha, hb⟩ := hl (a, b) (List.mem_append_right _ (List.mem_singleton_self _))
    rw [unite_append, huf.union (made_unite hold) ha hb hx hy, Chained.append_iff, ih hold hx hy, ih hold hx ha,
      ih hold hb hy, ih hold hx hb, ih hold ha hy]

end UnionFind

/-! ## Sets by rank -/

namespace RankedSets

variable {s : RankedSets} {n x y a b p q : Nat}

theorem find_init : (init n).find x = x := by
  by_cases hx : x < n <;> simp [find, init, hx]

theorem find_handOver (ranks : List Nat) (hx : x < s.roots.length) :
    (RankedSets.mk (s.handOver p q) ranks).find x = if s.find x = p then q else s.find x := by
  simp [find, handOver, hx]

/-- a union hands what one number stands for to the other, if they are two -/
theorem union_cases : (s.find a = s.find b ∧ s.union a b = s) ∨
    ∃ ranks, s.union a b = ⟨s.handOver (s.find a) (s.find b), ranks⟩ ∨
      s.union a b = ⟨s.handOver (s.find b) (s.find a), ranks⟩ := by
  by_cases hsame : s.find a = s.find b
  · exact Or.inl ⟨hsame, if_pos hsame⟩
  refine Or.inr ?_
  by_cases hless : s.rank (s.find a) < s.rank (s.find b)
  · exact ⟨s.ranks, Or.inl (by simp only [union, hsame, hless, if_true, if_false])⟩
  by_cases hmore : s.rank (s.find b) < s.rank (s.find a)
  · exact ⟨s.ranks, Or.inr (by simp only [union, hsame, hless, hmore, if_true, if_false])⟩
  · exact ⟨_, Or.inr (by simp only [union, hsame, hless, hmore, if_false]; rfl)⟩

theorem length_roots_union : (s.union a b).roots.length = s.roots.length := by
  obtain ⟨-, h⟩ | ⟨ranks, h | h⟩ := union_cases (s := s) (a := a) (b := b)
  · rw [h]
  · simp [h, handOver]
  · simp [h, handOver]

/-- two numbers are told to be in one set after a union if they were before, or each with one of the two -/
theorem find_union_eq_iff (hx : x < s.roots.length) (hy : y < s.roots.length) :
    (s.union a b).find x = (s.union a b).find y ↔ s.find x = s.find y ∨
      (s.find x = s.find a ∧ s.find b = s.find y) ∨ (s.find x = s.find b ∧ s.find a = s.find y) := by
  obtain ⟨hsame, h⟩ | ⟨ranks, h | h⟩ := union_cases (s := s) (a := a) (b := b)
  · rw [h, hsame]
    exact ⟨Or.inl, fun h => h.elim id fun h => h.elim (fun h => h.1.trans h.2) fun h => h.1.trans h.2⟩
  · rw [h, find_handOver ranks hx, find_handOver ranks hy]
    grind
  · rw [h, find_handOver ranks hx, find_handOver ranks hy]
    grind

theorem length_roots_of_made {s : unionFind.Sets} (h : unionFind.Made n s) : (RankedSets.roots s).length = n := by
  induction h with
  | init => exact List.length_range
  | union _ _ _ ih => exact length_roots_union.trans ih

/-- **sets by rank are disjoint sets** -/
theorem isUnionFind : unionFind.IsUnionFind where
  init {n x y} _ _ := by
    change (init n).find x = (init n).find y ↔ x = y
    rw [find_init, find_init]
  union {n s a b x y} hs _ _ hx hy := by
    have hlength := length_roots_of_made hs
    exact find_union_eq_iff (hlength ▸ hx) (hlength ▸ hy)

end RankedSets

end SemanticPlanner
