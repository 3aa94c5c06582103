/-
What can be reached from a set by following successors.

`grow` adds the successors of every member until nothing new comes or the rounds are used up. It only adds
(`mem_grow_of_mem`), and everything it adds is reached by a chain of successors (`reached_of_mem_grow`).
-/
import SemanticPlanner.Order.SortedSet

namespace SemanticPlanner.Reach

variable {α : Type} [Sorts α]

/-- the set with the successors of its members added, for at most the given number of rounds -/
def grow (next : α → List α) : Nat → SortedSet α → SortedSet α
  | 0, s => s
  | n + 1, s =>
    let t := s.insertAll (s.toList.flatMap next)
    if t.size = s.size then s else grow next n t

/-- `b` is reached from a member of `s` by a chain of successors -/
inductive Reached (next : α → List α) (s : SortedSet α) : α → Prop
  | start {a : α} : a ∈ s → Reached next s a
  | step {a b : α} : Reached next s a → b ∈ next a → Reached next s b

theorem mem_grow_of_mem {next : α → List α} {n : Nat} {s : SortedSet α} {a : α} (h : a ∈ s) : a ∈ grow next n s := by
  induction n generalizing s with
  | zero => exact h
  | succ n ih =>
    simp only [grow]
    split
    · exact h
    · exact ih (SortedSet.mem_insertAll.2 (Or.inl h))

theorem reached_of_mem_grow {next : α → List α} {n : Nat} {s : SortedSet α} {a : α} (h : a ∈ grow next n s) :
    Reached next s a := by
  induction n generalizing s with
  | zero => exact .start h
  | succ n ih =>
    simp only [grow] at h
    split at h
    · exact .start h
    · have := ih h
      clear h ih
      induction this with
      | start hm =>
        rcases SortedSet.mem_insertAll.1 hm with hm | hm
        · exact .start hm
        · obtain ⟨x, hx, hb⟩ := List.mem_flatMap.1 hm
          exact .step (.start hx) hb
      | step _ hb ih => exact .step ih hb

end SemanticPlanner.Reach
