/-
Lists without repetition, in first-seen order.

`distinct` has the members of its list (`mem_distinct`), each once (`nodup_distinct`).
-/
namespace SemanticPlanner

variable {α : Type} [DecidableEq α]

/-- a list with one more item at its end, unless it has it -/
def addNew (out : List α) (a : α) : List α := if out.contains a then out else out ++ [a]

/-- the items of both lists, each once, in first-seen order -/
def addAllNew (out : List α) (l : List α) : List α := l.foldl addNew out

/-- the items of a list, each once, in first-seen order -/
def distinct (l : List α) : List α := addAllNew [] l

theorem mem_addNew {out : List α} {a x : α} : x ∈ addNew out a ↔ x ∈ out ∨ x = a := by
  unfold addNew
  split
  · rename_i h
    exact ⟨Or.inl, fun hx => hx.elim id fun e => e ▸ List.contains_iff_mem.1 h⟩
  · simp

theorem mem_addAllNew {out l : List α} {x : α} : x ∈ addAllNew out l ↔ x ∈ out ∨ x ∈ l := by
  induction l generalizing out with
  | nil => simp [addAllNew]
  | cons a l ih =>
    have : addAllNew out (a :: l) = addAllNew (addNew out a) l := rfl
    rw [this, ih, mem_addNew, List.mem_cons, or_assoc]

theorem mem_distinct {l : List α} {x : α} : x ∈ distinct l ↔ x ∈ l := by
  rw [distinct, mem_addAllNew]
  simp

theorem nodup_addNew {out : List α} {a : α} (h : out.Nodup) : (addNew out a).Nodup := by
  unfold addNew
  split
  · exact h
  · rename_i ha
    refine List.nodup_append.2 ⟨h, by simp, ?_⟩
    intro x hx y hy
    simp only [List.mem_singleton] at hy
    exact fun e => ha (List.contains_iff_mem.2 (hy ▸ e ▸ hx))

theorem nodup_addAllNew {out l : List α} (h : out.Nodup) : (addAllNew out l).Nodup := by
  induction l generalizing out with
  | nil => exact h
  | cons a l ih => exact ih (nodup_addNew h)

theorem nodup_distinct (l : List α) : (distinct l).Nodup := nodup_addAllNew List.nodup_nil

end SemanticPlanner
