/-
Finite sets held as the increasing list of their members.

The list is strictly increasing, so a set has one form: two sets with the same members are equal (`SortedSet.ext`).
Every operation is pinned by its membership lemma (`mem_insert`, `mem_union`, `mem_inter`, `mem_diff`, `mem_filter`,
`mem_ofList`).
-/
import SemanticPlanner.Order.Sorts

namespace SemanticPlanner

/-- a finite set of `α`, listed in increasing order -/
structure SortedSet (α : Type) [Sorts α] where
  toList : List α
  increasing : toList.Pairwise (fun a b => Sorts.before a b = true)

/-- a set of names -/
abbrev NameSet := SortedSet String

namespace SortedSet

variable {α : Type} [Sorts α]

/-! ## Membership -/

instance : Membership α (SortedSet α) := ⟨fun s a => a ∈ s.toList⟩

theorem mem_def {s : SortedSet α} {a : α} : a ∈ s ↔ a ∈ s.toList := Iff.rfl

instance [DecidableEq α] (a : α) (s : SortedSet α) : Decidable (a ∈ s) :=
  inferInstanceAs (Decidable (a ∈ s.toList))

instance [DecidableEq α] : DecidableEq (SortedSet α) := fun s t =>
  if h : s.toList = t.toList then isTrue (by cases s; cases t; cases h; rfl)
  else isFalse fun e => h (e ▸ rfl)

private theorem eq_of_increasing : ∀ {l m : List α}, l.Pairwise (fun a b => Sorts.before a b = true) →
    m.Pairwise (fun a b => Sorts.before a b = true) → (∀ a, a ∈ l ↔ a ∈ m) → l = m
  | [], [], _, _, _ => rfl
  | [], b :: m, _, _, h => absurd ((h b).2 List.mem_cons_self) List.not_mem_nil
  | a :: l, [], _, _, h => absurd ((h a).1 List.mem_cons_self) List.not_mem_nil
  | a :: l, b :: m, hl, hm, h => by
    have hl' := List.pairwise_cons.1 hl
    have hm' := List.pairwise_cons.1 hm
    have hab : a = b := by
      rcases List.mem_cons.1 ((h a).1 List.mem_cons_self) with e | e
      · exact e
      · rcases List.mem_cons.1 ((h b).2 List.mem_cons_self) with e' | e'
        · exact e'.symm
        · have h1 := hm'.1 a e
          have h2 := hl'.1 b e'
          rw [Sorts.asymm h1] at h2
          exact absurd h2 (by simp)
    subst hab
    have : l = m := by
      refine eq_of_increasing hl'.2 hm'.2 fun x => ⟨fun hx => ?_, fun hx => ?_⟩
      · rcases List.mem_cons.1 ((h x).1 (List.mem_cons_of_mem _ hx)) with e | e
        · exact absurd e.symm (Sorts.ne_of_before (hl'.1 x hx))
        · exact e
      · rcases List.mem_cons.1 ((h x).2 (List.mem_cons_of_mem _ hx)) with e | e
        · exact absurd e.symm (Sorts.ne_of_before (hm'.1 x hx))
        · exact e
    rw [this]

/-- a set is determined by its members -/
theorem ext {s t : SortedSet α} (h : ∀ a, a ∈ s ↔ a ∈ t) : s = t := by
  cases s with
  | mk l hl =>
    cases t with
    | mk m hm =>
      have : l = m := eq_of_increasing hl hm h
      subst this
      rfl

/-! ## Operations -/

/-- the set without members -/
def empty : SortedSet α := ⟨[], List.Pairwise.nil⟩

instance : EmptyCollection (SortedSet α) := ⟨empty⟩

instance : Inhabited (SortedSet α) := ⟨empty⟩

theorem not_mem_empty (a : α) : a ∉ (empty : SortedSet α) := List.not_mem_nil

/-- insertion into an increasing list, leaving it alone when the member is there -/
def insertInto (a : α) : List α → List α
  | [] => [a]
  | b :: l => if Sorts.before a b then a :: b :: l else if Sorts.before b a then b :: insertInto a l else b :: l

theorem mem_insertInto {a x : α} {l : List α} : x ∈ insertInto a l ↔ x = a ∨ x ∈ l := by
  induction l with
  | nil => simp [insertInto]
  | cons b l ih =>
    simp only [insertInto]
    split
    · simp
    · split
      · simp only [List.mem_cons, ih]
        constructor
        · rintro (h | h | h)
          · exact Or.inr (Or.inl h)
          · exact Or.inl h
          · exact Or.inr (Or.inr h)
        · rintro (h | h | h)
          · exact Or.inr (Or.inl h)
          · exact Or.inl h
          · exact Or.inr (Or.inr h)
      · rename_i h1 h2
        have : a = b := Sorts.total a b (by simpa using h1) (by simpa using h2)
        subst this
        simp

private theorem insertInto_increasing (a : α) {l : List α} (h : l.Pairwise (fun a b => Sorts.before a b = true)) :
    (insertInto a l).Pairwise (fun a b => Sorts.before a b = true) := by
  induction l with
  | nil => simp [insertInto]
  | cons b l ih =>
    have h' := List.pairwise_cons.1 h
    simp only [insertInto]
    split
    · rename_i hab
      refine List.pairwise_cons.2 ⟨fun x hx => ?_, h⟩
      rcases List.mem_cons.1 hx with e | e
      · exact e ▸ hab
      · exact Sorts.trans _ _ _ hab (h'.1 x e)
    · split
      · rename_i hba
        refine List.pairwise_cons.2 ⟨fun x hx => ?_, ih h'.2⟩
        rcases mem_insertInto.1 hx with e | e
        · exact e ▸ hba
        · exact h'.1 x e
      · exact h

def insert (a : α) (s : SortedSet α) : SortedSet α :=
  ⟨insertInto a s.toList, insertInto_increasing a s.increasing⟩

theorem mem_insert {a x : α} {s : SortedSet α} : x ∈ s.insert a ↔ x = a ∨ x ∈ s := mem_insertInto

def singleton (a : α) : SortedSet α := ⟨[a], List.pairwise_singleton _ _⟩

theorem mem_singleton {a x : α} : x ∈ singleton a ↔ x = a := List.mem_singleton

/-- every element of the list, added to the set -/
def insertAll (s : SortedSet α) (l : List α) : SortedSet α := l.foldl (fun s a => s.insert a) s

theorem mem_insertAll {l : List α} {s : SortedSet α} {x : α} : x ∈ s.insertAll l ↔ x ∈ s ∨ x ∈ l := by
  induction l generalizing s with
  | nil => simp [insertAll]
  | cons a l ih =>
    have : s.insertAll (a :: l) = (s.insert a).insertAll l := rfl
    rw [this, ih, mem_insert, List.mem_cons]
    constructor
    · rintro ((h | h) | h)
      · exact Or.inr (Or.inl h)
      · exact Or.inl h
      · exact Or.inr (Or.inr h)
    · rintro (h | h | h)
      · exact Or.inl (Or.inr h)
      · exact Or.inl (Or.inl h)
      · exact Or.inr h

def ofList (l : List α) : SortedSet α := insertAll empty l

theorem mem_ofList {l : List α} {x : α} : x ∈ ofList l ↔ x ∈ l := by
  rw [ofList, mem_insertAll]
  exact ⟨fun h => h.resolve_left (not_mem_empty x), Or.inr⟩

def filter (p : α → Bool) (s : SortedSet α) : SortedSet α := ⟨s.toList.filter p, s.increasing.filter p⟩

theorem mem_filter {p : α → Bool} {s : SortedSet α} {x : α} : x ∈ s.filter p ↔ x ∈ s ∧ p x = true := List.mem_filter

def union (s t : SortedSet α) : SortedSet α := s.insertAll t.toList

theorem mem_union {s t : SortedSet α} {x : α} : x ∈ s.union t ↔ x ∈ s ∨ x ∈ t := mem_insertAll

section
variable [DecidableEq α]

def contains (s : SortedSet α) (a : α) : Bool := decide (a ∈ s)

theorem contains_iff {s : SortedSet α} {a : α} : s.contains a = true ↔ a ∈ s := decide_eq_true_iff

theorem not_contains_iff {s : SortedSet α} {a : α} : (!s.contains a) = true ↔ a ∉ s := by
  rw [Bool.not_eq_true', ← Bool.not_eq_true, contains_iff]

def erase (a : α) (s : SortedSet α) : SortedSet α := s.filter (fun x => x != a)

theorem mem_erase {a x : α} {s : SortedSet α} : x ∈ s.erase a ↔ x ∈ s ∧ x ≠ a := by
  rw [erase, mem_filter, bne_iff_ne]

def inter (s t : SortedSet α) : SortedSet α := s.filter t.contains

theorem mem_inter {s t : SortedSet α} {x : α} : x ∈ s.inter t ↔ x ∈ s ∧ x ∈ t := by
  rw [inter, mem_filter, contains_iff]

def diff (s t : SortedSet α) : SortedSet α := s.filter (fun x => !t.contains x)

theorem mem_diff {s t : SortedSet α} {x : α} : x ∈ s.diff t ↔ x ∈ s ∧ x ∉ t := by
  rw [diff, mem_filter, not_contains_iff]

/-- every member of `s` is one of `t` -/
def isSubset (s t : SortedSet α) : Bool := s.toList.all t.contains

theorem isSubset_iff {s t : SortedSet α} : s.isSubset t = true ↔ ∀ x ∈ s, x ∈ t := by
  simp only [isSubset, List.all_eq_true, contains_iff]
  exact Iff.rfl

end

def size (s : SortedSet α) : Nat := s.toList.length

def isEmpty (s : SortedSet α) : Bool := s.toList.isEmpty

theorem isEmpty_iff {s : SortedSet α} : s.isEmpty = true ↔ ∀ x, x ∉ s := by
  simp [isEmpty, mem_def, List.isEmpty_iff, List.eq_nil_iff_forall_not_mem]

theorem nodup (s : SortedSet α) : s.toList.Nodup := s.increasing.imp Sorts.ne_of_before

end SortedSet

end SemanticPlanner
