/-
The strict total orders that sets and maps are listed by.

`Sorts α` holds a decidable strict order together with its laws. Names (`String`) go by code point, which is the
order of the bytes of their UTF-8 text. Pairs go by the first component and then by the second, and any type that
injects into an ordered one inherits its order (`Sorts.ofKey`).

A list is sorted by a key with `sortOn`: it keeps its items (`mem_sortOn`) and is in the order of the key
(`pairwise_sortOn`).
-/
namespace SemanticPlanner

/-- a decidable strict total order -/
class Sorts (α : Type) where
  before : α → α → Bool
  irrefl : ∀ a, before a a = false
  trans : ∀ a b c, before a b = true → before b c = true → before a c = true
  total : ∀ a b, before a b = false → before b a = false → a = b

namespace Sorts

theorem asymm {α : Type} [Sorts α] {a b : α} (h : before a b = true) : before b a = false := by
  cases hb : before b a with
  | false => rfl
  | true => rw [← irrefl a, trans a b a h hb]

theorem ne_of_before {α : Type} [Sorts α] {a b : α} (h : before a b = true) : a ≠ b := by
  rintro rfl
  simp [irrefl] at h

/-- of two that differ one is before the other -/
theorem before_of_ne {α : Type} [Sorts α] {a b : α} (hne : a ≠ b) (h : ¬ before b a = true) : before a b = true := by
  cases hab : before a b with
  | true => rfl
  | false => exact absurd (total a b hab (Bool.eq_false_iff.2 h)) hne

instance : Sorts Nat where
  before a b := decide (a < b)
  irrefl := by simp
  trans a b c := by simp only [decide_eq_true_eq]; omega
  total a b := by simp only [decide_eq_false_iff_not]; omega

instance : Sorts Int where
  before a b := decide (a < b)
  irrefl := by simp
  trans a b c := by simp only [decide_eq_true_eq]; omega
  total a b := by simp only [decide_eq_false_iff_not]; omega

instance : Sorts String where
  before a b := decide (a < b)
  irrefl a := by simp
  trans a b c := by simp only [decide_eq_true_eq]; exact String.lt_trans
  total a b := by
    simp only [decide_eq_false_iff_not]
    intro h1 h2
    exact String.le_antisymm h2 h1

/-- first component first, then the second -/
instance {α β : Type} [Sorts α] [Sorts β] [DecidableEq α] : Sorts (α × β) where
  before p q := before p.1 q.1 || (decide (p.1 = q.1) && before p.2 q.2)
  irrefl p := by simp [irrefl]
  trans p q r := by
    simp only [Bool.or_eq_true, Bool.and_eq_true, decide_eq_true_eq]
    rintro (h1 | ⟨e1, h1⟩) (h2 | ⟨e2, h2⟩)
    · exact Or.inl (trans _ _ _ h1 h2)
    · exact Or.inl (e2 ▸ h1)
    · exact Or.inl (e1 ▸ h2)
    · exact Or.inr ⟨e1.trans e2, trans _ _ _ h1 h2⟩
  total p q := by
    simp only [Bool.or_eq_false_iff, Bool.and_eq_false_iff, decide_eq_false_iff_not]
    rintro ⟨h1, h2⟩ ⟨h3, h4⟩
    have e : p.1 = q.1 := total _ _ h1 h3
    have e' : p.2 = q.2 := by
      refine total _ _ ?_ ?_
      · rcases h2 with h2 | h2
        · exact absurd e h2
        · exact h2
      · rcases h4 with h4 | h4
        · exact absurd e.symm h4
        · exact h4
    exact Prod.ext e e'

/-- the order by an injective key -/
@[reducible] def ofKey {α β : Type} [Sorts β] (key : α → β) (inj : ∀ a b, key a = key b → a = b) : Sorts α where
  before a b := before (key a) (key b)
  irrefl a := irrefl (key a)
  trans a b c := trans (key a) (key b) (key c)
  total a b h1 h2 := inj a b (total (key a) (key b) h1 h2)

end Sorts

/-- the less-or-equal test of an order, as list sorting wants it -/
def sortsLE {α : Type} [Sorts α] (a b : α) : Bool := !Sorts.before b a

/-- lists compared item by item; a list comes before its continuations -/
def listLE {α : Type} [Sorts α] [DecidableEq α] : List α → List α → Bool
  | [], _ => true
  | _ :: _, [] => false
  | a :: l, b :: m => if a = b then listLE l m else sortsLE a b

/-! ## Sorted lists -/

/-- an item put before the first that it is at most -/
def insertBefore {α : Type} (le : α → α → Bool) (a : α) : List α → List α
  | [] => [a]
  | b :: l => if le a b then a :: b :: l else b :: insertBefore le a l

/-- a list sorted, items that are at most each other in their given order -/
def sortBy {α : Type} (le : α → α → Bool) (l : List α) : List α := l.foldr (insertBefore le) []

/-- a list sorted by a key, items of equal keys in their given order -/
def sortOn {α β : Type} [Sorts β] (key : α → β) (l : List α) : List α :=
  sortBy (fun a b => sortsLE (key a) (key b)) l

theorem insertBefore_perm {α : Type} (le : α → α → Bool) (a : α) (l : List α) : (insertBefore le a l).Perm (a :: l) := by
  induction l with
  | nil => exact .refl _
  | cons b l ih =>
    rw [insertBefore]
    split
    · exact .refl _
    · exact (ih.cons b).trans (.swap a b l)

theorem sortBy_perm {α : Type} (le : α → α → Bool) (l : List α) : (sortBy le l).Perm l := by
  induction l with
  | nil => exact .refl _
  | cons a l ih => exact (insertBefore_perm le a _).trans (ih.cons a)

theorem mem_sortOn {α β : Type} [Sorts β] {key : α → β} {l : List α} {a : α} : a ∈ sortOn key l ↔ a ∈ l :=
  (sortBy_perm _ l).mem_iff

theorem sortsLE_total {α : Type} [Sorts α] {a b : α} (h : sortsLE a b = false) : sortsLE b a = true := by
  have h : Sorts.before b a = true := by simpa [sortsLE] using h
  simp [sortsLE, Sorts.asymm h]

/-- the test of an order is transitive -/
theorem sortsLE_trans {α : Type} [Sorts α] {a b c : α} (h : sortsLE a b = true) (h' : sortsLE b c = true) :
    sortsLE a c = true := by
  rw [sortsLE, Bool.not_eq_true'] at h h' ⊢
  cases hca : Sorts.before c a with
  | false => rfl
  | true =>
    cases hab : Sorts.before a b with
    | true => rw [← h', Sorts.trans c a b hca hab]
    | false =>
      rw [Sorts.total a b hab h, h'] at hca
      cases hca

theorem sortsLE_antisymm {α : Type} [Sorts α] {a b : α} (h : sortsLE a b = true) (h' : sortsLE b a = true) : a = b := by
  rw [sortsLE, Bool.not_eq_true'] at h h'
  exact Sorts.total a b h' h

theorem pairwise_insertBefore {α β : Type} [Sorts β] {key : α → β} (a : α) {l : List α}
    (h : l.Pairwise fun x y => sortsLE (key x) (key y) = true) :
    (insertBefore (fun x y => sortsLE (key x) (key y)) a l).Pairwise fun x y => sortsLE (key x) (key y) = true := by
  induction l with
  | nil => exact List.pairwise_singleton _ _
  | cons b l ih =>
    have hb := List.pairwise_cons.1 h
    rw [insertBefore]
    split
    · rename_i hab
      refine List.pairwise_cons.2 ⟨fun x hx => ?_, h⟩
      rcases List.mem_cons.1 hx with rfl | hx
      · exact hab
      · exact sortsLE_trans hab (hb.1 x hx)
    · rename_i hab
      refine List.pairwise_cons.2 ⟨fun x hx => ?_, ih hb.2⟩
      rcases List.mem_cons.1 ((insertBefore_perm _ a l).mem_iff.1 hx) with rfl | hx
      · exact sortsLE_total (by simpa using hab)
      · exact hb.1 x hx

/-- a list sorted by a key is in the order of that key -/
theorem pairwise_sortOn {α β : Type} [Sorts β] (key : α → β) (l : List α) :
    (sortOn key l).Pairwise fun x y => sortsLE (key x) (key y) = true := by
  unfold sortOn sortBy
  induction l with
  | nil => exact List.Pairwise.nil
  | cons a l ih => exact pairwise_insertBefore a ih

end SemanticPlanner
