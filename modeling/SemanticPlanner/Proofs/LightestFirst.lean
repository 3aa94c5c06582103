/-
The order in which edges come out of the heap.

  IsHeap                no edge is lighter than its parent
  Rises, Sinks          a heap but for one edge, which may be too light for its place, or which anything may stand for
  isHeap_rise           a rising edge restores the heap
  rises_sink            a sinking edge ends where it can rise from
  exists_pop            the edge that is taken is the lightest, and a heap of the others is left
  perm_sorted_lightestFirst
                        the edges come out by weight, each of them once

While an edge moves, only its place is out of order, and what lies below that place fits what lies above it.
-/
import SemanticPlanner.Reference.SpanningTree
import Mathlib.Data.List.Basic

namespace SemanticPlanner.SpanningTree

variable {h : Heap} {i j k : Nat} {e : WeightedEdge}

/-! ## Weights -/

theorem weightAt_eq (hi : i < h.size) : weightAt h i = h[i].weight := by
  rw [weightAt, Array.getElem?_eq_getElem hi]

theorem weightAt_congr {h' : Heap} (heq : h[i]? = h'[j]?) : weightAt h i = weightAt h' j := by
  rw [weightAt, weightAt, heq]

theorem weightAt_swap (hi : i < h.size) (hj : j < h.size) : weightAt (h.swapIfInBounds i j) k =
    if k = i then weightAt h j else if k = j then weightAt h i else weightAt h k := by
  rw [Array.swapIfInBounds_def, dif_pos hi, dif_pos hj, weightAt, Array.getElem?_swap, weightAt_eq hi, weightAt_eq hj]
  by_cases hki : k = i
  · by_cases hkj : k = j
    · subst hki hkj
      simp
    · simp [hki, Ne.symm (hki ▸ hkj)]
  · by_cases hkj : k = j
    · simp [hkj, hkj ▸ hki]
    · rw [if_neg (Ne.symm hkj), if_neg (Ne.symm hki), if_neg hki, if_neg hkj, weightAt]

theorem perm_swap : (h.swapIfInBounds i j).toList.Perm h.toList := by
  rw [Array.swapIfInBounds_def]
  split
  · split
    · exact Array.perm_iff_toList_perm.1 (Array.swap_perm _ _)
    · exact .refl _
  · exact .refl _

/-! ## Heaps -/

/-- no edge is lighter than its parent -/
def IsHeap (h : Heap) : Prop := ∀ j < h.size, weightAt h ((j - 1) / 2) ≤ weightAt h j

/-- a heap but for the edge at `i`, which may be lighter than its parent -/
structure Rises (h : Heap) (i : Nat) : Prop where
  others : ∀ j < h.size, j ≠ i → weightAt h ((j - 1) / 2) ≤ weightAt h j
  across : 0 < i → ∀ j < h.size, (j - 1) / 2 = i → weightAt h ((i - 1) / 2) ≤ weightAt h j

/-- a heap but for the edge at `i`, which may be of any weight -/
structure Sinks (h : Heap) (i : Nat) : Prop where
  others : ∀ j < h.size, j ≠ i → (j - 1) / 2 ≠ i → weightAt h ((j - 1) / 2) ≤ weightAt h j
  across : 0 < i → ∀ j < h.size, (j - 1) / 2 = i → weightAt h ((i - 1) / 2) ≤ weightAt h j

theorem Rises.swap (hr : Rises h i) (hpos : 0 < i) (hi : i < h.size) (hlt : weightAt h i < weightAt h ((i - 1) / 2)) :
    Rises (h.swapIfInBounds i ((i - 1) / 2)) ((i - 1) / 2) := by
  have hp : (i - 1) / 2 < h.size := by omega
  refine ⟨fun j hj hne => ?_, fun hp0 j hj hchild => ?_⟩
  · rw [Array.size_swapIfInBounds] at hj
    rw [weightAt_swap hi hp, weightAt_swap hi hp]
    by_cases hji : j = i
    · subst hji
      rw [if_neg (by omega), if_pos rfl, if_pos rfl]
      exact Nat.le_of_lt hlt
    rw [if_neg hji, if_neg hne]
    by_cases hbelow : (j - 1) / 2 = i
    · -- what lay below the edge lies below its parent now
      rw [if_pos hbelow]
      exact hr.across hpos j hj hbelow
    rw [if_neg hbelow]
    have hold := hr.others j hj hji
    split
    · rename_i hsibling
      rw [hsibling] at hold
      omega
    · exact hold
  · rw [Array.size_swapIfInBounds] at hj
    rw [weightAt_swap hi hp, weightAt_swap hi hp, if_neg (by omega), if_neg (by omega)]
    have habove := hr.others _ hp (by omega)
    by_cases hji : j = i
    · rw [if_pos hji]
      exact habove
    · rw [if_neg hji, if_neg (by omega)]
      have hold := hr.others j hj hji
      rw [hchild] at hold
      exact Nat.le_trans habove hold

/-- **a rising edge restores the heap** -/
theorem isHeap_rise (fuel : Nat) (hr : Rises h i) (hi : i < h.size ∨ i = 0) (hfuel : i < fuel) :
    IsHeap (rise fuel h i) := by
  induction fuel generalizing h i with
  | zero => omega
  | succ fuel ih =>
    dsimp only [rise]
    split
    · rename_i hmoves
      simp only [Bool.and_eq_true, decide_eq_true_eq] at hmoves
      have hin : i < h.size := by omega
      refine ih (hr.swap hmoves.1 hin hmoves.2) ?_ (by omega)
      rw [Array.size_swapIfInBounds]
      omega
    · rename_i hstays
      simp only [Bool.and_eq_true, decide_eq_true_eq, not_and, Nat.not_lt] at hstays
      intro j hj
      by_cases hji : j = i
      · subst hji
        rcases Nat.eq_zero_or_pos j with rfl | hpos
        · exact Nat.le_refl _
        · exact hstays hpos
      · exact hr.others j hj hji

theorem perm_rise (fuel : Nat) : (rise fuel h i).toList.Perm h.toList := by
  induction fuel generalizing h i with
  | zero => exact .refl _
  | succ fuel ih =>
    dsimp only [rise]
    split
    · exact ih.trans perm_swap
    · exact .refl _

/-- an edge changes places with its child, a lightest one -/
theorem Sinks.swap (hs : Sinks h i) {c : Nat} (hc : c < h.size) (hchild : (c - 1) / 2 = i) (hpos : 0 < c)
    (hlightest : ∀ j < h.size, 0 < j → (j - 1) / 2 = i → weightAt h c ≤ weightAt h j) :
    Sinks (h.swapIfInBounds i c) c := by
  have hi : i < h.size := by omega
  refine ⟨fun j hj hne habove => ?_, fun _ j hj hbelow => ?_⟩
  · rw [Array.size_swapIfInBounds] at hj
    rw [weightAt_swap hi hc, weightAt_swap hi hc, if_neg habove, if_neg hne]
    by_cases hji : j = i
    · subst hji
      rw [if_pos rfl]
      split
      · exact Nat.le_refl _
      · exact hs.across (by omega) c hc hchild
    · rw [if_neg hji]
      split
      · rename_i hsibling
        exact hlightest j hj (by omega) hsibling
      · rename_i hother
        exact hs.others j hj hji hother
  · rw [Array.size_swapIfInBounds] at hj
    rw [weightAt_swap hi hc, weightAt_swap hi hc, if_pos hchild, if_neg (by omega), if_neg (by omega)]
    have hold := hs.others j hj (by omega) (by omega)
    rwa [hbelow] at hold

/-- **a sinking edge ends where nothing lies below it**, so it can rise from there -/
theorem rises_sink (fuel : Nat) (hs : Sinks h i) (hi : i < h.size) (hfuel : h.size ≤ fuel + i) :
    Rises (sink fuel h i).1 (sink fuel h i).2 ∧ (sink fuel h i).2 < (sink fuel h i).1.size := by
  induction fuel generalizing h i with
  | zero => omega
  | succ fuel ih =>
    dsimp only [sink]
    split
    · -- two children
      generalize hc : (if weightAt h (2 * i + 1 + 1) ≤ weightAt h (2 * i + 1) then 2 * i + 1 + 1 else 2 * i + 1) = c
      have hchoice : (c = 2 * i + 1 ∨ c = 2 * i + 2) ∧ weightAt h c ≤ weightAt h (2 * i + 1) ∧
          weightAt h c ≤ weightAt h (2 * i + 1 + 1) := by
        rw [← hc]
        split <;> omega
      refine ih (hs.swap (by omega) (by omega) (by omega) fun j _ hpos hj => ?_) ?_ ?_
      · obtain rfl | rfl : j = 2 * i + 1 ∨ j = 2 * i + 2 := by omega
        · exact hchoice.2.1
        · exact hchoice.2.2
      · rw [Array.size_swapIfInBounds]
        omega
      · rw [Array.size_swapIfInBounds]
        omega
    · split
      · -- one child
        have hswap : Sinks (h.swapIfInBounds i (2 * i + 1)) (2 * i + 1) := by
          refine hs.swap (by omega) (by omega) (by omega) fun j hj hpos hparent => ?_
          obtain rfl : j = 2 * i + 1 := by omega
          exact Nat.le_refl _
        refine ⟨⟨fun j hj hne => ?_, hswap.across⟩, ?_⟩
        · refine hswap.others j hj hne fun hbelow => ?_
          rw [Array.size_swapIfInBounds] at hj
          omega
        · rw [Array.size_swapIfInBounds]
          dsimp only
          omega
      · exact ⟨⟨fun j (hj : j < h.size) hne => hs.others j hj hne (by omega), hs.across⟩, hi⟩

theorem perm_sink (fuel : Nat) : (sink fuel h i).1.toList.Perm h.toList := by
  induction fuel generalizing h i with
  | zero => exact .refl _
  | succ fuel ih =>
    dsimp only [sink]
    split
    · exact ih.trans perm_swap
    · split
      · exact perm_swap
      · exact .refl _

/-! ## Pushing and popping -/

theorem isHeap_push (hh : IsHeap h) : IsHeap (push h e) := by
  have hold : ∀ {j}, j < h.size → weightAt (h.push e) j = weightAt h j := fun hj =>
    weightAt_congr (by rw [Array.getElem?_push, if_neg (Nat.ne_of_lt hj)])
  refine isHeap_rise _ ⟨fun j hj hne => ?_, fun _ j hj hchild => ?_⟩ ?_ (Nat.lt_succ_self _)
  · rw [Array.size_push] at hj
    rw [hold (by omega), hold (by omega)]
    exact hh j (by omega)
  · rw [Array.size_push] at hj
    omega
  · rw [Array.size_push]
    omega

theorem perm_push : (push h e).toList.Perm (e :: h.toList) := by
  refine (perm_rise _).trans ?_
  rw [Array.toList_push]
  exact List.perm_append_singleton _ _

theorem isHeap_root (hh : IsHeap h) (i : Nat) (hi : i < h.size) : weightAt h 0 ≤ weightAt h i := by
  induction i using Nat.strongRecOn with
  | _ i ih =>
    rcases Nat.eq_zero_or_pos i with rfl | hpos
    · exact Nat.le_refl _
    · exact Nat.le_trans (ih _ (by omega) (by omega)) (hh i hi)

/-- the last edge put into the place of the first -/
theorem perm_replaceFirst {first last : WeightedEdge} (hfirst : h[0]? = some first) (hlast : h.back? = some last)
    (hsize : 1 < h.size) : (first :: (h.pop.setIfInBounds 0 last).toList).Perm h.toList := by
  obtain ⟨l⟩ := h
  match l with
  | [] => simp at hsize
  | [a] => simp at hsize
  | a :: b :: l =>
    obtain rfl : a = first := by simpa using hfirst
    obtain rfl : (b :: l).getLast (List.cons_ne_nil _ _) = last := by
      have hend : (b :: l).getLast? = some last := by simpa using hlast
      exact Option.some.inj ((List.getLast?_eq_some_getLast _).symm.trans hend)
    have hset : ((⟨a :: b :: l⟩ : Heap).pop.setIfInBounds 0 ((b :: l).getLast (List.cons_ne_nil _ _))).toList =
        (b :: l).getLast (List.cons_ne_nil _ _) :: (b :: l).dropLast := by simp
    rw [hset]
    refine List.Perm.cons a ((List.perm_append_singleton _ _).symm.trans ?_)
    rw [List.dropLast_append_getLast]

/-- **the lightest edge is taken, and a heap of the others is left** -/
theorem exists_pop (hh : IsHeap h) (hne : 0 < h.size) : ∃ e h', pop h = some (e, h') ∧ IsHeap h' ∧
    (e :: h'.toList).Perm h.toList ∧ ∀ f ∈ h.toList, e.weight ≤ f.weight := by
  have hfirst : h[0]? = some h[0] := Array.getElem?_eq_getElem hne
  have hlast : h.back? = some h[h.size - 1] := by
    rw [Array.back?_eq_getElem?]
    exact Array.getElem?_eq_getElem _
  have hleast : ∀ f ∈ h.toList, h[0].weight ≤ f.weight := by
    intro f hf
    obtain ⟨i, hi, rfl⟩ := Array.mem_iff_getElem.1 (Array.mem_def.2 hf)
    have hroot := isHeap_root hh i hi
    rwa [weightAt_eq hne, weightAt_eq hi] at hroot
  rw [pop, hfirst, hlast]
  dsimp only
  split
  · rename_i hempty
    have hsize : h.size = 1 := by
      rw [Array.isEmpty_iff_size_eq_zero, Array.size_pop] at hempty
      omega
    refine ⟨_, _, rfl, fun j hj => ?_, ?_, hleast⟩
    · rw [Array.size_pop] at hj
      omega
    · obtain ⟨l⟩ := h
      obtain ⟨a, rfl⟩ := List.length_eq_one_iff.1 hsize
      exact .refl _
  · rename_i hmore
    have hsize : 1 < h.size := by
      rw [Array.isEmpty_iff_size_eq_zero, Array.size_pop] at hmore
      omega
    have hreplaced : ∀ {j}, 0 < j → j < h.size - 1 →
        weightAt (h.pop.setIfInBounds 0 h[h.size - 1]) j = weightAt h j := fun hpos hj =>
      weightAt_congr (by rw [Array.getElem?_setIfInBounds, if_neg (Nat.ne_of_lt hpos), Array.getElem?_pop, if_pos hj])
    have hsinks : Sinks (h.pop.setIfInBounds 0 h[h.size - 1]) 0 := by
      refine ⟨fun j hj hne habove => ?_, fun h0 => absurd h0 (Nat.lt_irrefl 0)⟩
      rw [Array.size_setIfInBounds, Array.size_pop] at hj
      rw [hreplaced (by omega) (by omega), hreplaced (by omega) hj]
      exact hh j (by omega)
    obtain ⟨hrises, hin⟩ := rises_sink h.pop.size hsinks (by simp; omega) (by simp)
    refine ⟨_, _, rfl, isHeap_rise _ hrises (Or.inl hin) (by omega), ?_, hleast⟩
    exact (((perm_rise _).trans (perm_sink _)).cons _).trans (perm_replaceFirst hfirst hlast hsize)

/-- edges by weight -/
def Sorted (l : List WeightedEdge) : Prop := l.Pairwise fun e f => e.weight ≤ f.weight

/-- **the edges of a heap come out by weight, each of them once** -/
theorem perm_sorted_drain (n : Nat) (hh : IsHeap h) (hn : h.size = n) :
    (drain n h).Perm h.toList ∧ Sorted (drain n h) := by
  induction n generalizing h with
  | zero =>
    rw [Array.eq_empty_of_size_eq_zero hn]
    exact ⟨.refl _, .nil⟩
  | succ n ih =>
    obtain ⟨e, h', hpop, hh', hperm, hleast⟩ := exists_pop hh (by omega)
    have hsize : h'.size = n := by
      have := hperm.length_eq
      simp only [List.length_cons, Array.length_toList] at this
      omega
    obtain ⟨hall, hsorted⟩ := ih hh' hsize
    rw [drain, hpop]
    refine ⟨(hall.cons e).trans hperm, List.pairwise_cons.2 ⟨fun f hf => ?_, hsorted⟩⟩
    exact hleast f (hperm.subset (List.mem_cons_of_mem _ (hall.subset hf)))

/-- **the edges come out lightest first, each of them once** -/
theorem perm_sorted_lightestFirst (edges : List WeightedEdge) :
    (lightestFirst edges).Perm edges ∧ Sorted (lightestFirst edges) := by
  have hpushed : ∀ (l : List WeightedEdge) (h : Heap), IsHeap h →
      IsHeap (l.foldl push h) ∧ (l.foldl push h).toList.Perm (l ++ h.toList) := by
    intro l
    induction l with
    | nil => exact fun h hh => ⟨hh, .refl _⟩
    | cons e l ih =>
      intro h hh
      obtain ⟨hheap, hperm⟩ := ih _ (isHeap_push (e := e) hh)
      exact ⟨hheap, hperm.trans ((perm_push.append_left l).trans List.perm_middle)⟩
  obtain ⟨hheap, hperm⟩ := hpushed edges #[] fun j hj => absurd hj (Nat.not_lt_zero j)
  rw [List.append_nil] at hperm
  obtain ⟨hall, hsorted⟩ := perm_sorted_drain edges.length hheap (by simpa using hperm.length_eq)
  exact ⟨hall.trans hperm, hsorted⟩

end SemanticPlanner.SpanningTree
