/-
Finite maps held as the list of their entries, keys strictly increasing.

Look-up is pinned by `get?_insert`, `get?_erase` and `get?_empty`, and finds exactly the listed entries
(`get?_eq_some_iff`).
-/
import SemanticPlanner.Order.SortedSet

namespace SemanticPlanner

/-- a finite map from `κ` to `ν`, listed by increasing key -/
structure SortedMap (κ ν : Type) [Sorts κ] where
  toList : List (κ × ν)
  increasing : toList.Pairwise (fun p q => Sorts.before p.1 q.1 = true)

/-- a map from names -/
abbrev NameMap (ν : Type) := SortedMap String ν

namespace SortedMap

variable {κ ν : Type} [Sorts κ]

def empty : SortedMap κ ν := ⟨[], List.Pairwise.nil⟩

instance : EmptyCollection (SortedMap κ ν) := ⟨empty⟩

instance : Inhabited (SortedMap κ ν) := ⟨empty⟩

instance [BEq κ] [BEq ν] : BEq (SortedMap κ ν) := ⟨fun m n => m.toList == n.toList⟩

instance [DecidableEq κ] [DecidableEq ν] : DecidableEq (SortedMap κ ν) := fun m n =>
  if h : m.toList = n.toList then isTrue (by cases m; cases n; cases h; rfl)
  else isFalse fun e => h (e ▸ rfl)

/-! ## Look-up -/

/-- the value under a key in an entry list -/
def lookup (k : κ) : List (κ × ν) → Option ν
  | [] => none
  | (k', v) :: l => if Sorts.before k' k then lookup k l else if Sorts.before k k' then none else some v

def get? (m : SortedMap κ ν) (k : κ) : Option ν := lookup k m.toList

def contains (m : SortedMap κ ν) (k : κ) : Bool := (m.get? k).isSome

def getD (m : SortedMap κ ν) (k : κ) (v : ν) : ν := (m.get? k).getD v

theorem get?_empty (k : κ) : (empty : SortedMap κ ν).get? k = none := rfl

private theorem lookup_eq_some_iff {k : κ} {v : ν} : ∀ {l : List (κ × ν)},
    l.Pairwise (fun p q => Sorts.before p.1 q.1 = true) → (lookup k l = some v ↔ (k, v) ∈ l)
  | [], _ => by simp [lookup]
  | (k', v') :: l, h => by
    have h' := List.pairwise_cons.1 h
    simp only [lookup]
    split
    · rename_i hlt
      rw [lookup_eq_some_iff h'.2, List.mem_cons]
      exact ⟨Or.inr, fun hm => hm.resolve_left fun e => Sorts.ne_of_before hlt (congrArg Prod.fst e).symm⟩
    · rename_i hlt
      split
      · rename_i hgt
        refine ⟨fun e => absurd e (by simp), fun hm => ?_⟩
        rcases List.mem_cons.1 hm with e | e
        · exact absurd (congrArg Prod.fst e) (Sorts.ne_of_before hgt)
        · exact absurd (h'.1 _ e) (by simpa using hlt)
      · rename_i hgt
        have e : k' = k := Sorts.total _ _ (by simpa using hlt) (by simpa using hgt)
        subst e
        constructor
        · intro hv
          simp only [Option.some.injEq] at hv
          exact hv ▸ List.mem_cons_self
        · intro hm
          rcases List.mem_cons.1 hm with e | e
          · simp only [Prod.mk.injEq, true_and] at e
            rw [e]
          · exact absurd rfl (Sorts.ne_of_before (h'.1 (k', v) e))

/-- look-up finds exactly the listed entries -/
theorem get?_eq_some_iff {m : SortedMap κ ν} {k : κ} {v : ν} : m.get? k = some v ↔ (k, v) ∈ m.toList :=
  lookup_eq_some_iff m.increasing

/-! ## Insertion and removal -/

/-- insertion into an entry list, replacing the value of an equal key -/
def insertInto (k : κ) (v : ν) : List (κ × ν) → List (κ × ν)
  | [] => [(k, v)]
  | (k', v') :: l =>
    if Sorts.before k k' then (k, v) :: (k', v') :: l
    else if Sorts.before k' k then (k', v') :: insertInto k v l
    else (k, v) :: l

private theorem key_mem_insertInto {k : κ} {v : ν} {p : κ × ν} {l : List (κ × ν)} (h : p ∈ insertInto k v l) :
    p = (k, v) ∨ p ∈ l := by
  induction l with
  | nil => simpa [insertInto] using h
  | cons q l ih =>
    simp only [insertInto] at h
    split at h
    · simpa using h
    · split at h
      · rcases List.mem_cons.1 h with e | e
        · exact Or.inr (e ▸ List.mem_cons_self)
        · exact (ih e).imp_right (List.mem_cons_of_mem _)
      · rcases List.mem_cons.1 h with e | e
        · exact Or.inl e
        · exact Or.inr (List.mem_cons_of_mem _ e)

private theorem entries_increasing (k : κ) (v : ν) {l : List (κ × ν)}
    (h : l.Pairwise (fun p q => Sorts.before p.1 q.1 = true)) :
    (insertInto k v l).Pairwise (fun p q => Sorts.before p.1 q.1 = true) := by
  induction l with
  | nil => simp [insertInto]
  | cons q l ih =>
    have h' := List.pairwise_cons.1 h
    simp only [insertInto]
    split
    · rename_i hlt
      refine List.pairwise_cons.2 ⟨fun x hx => ?_, h⟩
      rcases List.mem_cons.1 hx with e | e
      · exact e ▸ hlt
      · exact Sorts.trans _ _ _ hlt (h'.1 x e)
    · rename_i hn
      split
      · rename_i hgt
        refine List.pairwise_cons.2 ⟨fun x hx => ?_, ih h'.2⟩
        rcases key_mem_insertInto hx with e | e
        · exact e ▸ hgt
        · exact h'.1 x e
      · rename_i hm
        have e : k = q.1 := Sorts.total _ _ (by simpa using hn) (by simpa using hm)
        refine List.pairwise_cons.2 ⟨fun x hx => ?_, h'.2⟩
        simp only [e]
        exact h'.1 x hx

def insert (m : SortedMap κ ν) (k : κ) (v : ν) : SortedMap κ ν :=
  ⟨insertInto k v m.toList, entries_increasing k v m.increasing⟩

private theorem lookup_cons [DecidableEq κ] (k k' : κ) (v : ν) (l : List (κ × ν)) :
    lookup k ((k', v) :: l) = if k = k' then some v else if Sorts.before k' k then lookup k l else none := by
  simp only [lookup]
  by_cases hk : k = k'
  · subst hk
    simp [Sorts.irrefl]
  · rw [if_neg hk]
    split
    · rfl
    · rename_i hlt
      exact if_pos (Sorts.before_of_ne hk hlt)

private theorem lookup_insertInto [DecidableEq κ] (k k' : κ) (v : ν) (l : List (κ × ν)) :
    lookup k' (insertInto k v l) = if k' = k then some v else lookup k' l := by
  induction l with
  | nil => simp only [insertInto, lookup_cons, lookup, ite_self]
  | cons q l ih =>
    simp only [insertInto]
    split
    · rename_i hlt
      rw [lookup_cons]
      by_cases hk : k' = k
      · rw [if_pos hk, if_pos hk]
      · rw [if_neg hk, if_neg hk]
        split
        · rfl
        · -- what sorts before the new first key sorts before the old one
          rename_i hafter
          have hfirst := Sorts.trans _ _ _ (Sorts.before_of_ne hk hafter) hlt
          rw [lookup_cons, if_neg (Sorts.ne_of_before hfirst), Sorts.asymm hfirst, if_neg Bool.false_ne_true]
    · rename_i hn
      split
      · rename_i hgt
        rw [lookup_cons, ih, lookup_cons]
        by_cases hk : k' = k
        · subst hk
          rw [if_neg (Sorts.ne_of_before hgt).symm, if_pos hgt, if_pos rfl, if_pos rfl]
        · simp only [if_neg hk]
      · rename_i hm
        have hsame : k = q.1 := Sorts.total _ _ (by simpa using hn) (by simpa using hm)
        rw [lookup_cons, lookup_cons, hsame]
        split <;> rfl

theorem get?_insert [DecidableEq κ] (m : SortedMap κ ν) (k k' : κ) (v : ν) :
    (m.insert k v).get? k' = if k' = k then some v else m.get? k' := lookup_insertInto k k' v m.toList

/-- the entries whose key and value pass a test -/
def filter (p : κ → ν → Bool) (m : SortedMap κ ν) : SortedMap κ ν :=
  ⟨m.toList.filter (fun e => p e.1 e.2), m.increasing.filter _⟩

def erase [DecidableEq κ] (m : SortedMap κ ν) (k : κ) : SortedMap κ ν := m.filter (fun k' _ => k' != k)

theorem get?_erase [DecidableEq κ] (m : SortedMap κ ν) (k k' : κ) :
    (m.erase k).get? k' = if k' = k then none else m.get? k' := by
  refine Option.ext fun v => ?_
  rw [get?_eq_some_iff, erase, filter, List.mem_filter]
  split
  · rename_i h
    simp [h]
  · rename_i h
    rw [get?_eq_some_iff]
    simp [h]

/-- the map with the value of each key changed -/
def mapValues {ω : Type} (f : κ → ν → ω) (m : SortedMap κ ν) : SortedMap κ ω :=
  ⟨m.toList.map (fun e => (e.1, f e.1 e.2)), by
    refine List.pairwise_map.2 (m.increasing.imp ?_)
    intro a b h
    exact h⟩

theorem get?_mapValues {ω : Type} (f : κ → ν → ω) (m : SortedMap κ ν) (k : κ) :
    (m.mapValues f).get? k = (m.get? k).map (f k) := by
  refine Option.ext fun v => ?_
  rw [get?_eq_some_iff, Option.map_eq_some_iff]
  refine List.mem_map.trans ⟨?_, ?_⟩
  · rintro ⟨⟨k, u⟩, hu, ⟨⟩⟩
    exact ⟨u, get?_eq_some_iff.2 hu, rfl⟩
  · rintro ⟨u, hu, rfl⟩
    exact ⟨(k, u), get?_eq_some_iff.1 hu, rfl⟩

/-- the value of a key replaced by a function of it, a missing one counting as `v` -/
def update (m : SortedMap κ ν) (k : κ) (v : ν) (f : ν → ν) : SortedMap κ ν := m.insert k (f (m.getD k v))

theorem getD_insert [DecidableEq κ] (m : SortedMap κ ν) (k k' : κ) (v w : ν) :
    (m.insert k v).getD k' w = if k' = k then v else m.getD k' w := by
  rw [getD, get?_insert]
  split <;> rfl

theorem getD_update [DecidableEq κ] (m : SortedMap κ ν) (k k' : κ) (v : ν) (f : ν → ν) :
    (m.update k v f).getD k' v = if k' = k then f (m.getD k v) else m.getD k' v := getD_insert m k k' _ v

def ofList (l : List (κ × ν)) : SortedMap κ ν := l.foldl (fun m e => m.insert e.1 e.2) empty

theorem get?_insertEach [DecidableEq κ] {l : List (κ × ν)} (hl : (l.map Prod.fst).Nodup) (m : SortedMap κ ν)
    {k : κ} {v : ν} : (l.foldl (fun m e => m.insert e.1 e.2) m).get? k = some v ↔
      (k, v) ∈ l ∨ (k ∉ l.map Prod.fst ∧ m.get? k = some v) := by
  induction l generalizing m with
  | nil => simp
  | cons e l ih =>
    obtain ⟨a, w⟩ := e
    obtain ⟨hnew, hl⟩ := List.nodup_cons.1 hl
    rw [List.foldl_cons, ih hl, get?_insert, List.mem_cons, List.map_cons, List.mem_cons, Prod.mk.injEq]
    by_cases hk : k = a
    · subst hk
      have hnew : k ∉ l.map Prod.fst := hnew
      have hnot : (k, v) ∉ l := fun h => hnew (List.mem_map.2 ⟨(k, v), h, rfl⟩)
      simp only [hnot, hnew, if_true, Option.some.injEq, true_and, not_true, false_and, not_false_eq_true, or_false,
        false_or]
      exact eq_comm
    · simp only [hk, if_false, false_and, false_or]

/-- a list with no key twice lists the map made of it -/
theorem get?_ofList [DecidableEq κ] {l : List (κ × ν)} (hl : (l.map Prod.fst).Nodup) {k : κ} {v : ν} :
    (ofList l).get? k = some v ↔ (k, v) ∈ l := by
  rw [ofList, get?_insertEach hl, get?_empty]
  simp

def keys (m : SortedMap κ ν) : List κ := m.toList.map Prod.fst

theorem mem_keys {m : SortedMap κ ν} {k : κ} : k ∈ m.keys ↔ ∃ v, m.get? k = some v := by
  refine List.mem_map.trans ⟨?_, ?_⟩
  · rintro ⟨⟨k, v⟩, hmem, rfl⟩
    exact ⟨v, get?_eq_some_iff.2 hmem⟩
  · rintro ⟨v, hv⟩
    exact ⟨(k, v), get?_eq_some_iff.1 hv, rfl⟩

def values (m : SortedMap κ ν) : List ν := m.toList.map Prod.snd

def size (m : SortedMap κ ν) : Nat := m.toList.length

def isEmpty (m : SortedMap κ ν) : Bool := m.toList.isEmpty

/-- the keys as a set -/
def keySet (m : SortedMap κ ν) : SortedSet κ :=
  ⟨m.keys, List.pairwise_map.2 (m.increasing.imp fun h => h)⟩

theorem nodup_keys (m : SortedMap κ ν) : m.keys.Nodup := m.keySet.nodup

end SortedMap

end SemanticPlanner
