/-
What a concept map reads an address from.

  Provides        a source outputs the address, visibly and completely
  provided        the sources that an address is read from, said for one address
  get?_foldl_at   what a pass over addresses leaves at one of them
  get?_foldl_over what a pass over sources leaves there, by the sources that change it
  resolve_provided    a concept map gives every address what it is provided by

The three passes over the map change one address independently of all others: the first records complete providers, the
second fills what is inherited and still missing, and the third clears what is computed here.
-/
import SemanticPlanner.Relation.ConceptMap
import Mathlib.Data.List.Basic

namespace SemanticPlanner

/-- a source shows the outputs that it does not hide -/
theorem RelationSource.mem_visible {s : RelationSource} {a : String} :
    a ∈ s.visible ↔ a ∈ s.outputs ∧ s.isHidden a = false := by
  cases s with
  | datasource d => simp [visible, outputs, isHidden]
  | query r => simp [visible, outputs, isHidden, Relation.visible]

namespace ConceptMap

variable {sources : List RelationSource} {targets inherited fullJoins : List String} {s : RelationSource} {a x : String}
  {m : NameMap NameSet}

/-! ## Providers -/

/-- the source outputs the address, neither hidden nor partial -/
def Provides (a : String) (s : RelationSource) : Prop := a ∈ s.visible ∧ a ∉ s.partials

instance (a : String) : DecidablePred (Provides a) := fun _ => inferInstanceAs (Decidable (_ ∧ _))

/-- the sources that an address is read from. A target that is not inherited is computed here; else complete providers are
read, all of them for the key of a full join and else the first; else an inherited address is read from the first source
that shows it. -/
def provided (sources : List RelationSource) (targets inherited fullJoins : List String) (a : String) :
    Option NameSet :=
  if a ∈ targets ∧ a ∉ inherited then some ∅
  else
    match sources.filter fun s => Provides a s with
    | first :: rest =>
      some (if a ∈ fullJoins then SortedSet.ofList ((first :: rest).map RelationSource.identifier)
        else SortedSet.singleton first.identifier)
    | [] =>
      if a ∈ inherited then (sources.find? fun s => a ∈ s.visible).map fun s => SortedSet.singleton s.identifier
      else none

/-! ## Passes over a map -/

/-- a pass over addresses that changes one address only where it comes by, in the same way each time -/
theorem get?_foldl_at {step : NameMap NameSet → String → NameMap NameSet} {C : Prop} [Decidable C]
    {f : Option NameSet → Option NameSet}
    (hstep : ∀ m x, (step m x).get? a = if x = a ∧ C then f (m.get? a) else m.get? a) (hf : ∀ o, f (f o) = f o)
    (l : List String) (m : NameMap NameSet) :
    (l.foldl step m).get? a = if a ∈ l ∧ C then f (m.get? a) else m.get? a := by
  induction l generalizing m with
  | nil => simp
  | cons x l ih =>
    rw [List.foldl_cons, ih, hstep]
    by_cases hC : C
    · by_cases hx : x = a
      · simp [hC, hx, hf]
      · simp [hC, hx, Ne.symm hx]
    · simp [hC]

/-- a pass over sources some of which change an address -/
theorem get?_foldl_over {step : NameMap NameSet → RelationSource → NameMap NameSet} {P : RelationSource → Prop}
    [DecidablePred P] {f : RelationSource → Option NameSet → Option NameSet}
    (hstep : ∀ m s, (step m s).get? a = if P s then f s (m.get? a) else m.get? a) (l : List RelationSource)
    (m : NameMap NameSet) :
    (l.foldl step m).get? a = (l.filter fun s => P s).foldl (fun o s => f s o) (m.get? a) := by
  induction l generalizing m with
  | nil => rfl
  | cons s l ih =>
    rw [List.foldl_cons, ih, hstep]
    by_cases hs : P s
    · simp [hs]
    · simp [hs]

/-! ## The three passes -/

/-- a complete provider recorded at an address: every one for the key of a full join, else the first -/
def recorded (fullJoins : List String) (a identifier : String) (o : Option NameSet) : Option NameSet :=
  if a ∈ fullJoins then some ((o.getD ∅).insert identifier) else some (o.getD (SortedSet.singleton identifier))

/-- a source put where there is none -/
def filled (identifier : String) (o : Option NameSet) : Option NameSet :=
  if (o.getD ∅).isEmpty then some (SortedSet.singleton identifier) else o

theorem insert_insert (names : NameSet) (i : String) : (names.insert i).insert i = names.insert i := by
  apply SortedSet.ext
  intro x
  simp [SortedSet.mem_insert]

theorem recorded_recorded (i : String) (o : Option NameSet) :
    recorded fullJoins a i (recorded fullJoins a i o) = recorded fullJoins a i o := by
  unfold recorded
  split
  · simp [insert_insert]
  · simp

theorem filled_filled (i : String) (o : Option NameSet) : filled i (filled i o) = filled i o := by
  have hne : (SortedSet.singleton i : NameSet).isEmpty = false := rfl
  by_cases h : (o.getD ∅).isEmpty = true
  · simp [filled, h, hne]
  · simp [filled, h]

theorem get?_addComplete (m : NameMap NameSet) (x : String) : (addComplete fullJoins s m x).get? a =
    if x = a ∧ s.isHidden a = false ∧ a ∉ s.partials then recorded fullJoins a s.identifier (m.get? a)
    else m.get? a := by
  have hsingle : (∅ : NameSet).insert s.identifier = SortedSet.singleton s.identifier := rfl
  by_cases hx : x = a
  · subst hx
    unfold addComplete recorded
    by_cases hpartial : x ∈ s.partials
    · simp [hpartial]
    by_cases hhidden : s.isHidden x = true
    · simp [hhidden]
    by_cases hfull : x ∈ fullJoins
    · simp [hpartial, hhidden, hfull, SortedMap.update, SortedMap.get?_insert, SortedMap.getD]
    cases hm : m.get? x with
    | none => simp [hpartial, hhidden, hfull, hm, hsingle, SortedMap.contains, SortedMap.update,
        SortedMap.get?_insert, SortedMap.getD]
    | some names => simp [hpartial, hhidden, hfull, hm, SortedMap.contains]
  · unfold addComplete
    simp only [hx, false_and, if_false]
    split
    · rfl
    split
    · simp [SortedMap.update, SortedMap.get?_insert, Ne.symm hx]
    · rfl

theorem get?_addInherited (m : NameMap NameSet) (x : String) : (addInherited inherited s m x).get? a =
    if x = a ∧ s.isHidden a = false ∧ a ∈ inherited then filled s.identifier (m.get? a) else m.get? a := by
  by_cases hx : x = a
  · subst hx
    unfold addInherited filled SortedMap.getD
    by_cases hhidden : s.isHidden x = true
    · simp [hhidden]
    by_cases hinherited : x ∈ inherited
    · by_cases hempty : ((m.get? x).getD ∅).isEmpty = true
      · simp [hhidden, hinherited, hempty, SortedMap.get?_insert]
      · simp [hhidden, hinherited, hempty]
    · simp [hinherited]
  · unfold addInherited
    simp only [hx, false_and, if_false]
    split
    · rfl
    split
    · simp [SortedMap.get?_insert, Ne.symm hx]
    · rfl

/-- what one source adds to an address in the first pass -/
theorem get?_outputs_addComplete (m : NameMap NameSet) (s : RelationSource) :
    (s.outputs.foldl (addComplete fullJoins s) m).get? a =
      if Provides a s then recorded fullJoins a s.identifier (m.get? a) else m.get? a := by
  rw [get?_foldl_at get?_addComplete (recorded_recorded _)]
  simp only [Provides, RelationSource.mem_visible, and_assoc]

/-- what one source adds to an address in the second pass -/
theorem get?_outputs_addInherited (m : NameMap NameSet) (s : RelationSource) :
    (s.outputs.foldl (addInherited inherited s) m).get? a =
      if a ∈ s.visible ∧ a ∈ inherited then filled s.identifier (m.get? a) else m.get? a := by
  rw [get?_foldl_at get?_addInherited (filled_filled _)]
  simp only [RelationSource.mem_visible, and_assoc]

theorem get?_cleared (l : List String) (m : NameMap NameSet) :
    (l.foldl (fun m t => m.insert t ∅) m).get? a = if a ∈ l then some ∅ else m.get? a := by
  have hstep : ∀ (m : NameMap NameSet) (x : String),
      (m.insert x ∅).get? a = if x = a ∧ True then some ∅ else m.get? a := by
    intro m x
    simp [SortedMap.get?_insert, eq_comm]
  rw [get?_foldl_at (f := fun _ => some ∅) hstep fun _ => rfl]
  simp

/-! ## What is left at an address -/

/-- complete providers recorded one after the other -/
theorem foldl_recorded_some (l : List RelationSource) (names : NameSet) :
    l.foldl (fun o s => recorded fullJoins a s.identifier o) (some names) =
      some (if a ∈ fullJoins then names.insertAll (l.map RelationSource.identifier) else names) := by
  induction l generalizing names with
  | nil => simp [SortedSet.insertAll]
  | cons s l ih =>
    rw [List.foldl_cons]
    by_cases hfull : a ∈ fullJoins
    · have hs : recorded fullJoins a s.identifier (some names) = some (names.insert s.identifier) := by
        simp [recorded, hfull]
      rw [hs, ih]
      simp [hfull, SortedSet.insertAll]
    · have hs : recorded fullJoins a s.identifier (some names) = some names := by simp [recorded, hfull]
      rw [hs, ih]
      simp [hfull]

/-- what the complete providers of an address leave there -/
def readers (fullJoins : List String) (a : String) (first : RelationSource) (rest : List RelationSource) : NameSet :=
  if a ∈ fullJoins then SortedSet.ofList ((first :: rest).map RelationSource.identifier)
  else SortedSet.singleton first.identifier

theorem foldl_recorded (first : RelationSource) (rest : List RelationSource) :
    (first :: rest).foldl (fun o s => recorded fullJoins a s.identifier o) none =
      some (readers fullJoins a first rest) := by
  have hfirst : recorded fullJoins a first.identifier none = some (SortedSet.singleton first.identifier) := by
    unfold recorded
    split <;> rfl
  rw [List.foldl_cons, hfirst, foldl_recorded_some]
  rfl

/-- where there is a source, no other is filled in -/
theorem foldl_filled_some (l : List RelationSource) {names : NameSet} (h : names.isEmpty = false) :
    l.foldl (fun o s => filled s.identifier o) (some names) = some names := by
  have hkeeps : ∀ s : RelationSource, filled s.identifier (some names) = some names := by
    intro s
    simp [filled, h]
  induction l with
  | nil => rfl
  | cons s l ih => rw [List.foldl_cons, hkeeps, ih]

theorem foldl_filled_none (l : List RelationSource) : l.foldl (fun o s => filled s.identifier o) none =
    l.head?.map fun s => SortedSet.singleton s.identifier := by
  cases l with
  | nil => rfl
  | cons s l => exact foldl_filled_some l rfl

theorem readers_ne_empty (first : RelationSource) (rest : List RelationSource) :
    (readers fullJoins a first rest).isEmpty = false := by
  rw [← Bool.not_eq_true, SortedSet.isEmpty_iff, not_forall_not]
  refine ⟨first.identifier, ?_⟩
  unfold readers
  split
  · simp [SortedSet.mem_ofList]
  · exact SortedSet.mem_singleton.2 rfl

/-- the complete providers of an address, once all sources are read -/
theorem get?_complete (sources : List RelationSource) (fullJoins : List String) (a : String) :
    (sources.foldl (fun m (s : RelationSource) => s.outputs.foldl (addComplete fullJoins s) m) ∅).get? a =
      match sources.filter fun s => Provides a s with
      | first :: rest => some (readers fullJoins a first rest)
      | [] => none := by
  rw [get?_foldl_over get?_outputs_addComplete]
  cases sources.filter fun s => Provides a s with
  | nil => rfl
  | cons first rest => exact foldl_recorded first rest

/-- **A concept map gives every address what it is provided by.** -/
theorem resolve_provided (sources : List RelationSource) (targets inherited fullJoins : List String) (a : String) :
    (resolve sources targets inherited fullJoins).get? a = provided sources targets inherited fullJoins a := by
  have hcomputed : a ∈ (targets.filter fun t => !inherited.contains t) ↔ a ∈ targets ∧ a ∉ inherited := by simp
  unfold resolve provided
  rw [get?_cleared, get?_foldl_over get?_outputs_addInherited, get?_complete]
  simp only [hcomputed]
  congr 1
  cases sources.filter fun s => Provides a s with
  | cons first rest => exact foldl_filled_some _ (readers_ne_empty first rest)
  | nil =>
    rw [foldl_filled_none]
    by_cases hinherited : a ∈ inherited
    · simp [hinherited, List.head?_filter]
    · simp [hinherited]

/-- a category that one source has in part is read from the one that has all of it -/
example : ((resolve
    [.datasource (.ofColumns "some" [.bind "id" "id", (Column.bind "category" "category").partly] ["id"]),
      .datasource (.ofColumns "all" [.bind "id" "id", .bind "category" "category"] ["id"])] [] [] []).toList.map
      fun e => (e.1, e.2.toList)) = [("local.category", ["all"]), ("local.id", ["some"])] := by decide +kernel

end ConceptMap

end SemanticPlanner
