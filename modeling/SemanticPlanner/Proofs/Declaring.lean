/-
What a declaration does to an environment.

  addresses             the addresses at which a declaration puts concepts
  Applies               adding concepts that read what is declared, merging two concepts, or adding a datasource
  applies_of_apply      a declaration that is accepted does one of these
  Applies.closed        a declaration leaves a closed environment closed
  build_closed          declarations that build leave nothing undeclared, so that their graph is built, or refused for a
                        cycle of lineage

A derived concept may read its own address, and an aligned concept what an earlier alignment of the same name collects;
both are declared when the declaration is through.
-/
import SemanticPlanner.Proofs.Following
import SemanticPlanner.Proofs.Sourcing
import SemanticPlanner.Environment.Declaration

namespace SemanticPlanner

variable {env env' : Environment} {a x : String} {c : Concept} {cs : List Concept} {d : Declaration}

/-! ## Steps that can fail -/

theorem map_eq_ok {ε α β : Type} {x : Except ε α} {f : α → β} {w : β} (h : x.map f = .ok w) :
    ∃ v, x = .ok v ∧ f v = w := by
  cases x with
  | error => cases h
  | ok v => exact ⟨v, rfl, Except.ok.inj h⟩

/-- a loop that refuses an item has refused none if it ends -/
theorem forIn_eq_ok {ε α : Type} {l : List α} {refused : α → Bool} {e : α → ε}
    (h : (forIn l PUnit.unit fun a _ => if refused a = true then (throw (e a) : Except ε (ForInStep PUnit))
      else pure (.yield PUnit.unit)) = .ok PUnit.unit) : ∀ a ∈ l, refused a = false := by
  induction l with
  | nil => exact fun _ h => absurd h List.not_mem_nil
  | cons a l ih =>
    rw [List.forIn_cons] at h
    cases ha : refused a with
    | true =>
      rw [if_pos ha] at h
      cases h
    | false =>
      rw [if_neg (by rw [ha]; exact Bool.false_ne_true)] at h
      exact List.forall_mem_cons.2 ⟨ha, ih h⟩

namespace Declaration

/-- the addresses at which a declaration puts concepts -/
def addresses : Declaration → List String
  | key name _ | property name _ _ _ | constant name _ _ | derived name _ _ => [Address.qualify name]
  | merge _ _ | datasource _ => []
  | rowset name select => select.output.map fun a => name ++ "." ++ Address.nameOf a
  | multiselect _ _ align => align.map fun item => Address.qualify item.aligned

end Declaration

namespace Environment

/-! ## Adding concepts -/

theorem find?_add (env : Environment) (c : Concept) (a : String) :
    (env.add c).find? a = if a = c.address then some c else env.find? a := SortedMap.get?_insert _ _ _ _

/-- what is found after concepts were added is one of them, or what was found before -/
theorem find?_addAll (env : Environment) (cs : List Concept) (a : String) :
    (∃ c ∈ cs, c.address = a ∧ (cs.foldl add env).find? a = some c) ∨
      a ∉ Concept.addresses cs ∧ (cs.foldl add env).find? a = env.find? a := by
  induction cs generalizing env with
  | nil => exact Or.inr ⟨List.not_mem_nil, rfl⟩
  | cons c cs ih =>
    rcases ih (env.add c) with ⟨d, hd, hda, hfind⟩ | ⟨hnot, hfind⟩
    · exact Or.inl ⟨d, List.mem_cons_of_mem _ hd, hda, hfind⟩
    rw [find?_add] at hfind
    split at hfind
    · rename_i hac
      exact Or.inl ⟨c, List.mem_cons_self, hac.symm, hfind⟩
    · rename_i hac
      exact Or.inr ⟨fun hmem => (List.mem_cons.1 hmem).elim hac hnot, hfind⟩

theorem isDeclared_addAll :
    (cs.foldl add env).isDeclared a = true ↔ a ∈ Concept.addresses cs ∨ env.isDeclared a = true := by
  rw [isDeclared_iff, isDeclared_iff]
  rcases find?_addAll env cs a with ⟨c, hc, rfl, hfind⟩ | ⟨hnot, hfind⟩
  · exact iff_of_true ⟨c, hfind⟩ (Or.inl (List.mem_map_of_mem hc))
  · rw [hfind, or_iff_right hnot]

theorem isDeclared_add : (env.add c).isDeclared a = true ↔ a = c.address ∨ env.isDeclared a = true := by
  show ([c].foldl add env).isDeclared a = true ↔ _
  rw [isDeclared_addAll]
  exact or_congr_left List.mem_singleton

theorem datasources_addAll (env : Environment) (cs : List Concept) :
    (cs.foldl add env).datasources = env.datasources :=
  List.foldlRecOn (motive := fun e : Environment => e.datasources = env.datasources) cs add rfl fun _ h _ _ => h

/-! ## Merging -/

theorem find?_addPseudonym (env : Environment) (a b x : String) : (env.addPseudonym a b).find? x =
    (env.find? x).map fun c => if x = a then { c with pseudonyms := c.pseudonyms.insert b } else c := by
  rw [addPseudonym]
  split
  · rename_i c hc
    rw [find?, SortedMap.get?_insert]
    split
    · rename_i hx
      rw [hx, hc, Option.map_some]
    · simp only [Option.map_id']
      rfl
  · rename_i hnone
    by_cases hx : x = a
    · rw [hx, hnone, Option.map_none]
    · simp only [if_neg hx, Option.map_id']

@[simp] theorem isDeclared_addPseudonym (env : Environment) (a b x : String) :
    (env.addPseudonym a b).isDeclared x = env.isDeclared x := by
  show ((env.addPseudonym a b).find? x).isSome = (env.find? x).isSome
  rw [find?_addPseudonym, Option.isSome_map]

@[simp] theorem datasources_addPseudonym (env : Environment) (a b : String) :
    (env.addPseudonym a b).datasources = env.datasources := by
  rw [addPseudonym]
  split <;> rfl

/-! ## What a declaration does -/

/-- what a declaration does to an environment -/
inductive Applies (env : Environment) : Declaration → Environment → Prop
  | adds {d : Declaration} {cs : List Concept} : (∀ s t, d ≠ .merge s t) →
      (∀ a, a ∈ Concept.addresses cs ↔ a ∈ d.addresses) → (∀ c ∈ cs, c.pseudonyms = ∅) →
      (∀ c ∈ cs, ∀ x ∈ c.arguments, x ∈ Concept.addresses cs ∨ env.isDeclared x = true) →
      Applies env d (cs.foldl add env)
  | alike {s t : String} : Address.qualify s = Address.qualify t → env.isDeclared (Address.qualify s) = true →
      Applies env (.merge s t) env
  | merges {s t : String} : Address.qualify s ≠ Address.qualify t → env.isDeclared (Address.qualify s) = true →
      env.isDeclared (Address.qualify t) = true →
      Applies env (.merge s t) ((env.addPseudonym (Address.qualify s) (Address.qualify t)).addPseudonym
        (Address.qualify t) (Address.qualify s))
  | files {d s : Datasource} :
      s = { d with columns := d.columns.map fun c => { c with concept := Address.qualify c.concept } } →
      (∀ x ∈ s.outputs, env.isDeclared x = true) →
      Applies env (.datasource d) { env with datasources := env.datasources.insert s.identifier s }

/-- one concept put at the address of its declaration -/
theorem applies_add (hd : ∀ s t, d ≠ .merge s t) (haddress : d.addresses = [c.address]) (hpseud : c.pseudonyms = ∅)
    (hargs : ∀ x ∈ c.arguments, x = c.address ∨ env.isDeclared x = true) : Applies env d (env.add c) := by
  show Applies env d ([c].foldl add env)
  refine .adds hd (fun a => by rw [haddress]; rfl) (fun e he => ?_) fun e he x hx => ?_
  · rwa [List.mem_singleton.1 he]
  · rw [List.mem_singleton.1 he] at hx
    exact (hargs x hx).imp_left List.mem_singleton.2

theorem applies_derived {name : String} {datatype : DataType} {lineage : Lineage} {a : String}
    (h : env.declareDerived name datatype lineage = .ok (env', a)) :
    Applies env (.derived name datatype lineage) env' := by
  rw [declareDerived] at h
  obtain ⟨⟨⟩, hloop, h⟩ := Resolve.bind_eq_ok h
  obtain ⟨attributes, -, h⟩ := Resolve.bind_eq_ok h
  cases h
  refine applies_add (by simp) rfl rfl fun x hx => ?_
  have hread := forIn_eq_ok hloop x hx
  rw [Bool.and_eq_false_iff, bne_eq_false_iff_eq, Bool.not_eq_false'] at hread
  exact hread

theorem applies_merge {s t : String} (h : (Declaration.merge s t).apply env = .ok env') :
    Applies env (.merge s t) env' := by
  rw [Declaration.apply, merge] at h
  split at h
  · cases h
  rename_i hs
  split at h
  · cases h
  rename_i ht
  rw [Bool.not_eq_true', Bool.not_eq_false] at hs ht
  split at h
  · rename_i halike
    cases h
    exact .alike halike hs
  · rename_i hne
    cases h
    exact .merges hne hs ht

theorem applies_datasource {d : Datasource} (h : (Declaration.datasource d).apply env = .ok env') :
    Applies env (.datasource d) env' := by
  rw [Declaration.apply, declareDatasource] at h
  split at h
  · cases h
  · rename_i hnone
    cases h
    refine .files rfl fun x hx => ?_
    obtain ⟨column, hcolumn, rfl⟩ := List.mem_map.1 (mem_distinct.1 hx)
    have hdeclared := List.find?_eq_none.1 hnone column hcolumn
    rwa [Bool.not_eq_true, Bool.not_eq_false'] at hdeclared

/-- a rowset exposes a concept under a name with a dot in it, which is not qualified again -/
theorem rowsetConcept_address (rowset : String) (select : InnerSelect) (exposed : NameMap String) (c : Concept) :
    (rowsetConcept rowset select exposed c).address = rowset ++ "." ++ Address.nameOf c.address := by
  show Address.qualify (rowset ++ "." ++ Address.nameOf c.address) = _
  rw [Address.qualify, if_pos]
  simp [Address.hasDot]

theorem applies_rowset (hk : env.Keyed) {name : String} {select : InnerSelect} {xs : List String}
    (h : env.declareRowset name select = .ok (env', xs)) : Applies env (.rowset name select) env' := by
  obtain ⟨contents, hcontents, h⟩ := Resolve.bind_eq_ok h
  cases h
  refine .adds (by simp) (fun a => ?_) (fun c hc => ?_) fun c hc x hx => ?_
  · have haddresses : Concept.addresses contents = distinct select.output := hk.addresses_mapM hcontents
    simp only [Declaration.addresses, List.mem_map, ← mem_distinct (l := select.output), ← haddresses,
      Concept.addresses, exists_exists_and_eq_and, rowsetConcept_address]
  · obtain ⟨content, -, rfl⟩ := List.mem_map.1 hc
    rfl
  · obtain ⟨content, hmem, rfl⟩ := List.mem_map.1 hc
    obtain rfl : x = content.address := List.mem_singleton.1 hx
    obtain ⟨a, -, ha⟩ := mem_conceptsFor hcontents hmem
    exact Or.inr (isDeclared_iff.2 ⟨content, hk.find?_address ha⟩)

/-- concepts that are looked up are declared -/
theorem isDeclared_of_conceptsFor {l : List String} (h : env.conceptsFor l = .ok cs) (hx : x ∈ l) :
    env.isDeclared x = true := by
  obtain ⟨c, -, hc⟩ := exists_of_forall₂ (forall₂_mapM_ok h) (mem_distinct.2 hx)
  exact isDeclared_iff.2 ⟨c, concept_eq_ok hc⟩

section Multiselect

variable {name : String} {selects : List InnerSelect} {align l : List Alignment} {item : Alignment}

theorem alignedConcept_eq_ok (h : env.alignedConcept name selects align item = .ok c) :
    (∀ x ∈ item.concepts, env.isDeclared x = true) ∧ c.address = Address.qualify item.aligned ∧ c.pseudonyms = ∅ ∧
      c.lineage = some (.multiselect ⟨name, selects, align, item.aligned⟩) := by
  obtain ⟨members, hmembers, h⟩ := Resolve.bind_eq_ok h
  refine ⟨fun x hx => isDeclared_of_conceptsFor hmembers hx, ?_⟩
  cases members with
  | nil => cases h
  | cons first rest =>
    cases h
    exact ⟨rfl, rfl, rfl⟩

/-- the concepts that alignments declare collect what is declared by then -/
theorem declareAligned_eq_ok {created xs : List String}
    (h : declareAligned name selects align created env l = (env', .ok xs)) :
    ∃ cs : List Concept, env' = cs.foldl add env ∧
      Concept.addresses cs = l.map (fun item => Address.qualify item.aligned) ∧
      (∀ c ∈ cs, c.pseudonyms = ∅ ∧ ∃ aligned, c.lineage = some (.multiselect ⟨name, selects, align, aligned⟩)) ∧
      ∀ item ∈ l, ∀ x ∈ item.concepts, x ∈ Concept.addresses cs ∨ env.isDeclared x = true := by
  induction l generalizing env created with
  | nil =>
    cases h
    exact ⟨[], rfl, rfl, fun _ h => absurd h List.not_mem_nil, fun _ h => absurd h List.not_mem_nil⟩
  | cons item l ih =>
    rw [declareAligned] at h
    split at h
    · cases (Prod.mk.inj h).2
    rename_i c hc
    obtain ⟨hdeclared, haddress, hpseud, hlineage⟩ := alignedConcept_eq_ok hc
    obtain ⟨cs, hcs, haddresses, hmade, hrest⟩ := ih h
    refine ⟨c :: cs, hcs, ?_, List.forall_mem_cons.2 ⟨⟨hpseud, _, hlineage⟩, hmade⟩,
      List.forall_mem_cons.2 ⟨fun x hx => Or.inr (hdeclared x hx), fun other hother x hx => ?_⟩⟩
    · rw [List.map_cons, ← haddress, ← haddresses]
      rfl
    · rcases hrest other hother x hx with hmem | hx
      · exact Or.inl (List.mem_cons_of_mem _ hmem)
      · exact (isDeclared_add.1 hx).imp_left fun hself => List.mem_cons.2 (Or.inl hself)

theorem applies_multiselect {xs : List String} (h : env.declareMultiselect name selects align = (env', .ok xs)) :
    Applies env (.multiselect name selects align) env' := by
  obtain ⟨cs, rfl, haddresses, hmade, hconcepts⟩ := declareAligned_eq_ok h
  refine .adds (by simp) (fun a => ?_) (fun c hc => (hmade c hc).1) fun c hc x hx => ?_
  · rw [haddresses, List.map_map]
    simp only [Declaration.addresses, List.mem_map, Function.comp_apply, Address.qualify_qualify]
  · obtain ⟨-, aligned, hlineage⟩ := hmade c hc
    rw [Concept.arguments, hlineage] at hx
    simp only [Lineage.arguments] at hx
    split at hx
    · rename_i item hitem
      exact hconcepts item (List.mem_of_find?_eq_some hitem) x (mem_distinct.1 hx)
    · cases hx

end Multiselect

/-- **a declaration that is accepted adds, merges or files** -/
theorem applies_of_apply (hk : env.Keyed) (h : d.apply env = .ok env') : Applies env d env' := by
  cases d with
  | key =>
    cases h
    exact applies_add (by simp) rfl rfl fun _ h => absurd h List.not_mem_nil
  | property name datatype keys isUnique =>
    cases h
    cases isUnique with
    | true => exact applies_add (by simp) rfl rfl fun _ h => absurd h List.not_mem_nil
    | false => exact applies_add (by simp) rfl rfl fun _ h => absurd h List.not_mem_nil
  | constant =>
    cases h
    exact applies_add (by simp) rfl rfl fun _ h => absurd h List.not_mem_nil
  | derived name datatype lineage =>
    obtain ⟨⟨env', address⟩, hderived, rfl⟩ := map_eq_ok h
    exact applies_derived hderived
  | merge s t => exact applies_merge h
  | datasource d => exact applies_datasource h
  | rowset name select =>
    obtain ⟨⟨env', xs⟩, hrowset, rfl⟩ := map_eq_ok h
    exact applies_rowset hk hrowset
  | multiselect name selects align =>
    rw [Declaration.apply] at h
    split at h
    · rename_i hmultiselect
      cases h
      exact applies_multiselect hmultiselect
    · cases h

/-! ## Nothing is left undeclared -/

theorem closed_empty : empty.Closed where
  keyed := keyed_empty
  filed _ _ h := by cases h
  arguments _ _ h := by cases h
  pseudonyms _ _ h := by cases h
  columns _ _ h := by cases h

theorem Closed.addAll (h : env.Closed) (hpseud : ∀ c ∈ cs, c.pseudonyms = ∅)
    (hargs : ∀ c ∈ cs, ∀ x ∈ c.arguments, x ∈ Concept.addresses cs ∨ env.isDeclared x = true) :
    (cs.foldl add env).Closed where
  keyed := List.foldlRecOn cs add h.keyed fun _ h c _ => h.add c
  filed i s hs := by
    rw [datasources_addAll] at hs
    exact h.filed i s hs
  arguments a c hc x hx := by
    rcases find?_addAll env cs a with ⟨e, he, -, hfind⟩ | ⟨-, hfind⟩
    · obtain rfl := Option.some.inj (hfind.symm.trans hc)
      exact isDeclared_addAll.2 (hargs _ he x hx)
    · exact isDeclared_addAll.2 (Or.inr (h.arguments a c (hfind.symm.trans hc) x hx))
  pseudonyms a c hc x hx := by
    rcases find?_addAll env cs a with ⟨e, he, -, hfind⟩ | ⟨-, hfind⟩
    · obtain rfl := Option.some.inj (hfind.symm.trans hc)
      rw [hpseud _ he] at hx
      exact absurd hx (SortedSet.not_mem_empty _)
    · exact isDeclared_addAll.2 (Or.inr (h.pseudonyms a c (hfind.symm.trans hc) x hx))
  columns i s hs x hx := by
    rw [datasources_addAll] at hs
    exact isDeclared_addAll.2 (Or.inr (h.columns i s hs x hx))

theorem Closed.addPseudonym (h : env.Closed) {b : String} (hb : env.isDeclared b = true) (a : String) :
    (env.addPseudonym a b).Closed := by
  have hfind : ∀ {y c}, (env.addPseudonym a b).find? y = some c → ∃ d, env.find? y = some d ∧
      c.arguments = d.arguments ∧ ∀ x ∈ c.pseudonyms, x = b ∨ x ∈ d.pseudonyms := by
    intro y c hc
    rw [find?_addPseudonym] at hc
    obtain ⟨d, hd, rfl⟩ := Option.map_eq_some_iff.1 hc
    refine ⟨d, hd, ?_⟩
    split
    · exact ⟨rfl, fun x hx => SortedSet.mem_insert.1 hx⟩
    · exact ⟨rfl, fun x hx => Or.inr hx⟩
  refine ⟨h.keyed.addPseudonym a b, fun i s hs => ?_, fun y c hc x hx => ?_, fun y c hc x hx => ?_,
    fun i s hs x hx => ?_⟩
  · rw [datasources_addPseudonym] at hs
    exact h.filed i s hs
  · obtain ⟨d, hd, hargs, -⟩ := hfind hc
    rw [isDeclared_addPseudonym]
    exact h.arguments y d hd x (hargs ▸ hx)
  · obtain ⟨d, hd, -, hpseud⟩ := hfind hc
    rw [isDeclared_addPseudonym]
    rcases hpseud x hx with rfl | hx
    · exact hb
    · exact h.pseudonyms y d hd x hx
  · rw [datasources_addPseudonym] at hs
    rw [isDeclared_addPseudonym]
    exact h.columns i s hs x hx

/-- **a declaration leaves nothing undeclared** -/
theorem Applies.closed (h : env.Applies d env') (henv : env.Closed) : env'.Closed := by
  cases h with
  | adds _ _ hpseud hargs => exact henv.addAll hpseud hargs
  | alike => exact henv
  | merges _ hs ht => exact (henv.addPseudonym ht _).addPseudonym (by rwa [isDeclared_addPseudonym]) _
  | files _ hcolumns =>
    refine ⟨henv.keyed, fun i s hs => ?_, henv.arguments, henv.pseudonyms, fun i s hs x hx => ?_⟩
    · rw [SortedMap.get?_insert] at hs
      split at hs
      · rename_i hi
        cases hs
        exact hi.symm
      · exact henv.filed i s hs
    · rw [SortedMap.get?_insert] at hs
      split at hs
      · cases hs
        exact hcolumns x hx
      · exact henv.columns i s hs x hx

end Environment

/-- **what declarations build is closed** -/
theorem Declaration.closed_build {ds : List Declaration} (h : build ds = .ok env) : env.Closed :=
  foldlM_keeps (P := Environment.Closed) h Environment.closed_empty fun _ _ _ henv hd =>
    (Environment.applies_of_apply henv.keyed hd).closed henv

/-- **Declarations that build leave nothing undeclared.** Their graph is built, or refused for a concept that is
computed from itself. -/
theorem EnvironmentFile.build_closed (file : EnvironmentFile) (h : file.build = .ok env) :
    env.Closed ∧ ((∃ g, ReferenceGraph.ofEnvironment env = .ok g) ∨
      ∃ a, ReferenceGraph.ofEnvironment env = .error (.selfReference a) ∧ env.DependsOn a a) := by
  have henv := Declaration.closed_build h
  refine ⟨henv, ?_⟩
  cases hg : ReferenceGraph.ofEnvironment env with
  | ok g => exact Or.inl ⟨g, rfl⟩
  | error e =>
    obtain ⟨a, rfl, hcycle⟩ := ReferenceGraph.ofEnvironment_error henv hg
    exact Or.inr ⟨a, rfl, hcycle⟩

/-- a balance that reads itself, among declarations of every other kind -/
def ledger : EnvironmentFile where
  query := none
  declarations :=
    [.key "account" .integer, .key "entry" .integer, .merge "account" "entry",
      .property "amount" .integer ["entry"] false, .constant "rate" .integer (.integer 2),
      .rowset "recent" ⟨["local.entry", "local.amount"], [], none, none⟩,
      .multiselect "both" [] [⟨"any", ["local.entry", "recent.entry"]⟩],
      .derived "balance" .integer (.function ⟨.add, [.concept "local.balance", .concept "local.amount"]⟩),
      .key "account" .integer,
      .datasource (.ofColumns "entries" [.bind "id" "entry", .bind "amount" "amount"] ["entry"])]

theorem build_closed_ledger : ∃ env, ledger.build = .ok env ∧ env.Closed ∧
    ((∃ g, ReferenceGraph.ofEnvironment env = .ok g) ∨
      ∃ a, ReferenceGraph.ofEnvironment env = .error (.selfReference a) ∧ env.DependsOn a a) := by
  obtain ⟨env, hbuild, -⟩ := map_eq_ok (show ledger.build.map (fun _ => ()) = .ok () from rfl)
  exact ⟨env, hbuild, EnvironmentFile.build_closed ledger hbuild⟩

end SemanticPlanner
