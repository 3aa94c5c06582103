/-
When rows may be left ungrouped.

  Determined         the addresses whose values a row of a grain fixes
  skips_of_check     the four reasons for which grouping is skipped
  check_determines   where grouping is skipped, all that is supplied is determined exactly if the undeclared components
                     and those on a cycle of keys are

A subset, a unique property and a rename each determine what is supplied on their own. That a component's keys are
supplied as well says nothing where those keys hang on the component itself, or where a component is not declared and
so is not looked at.
-/
import SemanticPlanner.Proofs.Coverage
import SemanticPlanner.Proofs.Reach
import SemanticPlanner.Relation.Grouping

namespace SemanticPlanner

variable {env : Environment} {g target supplied : Grain} {a b k : String} {c : Concept} {cs : List Concept}

/-! ## Looking concepts up -/

/-- each concept found for a list stands at one of its addresses -/
theorem Environment.mem_conceptsFor {addresses : List String} (h : env.conceptsFor addresses = .ok cs) (hc : c ∈ cs) :
    ∃ a ∈ addresses, env.find? a = some c := by
  obtain ⟨a, ha, hconcept⟩ := mem_mapM_ok h hc
  exact ⟨a, mem_distinct.1 ha, concept_eq_ok hconcept⟩

/-- a component of the grain of a row is a concept of the row -/
theorem Grain.mem_ofConcepts (h : a ∈ (Grain.ofConcepts cs).components) : ∃ c ∈ cs, c.address = a := by
  obtain ⟨c, hc, rfl⟩ := List.mem_map.1 (SortedSet.mem_ofList.1 h)
  exact ⟨c, List.mem_of_mem_filter hc, rfl⟩

/-- a component of the grain of some addresses is the concept at one of them -/
theorem Environment.mem_grainOf {addresses : List String} (h : env.grainOf addresses = .ok g)
    (ha : a ∈ g.components) : ∃ b ∈ addresses, ∃ c, env.find? b = some c ∧ c.address = a := by
  cases hcs : env.conceptsFor addresses with
  | error e =>
    rw [grainOf, hcs] at h
    cases h
  | ok cs =>
    rw [grainOf, hcs] at h
    cases h
    obtain ⟨c, hc, rfl⟩ := Grain.mem_ofConcepts ha
    obtain ⟨b, hb, hfind⟩ := mem_conceptsFor hcs hc
    exact ⟨b, hb, c, hfind, rfl⟩

namespace Grouping

/-! ## What a grain fixes -/

/-- the addresses whose values a row of the grain fixes: its components, what is keyed by such addresses, the keys of a
unique property, and what a rowset or a filter renames. In a declared environment `filed` adds nothing: every concept
stands at its own address. -/
inductive Determined (env : Environment) (g : Grain) : String → Prop
  | component {a : String} : a ∈ g.components → Determined env g a
  | keyed {a : String} {c : Concept} : env.find? a = some c → c.keys.isEmpty = false →
      (∀ k ∈ c.keys, Determined env g k) → Determined env g a
  | unique {a k : String} {c : Concept} : env.find? a = some c → c.purpose = .uniqueProperty →
      Determined env g c.address → k ∈ c.keys → Determined env g k
  | rowset {a : String} {r : RowsetLineage} : env.lineage? a = some (.rowset r) → Determined env g a →
      Determined env g r.content
  | filter {a : String} {f : FilterLineage} : env.lineage? a = some (.filter f) → Determined env g a →
      Determined env g f.content
  | filed {a : String} {c : Concept} : env.find? a = some c → Determined env g a → Determined env g c.address

/-- the content of a rename is fixed with it -/
theorem Determined.renamed (h : Determined env g a) : Determined env g (renamed env a) := by
  unfold Grouping.renamed
  split
  · rename_i hr
    exact .rowset hr h
  · rename_i hf
    exact .filter hf h
  · exact h

/-- the grain of fixed addresses is fixed -/
theorem Determined.of_grainOf {addresses : List String} (h : env.grainOf addresses = .ok target)
    (haddresses : ∀ b ∈ addresses, Determined env g b) (ha : a ∈ target.components) : Determined env g a := by
  obtain ⟨b, hb, c, hfind, rfl⟩ := env.mem_grainOf h ha
  exact .filed hfind (haddresses b hb)

/-! ## Why grouping is skipped -/

/-- the second grain has every component of the first -/
def Within (g h : Grain) : Prop := ∀ a ∈ g.components, a ∈ h.components

theorem within_iff {h : Grain} : g.isSubset h = true ↔ Within g h := SortedSet.isSubset_iff

/-- the reasons for which rows supplied at one grain are not grouped to the grain of the concepts -/
inductive Skips (env : Environment) (cs : List Concept) (supplied : Grain) : Prop
  | subset : Within supplied (Grain.ofConcepts cs) → Skips env cs supplied
  /-- each declared component beyond the target has keys, and they are supplied too -/
  | dependent : (∀ a ∈ supplied.components, a ∉ (Grain.ofConcepts cs).components → ∀ c, env.find? a = some c →
      c.keys.isEmpty = false ∧ ∀ k ∈ c.keys, k ∈ supplied.components) → Skips env cs supplied
  /-- unique properties of the target stand for their keys -/
  | replaced {addresses : List String} {g : Grain} : env.grainOf addresses = .ok g → Within supplied g →
      (∀ b ∈ addresses, ∃ a c, env.find? a = some c ∧ c.address ∈ (Grain.ofConcepts cs).components ∧
        b ∈ replaceUnique c) → Skips env cs supplied
  | renamed {g : Grain} : env.grainOf ((Grain.ofConcepts cs).components.toList.map (renamed env)) = .ok g →
      Within supplied g → Skips env cs supplied

/-- the components beyond the target that are looked at -/
theorem mem_extra {supplied target : Grain} : c ∈ (supplied.diff target).components.toList.filterMap env.find? ↔
    ∃ a, a ∈ supplied.components ∧ a ∉ target.components ∧ env.find? a = some c := by
  rw [List.mem_filterMap]
  constructor
  · rintro ⟨a, ha, hc⟩
    obtain ⟨hs, ht⟩ := SortedSet.mem_diff.1 ha
    exact ⟨a, hs, ht, hc⟩
  · rintro ⟨a, hs, ht, hc⟩
    exact ⟨a, SortedSet.mem_diff.2 ⟨hs, ht⟩, hc⟩

namespace Skips

theorem of_dependent (h : ((supplied.diff (Grain.ofConcepts cs)).components.toList.filterMap env.find?).all
    (fun x => !x.keys.isEmpty && x.keys.toList.all supplied.contains) = true) : Skips env cs supplied := by
  refine .dependent fun a ha hnot c hc => ?_
  obtain ⟨hkeys, hall⟩ := Bool.and_eq_true_iff.1 (List.all_eq_true.1 h c (mem_extra.2 ⟨a, ha, hnot, hc⟩))
  exact ⟨Bool.not_eq_true' _ ▸ hkeys, fun k hk => SortedSet.contains_iff.1 (List.all_eq_true.1 hall k hk)⟩

theorem of_replaced {downstream : List String} (hcs : env.conceptsFor downstream = .ok cs)
    (hg : env.grainOf (SortedSet.ofList ((cs.filter fun x => (Grain.ofConcepts cs).contains x.address).flatMap
      replaceUnique)).toList = .ok g) (hsubset : supplied.isSubset g = true) : Skips env cs supplied := by
  refine .replaced hg (within_iff.1 hsubset) fun b hb => ?_
  obtain ⟨c, hc, hreplaced⟩ := List.mem_flatMap.1 (SortedSet.mem_ofList.1 hb)
  obtain ⟨hmem, htarget⟩ := List.mem_filter.1 hc
  obtain ⟨a, -, hfind⟩ := env.mem_conceptsFor hcs hmem
  exact ⟨a, c, hfind, SortedSet.contains_iff.1 htarget, hreplaced⟩

/-- the last question asked: what is left when no component beyond the target is a key, or the replaced target is too
small -/
theorem of_renaming {v : Verdict} (hskip : v.required = false)
    (h : (env.grainOf ((Grain.ofConcepts cs).components.toList.map (Grouping.renamed env)) >>= fun g =>
      if supplied.isSubset g = true then .ok ⟨g, supplied, false⟩
      else .ok (⟨Grain.ofConcepts cs, supplied, true⟩ : Verdict)) = Except.ok v) :
    v.supplied = supplied ∧ Skips env cs v.supplied := by
  obtain ⟨g, hg, h⟩ := Resolve.bind_eq_ok h
  split at h
  · rename_i hsubset
    cases h
    exact ⟨rfl, .renamed hg (within_iff.1 hsubset)⟩
  · cases h
    cases hskip

end Skips

/-- **grouping is skipped for one of four reasons** -/
theorem skips_of_check {downstream : List String} {parents : List RelationSource} {v : Verdict}
    (h : check env downstream parents = .ok v) (hskip : v.required = false) :
    ∃ cs, env.conceptsFor downstream = .ok cs ∧
      v.supplied = Grain.unionAll (parents.map (effectiveGrain env)) ∧ Skips env cs v.supplied := by
  obtain ⟨cs, hcs, h⟩ := Resolve.bind_eq_ok h
  refine ⟨cs, hcs, ?_⟩
  simp only [bind, Except.bind, pure, Except.pure] at h
  split at h
  · cases h
    cases hskip
  split at h
  · rename_i hsubset
    cases h
    exact ⟨rfl, .subset (within_iff.1 hsubset)⟩
  split at h
  · rename_i hdependent
    cases h
    exact ⟨rfl, .of_dependent (Bool.and_eq_true_iff.1 hdependent).2⟩
  split at h
  · split at h
    · cases h
    rename_i g hg
    split at h
    · rename_i hsubset
      cases h
      exact ⟨rfl, .of_replaced hcs hg hsubset⟩
    · exact Skips.of_renaming hskip h
  · exact Skips.of_renaming hskip h

/-! ## What skipping leaves undetermined -/

/-- of two supplied components, the second is a key of the first -/
def HasKey (env : Environment) (supplied : Grain) (a k : String) : Prop :=
  a ∈ supplied.components ∧ k ∈ supplied.components ∧ ∃ c, env.find? a = some c ∧ k ∈ c.keys

/-- an undetermined component has an undetermined key among what is supplied, if it is declared -/
theorem Skips.key_of_not_determined (h : Skips env cs supplied) (ha : a ∈ supplied.components)
    (hnot : ¬ Determined env (Grain.ofConcepts cs) a) (hc : env.find? a = some c) :
    ∃ k, HasKey env supplied a k ∧ ¬ Determined env (Grain.ofConcepts cs) k := by
  cases h with
  | subset hwithin => exact absurd (.component (hwithin a ha)) hnot
  | dependent hkeys =>
    obtain ⟨hne, hall⟩ := hkeys a ha (fun hin => hnot (.component hin)) c hc
    by_contra hnone
    push Not at hnone
    exact hnot (.keyed hc hne fun k hk => hnone k ⟨ha, hall k hk, c, hc, hk⟩)
  | replaced hg hwithin hreplaced =>
    refine absurd (Determined.of_grainOf hg (fun b hb => ?_) (hwithin a ha)) hnot
    obtain ⟨x, d, hd, htarget, hb⟩ := hreplaced b hb
    unfold replaceUnique at hb
    split at hb
    · rename_i hunique
      exact .unique hd hunique (.component htarget) hb
    · rw [List.mem_singleton.1 hb]
      exact .component htarget
  | renamed hg hwithin =>
    refine absurd (Determined.of_grainOf hg (fun b hb => ?_) (hwithin a ha)) hnot
    obtain ⟨d, hd, rfl⟩ := List.mem_map.1 hb
    exact (Determined.component hd).renamed

/-- **What is supplied is determined, where grouping is skipped.** The rows need no grouping exactly if the target fixes
what is supplied but not declared, and what is supplied and is, by way of keys that are supplied as well, a key of
itself. -/
theorem check_determines {downstream : List String} {parents : List RelationSource} {v : Verdict}
    (h : check env downstream parents = .ok v) (hskip : v.required = false) :
    ∃ target, env.grainOf downstream = .ok target ∧
      v.supplied = Grain.unionAll (parents.map (effectiveGrain env)) ∧
      ((∀ a ∈ v.supplied.components, Determined env target a) ↔ ∀ a ∈ v.supplied.components,
        env.find? a = none ∨ Relation.TransGen (HasKey env v.supplied) a a → Determined env target a) := by
  obtain ⟨cs, hcs, hsupplied, hskips⟩ := skips_of_check h hskip
  refine ⟨Grain.ofConcepts cs, by rw [Environment.grainOf, hcs]; rfl, hsupplied, fun hall a ha _ => hall a ha, ?_⟩
  intro hends a ha
  by_contra hnot
  -- from every undetermined component an undetermined key is reached, and there are finitely many
  obtain ⟨b, ⟨hb, hbnot⟩, hcycle⟩ := exists_transGen_self (R := HasKey env v.supplied)
    (P := fun b => b ∈ v.supplied.components ∧ ¬ Determined env (Grain.ofConcepts cs) b) (fun b hb => hb.1)
    ⟨ha, hnot⟩ fun b ⟨hb, hbnot⟩ => by
      cases hfind : env.find? b with
      | none => exact absurd (hends b hb (Or.inl hfind)) hbnot
      | some c =>
        obtain ⟨k, hk, hknot⟩ := hskips.key_of_not_determined hb hbnot hfind
        exact ⟨k, ⟨hk.2.1, hknot⟩, hk⟩
  exact hbnot (hends b hb (Or.inr hcycle))

/-- users, each with an address of their own -/
def accounts : Environment :=
  (Environment.empty.add (.key "user" .integer)).add (.uniqueProperty "email" .string ["user"])

def users : Datasource := .ofColumns "users" [.bind "user" "user", .bind "email" "email"] ["user"]

/-- an address fixes its user: rows of users need no grouping to the grain of their addresses -/
theorem check_determines_email : ∃ v target, check accounts ["local.email"] [.datasource users] = .ok v ∧
    v.required = false ∧ accounts.grainOf ["local.email"] = .ok target ∧ "local.user" ∈ v.supplied.components ∧
    ∀ a ∈ v.supplied.components, Determined accounts target a := by
  have hcheck : check accounts ["local.email"] [.datasource users] =
      .ok ⟨Grain.ofList ["local.email"], Grain.ofList ["local.user"], false⟩ := rfl
  obtain ⟨target, htarget, -, hiff⟩ := check_determines hcheck rfl
  refine ⟨_, target, hcheck, rfl, htarget, List.mem_singleton_self _, hiff.2 fun a ha hends => ?_⟩
  have huser : accounts.find? "local.user" = some (.key "user" .integer) := rfl
  rw [List.mem_singleton.1 ha] at hends
  rcases hends with hnone | hcycle
  · rw [huser] at hnone
    cases hnone
  · -- a key has no keys, so no cycle starts at it
    obtain ⟨k, ⟨-, -, c, hc, hk⟩, -⟩ := Relation.TransGen.head'_iff.1 hcycle
    rw [huser] at hc
    cases hc
    exact absurd hk (SortedSet.not_mem_empty k)

/-! ## Keys of each other -/

/-- two labels of an article that are keys of each other, and a colour -/
def labels : Environment :=
  ((Environment.empty.add (.property "sku" .string ["barcode"])).add (.property "barcode" .string ["sku"])).add
    (.key "color" .string)

/-- one row for each article -/
def articles : Datasource :=
  .ofColumns "articles" [.bind "sku" "sku", .bind "barcode" "barcode", .bind "color" "color"] ["sku", "barcode"]

theorem find?_labels (h : labels.find? a = some c) : a = c.address ∧
    (c = .property "sku" .string ["barcode"] ∨ c = .property "barcode" .string ["sku"] ∨ c = .key "color" .string) := by
  have hmem := SortedMap.get?_eq_some_iff.1 h
  have hlist : labels.concepts.toList = [("local.barcode", .property "barcode" .string ["sku"]),
      ("local.color", .key "color" .string), ("local.sku", .property "sku" .string ["barcode"])] := rfl
  rw [hlist] at hmem
  simp only [List.mem_cons, Prod.mk.injEq, List.not_mem_nil, or_false] at hmem
  rcases hmem with ⟨rfl, rfl⟩ | ⟨rfl, rfl⟩ | ⟨rfl, rfl⟩
  · exact ⟨rfl, Or.inr (Or.inl rfl)⟩
  · exact ⟨rfl, Or.inr (Or.inr rfl)⟩
  · exact ⟨rfl, Or.inl rfl⟩

/-- a colour fixes nothing but itself -/
theorem determined_color (h : Determined labels (Grain.ofList ["local.color"]) a) : a = "local.color" := by
  have hlineage : ∀ a, labels.lineage? a = none := by
    intro a
    unfold Environment.lineage?
    cases hfind : labels.find? a with
    | none => rfl
    | some c =>
      obtain ⟨-, rfl | rfl | rfl⟩ := find?_labels hfind
      · rfl
      · rfl
      · rfl
  induction h with
  | component h => exact List.mem_singleton.1 h
  | keyed hfind hne hkeys ih =>
    obtain ⟨rfl, rfl | rfl | rfl⟩ := find?_labels hfind
    · exact absurd (ih "local.barcode" (List.mem_singleton_self _)) (by decide)
    · exact absurd (ih "local.sku" (List.mem_singleton_self _)) (by decide)
    · rfl
  | unique hfind hunique =>
    obtain ⟨-, rfl | rfl | rfl⟩ := find?_labels hfind <;> cases hunique
  | rowset hr => rw [hlineage] at hr; cases hr
  | filter hf => rw [hlineage] at hf; cases hf
  | filed hfind _ ih =>
    rw [← (find?_labels hfind).1]
    exact ih

/-- rows of articles are taken for rows of colours, because each label has its key among the supplied ones -/
theorem labels_undetermined : ∃ v target, check labels ["local.color"] [.datasource articles] = .ok v ∧
    v.required = false ∧ labels.grainOf ["local.color"] = .ok target ∧ "local.sku" ∈ v.supplied.components ∧
    ¬ Determined labels target "local.sku" := by
  refine ⟨⟨Grain.ofList ["local.color"], Grain.ofList ["local.sku", "local.barcode"], false⟩,
    Grain.ofList ["local.color"], rfl, rfl, rfl, ?_, fun h => absurd (determined_color h) (by decide)⟩
  exact SortedSet.mem_ofList.2 List.mem_cons_self

end Grouping

end SemanticPlanner
