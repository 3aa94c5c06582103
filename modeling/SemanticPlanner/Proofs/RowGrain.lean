/-
The grain of a row that carries some concepts.

  Covered                why a concept adds nothing to the grain
  mem_ofConcepts_iff     the components are the addresses of the listed concepts that are not covered
  Fixes                  the addresses whose values are fixed by the grain, by single rows and by constants
  HangsOn                a dependent concept hangs on its keys, and a metric on its own grain
  ofConcepts_determines  without a cycle of these, every listed concept is fixed
  ofConcepts_settles     the order of a list does not matter, a larger list has no further components among the concepts of
                         a smaller one, and the grain of the components is the grain itself

Whether a concept is covered is asked of all that is listed and not of the components, so one covered concept may be the
reason for which another one is. Listing less never covers a concept that was not covered before (`Covered.mono`).
-/
import SemanticPlanner.Proofs.Following
import SemanticPlanner.Proofs.Reach

namespace SemanticPlanner

variable {env : Environment} {c : Concept} {cs ds : List Concept} {present more : NameSet} {a : String}

/-! ## Looking up what is declared -/

/-- where every address is declared, the concepts at a list of addresses are found -/
theorem Environment.exists_conceptsFor {addresses : List String} (h : ∀ a ∈ addresses, ∃ c, env.find? a = some c) :
    ∃ cs, env.conceptsFor addresses = .ok cs ∧ ∀ c, c ∈ cs ↔ ∃ a ∈ addresses, env.find? a = some c := by
  cases hcs : env.conceptsFor addresses with
  | error e =>
    obtain ⟨a, ha, herror⟩ := mapM_eq_error hcs
    obtain ⟨c, hc⟩ := h a (mem_distinct.1 ha)
    rw [concept_of_find? hc] at herror
    cases herror
  | ok cs =>
    refine ⟨cs, rfl, fun c => ⟨mem_conceptsFor hcs, ?_⟩⟩
    rintro ⟨a, ha, hc⟩
    obtain ⟨d, hd, hfound⟩ := exists_of_forall₂ (forall₂_mapM_ok hcs) (mem_distinct.2 ha)
    rw [concept_of_find? hc] at hfound
    cases hfound
    exact hd

/-! ## What adds nothing to a grain -/

/-- a property, unique or not, or a metric -/
def Concept.IsDependent (c : Concept) : Prop :=
  c.purpose = .property ∨ c.purpose = .uniqueProperty ∨ c.purpose = .metric

/-- why a concept adds nothing to the grain of a row that carries the addresses `present` -/
inductive Covered (present : NameSet) (c : Concept) : Prop
  | single : c.granularity = .singleRow → Covered present c
  | constant : c.purpose = .constant → Covered present c
  | keyed : c.IsDependent → c.keys.isEmpty = false → (∀ k ∈ c.keys, k ∈ present) → Covered present c
  | grained : c.purpose = .metric → (∀ a ∈ c.grain.components, a ∈ present ∧ a ≠ c.address) → Covered present c

/-- what covers a concept covers it on a row that carries more -/
theorem Covered.mono (h : Covered present c) (hmore : ∀ a ∈ present, a ∈ more) : Covered more c := by
  cases h with
  | single h => exact .single h
  | constant h => exact .constant h
  | keyed hdependent hkeys h => exact .keyed hdependent hkeys fun k hk => hmore k (h k hk)
  | grained hmetric h => exact .grained hmetric fun a ha => ⟨hmore a (h a ha).1, (h a ha).2⟩

/-- the keys of a concept are on the row, and there are some -/
theorem keysPresent_iff : (!c.keys.isEmpty && c.keys.isSubset present) = true ↔
    c.keys.isEmpty = false ∧ ∀ k ∈ c.keys, k ∈ present := by
  rw [Bool.and_eq_true, Bool.not_eq_true', SortedSet.isSubset_iff]

theorem grainPresent_iff : (c.grain.components.toList.all fun a => present.contains a && a != c.address) = true ↔
    ∀ a ∈ c.grain.components, a ∈ present ∧ a ≠ c.address := by
  simp only [List.all_eq_true, Bool.and_eq_true, SortedSet.contains_iff, bne_iff_ne, SortedSet.mem_def]

theorem covered_iff : Covered present c ↔ c.granularity = .singleRow ∨ c.purpose = .constant ∨
    (c.IsDependent ∧ (!c.keys.isEmpty && c.keys.isSubset present) = true) ∨
    (c.purpose = .metric ∧ (c.grain.components.toList.all fun a => present.contains a && a != c.address) = true) := by
  rw [keysPresent_iff, grainPresent_iff]
  constructor
  · rintro (h | h | ⟨hdependent, hkeys, h⟩ | ⟨hmetric, h⟩)
    · exact Or.inl h
    · exact Or.inr (Or.inl h)
    · exact Or.inr (Or.inr (Or.inl ⟨hdependent, hkeys, h⟩))
    · exact Or.inr (Or.inr (Or.inr ⟨hmetric, h⟩))
  · rintro (h | h | ⟨hdependent, hkeys, h⟩ | ⟨hmetric, h⟩)
    · exact .single h
    · exact .constant h
    · exact .keyed hdependent hkeys h
    · exact .grained hmetric h

/-- **a concept is a component of the grain of a row unless it is covered** -/
theorem isComponent_iff : c.isComponent present = true ↔ ¬ Covered present c := by
  rw [covered_iff, Concept.isComponent]
  generalize (!c.keys.isEmpty && c.keys.isSubset present) = keysPresent
  generalize (c.grain.components.toList.all fun a => present.contains a && a != c.address) = grainPresent
  by_cases hsingle : c.granularity = .singleRow
  · simp [hsingle]
  · cases hpurpose : c.purpose <;> simp [hsingle, hpurpose, Concept.IsDependent]

namespace Grain

/-- the addresses of a list -/
def carried (cs : List Concept) : NameSet := SortedSet.ofList (Concept.addresses cs)

theorem mem_carried : a ∈ carried cs ↔ ∃ c ∈ cs, c.address = a := SortedSet.mem_ofList.trans List.mem_map

/-- **the components of the grain of a row** are the addresses of the listed concepts that are not covered -/
theorem mem_ofConcepts_iff : a ∈ (ofConcepts cs).components ↔
    ∃ c ∈ cs, ¬ Covered (carried cs) c ∧ c.address = a := by
  refine SortedSet.mem_ofList.trans (List.mem_map.trans ?_)
  simp only [List.mem_filter, isComponent_iff, and_assoc]
  rfl

/-- a grain derived from concepts has no condition, so its components are all of it -/
theorem ofConcepts_ext (h : ∀ a, a ∈ (ofConcepts cs).components ↔ a ∈ (ofConcepts ds).components) :
    ofConcepts cs = ofConcepts ds :=
  congrArg (Grain.mk · none) (SortedSet.ext h)

/-! ## What a grain fixes -/

/-- The least collection of addresses with the components of the grain of a row, its single-row and constant concepts,
every listed concept that has keys and all of them, and every listed metric with all the components of its grain. -/
inductive Fixes (cs : List Concept) : String → Prop
  | component {a : String} : a ∈ (ofConcepts cs).components → Fixes cs a
  | single {c : Concept} : c ∈ cs → c.granularity = .singleRow → Fixes cs c.address
  | constant {c : Concept} : c ∈ cs → c.purpose = .constant → Fixes cs c.address
  | keyed {c : Concept} : c ∈ cs → c.keys.isEmpty = false → (∀ k ∈ c.keys, Fixes cs k) → Fixes cs c.address
  | grained {c : Concept} : c ∈ cs → c.purpose = .metric → (∀ a ∈ c.grain.components, Fixes cs a) → Fixes cs c.address

/-- a listed property or metric hangs on its keys, and a metric on the components of its grain other than itself -/
inductive HangsOn (cs : List Concept) : String → String → Prop
  | key {c : Concept} {k : String} : c ∈ cs → c.IsDependent → k ∈ c.keys → HangsOn cs c.address k
  | grain {c : Concept} {a : String} : c ∈ cs → c.purpose = .metric → a ∈ c.grain.components → a ≠ c.address →
      HangsOn cs c.address a

/-- a listed concept that is not fixed hangs on a listed address that is not fixed either -/
theorem exists_hangsOn (hc : c ∈ cs) (hnot : ¬ Fixes cs c.address) :
    ∃ a, (a ∈ carried cs ∧ ¬ Fixes cs a) ∧ HangsOn cs c.address a := by
  by_contra hnone
  push Not at hnone
  have hcovered : Covered (carried cs) c := by
    by_contra hcovered
    exact hnot (.component (mem_ofConcepts_iff.2 ⟨c, hc, hcovered, rfl⟩))
  have hfixed : ∀ a, HangsOn cs c.address a → a ∈ carried cs → Fixes cs a := by
    intro a hon ha
    by_contra ha'
    exact hnone a ⟨ha, ha'⟩ hon
  cases hcovered with
  | single h => exact hnot (.single hc h)
  | constant h => exact hnot (.constant hc h)
  | keyed hdependent hkeys h => exact hnot (.keyed hc hkeys fun k hk => hfixed k (.key hc hdependent hk) (h k hk))
  | grained hmetric h =>
    exact hnot (.grained hc hmetric fun a ha => hfixed a (.grain hc hmetric ha (h a ha).2) (h a ha).1)

/-- **The grain of a row determines it.** Where no listed concept comes back to itself by way of keys and grains, every
one is fixed by the components of the grain, the single rows and the constants. -/
theorem ofConcepts_determines (hacyclic : ∀ a, ¬ Relation.TransGen (HangsOn cs) a a) (hc : c ∈ cs) :
    Fixes cs c.address := by
  by_contra hnot
  -- from each address that is not fixed there is a way to another one, and only so many are listed
  obtain ⟨b, -, hcycle⟩ := exists_transGen_self (R := HangsOn cs) (P := fun a => a ∈ carried cs ∧ ¬ Fixes cs a)
    (fun a ha => ha.1) ⟨mem_carried.2 ⟨c, hc, rfl⟩, hnot⟩ (by
      rintro a ⟨ha, hnot⟩
      obtain ⟨d, hd, rfl⟩ := mem_carried.1 ha
      exact exists_hangsOn hd hnot)
  exact hacyclic b hcycle

/-- an order and its customer, the revenue by customer and a rate -/
def sales : List Concept :=
  [.key "order" .integer, .property "customer" .integer ["order"],
    .derived "revenue" .float .metric (.aggregate ⟨.sum, [.concept "local.amount"], ["local.customer"]⟩)
      (Grain.ofList ["local.customer"]) .multiRow,
    .constant "rate" .integer (.integer 2)]

/-- how far something hangs below an order -/
def below (address : String) : Nat := if address = "local.revenue" then 2 else if address = "local.customer" then 1 else 0

theorem acyclic_sales : ∀ a, ¬ Relation.TransGen (HangsOn sales) a a := by
  have hkeys : ∀ c ∈ sales, ∀ k ∈ c.keys.toList, below k < below c.address := by decide
  have hgrains : ∀ c ∈ sales, c.purpose = .metric → ∀ a ∈ c.grain.components.toList, a ≠ c.address →
      below a < below c.address := by decide
  refine not_transGen_self below fun a b hon => ?_
  cases hon with
  | key hc _ hk => exact hkeys _ hc _ hk
  | grain hc hmetric ha hne => exact hgrains _ hc hmetric _ ha hne

/-- the order alone is the grain; the revenue is fixed by the customer, which is fixed by the order -/
theorem ofConcepts_determines_sales : (∀ a, ¬ Relation.TransGen (HangsOn sales) a a) ∧
    (ofConcepts sales).components.toList = ["local.order"] ∧ ∀ c ∈ sales, Fixes sales c.address :=
  ⟨acyclic_sales, by decide, fun _ hc => ofConcepts_determines acyclic_sales hc⟩

/-! ## Laws of the grain of a row -/

/-- listing concepts in another order, or again, does not change the grain -/
theorem ofConcepts_congr (h : ∀ c, c ∈ cs ↔ c ∈ ds) : ofConcepts cs = ofConcepts ds := by
  have hcarried : carried cs = carried ds := by
    refine SortedSet.ext fun a => ?_
    simp only [mem_carried, h]
  refine ofConcepts_ext fun a => ?_
  simp only [mem_ofConcepts_iff, hcarried, h]

/-- a concept that is a component of the grain of a longer list is one of the grain of a shorter list that has it -/
theorem mem_ofConcepts_of_subset (hds : ∀ c ∈ ds, env.find? c.address = some c) (hsub : ∀ c ∈ cs, c ∈ ds) (hc : c ∈ cs)
    (h : c.address ∈ (ofConcepts ds).components) : c.address ∈ (ofConcepts cs).components := by
  obtain ⟨d, hd, hnot, haddress⟩ := mem_ofConcepts_iff.1 h
  -- concepts of one environment at one address are the same
  have hsame : d = c := by
    have hfind := hds d hd
    rw [haddress, hds c (hsub c hc)] at hfind
    exact (Option.some.inj hfind).symm
  subst hsame
  refine mem_ofConcepts_iff.2 ⟨d, hc, fun hcovered => hnot (hcovered.mono fun a ha => ?_), rfl⟩
  obtain ⟨e, he, rfl⟩ := mem_carried.1 ha
  exact mem_carried.2 ⟨e, hsub e he, rfl⟩

/-- the grain of the components is the grain itself -/
theorem grainOf_components (hds : ∀ c ∈ ds, env.find? c.address = some c) :
    env.grainOf (ofConcepts ds).components.toList = .ok (ofConcepts ds) := by
  have hfound : ∀ a ∈ (ofConcepts ds).components.toList, ∃ c, env.find? a = some c := by
    intro a ha
    obtain ⟨c, hc, rfl⟩ := mem_ofConcepts ha
    exact ⟨c, hds c hc⟩
  obtain ⟨cs, hcs, hmem⟩ := env.exists_conceptsFor hfound
  have hlisted : ∀ c, c ∈ cs ↔ c ∈ ds ∧ c.address ∈ (ofConcepts ds).components := by
    intro c
    rw [hmem]
    constructor
    · rintro ⟨a, ha, hc⟩
      obtain ⟨d, hd, rfl⟩ := mem_ofConcepts ha
      rw [hds d hd] at hc
      cases hc
      exact ⟨hd, ha⟩
    · rintro ⟨hc, ha⟩
      exact ⟨c.address, ha, hds c hc⟩
  have hsame : ofConcepts cs = ofConcepts ds := by
    refine ofConcepts_ext fun a => ⟨fun ha => ?_, fun ha => ?_⟩
    · obtain ⟨c, hc, rfl⟩ := mem_ofConcepts ha
      exact ((hlisted c).1 hc).2
    · obtain ⟨c, hc, rfl⟩ := mem_ofConcepts ha
      exact mem_ofConcepts_of_subset hds (fun c hc => ((hlisted c).1 hc).1) ((hlisted c).2 ⟨hc, ha⟩) ha
  rw [Environment.grainOf, hcs]
  exact congrArg Except.ok hsame

/-- **Laws of the grain of a row.** For concepts of one environment, the grain depends on which concepts are listed only;
a component of the grain of a list is a component of the grain of every smaller list that has its concept; and the grain
of the concepts at the components of a grain is that grain again. -/
theorem ofConcepts_settles (hds : ∀ c ∈ ds, env.find? c.address = some c) :
    (∀ cs : List Concept, (∀ c, c ∈ cs ↔ c ∈ ds) → ofConcepts cs = ofConcepts ds) ∧
    (∀ cs : List Concept, (∀ c ∈ cs, c ∈ ds) → ∀ c ∈ cs, c.address ∈ (ofConcepts ds).components →
      c.address ∈ (ofConcepts cs).components) ∧
    env.grainOf (ofConcepts ds).components.toList = .ok (ofConcepts ds) :=
  ⟨fun _ h => ofConcepts_congr h, fun _ hsub _ hc h => mem_ofConcepts_of_subset hds hsub hc h, grainOf_components hds⟩

/-- the environment of the sales -/
def salesOnly : Environment := sales.foldl Environment.add .empty

theorem find?_salesOnly : ∀ c ∈ sales, salesOnly.find? c.address = some c := by
  intro c hc
  simp only [sales, List.mem_cons, List.not_mem_nil, or_false] at hc
  rcases hc with rfl | rfl | rfl | rfl
  · rfl
  · rfl
  · rfl
  · rfl

/-- the grain of the sales in any order and with repeats, of the order alone, and of its own component -/
theorem ofConcepts_settles_sales : (∀ c ∈ sales, salesOnly.find? c.address = some c) ∧
    ofConcepts (sales.reverse ++ sales) = ofConcepts sales ∧
    "local.order" ∈ (ofConcepts [.key "order" .integer]).components ∧
    salesOnly.grainOf ["local.order"] = .ok (ofConcepts sales) := by
  obtain ⟨hcongr, hsub, hagain⟩ := ofConcepts_settles find?_salesOnly
  refine ⟨find?_salesOnly, hcongr _ fun c => by simp, ?_, hagain⟩
  exact hsub [.key "order" .integer] (fun c hc => List.mem_cons.2 (Or.inl (List.mem_singleton.1 hc))) _
    List.mem_cons_self (by decide)

end Grain

end SemanticPlanner
