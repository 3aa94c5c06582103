/-
The pseudonyms that declarations leave.

  Joins                     a declaration merges two addresses
  Applies.mem_pseudonyms    a pseudonym is there before or comes with a merge, and goes where its concept is declared
                            again
  build_pseudonyms          the pseudonyms of a concept are what was merged with it since it was declared last
  customers_one_sided       a concept that was declared again does not know what it was merged with

A declaration puts a new concept at its address, without the pseudonyms of the one before it.
-/
import SemanticPlanner.Proofs.Declaring

namespace SemanticPlanner

variable {env env' : Environment} {a b x : String} {c : Concept} {d : Declaration} {ds : List Declaration}

/-- a declaration merges two different addresses -/
def Declaration.Joins (d : Declaration) (a b : String) : Prop :=
  a ≠ b ∧ ∃ s t, d = .merge s t ∧
    (Address.qualify s = a ∧ Address.qualify t = b ∨ Address.qualify s = b ∧ Address.qualify t = a)

theorem Declaration.Joins.symm (h : d.Joins a b) : d.Joins b a := by
  obtain ⟨hne, s, t, hd, h⟩ := h
  exact ⟨hne.symm, s, t, hd, h.symm⟩

namespace Environment

theorem mem_pseudonyms_addPseudonym (ha : env.isDeclared a = true) {y : String} :
    x ∈ (env.addPseudonym a b).pseudonyms y ↔ x ∈ env.pseudonyms y ∨ y = a ∧ x = b := by
  have hfind := find?_addPseudonym env a b y
  cases hc : env.find? y with
  | none =>
    have hy : y ≠ a := by
      rintro rfl
      obtain ⟨c, hfound⟩ := isDeclared_iff.1 ha
      cases hc.symm.trans hfound
    rw [hc] at hfind
    simp [pseudonyms, hc, hfind, hy]
  | some c =>
    rw [hc] at hfind
    rw [mem_pseudonyms hfind, mem_pseudonyms hc]
    split
    · rename_i hy
      show x ∈ c.pseudonyms.insert b ↔ _
      rw [SortedSet.mem_insert, or_comm, and_iff_right hy]
    · rename_i hy
      rw [or_iff_left fun h => hy h.1]

/-- **A pseudonym is there before, or comes with a merge.** It goes where its concept is declared again. -/
theorem Applies.mem_pseudonyms (h : env.Applies d env') :
    b ∈ env'.pseudonyms a ↔ b ∈ env.pseudonyms a ∧ a ∉ d.addresses ∨ d.Joins a b := by
  cases h with
  | @adds _ cs hmerge haddresses hpseud _ =>
    have hjoins : ¬ d.Joins a b := by
      rintro ⟨-, s, t, hd, -⟩
      exact hmerge s t hd
    rw [or_iff_left hjoins, ← haddresses]
    rcases find?_addAll env cs a with ⟨c, hc, rfl, hfind⟩ | ⟨hnot, hfind⟩
    · rw [Environment.mem_pseudonyms hfind, hpseud c hc]
      exact iff_of_false (SortedSet.not_mem_empty _) fun h => h.2 (List.mem_map_of_mem hc)
    · rw [and_iff_left hnot, pseudonyms, pseudonyms, hfind]
  | @alike s t halike _ =>
    have hjoins : ¬ Declaration.Joins (.merge s t) a b := by
      rintro ⟨hne, s', t', hd, h⟩
      cases hd
      exact hne (h.elim (fun h => h.1.symm.trans (halike.trans h.2)) fun h => h.2.symm.trans (halike.symm.trans h.1))
    rw [or_iff_left hjoins, and_iff_left (show a ∉ (Declaration.merge s t).addresses from List.not_mem_nil)]
  | @merges s t hne hs ht =>
    rw [mem_pseudonyms_addPseudonym (by rwa [isDeclared_addPseudonym]), mem_pseudonyms_addPseudonym hs, or_assoc,
      and_iff_left (show a ∉ (Declaration.merge s t).addresses from List.not_mem_nil)]
    refine or_congr_right ⟨?_, ?_⟩
    · rintro (⟨rfl, rfl⟩ | ⟨rfl, rfl⟩)
      · exact ⟨hne, s, t, rfl, Or.inl ⟨rfl, rfl⟩⟩
      · exact ⟨hne.symm, s, t, rfl, Or.inr ⟨rfl, rfl⟩⟩
    · rintro ⟨-, s', t', hd, ⟨rfl, rfl⟩ | ⟨rfl, rfl⟩⟩
      · cases hd
        exact Or.inl ⟨rfl, rfl⟩
      · cases hd
        exact Or.inr ⟨rfl, rfl⟩
  | @files d s =>
    have hjoins : ¬ Declaration.Joins (.datasource d) a b := by
      rintro ⟨-, s, t, hd, -⟩
      cases hd
    rw [or_iff_left hjoins, and_iff_left (show a ∉ (Declaration.datasource d).addresses from List.not_mem_nil)]
    exact Iff.rfl

/-- the pseudonyms after several declarations: those kept, and those that came with a merge and were kept -/
theorem mem_pseudonyms_foldlM (hk : env.Keyed) (h : ds.foldlM Declaration.apply env = .ok env') :
    b ∈ env'.pseudonyms a ↔ b ∈ env.pseudonyms a ∧ (∀ d ∈ ds, a ∉ d.addresses) ∨
      ∃ before d after, ds = before ++ d :: after ∧ d.Joins a b ∧ ∀ e ∈ after, a ∉ e.addresses := by
  induction ds generalizing env with
  | nil =>
    cases h
    simp
  | cons d ds ih =>
    rw [List.foldlM_cons] at h
    obtain ⟨env₁, hd, h⟩ := Resolve.bind_eq_ok h
    rw [ih (hk.apply hd) h, (applies_of_apply hk hd).mem_pseudonyms, List.forall_mem_cons]
    constructor
    · rintro (⟨⟨hb, ha⟩ | hjoins, hds⟩ | ⟨before, e, after, rfl, hjoins, hafter⟩)
      · exact Or.inl ⟨hb, ha, hds⟩
      · exact Or.inr ⟨[], d, ds, rfl, hjoins, hds⟩
      · exact Or.inr ⟨d :: before, e, after, rfl, hjoins, hafter⟩
    · rintro (⟨hb, ha, hds⟩ | ⟨before, e, after, hsplit, hjoins, hafter⟩)
      · exact Or.inl ⟨Or.inl ⟨hb, ha⟩, hds⟩
      · rcases before with _ | ⟨d', before⟩
        · cases hsplit
          exact Or.inl ⟨Or.inr hjoins, hafter⟩
        · cases hsplit
          exact Or.inr ⟨before, e, after, rfl, hjoins, hafter⟩

end Environment

/-- **The pseudonyms of a concept are what was merged with it since it was declared last.** None is its own pseudonym,
and of two concepts one knows the other, unless it was declared again after they were merged. -/
theorem EnvironmentFile.build_pseudonyms (file : EnvironmentFile) (h : file.build = .ok env) :
    (∀ a b, b ∈ env.pseudonyms a ↔ ∃ before d after, file.declarations = before ++ d :: after ∧ d.Joins a b ∧
      ∀ e ∈ after, a ∉ e.addresses) ∧
    (∀ a, a ∉ env.pseudonyms a) ∧
    (∀ a b, b ∈ env.pseudonyms a → a ∈ env.pseudonyms b ∨
      ∃ before d after, file.declarations = before ++ d :: after ∧ d.Joins a b ∧ ∃ e ∈ after, b ∈ e.addresses) := by
  have hmem : ∀ {a b}, b ∈ env.pseudonyms a ↔ ∃ before d after, file.declarations = before ++ d :: after ∧
      d.Joins a b ∧ ∀ e ∈ after, a ∉ e.addresses := by
    intro a b
    rw [Environment.mem_pseudonyms_foldlM Environment.keyed_empty h]
    exact or_iff_right fun h => absurd h.1 List.not_mem_nil
  refine ⟨fun a b => hmem, fun a ha => ?_, fun a b hb => ?_⟩
  · obtain ⟨before, d, after, -, hjoins, -⟩ := hmem.1 ha
    exact hjoins.1 rfl
  · obtain ⟨before, d, after, hds, hjoins, -⟩ := hmem.1 hb
    by_cases hagain : ∃ e ∈ after, b ∈ e.addresses
    · exact Or.inr ⟨before, d, after, hds, hjoins, hagain⟩
    · exact Or.inl (hmem.2 ⟨before, d, after, hds, hjoins.symm, fun e he hb => hagain ⟨e, he, hb⟩⟩)

/-- customers, also called clients, declared once more after that was said -/
def customers : EnvironmentFile :=
  ⟨[.key "customer" .integer, .key "client" .integer, .merge "customer" "client", .key "customer" .integer], none⟩

theorem build_pseudonyms_customers : ∃ env, customers.build = .ok env ∧
    "local.customer" ∈ env.pseudonyms "local.client" ∧ ∀ a, a ∉ env.pseudonyms a := by
  obtain ⟨env, hbuild, -⟩ := map_eq_ok (show customers.build.map (fun _ => ()) = .ok () from rfl)
  obtain ⟨hmem, hself, -⟩ := EnvironmentFile.build_pseudonyms customers hbuild
  refine ⟨env, hbuild, (hmem _ _).2 ⟨[.key "customer" .integer, .key "client" .integer], .merge "customer" "client",
    [.key "customer" .integer], rfl, ⟨by decide, "customer", "client", rfl, Or.inr ⟨rfl, rfl⟩⟩, ?_⟩, hself⟩
  exact List.forall_mem_singleton.2 (by decide)

/-- the client still knows the customer, but not the other way around -/
theorem customers_one_sided : ∃ env, customers.build = .ok env ∧
    env.pseudonyms "local.client" = ["local.customer"] ∧ env.pseudonyms "local.customer" = [] := by
  obtain ⟨env, hbuild, hpseud⟩ := map_eq_ok
    (show customers.build.map (fun env => (env.pseudonyms "local.client", env.pseudonyms "local.customer")) =
      .ok (["local.customer"], []) from rfl)
  exact ⟨env, hbuild, Prod.mk.inj hpseud⟩

end SemanticPlanner
