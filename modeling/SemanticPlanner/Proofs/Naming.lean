/-
Identifiers are made of the relations they name, all the way down.

  identifierOf_source   an identifier is longer than that of any source, or is that of its only source: a select at the
                        abstract grain without a condition
  Within                a relation read by another, directly or through others, or that relation itself
  Composed              only a select reads a datasource, and reads it first
  Merges                a relation put together from relations of one identifier
  Resolves.formed       whatever a node resolves to has the identifier of its kind, sources, grain and condition and is
                        composed, and so is everything it reads

A relation put together from several of one identifier keeps the identifier and the sources of the first, so that its
identifier is still made of its sources.
-/
import SemanticPlanner.Proofs.Memo

namespace SemanticPlanner

/-! ## Lengths of identifiers -/

theorem Text.join_item {sep s : String} {items : List String} (hsep : 0 < sep.length) (hs : s ∈ items) :
    items = [s] ∨ s.length < (Text.join sep items).length := by
  induction items with
  | nil => exact absurd hs List.not_mem_nil
  | cons t rest ih =>
    cases rest with
    | nil => exact Or.inl (by rw [List.mem_singleton.1 hs])
    | cons u l =>
      have hlen : (Text.join sep (t :: u :: l)).length = t.length + sep.length + (Text.join sep (u :: l)).length := by
        simp only [Text.join, String.intercalate_cons_cons, String.length_append]
      right
      rcases List.mem_cons.1 hs with rfl | hs
      · omega
      · rcases ih hs with h | h
        · have : Text.join sep (u :: l) = s := by rw [h, Text.join, String.intercalate_singleton]
          rw [this] at hlen
          omega
        · omega

theorem SourceKind.name_eq_select {k : SourceKind} : k.name = "select" ↔ k = .select := by
  cases k <;> decide

namespace Relation

/-- an identifier is longer than that of each source, or it is that of the only source -/
theorem identifierOf_source (kind : String) {sources : List RelationSource} (grain : Grain)
    (condition : Option Condition) {s : RelationSource} (hs : s ∈ sources) :
    (kind = "select" ∧ sources = [s] ∧ grain.isAbstract = true ∧ condition = none ∧
        identifierOf kind sources grain condition = s.identifier) ∨
      s.identifier.length < (identifierOf kind sources grain condition).length := by
  have hne : sources.isEmpty = false := by
    cases sources with
    | nil => exact absurd hs List.not_mem_nil
    | cons _ _ => rfl
  have hsep : 0 < "_join_".length := by decide
  have hjoin := Text.join_item hsep (List.mem_map_of_mem (f := RelationSource.identifier) hs)
  simp only [identifierOf, hne, Bool.false_eq_true, if_false]
  set joined := Text.join "_join_" (sources.map RelationSource.identifier) with hjoined
  have halone (h : sources.map RelationSource.identifier = [s.identifier]) : joined = s.identifier := by
    rw [hjoined, h, Text.join, String.intercalate_singleton]
  have hle : s.identifier.length ≤ joined.length := by
    rcases hjoin with h | h
    · exact Nat.le_of_eq (congrArg String.length (halone h).symm)
    · exact Nat.le_of_lt h
  by_cases hk : kind = "select"
  · by_cases hg : grain.isAbstract = true
    · cases condition with
      | none =>
        simp only [hk, hg, if_true]
        rcases hjoin with h | h
        · have hone : sources = [s] := by
            obtain ⟨t, ht, hts⟩ := List.map_eq_singleton_iff.1 h
            rw [ht] at hs
            rw [ht, List.mem_singleton.1 hs]
          exact Or.inl ⟨trivial, hone, trivial, trivial, halone h⟩
        · exact Or.inr h
      | some c =>
        right
        simp only [hk, hg, if_true, String.length_append]
        have : "_filtered_".length = 10 := by decide
        omega
    · right
      have : "_at_".length = 4 := by decide
      cases condition with
      | none =>
        simp only [hk, hg, if_true, Bool.false_eq_true, if_false, String.length_append]
        omega
      | some c =>
        simp only [hk, hg, if_true, Bool.false_eq_true, if_false, String.length_append]
        omega
  · right
    have : "_".length = 1 := by decide
    have hkind : s.identifier.length < (kind ++ "_" ++ joined).length := by
      rw [String.length_append, String.length_append]
      omega
    simp only [hk, if_false]
    split <;> split <;> simp only [String.length_append] at hkind ⊢ <;> omega

/-! ## What a relation reads -/

/-- `q` is `r`, or `r` reads it directly or through other relations -/
inductive Within (r : Relation) : Relation → Prop
  | self : Within r r
  | source {q s : Relation} : Within r q → .query s ∈ q.sources → Within r s

theorem Within.trans {r q s : Relation} (h : r.Within q) (h' : q.Within s) : r.Within s := by
  induction h' with
  | self => exact h
  | source _ hs ih => exact ih.source hs

/-- what a relation reads is read by one of its sources, or is one of them -/
theorem Within.cases_source {r q : Relation} (h : r.Within q) :
    q = r ∨ ∃ s, .query s ∈ r.sources ∧ s.Within q := by
  induction h with
  | self => exact Or.inl rfl
  | source _ hs ih =>
    rcases ih with rfl | ⟨t, ht, hq⟩
    · exact Or.inr ⟨_, hs, .self⟩
    · exact Or.inr ⟨t, ht, hq.source hs⟩

/-- the identifier is made of what it names -/
def Named (r : Relation) : Prop := r.identifier = identifierOf r.kind.name r.sources r.grain r.condition

/-- a relation that has the name of a source of its own is nothing but that source again: a select over it alone, at
the abstract grain and without a condition -/
structure IsRepeat (r q : Relation) : Prop where
  kind : r.kind = .select
  sources : r.sources = [.query q]
  grain : r.grain.isAbstract = true
  condition : r.condition = none

theorem Named.source {r q : Relation} (hr : r.Named) (hq : .query q ∈ r.sources) :
    (r.IsRepeat q ∧ r.identifier = q.identifier) ∨ q.identifier.length < r.identifier.length := by
  rw [Named] at hr
  rcases identifierOf_source r.kind.name r.grain r.condition hq with h | h
  · obtain ⟨hk, hs, hg, hc, he⟩ := h
    exact Or.inl ⟨⟨SourceKind.name_eq_select.1 hk, hs, hg, hc⟩, hr.trans he⟩
  · rw [← hr] at h
    exact Or.inr h

/-- a constant reads nothing; a select may read a datasource, before any relations; anything else reads relations -/
inductive Composed (r : Relation) : Prop
  | constant : r.kind = .constant → r.sources = [] → r.grain.isAbstract = true → Composed r
  | selected {d : Datasource} {rest : List RelationSource} : r.kind = .select → r.sources = .datasource d :: rest →
      (∀ s ∈ rest, ∃ q, s = .query q) → Composed r
  | relations : r.kind ≠ .constant → (∀ s ∈ r.sources, ∃ q, s = .query q) → Composed r

/-- named and composed as a relation is that a rule puts together -/
structure Formed (r : Relation) : Prop where
  named : r.Named
  composed : r.Composed

/-- everything a relation reads is named by what it is made of -/
def WellNamed (r : Relation) : Prop := ∀ q, r.Within q → q.Named

/-- a relation below another has a shorter identifier, unless the other repeats a source of its own -/
theorem WellNamed.length_le {r q : Relation} (hr : r.WellNamed) (h : r.Within q) :
    q.identifier.length ≤ r.identifier.length := by
  induction h with
  | self => exact Nat.le_refl _
  | source hq hs ih =>
    rcases (hr _ hq).source hs with ⟨-, he⟩ | hlt
    · rw [← he]
      exact ih
    · omega

theorem WellNamed.source {r q : Relation} (hr : r.WellNamed) (hq : .query q ∈ r.sources) : q.WellNamed :=
  fun s hs => hr s ((Within.self.source hq).trans hs)

/-- a relation whose name something below it has repeats a source of its own -/
theorem WellNamed.isRepeat {r s q : Relation} (hr : r.WellNamed) (hs : .query s ∈ r.sources) (hq : s.Within q)
    (he : q.identifier = r.identifier) : r.IsRepeat s := by
  rcases (hr r .self).source hs with ⟨h, -⟩ | hlt
  · exact h
  · have := (hr.source hs).length_le hq
    rw [he] at this
    omega

end Relation

/-! ## What merging puts together -/

namespace Resolve

/-- a relation of the list, or several of them of one identifier put together -/
inductive Merges (rs : List Relation) : Relation → Prop
  | one {r : Relation} : r ∈ rs → Merges rs r
  | more {a b : Relation} : Merges rs a → b ∈ rs → a.identifier = b.identifier → Merges rs (a.mergedWith b)

theorem mem_addParent {merged : List RelationSource} {s t : RelationSource} (h : t ∈ addParent merged s) :
    t ∈ merged ∨ t = s ∨
      ∃ a b, .query a ∈ merged ∧ s = .query b ∧ a.identifier = b.identifier ∧ t = .query (a.mergedWith b) := by
  induction merged with
  | nil => exact Or.inr (Or.inl (List.mem_singleton.1 h))
  | cons m rest ih =>
    simp only [addParent] at h
    split at h
    · rename_i he
      split at h
      · rename_i a b
        rcases List.mem_cons.1 h with rfl | h
        · exact Or.inr (Or.inr ⟨a, b, List.mem_cons_self, rfl, he, rfl⟩)
        · exact Or.inl (List.mem_cons_of_mem _ h)
      · exact Or.inl h
    · rcases List.mem_cons.1 h with rfl | h
      · exact Or.inl List.mem_cons_self
      · rcases ih h with h | h | ⟨a, b, ha, hb, he, rfl⟩
        · exact Or.inl (List.mem_cons_of_mem _ h)
        · exact Or.inr (Or.inl h)
        · exact Or.inr (Or.inr ⟨a, b, List.mem_cons_of_mem _ ha, hb, he, rfl⟩)

theorem mem_foldl_addParent {rs : List Relation} {l : List Relation} {merged : List RelationSource}
    (hm : ∀ t ∈ merged, ∃ q, t = .query q ∧ Merges rs q) (hl : ∀ r ∈ l, r ∈ rs) {t : RelationSource}
    (h : t ∈ (l.map RelationSource.query).foldl addParent merged) : ∃ q, t = .query q ∧ Merges rs q := by
  induction l generalizing merged with
  | nil => exact hm t h
  | cons r l ih =>
    rw [List.map_cons, List.foldl_cons] at h
    refine ih ?_ (fun s hs => hl s (List.mem_cons_of_mem _ hs)) h
    intro t ht
    rcases mem_addParent ht with ht | rfl | ⟨a, b, ha, hb, he, rfl⟩
    · exact hm t ht
    · exact ⟨r, rfl, .one (hl r List.mem_cons_self)⟩
    · obtain ⟨q, hq, hmq⟩ := hm _ ha
      cases hq
      cases hb
      exact ⟨_, rfl, .more hmq (hl r List.mem_cons_self) he⟩

theorem mem_dropCovered {n : Nat} {sources : List RelationSource} {t : RelationSource}
    (h : t ∈ dropCovered n sources) : t ∈ sources := by
  induction n generalizing sources with
  | zero => exact h
  | succ n ih =>
    simp only [dropCovered] at h
    split at h
    · exact List.mem_of_mem_eraseIdx (ih h)
    · exact h

/-- a merged source is a parent's relation, or several of one identifier put together -/
theorem mem_mergedSources {rs : List Relation} {t : RelationSource} (h : t ∈ mergedSources rs) :
    ∃ q, t = .query q ∧ Merges rs q :=
  mem_foldl_addParent (fun _ ht => absurd ht List.not_mem_nil) (fun _ hr => hr) (mem_dropCovered h)

end Resolve

namespace Relation

/-! ## What resolves is well named -/

/-- a relation and all that it reads are formed if it is formed and all that its sources read is -/
theorem Formed.of_sources {r : Relation} (hr : r.Formed) (h : ∀ q, .query q ∈ r.sources → ∀ p, q.Within p → p.Formed) :
    ∀ p, r.Within p → p.Formed := by
  intro p hp
  rcases hp.cases_source with rfl | ⟨s, hs, hsp⟩
  · exact hr
  · exact h s hs p hsp

theorem Formed.mergedWith {a : Relation} (b : Relation) (h : a.Formed) : (a.mergedWith b).Formed := by
  refine ⟨h.named, ?_⟩
  cases h.composed with
  | constant kind sources grain => exact .constant kind sources grain
  | selected kind sources rest => exact .selected kind sources rest
  | relations kind sources => exact .relations kind sources

theorem Formed.merges {rs : List Relation} {q : Relation} (h : Resolve.Merges rs q)
    (hrs : ∀ r ∈ rs, ∀ p, r.Within p → p.Formed) : ∀ p, q.Within p → p.Formed := by
  induction h with
  | one hr => exact hrs _ hr
  | @more a b _ _ _ ih =>
    refine .of_sources ((ih a .self).mergedWith b) fun s hs p hp => ih p ?_
    exact (Within.source .self hs : a.Within s).trans hp

theorem Formed.ruled {env : Environment} {n : PlanNode} {rs : List Relation} {r : Relation}
    (h : Resolve.Ruled env n rs r) (hrs : ∀ r ∈ rs, ∀ p, r.Within p → p.Formed) : ∀ p, r.Within p → p.Formed := by
  have hqueries : ∀ s ∈ rs.map RelationSource.query, ∃ q, s = .query q := by
    intro s hs
    obtain ⟨q, -, rfl⟩ := List.mem_map.1 hs
    exact ⟨q, rfl⟩
  have hparents : ∀ q, .query q ∈ rs.map RelationSource.query → ∀ p, q.Within p → p.Formed := by
    intro q hq
    obtain ⟨s, hs, he⟩ := List.mem_map.1 hq
    cases he
    exact hrs _ hs
  have hmerged : ∀ q, .query q ∈ Resolve.mergedSources rs → ∀ p, q.Within p → p.Formed := by
    intro q hq
    obtain ⟨s, he, hs⟩ := Resolve.mem_mergedSources hq
    cases he
    exact .merges hs hrs
  have hgrouped : ∀ (c : NodeCore) v, (Resolve.grouped c (rs.map RelationSource.query) v).kind ≠ .constant := by
    intro c v
    show (if _ then SourceKind.select else SourceKind.group) ≠ _
    split
    · exact fun h => SourceKind.noConfusion h
    · exact fun h => SourceKind.noConfusion h
  cases h with
  | constant => exact .of_sources ⟨rfl, .constant rfl rfl rfl⟩ fun q hq => absurd hq List.not_mem_nil
  | selected =>
    refine .of_sources ⟨rfl, .selected rfl rfl hqueries⟩ fun q hq => hparents q ?_
    rcases List.mem_cons.1 hq with hq | hq
    · cases hq
    · exact hq
  | based hkind =>
    refine .of_sources ⟨rfl, .relations ?_ hqueries⟩ hparents
    rintro rfl
    simp at hkind
  | grouped => exact .of_sources ⟨rfl, .relations (hgrouped _ _) hqueries⟩ hparents
  | filtered =>
    refine .of_sources ⟨rfl, .relations (fun h => SourceKind.noConfusion h) ?_⟩ fun q hq => ?_
    · exact fun s hs => ⟨_, List.mem_singleton.1 hs⟩
    · cases List.mem_singleton.1 hq
      exact .of_sources ⟨rfl, .relations (hgrouped _ _) hqueries⟩ hparents
  | unnested => exact .of_sources ⟨rfl, .relations (fun h => SourceKind.noConfusion h) hqueries⟩ hparents
  | handedBack _ back => exact hmerged r (Resolve.passThrough_eq_some back).2.mem
  | joined =>
    refine .of_sources ⟨rfl, .relations (fun h => SourceKind.noConfusion h) fun s hs => ?_⟩ hmerged
    obtain ⟨q, rfl, -⟩ := Resolve.mem_mergedSources hs
    exact ⟨q, rfl⟩

end Relation

/-- **whatever a node resolves to, and all that it reads, is named by what it is made of, and composed** -/
theorem Arena.Resolves.formed {a : Arena} {id : PlanId} {r : Relation} (h : a.Resolves id r) :
    ∀ q, r.Within q → q.Formed := by
  induction h with
  | @intro id rs r length parents rule ih =>
    refine .ruled rule fun q hq => ?_
    obtain ⟨p, hp⟩ := Arena.mem_zip_of_mem_right (Nat.le_of_eq length) hq
    exact ih _ hp

theorem Arena.Resolves.wellNamed {a : Arena} {id : PlanId} {r : Relation} (h : a.Resolves id r) : r.WellNamed :=
  fun q hq => (h.formed q hq).named

end SemanticPlanner
