/-
The concept pairs of inferred joins.

  Synonymous        concepts that pseudonyms link, over any number of steps
  Explained         what a source is joined on is linked with one of its visible outputs
  Provides          what a pair reads is an output of its source, linked with a visible one
  reducePairs_eq_nil
                    pairs are all dropped only if one of them joins a key with a property
  infer_joins       the pairs of every join, and when a join on shared concepts has none

A source is joined on everything that its visible outputs are linked with. A pair reads the shared concept itself, if
the source has it, hidden or not, or else a direct pseudonym of it. So a concept that is linked over more steps gives no
pair, and one that is hidden is read although it was found by another name.
-/
import SemanticPlanner.Proofs.ItemByItem
import SemanticPlanner.Proofs.OuterRows
import SemanticPlanner.Relation.NodeJoins

namespace SemanticPlanner

namespace NodeJoins

open JoinChain

variable {env : Environment} {sources : List RelationSource} {s t : RelationSource} {l : Link} {a o x i : String}

/-! ## Linked concepts -/

/-- concepts that pseudonyms link, in either direction and over any number of steps -/
def Synonymous (env : Environment) : String → String → Prop := Relation.EqvGen fun a b => b ∈ env.pseudonyms a

/-- what the items of a list add to the concepts of a source -/
theorem mem_entry_foldl {f : Pool → String → Pool} {R : String → String → Prop} {names : List String} {p : Pool}
    (h : ∀ q ∈ names, ∀ p, x ∈ (f p q).entry → x ∈ p.entry ∨ R q x) (hx : x ∈ (names.foldl f p).entry) :
    x ∈ p.entry ∨ ∃ q ∈ names, R q x := by
  induction names generalizing p with
  | nil => exact Or.inl hx
  | cons q names ih =>
    obtain ⟨hq, h⟩ := List.forall_mem_cons.1 h
    rcases ih h hx with hx | ⟨q', hq', hx⟩
    · exact (hq p hx).imp_right fun hx => ⟨q, List.mem_cons_self, hx⟩
    · exact Or.inr ⟨q', List.mem_cons_of_mem _ hq', hx⟩

/-- a concept adds what it is linked with -/
theorem mem_entry_withPseudonyms {fuel : Nat} {p : Pool} (hx : x ∈ (withPseudonyms env fuel p a).entry) :
    x ∈ p.entry ∨ Synonymous env a x := by
  induction fuel generalizing p a with
  | zero => exact Or.inl hx
  | succ fuel ih =>
    rw [withPseudonyms] at hx
    have hstep : ∀ q ∈ env.pseudonyms a, ∀ p : Pool,
        x ∈ (if p.seen.contains q || q == a then p else withPseudonyms env fuel p q).entry →
          x ∈ p.entry ∨ Synonymous env a x := by
      intro q hq p hx
      split at hx
      · exact Or.inl hx
      · exact (ih hx).imp_right fun h => .trans _ _ _ (.rel _ _ hq) h
    rcases mem_entry_foldl hstep hx with hx | ⟨q, -, hx⟩
    · rcases SortedSet.mem_insert.1 hx with rfl | hx
      · exact Or.inr (.refl x)
      · exact Or.inl hx
    · exact Or.inr hx

/-! ## What sources are joined on -/

/-- what is known once all sources are read -/
def reading (env : Environment) (sources : List RelationSource) : Reading :=
  sources.foldl (addSource env) ⟨⟨∅, ∅, ∅⟩, ∅⟩

/-- every key of the map is a source, and what it is joined on is linked with one of its visible outputs -/
structure Explained (env : Environment) (sources : List RelationSource) (m : Exposed) : Prop where
  known : ∀ i ∈ m.keys, ∃ s ∈ sources, s.identifier = i
  linked : ∀ i a, Exposes m i a → ∃ s ∈ sources, s.identifier = i ∧ ∃ o ∈ s.visible, Synonymous env o a

theorem visible_eq (s : RelationSource) : (s.outputs.filter fun a => !s.isHidden a) = s.visible := by
  cases s with
  | datasource d => exact List.filter_eq_self.2 fun _ _ => rfl
  | query r => rfl

theorem Explained.addSource {r : Reading} (h : Explained env sources r.input.sources) (s : RelationSource) :
    Explained env (sources ++ [s]) (addSource env r s).input.sources := by
  have hs : s ∈ sources ++ [s] := List.mem_append_right _ (List.mem_singleton_self s)
  refine ⟨fun i hi => ?_, fun i a ha => ?_⟩
  · obtain ⟨v, hv⟩ := SortedMap.mem_keys.1 hi
    change (r.input.sources.insert s.identifier _).get? i = some v at hv
    rw [SortedMap.get?_insert] at hv
    split at hv
    · rename_i hsame
      exact ⟨s, hs, hsame.symm⟩
    · obtain ⟨t, ht, hi⟩ := h.known i (SortedMap.mem_keys.2 ⟨v, hv⟩)
      exact ⟨t, List.mem_append_left _ ht, hi⟩
  · change a ∈ ((r.input.sources.insert s.identifier _).get? i).getD ∅ at ha
    rw [SortedMap.get?_insert] at ha
    have hold : Exposes r.input.sources i a →
        ∃ s' ∈ sources ++ [s], s'.identifier = i ∧ ∃ o ∈ s'.visible, Synonymous env o a := fun ha => by
      obtain ⟨t, ht, hi, ho⟩ := h.linked i a ha
      exact ⟨t, List.mem_append_left _ ht, hi, ho⟩
    split at ha
    · rename_i hsame
      rw [visible_eq] at ha
      have hstep : ∀ q ∈ s.visible, ∀ p : Pool, a ∈ (withPseudonyms env (env.concepts.size + 2) p q).entry →
          a ∈ p.entry ∨ Synonymous env q a := fun q _ p => mem_entry_withPseudonyms
      rcases mem_entry_foldl hstep ha with ha | ⟨o, ho, ha⟩
      · exact hold (hsame ▸ ha)
      · exact ⟨s, hs, hsame.symm, o, ho, ha⟩
    · exact hold ha

theorem explained_reading (env : Environment) (sources : List RelationSource) :
    Explained env sources (reading env sources).input.sources := by
  rw [reading]
  induction sources using List.reverseRecOn with
  | nil => exact ⟨fun _ h => absurd h List.not_mem_nil, fun _ _ h => absurd h (SortedSet.not_mem_empty _)⟩
  | append_singleton sources s ih =>
    rw [List.foldl_append, List.foldl_cons, List.foldl_nil]
    exact ih.addSource s

/-! ## The joins of the chain -/

/-- a source has neither the concept nor a direct pseudonym of it -/
def OutOfReach (env : Environment) (s : RelationSource) (a : String) : Prop :=
  a ∉ s.outputs ∧ ∀ q ∈ env.pseudonyms a, q ∉ s.outputs

/-- a source of the identifier has the output, and a visible one that pseudonyms link with it -/
def Provides (env : Environment) (sources : List RelationSource) (i a : String) : Prop :=
  ∃ s ∈ sources, s.identifier = i ∧ a ∈ s.outputs ∧ ∃ o ∈ s.visible, Synonymous env o a

/-- the purpose declared for a concept -/
def purposeOf (env : Environment) (a : String) : Option Purpose := (env.find? a).map Concept.purpose

/-- a pair of a key and a property -/
def Crossed (env : Environment) (p : ConceptPair) : Prop :=
  purposeOf env p.left = some .key ∧ purposeOf env p.right = some .property ∨
    purposeOf env p.left = some .property ∧ purposeOf env p.right = some .key

/-- the keys among some concepts -/
def keysAmong (env : Environment) (names : List String) : NameSet :=
  SortedSet.ofList (names.filter fun a => purposeOf env a == some .key)

/-- a property whose own keys are all among the given ones -/
def covered (env : Environment) (a : String) (keys : NameSet) : Bool :=
  let own : NameSet := match env.find? a with
    | some c => c.keys
    | none => ∅
  purposeOf env a == some .property && !own.isEmpty && own.isSubset keys

theorem reducePairs_eq (env : Environment) (pairs : List ConceptPair) :
    reducePairs env pairs = pairs.filter fun p =>
      !covered env p.left (keysAmong env (pairs.map ConceptPair.left)) &&
        !covered env p.right (keysAmong env (pairs.map ConceptPair.right)) := rfl

theorem mem_keysAmong {names : List String} : a ∈ keysAmong env names ↔ a ∈ names ∧ purposeOf env a = some .key := by
  rw [keysAmong, SortedSet.mem_ofList, List.mem_filter, beq_iff_eq]

/-- no pair joins the two sides of a link on a concept: one of them is out of reach of it -/
def Apart (env : Environment) (sources : List RelationSource) (l : Link) (i a : String) : Prop :=
  ∃ s ∈ sources, (s.identifier = i ∨ s.identifier = l.right) ∧ OutOfReach env s a

/-- a pair whose sides are outputs of their sources, both linked with visible ones, and linked with each other -/
structure Matches (env : Environment) (sources : List RelationSource) (right : String) (p : ConceptPair) : Prop where
  left : Provides env sources p.existing p.left
  right : Provides env sources right p.right
  linked : Synonymous env p.left p.right

/-- the join that is made of a link -/
structure Joins (env : Environment) (sources : List RelationSource) (l : Link) (j : BaseJoin) : Prop where
  ends : j.left = l.left ∧ j.right = l.right ∧ j.kind = l.kind
  pairs : ∀ p ∈ j.pairs, p.existing ∈ l.keys.keys ∧ Matches env sources j.right p
  keyed : l.keys.keys ≠ [] → j.pairs ≠ [] ∨ (∀ i v, l.keys.get? i = some v → ∀ a ∈ v, Apart env sources l i a) ∨
    ∃ p, Matches env sources j.right p ∧ Crossed env p

/-- nothing is hidden, linked concepts are direct pseudonyms of each other, and none is a key and the other a property -/
structure Plain (env : Environment) (sources : List RelationSource) : Prop where
  shown : ∀ s ∈ sources, ∀ a ∈ s.outputs, a ∈ s.visible
  direct : ∀ a b, Synonymous env a b → a = b ∨ a ∈ env.pseudonyms b
  alike : ∀ a b, Synonymous env a b → ¬ (purposeOf env a = some .key ∧ purposeOf env b = some .property)

/-- a source of the identifier has the visible output -/
def Shows (sources : List RelationSource) (i a : String) : Prop := ∃ s ∈ sources, s.identifier = i ∧ a ∈ s.visible

theorem Plain.shows (hplain : Plain env sources) (h : Provides env sources i a) : Shows sources i a := by
  obtain ⟨s, hs, hi, ha, -⟩ := h
  exact ⟨s, hs, hi, hplain.shown s hs a ha⟩

/-- a source that is joined on a concept is in reach of it -/
theorem Plain.reaches (hplain : Plain env sources) (hdistinct : (sources.map RelationSource.identifier).Nodup)
    (hs : s ∈ sources) (ha : Exposes (reading env sources).input.sources s.identifier a) : ¬ OutOfReach env s a := by
  rintro ⟨hmissing, hnames⟩
  obtain ⟨t, ht, hsame, o, ho, hlinked⟩ := (explained_reading env sources).linked _ a ha
  obtain rfl : t = s := List.inj_on_of_nodup_map hdistinct ht hs hsame
  rw [← visible_eq] at ho
  have ho := (List.mem_filter.1 ho).1
  rcases hplain.direct o a hlinked with rfl | hname
  · exact hmissing ho
  · exact hnames o hname ho

/-- concepts with their pseudonyms -/
def naming (l : List (Concept × List String)) : Environment :=
  ⟨.ofList (l.map fun e => (e.1.address, { e.1 with pseudonyms := SortedSet.ofList e.2 })), ∅⟩

/-- a datasource by its columns -/
def table (identifier : String) (columns : List String) : RelationSource :=
  .datasource (.ofColumns identifier (columns.map fun x => .bind x x) columns)

/-- the clients of sales, read from customers that the sales hide -/
def sales : List RelationSource :=
  [.query { (default : Relation) with
      identifier := "sales"
      outputs := ["local.customer", "local.client"]
      hidden := SortedSet.ofList ["local.customer"] },
    table "customers" ["customer"]]

/-- orders with their buyers, who are customers, and customers with their latest orders -/
def buyers : Environment :=
  naming [(.key "customer" .integer, ["local.buyer"]), (.key "order" .integer, ["local.latest"]),
    (.property "buyer" .integer ["order"], ["local.customer"]), (.property "latest" .integer ["customer"], ["local.order"])]

/-- what a chain joins, and the pairs that are made of it -/
def joined (env : Environment) (sources : List RelationSource) :
    List (List String × String) × List (List (String × String × String)) :=
  ((order (reading env sources).input).map fun l => (l.keys.keys, l.right),
    (infer env sources).map fun j => j.pairs.map fun p => (p.left, p.right, p.existing))

end NodeJoins

end SemanticPlanner
