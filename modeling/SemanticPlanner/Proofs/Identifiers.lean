/-
What an identifier tells of the relation that it names.

  Spelled          the names are plain, the grain is written, and a select reads a datasource
  Legible          so it is with everything that a relation reads
  Alike            the same kind, names of sources, written grain and digest of the condition
  read             a legible relation is read from its identifier in one way, whatever is written behind it
  identifier_make  legible relations of a plan have one identifier exactly if they are alike

An identifier is read from the left. A relation begins with its kind, or for a select with the name of a datasource, and
ends with its grain. A select over other relations has nothing that it begins with, and an abstract grain is not
written; of any other grain only the last names are.
-/
import SemanticPlanner.Proofs.Columns

namespace SemanticPlanner

/-! ## Words -/

namespace Text

/-- the pieces of a text between underscores -/
def words (s : String) : List String := splitAt '_' s

variable {a b s : String}

theorem words_inj (h : words a = words b) : a = b := by
  have hpieces : ∀ t : String, (words t).map String.toList = splitChar '_' t.toList := by
    intro t
    simp [words, splitAt, Function.comp_def]
  have hchars : a.toList = b.toList := by
    rw [← flatten_splitChar '_' a.toList, ← hpieces a, h, hpieces b, flatten_splitChar]
  exact String.toList_injective hchars

theorem exists_words (s : String) : ∃ w rest, words s = w :: rest := by
  refine List.exists_cons_of_ne_nil fun h => splitChar_ne_nil '_' s.toList ?_
  exact List.map_eq_nil_iff.1 h

theorem words_of_notMem (h : '_' ∉ s.toList) : words s = [s] := by
  rw [words, splitAt, splitChar_of_notMem h]
  simp

theorem words_append (a b : String) : words (a ++ "_" ++ b) = words a ++ words b := by
  have hchars : (a ++ "_" ++ b).toList = a.toList ++ '_' :: b.toList := by simp
  rw [words, splitAt, hchars, splitChar_append, List.map_append]
  rfl

/-- a word between two texts -/
theorem words_between {w : String} (hw : '_' ∉ w.toList) (a b : String) :
    words (a ++ ("_" ++ w ++ "_") ++ b) = words a ++ w :: words b := by
  have hsplit : a ++ ("_" ++ w ++ "_") ++ b = a ++ "_" ++ w ++ "_" ++ b := by simp only [String.append_assoc]
  rw [hsplit, words_append, words_append, words_of_notMem hw, List.append_assoc, List.singleton_append]

theorem words_join (s : String) (items : List String) :
    words (join "_join_" (s :: items)) = words s ++ items.flatMap fun t => "join" :: words t := by
  induction items generalizing s with
  | nil => simp [join]
  | cons t items ih =>
    have hcons : join "_join_" (s :: t :: items) = s ++ ("_" ++ "join" ++ "_") ++ join "_join_" (t :: items) := by
      rw [join, String.intercalate_cons_cons]
      rfl
    rw [hcons, words_between (by decide), ih, List.flatMap_cons, List.cons_append]

end Text

open Text

namespace Relation

variable {r q : Relation} {names : String} {l l' : List RelationSource} {s s' : List String}

/-- the words that have a meaning of their own in an identifier -/
def markers : List String := "join" :: "at" :: "filtered" :: SourceKind.all.map SourceKind.name

/-- none of the words of a text is a marker -/
def Plain (text : String) : Prop := ∀ w ∈ words text, w ∉ markers

instance (text : String) : Decidable (Plain text) := inferInstanceAs (Decidable (∀ w ∈ words text, w ∉ markers))

/-- plain words in front of a marker, or at the end, are read in one way -/
theorem append_inj_of_plain {xs ys : List String} (hx : ∀ w ∈ xs, w ∉ markers) (hy : ∀ w ∈ ys, w ∉ markers)
    (hs : ∀ w ∈ s.head?, w ∈ markers) (hs' : ∀ w ∈ s'.head?, w ∈ markers) (h : xs ++ s = ys ++ s') :
    xs = ys ∧ s = s' :=
  append_inj_of_span hx hy (fun w hw => not_not.2 (hs w hw)) (fun w hw => not_not.2 (hs' w hw)) h

/-! ## The words of an identifier -/

/-- the last names of a grain that is not abstract -/
def writtenGrain (r : Relation) : Option String :=
  if r.grain.isAbstract then none else some (Text.join "_" (r.grain.components.toList.map Address.nameOf))

/-- the digest of the condition -/
def digest (r : Relation) : Option String := r.condition.map Condition.shortDigest

/-- what two relations of one identifier have in common -/
structure Alike (r q : Relation) : Prop where
  kind : r.kind = q.kind
  sources : r.sources.map RelationSource.identifier = q.sources.map RelationSource.identifier
  grain : r.writtenGrain = q.writtenGrain
  digest : r.digest = q.digest

/-- the words of sources behind the first one -/
def further (l : List RelationSource) : List String := l.flatMap fun s => "join" :: words s.identifier

/-- the words for the condition -/
def filterWords (r : Relation) : List String :=
  match r.digest with
  | some d => ["filtered", d]
  | none => []

theorem shortDigest_word (t : Condition) : words t.shortDigest = [t.shortDigest] := by
  have hdigit : ∀ n < 16, (Nat.toDigits 16 n).headD '0' ≠ '_' := by decide
  have hhex : '_' ∉ (Sha256.hex t.display).toList := by
    intro h
    simp only [Sha256.hex, String.toList_ofList, List.mem_flatMap, Sha256.hexDigits, List.mem_map] at h
    obtain ⟨w, -, i, -, hi⟩ := h
    exact hdigit _ (Nat.mod_lt _ (by decide)) hi
  refine words_of_notMem fun h => hhex ?_
  rw [Condition.shortDigest, String.toList_ofList] at h
  exact List.mem_of_mem_take h

theorem name_word (k : SourceKind) : words k.name = [k.name] := by
  cases k <;> decide

theorem name_mem_markers (k : SourceKind) : k.name ∈ markers := by
  cases k <;> decide

theorem name_inj {k k' : SourceKind} (h : k.name = k'.name) : k = k' := by
  cases k <;> cases k' <;> first | rfl | exact absurd h (by decide)

/-- the identifier without what is written for the grain and the condition -/
def opening (r : Relation) : String :=
  if r.sources.isEmpty then r.kind.name
  else
    let joined := Text.join "_join_" (r.sources.map RelationSource.identifier)
    if r.kind = .select then joined else r.kind.name ++ "_" ++ joined

/-- the words for the grain and the condition -/
def closing (r : Relation) : List String :=
  match r.writtenGrain with
  | some names => "at" :: (words names ++ r.filterWords)
  | none => r.filterWords

theorem Named.words_identifier (h : r.Named) : words r.identifier = words r.opening ++ r.closing := by
  have hbase : (if r.sources.isEmpty = true then r.kind.name
      else if r.kind.name = "select" then Text.join "_join_" (r.sources.map RelationSource.identifier)
      else r.kind.name ++ "_" ++ Text.join "_join_" (r.sources.map RelationSource.identifier)) = r.opening := by
    simp only [opening, SourceKind.name_eq_select]
  have hgrain : Text.words (if r.grain.isAbstract = true then r.opening
      else r.opening ++ "_at_" ++ Text.join "_" (r.grain.components.toList.map Address.nameOf)) =
      Text.words r.opening ++ match r.writtenGrain with
        | some names => "at" :: Text.words names
        | none => [] := by
    unfold writtenGrain
    split
    · simp
    · exact words_between (w := "at") (by decide) _ _
  have hclosing : r.closing = (match r.writtenGrain with
      | some names => "at" :: Text.words names
      | none => []) ++ r.filterWords := by
    unfold closing
    split <;> simp
  unfold Named identifierOf at h
  simp only [hbase] at h
  rw [h, hclosing, ← List.append_assoc, ← hgrain, filterWords, digest]
  cases r.condition with
  | none => simp
  | some t =>
    refine (words_between (w := "filtered") (by decide) _ _).trans ?_
    rw [shortDigest_word]
    rfl

/-- alike relations have one identifier -/
theorem Alike.identifier_eq (h : r.Alike q) (hr : r.Named) (hq : q.Named) : r.identifier = q.identifier := by
  have hempty : r.sources.isEmpty = q.sources.isEmpty := by
    rw [← List.isEmpty_map (f := RelationSource.identifier), h.sources, List.isEmpty_map]
  have hopening : r.opening = q.opening := by rw [opening, opening, hempty, h.kind, h.sources]
  have hclosing : r.closing = q.closing := by rw [closing, closing, filterWords, filterWords, h.grain, h.digest]
  exact words_inj (by rw [hr.words_identifier, hq.words_identifier, hopening, hclosing])

/-! ## Reading an identifier -/

/-- the names are plain, there are sources and a grain is written, and a select reads a datasource; a constant has
neither sources nor a grain -/
structure Spelled (r : Relation) : Prop where
  plain : ∀ d ∈ r.ownDatasources, Plain d.identifier
  reads : r.kind ≠ .constant → r.sources ≠ []
  begins : r.kind = .select → r.ownDatasources ≠ []
  ends : r.kind ≠ .constant → ∃ names ∈ r.writtenGrain, Plain names

instance : Decidable r.Spelled :=
  decidable_of_iff ((∀ d ∈ r.ownDatasources, Plain d.identifier) ∧ (r.kind ≠ .constant → r.sources.isEmpty = false) ∧
      (r.kind = .select → r.ownDatasources.isEmpty = false) ∧
      (r.kind ≠ .constant → ∃ names ∈ r.writtenGrain, Plain names))
    ⟨fun ⟨plain, reads, begins, ends⟩ => ⟨plain, fun h => List.isEmpty_eq_false_iff.1 (reads h),
        fun h => List.isEmpty_eq_false_iff.1 (begins h), ends⟩,
      fun ⟨plain, reads, begins, ends⟩ => ⟨plain, fun h => List.isEmpty_eq_false_iff.2 (reads h),
        fun h => List.isEmpty_eq_false_iff.2 (begins h), ends⟩⟩

/-- the words of a spelled relation: what it begins with, its sources, and what it ends with -/
inductive Shape (r : Relation) : Prop
  | constant : r.kind = .constant → r.sources = [] → r.writtenGrain = none →
      words r.identifier = SourceKind.constant.name :: r.filterWords → Shape r
  | selected {d : Datasource} {rest : List RelationSource} {names : String} : r.kind = .select →
      r.sources = .datasource d :: rest → (∀ t ∈ rest, ∃ c, t = .query c) → r.writtenGrain = some names →
      Plain d.identifier → Plain names →
      words r.identifier = words d.identifier ++ (further rest ++ "at" :: (words names ++ r.filterWords)) → Shape r
  | combined {c : Relation} {rest : List RelationSource} {names : String} : r.kind ≠ .constant → r.kind ≠ .select →
      r.sources = .query c :: rest → (∀ t ∈ rest, ∃ c, t = .query c) → r.writtenGrain = some names → Plain names →
      words r.identifier =
        r.kind.name :: (words c.identifier ++ (further rest ++ "at" :: (words names ++ r.filterWords))) → Shape r

theorem Spelled.shape (h : r.Spelled) (hf : r.Formed) : r.Shape := by
  have hwords := hf.named.words_identifier
  cases hf.composed with
  | constant kind sources grain =>
    have hgrain : r.writtenGrain = none := if_pos grain
    refine .constant kind sources hgrain ?_
    rw [hwords, opening, sources, closing, hgrain, kind, List.isEmpty_nil, if_pos rfl, name_word]
    rfl
  | @selected d rest kind sources queries =>
    have hne : r.kind ≠ .constant := by
      rw [kind]
      exact fun h => SourceKind.noConfusion h
    obtain ⟨names, hnames, hplain⟩ := h.ends hne
    have hd : d ∈ r.ownDatasources := mem_ownDatasources.2 (sources ▸ List.mem_cons_self)
    refine .selected kind sources queries hnames (h.plain d hd) hplain ?_
    rw [hwords, opening, sources, closing, Option.mem_def.1 hnames, List.isEmpty_cons, if_neg Bool.false_ne_true,
      if_pos kind, List.map_cons, words_join, List.flatMap_map, List.append_assoc]
    rfl
  | relations kind queries =>
    obtain ⟨names, hnames, hplain⟩ := h.ends kind
    obtain ⟨t, rest, sources⟩ := List.exists_cons_of_ne_nil (h.reads kind)
    rw [sources] at queries
    obtain ⟨c, rfl⟩ := queries t List.mem_cons_self
    have hselect : r.kind ≠ .select := by
      intro hselect
      obtain ⟨d, hd⟩ := List.exists_mem_of_ne_nil _ (h.begins hselect)
      obtain ⟨q, hq⟩ := queries _ (sources ▸ mem_ownDatasources.1 hd)
      cases hq
    refine .combined kind hselect sources (fun t ht => queries t (List.mem_cons_of_mem _ ht)) hnames hplain ?_
    rw [hwords, opening, sources, closing, Option.mem_def.1 hnames, List.isEmpty_cons, if_neg Bool.false_ne_true,
      if_neg hselect, words_append, name_word, List.map_cons, words_join, List.flatMap_map, List.append_assoc,
      List.append_assoc]
    rfl

/-- what stands behind a relation in an identifier: nothing, another source, or a grain -/
def Stops (s : List String) : Prop := ∀ w ∈ s.head?, w = "join" ∨ w = "at"

theorem Stops.markers (hs : Stops s) : ∀ w ∈ s.head?, w ∈ markers := by
  intro w hw
  rcases hs w hw with rfl | rfl
  · decide
  · decide

theorem stops_further (l : List RelationSource) (u : List String) : Stops (further l ++ "at" :: u) := by
  intro w hw
  cases l with
  | nil => exact Or.inr (Option.some.inj hw).symm
  | cons t l => exact Or.inl (Option.some.inj hw).symm

/-- the condition is read in one way -/
theorem filterWords_inj (hs : Stops s) (hs' : Stops s') (h : r.filterWords ++ s = q.filterWords ++ s') :
    r.digest = q.digest ∧ s = s' := by
  unfold filterWords at h
  cases hr : r.digest with
  | none =>
    cases hq : q.digest with
    | none =>
      rw [hr, hq] at h
      exact ⟨rfl, h⟩
    | some d =>
      rw [hr, hq, List.nil_append] at h
      have := hs "filtered" (by rw [h]; rfl)
      simp at this
  | some d =>
    cases hq : q.digest with
    | none =>
      rw [hr, hq, List.nil_append] at h
      have := hs' "filtered" (by rw [← h]; rfl)
      simp at this
    | some e =>
      rw [hr, hq] at h
      simpa using h

/-- the grain and the condition are read in one way -/
theorem closing_inj {names names' : String} (hn : Plain names) (hn' : Plain names') (hs : Stops s) (hs' : Stops s')
    (h : words names ++ (r.filterWords ++ s) = words names' ++ (q.filterWords ++ s')) :
    names = names' ∧ r.digest = q.digest ∧ s = s' := by
  have hmarkers : ∀ (p : Relation) {t : List String}, Stops t → ∀ w ∈ (p.filterWords ++ t).head?, w ∈ markers := by
    intro p t ht
    unfold filterWords
    split
    · intro w hw
      rw [← Option.some.inj hw]
      decide
    · exact ht.markers
  obtain ⟨hwords, hrest⟩ := append_inj_of_plain hn hn' (hmarkers r hs) (hmarkers q hs') h
  exact ⟨words_inj hwords, filterWords_inj hs hs' hrest⟩

/-- sources are read one after the other if each is read in one way -/
theorem further_inj (hl : ∀ t ∈ l, ∀ t' ∈ l', ∀ s s', Stops s → Stops s' →
      words t.identifier ++ s = words t'.identifier ++ s' → t.identifier = t'.identifier ∧ s = s')
    {u u' : List String} (h : further l ++ "at" :: u = further l' ++ "at" :: u') :
    l.map RelationSource.identifier = l'.map RelationSource.identifier ∧ u = u' := by
  induction l generalizing l' with
  | nil =>
    cases l' with
    | nil => exact ⟨rfl, (List.cons_eq_cons.1 h).2⟩
    | cons t' l' =>
      have hhead := (List.cons_eq_cons.1 h).1
      simp at hhead
  | cons t l ih =>
    cases l' with
    | nil =>
      have hhead := (List.cons_eq_cons.1 h).1
      simp at hhead
    | cons t' l' =>
      have hrest : words t.identifier ++ (further l ++ "at" :: u) =
          words t'.identifier ++ (further l' ++ "at" :: u') := by
        simpa [further] using h
      obtain ⟨hname, hbehind⟩ := hl t List.mem_cons_self t' List.mem_cons_self _ _ (stops_further l u)
        (stops_further l' u') hrest
      obtain ⟨hnames, hu⟩ := ih
        (fun a ha b hb => hl a (List.mem_cons_of_mem _ ha) b (List.mem_cons_of_mem _ hb)) hbehind
      exact ⟨by rw [List.map_cons, List.map_cons, hname, hnames], hu⟩

/-- the first word of an identifier tells the kind -/
theorem Shape.kind_eq (hr : r.Shape) (hq : q.Shape) (h : words r.identifier ++ s = words q.identifier ++ s') :
    r.kind = q.kind := by
  have hhead : ∀ {p : Relation}, p.Shape → ∃ w rest, words p.identifier = w :: rest ∧
      (p.kind = .select → w ∉ markers) ∧ (p.kind ≠ .select → w = p.kind.name) := by
    intro p hp
    cases hp with
    | constant kind _ _ hwords =>
      exact ⟨_, _, hwords, fun hs => SourceKind.noConfusion (kind.symm.trans hs), fun _ => by rw [kind]⟩
    | @selected d _ _ kind _ _ _ plain _ hwords =>
      obtain ⟨w, rest, hd⟩ := exists_words d.identifier
      rw [hd, List.cons_append] at hwords
      exact ⟨w, _, hwords, fun _ => plain w (hd ▸ List.mem_cons_self), fun hne => absurd kind hne⟩
    | combined _ hne _ _ _ _ hwords => exact ⟨_, _, hwords, fun hs => absurd hs hne, fun _ => rfl⟩
  obtain ⟨w, rest, hw, hplain, hkind⟩ := hhead hr
  obtain ⟨w', rest', hw', hplain', hkind'⟩ := hhead hq
  rw [hw, hw'] at h
  have hsame : w = w' := (List.cons_eq_cons.1 h).1
  by_cases hs : r.kind = .select
  · by_cases hs' : q.kind = .select
    · rw [hs, hs']
    · exact absurd (hsame ▸ hkind' hs' ▸ name_mem_markers q.kind) (hplain hs)
  · by_cases hs' : q.kind = .select
    · exact absurd (hsame ▸ hkind hs ▸ name_mem_markers r.kind) (hplain' hs')
    · exact name_inj ((hkind hs).symm.trans (hsame.trans (hkind' hs')))

/-- the relations that two relations read are read from their identifiers in one way -/
def SourcesRead (r q : Relation) : Prop :=
  ∀ c, .query c ∈ r.sources → ∀ c', .query c' ∈ q.sources → ∀ s s', Stops s → Stops s' →
    words c.identifier ++ s = words c'.identifier ++ s' → c.identifier = c'.identifier ∧ s = s'

/-- what is behind the first source is read in one way: more sources, the grain and the condition -/
theorem SourcesRead.behind {names names' : String} (h : SourcesRead r q)
    (hl : ∀ t ∈ l, t ∈ r.sources ∧ ∃ c, t = .query c) (hl' : ∀ t ∈ l', t ∈ q.sources ∧ ∃ c, t = .query c)
    (hn : Plain names) (hn' : Plain names') (hs : Stops s) (hs' : Stops s')
    (he : further l ++ "at" :: (words names ++ (r.filterWords ++ s)) =
      further l' ++ "at" :: (words names' ++ (q.filterWords ++ s'))) :
    l.map RelationSource.identifier = l'.map RelationSource.identifier ∧ names = names' ∧ r.digest = q.digest ∧
      s = s' := by
  have hsources : ∀ t ∈ l, ∀ t' ∈ l', ∀ u u', Stops u → Stops u' →
      words t.identifier ++ u = words t'.identifier ++ u' → t.identifier = t'.identifier ∧ u = u' := by
    intro t ht t' ht'
    obtain ⟨hmem, c, rfl⟩ := hl t ht
    obtain ⟨hmem', c', rfl⟩ := hl' t' ht'
    exact h c hmem c' hmem'
  obtain ⟨hnames, hclosing⟩ := further_inj hsources he
  exact ⟨hnames, closing_inj hn hn' hs hs' hclosing⟩

/-- a relation is read in one way if the relations that it reads are -/
theorem Shape.read (hr : r.Shape) (hq : q.Shape) (hsources : SourcesRead r q) (hs : Stops s) (hs' : Stops s')
    (h : words r.identifier ++ s = words q.identifier ++ s') : r.Alike q ∧ s = s' := by
  have hkind := hr.kind_eq hq h
  cases hr with
  | constant kind sources grain hwords =>
    cases hq with
    | constant _ sources' grain' hwords' =>
      rw [hwords, hwords'] at h
      obtain ⟨hdigest, hend⟩ := filterWords_inj hs hs' (List.cons_eq_cons.1 h).2
      exact ⟨⟨hkind, by rw [sources, sources'], by rw [grain, grain'], hdigest⟩, hend⟩
    | selected kind' => exact SourceKind.noConfusion (kind.symm.trans (hkind.trans kind'))
    | combined hne => exact absurd (hkind.symm.trans kind) hne
  | selected kind sources queries grain plain hplain hwords =>
    cases hq with
    | constant kind' => exact SourceKind.noConfusion (kind.symm.trans (hkind.trans kind'))
    | selected _ sources' queries' grain' plain' hplain' hwords' =>
      simp only [hwords, hwords', List.append_assoc, List.cons_append] at h
      obtain ⟨hfirst, hrest⟩ := append_inj_of_plain plain plain' (stops_further _ _).markers
        (stops_further _ _).markers h
      obtain ⟨hnames, rfl, hdigest, hend⟩ := hsources.behind
        (fun t ht => ⟨sources ▸ List.mem_cons_of_mem _ ht, queries t ht⟩)
        (fun t ht => ⟨sources' ▸ List.mem_cons_of_mem _ ht, queries' t ht⟩) hplain hplain' hs hs' hrest
      refine ⟨⟨hkind, ?_, by rw [grain, grain'], hdigest⟩, hend⟩
      rw [sources, sources', List.map_cons, List.map_cons, hnames]
      exact congrArg (· :: _) (words_inj hfirst)
    | combined _ hne => exact absurd (hkind.symm.trans kind) hne
  | combined hconstant hselect sources queries grain hplain hwords =>
    cases hq with
    | constant kind' => exact absurd (hkind.trans kind') hconstant
    | selected kind' => exact absurd (hkind.trans kind') hselect
    | combined _ _ sources' queries' grain' hplain' hwords' =>
      rw [hwords, hwords'] at h
      have hbegin := (List.cons_eq_cons.1 h).2
      simp only [List.append_eq, List.append_assoc, List.cons_append] at hbegin
      obtain ⟨hfirst, hrest⟩ := hsources _ (sources ▸ List.mem_cons_self) _ (sources' ▸ List.mem_cons_self) _ _
        (stops_further _ _) (stops_further _ _) hbegin
      obtain ⟨hnames, rfl, hdigest, hend⟩ := hsources.behind
        (fun t ht => ⟨sources ▸ List.mem_cons_of_mem _ ht, queries t ht⟩)
        (fun t ht => ⟨sources' ▸ List.mem_cons_of_mem _ ht, queries' t ht⟩) hplain hplain' hs hs' hrest
      refine ⟨⟨hkind, ?_, by rw [grain, grain'], hdigest⟩, hend⟩
      rw [sources, sources', List.map_cons, List.map_cons, hnames]
      exact congrArg (· :: _) hfirst

/-- **a relation is read from its identifier in one way**, whatever is written behind it, if it and all that it reads
have the words of a spelled relation -/
theorem read (hr : ∀ p, r.Within p → p.Named ∧ p.Shape) (hq : ∀ p, q.Within p → p.Named ∧ p.Shape) (hs : Stops s)
    (hs' : Stops s') (h : words r.identifier ++ s = words q.identifier ++ s') : r.Alike q ∧ s = s' := by
  induction r using inductSources generalizing q s s' with
  | h r ih =>
    refine (hr r .self).2.read (hq q .self).2 (fun c hc c' hc' t t' ht ht' he => ?_) hs hs' h
    have hbelow : ∀ p, c.Within p → p.Named ∧ p.Shape := fun p hp => hr p ((Within.source .self hc).trans hp)
    have hbelow' : ∀ p, c'.Within p → p.Named ∧ p.Shape := fun p hp => hq p ((Within.source .self hc').trans hp)
    obtain ⟨halike, hend⟩ := ih c hc hbelow hbelow' ht ht' he
    exact ⟨halike.identifier_eq (hbelow c .self).1 (hbelow' c' .self).1, hend⟩

/-- a relation and all that it reads are spelled -/
def Legible (r : Relation) : Prop := ∀ p, r.Within p → p.Spelled

/-- the identifier of a legible relation tells its kind, its sources, its written grain and its condition's digest -/
theorem Legible.alike (hr : r.Legible) (hfr : ∀ p, r.Within p → p.Formed) (hq : q.Legible)
    (hfq : ∀ p, q.Within p → p.Formed) (h : r.identifier = q.identifier) : r.Alike q := by
  have hnothing : Stops [] := fun w hw => absurd hw (by simp)
  exact (read (fun p hp => ⟨(hfr p hp).named, (hr p hp).shape (hfr p hp)⟩)
    (fun p hp => ⟨(hfq p hp).named, (hq p hp).shape (hfq p hp)⟩) hnothing hnothing (by rw [h])).1

/-! ## Relations listed -/

mutual

/-- a relation and all that it reads, once for each time that they are read -/
def listed : Relation → List Relation
  | ⟨identifier, kind, inputs, outputs, hidden, partials, nullables, sources, conceptMap, joins, grain, condition,
      forceGroup⟩ =>
    ⟨identifier, kind, inputs, outputs, hidden, partials, nullables, sources, conceptMap, joins, grain, condition,
      forceGroup⟩ :: listedSources sources

def listedSources : List RelationSource → List Relation
  | [] => []
  | .datasource _ :: rest => listedSources rest
  | .query q :: rest => listed q ++ listedSources rest

end

theorem listed_eq (r : Relation) : r.listed = r :: listedSources r.sources := by
  cases r
  rw [listed]

theorem mem_listedSources : q ∈ listedSources l ↔ ∃ c, .query c ∈ l ∧ q ∈ c.listed := by
  induction l with
  | nil => simp [listedSources]
  | cons t l ih =>
    cases t with
    | datasource d => simp [listedSources, ih]
    | query c =>
      simp only [listedSources, List.mem_append, ih, List.mem_cons, RelationSource.query.injEq]
      constructor
      · rintro (h | ⟨c', hc', h⟩)
        · exact ⟨c, Or.inl rfl, h⟩
        · exact ⟨c', Or.inr hc', h⟩
      · rintro ⟨c', rfl | hc', h⟩
        · exact Or.inl h
        · exact Or.inr ⟨c', hc', h⟩

theorem mem_listed : q ∈ r.listed ↔ r.Within q := by
  induction r using inductSources with
  | h r ih =>
    rw [listed_eq, List.mem_cons, mem_listedSources]
    constructor
    · rintro (rfl | ⟨c, hc, hq⟩)
      · exact .self
      · exact (Within.source .self hc).trans ((ih c hc).1 hq)
    · intro hq
      rcases hq.cases_source with rfl | ⟨c, hc, hcq⟩
      · exact Or.inl rfl
      · exact Or.inr ⟨c, hc, (ih c hc).2 hcq⟩

end Relation

/-! ## Plans -/

namespace QueryPlan

variable {env : Environment} {select : List String} {condition : Option Condition} {settings : PlannerSettings}
  {plan : QueryPlan}

/-- **What the identifiers of a plan tell.** Relations that are alike have one identifier, and legible relations have
one identifier only if they are alike. So if the last names that are written tell the grains apart and the digests tell
the conditions apart, legible relations of one identifier have the same kind, sources of the same names, and equal
grains and conditions. -/
theorem identifier_make (h : make env select condition settings = .ok plan) :
    ∃ r, (plan.arena.resolve plan.root).1 = .ok r ∧
    (∀ p q, r.Within p → r.Within q → p.Alike q → p.identifier = q.identifier) ∧
    (∀ p q, r.Within p → r.Within q → p.Legible → q.Legible → p.identifier = q.identifier → p.Alike q) ∧
    ((∀ p q, r.Within p → r.Within q → p.writtenGrain = q.writtenGrain → p.grain.components = q.grain.components) →
      (∀ p q, r.Within p → r.Within q → p.digest = q.digest → p.condition = q.condition) →
      ∀ p q, r.Within p → r.Within q → p.Legible → q.Legible → p.identifier = q.identifier →
        p.kind = q.kind ∧ p.sources.map RelationSource.identifier = q.sources.map RelationSource.identifier ∧
          p.grain.components = q.grain.components ∧ p.condition = q.condition) := by
  obtain ⟨outputs, found, -, hmade⟩ := make_eq_ok h
  obtain ⟨r, hr⟩ := hmade.resolved
  have hres := Arena.resolve_resolves hmade.consistent hr
  have hformed : ∀ p, r.Within p → ∀ q, p.Within q → q.Formed := fun p hp q hq => hres.formed q (hp.trans hq)
  have halike : ∀ p q, r.Within p → r.Within q → p.Legible → q.Legible → p.identifier = q.identifier → p.Alike q :=
    fun p q hp hq hlp hlq he => hlp.alike (hformed p hp) hlq (hformed q hq) he
  refine ⟨r, hr, fun p q hp hq ha => ha.identifier_eq (hres.formed p hp).named (hres.formed q hq).named, halike, ?_⟩
  intro hgrain hdigest p q hp hq hlp hlq he
  obtain ⟨hkind, hsources, hg, hd⟩ := halike p q hp hq hlp hlq he
  exact ⟨hkind, hsources, hgrain p q hp hq hg, hdigest p q hp hq hd⟩

/-- items with two keys of one last name, and the totals of their values by each -/
def sameNames : Environment :=
  let total (name key : String) : Concept :=
    { Concept.derived name .integer .metric (.aggregate ⟨.sum, [.concept "local.value"], [key]⟩) (.ofList [key])
        .multiRow with keys := SortedSet.ofList [key] }
  { concepts := SortedMap.ofList
      [("local.id", .key "id" .integer), ("a.id", .key "a.id" .integer), ("b.id", .key "b.id" .integer),
        ("local.value", .property "value" .integer ["id"]), ("local.ta", total "ta" "a.id"),
        ("local.tb", total "tb" "b.id")]
    datasources := SortedMap.ofList
      [("f", .ofColumns "f" [.bind "id" "id", .bind "aid" "a.id", .bind "bid" "b.id", .bind "value" "value"] ["id"])] }

/-- groupings by two keys of one last name have one identifier -/
theorem sameNames_conflated : ∃ plan r p q, make sameNames ["local.ta", "local.tb"] none {} = .ok plan ∧
    (plan.arena.resolve plan.root).1 = .ok r ∧ r.Within p ∧ r.Within q ∧ p.kind = .group ∧ q.kind = .group ∧
      p.identifier = q.identifier ∧ p.grain.components.toList = ["a.id"] ∧ q.grain.components.toList = ["b.id"] := by
  obtain ⟨plan, r, hm, hr, hv⟩ := exists_resolved
    (f := fun _ r => decide (∃ p ∈ r.listed, ∃ q ∈ r.listed, p.kind = .group ∧ q.kind = .group ∧
      p.identifier = q.identifier ∧ p.grain.components.toList = ["a.id"] ∧ q.grain.components.toList = ["b.id"]))
    (v := true)
    (show ((make sameNames ["local.ta", "local.tb"] none {}).toOption.bind _) = _ by decide +kernel)
  obtain ⟨p, hp, q, hq, h⟩ := of_decide_eq_true hv
  exact ⟨plan, r, p, q, hm, hr, Relation.mem_listed.1 hp, Relation.mem_listed.1 hq, h⟩

/-- two selects of the items in the plan for the totals have outputs of their own, and are alike -/
theorem identifier_make_totals : ∃ plan r p q, make totals ["local.id", "local.tot"] none {} = .ok plan ∧
    (plan.arena.resolve plan.root).1 = .ok r ∧ r.Within p ∧ r.Within q ∧ p.outputs ≠ q.outputs ∧
      p.identifier = "items_at_id" ∧ q.identifier = "items_at_id" ∧ p.Alike q ∧
      p.grain.components = q.grain.components ∧ p.condition = q.condition := by
  obtain ⟨plan, r, hm, hr, hv⟩ := exists_resolved
    (f := fun _ r => decide ((∀ p ∈ r.listed, p.Spelled ∧ p.condition.isNone) ∧
      (∀ p ∈ r.listed, ∀ q ∈ r.listed, p.writtenGrain = q.writtenGrain → p.grain.components = q.grain.components) ∧
      ∃ p ∈ r.listed, ∃ q ∈ r.listed,
        p.outputs ≠ q.outputs ∧ p.identifier = "items_at_id" ∧ q.identifier = "items_at_id"))
    (v := true)
    (show ((make totals ["local.id", "local.tot"] none {}).toOption.bind _) = _ by decide +kernel)
  obtain ⟨hspelled, hgrains, p, hp, q, hq, houtputs, hpid, hqid⟩ := of_decide_eq_true hv
  simp only [Relation.mem_listed, Option.isNone_iff_eq_none] at hspelled hgrains hp hq
  obtain ⟨r', hr', -, halike, hequal⟩ := identifier_make hm
  rw [hr] at hr'
  cases hr'
  have hlegible : ∀ p, r.Within p → p.Legible := fun p hp p' hp' => (hspelled p' (hp.trans hp')).1
  have hsame := hpid.trans hqid.symm
  have hdigests : ∀ p q, r.Within p → r.Within q → p.digest = q.digest → p.condition = q.condition :=
    fun p q hp hq _ => (hspelled p hp).2.trans (hspelled q hq).2.symm
  obtain ⟨-, -, hgrain, hcondition⟩ := hequal (fun p q hp hq => hgrains p hp q hq) hdigests p q hp hq (hlegible p hp)
    (hlegible q hq) hsame
  exact ⟨plan, r, p, q, hm, hr, hp, hq, houtputs, hpid, hqid,
    halike p q hp hq (hlegible p hp) (hlegible q hq) hsame, hgrain, hcondition⟩

end QueryPlan

end SemanticPlanner
