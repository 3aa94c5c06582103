/-
Joins of a step, and the sources that they name and link.

  JoinsRead, Linked  the joins name only what the step reads; two sources are linked through joins
  Renames            sources read under other names, in the joins as well
  LinkedWithout      what stays linked when the joins on some sources are dropped
  Rejoins            what an application of a rule does to the joins of a step
  joins_kept         it does no more than that

Sources that take the place of others take their place in the joins. Two rules only detach parents. Where a condition is
dropped, the joins on the parents that go with it stay. Where constants are written as values, the joins on their step
are dropped, and with them the links between sources that were joined through it.
-/
import SemanticPlanner.Proofs.OptimizedColumns

namespace SemanticPlanner

variable {env : Environment} {s : OptimizerSettings} {p q : CtePlan} {c d e : Cte} {n x y : String} {r : Rule}
  {j : CteJoin} {a b : Option String} {ρ : String → String}

/-! ## Sources that joins name and link -/

namespace CteJoin

/-- the sources that a join names -/
def names : CteJoin → List String
  | base left right _ _ => left.toList ++ [right]
  | unnest _ => []

/-- a join links its right side to its left side, or to the rows joined so far where it names no left side -/
inductive Links : CteJoin → Option String → Option String → Prop
  | base {left : Option String} {right : String} {kind : JoinKind} {keys : List (String × String)} :
      Links (base left right kind keys) left (some right)

/-- every source of a join under another name -/
def mapNames (ρ : String → String) : CteJoin → CteJoin
  | base left right kind keys => base (left.map ρ) (ρ right) kind keys
  | unnest j => unnest j

/-- one name exchanged for another -/
abbrev swap (old new x : String) : String := if x = old then new else x

theorem rename_eq (old new : String) (j : CteJoin) : j.rename old new = j.mapNames (swap old new) := by
  cases j with
  | base => rfl
  | unnest => rfl

theorem mapNames_mapNames (ρ σ : String → String) (j : CteJoin) :
    (j.mapNames ρ).mapNames σ = j.mapNames (σ ∘ ρ) := by
  cases j with
  | base => simp [mapNames]
  | unnest => rfl

theorem mapNames_id (j : CteJoin) : j.mapNames id = j := by
  cases j with
  | base => simp [mapNames]
  | unnest => rfl

theorem names_mapNames (ρ : String → String) (j : CteJoin) : (j.mapNames ρ).names = j.names.map ρ := by
  cases j with
  | base left => cases left <;> rfl
  | unnest => rfl

theorem Links.mapNames (h : j.Links a b) (ρ : String → String) : (j.mapNames ρ).Links (a.map ρ) (b.map ρ) := by
  cases h
  exact .base

/-- a join that links names the sources that it links -/
theorem Links.mem_names (h : j.Links a b) : x ∈ j.names ↔ x ∈ a ∨ x ∈ b := by
  cases h
  simp [names, eq_comm]

/-- a join links two sources only -/
theorem Links.unique {a' b' : Option String} (h : j.Links a b) (h' : j.Links a' b') : a' = a ∧ b' = b := by
  cases h
  cases h'
  exact ⟨rfl, rfl⟩

theorem reads_iff {gone : List String} : j.reads gone = true ↔ ∃ x ∈ j.names, x ∈ gone := by
  cases j with
  | base left right =>
    cases left with
    | none => simp [reads, names]
    | some l => simp [reads, names, or_comm]
  | unnest => simp [reads, names]

end CteJoin

namespace Cte

/-- the sources of a step: the steps and the datasources that it reads -/
def sources (c : Cte) : List String := c.parents ++ c.datasources.map Datasource.identifier

theorem mem_sources : x ∈ c.sources ↔ x ∈ c.parents ∨ ∃ a ∈ c.datasources, a.identifier = x := by
  simp [sources]

/-- the joins name only what the step reads -/
def JoinsRead (c : Cte) : Prop := ∀ j ∈ c.joins, ∀ x ∈ j.names, x ∈ c.sources

instance : Decidable c.JoinsRead := inferInstanceAs (Decidable (∀ j ∈ c.joins, ∀ x ∈ j.names, x ∈ c.sources))

/-- two sources linked, directly or through others -/
def Linked (c : Cte) : Option String → Option String → Prop := Relation.EqvGen fun a b => ∃ j ∈ c.joins, j.Links a b

/-- two sources linked by joins that name none of the sources that are gone -/
def LinkedWithout (c : Cte) (gone : String → Prop) : Option String → Option String → Prop :=
  Relation.EqvGen fun a b => ∃ j ∈ c.joins, (∀ x ∈ j.names, ¬ gone x) ∧ j.Links a b

/-- a parent that is not read any more -/
def Detached (c d : Cte) (x : String) : Prop := x ∈ c.parents ∧ x ∉ d.parents

theorem Linked.map (h : c.Linked a b) (hj : ∀ j ∈ c.joins, j.mapNames ρ ∈ d.joins) :
    d.Linked (a.map ρ) (b.map ρ) := by
  induction h with
  | rel a b hlinks =>
    obtain ⟨j, hmem, hlinks⟩ := hlinks
    exact .rel _ _ ⟨_, hj j hmem, hlinks.mapNames ρ⟩
  | refl => exact .refl _
  | symm _ _ _ ih => exact ih.symm
  | trans _ _ _ _ _ ih ih' => exact ih.trans _ _ _ ih'

/-- a source that is not gone, or the rows joined so far -/
def Remains (gone : String → Prop) (a : Option String) : Prop := ∀ x ∈ a, ¬ gone x

/-- where no two joins name a source that is gone, some other end of its join can stand for it -/
theorem exists_standIn {gone : String → Prop}
    (hleaf : ∀ x, gone x → ∀ j ∈ c.joins, ∀ j' ∈ c.joins, x ∈ j.names → x ∈ j'.names → j = j') (z : Option String) :
    ∃ w, (Remains gone z → w = z) ∧ ∀ j ∈ c.joins, ∀ u v, j.Links u v → (z = u ∨ z = v) → ¬ Remains gone z →
      (Remains gone u → w = u) ∧ (Remains gone v → w = v) ∧ (¬ Remains gone u → ¬ Remains gone v → w = u) := by
  classical
  by_cases hz : Remains gone z
  · exact ⟨z, fun _ => rfl, fun _ _ _ _ _ _ hnot => absurd hz hnot⟩
  by_cases hjoin : ∃ j ∈ c.joins, ∃ u v, j.Links u v ∧ (z = u ∨ z = v)
  · obtain ⟨j, hj, u, v, hlinks, hend⟩ := hjoin
    obtain ⟨x, hx, hgone⟩ : ∃ x ∈ z, gone x := by simpa [Remains] using hz
    have hnamed : ∀ {j : CteJoin} {u v : Option String}, j.Links u v → z = u ∨ z = v → x ∈ j.names := by
      rintro j u v hlinks (rfl | rfl)
      · exact hlinks.mem_names.2 (Or.inl hx)
      · exact hlinks.mem_names.2 (Or.inr hx)
    refine ⟨if Remains gone u then u else if Remains gone v then v else u, fun h => absurd h hz, ?_⟩
    intro j' hj' u' v' hlinks' hend' _
    obtain rfl := hleaf x hgone j hj j' hj' (hnamed hlinks hend) (hnamed hlinks' hend')
    obtain ⟨rfl, rfl⟩ := hlinks.unique hlinks'
    refine ⟨fun hu => if_pos hu, fun hv => ?_, fun hu hv => ?_⟩
    · -- the source itself is gone, so that it is the left end
      have hu : ¬ Remains gone u' := by
        rcases hend with rfl | rfl
        · exact hz
        · exact absurd hv hz
      rw [if_neg hu, if_pos hv]
    · rw [if_neg hu, if_neg hv]
  · exact ⟨z, fun _ => rfl, fun j hj u v hlinks hend _ => absurd ⟨j, hj, u, v, hlinks, hend⟩ hjoin⟩

/-- **sources stay linked without those that no two joins name** -/
theorem Linked.without {gone : String → Prop} (h : c.Linked a b)
    (hleaf : ∀ x, gone x → ∀ j ∈ c.joins, ∀ j' ∈ c.joins, x ∈ j.names → x ∈ j'.names → j = j')
    (ha : Remains gone a) (hb : Remains gone b) : c.LinkedWithout gone a b := by
  choose stand hstand hends using exists_standIn hleaf
  have hstands : c.LinkedWithout gone (stand a) (stand b) := by
    clear ha hb
    induction h with
    | rel u v hlinks =>
      obtain ⟨j, hj, hlinks⟩ := hlinks
      by_cases hu : Remains gone u
      · by_cases hv : Remains gone v
        · rw [hstand u hu, hstand v hv]
          refine .rel _ _ ⟨j, hj, fun x hx => ?_, hlinks⟩
          exact (hlinks.mem_names.1 hx).elim (hu x) (hv x)
        · rw [hstand u hu, (hends v j hj u v hlinks (Or.inr rfl) hv).1 hu]
          exact .refl _
      · have hleft := hends u j hj u v hlinks (Or.inl rfl) hu
        by_cases hv : Remains gone v
        · rw [hleft.2.1 hv, hstand v hv]
          exact .refl _
        · rw [hleft.2.2 hu hv, (hends v j hj u v hlinks (Or.inr rfl) hv).2.2 hu hv]
          exact .refl _
    | refl => exact .refl _
    | symm _ _ _ ih => exact ih.symm
    | trans _ _ _ _ _ ih ih' => exact ih.trans _ _ _ ih'
  rwa [hstand a ha, hstand b hb] at hstands

/-! ## Sources under other names -/

/-- the joins of a step name its sources as `ρ` renames them, which are detached parents only -/
structure Renames (p : CtePlan) (c d : Cte) (ρ : String → String) : Prop where
  joins : d.joins = c.joins.map (CteJoin.mapNames ρ)
  sources : ∀ x ∈ c.sources, ρ x ∈ d.sources
  moved : ∀ x, ρ x ≠ x → c.Detached d x
  own : ∀ a ∈ d.datasources, ∃ e ∈ p.ctes, a ∈ e.datasources
  fixed : p.NamesApart → ∀ e ∈ p.ctes, ∀ a ∈ e.datasources, ρ a.identifier = a.identifier

theorem Renames.of_same (hc : c ∈ p.ctes) (hparents : d.parents = c.parents) (hown : d.datasources = c.datasources)
    (hjoins : d.joins = c.joins) : Renames p c d id := by
  have hsources : d.sources = c.sources := by rw [Cte.sources, Cte.sources, hparents, hown]
  have hid : c.joins.map (CteJoin.mapNames id) = c.joins := by
    rw [List.map_congr_left (fun j _ => CteJoin.mapNames_id j), List.map_id']
  exact ⟨hjoins.trans hid.symm, fun x hx => hsources ▸ hx, fun x hx => absurd rfl hx, fun a ha => ⟨c, hc, hown ▸ ha⟩,
    fun _ _ _ _ _ => rfl⟩

theorem Renames.congr (h : Renames p c d ρ) {d' : Cte} (hparents : d'.parents = d.parents)
    (hown : d'.datasources = d.datasources) (hjoins : d'.joins = d.joins) : Renames p c d' ρ := by
  have hsources : d'.sources = d.sources := by rw [Cte.sources, Cte.sources, hparents, hown]
  refine ⟨hjoins.trans h.joins, fun x hx => hsources ▸ h.sources x hx, fun x hx => ?_, fun a ha => h.own a (hown ▸ ha),
    h.fixed⟩
  obtain ⟨hread, hgone⟩ := h.moved x hx
  exact ⟨hread, hparents ▸ hgone⟩

/-- what is left of a step's sources has kept its name, if names are apart -/
theorem Renames.fixed_of_mem (h : Renames p c d ρ) (hp : p.NamesApart) (hx : x ∈ d.sources) : ρ x = x := by
  rcases mem_sources.1 hx with hparent | ⟨a, ha, rfl⟩
  · by_contra hne
    exact (h.moved x hne).2 hparent
  · obtain ⟨e, he, hae⟩ := h.own a ha
    exact h.fixed hp e he a hae

theorem Renames.joinsRead (h : Renames p c d ρ) (hc : c.JoinsRead) : d.JoinsRead := by
  intro j' hj' x hx
  rw [h.joins] at hj'
  obtain ⟨j, hj, rfl⟩ := List.mem_map.1 hj'
  rw [CteJoin.names_mapNames] at hx
  obtain ⟨y, hy, rfl⟩ := List.mem_map.1 hx
  exact h.sources y (hc j hj y hy)

theorem Renames.linked (h : Renames p c d ρ) (hl : c.Linked a b) : d.Linked (a.map ρ) (b.map ρ) := by
  refine hl.map fun j hj => ?_
  rw [h.joins]
  exact List.mem_map_of_mem hj

end Cte

/-- a step with parents inlined names its datasources in their place -/
theorem InlineDatasource.Inlined.renames (hc : c ∈ p.ctes) (h : Inlined p c d) : ∃ ρ, Cte.Renames p c d ρ := by
  induction h with
  | none => exact ⟨id, .of_same hc rfl rfl rfl⟩
  | @next d e parent hd hparent hmem hreplaceable he ih =>
    obtain ⟨ρ, hρ⟩ := ih
    have hkeeps := (hd.next hparent hmem hreplaceable he).keepsSources hc
    obtain ⟨b, hb, h⟩ := Cte.inlineParent_some he
    refine ⟨CteJoin.swap parent.name b.identifier ∘ ρ, ?_, fun x hx => ?_, fun x hx => ?_, hkeeps.added, ?_⟩
    · rw [h.joins, hρ.joins, List.map_map]
      refine List.map_congr_left fun j _ => ?_
      rw [Function.comp_apply, CteJoin.rename_eq, CteJoin.mapNames_mapNames]
    · show (if ρ x = parent.name then b.identifier else ρ x) ∈ e.sources
      rw [Cte.mem_sources]
      split
      · exact Or.inr h.there
      · rename_i hne
        rcases Cte.mem_sources.1 (hρ.sources x hx) with hp | ⟨a, ha, hax⟩
        · exact Or.inl (h.parents.2 ⟨hp, hne⟩)
        · exact Or.inr ⟨a, h.own a ha, hax⟩
    · by_cases hmoved : ρ x = x
      · have hname : x = parent.name := by
          by_contra hne
          exact hx ((congrArg _ hmoved).trans (if_neg hne))
        exact ⟨hname ▸ hmem, fun hp => (h.parents.1 hp).2 hname⟩
      · obtain ⟨hread, hgone⟩ := hρ.moved x hmoved
        exact ⟨hread, fun hp => hgone (h.parents.1 hp).1⟩
    · intro hapart o ho a ha
      show (if ρ a.identifier = parent.name then b.identifier else ρ a.identifier) = _
      rw [hρ.fixed hapart o ho a ha]
      split
      · -- a parent named like a datasource reads that datasource
        rename_i hname
        obtain ⟨b', hb', hbn⟩ := hapart.steps parent hparent o ho a ha hname
        rw [Cte.bareDatasource_some hb, List.mem_singleton] at hb'
        rw [hname, ← hbn, hb']
      · rfl

/-- a reader of a folded aggregate names the aggregate's parent in its place -/
theorem FoldAggregate.Absorbs.renames {parent : Cte} (ha : Absorbs env p c parent) (hc : c ∈ p.ctes) (he : e ∈ p.ctes)
    (hread : c.name ∈ e.parents) :
    Cte.Renames p e (e.replaceParent c.name parent.name) (CteJoin.swap c.name parent.name) := by
  refine ⟨?_, fun x hx => ?_, fun x hx => ?_, fun a ha => ⟨e, he, ha⟩, fun hapart o ho a hao => ?_⟩
  · exact List.map_congr_left fun j _ => CteJoin.rename_eq _ _ j
  · rw [Cte.mem_sources, mem_parents_replaceParent]
    by_cases hname : x = c.name
    · exact Or.inl (Or.inl ⟨if_pos hname, hread⟩)
    · rw [CteJoin.swap, if_neg hname]
      exact (Cte.mem_sources.1 hx).imp (fun hp => Or.inr ⟨hp, hname⟩) id
  · have hname : x = c.name := by
      by_contra hne
      exact hx (if_neg hne)
    refine ⟨hname ▸ hread, fun hp => ?_⟩
    rw [mem_parents_replaceParent] at hp
    rcases hp with ⟨hnew, -⟩ | ⟨-, hne⟩
    · exact hx ((if_pos hname).trans hnew.symm)
    · exact hne hname
  · refine if_neg fun hname => ?_
    obtain ⟨b, hb, -⟩ := hapart.steps c hc o ho a hao hname
    rw [ha.no_datasources] at hb
    cases hb

/-! ## Applications of rules -/

namespace Cte

theorem linkedWithout_iff {gone : String → Prop} (h : ∀ x, ¬ gone x) : c.LinkedWithout gone a b ↔ c.Linked a b := by
  constructor
  · exact Relation.EqvGen.mono (fun _ _ ⟨j, hj, _, hlinks⟩ => ⟨j, hj, hlinks⟩) _ _
  · exact Relation.EqvGen.mono (fun _ _ ⟨j, hj, hlinks⟩ => ⟨j, hj, fun x _ => h x, hlinks⟩) _ _

/-- what an application of a rule does to the joins of a step. Where it renames sources, it renames detached parents as
what takes their place (`moved`, `fixed`). The joins still name only what is read, unless a condition was dropped and a
join names what was dropped with it (`reads`). Sources stay linked (`links`), but where constants are written as values
exactly those do that are linked without the steps detached (`constants`), which are all if no two joins name one of
these (`leaves`). -/
structure Rejoins (p : CtePlan) (r : Rule) (c d : Cte) (ρ : String → String) : Prop where
  moved : ∀ x, ρ x ≠ x → c.Detached d x ∧ ρ x ∈ d.sources
  fixed : p.NamesApart → ∀ x ∈ d.sources, ρ x = x
  reads : c.JoinsRead → (d.JoinsRead ↔ (r = .dropPredicate → ∀ j ∈ c.joins, ∀ x ∈ j.names, x ∈ d.sources))
  links : r ≠ .inlineConstant → ∀ a b, c.Linked a b → d.Linked (a.map ρ) (b.map ρ)
  constants : r = .inlineConstant → ∀ a b, (d.Linked a b ↔ c.LinkedWithout (c.Detached d) a b)
  leaves : r = .inlineConstant →
    (∀ x, c.Detached d x → ∀ j ∈ c.joins, ∀ j' ∈ c.joins, x ∈ j.names → x ∈ j'.names → j = j') →
    ∀ a b, Remains (c.Detached d) a → Remains (c.Detached d) b → c.Linked a b → d.Linked a b

theorem Renames.rejoins (h : Renames p c d ρ) (hdrop : r ≠ .dropPredicate) (hconstant : r ≠ .inlineConstant) :
    Rejoins p r c d ρ :=
  ⟨fun x hx => ⟨h.moved x hx, h.sources x (List.mem_append_left _ (h.moved x hx).1)⟩,
    fun hp _ hx => h.fixed_of_mem hp hx, fun hc => ⟨fun _ he => absurd he hdrop, fun _ => h.joinsRead hc⟩,
    fun _ _ _ hl => h.linked hl, fun he => absurd he hconstant, fun he => absurd he hconstant⟩

/-- what does not change its sources and joins is as good as before -/
theorem rejoins_of_same (hparents : d.parents = c.parents) (hown : d.datasources = c.datasources)
    (hjoins : d.joins = c.joins) : Rejoins p r c d id := by
  have hsources : d.sources = c.sources := by rw [Cte.sources, Cte.sources, hparents, hown]
  have hread : d.JoinsRead ↔ c.JoinsRead := by rw [JoinsRead, JoinsRead, hjoins, hsources]
  have hlinked : ∀ a b, d.Linked a b ↔ c.Linked a b := fun a b => by rw [Linked, Linked, hjoins]
  have hnone : ∀ x, ¬ c.Detached d x := fun x hx => hx.2 (hparents ▸ hx.1)
  refine ⟨fun _ hx => absurd rfl hx, fun _ _ _ => rfl, fun hc => ⟨fun _ _ => hsources ▸ hc, fun _ => hread.2 hc⟩,
    fun _ a b hl => ?_, fun _ a b => ?_, fun _ _ a b _ _ hl => (hlinked a b).2 hl⟩
  · rw [Option.map_id, id, id]
    exact (hlinked a b).2 hl
  · rw [hlinked, linkedWithout_iff hnone]

end Cte

/-- a dropped condition leaves the joins as they are -/
theorem PushPredicate.rejoins_dropCondition (unread : List String) :
    Cte.Rejoins p .dropPredicate c (dropCondition unread c) id := by
  refine ⟨fun _ hx => absurd rfl hx, fun _ _ _ => rfl, fun _ => ⟨fun h _ => h, fun h => h rfl⟩, fun _ a b hl => ?_,
    fun h => absurd h (by decide), fun h => absurd h (by decide)⟩
  rw [Option.map_id, id, id]
  exact hl

namespace InlineConstant

theorem rejoins_dropParents {constants : List String} (h : Relation.ReflTransGen (Written env) c d) :
    Cte.Rejoins p .inlineConstant c (dropParents (unread constants d) d) id := by
  obtain ⟨hown, hjoins, hparents, -⟩ := Written.narrows h
  have hunread : ∀ x ∈ unread constants d, x ∈ c.parents := fun x hx => hparents ▸ List.mem_of_mem_filter hx
  have hdetached : ∀ x, c.Detached (dropParents (unread constants d) d) x ↔ x ∈ unread constants d := by
    intro x
    have hleft : x ∈ (dropParents (unread constants d) d).parents ↔ x ∈ c.parents ∧ x ∉ unread constants d := by
      simp [dropParents, hparents]
    rw [Cte.Detached, hleft]
    exact ⟨fun ⟨hx, hnot⟩ => by_contra fun h => hnot ⟨hx, h⟩, fun hx => ⟨hunread x hx, fun h => h.2 hx⟩⟩
  have hkept : ∀ j, j ∈ (dropParents (unread constants d) d).joins ↔
      j ∈ c.joins ∧ ∀ x ∈ j.names, x ∉ unread constants d := by
    intro j
    show j ∈ d.joins.filter _ ↔ _
    rw [List.mem_filter, hjoins, Bool.not_eq_true', ← Bool.not_eq_true, CteJoin.reads_iff]
    simp
  have hlinked : ∀ a b, (dropParents (unread constants d) d).Linked a b ↔
      c.LinkedWithout (c.Detached (dropParents (unread constants d) d)) a b := by
    intro a b
    have hlink : ∀ a b, (∃ j ∈ (dropParents (unread constants d) d).joins, j.Links a b) ↔ ∃ j ∈ c.joins,
        (∀ x ∈ j.names, ¬ c.Detached (dropParents (unread constants d) d) x) ∧ j.Links a b := by
      simp [hkept, hdetached, and_assoc]
    rw [Cte.Linked, Cte.LinkedWithout]
    simp only [hlink]
  refine ⟨fun _ hx => absurd rfl hx, fun _ _ _ => rfl,
    fun hc => ⟨fun _ h => absurd h (by decide), fun _ j hj x hx => ?_⟩, fun he => absurd rfl he, fun _ => hlinked,
    fun _ hleaf a b ha hb hl => (hlinked a b).2 (hl.without hleaf ha hb)⟩
  obtain ⟨hmem, hnone⟩ := (hkept j).1 hj
  have hleft : x ∈ (dropParents (unread constants d) d).parents ↔ x ∈ c.parents := by
    simp [dropParents, hparents, hnone x hx]
  rw [Cte.mem_sources, hleft]
  exact (Cte.mem_sources.1 (hc j hmem x hx)).imp_right fun ⟨a, ha, hax⟩ => ⟨a, hown ▸ ha, hax⟩

end InlineConstant

/-- moving terms does not change what is read and joined -/
theorem PushPredicate.forall₂_rejoins (h : Rewrites env .pushPredicate p q) :
    List.Forall₂ (fun c d => ∃ ρ, Cte.Rejoins p .pushPredicate c d ρ) p.ctes q.ctes := by
  have hsame : q.ctes.map (fun c => (c.parents, c.datasources, c.joins)) =
      p.ctes.map fun c => (c.parents, c.datasources, c.joins) := by
    induction h with
    | refl => rfl
    | tail _ hr ih =>
      cases hr
      rw [← ih]
      exact CtePlan.map_modify fun c => rfl
  have hall : List.Forall₂ (fun c d : Cte => (d.parents, d.datasources, d.joins) = (c.parents, c.datasources, c.joins))
      p.ctes q.ctes := by
    rw [← List.forall₂_eq_eq_eq, List.forall₂_map_left_iff, List.forall₂_map_right_iff] at hsame
    exact hsame.flip
  refine hall.imp fun c d he => ⟨id, ?_⟩
  simp only [Prod.mk.injEq] at he
  exact Cte.rejoins_of_same he.1 he.2.1 he.2.2

/-- the readers of a folded aggregate are joined to its parent -/
theorem FoldAggregate.Absorbs.forall₂_rejoins {parent : Cte} (ha : Absorbs env p c parent) (hn : p.names.Nodup)
    (hc : c ∈ p.ctes) :
    List.Forall₂ (fun c d => ∃ ρ, Cte.Rejoins p .foldAggregate c d ρ) p.ctes (fold p c parent).ctes := by
  have hnames : (p.modify parent.name (absorb c)).names = p.names := CtePlan.names_modify fun e he => he
  show List.Forall₂ _ p.ctes (redirect _ _ _ _).ctes
  rw [ctes_redirect (hnames ▸ hn) _ CtePlan.nodup_readersOf, CtePlan.ctes_modify hn, List.map_map,
    List.forall₂_map_right_iff, List.forall₂_same]
  intro e he
  have habsorbed : ∀ e : Cte, (if e.name = parent.name then absorb c e else e).name = e.name ∧
      (if e.name = parent.name then absorb c e else e).parents = e.parents ∧
      (if e.name = parent.name then absorb c e else e).datasources = e.datasources ∧
      (if e.name = parent.name then absorb c e else e).joins = e.joins := by
    intro e
    split
    · exact ⟨rfl, rfl, rfl, rfl⟩
    · exact ⟨rfl, rfl, rfl, rfl⟩
  obtain ⟨hname, hparents, hown, hjoins⟩ := habsorbed e
  rw [Function.comp_apply]
  generalize (if e.name = parent.name then absorb c e else e) = e' at hname hparents hown hjoins ⊢
  split
  · rename_i hreader
    obtain ⟨o, ho, hon, hread⟩ := CtePlan.mem_readersOf.1 (hname ▸ hreader)
    obtain rfl := CtePlan.eq_of_name hn ho he hon
    have hrenames : Cte.Renames p o (e'.replaceParent c.name parent.name) (CteJoin.swap c.name parent.name) :=
      (ha.renames hc he hread).congr (by simp [Cte.replaceParent, hparents]) hown
        (by simp [Cte.replaceParent, hjoins])
    exact ⟨_, hrenames.rejoins (by decide) (by decide)⟩
  · exact ⟨id, Cte.rejoins_of_same hparents hown hjoins⟩

/-- **one application of a rule keeps the joins of every step on what the step reads, and keeps sources linked**, but
for joins on what was dropped with a condition and for sources that were joined through a constant step -/
theorem Rule.joins_kept (hn : r = .foldAggregate → p.names.Nodup) (h : r.Applies env s p q) :
    List.Forall₂ (fun c d => ∃ ρ, Cte.Rejoins p r c d ρ) p.ctes q.ctes := by
  have hsame : List.Forall₂ (fun c d => ∃ ρ, Cte.Rejoins p r c d ρ) p.ctes p.ctes :=
    List.forall₂_same.2 fun c _ => ⟨id, Cte.rejoins_of_same rfl rfl rfl⟩
  obtain ⟨name, memory, rfl⟩ := h
  cases r with
  | inlineDatasource =>
    rcases InlineDatasource.apply_cases s.inlineDatasourceCutoff name memory p with he | ⟨c, d, hc, hd, he⟩
    · rw [Rule.apply, he]
      exact hsame
    · rw [Rule.apply, he]
      refine CtePlan.forall₂_modify (fun c _ => ⟨id, Cte.rejoins_of_same rfl rfl rfl⟩) fun c' hc' => ?_
      obtain rfl : c = c' := Option.some.inj (hc.symm.trans hc')
      obtain ⟨ρ, hρ⟩ := hd.renames (CtePlan.find?_some hc).1
      exact ⟨ρ, hρ.rejoins (by decide) (by decide)⟩
  | pushPredicate => exact PushPredicate.forall₂_rejoins PushPredicate.apply_rewrites
  | dropPredicate =>
    rcases PushPredicate.applyRemoval_cases name memory p with he | ⟨c, t, unread, hc, -, -, -, he⟩
    · rw [Rule.apply, he]
      exact hsame
    · rw [Rule.apply, he]
      exact CtePlan.forall₂_modify (fun c _ => ⟨id, Cte.rejoins_of_same rfl rfl rfl⟩)
        fun c' _ => ⟨id, PushPredicate.rejoins_dropCondition unread⟩
  | inlineConstant =>
    rcases InlineConstant.apply_cases env name memory p with he | ⟨c, d, hc, hd, he⟩
    · rw [Rule.apply, he]
      exact hsame
    · rw [Rule.apply, he]
      refine CtePlan.forall₂_modify (fun c _ => ⟨id, Cte.rejoins_of_same rfl rfl rfl⟩) fun c' hc' => ?_
      obtain rfl : c = c' := Option.some.inj (hc.symm.trans hc')
      exact ⟨id, InlineConstant.rejoins_dropParents hd.to_reflTransGen⟩
  | foldAggregate =>
    rcases FoldAggregate.apply_cases env name memory p with he | ⟨c, parent, hc, hparent, -, he⟩
    · rw [Rule.apply, he]
      exact hsame
    · rw [Rule.apply, he]
      exact (FoldAggregate.absorbs_of_absorber hparent).forall₂_rejoins (hn rfl) (CtePlan.find?_some hc).1

/-! ## Joins that are lost -/

namespace Cte

/-- the joins name only what the step reads, and link all that they name -/
def Joined (c : Cte) : Prop :=
  c.JoinsRead ∧ ∀ j ∈ c.joins, ∀ x ∈ j.names, ∀ k ∈ c.joins, ∀ y ∈ k.names, c.Linked (some x) (some y)

theorem joined_of_no_joins (h : c.joins = []) : c.Joined := by
  simp [Joined, JoinsRead, h]

/-- joins with one common side link all that they name -/
theorem joined_of_hub (hub : String) (hread : c.JoinsRead)
    (h : ∀ j ∈ c.joins, ∃ right kind keys, j = .base (some hub) right kind keys) : c.Joined := by
  have hlinked : ∀ j ∈ c.joins, ∀ x ∈ j.names, c.Linked (some hub) (some x) := by
    intro j hj x hx
    obtain ⟨right, kind, keys, rfl⟩ := h j hj
    rcases List.mem_cons.1 hx with rfl | hx
    · exact .refl _
    · rw [List.mem_singleton.1 hx]
      exact .rel _ _ ⟨_, hj, .base⟩
  exact ⟨hread, fun j hj x hx k hk y hy => (hlinked j hj x hx).symm.trans _ _ _ (hlinked k hk y hy)⟩

theorem eq_of_linked_of_no_joins (hnone : c.joins = []) (h : c.Linked a b) : a = b := by
  induction h with
  | rel _ _ hlinks =>
    obtain ⟨j, hj, -⟩ := hlinks
    rw [hnone] at hj
    cases hj
  | refl => rfl
  | symm _ _ _ ih => exact ih.symm
  | trans _ _ _ _ _ ih ih' => exact ih.trans ih'

end Cte

/-- a step that reads one column of a table of its own -/
def tableStep (name column : String) : Cte :=
  CtePlan.plainStep name .select [] [.ofColumns (name ++ "_table") [.bind column column] []]
    [("local." ++ column, [name ++ "_table"])] ["local." ++ column]

/-- rows on a list, joined to the list, which the root reads for its condition only -/
def joinedToList : CtePlan :=
  let listed : Condition := .membership (.concept "local.x") .isIn "local.vip"
  ⟨[{ tableStep "rows" "x" with condition := some listed }, tableStep "vips" "vip",
    { CtePlan.plainStep "root" .merge ["rows", "vips"] [] [("local.x", ["rows"])] ["local.x"] with
      joins := [.base (some "rows") "vips" .full []], condition := some listed }], "root"⟩

/-- a constant, and columns of two tables -/
def oneConstant : Environment :=
  { concepts := SortedMap.ofList [("local.k", .constant "k" .integer (.integer 1)), ("local.x", .key "x" .integer),
      ("local.y", .key "y" .integer)]
    datasources := ∅ }

/-- two steps and a constant, joined as given -/
def withConstant (joins : List CteJoin) : CtePlan :=
  ⟨[CtePlan.plainStep "constants" .constant [] [] [("local.k", [])] ["local.k"], tableStep "left" "x",
    tableStep "right" "y",
    { CtePlan.plainStep "root" .merge ["constants", "left", "right"] []
        [("local.k", ["constants"]), ("local.x", ["left"]), ("local.y", ["right"])]
        ["local.k", "local.x", "local.y"] with joins }], "root"⟩

/-- the joins of two steps on a constant -/
def onConstant : List CteJoin := [.base (some "constants") "left" .full [], .base (some "constants") "right" .full []]

/-- a join is left on a list that is not read any more, and two steps that were joined through a constant are no longer
joined at all -/
theorem joins_lost :
    (∃ q, Rule.dropPredicate.Applies .empty {} joinedToList q ∧ (∀ c ∈ joinedToList.ctes, c.Joined) ∧
      ∃ d ∈ q.ctes, ¬ d.JoinsRead) ∧
    ∃ q, Rule.inlineConstant.Applies oneConstant {} (withConstant onConstant) q ∧
      (∀ c ∈ (withConstant onConstant).ctes, c.Joined) ∧ ∃ c ∈ (withConstant onConstant).ctes, ∃ d ∈ q.ctes,
        d.name = c.name ∧ "left" ∈ d.parents ∧ "right" ∈ d.parents ∧ c.Linked (some "left") (some "right") ∧
          ¬ d.Linked (some "left") (some "right") := by
  constructor
  · refine ⟨_, ⟨"root", {}, rfl⟩, ?_, by decide +kernel⟩
    iterate 2 refine List.forall_mem_cons.2 ⟨Cte.joined_of_no_joins rfl, ?_⟩
    exact List.forall_mem_singleton.2 (Cte.joined_of_hub "rows" (by decide +kernel) (by simp))
  · have hjoined : ∀ c ∈ (withConstant onConstant).ctes, c.Joined := by
      iterate 3 refine List.forall_mem_cons.2 ⟨Cte.joined_of_no_joins rfl, ?_⟩
      rw [List.forall_mem_singleton]
      exact Cte.joined_of_hub "constants" (by decide +kernel) (by simp [onConstant])
    obtain ⟨c, hc, hname, hjoins⟩ : ∃ c ∈ (withConstant onConstant).ctes, c.name = "root" ∧ c.joins = onConstant :=
      ⟨_, List.mem_of_getLast? rfl, rfl, rfl⟩
    have hleft : ((Rule.inlineConstant.apply {} oneConstant "root" {} (withConstant onConstant)).plan.find? "root").map
        (fun d => (d.parents, d.joins)) = some (["left", "right"], []) := by decide +kernel
    obtain ⟨d, hd, he⟩ := Option.map_eq_some_iff.1 hleft
    obtain ⟨hparents, hnone⟩ := Prod.mk.inj he
    obtain ⟨hmem, hdname⟩ := CtePlan.find?_some hd
    refine ⟨_, ⟨"root", {}, rfl⟩, hjoined, c, hc, d, hmem, hdname.trans hname.symm, by simp [hparents],
      by simp [hparents], ?_, fun hlinked => ?_⟩
    · have hall := (hjoined c hc).2
      rw [hjoins] at hall
      exact hall _ List.mem_cons_self _ (by decide) _ (List.mem_cons_of_mem _ List.mem_cons_self) _ (by decide)
    · exact absurd (Cte.eq_of_linked_of_no_joins hnone hlinked) (by decide)

/-- a grouping of rows, joined to another step -/
def joinedTotals : CtePlan :=
  ⟨[tableStep "rows" "x", tableStep "other" "y",
    CtePlan.plainStep "totals" .group ["rows"] [] [("local.x", ["rows"])] ["local.x"],
    { CtePlan.plainStep "root" .merge ["totals", "other"] [] [("local.x", ["totals"]), ("local.y", ["other"])]
        ["local.x", "local.y"] with joins := [.base (some "totals") "other" .full []] }], "root"⟩

/-- the joins of two steps, and of a constant on one of them -/
def besideConstant : List CteJoin := [.base (some "left") "right" .full [], .base (some "left") "constants" .full []]

/-- a constant at the end of a join leaves the others joined; so do totals that are folded into the rows -/
theorem Rule.joins_kept_leaf :
    (∃ q, Rule.inlineConstant.Applies oneConstant {} (withConstant besideConstant) q ∧
      ∃ d ∈ q.ctes, d.parents = ["left", "right"] ∧ d.JoinsRead ∧ d.Linked (some "left") (some "right")) ∧
    ∃ q, Rule.foldAggregate.Applies .empty {} joinedTotals q ∧ ∃ d ∈ q.ctes, d.parents = ["rows", "other"] ∧
      d.joins = [.base (some "rows") "other" .full []] ∧ d.JoinsRead ∧
      ∃ ρ : String → String, ρ "other" = "other" ∧ d.Linked (some (ρ "totals")) (some "other") := by
  constructor
  · have happlies : Rule.inlineConstant.Applies oneConstant {} (withConstant besideConstant) _ := ⟨"root", {}, rfl⟩
    obtain ⟨c, d, hd, ⟨ρ, h⟩, hcparents, hdparents, hjoins, hread⟩ : ∃ c d, d ∈ _ ∧ (∃ ρ, Cte.Rejoins _ _ c d ρ) ∧
        c.parents = ["constants", "left", "right"] ∧ d.parents = ["left", "right"] ∧ c.joins = besideConstant ∧
        c.JoinsRead :=
      ⟨_, _, List.get_mem _ _, (Rule.joins_kept (fun he => absurd he (by decide)) happlies).get (i := 3)
        (by decide +kernel) (by decide +kernel), by decide +kernel, by decide +kernel, by decide +kernel,
        by decide +kernel⟩
    have hgone : ∀ x, c.Detached d x → x = "constants" := by
      intro x ⟨hx, hunread⟩
      rw [hcparents] at hx
      rw [hdparents] at hunread
      simp only [List.mem_cons, List.not_mem_nil, or_false] at hx hunread
      exact hx.resolve_right hunread
    have hleaf : ∀ j ∈ c.joins, ∀ j' ∈ c.joins, "constants" ∈ j.names → "constants" ∈ j'.names → j = j' := by
      rw [hjoins]
      decide +kernel
    have hlinked : c.Linked (some "left") (some "right") := by
      refine .rel _ _ ⟨.base (some "left") "right" .full [], ?_, .base⟩
      rw [hjoins]
      exact List.mem_cons_self
    refine ⟨_, happlies, d, hd, hdparents, (h.reads hread).2 fun he => absurd he (by decide), ?_⟩
    refine h.leaves rfl (fun x hx => hgone x hx ▸ hleaf) _ _ (fun x hx hgone' => ?_) (fun x hx hgone' => ?_) hlinked
    · obtain rfl : "left" = x := Option.some.inj hx
      exact absurd (hgone _ hgone') (by decide)
    · obtain rfl : "right" = x := Option.some.inj hx
      exact absurd (hgone _ hgone') (by decide)
  · have happlies : Rule.foldAggregate.Applies .empty {} joinedTotals _ := ⟨"totals", {}, rfl⟩
    refine ⟨_, happlies, ?_⟩
    obtain ⟨ρ, h⟩ := (Rule.joins_kept (fun _ => by decide +kernel) happlies).get (i := 3) (by decide +kernel)
      (by decide +kernel)
    have hfixed : ρ "other" = "other" := by
      by_contra hne
      exact (h.moved _ hne).1.2 (by decide +kernel)
    have hlinked := h.links (by decide) (some "totals") (some "other")
      (.rel _ _ ⟨.base (some "totals") "other" .full [], List.mem_cons_self, .base⟩)
    rw [Option.map_some, Option.map_some, hfixed] at hlinked
    exact ⟨_, List.get_mem _ _, by decide +kernel, by decide +kernel,
      (h.reads (by decide +kernel)).2 fun he => absurd he (by decide), ρ, hfixed, hlinked⟩

end SemanticPlanner
