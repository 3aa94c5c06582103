/-
Whether the columns that an optimized plan reads are there.

  NamesApart          a name that a step reads stands for one thing
  Supplied            names are apart, and what a live step reads is there
  Supplied.change     a change of one step keeps that if the changed step still finds what it reads
  Supplied.fold       so does folding an aggregate into its parent
  optimizeBy_wellFormed
                      an optimized plan is well formed, listed parents first, without unread steps; and closed

Steps that are no longer live are left as they are until the plan is pruned, so only live ones keep finding what they
read. Every rule renames sources by name alone. This is why the names have to be apart: a source of a reader that is
its own datasource, or an expansion of its own, would be renamed with that of a step of the same name.
-/
import SemanticPlanner.Proofs.Columns
import SemanticPlanner.Proofs.Tracking

namespace SemanticPlanner

variable {env : Environment} {s : OptimizerSettings} {p q : CtePlan} {c d parent : Cte} {n x y : String}
variable {sort : Topological.Sorting}
  {g : Cte → Cte} {r : Rule}

/-! ## What a step reads -/

namespace Cte

theorem bareDatasource_some {b : Datasource} (h : c.bareDatasource = some b) : c.datasources = [b] := by
  unfold bareDatasource at h
  split at h
  · rename_i hbare
    simp only [isBare, Bool.and_eq_true, beq_iff_eq] at hbare
    obtain ⟨a, ha⟩ := List.length_eq_one_iff.1 hbare.1.2
    rw [ha] at h ⊢
    exact congrArg (· :: []) (Option.some.inj h)
  · cases h

theorem unnest_mem_rename {old new : String} {l : List CteJoin} {j : UnnestJoin} :
    .unnest j ∈ l.map (CteJoin.rename old new) ↔ .unnest j ∈ l := by
  rw [List.mem_map]
  constructor
  · rintro ⟨k, hk, he⟩
    cases k with
    | base => cases he
    | unnest j' =>
      cases he
      exact hk
  · exact fun h => ⟨_, h, rfl⟩

/-- a step that reads from no less finds what was found -/
theorem Reads.of_sources {steps : List Cte} (h : c.Reads steps x y) (hown : ∀ a ∈ c.datasources, a ∈ d.datasources)
    (hexpands : ∀ j, CteJoin.unnest j ∈ c.joins → .unnest j ∈ d.joins) (hparents : y ∈ c.parents → y ∈ d.parents) :
    d.Reads steps x y := by
  cases h with
  | datasource ha he hx => exact .datasource (hown _ ha) he hx
  | step hy he hn hx => exact .step (hparents hy) he hn hx
  | expansion hj hl hx => exact .expansion (hexpands _ hj) hl hx

/-- a step finds what was found as long as what it reads offers no less -/
theorem Reads.of_steps {steps steps' : List Cte} (h : c.Reads steps x y)
    (hsteps : y ∈ c.parents → ∀ e ∈ steps, e.name = y → x ∈ e.outputs → ∃ e' ∈ steps', e'.name = y ∧ x ∈ e'.outputs) :
    c.Reads steps' x y := by
  cases h with
  | datasource ha he hx => exact .datasource ha he hx
  | step hy he hn hx =>
    obtain ⟨e', he', hn', hx'⟩ := hsteps hy _ he hn hx
    exact .step hy he' hn' hx'
  | expansion hj hl hx => exact .expansion hj hl hx

end Cte

/-! ## Names that are apart -/

namespace CtePlan

/-- a name that a step reads stands for one thing: datasources of one identifier have the same columns, a step named
like a datasource reads a datasource of that name, and no step is named like an expansion -/
structure NamesApart (p : CtePlan) : Prop where
  datasources : ∀ c ∈ p.ctes, ∀ c' ∈ p.ctes, ∀ d ∈ c.datasources, ∀ d' ∈ c'.datasources,
    d.identifier = d'.identifier → ∀ x, d.provides x = true → d'.provides x = true
  steps : ∀ c ∈ p.ctes, ∀ c' ∈ p.ctes, ∀ d ∈ c'.datasources, d.identifier = c.name →
    ∃ d' ∈ c.datasources, d'.identifier = c.name
  expansions : ∀ c ∈ p.ctes, ∀ c' ∈ p.ctes, ∀ j, .unnest j ∈ c'.joins → j.label ≠ c.name

/-- a step that takes the place of another keeps its datasources and expansions, and any new datasource is one that the
plan reads -/
structure KeepsSources (p : CtePlan) (c d : Cte) : Prop where
  own : ∀ a ∈ c.datasources, a ∈ d.datasources
  added : ∀ a ∈ d.datasources, ∃ e ∈ p.ctes, a ∈ e.datasources
  expansions : ∀ j, CteJoin.unnest j ∈ d.joins ↔ .unnest j ∈ c.joins

theorem KeepsSources.refl (h : c ∈ p.ctes) : p.KeepsSources c c :=
  ⟨fun _ ha => ha, fun _ ha => ⟨c, h, ha⟩, fun _ => Iff.rfl⟩

theorem NamesApart.edit (h : p.NamesApart) (he : p.Edits q g) (hk : ∀ c ∈ p.ctes, p.KeepsSources c (g c)) :
    q.NamesApart := by
  refine ⟨?_, ?_, ?_⟩
  · intro _ hc _ hc' d hd d' hd'
    obtain ⟨c, hmem, rfl⟩ := he.mem.1 hc
    obtain ⟨c', hmem', rfl⟩ := he.mem.1 hc'
    obtain ⟨e, he, hde⟩ := (hk c hmem).added d hd
    obtain ⟨e', he', hde'⟩ := (hk c' hmem').added d' hd'
    exact h.datasources e he e' he' d hde d' hde'
  · intro _ hc _ hc' d hd hname
    obtain ⟨c, hmem, rfl⟩ := he.mem.1 hc
    obtain ⟨c', hmem', rfl⟩ := he.mem.1 hc'
    obtain ⟨e, hread, hde⟩ := (hk c' hmem').added d hd
    rw [he.name c hmem] at hname ⊢
    obtain ⟨d', hd', hn⟩ := h.steps c hmem e hread d hde hname
    exact ⟨d', (hk c hmem).own d' hd', hn⟩
  · intro _ hc _ hc' j hj
    obtain ⟨c, hmem, rfl⟩ := he.mem.1 hc
    obtain ⟨c', hmem', rfl⟩ := he.mem.1 hc'
    rw [he.name c hmem]
    exact h.expansions c hmem c' hmem' j (((hk c' hmem').expansions j).1 hj)

theorem NamesApart.of_mem (h : p.NamesApart) (hq : ∀ c ∈ q.ctes, c ∈ p.ctes) : q.NamesApart :=
  ⟨fun c hc c' hc' => h.datasources c (hq c hc) c' (hq c' hc'), fun c hc c' hc' => h.steps c (hq c hc) c' (hq c' hc'),
    fun c hc c' hc' => h.expansions c (hq c hc) c' (hq c' hc')⟩

/-- names are apart, and what a live step maps it reads -/
structure Supplied (p : CtePlan) : Prop where
  apart : p.NamesApart
  closed : ∀ c ∈ p.ctes, p.Live c.name → ∀ x y, c.Maps x y → c.Reads p.ctes x y

theorem Closed.supplied (hc : p.Closed) (ha : p.NamesApart) : p.Supplied := ⟨ha, fun c h _ => hc c h⟩

/-! ## One step changed -/

/-- an edit of one step keeps a plan supplied if the edited step offers no less, and finds what it reads -/
theorem Supplied.edit (hp : p.WellFormed) (h : p.Supplied) {f : Cte → Cte} (hc : p.find? n = some c)
    (he : p.Edits q fun e => if e.name = n then f e else e) (hk : p.KeepsSources c (f c))
    (houtputs : ∀ x ∈ c.outputs, x ∈ (f c).outputs)
    (hreads : (∀ x y, c.Maps x y → c.Reads p.ctes x y) → ∀ x y, (f c).Maps x y → (f c).Reads p.ctes x y) :
    q.Supplied := by
  obtain ⟨hmem, hcn⟩ := find?_some hc
  have hfound : ∀ e ∈ p.ctes, e.name = n → e = c :=
    fun e he hen => eq_of_name hp.distinct he hmem (hen.trans hcn.symm)
  refine ⟨h.apart.edit he fun e hmem => ?_, fun e hq hlive x y hm => ?_⟩
  · split
    · rename_i hen
      exact hfound e hmem hen ▸ hk
    · exact .refl hmem
  · obtain ⟨e, hmem, rfl⟩ := he.mem.1 hq
    have hlive' : p.Live e.name := he.name e hmem ▸ he.live hlive
    have hread : (if e.name = n then f e else e).Reads p.ctes x y := by
      split at hm
      · rename_i hen
        rw [if_pos hen]
        rw [hfound e hmem hen] at hm hlive' ⊢
        exact hreads (h.closed c (find?_some hc).1 hlive') x y hm
      · rename_i hen
        rw [if_neg hen]
        exact h.closed e hmem hlive' x y hm
    -- what is read in `p` is read in `q`, where the steps offer no less
    refine hread.of_steps fun _ t ht hty hx => ⟨_, he.mem.2 ⟨t, ht, rfl⟩, (he.name t ht).trans hty, ?_⟩
    split
    · rename_i htn
      rw [hfound t ht htn] at hx ⊢
      exact houtputs x hx
    · exact hx

/-- **a change of one step keeps a plan supplied** if the changed step finds what it reads -/
theorem Supplied.change (hp : p.WellFormed) (h : p.Supplied) {f : Cte → Cte} (hc : p.Changes q n c f)
    (hk : p.KeepsSources c (f c))
    (hreads : (∀ x y, c.Maps x y → c.Reads p.ctes x y) → ∀ x y, (f c).Maps x y → (f c).Reads p.ctes x y) :
    q.Supplied :=
  h.edit hp hc.found (hc.edits hp) hk (fun _ hx => hc.alike.outputs ▸ hx) hreads

end CtePlan

/-! ## The rules -/

/-- a parent found replaceable has the columns that are read from it -/
theorem InlineDatasource.provides_of_isReplaceable {b : Datasource} (h : isReplaceable c parent = true)
    (hb : parent.bareDatasource = some b) (hm : c.Maps x parent.name) : b.provides x = true := by
  obtain ⟨names, hnames, hy⟩ := hm
  unfold isReplaceable at h
  rw [hb] at h
  simp only [Bool.and_eq_true, List.all_eq_true, List.mem_filter, List.contains_iff_mem] at h
  exact h.1.2 (x, names) ⟨hnames, hy⟩

theorem InlineDatasource.Inlined.keepsSources (hc : c ∈ p.ctes) (h : Inlined p c d) : p.KeepsSources c d := by
  induction h with
  | none => exact .refl hc
  | @next d e parent _ hparent _ _ he ih =>
    obtain ⟨b, hb, h⟩ := Cte.inlineParent_some he
    refine ⟨fun t ht => h.own t (ih.own t ht), fun t ht => ?_, fun j => ?_⟩
    · rcases h.added t ht with ht | rfl
      · exact ih.added t ht
      · refine ⟨parent, hparent, ?_⟩
        rw [Cte.bareDatasource_some hb]
        exact List.mem_cons_self
    · rw [h.joins, Cte.unnest_mem_rename]
      exact ih.expansions j

/-- a step with parents inlined finds what it reads: under its datasources' names, what it read from the parents -/
theorem InlineDatasource.Inlined.reads (hp : p.NamesApart) (hc : c ∈ p.ctes) (h : Inlined p c d)
    (hclosed : ∀ x y, c.Maps x y → c.Reads p.ctes x y) : ∀ x y, d.Maps x y →
      d.Reads p.ctes x y ∧ (c.Maps x y ∨ ∃ a ∈ d.datasources, a.identifier = y ∧ a.provides x = true) := by
  induction h with
  | none => exact fun x y hm => ⟨hclosed x y hm, Or.inl hm⟩
  | @next d e parent hd hparent hmem hreplaceable he ih =>
    intro x y hm
    have hke : p.KeepsSources c e := (hd.next hparent hmem hreplaceable he).keepsSources hc
    obtain ⟨b, hb, h⟩ := Cte.inlineParent_some he
    obtain ⟨a, ha, hab⟩ := h.there
    have hbare : parent.datasources = [b] := Cte.bareDatasource_some hb
    obtain ⟨names, hnames, hy⟩ := (Cte.maps_mapValues h.sourceMap).1 hm
    obtain ⟨k, hkn, rfl⟩ := List.mem_map.1 hy
    obtain ⟨hread, horigin⟩ := ih x k ⟨names, hnames, hkn⟩
    by_cases hname : k = parent.name
    · rw [if_pos hname]
      -- a datasource of the step has the column under the new name
      have hsource : ∃ t ∈ e.datasources, t.identifier = b.identifier ∧ t.provides x = true := by
        rcases horigin with horigin | ⟨t, ht, htk, hx⟩
        · have hx := provides_of_isReplaceable hreplaceable hb (hname ▸ horigin)
          obtain ⟨o, ho, hao⟩ := hke.added a ha
          have hbmem : b ∈ parent.datasources := hbare ▸ List.mem_cons_self
          exact ⟨a, ha, hab, hp.datasources parent hparent o ho b hbmem a hao hab.symm x hx⟩
        · -- the parent is named like a datasource, which is then the one it reads
          obtain ⟨o, ho, hto⟩ := hke.added t (h.own t ht)
          obtain ⟨b', hb', hbn⟩ := hp.steps parent hparent o ho t hto (htk.trans hname)
          rw [hbare, List.mem_singleton] at hb'
          exact ⟨t, h.own t ht, by rw [htk, hname, ← hbn, hb'], hx⟩
      obtain ⟨t, ht, hti, hx⟩ := hsource
      exact ⟨.datasource ht hti hx, Or.inr ⟨t, ht, hti, hx⟩⟩
    · rw [if_neg hname]
      refine ⟨?_, horigin.imp_right fun ⟨t, ht, hx⟩ => ⟨t, h.own t ht, hx⟩⟩
      refine hread.of_sources h.own (fun j hj => ?_) fun hk => h.parents.2 ⟨hk, hname⟩
      rw [h.joins]
      exact Cte.unnest_mem_rename.2 hj

/-- writing constants changes nothing but that some addresses are no longer read -/
theorem InlineConstant.Written.narrows (h : Relation.ReflTransGen (Written env) c d) :
    d.datasources = c.datasources ∧ d.joins = c.joins ∧ d.parents = c.parents ∧ ∀ x y, d.Maps x y → c.Maps x y := by
  induction h with
  | refl => exact ⟨rfl, rfl, rfl, fun _ _ hm => hm⟩
  | tail _ hw ih =>
    cases hw with
    | @value address v hv =>
      obtain ⟨hown, hjoins, hparents, hmaps⟩ := ih
      refine ⟨hown, hjoins, hparents, fun x y hm => hmaps x y ?_⟩
      rw [Cte.maps_iff] at hm ⊢
      obtain ⟨names, hnames, hy⟩ := hm
      dsimp only at hnames
      rw [SortedMap.get?_insert] at hnames
      split at hnames
      · cases hnames
        cases hy
      · exact ⟨names, hnames, hy⟩

theorem InlineConstant.dropParents_reads {steps : List Cte} {constants : List String} (hm : c.Maps x y)
    (h : c.Reads steps x y) : (dropParents (unread constants c) c).Reads steps x y := by
  refine h.of_sources (fun _ ha => ha) (fun j hj => ?_) fun hy => ?_
  · exact List.mem_filter.2 ⟨hj, rfl⟩
  · refine List.mem_filter.2 ⟨hy, ?_⟩
    obtain ⟨names, hnames, hmem⟩ := hm
    have hread : (c.sourceMap.values.any fun l => l.contains y) = true :=
      List.any_eq_true.2 ⟨names, List.mem_map_of_mem hnames, List.contains_iff_mem.2 hmem⟩
    rw [unread, Bool.not_eq_true', ← Bool.not_eq_true, List.contains_iff_mem, List.mem_filter, hread]
    simp

theorem PushPredicate.maps_filterBy {term : Condition} (hm : (filterBy term c).Maps x y) :
    c.Maps x y ∨ ∃ b ∈ c.datasources, b.identifier = y ∧ b.provides x = true := by
  rw [Cte.maps_iff] at hm ⊢
  obtain ⟨names, hnames, hy⟩ := hm
  rcases SortedMap.get?_foldl_insert (k := Prod.fst) (v := fun e => [e.2]) hnames with h | ⟨e, he, rfl, rfl⟩
  · exact Or.inl ⟨names, h, hy⟩
  · refine Or.inr ?_
    unfold borrowed at he
    split at he
    · cases he
    · rename_i b hb
      split at he
      · rename_i hall
        obtain ⟨k, hk, rfl⟩ := List.mem_map.1 he
        rw [List.mem_singleton] at hy
        refine ⟨b, ?_, hy.symm, List.all_eq_true.1 hall k (List.mem_of_mem_filter hk)⟩
        rw [Cte.bareDatasource_some hb]
        exact List.mem_cons_self
      · cases he

theorem PushPredicate.maps_dropCondition {unread : List String} :
    (dropCondition unread c).Maps x y ↔ c.Maps x y ∧ y ∉ unread := by
  rw [Cte.maps_mapValues (f := fun _ l => l.filter fun k => !unread.contains k) rfl]
  simp only [List.mem_filter, Bool.not_eq_true', List.contains_eq_mem, decide_eq_false_iff_not]
  constructor
  · rintro ⟨names, hnames, hy, hn⟩
    exact ⟨⟨names, hnames, hy⟩, hn⟩
  · rintro ⟨⟨names, hnames, hy⟩, hn⟩
    exact ⟨names, hnames, hy, hn⟩

namespace FoldAggregate

theorem maps_absorb (hm : (absorb c parent).Maps x y) : parent.Maps x y := by
  rw [Cte.maps_iff] at hm ⊢
  obtain ⟨names, hnames, hy⟩ := hm
  rcases SortedMap.get?_foldl_insert (k := id) (v := fun _ => ([] : List String)) hnames with h | ⟨_, _, _, rfl⟩
  · exact ⟨names, h, hy⟩
  · cases hy

theorem Absorbs.no_datasources (ha : Absorbs env p c parent) : c.datasources = [] := by
  have h := ha.foldable
  simp only [isFoldable, Bool.and_eq_true] at h
  simpa using h.2

/-- nothing reads a folded aggregate any more -/
theorem not_live_fold (hp : p.WellFormed) (ha : Absorbs env p c parent) : ¬ (fold p c parent).Live c.name := by
  have hne := ha.ne hp
  intro hl
  rcases Relation.ReflTransGen.cases_tail hl with hroot | ⟨m, -, e, he, -, hread⟩
  · change c.name = (if p.root = c.name then parent.name else p.root) at hroot
    split at hroot
    · exact hne hroot
    · rename_i h
      exact h hroot.symm
  · obtain ⟨e, hmem, rfl⟩ := (fold_edits hp ha).mem.1 he
    rcases (mem_parents_refit hp ha hmem).1 hread with ⟨h, -⟩ | ⟨-, h⟩
    · exact hne h
    · exact h rfl

theorem keepsSources_refit (hp : p.WellFormed) (ha : Absorbs env p c parent) {e : Cte} (he : e ∈ p.ctes) :
    p.KeepsSources e (refit c parent e) := by
  unfold refit
  split
  · rename_i hname
    rw [CtePlan.eq_of_name hp.distinct he (CtePlan.find?_some ha.found).1 hname]
    exact ⟨fun _ h => h, fun t ht => ⟨parent, (CtePlan.find?_some ha.found).1, ht⟩, fun _ => Iff.rfl⟩
  · split
    · exact ⟨fun _ h => h, fun t ht => ⟨e, he, ht⟩, fun _ => Cte.unnest_mem_rename⟩
    · exact .refl he

/-- an aggregate is read as a step, never under a datasource's or an expansion's name -/
theorem reads_aggregate (hp : p.WellFormed) (h : p.NamesApart) (hc : c ∈ p.ctes) (ha : Absorbs env p c parent) {e : Cte}
    (he : e ∈ p.ctes) (hread : e.Reads p.ctes x c.name) : c.name ∈ e.parents ∧ x ∈ c.outputs := by
  cases hread with
  | datasource hd hname _ =>
    obtain ⟨d, hown, -⟩ := h.steps c hc e he _ hd hname
    rw [ha.no_datasources] at hown
    cases hown
  | step hmem ht hname hx => exact ⟨hmem, CtePlan.eq_of_name hp.distinct ht hc hname ▸ hx⟩
  | expansion hj hname _ => exact absurd hname (h.expansions c hc e he _ hj)

/-- **folding an aggregate keeps a plan supplied** -/
theorem fold_supplied (hp : p.WellFormed) (h : p.Supplied) (hc : c ∈ p.ctes) (ha : Absorbs env p c parent) :
    (fold p c parent).Supplied := by
  have hedit := fold_edits hp ha
  have hparent := (CtePlan.find?_some ha.found).1
  refine ⟨h.apart.edit hedit fun e he => keepsSources_refit hp ha he, fun e' he' hlive x y hm => ?_⟩
  obtain ⟨e, he, rfl⟩ := hedit.mem.1 he'
  rw [hedit.name e he] at hlive
  have hclosed := h.closed e he (hedit.live hlive)
  have hec : e.name ≠ c.name := fun heq => not_live_fold hp ha (heq ▸ hlive)
  -- a live step other than the aggregate does not read the parent, so what it reads offers the same as before
  have hsame : ∀ k, k ∈ e.parents → ∀ t ∈ p.ctes, t.name = k → ∀ x ∈ t.outputs,
      ∃ t' ∈ (fold p c parent).ctes, t'.name = k ∧ x ∈ t'.outputs := by
    intro k hk t ht htk x hx
    refine ⟨_, hedit.mem.2 ⟨t, ht, rfl⟩, (hedit.name t ht).trans htk, ?_⟩
    have htp : t.name ≠ parent.name := by
      intro heq
      exact hec ((ha.read e.name).1 ⟨e, he, rfl, heq ▸ htk ▸ hk⟩)
    rw [refit, if_neg htp]
    split
    · exact hx
    · exact hx
  have hkeep : ∀ k, k ≠ c.name → e.Reads p.ctes x k → (refit c parent e).Reads (fold p c parent).ctes x k := by
    intro k hk hread
    have hkept := keepsSources_refit hp ha he
    have hlater : e.Reads (fold p c parent).ctes x k := hread.of_steps fun hmem t ht hn hx => hsame k hmem t ht hn x hx
    exact hlater.of_sources hkept.own (fun j => (hkept.expansions j).2) fun hmem =>
      (mem_parents_refit hp ha he).2 (Or.inr ⟨hmem, hk⟩)
  have hstep := fun x => reads_aggregate hp h.apart hc ha he (x := x)
  by_cases hname : e.name = parent.name
  · have hself := CtePlan.eq_of_name hp.distinct he hparent hname
    have hmaps : e.Maps x y := by
      rw [refit, if_pos hname, hself] at hm
      exact hself ▸ maps_absorb hm
    refine hkeep y (fun hy => ?_) (hclosed x y hmaps)
    exact ha.not_mem hp (hself ▸ (hstep x (hy ▸ hclosed x y hmaps)).1)
  · by_cases hreads : c.name ∈ e.parents
    · rw [refit, if_neg hname, if_pos hreads, Cte.maps_replaceParent] at hm
      rcases hm with ⟨hm, rfl⟩ | ⟨hm, hy⟩
      · -- what the aggregate gave, its parent gives now
        refine .step ((mem_parents_refit hp ha he).2 (Or.inl ⟨rfl, hreads⟩)) (hedit.mem.2 ⟨parent, hparent, rfl⟩)
          (hedit.name parent hparent) ?_
        rw [refit, if_pos rfl]
        exact (hstep x (hclosed x _ hm)).2
      · exact hkeep y hy (hclosed x y hm)
    · have hmaps : e.Maps x y := by rwa [refit, if_neg hname, if_neg hreads] at hm
      refine hkeep y (fun hy => ?_) (hclosed x y hmaps)
      exact hreads (hstep x (hy ▸ hclosed x y hmaps)).1

end FoldAggregate

namespace CtePlan

/-! ## The whole optimizer -/

theorem rewrite_supplied (hp : p.WellFormed) (h : p.Supplied) (hr : Rewrite env r p q) : q.Supplied := by
  cases hr with
  | @inline _ _ c d hc hd =>
    have hmem := (find?_some hc).1
    refine h.change hp (Rewrite.inline_changes hc hd) (hd.keepsSources hmem) fun hclosed x y hm => ?_
    exact (hd.reads h.apart hmem hclosed x y hm).1
  | @push _ _ c term _ hc =>
    have hk : p.KeepsSources c (PushPredicate.filterBy term c) :=
      ⟨fun _ ha => ha, fun _ ha => ⟨c, (find?_some hc).1, ha⟩, fun _ => Iff.rfl⟩
    refine h.change hp (Rewrite.push_changes hc term) hk fun hclosed x y hm => ?_
    rcases PushPredicate.maps_filterBy hm with hm | ⟨b, hb, hy, hx⟩
    · exact (hclosed x y hm).of_sources (fun _ ha => ha) (fun _ hj => hj) fun hy => hy
    · exact .datasource hb hy hx
  | @drop _ _ c _ unread hc =>
    have hk : p.KeepsSources c (PushPredicate.dropCondition unread c) :=
      ⟨fun _ ha => ha, fun _ ha => ⟨c, (find?_some hc).1, ha⟩, fun _ => Iff.rfl⟩
    refine h.change hp (Rewrite.drop_changes hc unread) hk fun hclosed x y hm => ?_
    obtain ⟨hm, hy⟩ := PushPredicate.maps_dropCondition.1 hm
    refine (hclosed x y hm).of_sources (fun _ ha => ha) (fun _ hj => hj) fun hmem => ?_
    exact List.mem_filter.2 ⟨hmem, by simpa using hy⟩
  | @write _ _ c d hc hd =>
    obtain ⟨hown, hjoins, hparents, hmaps⟩ := InlineConstant.Written.narrows hd
    refine h.change hp (Rewrite.write_changes hc hd _)
      ⟨fun a ha => hown ▸ ha, fun a ha => ⟨c, (find?_some hc).1, hown ▸ ha⟩, fun j => ?_⟩ fun hclosed x y hm => ?_
    · rw [← hjoins]
      exact ⟨fun hj => List.mem_of_mem_filter hj, fun hj => List.mem_filter.2 ⟨hj, rfl⟩⟩
    · have hread : d.Reads p.ctes x y := (hclosed x y (hmaps x y hm)).of_sources (fun a ha => hown ▸ ha)
        (fun j hj => hjoins ▸ hj) fun hy => hparents ▸ hy
      exact InlineConstant.dropParents_reads hm hread
  | fold hc ha => exact FoldAggregate.fold_supplied hp h (find?_some hc).1 (FoldAggregate.absorbs_of_absorber ha)

theorem returns_supplied (hp : p.WellFormed) (h : p.Supplied) (hr : Returns env p q) : q.Supplied := by
  obtain ⟨n, hn, rfl⟩ := hr
  obtain ⟨root, parent, hy, rfl⟩ := yields_of_directParent hn
  have hk : p.KeepsSources parent (absorbRoot root parent) :=
    ⟨fun _ ha => ha, fun _ ha => ⟨parent, (find?_some hy.found).1, ha⟩, fun _ => Iff.rfl⟩
  refine h.edit hp hy.found (hy.edits hp) hk (fun x hx => ?_) fun hclosed x y hm => ?_
  · by_cases hshown : x ∈ root.visible
    · exact List.mem_append_left _ hshown
    · exact List.mem_append_right _ (List.mem_filter.2 ⟨hx, by simpa using hshown⟩)
  · exact (hclosed x y hm).of_sources (fun _ ha => ha) (fun _ hj => hj) fun hy => hy

/-- a pruned plan is closed: what a live step reads is live -/
theorem closed_prune (hp : p.WellFormed) (h : p.Supplied) : p.prune.Closed := by
  intro c hc x y hm
  obtain ⟨hmem, hlive⟩ := mem_prune.1 hc
  rw [mem_reachable hp] at hlive
  refine (h.closed c hmem hlive x y hm).of_steps fun hy e he hn hx => ?_
  exact ⟨e, mem_prune.2 ⟨he, (mem_reachable hp).2 (hn ▸ hlive.tail ⟨c, hmem, rfl, hy⟩)⟩, hn, hx⟩

theorem Relists.closed (h : p.Relists q) (hc : p.Closed) : q.Closed := by
  intro c hmem x y hm
  exact (hc c (h.mem.1 hmem) x y hm).of_steps fun _ e he hn hx => ⟨e, h.mem.2 he, hn, hx⟩

/-- a plan that has no steps but those of another one, and is supplied if that one is closed and its names are apart -/
structure Descends (p q : CtePlan) : Prop where
  names : ∀ n ∈ q.names, n ∈ p.names
  supplied : p.NamesApart → p.Closed → q.Supplied

theorem Descends.edit {b : CtePlan} (h : b.Descends p) (he : p.Edits q g) (hs : p.Supplied → q.Supplied) :
    b.Descends q :=
  ⟨fun n hn => h.names n (he.names ▸ hn), fun ha hc => hs (h.supplied ha hc)⟩

theorem Descends.prune {b : CtePlan} (h : b.Descends p) (hp : p.WellFormed) : b.Descends p.prune := by
  refine ⟨fun n hn => ?_, fun ha hc => ?_⟩
  · obtain ⟨c, hmem, rfl⟩ := mem_names.1 hn
    exact h.names c.name (name_mem (mem_prune.1 hmem).1)
  · have hs := h.supplied ha hc
    exact (closed_prune hp hs).supplied (hs.apart.of_mem fun c hmem => (mem_prune.1 hmem).1)

theorem Descends.relist {b : CtePlan} (h : b.Descends p) (hl : p.Relists q) : b.Descends q := by
  refine ⟨fun n hn => ?_, fun ha hc => ⟨(h.supplied ha hc).apart.of_mem fun c => hl.mem.1, ?_⟩⟩
  · exact h.names n ((hl.perm.map Cte.name).mem_iff.1 hn)
  · intro c hmem hlive x y hm
    exact ((h.supplied ha hc).closed c (hl.mem.1 hmem) (hl.live.1 hlive) x y hm).of_steps
      fun _ e he hn hx => ⟨e, hl.mem.2 he, hn, hx⟩

/-- every plan on the way is well formed and descends from the one that is optimized -/
theorem descends_of_improvesTo {b : CtePlan} (hsort : Topological.IsSort sort) (hp : p.WellFormed)
    (hb : Started env s p b) (h : ImprovesTo sort env s b q) :
    q.WellFormed ∧ p.Descends q := by
  have hself : p.Descends p := ⟨fun _ hn => hn, fun ha hc => hc.supplied ha⟩
  have hstart : b.WellFormed ∧ p.Descends b := by
    cases hb with
    | asGiven => exact ⟨hp, hself⟩
    | returned _ hreturns =>
      obtain ⟨hq, hd⟩ := returned (I := p.Descends) (fun a a' ha hi hr => by
        obtain ⟨g, hg⟩ := hr.edits ha
        exact hi.edit hg fun hs => returns_supplied ha hs hr) hreturns hp hself
      exact ⟨hq.prune, hd.prune hq⟩
  refine improved (I := p.Descends) hsort (fun r a a' _ ha hi hr => ?_) (fun a ha hi => hi.prune ha)
    (fun a a' _ hi hl => hi.relist hl) h hstart.1 hstart.2
  obtain ⟨g, hg⟩ := hr.edits ha
  exact hi.edit hg fun hs => rewrite_supplied ha hs hr

/-- **Optimized plans are well formed.** Optimizing a well-formed plan never finds a cycle. The answer has distinct
names, all of the given plan, and no step that its root does not read; parents stand before their readers, and the root
last, whichever sort lists them. If the given plan is closed and its names are apart, the answer is closed. -/
theorem optimizeBy_wellFormed (hsort : Topological.IsSort sort) (env : Environment) (s : OptimizerSettings)
    (hp : p.WellFormed) :
    (∀ n, optimizeBy sort env s p ≠ .error (.cyclicPlan n)) ∧
      ∀ q, optimizeBy sort env s p = .ok q →
        q.names.Nodup ∧ (∀ n ∈ q.names, n ∈ p.names) ∧ (∀ c ∈ q.ctes, q.Live c.name) ∧ ParentsFirst q.ctes ∧
          (∃ c, q.ctes.getLast? = some c ∧ c.name = q.root) ∧ (p.NamesApart → p.Closed → q.Closed) := by
  constructor
  · intro n he
    rcases optimizeBy_eq_error he with ⟨_, _, h⟩ | ⟨b, r, hb, hr, h⟩
    · cases h
    · obtain ⟨q, hq, -⟩ := reorderBy_eq_ok hsort (descends_of_improvesTo hsort hp hb hr).1.prune
      rw [hq] at h
      cases h
  · intro q hq
    obtain ⟨b, r, hb, hr, hlist⟩ := optimizeBy_eq_ok hq
    obtain ⟨hwell, hdescends⟩ := descends_of_improvesTo hsort hp hb hr
    have hl := relists_of_reorderBy hsort hwell.prune hlist
    have hlive : ∀ c ∈ q.ctes, q.Live c.name := by
      intro c hc
      rw [hl.live, live_prune hwell, ← mem_reachable hwell]
      exact (mem_prune.1 (hl.mem.1 hc)).2
    have hq := hl.wellFormed hwell.prune
    exact ⟨hq.distinct, ((hdescends.prune hwell).relist hl).names, hlive, hl.parentsFirst,
      getLast?_root hq hlive hl.parentsFirst, fun ha hc => hl.closed (closed_prune hwell (hdescends.supplied ha hc))⟩

/-! ## Plans whose names are not apart -/

/-- the test of `Closed` -/
def isClosed (p : CtePlan) : Bool :=
  p.ctes.all fun c => c.sourceMap.toList.all fun e => e.2.all fun y => c.reads p.ctes e.1 y

theorem isClosed_iff : p.isClosed = true ↔ p.Closed := by
  simp only [isClosed, List.all_eq_true, Cte.reads_iff]
  constructor
  · rintro h c hc x y ⟨names, hmem, hy⟩
    exact h c hc (x, names) hmem y hy
  · exact fun h c hc e he y hy => h c hc e.1 y ⟨e.2, he, hy⟩

instance : Decidable p.Closed := decidable_of_iff _ isClosed_iff

/-- a bare step, an aggregate over it, and a root that reads the aggregate and something else -/
def overTotals (root : Cte) : CtePlan :=
  ⟨[plainStep "rows" .select [] [.ofColumns "items" [.bind "x" "x"] ["x"]] [("local.x", ["items"])] ["local.x"],
    plainStep "totals" .group ["rows"] [] [("local.x", ["rows"])] ["local.x"], root], root.name⟩

/-- a datasource is named like the aggregate -/
def namedByDatasource : CtePlan :=
  overTotals (plainStep "root" .select ["totals"] [.ofColumns "totals" [.bind "y" "y"] []]
    [("local.x", ["totals"]), ("local.y", ["totals"])] ["local.x", "local.y"])

/-- an expansion is named like the aggregate -/
def namedByExpansion : CtePlan :=
  overTotals { plainStep "root" .select ["totals"] [] [("local.x", ["totals"]), ("local.y", ["totals"])]
    ["local.x", "local.y"] with joins := [.unnest ⟨["local.y"], "totals"⟩] }

/-- two datasources have one name -/
def namedTwice : CtePlan :=
  ⟨[plainStep "xs" .select [] [.ofColumns "items" [.bind "x" "x"] []] [("local.x", ["items"])] ["local.x"],
    plainStep "ys" .select [] [.ofColumns "items" [.bind "y" "y"] []] [("local.y", ["items"])] ["local.y"],
    plainStep "root" .merge ["xs", "ys"] [] [("local.x", ["xs"]), ("local.y", ["ys"])] ["local.x", "local.y"]], "root"⟩

/-- a plan that was closed and is not once it is optimized, where both were computed -/
theorem exists_opened (hn : p.names.Nodup) (hroot : p.root ∈ p.names)
    (hparents : ∀ c ∈ p.ctes, ∀ m ∈ c.parents, p.names.idxOf m < p.names.idxOf c.name) (hc : p.Closed)
    (h : (optimize env s p).toOption.map isClosed = some false) :
    p.WellFormed ∧ p.Closed ∧ ∃ q, optimize env s p = .ok q ∧ ¬ q.Closed := by
  obtain ⟨q, hq, hopen⟩ := exists_optimized h
  refine ⟨wellFormed_of_idxOf hn hroot hparents, hc, q, hq, fun hclosed => ?_⟩
  rw [isClosed_iff.2 hclosed] at hopen
  cases hopen

/-- where names are not apart, optimizing a closed plan may leave it open -/
theorem sharedNames_left_open :
    (namedByDatasource.WellFormed ∧ namedByDatasource.Closed ∧
      ∃ q, optimize .empty {} namedByDatasource = .ok q ∧ ¬ q.Closed) ∧
    (namedByExpansion.WellFormed ∧ namedByExpansion.Closed ∧
      ∃ q, optimize .empty {} namedByExpansion = .ok q ∧ ¬ q.Closed) ∧
    (namedTwice.WellFormed ∧ namedTwice.Closed ∧ ∃ q, optimize .empty {} namedTwice = .ok q ∧ ¬ q.Closed) := by
  refine ⟨exists_opened ?_ ?_ ?_ ?_ ?_, exists_opened ?_ ?_ ?_ ?_ ?_, exists_opened ?_ ?_ ?_ ?_ ?_⟩
  all_goals decide +kernel

/-- the same aggregate under a root that adds nothing -/
def total : CtePlan := overTotals (plainStep "root" .select ["totals"] [] [("local.x", ["totals"])] ["local.x"])

theorem total_namesApart : total.NamesApart := by
  have hown : ∀ c ∈ total.ctes, ∀ d ∈ c.datasources, d = .ofColumns "items" [.bind "x" "x"] ["x"] := by
    simp [total, overTotals, plainStep]
  have hnames : "items" ∉ total.names := by decide +kernel
  refine ⟨fun c hc c' hc' d hd d' hd' _ x hx => ?_, fun c hc c' hc' d hd he => ?_, fun c hc c' hc' j hj => ?_⟩
  · rw [hown c hc d hd] at hx
    rwa [hown c' hc' d' hd']
  · rw [hown c' hc' d hd] at he
    have hitems : "items" = c.name := he
    exact absurd (hitems ▸ name_mem hc) hnames
  · have hnone : ∀ c ∈ total.ctes, c.joins = [] := by
      simp [total, overTotals, plainStep]
    rw [hnone c' hc'] at hj
    cases hj

/-- the root is returned, the aggregate is folded into the bare step, and the plan is still closed -/
theorem optimize_wellFormed_total : total.WellFormed ∧ total.NamesApart ∧ total.Closed ∧
    ∃ q, optimize .empty {} total = .ok q ∧ q.names = ["rows"] ∧ q.Closed := by
  have hwell : total.WellFormed :=
    wellFormed_of_idxOf (by decide +kernel) (by decide +kernel) (by decide +kernel)
  have hclosed : total.Closed := by decide +kernel
  obtain ⟨q, hq, hnames⟩ := exists_optimized
    (show (optimize .empty {} total).toOption.map names = some ["rows"] by decide +kernel)
  obtain ⟨-, -, -, -, -, hkept⟩ := (optimizeBy_wellFormed Topological.isSort_order .empty {} hwell).2 q hq
  exact ⟨hwell, total_namesApart, hclosed, q, hq, hnames, hkept total_namesApart hclosed⟩

end CtePlan

end SemanticPlanner
