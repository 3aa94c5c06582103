/-
Well-formed plans stay well formed while they are optimized.

  Edits            each step is exchanged for one of its name that reads what the step read, directly or not
  fold_edits       folding an aggregate edits its parent and its readers
  Changes          one step is changed into one that is alike and reads no more
  Rewrite.edits    every rewrite is an edit
  Returns.edits    so is dropping the root
  improved         what holds of a plan and is kept by edits, by pruning and by listing anew holds of the improved ones
-/
import SemanticPlanner.Proofs.Rewriting

namespace SemanticPlanner

variable {env : Environment} {s : OptimizerSettings} {p q : CtePlan} {c d parent : Cte} {n m : String}
variable {sort : Topological.Sorting}
  {g : Cte → Cte} {r : Rule}

/-! ## Edits -/

namespace CtePlan

/-- each step is exchanged for one of its name, which reads what the step read, directly or through others; the root is
one that was read -/
structure Edits (p q : CtePlan) (g : Cte → Cte) : Prop where
  ctes : q.ctes = p.ctes.map g
  name : ∀ c ∈ p.ctes, (g c).name = c.name
  reads : ∀ c ∈ p.ctes, ∀ n ∈ (g c).parents, Relation.TransGen p.Reads c.name n
  root : p.Live q.root

theorem Edits.names (h : p.Edits q g) : q.names = p.names := CtePlan.names_of_map h.ctes h.name

theorem Edits.mem (h : p.Edits q g) : d ∈ q.ctes ↔ ∃ c ∈ p.ctes, g c = d := by
  rw [h.ctes, List.mem_map]

theorem Edits.transGen (h : p.Edits q g) (hr : q.Reads n m) : Relation.TransGen p.Reads n m := by
  obtain ⟨d, hd, rfl, hm⟩ := hr
  obtain ⟨c, hc, rfl⟩ := h.mem.1 hd
  rw [h.name c hc]
  exact h.reads c hc m hm

/-- an edit makes no step live -/
theorem Edits.live (h : p.Edits q g) (hl : q.Live n) : p.Live n := by
  induction hl with
  | refl => exact h.root
  | tail _ hr ih => exact ih.trans (h.transGen hr).to_reflTransGen

theorem Edits.wellFormed (h : p.Edits q g) (hp : p.WellFormed) : q.WellFormed := by
  refine ⟨h.names ▸ hp.distinct, h.names ▸ hp.live_mem h.root, fun d hd m hm => ?_, fun n hn => ?_⟩
  · have hread : Relation.TransGen p.Reads d.name m := h.transGen ⟨d, hd, rfl, hm⟩
    obtain ⟨k, -, hk⟩ := Relation.TransGen.tail'_iff.1 hread
    exact h.names ▸ hp.mem_names_of_reads hk
  · exact hp.acyclic n (Relation.TransGen.closed (fun _ _ => h.transGen) _ _ hn)

theorem Edits.find? (h : p.Edits q g) (hp : p.WellFormed) (hc : p.find? n = some c) : q.find? n = some (g c) := by
  obtain ⟨hmem, rfl⟩ := find?_some hc
  rw [← h.name c hmem]
  exact find?_of_mem (h.wellFormed hp).distinct (h.mem.2 ⟨c, hmem, rfl⟩)

/-- a step changed in what it reads to less -/
theorem modify_edits (hp : p.WellFormed) {f : Cte → Cte} (hc : p.find? n = some c) (hname : (f c).name = n)
    (hparents : ∀ m ∈ (f c).parents, m ∈ c.parents) :
    p.Edits (p.modify n f) fun e => if e.name = n then f e else e := by
  obtain ⟨hmem, hcn⟩ := find?_some hc
  have hfound : ∀ e ∈ p.ctes, e.name = n → e = c :=
    fun e he hen => eq_of_name hp.distinct he hmem (hen.trans hcn.symm)
  refine ⟨ctes_modify hp.distinct n f, fun e he => ?_, fun e he m hm => ?_, .refl⟩
  · split
    · rename_i hen
      rw [hfound e he hen, hname, hcn]
    · rfl
  · split at hm
    · rename_i hen
      rw [hfound e he hen] at hm ⊢
      exact .single ⟨c, hmem, rfl, hparents m hm⟩
    · exact .single ⟨e, he, rfl, hm⟩

end CtePlan

/-! ## Folding an aggregate -/

namespace FoldAggregate

/-- what was checked of an aggregate and its parent -/
structure Absorbs (env : Environment) (p : CtePlan) (c parent : Cte) : Prop where
  parents : c.parents = [parent.name]
  found : p.find? parent.name = some parent
  foldable : isFoldable c = true
  groups : canGroup env parent = true
  /-- the aggregate is the only reader -/
  read : ∀ n, p.Reads n parent.name ↔ n = c.name

theorem absorbs_of_absorber (h : absorber env p.readers p c = some parent) : Absorbs env p c parent := by
  unfold absorber at h
  split at h
  · rename_i name hparents
    obtain ⟨_, hname, hsome⟩ := Option.bind_eq_some_iff.1 h
    cases hname
    obtain ⟨found, hfind, hite⟩ := Option.bind_eq_some_iff.1 hsome
    obtain ⟨hguard, hfound⟩ := Option.ite_none_right_eq_some.1 hite
    cases hfound
    obtain ⟨-, rfl⟩ := CtePlan.find?_some hfind
    simp only [Bool.and_eq_true, beq_iff_eq] at hguard
    obtain ⟨⟨hfoldable, hgroups⟩, hreaders⟩ := hguard
    refine ⟨hparents, hfind, hfoldable, hgroups, fun n => ?_⟩
    rw [← CtePlan.mem_readersOf, hreaders, List.mem_singleton]
  · cases h

theorem ctes_redirect (hn : p.names.Nodup) (readers : List String) (hreaders : readers.Nodup) (old new : String) :
    (redirect readers old new p).ctes =
      p.ctes.map fun e => if e.name ∈ readers then e.replaceParent old new else e := by
  unfold redirect
  induction readers generalizing p with
  | nil => simp
  | cons reader rest ih =>
    obtain ⟨hnew, hrest⟩ := List.nodup_cons.1 hreaders
    have hnames : (p.modify reader fun e => e.replaceParent old new).names = p.names :=
      CtePlan.names_modify fun e he => he
    rw [List.foldl_cons, ih (hnames ▸ hn) hrest, CtePlan.ctes_modify hn, List.map_map]
    refine List.map_congr_left fun e _ => ?_
    by_cases he : e.name = reader
    · subst he
      simp [Cte.replaceParent, hnew]
    · simp [he]

/-- the edit of a fold: the parent absorbs the aggregate, whose readers read the parent instead -/
def refit (c parent e : Cte) : Cte :=
  if e.name = parent.name then absorb c e
  else if c.name ∈ e.parents then e.replaceParent c.name parent.name
  else e

theorem mem_parents_replaceParent {e : Cte} {old new : String} :
    m ∈ (e.replaceParent old new).parents ↔ m = new ∧ old ∈ e.parents ∨ m ∈ e.parents ∧ m ≠ old := by
  show m ∈ distinct (e.parents.map _) ↔ _
  rw [mem_distinct, List.mem_map]
  constructor
  · rintro ⟨k, hk, rfl⟩
    by_cases h : k = old
    · exact Or.inl ⟨if_pos h, h ▸ hk⟩
    · rw [if_neg h]
      exact Or.inr ⟨hk, h⟩
  · rintro (⟨rfl, h⟩ | ⟨h, hne⟩)
    · exact ⟨old, h, if_pos rfl⟩
    · exact ⟨m, h, if_neg hne⟩

theorem Absorbs.reads (ha : Absorbs env p c parent) : p.Reads c.name parent.name := (ha.read _).2 rfl

variable (hp : p.WellFormed) (ha : Absorbs env p c parent)

include hp ha

/-- the parent does not read the aggregate -/
theorem Absorbs.not_mem : c.name ∉ parent.parents := by
  intro h
  have hback : p.Reads parent.name c.name := ⟨parent, (CtePlan.find?_some ha.found).1, rfl, h⟩
  exact hp.acyclic _ (.head (ha.reads) (.single hback))

theorem Absorbs.ne : c.name ≠ parent.name := by
  intro h
  have hloop := ha.reads
  rw [← h] at hloop
  exact hp.acyclic _ (.single hloop)

/-- **folding an aggregate edits its parent and its readers** -/
theorem fold_edits : p.Edits (fold p c parent) (refit c parent) := by
  have hparent := (CtePlan.find?_some ha.found).1
  have hnames : (p.modify parent.name (absorb c)).names = p.names := CtePlan.names_modify fun e he => he
  refine ⟨?_, fun e _ => ?_, fun e he m hm => ?_, ?_⟩
  · show (redirect _ _ _ _).ctes = _
    rw [ctes_redirect (hnames ▸ hp.distinct) _ CtePlan.nodup_readersOf, CtePlan.ctes_modify hp.distinct, List.map_map]
    refine List.map_congr_left fun e he => ?_
    have hreader : e.name ∈ CtePlan.readersOf p.readers c.name ↔ c.name ∈ e.parents := by
      rw [CtePlan.mem_readersOf]
      constructor
      · rintro ⟨e', he', hname, hread⟩
        rwa [CtePlan.eq_of_name hp.distinct he' he hname] at hread
      · exact fun h => ⟨e, he, rfl, h⟩
    by_cases hname : e.name = parent.name
    · have hnot : e.name ∉ CtePlan.readersOf p.readers c.name := by
        rw [hreader, CtePlan.eq_of_name hp.distinct he hparent hname]
        exact ha.not_mem hp
      simp [refit, hname, absorb, hname ▸ hnot]
    · simp [refit, hname, hreader]
  · unfold refit
    split
    · rfl
    · split
      · rfl
      · rfl
  · have hkept : ∀ k ∈ e.parents, Relation.TransGen p.Reads e.name k := fun k hk => .single ⟨e, he, rfl, hk⟩
    unfold refit at hm
    split at hm
    · exact hkept m hm
    · split at hm
      · rcases mem_parents_replaceParent.1 hm with ⟨rfl, hread⟩ | ⟨hm, -⟩
        · exact .head ⟨e, he, rfl, hread⟩ (.single (ha.reads))
        · exact hkept m hm
      · exact hkept m hm
  · show p.Live (if p.root = c.name then parent.name else p.root)
    split
    · rename_i hroot
      exact .single (hroot ▸ ha.reads)
    · exact .refl

/-- after a fold only the readers of the aggregate read something new, and only its parent -/
theorem mem_parents_refit {e : Cte} (he : e ∈ p.ctes) :
    m ∈ (refit c parent e).parents ↔ m = parent.name ∧ c.name ∈ e.parents ∨ m ∈ e.parents ∧ m ≠ c.name := by
  unfold refit
  split
  · rename_i hname
    have hself : e = parent := CtePlan.eq_of_name hp.distinct he (CtePlan.find?_some ha.found).1 hname
    have hnot : c.name ∉ e.parents := hself ▸ ha.not_mem hp
    constructor
    · intro hm
      exact Or.inr ⟨hself ▸ hm, fun h => hnot (h ▸ hself ▸ hm)⟩
    · rintro (⟨-, h⟩ | ⟨hm, -⟩)
      · exact absurd h hnot
      · exact hself ▸ hm
  · split
    · exact mem_parents_replaceParent
    · rename_i hnot
      constructor
      · exact fun hm => Or.inr ⟨hm, fun h => hnot (h ▸ hm)⟩
      · rintro (⟨-, h⟩ | ⟨hm, -⟩)
        · exact absurd h hnot
        · exact hm

end FoldAggregate

/-! ## Every rewrite is an edit -/

theorem InlineDatasource.Inlined.parents (h : Inlined p c d) : ∀ m ∈ d.parents, m ∈ c.parents := by
  induction h with
  | none => exact fun m hm => hm
  | next _ _ _ _ he ih =>
    obtain ⟨b, -, h⟩ := Cte.inlineParent_some he
    exact fun m hm => ih m (h.parents.1 hm).1

theorem InlineConstant.Written.alike (h : Relation.ReflTransGen (Written env) c d) :
    c.Alike d ∧ d.parents = c.parents := by
  induction h with
  | refl => exact ⟨⟨rfl, rfl, rfl, rfl⟩, rfl⟩
  | tail _ hw ih =>
    obtain ⟨⟨hname, houtputs, hhidden, hgrouped⟩, hparents⟩ := ih
    cases hw
    exact ⟨⟨hname, houtputs, hhidden, hgrouped⟩, hparents⟩

/-- the step of a name changed into one that is alike and reads no more -/
structure CtePlan.Changes (p q : CtePlan) (n : String) (c : Cte) (f : Cte → Cte) : Prop where
  found : p.find? n = some c
  result : q = p.modify n f
  alike : c.Alike (f c)
  parents : ∀ m ∈ (f c).parents, m ∈ c.parents

theorem CtePlan.Changes.edits {f : Cte → Cte} (hp : p.WellFormed) (h : p.Changes q n c f) :
    p.Edits q fun e => if e.name = n then f e else e := by
  obtain ⟨hc, rfl, halike, hparents⟩ := h
  exact modify_edits hp hc (halike.name.trans (find?_some hc).2) hparents

theorem CtePlan.Changes.reads {f : Cte → Cte} (hp : p.WellFormed) (h : p.Changes q n c f) {a b : String}
    (hr : q.Reads a b) : p.Reads a b := by
  obtain ⟨e', he', rfl, hb⟩ := hr
  obtain ⟨e, he, rfl⟩ := (h.edits hp).mem.1 he'
  rw [(h.edits hp).name e he]
  split at hb
  · rename_i hen
    obtain ⟨hc, hcn⟩ := find?_some h.found
    rw [eq_of_name hp.distinct he hc (hen.trans hcn.symm)] at hb ⊢
    exact ⟨c, hc, rfl, h.parents b hb⟩
  · exact ⟨e, he, rfl, hb⟩

namespace Rewrite

theorem inline_changes (hc : p.find? n = some c) (hd : InlineDatasource.Inlined p c d) :
    p.Changes (p.modify n fun _ => d) n c fun _ => d := ⟨hc, rfl, hd.alike, hd.parents⟩

theorem push_changes (hc : p.find? n = some c) (term : Condition) :
    p.Changes (p.modify n (PushPredicate.filterBy term)) n c (PushPredicate.filterBy term) :=
  ⟨hc, rfl, ⟨rfl, rfl, rfl, rfl⟩, fun _ hm => hm⟩

theorem drop_changes (hc : p.find? n = some c) (unread : List String) :
    p.Changes (p.modify n (PushPredicate.dropCondition unread)) n c (PushPredicate.dropCondition unread) :=
  ⟨hc, rfl, ⟨rfl, rfl, rfl, rfl⟩, fun _ hm => List.mem_of_mem_filter hm⟩

theorem write_changes (hc : p.find? n = some c) (hd : Relation.ReflTransGen (InlineConstant.Written env) c d)
    (names : List String) : p.Changes (p.modify n fun _ => InlineConstant.dropParents names d) n c
      fun _ => InlineConstant.dropParents names d := by
  obtain ⟨⟨hname, houtputs, hhidden, hgrouped⟩, hparents⟩ := InlineConstant.Written.alike hd
  exact ⟨hc, rfl, ⟨hname, houtputs, hhidden, hgrouped⟩, fun m hm => hparents ▸ List.mem_of_mem_filter hm⟩

/-- a rewrite changes one step for its own, or folds an aggregate -/
theorem changes_or_folds (h : Rewrite env r p q) : (∃ n c f, p.Changes q n c f) ∨
    ∃ c parent, c ∈ p.ctes ∧ FoldAggregate.Absorbs env p c parent ∧ q = FoldAggregate.fold p c parent := by
  cases h with
  | inline hc hd => exact Or.inl ⟨_, _, _, inline_changes hc hd⟩
  | push hc => exact Or.inl ⟨_, _, _, push_changes hc _⟩
  | drop hc => exact Or.inl ⟨_, _, _, drop_changes hc _⟩
  | write hc hd => exact Or.inl ⟨_, _, _, write_changes hc hd _⟩
  | fold hc ha => exact Or.inr ⟨_, _, (CtePlan.find?_some hc).1, FoldAggregate.absorbs_of_absorber ha, rfl⟩

/-- **every rewrite is an edit** -/
theorem edits (hp : p.WellFormed) (h : Rewrite env r p q) : ∃ g, p.Edits q g := by
  rcases h.changes_or_folds with ⟨_, _, _, h⟩ | ⟨_, _, -, ha, rfl⟩
  · exact ⟨_, h.edits hp⟩
  · exact ⟨_, FoldAggregate.fold_edits hp ha⟩

end Rewrite

namespace CtePlan

/-- what was checked of a root and the parent that takes its place -/
structure Yields (p : CtePlan) (root parent : Cte) : Prop where
  isRoot : p.rootCte = some root
  parents : root.parents = [parent.name]
  found : p.find? parent.name = some parent
  outputs : ∀ x ∈ root.outputs, x ∈ parent.outputs

theorem yields_of_directParent (h : p.directParent env = some n) :
    ∃ root parent, p.Yields root parent ∧ parent.name = n := by
  unfold directParent at h
  obtain ⟨root, hroot, h⟩ := Option.bind_eq_some_iff.1 h
  dsimp only at h
  split at h
  · rename_i name hparents
    obtain ⟨_, hname, hsome⟩ := Option.bind_eq_some_iff.1 h
    cases hname
    obtain ⟨parent, hparent, hite⟩ := Option.bind_eq_some_iff.1 hsome
    obtain ⟨-, rfl⟩ := find?_some hparent
    obtain ⟨hguard, hname⟩ := Option.ite_none_right_eq_some.1 hite
    simp only [Bool.and_eq_true, List.all_eq_true, List.contains_iff_mem] at hguard
    exact ⟨root, parent, ⟨hroot, hparents, hparent, hguard.1.1.1.2⟩, Option.some.inj hname⟩
  · cases h

/-- dropping the root edits its parent -/
theorem Yields.edits (hp : p.WellFormed) {root : Cte} (hy : p.Yields root parent) :
    p.Edits (p.collapse parent.name) fun e => if e.name = parent.name then absorbRoot root e else e := by
  obtain ⟨hroot, hname⟩ := find?_some hy.isRoot
  have hmodify := modify_edits hp (f := absorbRoot root) hy.found rfl fun m hm => hm
  unfold collapse
  rw [hy.isRoot]
  refine ⟨hmodify.ctes, hmodify.name, hmodify.reads, .single ⟨root, hroot, hname, ?_⟩⟩
  rw [hy.parents]
  exact List.mem_cons_self

theorem Returns.edits (hp : p.WellFormed) (h : Returns env p q) : ∃ g, p.Edits q g := by
  obtain ⟨n, hn, rfl⟩ := h
  obtain ⟨root, parent, hy, rfl⟩ := yields_of_directParent hn
  exact ⟨_, hy.edits hp⟩

/-! ## Pruning and listing -/

theorem reads_prune (h : p.prune.Reads n m) : p.Reads n m := by
  obtain ⟨c, hc, hn, hm⟩ := h
  exact ⟨c, (mem_prune.1 hc).1, hn, hm⟩

/-- what is live stays live when the other steps are dropped -/
theorem live_prune (hp : p.WellFormed) : p.prune.Live n ↔ p.Live n := by
  constructor
  · exact Relation.ReflTransGen.mono (fun _ _ => reads_prune) _ _
  · intro h
    induction h with
    | refl => exact .refl
    | tail hl hr ih =>
      obtain ⟨c, hc, rfl, hm⟩ := hr
      exact ih.tail ⟨c, mem_prune.2 ⟨hc, (mem_reachable hp).2 hl⟩, rfl, hm⟩

theorem WellFormed.prune (hp : p.WellFormed) : p.prune.WellFormed := by
  have hkept : ∀ n, p.Live n → n ∈ p.prune.names := by
    intro n hn
    obtain ⟨c, hc, rfl⟩ := mem_names.1 (hp.live_mem hn)
    exact name_mem (mem_prune.2 ⟨hc, (mem_reachable hp).2 hn⟩)
  refine ⟨(List.filter_sublist.map _).nodup hp.distinct, hkept _ .refl, fun c hc m hm => ?_, fun n hn => ?_⟩
  · obtain ⟨hmem, hlive⟩ := mem_prune.1 hc
    exact hkept m (((mem_reachable hp).1 hlive).tail ⟨c, hmem, rfl, hm⟩)
  · exact hp.acyclic n (Relation.TransGen.mono (fun _ _ => reads_prune) _ _ hn)

theorem rootCte_prune (hp : p.WellFormed) : p.prune.rootCte = p.rootCte := by
  obtain ⟨root, hroot⟩ := exists_find? hp.rooted
  obtain ⟨hmem, hname⟩ := find?_some hroot
  have hkept : root ∈ p.prune.ctes := mem_prune.2 ⟨hmem, (mem_reachable hp).2 (hname ▸ .refl)⟩
  rw [rootCte, rootCte, root_prune, hroot, ← hname]
  exact find?_of_mem hp.prune.distinct hkept

/-- a plan whose steps were listed anew -/
structure Relists (p q : CtePlan) : Prop where
  root : q.root = p.root
  perm : q.ctes.Perm p.ctes
  parentsFirst : ParentsFirst q.ctes

theorem relists_of_reorderBy (hsort : Topological.IsSort sort) (hp : p.WellFormed)
    (h : p.reorderBy sort = .ok q) : p.Relists q := by
  obtain ⟨q', hq', hroot, hperm, hfirst⟩ := reorderBy_eq_ok hsort hp
  rw [h] at hq'
  cases hq'
  exact ⟨hroot, hperm, hfirst⟩

theorem Relists.mem (h : p.Relists q) : c ∈ q.ctes ↔ c ∈ p.ctes := h.perm.mem_iff

theorem Relists.reads (h : p.Relists q) : q.Reads = p.Reads := by
  funext a b
  exact propext ⟨fun ⟨c, hc, hr⟩ => ⟨c, h.mem.1 hc, hr⟩, fun ⟨c, hc, hr⟩ => ⟨c, h.mem.2 hc, hr⟩⟩

theorem Relists.live (h : p.Relists q) : q.Live n ↔ p.Live n := by
  rw [Live, Live, h.reads, h.root]

theorem Relists.wellFormed (h : p.Relists q) (hp : p.WellFormed) : q.WellFormed := by
  have hnames : q.names.Perm p.names := h.perm.map _
  refine ⟨hnames.nodup_iff.2 hp.distinct, hnames.mem_iff.2 (h.root ▸ hp.rooted), fun c hc m hm => ?_, ?_⟩
  · exact hnames.mem_iff.2 (hp.parents c (h.mem.1 hc) m hm)
  · rw [h.reads]
    exact hp.acyclic

theorem Relists.rootCte (h : p.Relists q) (hp : p.WellFormed) : q.rootCte = p.rootCte := by
  obtain ⟨root, hroot⟩ := exists_find? hp.rooted
  obtain ⟨hmem, hname⟩ := find?_some hroot
  rw [CtePlan.rootCte, CtePlan.rootCte, h.root, hroot, ← hname]
  exact find?_of_mem (h.wellFormed hp).distinct (h.mem.2 hmem)

/-! ## Improved plans -/

/-- **what is kept by each improvement of a well-formed plan holds of the improved plans** -/
theorem improved {I : CtePlan → Prop} (hsort : Topological.IsSort sort)
    (hrewrite : ∀ r p q, r.isEnabled s = true → p.WellFormed → I p → Rewrite env r p q → I q)
    (hprune : ∀ p, p.WellFormed → I p → I p.prune)
    (hrelist : ∀ p q, p.WellFormed → I p → p.Relists q → I q)
    (h : ImprovesTo sort env s p q) (hp : p.WellFormed) (hi : I p) : q.WellFormed ∧ I q := by
  induction h with
  | refl => exact ⟨hp, hi⟩
  | tail _ himproves ih =>
    obtain ⟨hmid, hi⟩ := ih
    cases himproves with
    | rewrite hr hrewrites =>
      obtain ⟨g, hg⟩ := hrewrites.edits hmid
      exact ⟨hg.wellFormed hmid, hrewrite _ _ _ hr hmid hi hrewrites⟩
    | prune => exact ⟨hmid.prune, hprune _ hmid hi⟩
    | reorder hq =>
      have hlist := relists_of_reorderBy hsort hmid hq
      exact ⟨hlist.wellFormed hmid, hrelist _ _ hmid hi hlist⟩

/-- the same of plans whose root was returned -/
theorem returned {I : CtePlan → Prop} (hreturns : ∀ p q, p.WellFormed → I p → Returns env p q → I q)
    (h : Relation.ReflTransGen (Returns env) p q) (hp : p.WellFormed) (hi : I p) : q.WellFormed ∧ I q := by
  induction h with
  | refl => exact ⟨hp, hi⟩
  | tail _ hq ih =>
    obtain ⟨hmid, hi⟩ := ih
    obtain ⟨g, hg⟩ := hq.edits hmid
    exact ⟨hg.wellFormed hmid, hreturns _ _ hmid hi hq⟩

end CtePlan

end SemanticPlanner
