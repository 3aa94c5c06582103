/-
Which columns an optimized plan shows.

  SoleParents      a chain of steps, each the only parent of the one before
  visible_returned where roots are returned, the columns that a parent on the way hides are lost
  Shows            the root shows the given columns, and no step is folded into it any more
  visible_optimizeBy
                   an optimized plan shows what the given one shows, but for columns that such a parent hides

A step that takes the root's place hides what it hid before as well, even where the root showed it. Folding the root
into its parent hands the root's columns on as they are; but a step that reads the root, which the root cannot see, may
be folded into the root itself. Dropping the unread steps first, as is done after roots are returned, rules this out.
-/
import SemanticPlanner.Proofs.Tracking

namespace SemanticPlanner

variable {env : Environment} {s : OptimizerSettings} {p q : CtePlan} {c d root parent : Cte} {n : String} {r : Rule}
variable {sort : Topological.Sorting}

namespace CtePlan

/-! ## Returned roots -/

/-- a chain of steps that starts below a given one, each the only parent of the one before -/
inductive SoleParents (p : CtePlan) : Cte → List Cte → Prop
  | nil {c : Cte} : SoleParents p c []
  | cons {c d : Cte} {l : List Cte} : c.parents = [d.name] → p.find? d.name = some d → SoleParents p d l →
      SoleParents p c (d :: l)

/-- every step of a chain is read, directly or through others -/
theorem SoleParents.reads {l : List Cte} (h : p.SoleParents c l) (hc : c ∈ p.ctes) :
    ∀ t ∈ l, Relation.TransGen p.Reads c.name t.name := by
  induction h with
  | nil => exact fun t ht => absurd ht List.not_mem_nil
  | cons hparents hfound _ ih =>
    have hread : p.Reads _ _ := ⟨_, hc, rfl, hparents ▸ List.mem_cons_self⟩
    intro t ht
    rcases List.mem_cons.1 ht with rfl | ht
    · exact .single hread
    · exact .head hread (ih (find?_some hfound).1 t ht)

theorem SoleParents.mem {l : List Cte} (h : p.SoleParents c l) : ∀ t ∈ l, t ∈ p.ctes := by
  induction h with
  | nil => exact fun t ht => absurd ht List.not_mem_nil
  | cons _ hfound _ ih =>
    intro t ht
    rcases List.mem_cons.1 ht with rfl | ht
    · exact (find?_some hfound).1
    · exact ih t ht

/-- a chain of one plan is a chain of another one that has its steps -/
theorem SoleParents.transfer {l : List Cte} (h : p.SoleParents c l) (hd : d.parents = c.parents)
    (hfound : ∀ t ∈ l, p.find? t.name = some t → q.find? t.name = some t) : q.SoleParents d l := by
  induction h generalizing d with
  | nil => exact .nil
  | cons hparents hfind _ ih =>
    exact .cons (hd.trans hparents) (hfound _ List.mem_cons_self hfind)
      (ih rfl fun t ht => hfound t (List.mem_cons_of_mem _ ht))

/-- a parent in the root's place shows what the root showed, without what it hid itself -/
theorem visible_absorbRoot (root parent : Cte) :
    (absorbRoot root parent).visible = root.visible.filter fun x => !parent.hidden.contains x := by
  let rest := parent.outputs.filter fun x => !root.visible.contains x
  have hidden : ∀ x, x ∈ (absorbRoot root parent).hidden ↔ (x ∈ parent.hidden ∨ x ∈ rest) ∨ x ∈ root.hidden := by
    intro x
    show x ∈ (parent.hidden.insertAll rest).union root.hidden ↔ _
    rw [SortedSet.mem_union, SortedSet.mem_insertAll]
  have hshown : ∀ x ∈ root.visible, (!(absorbRoot root parent).hidden.contains x) = !parent.hidden.contains x := by
    intro x hx
    have hrest : x ∉ rest := fun h => by simpa [hx] using (List.mem_filter.1 h).2
    have hroot : x ∉ root.hidden := SortedSet.not_contains_iff.1 (List.mem_filter.1 hx).2
    rw [Bool.eq_iff_iff, SortedSet.not_contains_iff, SortedSet.not_contains_iff, hidden]
    simp [hrest, hroot]
  have hrest : rest.filter (fun x => !(absorbRoot root parent).hidden.contains x) = [] := by
    refine List.filter_eq_nil_iff.2 fun x hx => ?_
    rw [SortedSet.not_contains_iff, hidden]
    exact fun h => h (Or.inl (Or.inr hx))
  show (root.visible ++ rest).filter _ = _
  rw [List.filter_append, hrest, List.append_nil]
  exact List.filter_congr hshown

/-- **where roots are returned, the columns that a parent on the way hides are lost** -/
theorem visible_returned (hp : p.WellFormed) (hroot : p.rootCte = some root)
    (h : Relation.ReflTransGen (Returns env) p q) : ∃ last through, q.rootCte = some last ∧
      p.SoleParents root through ∧
      last.visible = root.visible.filter fun x => through.all fun t => !t.hidden.contains x := by
  induction h using Relation.ReflTransGen.head_induction_on generalizing root with
  | refl => exact ⟨root, [], hroot, .nil, by simp⟩
  | @head p p' hreturns _ ih =>
    obtain ⟨n, hn, rfl⟩ := hreturns
    obtain ⟨root', parent, hy, rfl⟩ := yields_of_directParent hn
    obtain rfl : root' = root := Option.some.inj (hy.isRoot.symm.trans hroot)
    have he := hy.edits hp
    have hp' := he.wellFormed hp
    have hname : (p.collapse parent.name).root = parent.name := by rw [collapse, hroot]
    have hroot' : (p.collapse parent.name).rootCte = some (absorbRoot root' parent) := by
      rw [rootCte, hname, he.find? hp hy.found, if_pos rfl]
    obtain ⟨last, through, hlast, hchain, hvisible⟩ := ih hp' hroot'
    refine ⟨last, parent :: through, hlast, .cons hy.parents hy.found ?_, ?_⟩
    · -- the steps further down are as they were
      refine hchain.transfer rfl fun t ht hfind => ?_
      have hne : t.name ≠ parent.name := by
        intro heq
        have hloop := hchain.reads (find?_some hroot').1 t ht
        rw [heq] at hloop
        exact hp'.acyclic _ hloop
      obtain ⟨e, hmem, rfl⟩ := he.mem.1 (find?_some hfind).1
      rw [he.name e hmem] at hne
      rw [if_neg hne]
      exact find?_of_mem hp.distinct hmem
    · rw [hvisible, visible_absorbRoot, List.filter_filter]
      simp only [List.all_cons, Bool.and_comm]

/-! ## Rules -/

/-- the root shows the given columns, and no step is folded into it any more: it groups, or nothing reads it -/
def Shows (columns : List String) (p : CtePlan) : Prop :=
  ∃ root, p.rootCte = some root ∧ root.visible = columns ∧ (root.grouped = true ∨ ∀ n, ¬ p.Reads n p.root)

variable {columns : List String}

theorem Shows.change {f : Cte → Cte} (hp : p.WellFormed) (h : p.Changes q n c f) (hs : Shows columns p) :
    Shows columns q := by
  obtain ⟨root, hroot, hvisible, hlast⟩ := hs
  have hqroot : q.root = p.root := by rw [h.result, modify]
  have hfind : q.rootCte = some (if root.name = n then f root else root) := by
    rw [rootCte, hqroot]
    exact (h.edits hp).find? hp hroot
  have halike : root.Alike (if root.name = n then f root else root) := by
    split
    · rename_i hn
      have hsame : p.find? n = some root := by rw [← hn, (find?_some hroot).2]; exact hroot
      rw [h.found] at hsame
      exact Option.some.inj hsame ▸ h.alike
    · exact ⟨rfl, rfl, rfl, rfl⟩
  refine ⟨_, hfind, ?_, ?_⟩
  · rw [Cte.visible, halike.outputs, halike.hidden]
    exact hvisible
  · rw [halike.grouped, hqroot]
    exact hlast.imp_right fun hnone m hm => hnone m (h.reads hp hm)

theorem Shows.fold (hp : p.WellFormed) (hc : c ∈ p.ctes) (ha : FoldAggregate.Absorbs env p c parent)
    (hs : Shows columns p) : Shows columns (FoldAggregate.fold p c parent) := by
  obtain ⟨root, hroot, hvisible, hlast⟩ := hs
  obtain ⟨hmem, hname⟩ := find?_some hroot
  have he := FoldAggregate.fold_edits hp ha
  have hqroot : (FoldAggregate.fold p c parent).root = if p.root = c.name then parent.name else p.root := rfl
  by_cases hfolded : p.root = c.name
  · -- the root is folded: its parent shows its columns and groups
    have hself : c = root := eq_of_name hp.distinct hc hmem (hfolded.symm.trans hname.symm)
    refine ⟨FoldAggregate.absorb c parent, ?_, ?_, Or.inl rfl⟩
    · rw [rootCte, hqroot, if_pos hfolded, he.find? hp ha.found, FoldAggregate.refit, if_pos rfl]
    · rw [← hvisible, ← hself]
      rfl
  · -- another step is folded, not into the root: that would group, or not be read
    have hne : root.name ≠ parent.name := by
      intro heq
      have hself := eq_of_name hp.distinct hmem (find?_some ha.found).1 heq
      rcases hlast with hgrouped | hnone
      · have hgroups := ha.groups
        simp only [FoldAggregate.canGroup, Bool.and_eq_true, Bool.not_eq_true'] at hgroups
        rw [hself, hgroups.1.2] at hgrouped
        cases hgrouped
      · exact hnone c.name (hname ▸ heq ▸ ha.reads)
    have hfind : (FoldAggregate.fold p c parent).rootCte = some (FoldAggregate.refit c parent root) := by
      rw [rootCte, hqroot, if_neg hfolded]
      exact he.find? hp hroot
    have halike : root.Alike (FoldAggregate.refit c parent root) := by
      rw [FoldAggregate.refit, if_neg hne]
      split
      · exact ⟨rfl, rfl, rfl, rfl⟩
      · exact ⟨rfl, rfl, rfl, rfl⟩
    refine ⟨_, hfind, ?_, ?_⟩
    · rw [Cte.visible, halike.outputs, halike.hidden]
      exact hvisible
    · rw [halike.grouped, hqroot, if_neg hfolded]
      refine hlast.imp_right fun hnone m hm => ?_
      obtain ⟨e', he', rfl, hread⟩ := hm
      obtain ⟨e, hmem, rfl⟩ := he.mem.1 he'
      rcases (FoldAggregate.mem_parents_refit hp ha hmem).1 hread with ⟨hparent, -⟩ | ⟨hread, -⟩
      · exact hne (hname.trans hparent)
      · exact hnone e.name ⟨e, hmem, rfl, hread⟩

theorem Shows.prune (hp : p.WellFormed) (hs : Shows columns p) : Shows columns p.prune := by
  obtain ⟨root, hroot, hvisible, hlast⟩ := hs
  exact ⟨root, (rootCte_prune hp).trans hroot, hvisible, hlast.imp_right fun hnone m hm => hnone m (reads_prune hm)⟩

theorem Shows.relist (hp : p.WellFormed) (h : p.Relists q) (hs : Shows columns p) : Shows columns q := by
  obtain ⟨root, hroot, hvisible, hlast⟩ := hs
  refine ⟨root, (h.rootCte hp).trans hroot, hvisible, ?_⟩
  rw [h.reads, h.root]
  exact hlast

/-- nothing reads the root of a pruned plan -/
theorem not_reads_root_prune (hp : p.WellFormed) : ¬ p.prune.Reads n p.root := by
  rintro ⟨c, hc, rfl, hread⟩
  obtain ⟨hmem, hlive⟩ := mem_prune.1 hc
  rw [mem_reachable hp] at hlive
  exact hp.acyclic p.root (Relation.TransGen.tail' hlive ⟨c, hmem, rfl, hread⟩)

/-- improvements keep the columns that the root shows -/
theorem shows_of_improvesTo (hsort : Topological.IsSort sort) (hp : p.WellFormed) (hs : Shows columns p)
    (h : ImprovesTo sort env s p q) :
    q.WellFormed ∧ Shows columns q := by
  refine improved (I := Shows columns) hsort (fun r a b _ ha hs hr => ?_) (fun a ha hs => hs.prune ha)
    (fun a b ha hs hl => hs.relist ha hl) h hp hs
  rcases hr.changes_or_folds with ⟨_, _, _, hc⟩ | ⟨c, parent, hc, hab, rfl⟩
  · exact hs.change ha hc
  · exact hs.fold ha hc hab

/-- **The columns of an optimized plan.** Take a well-formed plan in which, unless roots are returned, no step reads the
root. What the optimized plan shows is what the given one shows, in the same order, but for columns that are hidden by a
step in a chain of only parents below the root; the chain is empty unless roots are returned. So nothing is lost if no
other step hides a column that the root shows. -/
theorem visible_optimizeBy (hsort : Topological.IsSort sort) (hp : p.WellFormed)
    (hread : s.directReturn = false → ∀ n, ¬ p.Reads n p.root) (h : optimizeBy sort env s p = .ok q) :
    ∃ root last through, p.rootCte = some root ∧ q.rootCte = some last ∧
      p.SoleParents root through ∧ (s.directReturn = false → through = []) ∧
      last.visible = (root.visible.filter fun x => through.all fun t => !t.hidden.contains x) ∧
      ((∀ c ∈ p.ctes, c ≠ root → ∀ x ∈ root.visible, x ∉ c.hidden) → last.visible = root.visible) := by
  obtain ⟨b, r, hb, hr, hlist⟩ := optimizeBy_eq_ok h
  obtain ⟨root, hroot⟩ := exists_find? hp.rooted
  have hstart : ∃ through, b.WellFormed ∧ p.SoleParents root through ∧ (s.directReturn = false → through = []) ∧
      Shows (root.visible.filter fun x => through.all fun t => !t.hidden.contains x) b := by
    cases hb with
    | asGiven hoff =>
      exact ⟨[], hp, .nil, fun _ => rfl, root, hroot, by simp, Or.inr (hread hoff)⟩
    | @returned a hon hreturns =>
      obtain ⟨last, through, hlast, hchain, hvisible⟩ := visible_returned hp hroot hreturns
      have ha : a.WellFormed := (returned (I := fun _ => True) (fun _ _ _ _ _ => trivial) hreturns hp trivial).1
      have hlast' : a.prune.rootCte = some last := (rootCte_prune ha).trans hlast
      have hunread : ∀ n, ¬ a.prune.Reads n a.root := fun n => not_reads_root_prune ha
      refine ⟨through, ha.prune, hchain, fun hoff => ?_, last, hlast', hvisible, Or.inr hunread⟩
      rw [hon] at hoff
      cases hoff
  obtain ⟨through, hwell, hchain, hoff, hshows⟩ := hstart
  obtain ⟨hrwell, hrshows⟩ := shows_of_improvesTo hsort hwell hshows hr
  have hlisted := relists_of_reorderBy hsort hrwell.prune hlist
  obtain ⟨last, hlast, hvisible, -⟩ := (hrshows.prune hrwell).relist hrwell.prune hlisted
  refine ⟨root, last, through, hroot, hlast, hchain, hoff, hvisible, fun hnone => ?_⟩
  rw [hvisible]
  refine List.filter_eq_self.2 fun x hx => List.all_eq_true.2 fun t ht => ?_
  have hne : t ≠ root := by
    rintro rfl
    exact hp.acyclic _ (hchain.reads (find?_some hroot).1 t ht)
  rw [SortedSet.not_contains_iff]
  exact hnone t (hchain.mem t ht) hne x hx

/-- a root over a step that hides some of the columns it has -/
def overHidden (hidden : List String) : CtePlan :=
  let items : Datasource := .ofColumns "items" [.bind "x" "x", .bind "y" "y"] []
  ⟨[{ plainStep "rows" .select [] [items] [("local.x", ["items"]), ("local.y", ["items"])] ["local.x", "local.y"] with
        hidden := SortedSet.ofList hidden },
    plainStep "root" .select ["rows"] [] [("local.x", ["rows"]), ("local.y", ["rows"])] ["local.x", "local.y"]], "root"⟩

/-- a root that an aggregate reads, which the root does not see -/
def underTotals : CtePlan :=
  ⟨[plainStep "root" .select [] [.ofColumns "items" [.bind "x" "x"] []] [("local.x", ["items"])] ["local.x"],
    plainStep "totals" .group ["root"] [] [("local.n", [])] ["local.n"]], "root"⟩

/-- aggregates are folded, and nothing else is done -/
def foldingOnly : OptimizerSettings :=
  { predicatePushdown := false, predicatePushdownRemove := false, datasourceInlining := false
    constantInlining := false, directReturn := false }

/-- what a plan and its optimized form show, where both were computed -/
theorem exists_shown {given left : List String} (hn : p.names.Nodup) (hroot : p.root ∈ p.names)
    (hparents : ∀ c ∈ p.ctes, ∀ m ∈ c.parents, p.names.idxOf m < p.names.idxOf c.name)
    (h : (optimize env s p).toOption.map (fun q => p.rootCte.bind fun root => q.rootCte.map fun last =>
      (root.visible, last.visible)) = some (some (given, left))) :
    p.WellFormed ∧ ∃ q root last, optimize env s p = .ok q ∧ p.rootCte = some root ∧ q.rootCte = some last ∧
      root.visible = given ∧ last.visible = left := by
  obtain ⟨q, hq, hshown⟩ := exists_optimized h
  obtain ⟨root, hr, hshown⟩ := Option.bind_eq_some_iff.1 hshown
  obtain ⟨last, hlast, hshown⟩ := Option.map_eq_some_iff.1 hshown
  obtain ⟨hgiven, hleft⟩ := Prod.mk.inj hshown
  exact ⟨wellFormed_of_idxOf hn hroot hparents, q, root, last, hq, hr, hlast, hgiven, hleft⟩

/-- a column is lost where the root is returned through a step that hides it, and all are exchanged where an aggregate
is folded into the root -/
theorem columns_lost :
    ((overHidden ["local.x"]).WellFormed ∧ ∃ q root last, optimize .empty {} (overHidden ["local.x"]) = .ok q ∧
      (overHidden ["local.x"]).rootCte = some root ∧ q.rootCte = some last ∧
      root.visible = ["local.x", "local.y"] ∧ last.visible = ["local.y"]) ∧
    (underTotals.WellFormed ∧ ∃ q root last, optimize .empty foldingOnly underTotals = .ok q ∧
      underTotals.rootCte = some root ∧ q.rootCte = some last ∧
      root.visible = ["local.x"] ∧ last.visible = ["local.n"]) := by
  refine ⟨exists_shown ?_ ?_ ?_ ?_, exists_shown ?_ ?_ ?_ ?_⟩
  all_goals decide +kernel

/-- a root over a step that hides nothing is kept as it is, or returned; either way it shows its columns -/
theorem visible_optimize_overHidden :
    (∃ q root last, optimize .empty { directReturn := false } (overHidden []) = .ok q ∧
      (overHidden []).rootCte = some root ∧ q.rootCte = some last ∧ root.visible = ["local.x", "local.y"] ∧
      last.visible = root.visible) ∧
    ∃ q root last, optimize .empty {} (overHidden []) = .ok q ∧ (overHidden []).rootCte = some root ∧
      q.rootCte = some last ∧ root.visible = ["local.x", "local.y"] ∧ last.visible = root.visible := by
  have hshown : ∀ direct : Bool, ∃ q root last, optimize .empty { directReturn := direct } (overHidden []) = .ok q ∧
      (overHidden []).rootCte = some root ∧ q.rootCte = some last ∧ root.visible = ["local.x", "local.y"] ∧
      last.visible = root.visible := by
    intro direct
    have hwell : (overHidden []).WellFormed :=
      wellFormed_of_idxOf (by decide +kernel) (by decide +kernel) (by decide +kernel)
    have hread : ∀ c ∈ (overHidden []).ctes, "root" ∉ c.parents := by decide +kernel
    have hhidden : ∀ c ∈ (overHidden []).ctes, c.hidden = ∅ := by decide +kernel
    have hroot : (overHidden []).rootCte.map Cte.visible = some ["local.x", "local.y"] := by decide +kernel
    have hok : ∀ direct : Bool, (optimize .empty { directReturn := direct } (overHidden [])).toOption.map
        (fun _ => ()) = some () := by decide +kernel
    obtain ⟨q, hq, -⟩ := exists_optimized (hok direct)
    obtain ⟨root, last, through, hr, hlast, -, -, -, hkept⟩ :=
      visible_optimizeBy Topological.isSort_order hwell (fun _ n ⟨c, hc, _, hm⟩ => hread c hc hm) hq
    rw [hr] at hroot
    refine ⟨q, root, last, hq, hr, hlast, Option.some.inj hroot, hkept fun c hc _ x _ hx => ?_⟩
    rw [hhidden c hc] at hx
    exact SortedSet.not_mem_empty x hx
  exact ⟨hshown false, hshown true⟩

end CtePlan

end SemanticPlanner
