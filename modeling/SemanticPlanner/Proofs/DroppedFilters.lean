/-
No filter is lost where conditions are dropped because the parents apply them.

  redundant_of_redundancy  what is checked of the parents before a condition is dropped
  Descent                  a chain from a step through parents down to a step without any
  Dropped                  what a run does to a plan: conditions stay or are dropped, the latter where all parents that
                           are left applied them in the plan as it was at first
  filter_kept              a condition that was dropped is still applied on every chain below

A parent on which a condition was dropped may later lose its own, with the same argument: then its condition, of which
the first one is a part, is applied below it. So the induction is on the chain, for all conditions at once.
-/
import SemanticPlanner.Proofs.Conjunctions
import SemanticPlanner.Proofs.Rewriting

namespace SemanticPlanner

variable {env : Environment} {s : OptimizerSettings} {p q : CtePlan} {c d : Cte} {n : String} {t : Condition}
  {unread : List String} {g : Cte → Cte}

namespace PushPredicate

/-! ## Single removals -/

/-- the pairs of keys and what was found for them, where all were found -/
theorem mem_zip_mapM {α β : Type} {f : α → Option β} {l : List α} {found : List β} (h : l.mapM f = some found) :
    (∀ a ∈ l, ∃ b, f a = some b) ∧ ∀ a b, (a, b) ∈ l.zip found ↔ a ∈ l ∧ f a = some b := by
  induction l generalizing found with
  | nil => simp
  | cons a l ih =>
    rw [List.mapM_cons] at h
    obtain ⟨b, hb, h⟩ := Option.bind_eq_some_iff.1 h
    obtain ⟨rest, hrest, h⟩ := Option.bind_eq_some_iff.1 h
    cases h
    obtain ⟨hall, hzip⟩ := ih hrest
    refine ⟨List.forall_mem_cons.2 ⟨⟨b, hb⟩, hall⟩, fun a' b' => ?_⟩
    rw [List.zip_cons_cons, List.mem_cons, List.mem_cons, hzip, Prod.mk.injEq]
    constructor
    · rintro (⟨rfl, rfl⟩ | ⟨hmem, hf⟩)
      · exact ⟨Or.inl rfl, hb⟩
      · exact ⟨Or.inr hmem, hf⟩
    · rintro ⟨rfl | hmem, hf⟩
      · rw [hb] at hf
        exact Or.inl ⟨rfl, (Option.some.inj hf).symm⟩
      · exact Or.inr ⟨hmem, hf⟩

/-- some parents are still read, and all of them apply the condition -/
structure Redundant (p : CtePlan) (c : Cte) (t : Condition) (unread : List String) : Prop where
  kept : ∃ n ∈ c.parents, n ∉ unread
  applied : ∀ n ∈ c.parents, n ∉ unread → ∃ e, p.find? n = some e ∧ t.holdsInOption e.condition = true

theorem redundant_of_redundancy (h : redundancy p c t = some unread) : Redundant p c t unread := by
  unfold redundancy at h
  obtain ⟨parents, hparents, h⟩ := Option.bind_eq_some_iff.1 h
  obtain ⟨hfound, hzip⟩ := mem_zip_mapM hparents
  dsimp only at h
  obtain ⟨hguard, he⟩ := Option.ite_none_right_eq_some.1 h
  obtain rfl := Option.some.inj he
  rw [List.partition_eq_filter_filter] at hguard ⊢
  simp only [Bool.and_eq_true, List.all_eq_true, List.mem_filter] at hguard
  obtain ⟨hsome, hall⟩ := hguard
  -- a parent counts as unread exactly if the step of its name does
  have hunread : ∀ n e, p.find? n = some e → n ∈ c.parents → (isExistenceOnly t e = true ↔
      n ∈ ((c.parents.zip parents).filter fun e => isExistenceOnly t e.2).map Prod.fst) := by
    intro n e he hn
    rw [List.mem_map]
    constructor
    · intro hex
      exact ⟨(n, e), List.mem_filter.2 ⟨(hzip n e).2 ⟨hn, he⟩, hex⟩, rfl⟩
    · rintro ⟨⟨n', e'⟩, hmem, rfl⟩
      obtain ⟨hpair, hex⟩ := List.mem_filter.1 hmem
      rw [((hzip n' e').1 hpair).2] at he
      exact Option.some.inj he ▸ hex
  refine ⟨?_, fun n hn hnot => ?_⟩
  · obtain ⟨⟨n, e⟩, hrow⟩ := List.isEmpty_eq_false_iff_exists_mem.1 (Bool.not_eq_true' _ ▸ hsome)
    obtain ⟨hpair, hrows⟩ := List.mem_filter.1 hrow
    obtain ⟨hn, he⟩ := (hzip n e).1 hpair
    refine ⟨n, hn, fun h => ?_⟩
    simp [(hunread n e he hn).2 h] at hrows
  · obtain ⟨e, he⟩ := hfound n hn
    have hrow : isExistenceOnly t e = false := by
      rw [← Bool.not_eq_true]
      exact fun hex => hnot ((hunread n e he hn).1 hex)
    exact ⟨e, he, hall (n, e) ⟨(hzip n e).2 ⟨hn, he⟩, by simp [hrow]⟩⟩

/-- what is unread are parents -/
theorem mem_parents_of_unread (h : redundancy p c t = some unread) (hn : n ∈ unread) : n ∈ c.parents := by
  unfold redundancy at h
  obtain ⟨parents, -, h⟩ := Option.bind_eq_some_iff.1 h
  dsimp only at h
  obtain ⟨-, he⟩ := Option.ite_none_right_eq_some.1 h
  obtain rfl := Option.some.inj he
  rw [List.partition_eq_filter_filter] at hn
  obtain ⟨e, he, rfl⟩ := List.mem_map.1 hn
  exact (List.of_mem_zip (List.mem_of_mem_filter he)).1

/-! ## Runs -/

/-- a condition was dropped from a step: parents are left, and all of them applied it -/
structure Relies (p : CtePlan) (t : Condition) (d : Cte) : Prop where
  dropped : d.condition = none
  reads : ∃ n, n ∈ d.parents
  applied : ∀ n ∈ d.parents, ∃ e ∈ p.ctes, e.name = n ∧ t.holdsInOption e.condition = true

/-- the plan after a run: each step is exchanged for one that has the condition still, or that relies on its parents -/
structure Dropped (p q : CtePlan) (g : Cte → Cte) : Prop where
  ctes : q.ctes = p.ctes.map g
  name : ∀ c ∈ p.ctes, (g c).name = c.name
  condition : ∀ c ∈ p.ctes, (g c).condition = c.condition ∨ ∃ t, c.condition = some t ∧ Relies p t (g c)

theorem Dropped.refl : Dropped p p id := ⟨(List.map_id _).symm, fun _ _ => rfl, fun _ _ => Or.inl rfl⟩

theorem Dropped.names (h : Dropped p q g) : q.names = p.names := CtePlan.names_of_map h.ctes h.name

theorem Dropped.apply (hn : p.names.Nodup) (h : Dropped p q g) (n : String) (memory : RuleMemory) :
    ∃ g', Dropped p (applyRemoval n memory q).plan g' := by
  rcases applyRemoval_cases n memory q with he | ⟨d, t, unread, hd, ht, -, hunread, he⟩
  · rw [he]
    exact ⟨g, h⟩
  · rw [he]
    have hredundant := redundant_of_redundancy hunread
    obtain ⟨hmem, hdn⟩ := CtePlan.find?_some hd
    let f := fun e : Cte => if e.name = n then dropCondition unread e else e
    have hctes : (q.modify n (dropCondition unread)).ctes = q.ctes.map f := CtePlan.ctes_modify (h.names ▸ hn) _ _
    refine ⟨f ∘ g, by rw [hctes, h.ctes, List.map_map], fun c hc => ?_, fun c hc => ?_⟩
    · rw [← h.name c hc]
      show (if _ then _ else _ : Cte).name = _
      split
      · rfl
      · rfl
    · by_cases hname : (g c).name = n
      · -- this is the step that was visited, and it had its condition
        have hvisited : g c = d := CtePlan.eq_of_name (h.names ▸ hn) (h.ctes ▸ List.mem_map_of_mem hc) hmem
          (hname.trans hdn.symm)
        have hkept : c.condition = some t := by
          rcases h.condition c hc with hkept | ⟨u, -, hrelies⟩
          · rw [← hkept, hvisited, ht]
          · rw [← hvisited, hrelies.dropped] at ht
            cases ht
        have hresult : (f ∘ g) c = dropCondition unread d := (if_pos hname).trans (by rw [hvisited])
        rw [hresult]
        have hparents : ∀ m, m ∈ (dropCondition unread d).parents ↔ m ∈ d.parents ∧ m ∉ unread := by
          simp [dropCondition]
        refine Or.inr ⟨t, hkept, rfl, ?_, fun m hm => ?_⟩
        · obtain ⟨m, hm, hread⟩ := hredundant.kept
          exact ⟨m, (hparents m).2 ⟨hm, hread⟩⟩
        · obtain ⟨hmem', hread⟩ := (hparents m).1 hm
          obtain ⟨e, he, happlied⟩ := hredundant.applied m hmem' hread
          obtain ⟨hemem, hename⟩ := CtePlan.find?_some he
          obtain ⟨e₀, he₀, rfl⟩ := List.mem_map.1 (h.ctes ▸ hemem)
          refine ⟨e₀, he₀, (h.name e₀ he₀).symm.trans hename, ?_⟩
          rcases h.condition e₀ he₀ with hsame | ⟨_, -, hrelies⟩
          · exact hsame ▸ happlied
          · rw [hrelies.dropped] at happlied
            cases happlied
      · have hresult : (f ∘ g) c = g c := if_neg hname
        rw [hresult]
        exact h.condition c hc

theorem exists_dropped (hn : p.names.Nodup) (h : Relation.ReflTransGen (Rule.dropPredicate.Applies env s) p q) :
    ∃ g, Dropped p q g := by
  induction h with
  | refl => exact ⟨id, .refl⟩
  | tail _ hq ih =>
    obtain ⟨g, hg⟩ := ih
    obtain ⟨name, memory, rfl⟩ := hq
    exact hg.apply hn name memory

end PushPredicate

/-! ## Chains of steps -/

namespace CtePlan

/-- a chain from a step, which is not listed, through parents down to a step without any -/
inductive Descent (p : CtePlan) : Cte → List Cte → Prop
  | bottom {c : Cte} : c.parents = [] → Descent p c []
  | down {c d : Cte} {l : List Cte} : d ∈ p.ctes → d.name ∈ c.parents → Descent p d l → Descent p c (d :: l)

end CtePlan

namespace PushPredicate

/-- what a step relies on is applied on every chain below it -/
theorem Dropped.applied_below (hn : p.names.Nodup) (h : Dropped p q g) {l : List Cte} (hl : q.Descent d l)
    {t : Condition} (ht : Relies p t d) : ∃ e ∈ l, t.holdsInOption e.condition = true := by
  induction hl generalizing t with
  | bottom hnone =>
    obtain ⟨m, hm⟩ := ht.reads
    rw [hnone] at hm
    cases hm
  | @down d e l he hread _ ih =>
    obtain ⟨e₀, he₀, rfl⟩ := List.mem_map.1 (h.ctes ▸ he)
    obtain ⟨e', he', hname, happlied⟩ := ht.applied _ hread
    have hsame : e' = e₀ := CtePlan.eq_of_name hn he' he₀ (hname.trans (h.name e₀ he₀))
    rw [hsame] at happlied
    rcases h.condition e₀ he₀ with hkept | ⟨u, hu, hrelies⟩
    · exact ⟨g e₀, List.mem_cons_self, hkept ▸ happlied⟩
    · -- the parent lost the condition of which this one is a part
      obtain ⟨k, hk, hbelow⟩ := ih hrelies
      rw [hu] at happlied
      exact ⟨k, List.mem_cons_of_mem _ hk, Condition.holdsInOption_trans happlied hbelow⟩

/-- **a condition stays where it was, or it is applied on every chain below** -/
theorem filter_kept (hn : p.names.Nodup) (h : Relation.ReflTransGen (Rule.dropPredicate.Applies env s) p q) :
    q.names = p.names ∧ ∀ c ∈ p.ctes, ∃ d ∈ q.ctes, d.name = c.name ∧ (d.condition = c.condition ∨
      d.condition = none ∧ ∃ t, c.condition = some t ∧
        ∀ l, q.Descent d l → ∃ e ∈ l, t.holdsInOption e.condition = true) := by
  obtain ⟨g, hg⟩ := exists_dropped hn h
  refine ⟨hg.names, fun c hc => ⟨g c, hg.ctes ▸ List.mem_map_of_mem hc, hg.name c hc, ?_⟩⟩
  rcases hg.condition c hc with hkept | ⟨t, ht, hrelies⟩
  · exact Or.inl hkept
  · exact Or.inr ⟨hrelies.dropped, t, ht, fun l hl => hg.applied_below hn hl hrelies⟩

/-- rows that are on a list -/
def listed : Condition := .membership (.concept "local.x") .isIn "local.vip"

/-- items on a list, and two steps above them that filter by the list as well, which a step of its own provides -/
def listedTwice : CtePlan :=
  let source (name column : String) : Datasource := .ofColumns name [.bind column column] []
  let filtered (name : String) (parents : List String) (datasources : List Datasource) (from? : String) : Cte :=
    { CtePlan.plainStep name .select parents datasources [("local.x", [from?])] ["local.x"] with
      condition := some listed }
  ⟨[CtePlan.plainStep "vips" .select [] [source "vips" "vip"] [("local.vip", ["vips"])] ["local.vip"],
    filtered "items" [] [source "items" "x"] "items", filtered "low" ["items", "vips"] [] "items",
    filtered "root" ["low", "vips"] [] "low"], "root"⟩

/-- the root loses its condition to the step below it, which then loses its own; the items are still on the list -/
theorem filter_kept_listedTwice : ∃ q, Relation.ReflTransGen (Rule.dropPredicate.Applies .empty {}) listedTwice q ∧
    ∃ root low items : Cte, q.Descent root [low, items] ∧ root.name = "root" ∧ root.condition = none ∧
      low.condition = none ∧ ∃ e ∈ [low, items], listed.holdsInOption e.condition = true := by
  have hn : listedTwice.names.Nodup := by decide +kernel
  have hrun := Rule.dropPredicate.applyAll_applies {} .empty ["root", "low"] (.unchanged {} listedTwice)
  obtain ⟨hnames, hkept⟩ := filter_kept hn hrun
  set q := (Rule.dropPredicate.applyAll {} .empty ["root", "low"] (.unchanged {} listedTwice)).plan
  have hleft : ["root", "low", "items"].map (fun n => (q.find? n).map fun c => (c.parents, c.condition.isNone)) =
      [some (["low"], true), some (["items"], true), some ([], false)] := by decide +kernel
  simp only [List.map_cons, List.map_nil, List.cons.injEq, Option.map_eq_some_iff, Prod.mk.injEq, and_true] at hleft
  obtain ⟨⟨root, hroot, hrootParents, hrootNone⟩, ⟨low, hlow, hlowParents, hlowNone⟩, items, hitems, hnone, -⟩ := hleft
  have hstep : ∀ {n : String} {c : Cte}, q.find? n = some c → c ∈ q.ctes ∧ c.name = n := CtePlan.find?_some
  have hdescent : q.Descent root [low, items] :=
    .down (hstep hlow).1 (by simp [hrootParents, (hstep hlow).2])
      (.down (hstep hitems).1 (by simp [hlowParents, (hstep hitems).2]) (.bottom hnone))
  obtain ⟨c, hc, hcname, hcondition⟩ : ∃ c ∈ listedTwice.ctes, c.name = "root" ∧ c.condition = some listed :=
    ⟨_, List.mem_of_getLast? rfl, rfl, rfl⟩
  obtain ⟨d, hd, hdname, hor⟩ := hkept c hc
  obtain rfl : d = root :=
    CtePlan.eq_of_name (hnames ▸ hn) hd (hstep hroot).1 (hdname.trans (hcname.trans (hstep hroot).2.symm))
  have hnow : d.condition = none := Option.isNone_iff_eq_none.1 hrootNone
  rcases hor with hsame | ⟨-, t, ht, happlied⟩
  · rw [hnow, hcondition] at hsame
    cases hsame
  · obtain rfl : listed = t := Option.some.inj (hcondition.symm.trans ht)
    exact ⟨q, hrun, d, low, items, hdescent, (hstep hroot).2, hnow, Option.isNone_iff_eq_none.1 hlowNone,
      happlied _ hdescent⟩

end PushPredicate

end SemanticPlanner
