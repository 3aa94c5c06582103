/-
How many parents of one datasource are read directly, over all applications of one rule to a plan.

  Link                   a step that reads a datasource through a bare parent
  Application            an application of the rule; `replaced` and `registered` are what it did to the links of its step
  Run                    applications one after the other, between which steps may be dropped and listed anew
  Ledger                 what the memory of the rule says about the links registered and replaced so far
  Ledger.apply           an application keeps the ledger, and replaces links that were registered before it
  replaced_le_cutoff     over a whole run, of each datasource at most as many links as the cutoff are replaced
  runRule_run            the rule as the optimizer runs it is such a run

A count only grows, and a link is replaced while the count of its datasource is within the cutoff. All links of the
datasource that were replaced until then are registered, and so they are among those counted.
-/
import SemanticPlanner.Proofs.Convergence

namespace SemanticPlanner.InlineDatasource

open CtePlan (plainStep)

variable {cutoff : ℕ} {p q : CtePlan} {c d : Cte} {n m k b : String} {memory : RuleMemory}

/-! ## Links -/

/-- a step that reads a datasource through a parent -/
@[ext]
structure Link where
  consumer : String
  parent : String
  datasource : String
deriving DecidableEq

/-- the identifier of the datasource that a bare step hands on -/
def handsOn (p : CtePlan) (m : String) : Option String :=
  (p.find? m).bind fun c => c.bareDatasource.map Datasource.identifier

/-- the links of one step -/
def links (p : CtePlan) (n : String) : List Link :=
  (p.parentsOf n).filterMap fun m => (handsOn p m).map fun b => ⟨n, m, b⟩

theorem mem_links {l : Link} :
    l ∈ links p n ↔ l.consumer = n ∧ l.parent ∈ p.parentsOf n ∧ handsOn p l.parent = some l.datasource := by
  simp only [links, List.mem_filterMap, Option.map_eq_some_iff]
  constructor
  · rintro ⟨m, hm, b, hb, rfl⟩
    exact ⟨rfl, hm, hb⟩
  · rintro ⟨rfl, hm, hb⟩
    exact ⟨l.parent, hm, l.datasource, hb, rfl⟩

/-- a link is told by its parent -/
theorem eq_of_parent {l l' : Link} (h : l ∈ links p n) (h' : l' ∈ links p n) (hparent : l.parent = l'.parent) :
    l = l' := by
  obtain ⟨hconsumer, -, hb⟩ := mem_links.1 h
  obtain ⟨hconsumer', -, hb'⟩ := mem_links.1 h'
  rw [hparent, hb'] at hb
  exact Link.ext (hconsumer.trans hconsumer'.symm) hparent (Option.some.inj hb).symm

theorem nodup_links (h : (p.parentsOf n).Nodup) : (links p n).Nodup := by
  refine h.filterMap fun m m' l hl hl' => ?_
  obtain ⟨b, -, rfl⟩ := Option.map_eq_some_iff.1 hl
  obtain ⟨b', -, hl'⟩ := Option.map_eq_some_iff.1 hl'
  exact (congrArg Link.parent hl').symm

/-! ## Applications -/

theorem parentsOf_of_find? (h : p.find? n = some c) : p.parentsOf n = c.parents := by
  rw [CtePlan.parentsOf, h]

theorem parentsOf_modify (h : p.find? n = some c) (hd : d.name = n) :
    (p.modify n fun _ => d).parentsOf k = if k = n then d.parents else p.parentsOf k := by
  rw [CtePlan.parentsOf, CtePlan.find?_modify h hd]
  by_cases hk : k = n
  · rw [if_pos hk, if_pos hk]
  · rw [if_neg hk, if_neg hk]
    rfl

theorem Proceeds.reduces {t : Revision} (h : Proceeds p cutoff n c memory t) :
    ∃ d, Reduces p cutoff memory n c d ∧ t.plan = p.modify n fun _ => d := by
  cases h with
  | inlined hd hplan => exact ⟨_, hd, hplan⟩
  | registered hd hplan => exact ⟨_, hd, hplan⟩

theorem apply_of_missing (h : p.find? n = none) : apply cutoff n memory p = .unchanged memory p := by
  rw [apply, h]

theorem names_apply : (apply cutoff n memory p).plan.names = p.names := by
  cases hc : p.find? n with
  | none => rw [apply_of_missing hc]; rfl
  | some c =>
    obtain ⟨d, hd, hplan⟩ := (apply_proceeds cutoff memory hc).reduces
    rw [hplan, CtePlan.names_modify]
    intro _ _
    exact hd.name.trans (CtePlan.find?_some hc).2

/-- no step comes to have other parents, or more of them -/
theorem parentsOf_apply : ((apply cutoff n memory p).plan.parentsOf k).Sublist (p.parentsOf k) := by
  cases hc : p.find? n with
  | none => rw [apply_of_missing hc]; exact .refl _
  | some c =>
    obtain ⟨d, hd, hplan⟩ := (apply_proceeds cutoff memory hc).reduces
    rw [hplan, parentsOf_modify hc (hd.name.trans (CtePlan.find?_some hc).2)]
    split
    · rename_i hk
      rw [hk, parentsOf_of_find? hc]
      exact hd.parents
    · exact .refl _

/-- a bare step stays as it is: it has no parents -/
theorem handsOn_apply (h : handsOn p m = some b) : handsOn (apply cutoff n memory p).plan m = some b := by
  rcases apply_cases cutoff n memory p with he | ⟨c, d, hc, hd, he⟩
  · rw [he]
    exact h
  · rw [he]
    by_cases hm : m = n
    · subst hm
      have hbare : c.isBare = true := by
        rw [handsOn, hc, Option.bind_some, Option.map_eq_some_iff] at h
        obtain ⟨x, hx, -⟩ := h
        by_contra hnot
        rw [Cte.bareDatasource, if_neg hnot] at hx
        cases hx
      have hparents : c.parents = [] := by
        simp only [Cte.isBare, Bool.and_eq_true, List.isEmpty_iff] at hbare
        exact hbare.1.1.2
      cases hd with
      | none => rwa [CtePlan.modify_self hc]
      | next _ _ hparent =>
        rw [hparents] at hparent
        exact absurd hparent List.not_mem_nil
    · rwa [handsOn, CtePlan.find?_modify hc (hd.alike.name.trans (CtePlan.find?_some hc).2), if_neg hm]

/-- a parent that is gone was replaced by its datasource -/
theorem readInstead_of_gone (hm : m ∈ p.parentsOf n) (hgone : m ∉ (apply cutoff n memory p).plan.parentsOf n) :
    ∃ d, (apply cutoff n memory p).plan.find? n = some d ∧ ReadInstead p cutoff memory n d m := by
  cases hc : p.find? n with
  | none =>
    rw [CtePlan.parentsOf, hc] at hm
    exact absurd hm List.not_mem_nil
  | some c =>
    obtain ⟨d, hd, hplan⟩ := (apply_proceeds cutoff memory hc).reduces
    have hname : d.name = n := hd.name.trans (CtePlan.find?_some hc).2
    rw [hplan, parentsOf_modify hc hname, if_pos rfl] at hgone
    rw [parentsOf_of_find? hc] at hm
    refine ⟨d, ?_, (hd.gone m hm).resolve_left hgone⟩
    rw [hplan, CtePlan.find?_modify hc hname, if_pos rfl]

/-- what an application adds to the memory: nothing, or one link of its step -/
inductive Remembers (p : CtePlan) (n : String) (memory memory' : RuleMemory) : Prop
  | nothing : memory'.candidates = memory.candidates → memory'.uses = memory.uses → Remembers p n memory memory'
  | link {l : Link} : l ∈ links p n → l.parent ∉ memory.candidates.getD n ∅ →
      memory'.candidates = memory.candidates.insert n ((memory.candidates.getD n ∅).insert l.parent) →
      memory'.uses = memory.uses.update l.datasource 0 (· + 1) → Remembers p n memory memory'

theorem apply_remembers (cutoff : ℕ) (n : String) (memory : RuleMemory) (p : CtePlan) :
    Remembers p n memory (apply cutoff n memory p).memory := by
  cases hc : p.find? n with
  | none =>
    rw [apply_of_missing hc]
    exact .nothing rfl rfl
  | some c =>
    cases apply_proceeds cutoff memory hc with
    | inlined _ _ hmemory => exact .nothing (by rw [hmemory]) (by rw [hmemory])
    | @registered _ x m b _ _ hm hx hb hnew hcandidates huses =>
      have hlink : (⟨n, m, b.identifier⟩ : Link) ∈ links p n := by
        refine mem_links.2 ⟨rfl, ?_, ?_⟩
        · rwa [parentsOf_of_find? hc]
        · rw [handsOn, hx, Option.bind_some, hb]
          rfl
      exact .link hlink hnew hcandidates huses

/-- an application of the rule: the step it is applied to, and what it finds -/
structure Application where
  step : String
  memory : RuleMemory
  plan : CtePlan

namespace Application

variable {a : Application} {l : Link}

def result (cutoff : ℕ) (a : Application) : Revision := apply cutoff a.step a.memory a.plan

/-- the links whose parent the step has lost -/
def replaced (cutoff : ℕ) (a : Application) : List Link :=
  (links a.plan a.step).filter fun l => !((a.result cutoff).plan.parentsOf a.step).contains l.parent

/-- the links whose parent is remembered for the step, and was not before -/
def registered (cutoff : ℕ) (a : Application) : List Link :=
  (links a.plan a.step).filter fun l =>
    ((a.result cutoff).memory.candidates.getD a.step ∅).contains l.parent &&
      !(a.memory.candidates.getD a.step ∅).contains l.parent

theorem mem_replaced : l ∈ a.replaced cutoff ↔
    l ∈ links a.plan a.step ∧ l.parent ∉ (a.result cutoff).plan.parentsOf a.step := by
  rw [replaced, List.mem_filter]
  simp

/-- a link is replaced that is remembered, while its datasource is counted within the cutoff; it is read directly then -/
theorem of_mem_replaced (h : l ∈ a.replaced cutoff) : l.parent ∈ a.memory.candidates.getD a.step ∅ ∧
    a.memory.uses.getD l.datasource 0 ≤ cutoff ∧
    ∃ d, (a.result cutoff).plan.find? a.step = some d ∧ ∃ b ∈ d.datasources, b.identifier = l.datasource := by
  obtain ⟨hl, hgone⟩ := mem_replaced.1 h
  obtain ⟨-, hparent, hhands⟩ := mem_links.1 hl
  obtain ⟨d, hd, hregistered, x, b, hx, hb, huses, hreads⟩ := readInstead_of_gone hparent hgone
  have hdatasource : b.identifier = l.datasource := by
    rw [handsOn, hx, Option.bind_some, hb] at hhands
    exact Option.some.inj hhands
  rw [hdatasource] at huses hreads
  exact ⟨hregistered, huses, d, hd, hreads⟩

/-- every parent that the step has lost was that of a replaced link -/
theorem exists_replaced (hm : m ∈ a.plan.parentsOf a.step) (hgone : m ∉ (a.result cutoff).plan.parentsOf a.step) :
    ∃ l ∈ a.replaced cutoff, l.parent = m := by
  obtain ⟨d, -, -, x, b, hx, hb, -⟩ := readInstead_of_gone hm hgone
  refine ⟨⟨a.step, m, b.identifier⟩, mem_replaced.2 ⟨mem_links.2 ⟨rfl, hm, ?_⟩, hgone⟩, rfl⟩
  rw [handsOn, hx, Option.bind_some, hb]
  rfl

theorem registered_of_link (hparents : (a.plan.parentsOf a.step).Nodup) (hl : l ∈ links a.plan a.step)
    (hnew : l.parent ∉ a.memory.candidates.getD a.step ∅)
    (hcandidates : (a.result cutoff).memory.candidates =
      a.memory.candidates.insert a.step ((a.memory.candidates.getD a.step ∅).insert l.parent)) :
    a.registered cutoff = [l] := by
  have honly : ∀ l' ∈ links a.plan a.step,
      (((a.result cutoff).memory.candidates.getD a.step ∅).contains l'.parent &&
        !(a.memory.candidates.getD a.step ∅).contains l'.parent) = (l' == l) := by
    intro l' hl'
    rw [hcandidates, SortedMap.getD_insert, if_pos rfl, Bool.eq_iff_iff, Bool.and_eq_true, SortedSet.contains_iff,
      SortedSet.not_contains_iff, SortedSet.mem_insert, beq_iff_eq]
    constructor
    · rintro ⟨hparent | hold, hfresh⟩
      · exact eq_of_parent hl' hl hparent
      · exact absurd hold hfresh
    · rintro rfl
      exact ⟨Or.inl rfl, hnew⟩
  rw [registered, List.filter_congr honly, List.filter_beq, (nodup_links hparents).count, if_pos hl]
  rfl

theorem registered_of_nothing (h : (a.result cutoff).memory.candidates = a.memory.candidates) :
    a.registered cutoff = [] := by
  rw [registered, h, List.filter_eq_nil_iff]
  intro l _
  simp

/-- what is remembered after an application was so before, or is registered by it -/
theorem mem_candidates_result (hparents : (a.plan.parentsOf a.step).Nodup) :
    m ∈ (a.result cutoff).memory.candidates.getD k ∅ ↔
      m ∈ a.memory.candidates.getD k ∅ ∨ ∃ l ∈ a.registered cutoff, l.consumer = k ∧ l.parent = m := by
  cases apply_remembers cutoff a.step a.memory a.plan with
  | nothing hcandidates =>
    rw [registered_of_nothing hcandidates, result, hcandidates]
    simp
  | @link l hl hnew hcandidates =>
    rw [registered_of_link hparents hl hnew hcandidates, result, hcandidates, SortedMap.getD_insert]
    obtain ⟨hconsumer, -, -⟩ := mem_links.1 hl
    by_cases hk : k = a.step
    · rw [if_pos hk, SortedSet.mem_insert]
      simp [hk, hconsumer, or_comm, eq_comm]
    · rw [if_neg hk]
      simp [hconsumer, Ne.symm hk]

/-- every link that an application registers is counted for its datasource -/
theorem uses_result (hparents : (a.plan.parentsOf a.step).Nodup) (b : String) :
    (a.result cutoff).memory.uses.getD b 0 =
      a.memory.uses.getD b 0 + (a.registered cutoff).countP fun l => l.datasource = b := by
  cases apply_remembers cutoff a.step a.memory a.plan with
  | nothing hcandidates huses =>
    rw [registered_of_nothing hcandidates, result, huses]
    rfl
  | @link l hl hnew hcandidates huses =>
    rw [registered_of_link hparents hl hnew hcandidates, result, huses, SortedMap.getD_update]
    by_cases hb : b = l.datasource
    · simp [hb]
    · simp [hb, Ne.symm hb]

theorem registered_subset : a.registered cutoff ⊆ links a.plan a.step := List.filter_subset_self _

end Application

/-! ## Runs -/

/-- applications of one rule, which remembers nothing at first; between them steps may be dropped, and the others be
listed anew -/
inductive Run (cutoff : ℕ) (p : CtePlan) : List Application → RuleMemory → CtePlan → Prop
  | start : Run cutoff p [] {} p
  | apply {as : List Application} {memory : RuleMemory} {q : CtePlan} (n : String) : Run cutoff p as memory q →
      Run cutoff p (as ++ [⟨n, memory, q⟩]) (apply cutoff n memory q).memory (apply cutoff n memory q).plan
  | relist {as : List Application} {memory : RuleMemory} {q r : CtePlan} : Run cutoff p as memory q →
      (∀ c ∈ r.ctes, c ∈ q.ctes) → r.names.Nodup → Run cutoff p as memory r

/-- what the memory says about the links that were registered and replaced so far -/
structure Ledger (cutoff : ℕ) (registered replaced : List Link) (memory : RuleMemory) (q : CtePlan) : Prop where
  names : q.names.Nodup
  parents : ∀ k, (q.parentsOf k).Nodup
  candidates : ∀ k m, m ∈ memory.candidates.getD k ∅ ↔ ∃ l ∈ registered, l.consumer = k ∧ l.parent = m
  uses : ∀ b, memory.uses.getD b 0 = registered.countP fun l => l.datasource = b
  bare : ∀ l ∈ registered, l.parent ∈ q.names → handsOn q l.parent = some l.datasource
  known : replaced ⊆ registered
  once : replaced.Nodup
  gone : ∀ l ∈ replaced, l.parent ∉ q.parentsOf l.consumer
  bound : ∀ b, (replaced.countP fun l => l.datasource = b) ≤ cutoff

variable {registered replaced : List Link}

theorem Ledger.start (hnames : p.names.Nodup) (hparents : ∀ c ∈ p.ctes, c.parents.Nodup) :
    Ledger cutoff [] [] {} p := by
  refine ⟨hnames, fun k => ?_, fun k m => ?_, fun b => rfl, nofun, nofun, List.nodup_nil, nofun, fun b => Nat.zero_le _⟩
  · rw [CtePlan.parentsOf]
    split
    · rename_i c hc
      exact hparents c (CtePlan.find?_some hc).1
    · exact List.nodup_nil
  · constructor
    · intro h
      exact absurd h List.not_mem_nil
    · rintro ⟨l, hl, -⟩
      exact absurd hl List.not_mem_nil

/-- a link that is replaced was registered before -/
theorem Ledger.replaced_subset {a : Application} (h : Ledger cutoff registered replaced a.memory a.plan) :
    a.replaced cutoff ⊆ registered := by
  intro l hl
  obtain ⟨hlink, -⟩ := Application.mem_replaced.1 hl
  obtain ⟨hremembered, -, -⟩ := Application.of_mem_replaced hl
  obtain ⟨l', hl', hconsumer', hparent⟩ := (h.candidates _ _).1 hremembered
  obtain ⟨hconsumer, -, hhands⟩ := mem_links.1 hlink
  have hthere : l'.parent ∈ a.plan.names := by
    rw [hparent]
    obtain ⟨x, hx, -⟩ := Option.bind_eq_some_iff.1 hhands
    exact CtePlan.mem_names.2 ⟨x, CtePlan.find?_some hx⟩
  -- the parent hands on the datasource that it handed on when it was registered
  have hdatasource := h.bare l' hl' hthere
  rw [hparent, hhands] at hdatasource
  have hsame : l = l' :=
    Link.ext (hconsumer.trans hconsumer'.symm) hparent.symm (Option.some.inj hdatasource)
  rw [hsame]
  exact hl'

/-- no link is replaced twice: its step has lost the parent -/
theorem Ledger.once_apply {a : Application} (h : Ledger cutoff registered replaced a.memory a.plan) :
    (replaced ++ a.replaced cutoff).Nodup := by
  refine List.nodup_append'.2 ⟨h.once, (nodup_links (h.parents a.step)).filter _, fun l hl hl' => ?_⟩
  obtain ⟨hconsumer, hparent, -⟩ := mem_links.1 (Application.mem_replaced.1 hl').1
  exact h.gone l hl (hconsumer ▸ hparent)

/-- where a link is replaced its datasource is counted within the cutoff, and all that were replaced are counted -/
theorem Ledger.bound_apply {a : Application} (h : Ledger cutoff registered replaced a.memory a.plan) (b : String) :
    ((replaced ++ a.replaced cutoff).countP fun l => l.datasource = b) ≤ cutoff := by
  by_cases hnew : ∃ l ∈ a.replaced cutoff, l.datasource = b
  · obtain ⟨l, hl, rfl⟩ := hnew
    have hknown : replaced ++ a.replaced cutoff ⊆ registered := List.append_subset.2 ⟨h.known, h.replaced_subset⟩
    calc (replaced ++ a.replaced cutoff).countP (fun l' => l'.datasource = l.datasource)
        ≤ registered.countP (fun l' => l'.datasource = l.datasource) :=
          (List.subperm_of_subset h.once_apply hknown).countP_le _
      _ = a.memory.uses.getD l.datasource 0 := (h.uses _).symm
      _ ≤ cutoff := (Application.of_mem_replaced hl).2.1
  · have hnone : (a.replaced cutoff).countP (fun l => l.datasource = b) = 0 := by
      rw [List.countP_eq_zero]
      intro l hl hb
      exact hnew ⟨l, hl, of_decide_eq_true hb⟩
    rw [List.countP_append, hnone]
    exact h.bound b

/-- **an application keeps the ledger** -/
theorem Ledger.apply {a : Application} (h : Ledger cutoff registered replaced a.memory a.plan) :
    Ledger cutoff (registered ++ a.registered cutoff) (replaced ++ a.replaced cutoff) (a.result cutoff).memory
      (a.result cutoff).plan := by
  have hparents := h.parents a.step
  constructor
  case names =>
    rw [Application.result, names_apply]
    exact h.names
  case parents =>
    intro k
    exact (h.parents k).sublist parentsOf_apply
  case candidates =>
    intro k m
    rw [Application.mem_candidates_result hparents, h.candidates]
    simp [or_and_right, exists_or]
  case uses =>
    intro b
    rw [Application.uses_result hparents, h.uses, List.countP_append]
  case bare =>
    intro l hl hthere
    rw [Application.result, names_apply] at hthere
    apply handsOn_apply
    rcases List.mem_append.1 hl with hl | hl
    · exact h.bare l hl hthere
    · exact (mem_links.1 (Application.registered_subset hl)).2.2
  case known =>
    intro l hl
    rcases List.mem_append.1 hl with hl | hl
    · exact List.mem_append_left _ (h.known hl)
    · exact List.mem_append_left _ (h.replaced_subset hl)
  case once => exact h.once_apply
  case gone =>
    intro l hl hparent
    rcases List.mem_append.1 hl with hl | hl
    · exact h.gone l hl (parentsOf_apply.subset hparent)
    · obtain ⟨hlink, hgone⟩ := Application.mem_replaced.1 hl
      rw [(mem_links.1 hlink).1] at hparent
      exact hgone hparent
  case bound => exact h.bound_apply

/-- a step that is dropped takes its links with it -/
theorem Ledger.relist {r : CtePlan} (h : Ledger cutoff registered replaced memory q) (hsub : ∀ c ∈ r.ctes, c ∈ q.ctes)
    (hr : r.names.Nodup) : Ledger cutoff registered replaced memory r := by
  have hfind : ∀ {m c}, r.find? m = some c → q.find? m = some c := by
    intro m c hc
    obtain ⟨hmem, rfl⟩ := CtePlan.find?_some hc
    exact CtePlan.find?_of_mem h.names (hsub c hmem)
  have hparents : ∀ k, r.parentsOf k = q.parentsOf k ∨ r.parentsOf k = [] := by
    intro k
    cases hc : r.find? k with
    | none => exact Or.inr (by rw [CtePlan.parentsOf, hc])
    | some c => exact Or.inl (by rw [parentsOf_of_find? hc, parentsOf_of_find? (hfind hc)])
  refine ⟨hr, fun k => ?_, h.candidates, h.uses, fun l hl hthere => ?_, h.known, h.once, fun l hl => ?_, h.bound⟩
  · rcases hparents k with hk | hk
    · rw [hk]
      exact h.parents k
    · rw [hk]
      exact List.nodup_nil
  · obtain ⟨c, hc⟩ := CtePlan.exists_find? hthere
    have hname : l.parent ∈ q.names := CtePlan.mem_names.2 ⟨c, CtePlan.find?_some (hfind hc)⟩
    have hhands := h.bare l hl hname
    rwa [handsOn, hfind hc, ← hc] at hhands
  · rcases hparents l.consumer with hk | hk
    · rw [hk]
      exact h.gone l hl
    · rw [hk]
      exact List.not_mem_nil

/-- the links registered by some applications -/
abbrev allRegistered (cutoff : ℕ) (as : List Application) : List Link := as.flatMap (Application.registered cutoff)

/-- the links replaced by some applications -/
abbrev allReplaced (cutoff : ℕ) (as : List Application) : List Link := as.flatMap (Application.replaced cutoff)

variable {as : List Application}

theorem Run.ledger (hnames : p.names.Nodup) (hparents : ∀ c ∈ p.ctes, c.parents.Nodup) (h : Run cutoff p as memory q) :
    Ledger cutoff (allRegistered cutoff as) (allReplaced cutoff as) memory q := by
  induction h with
  | start => exact .start hnames hparents
  | @apply as memory q n h ih =>
    rw [allRegistered, allReplaced, List.flatMap_append, List.flatMap_append, List.flatMap_singleton,
      List.flatMap_singleton]
    exact Ledger.apply (a := ⟨n, memory, q⟩) ih
  | relist _ hsub hr ih => exact ih.relist hsub hr

/-- **a link is replaced after it was registered** -/
theorem Run.replaced_subset (hnames : p.names.Nodup) (hparents : ∀ c ∈ p.ctes, c.parents.Nodup)
    (h : Run cutoff p as memory q) {before after : List Application} {a : Application} (has : as = before ++ a :: after) :
    a.replaced cutoff ⊆ allRegistered cutoff before := by
  induction h generalizing after with
  | start => simp at has
  | @apply as memory q n h ih =>
    rcases List.eq_nil_or_concat after with rfl | ⟨after, x, rfl⟩
    · obtain ⟨rfl, ha⟩ := List.append_inj' has rfl
      obtain rfl := List.head_eq_of_cons_eq ha
      exact (h.ledger hnames hparents).replaced_subset
    · rw [List.concat_eq_append, ← List.cons_append, ← List.append_assoc] at has
      exact ih (List.append_inj' has rfl).1
  | relist _ _ _ ih => exact ih has

/--
**The cutoff of inlining.** Let one rule be applied to steps of a plan, any number of times and in any order, while steps
may be dropped and listed anew in between; names are distinct, and no step lists a parent twice. Then no link is replaced
twice, and for every datasource at most as many links over it are replaced as the cutoff says. An application replaces a
link only after an earlier one has registered it; its step reads the datasource directly then, and has lost no other
parents.
-/
theorem replaced_le_cutoff (hnames : p.names.Nodup) (hparents : ∀ c ∈ p.ctes, c.parents.Nodup)
    (h : Run cutoff p as memory q) :
    (allReplaced cutoff as).Nodup ∧
    (∀ b, ((allReplaced cutoff as).countP fun l => l.datasource = b) ≤ cutoff) ∧
    ∀ before a after, as = before ++ a :: after →
      (∀ l ∈ a.replaced cutoff, (∃ e ∈ before, l ∈ e.registered cutoff) ∧
        ∃ d, (a.result cutoff).plan.find? a.step = some d ∧ ∃ b ∈ d.datasources, b.identifier = l.datasource) ∧
      ∀ m ∈ a.plan.parentsOf a.step, m ∉ (a.result cutoff).plan.parentsOf a.step →
        ∃ l ∈ a.replaced cutoff, l.parent = m := by
  have hledger := h.ledger hnames hparents
  refine ⟨hledger.once, hledger.bound, fun before a after has => ⟨fun l hl => ⟨?_, ?_⟩, fun m hm hgone => ?_⟩⟩
  · exact List.mem_flatMap.1 (h.replaced_subset hnames hparents has hl)
  · exact (Application.of_mem_replaced hl).2.2
  · exact Application.exists_replaced hm hgone

/-- the applications to the named steps, what is remembered after them, and the plan -/
def visiting (cutoff : ℕ) (p : CtePlan) (names : List String) : List Application × RuleMemory × CtePlan :=
  names.foldl (fun (as, memory, q) n =>
    (as ++ [⟨n, memory, q⟩], (apply cutoff n memory q).memory, (apply cutoff n memory q).plan)) ([], {}, p)

/-- steps may be visited in any order -/
theorem run_visiting (cutoff : ℕ) (p : CtePlan) (names : List String) :
    Run cutoff p (visiting cutoff p names).1 (visiting cutoff p names).2.1 (visiting cutoff p names).2.2 := by
  induction names using List.reverseRecOn with
  | nil => exact .start
  | append_singleton names n ih =>
    rw [visiting, List.foldl_append]
    exact ih.apply n

/-- three steps read one datasource through a step of its own -/
def threeReaders : CtePlan :=
  ⟨[plainStep "rows" .select [] [.ofColumns "items" [.bind "x" "x"] []] [("local.x", ["items"])] ["local.x"]] ++
    ["a", "b", "c"].map (fun n => plainStep n .group ["rows"] [] [("local.x", ["rows"])] ["local.x"]) ++
    [plainStep "root" .merge ["a", "b", "c"] [] [("local.x", ["a", "b", "c"])] ["local.x"]], "root"⟩

/-- the first two are registered and replaced within a cutoff of two; the third one is counted beyond it, and stays -/
theorem replaced_le_cutoff_threeReaders :
    threeReaders.names.Nodup ∧ (∀ c ∈ threeReaders.ctes, c.parents.Nodup) ∧
    allRegistered 2 (visiting 2 threeReaders ["a", "b", "a", "b", "c", "c"]).1 =
      [⟨"a", "rows", "items"⟩, ⟨"b", "rows", "items"⟩, ⟨"c", "rows", "items"⟩] ∧
    allReplaced 2 (visiting 2 threeReaders ["a", "b", "a", "b", "c", "c"]).1 =
      [⟨"a", "rows", "items"⟩, ⟨"b", "rows", "items"⟩] ∧
    ((allReplaced 2 (visiting 2 threeReaders ["a", "b", "a", "b", "c", "c"]).1).countP fun l => l.datasource = "items") ≤
      2 := by
  have hnames : threeReaders.names.Nodup := by decide +kernel
  have hparents : ∀ c ∈ threeReaders.ctes, c.parents.Nodup := by decide +kernel
  have hbound := (replaced_le_cutoff hnames hparents (run_visiting 2 threeReaders ["a", "b", "a", "b", "c", "c"])).2.1
  exact ⟨hnames, hparents, by decide +kernel, by decide +kernel, hbound "items"⟩

/-! ## The rule in the optimizer -/

theorem Run.visits (env : Environment) {s : OptimizerSettings} (names : List String) {t : Revision}
    (h : ∃ as, Run s.inlineDatasourceCutoff p as t.memory t.plan) :
    ∃ as, Run s.inlineDatasourceCutoff p as (names.foldl (CtePlan.visit .inlineDatasource s env) t).memory
      (names.foldl (CtePlan.visit .inlineDatasource s env) t).plan := by
  induction names generalizing t with
  | nil => exact h
  | cons n rest ih =>
    refine ih ?_
    obtain ⟨as, h⟩ := h
    unfold CtePlan.visit
    split
    · exact ⟨as, h⟩
    · exact ⟨_, h.apply n⟩

/-- **the rule as the optimizer runs it is a run of applications** -/
theorem runRule_run {sort : Topological.Sorting} {env : Environment} {s : OptimizerSettings} {fuel : ℕ}
    (hsort : Topological.IsSort sort) (hq : q.WellFormed) (h : Run s.inlineDatasourceCutoff p as memory q) {r : CtePlan}
    (hrun : CtePlan.runRule sort .inlineDatasource s env fuel memory q = .ok r) :
    ∃ as memory, Run s.inlineDatasourceCutoff p as memory r := by
  induction fuel generalizing as memory q with
  | zero => cases hrun
  | succ fuel ih =>
    have hwell : (CtePlan.pass .inlineDatasource s env memory q).plan.prune.WellFormed :=
      (hq.rewrites (CtePlan.pass_rewrites .inlineDatasource memory q)).prune
    obtain ⟨listed, hlisted, hroot, hperm, hfirst⟩ := CtePlan.reorderBy_eq_ok hsort hwell
    have hrelists : CtePlan.Relists _ listed := ⟨hroot, hperm, hfirst⟩
    have hafter := hrelists.wellFormed hwell
    obtain ⟨as', hpass⟩ := Run.visits env q.visitOrder (t := .unchanged memory q) ⟨as, h⟩
    have hrest : Run s.inlineDatasourceCutoff p as' (CtePlan.pass .inlineDatasource s env memory q).memory listed := by
      refine hpass.relist (fun c hc => ?_) hafter.distinct
      exact (CtePlan.mem_prune.1 (hperm.mem_iff.1 hc)).1
    rw [CtePlan.runRule_succ hlisted] at hrun
    split at hrun
    · exact ih hafter hrest hrun
    · cases hrun
      exact ⟨as', _, hrest⟩

end SemanticPlanner.InlineDatasource
