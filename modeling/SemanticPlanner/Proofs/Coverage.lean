/-
What a complete stack covers.

  Leads            the addresses a concept can be taken for: its own, and those its pseudonyms lead to
  Covers           a node shows an address or a stand-in for it, or is a merge over a relation that does
  Reaches          a node covers an address or has it hidden, or one that it stands on does
  visit_found      counting a concept finds only addresses it leads to
  check_covers     a stack found to be complete has a node that covers each mandatory concept
  Covers.congr, Covers.change, Covers.copy
                   what a node covers stays covered where the nodes below it stay, where the node itself keeps its
                   outputs, and by its copies
  Covers.addOutputs
                   what a node covers it reaches where it is given more outputs

The check looks at the relations that the nodes of a stack resolve to. A relation shows what its node shows except where
a merge hands a parent back, so that what is found there is a column of the node or of such a parent.
-/
import SemanticPlanner.Proofs.Copy
import SemanticPlanner.Proofs.ItemByItem
import SemanticPlanner.Proofs.Naming
import SemanticPlanner.Proofs.Refinement
import SemanticPlanner.Search.Coverage

namespace SemanticPlanner

/-! ## Steps taken for each item of a list -/

/-- steps that all succeed give one result for each item -/
theorem forall₂_mapM_ok {ε α β : Type} {f : α → Except ε β} {l : List α} {vs : List β} (h : l.mapM f = .ok vs) :
    List.Forall₂ (fun x v => f x = .ok v) l vs := by
  induction l generalizing vs with
  | nil =>
    cases h
    exact .nil
  | cons x l ih =>
    rw [List.mapM_cons] at h
    obtain ⟨v, hv, h⟩ := Resolve.bind_eq_ok h
    obtain ⟨vs', hvs, h⟩ := Resolve.bind_eq_ok h
    cases h
    exact .cons hv (ih hvs)

/-- each result of steps that all succeed is that of one item -/
theorem mem_mapM_ok {ε α β : Type} {f : α → Except ε β} {l : List α} {vs : List β} {v : β} (h : l.mapM f = .ok vs)
    (hv : v ∈ vs) : ∃ x ∈ l, f x = .ok v :=
  exists_of_forall₂ (forall₂_mapM_ok h).flip hv

/-! ## Stand-ins -/

namespace Environment

/-- an address that a concept can be taken for: its own, or one that its pseudonyms lead to -/
inductive Leads (env : Environment) : Concept → String → Prop
  | self (c : Concept) : Leads env c c.address
  | pseudonym {c d : Concept} {p x : String} : p ∈ c.pseudonyms → env.find? p = some d → Leads env d x → Leads env c x

/-- a column that can be taken for another: that column itself, or one whose concept leads to it -/
def StandsFor (env : Environment) (y x : String) : Prop := y = x ∨ ∃ c, env.find? y = some c ∧ env.Leads c x

/-- every concept is kept under its own address -/
def Keyed (env : Environment) : Prop := ∀ x c, env.find? x = some c → c.address = x

/-- only its own pseudonyms can be taken for a concept -/
def OnlyNames (env : Environment) (c : Concept) : Prop :=
  ∀ y, env.StandsFor y c.address → y = c.address ∨ y ∈ c.pseudonyms

theorem isDeclared_iff {env : Environment} {x : String} : env.isDeclared x = true ↔ ∃ c, env.find? x = some c :=
  Option.isSome_iff_exists

theorem concept_eq_ok {env : Environment} {x : String} {c : Concept} (h : env.concept x = .ok c) :
    env.find? x = some c := by
  simp only [concept] at h
  split at h
  · cases h
    assumption
  · cases h

end Environment

/-- every address of a list stays when the list is cut down to one concept an address -/
theorem Concept.mem_addresses_unique {cs : List Concept} {x : String} :
    x ∈ addresses (unique cs) ↔ x ∈ addresses cs := by
  have hstep : ∀ out, x ∈ addresses (cs.foldl
      (fun out c => if out.any fun d => d.address == c.address then out else out ++ [c]) out) ↔
      x ∈ addresses out ∨ x ∈ addresses cs := by
    induction cs with
    | nil => simp [addresses]
    | cons c cs ih =>
      intro out
      rw [List.foldl_cons, ih]
      split
      · rename_i hany
        obtain ⟨d, hd, he⟩ := List.any_eq_true.1 hany
        have hmem : c.address ∈ addresses out := List.mem_map.2 ⟨d, hd, eq_of_beq he⟩
        rw [show addresses (c :: cs) = c.address :: addresses cs from rfl, List.mem_cons]
        constructor
        · exact Or.imp_right Or.inr
        · rintro (h | rfl | h)
          · exact Or.inl h
          · exact Or.inl hmem
          · exact Or.inr h
      · simp only [addresses, List.map_append, List.map_cons, List.map_nil, List.mem_append, List.mem_cons,
          List.not_mem_nil, or_false]
        exact or_assoc
  rw [unique, hstep]
  exact or_iff_right List.not_mem_nil

namespace Arena

variable {a b : Arena} {id p q : PlanId} {r : Relation} {x : String}

/-- a merge that, its condition apart, has a relation to hand back: that of a parent it was given first, or of several
of one identifier put together -/
def CouldHandBack (a : Arena) (id : PlanId) (r : Relation) : Prop :=
  (a.node id).kind.sourceKind = .merge ∧
    ∃ rs, (∀ e ∈ (a.parents id).zip rs, a.Resolves e.1 e.2) ∧ rs.length ≤ (a.parents id).length ∧
      Resolve.Answers (a.core id).outputs (Resolve.mergedSources rs) r

theorem HandsBack.could (h : a.HandsBack id r) : a.CouldHandBack id r := by
  obtain ⟨hk, -, rs, hl, hp, hr⟩ := h
  exact ⟨hk, rs, hp, Nat.le_of_eq hl, hr⟩

/-- a column that can be taken for the address is visible on the node, or on a relation that it could hand back -/
def Covers (a : Arena) (id : PlanId) (x : String) : Prop :=
  ∃ y, a.environment.StandsFor y x ∧
    (y ∈ (a.core id).visible ∨ ∃ r, a.CouldHandBack id r ∧ y ∈ r.visible)

/-- a column that can be taken for the address is on the node without being visible: among the outputs that it hides, or
among those of a relation that it could hand back -/
def Withholds (a : Arena) (id : PlanId) (x : String) : Prop :=
  ∃ y, a.environment.StandsFor y x ∧ y ∉ (a.core id).visible ∧
    (y ∈ (a.core id).outputs ∨ ∃ r, a.CouldHandBack id r ∧ y ∈ r.outputs)

/-- an address is covered or withheld by the node, or by one that it stands on -/
def Reaches (a : Arena) (id : PlanId) (x : String) : Prop :=
  ∃ m, (m = id ∨ m ∈ a.parents id) ∧ (a.Covers m x ∨ a.Withholds m x)

theorem Covers.reaches (h : a.Covers id x) : a.Reaches id x := ⟨id, Or.inl rfl, Or.inl h⟩

/-- what a relation of a node shows is covered by the node -/
theorem Resolves.covers (h : a.Resolves id r) {y : String} (hy : y ∈ r.visible)
    (hx : a.environment.StandsFor y x) : a.Covers id x := by
  rcases h.visible with hv | hb
  · exact ⟨y, hx, Or.inl (hv ▸ hy)⟩
  · exact ⟨y, hx, Or.inr ⟨r, hb.could, hy⟩⟩

/-- a column of a relation is on its node, or on a relation that the node hands back -/
theorem Resolves.covers_or_withholds (h : a.Resolves id r) {y : String} (hy : y ∈ r.outputs)
    (hx : a.environment.StandsFor y x) : a.Covers id x ∨ a.Withholds id x := by
  by_cases hv : y ∈ (a.core id).visible
  · exact Or.inl ⟨y, hx, Or.inl hv⟩
  · refine Or.inr ⟨y, hx, hv, ?_⟩
    rcases h.shows with ⟨houtputs, -⟩ | hb
    · exact Or.inl (houtputs ▸ hy)
    · exact Or.inr ⟨r, hb.could, hy⟩

/-- a column of sources put together is a column of one of them -/
theorem Merges.mem_outputs {rs : List Relation} (h : Resolve.Merges rs r) {y : String} (hy : y ∈ r.outputs) :
    ∃ s ∈ rs, y ∈ s.outputs := by
  induction h with
  | one hr => exact ⟨_, hr, hy⟩
  | more _ hb _ ih =>
    rcases mem_addAllNew.1 hy with hy | hy
    · exact ih hy
    · exact ⟨_, hb, hy⟩

/-- what a node could hand back is on its parents -/
theorem CouldHandBack.reaches (h : a.CouldHandBack id r) {y : String} (hy : y ∈ r.outputs)
    (hx : a.environment.StandsFor y x) : ∃ m ∈ a.parents id, a.Covers m x ∨ a.Withholds m x := by
  obtain ⟨-, rs, hrs, hl, hanswers⟩ := h
  obtain ⟨q, hq, hmerges⟩ := Resolve.mem_mergedSources hanswers.mem
  cases hq
  obtain ⟨s, hs, hys⟩ := Merges.mem_outputs hmerges hy
  obtain ⟨m, hm⟩ := mem_zip_of_mem_right hl hs
  exact ⟨m, (List.of_mem_zip hm).1, (hrs _ hm).covers_or_withholds hys hx⟩

/-! ## What keeps a node covering -/

theorem CouldHandBack.congr (h : a.CouldHandBack id r) (he : b.environment = a.environment)
    (hn : a.AgreeBelow b id) : b.CouldHandBack id r := by
  obtain ⟨hk, rs, hrs, hl, hr⟩ := h
  have hid : b.node id = a.node id := hn id (Or.inl rfl)
  have hps : b.parents id = a.parents id := hn.parents (Or.inl rfl)
  refine ⟨by rw [hid, hk], rs, ?_, hps ▸ hl, ?_⟩
  · intro e hmem
    rw [hps] at hmem
    exact (hrs e hmem).congr he (hn.parent (List.of_mem_zip hmem).1)
  · rw [core, hid]
    exact hr

/-- what a node covers depends on the nodes below it alone -/
theorem Covers.congr (h : a.Covers id x) (he : b.environment = a.environment) (hn : a.AgreeBelow b id) :
    b.Covers id x := by
  obtain ⟨y, hy, hv⟩ := h
  refine ⟨y, he ▸ hy, ?_⟩
  rcases hv with hv | ⟨r, hr, hv⟩
  · left
    rw [core, hn id (Or.inl rfl)]
    exact hv
  · exact Or.inr ⟨r, hr.congr he hn, hv⟩

/-- a node covers what it covered where only kept relations differ -/
theorem Covers.sameNodes (h : a.Covers id x) (hb : a.SameNodes b) : b.Covers id x :=
  h.congr hb.environment fun y _ => hb.node y

/-- items of a zip stay where the first list is continued -/
theorem zip_of_prefixed {α β : Type} {l l' : List α} {m : List β} (h : l <+: l') (hm : m.length ≤ l.length) :
    l'.zip m = l.zip m := by
  obtain ⟨t, rfl⟩ := h
  induction l generalizing m with
  | nil => rw [List.length_eq_zero_iff.1 (Nat.le_zero.1 hm), List.zip_nil_right, List.zip_nil_right]
  | cons y l ih =>
    cases m with
    | nil => rw [List.zip_nil_right, List.zip_nil_right]
    | cons z m =>
      rw [List.cons_append, List.zip_cons_cons, List.zip_cons_cons, ih (Nat.le_of_succ_le_succ hm)]

/-- a node that keeps its kind, what it shows and the parents it has covers what it covered -/
theorem Covers.change (h : a.Covers id x) (he : b.environment = a.environment)
    (hk : (b.node id).kind = (a.node id).kind) (ho : (b.core id).outputs = (a.core id).outputs)
    (hh : (b.core id).hidden = (a.core id).hidden) (hp : a.parents id <+: b.parents id)
    (hn : ∀ y, a.DependsOn id y → b.node y = a.node y) : b.Covers id x := by
  obtain ⟨y, hy, hv⟩ := h
  refine ⟨y, he ▸ hy, ?_⟩
  rcases hv with hv | ⟨r, ⟨hm, rs, hrs, hl, hr⟩, hv⟩
  · left
    rw [NodeCore.visible, ho, hh]
    exact hv
  · refine Or.inr ⟨r, ⟨by rw [hk, hm], rs, ?_, Nat.le_trans hl hp.length_le, ho ▸ hr⟩, hv⟩
    intro e hmem
    rw [zip_of_prefixed hp hl] at hmem
    have hpar := (List.of_mem_zip hmem).1
    refine (hrs e hmem).congr he fun z hz => hn z ?_
    rcases hz with rfl | hz
    · exact .of_parent hpar
    · exact hz.head hpar

theorem Withholds.congr (h : a.Withholds id x) (he : b.environment = a.environment) (hn : a.AgreeBelow b id) :
    b.Withholds id x := by
  have hid : b.core id = a.core id := congrArg PlanNode.core (hn id (Or.inl rfl))
  obtain ⟨y, hy, hv, ho⟩ := h
  exact ⟨y, he ▸ hy, hid ▸ hv, hid ▸ ho.imp_right fun ⟨r, hr, hyr⟩ => ⟨r, hr.congr he hn, hyr⟩⟩

/-- a change of one node changes nothing that it stands on -/
theorem agreeBelow_of_others (ha : a.WellFormed) (hn : ∀ y, y ≠ id → b.node y = a.node y) (hx : p ∈ a.parents id) :
    a.AgreeBelow b p := by
  intro z hz
  refine hn z ?_
  rintro rfl
  rcases hz with rfl | hz
  · exact ha.acyclic _ (.of_parent hx)
  · exact ha.acyclic _ (hz.head hx)

theorem core_addOutputs (hid : a.contains id = true) (cs : List String) : (a.addOutputs id cs).core id =
    { a.core id with
      outputs := addAllNew (a.core id).outputs cs
      hidden := (a.core id).hidden.filter fun h => !cs.contains h } :=
  core_change_self _ hid

/-- an output that is added is shown -/
theorem covers_addOutputs (hid : a.contains id = true) {cs : List String} (hx : x ∈ cs) :
    (a.addOutputs id cs).Covers id x := by
  refine ⟨x, Or.inl rfl, Or.inl ?_⟩
  rw [core_addOutputs hid]
  refine List.mem_filter.2 ⟨mem_addAllNew.2 (Or.inr hx), SortedSet.not_contains_iff.2 fun h => ?_⟩
  simpa [hx] using (SortedSet.mem_filter.1 h).2

/-- **a node that is given more outputs has what it covered**, or a parent of it has, as it may have handed that one
back -/
theorem Covers.addOutputs (h : a.Covers id x) (ha : a.WellFormed) (hid : a.contains id = true) (cs : List String) :
    (a.addOutputs id cs).Reaches id x := by
  obtain ⟨y, hy, hv⟩ := h
  rcases hv with hv | ⟨r, hr, hv⟩
  · refine Covers.reaches ⟨y, hy, Or.inl ?_⟩
    rw [core_addOutputs hid]
    obtain ⟨ho, hh⟩ := List.mem_filter.1 hv
    refine List.mem_filter.2 ⟨mem_addAllNew.2 (Or.inl ho), SortedSet.not_contains_iff.2 fun h => ?_⟩
    exact SortedSet.not_contains_iff.1 hh (SortedSet.mem_filter.1 h).1
  · obtain ⟨m, hm, hreach⟩ := hr.reaches (List.mem_of_mem_filter hv) hy
    have hagree : a.AgreeBelow (a.addOutputs id cs) m :=
      agreeBelow_of_others ha (fun _ hz => node_change_of_ne _ hz) hm
    have hparents : (a.addOutputs id cs).parents id = a.parents id := parents_change _ rfl
    exact ⟨m, Or.inr (hparents ▸ hm), hreach.imp (·.congr rfl hagree) (·.congr rfl hagree)⟩

/-- a copy covers what its original covers -/
theorem Covers.copy {f : PlanId → PlanId} (h : a.Covers id x) (hf : IsCopy a b f id) : b.Covers (f id) x := by
  have hnode := hf.node id (Or.inl rfl)
  obtain ⟨y, hy, hv⟩ := h
  refine ⟨y, hf.environment ▸ hy, ?_⟩
  rcases hv with hv | ⟨r, ⟨hm, rs, hrs, hl, hr⟩, hv⟩
  · left
    rw [core, hnode.1]
    exact hv
  · have hps := hf.parents (Or.inl rfl)
    refine Or.inr ⟨r, ⟨by rw [hnode.sourceKind, hm], rs, ?_, by rw [hps, List.length_map]; exact hl, ?_⟩, hv⟩
    · intro e hmem
      rw [hps, List.zip_map_left] at hmem
      obtain ⟨w, hw, rfl⟩ := List.mem_map.1 hmem
      exact (hf.parent (List.of_mem_zip hw).1).resolves (hrs w hw)
    · rw [core, hnode.1]
      exact hr

/-- a node covers an address, or shows what a node shows that does -/
inductive Sourced (a : Arena) (id : PlanId) (x : String) : Prop
  | covered : a.Covers id x → Sourced a id x
  | grouped {below : PlanId} : (a.node id).kind.sourceKind = .group → a.parents id = [below] →
      (a.core id).visible = distinct (a.core below).visible → a.Covers below x → Sourced a id x

theorem Sourced.sameNodes (h : a.Sourced id x) (hb : a.SameNodes b) :
    b.Sourced id x := by
  cases h with
  | covered h => exact .covered (h.sameNodes hb)
  | @grouped below hk hp hv h =>
    refine .grouped (by rw [hb.node]; exact hk) ((hb.parents id).trans hp) ?_ (h.sameNodes hb)
    rw [hb.core, hb.core]
    exact hv

end Arena

namespace Coverage

variable {env : Environment} {a : Arena} {id : PlanId}

/-! ## The check -/

/-- a count that finds nothing but addresses with the given property, and nothing through virtual outputs -/
structure Counted (S : String → Prop) (t t' : Tally) : Prop where
  found : ∀ x ∈ t'.found, x ∈ t.found ∨ S x
  virtual : ∀ x ∈ t'.virtual, x ∈ t.virtual

namespace Counted

variable {S T : String → Prop} {t t' t'' : Tally}

theorem refl : Counted S t t := ⟨fun _ h => Or.inl h, fun _ h => h⟩

theorem trans (h : Counted S t t') (h' : Counted S t' t'') : Counted S t t'' := by
  refine ⟨fun x hx => ?_, fun x hx => h.virtual x (h'.virtual x hx)⟩
  rcases h'.found x hx with hx | hx
  · exact h.found x hx
  · exact Or.inr hx

theorem mono (h : Counted S t t') (hS : ∀ x, S x → T x) : Counted T t t' :=
  ⟨fun x hx => (h.found x hx).imp_right (hS x), h.virtual⟩

/-- items counted one after the other -/
theorem foldl {α : Type} {step : Tally → α → Tally} {l : List α} (h : ∀ c ∈ l, ∀ t, Counted S t (step t c)) :
    Counted S t (l.foldl step t) := by
  induction l generalizing t with
  | nil => exact .refl
  | cons c l ih =>
    exact (h c List.mem_cons_self t).trans (ih fun d hd => h d (List.mem_cons_of_mem _ hd))

end Counted

theorem count_counted {node : PlanId} {nodePartials : List String} {acceptPartial : Bool} {t : Tally}
    {address : String} : Counted (fun x => x = address) t (count node nodePartials acceptPartial t address).1 := by
  simp only [count]
  split
  · split
    · exact ⟨fun _ h => Or.inl h, fun _ h => h⟩
    · split
      · exact ⟨fun x hx => (SortedSet.mem_insert.1 hx).symm, fun _ h => h⟩
      · exact ⟨fun _ h => Or.inl h, fun _ h => h⟩
  · exact ⟨fun x hx => (SortedSet.mem_insert.1 hx).symm, fun x hx => (SortedSet.mem_erase.1 hx).1⟩

theorem follow_counted {visit : Tally → Concept → Tally} {S : String → Prop} {ps : List String}
    (h : ∀ p ∈ ps, ∀ d, env.find? p = some d → ∀ t, Counted S t (visit t d)) {t : Tally} :
    Counted S t (follow env visit ps t) := by
  induction ps generalizing t with
  | nil => exact .refl
  | cons p ps ih =>
    simp only [follow]
    split
    · exact .refl
    · split
      · exact .refl
      · rename_i d hd
        exact (h p List.mem_cons_self d hd t).trans (ih fun q hq => h q (List.mem_cons_of_mem _ hq))

/-- counting a concept finds only addresses that it leads to -/
theorem visit_counted {node : PlanId} {nodePartials : List String} {acceptPartial : Bool} {fuel : Nat} {t : Tally}
    {c : Concept} : Counted (env.Leads c) t (visit env node nodePartials acceptPartial fuel t c) := by
  induction fuel generalizing t c with
  | zero => exact .refl
  | succ fuel ih =>
    simp only [visit]
    have hself : Counted (env.Leads c) t (count node nodePartials acceptPartial t c.address).1 :=
      count_counted.mono fun x hx => hx ▸ .self c
    split
    · exact hself.trans (follow_counted fun p hp d hd t => ih.mono fun x hx => .pseudonym hp hd hx)
    · exact hself

/-- one node counted finds only what it covers -/
theorem tallyNode_yields (ha : a.WellFormed) (hv : (a.core id).virtual = []) (acceptPartial : Bool) (t : Tally) :
    Arena.Yields a.KeepsNodes (tallyNode acceptPartial t id) fun t' => Counted (a.Covers id) t t' := by
  refine .get fun b _ => ?_
  refine .bind (Arena.resolveWithin_yields ha _ id) fun r hr => ?_
  refine .get fun c hc => ?_
  refine .bind (.mapM (P := fun y d => c.environment.concept y = .ok d) fun y _ => .lift fun _ h => h)
    fun outputs houtputs => .pure ?_
  have hcore : (c.core id).virtual = [] := by rw [hc.1.core, hv]
  rw [addNode, hcore]
  refine Counted.foldl fun d hd t => visit_counted.mono fun x hx => ?_
  obtain ⟨y, hyd⟩ := Arena.mem_zip_of_mem_right (Nat.le_of_eq houtputs.1) hd
  have hfind := Environment.concept_eq_ok (houtputs.2 _ hyd)
  rw [hc.1.environment] at hfind hx
  exact hr.covers (List.of_mem_zip hyd).1 (Or.inr ⟨d, hfind, hx⟩)

/-- a stack counted finds only what some node of it covers -/
theorem foldlM_tallyNode_yields (ha : a.WellFormed) {stack : List PlanId}
    (hv : ∀ id ∈ stack, (a.core id).virtual = []) (acceptPartial : Bool) (t : Tally) :
    Arena.Yields a.KeepsNodes (stack.foldlM (tallyNode acceptPartial) t)
      fun t' => Counted (fun x => ∃ id ∈ stack, a.Covers id x) t t' := by
  induction stack generalizing t with
  | nil => exact .pure .refl
  | cons id stack ih =>
    rw [List.foldlM_cons]
    refine .bind (tallyNode_yields ha (hv id List.mem_cons_self) acceptPartial t) fun t' ht' => ?_
    refine (ih (fun p hp => hv p (List.mem_cons_of_mem _ hp)) t').mono fun t'' ht'' => ?_
    refine (ht'.mono fun x hx => ⟨id, List.mem_cons_self, hx⟩).trans (ht''.mono fun x hx => ?_)
    obtain ⟨p, hp, hx⟩ := hx
    exact ⟨p, List.mem_cons_of_mem _ hp, hx⟩

theorem conclude_complete {t : Tally} {cores : List NodeCore} {mandatory completion : List Concept}
    {condition : Option Condition}
    (h : (conclude env t cores mandatory completion condition).result = .complete) {c : Concept}
    (hc : c ∈ mandatory) : c.address ∈ t.found := by
  simp only [conclude] at h
  split at h
  · exact absurd h (by simp)
  · rename_i hm
    by_contra hn
    refine hm ?_
    rw [Bool.not_eq_true', ← Bool.not_eq_true, SortedSet.isEmpty_iff]
    intro hall
    have haddress : c.address ∈ Concept.addresses mandatory := List.mem_map_of_mem hc
    exact hall _ (SortedSet.mem_ofList.2 (List.mem_filter.2 ⟨haddress, SortedSet.not_contains_iff.2 hn⟩))

/-- what a checked stack has, if its nodes have no virtual outputs -/
structure Checked (a : Arena) (stack : List PlanId) (mandatory : List Concept) (c : Coverage) : Prop where
  covers : c.result = .complete → ∀ m ∈ mandatory, ∃ id ∈ stack, a.Covers id m.address
  virtual : ∀ x, x ∉ c.virtual

/-- **a stack found to be complete has a node that covers each mandatory concept** -/
theorem check_yields (ha : a.WellFormed) {stack : List PlanId} (hv : ∀ id ∈ stack, (a.core id).virtual = [])
    (mandatory completion : List Concept) (condition : Option Condition) (acceptPartial : Bool) :
    Arena.Yields a.KeepsNodes (check stack mandatory completion condition acceptPartial)
      (Checked a stack mandatory) := by
  refine .bind (foldlM_tallyNode_yields ha hv acceptPartial {}) fun t ht => ?_
  refine .get fun b _ => .pure ⟨fun h m hm => ?_, fun x hx => ?_⟩
  · rcases ht.found _ (conclude_complete h hm) with hf | hc
    · exact absurd hf (SortedSet.not_mem_empty _)
    · exact hc
  · exact SortedSet.not_mem_empty x (ht.virtual x hx)

end Coverage

end SemanticPlanner
