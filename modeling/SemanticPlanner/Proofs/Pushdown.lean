/-
Moving row filters down, application by application.

  Push             one term moved into a step that is read, with what was checked
  applied_pushes   an application of the rule moves terms, one after the other
  Carried          a term on rows alone by which every reader of a step filters
  Pushed           what a run does to a plan: conditions are AND-ed with terms that their steps' readers carry
  pushed_carried   a run leaves the root's condition alone, and what it adds elsewhere stays carried to its end

A term is moved only where all readers filter by it already. Later moves change conditions, but only by AND-ing more to
them, and they do not change what is read, so that what was checked of the readers stays true.
-/
import SemanticPlanner.Proofs.Conjunctions
import SemanticPlanner.Proofs.Rewriting
import Mathlib.Data.List.Find

namespace SemanticPlanner

variable {env : Environment} {s : OptimizerSettings} {p q r : CtePlan} {c d parent : Cte} {n m : String}
  {t : Condition}

open Condition (termsOf conjoinAll)

namespace PushPredicate

/-! ## Single moves -/

/-- a term on rows alone, by which every reader of a step that is read filters -/
structure Carried (env : Environment) (p : CtePlan) (n : String) (t : Condition) : Prop where
  isTerm : t.IsTerm
  scalar : t.isScalar env ∅ = true
  rows : t.existenceArguments = []
  read : ∃ m, p.Reads m n
  shared : ∀ e ∈ p.ctes, n ∈ e.parents → t.holdsInOption e.condition = true

/-- what was checked of a term and the step that it is moved into -/
structure Moves (env : Environment) (p : CtePlan) (t : Condition) (parent : Cte) : Prop
    extends Carried env p parent.name t where
  found : p.find? parent.name = some parent
  new : t.holdsInOption parent.condition = false
  origin : ∃ c ∈ p.ctes, t ∈ termsOf c.condition

/-- one term moved -/
def Push (env : Environment) (p q : CtePlan) : Prop :=
  ∃ t parent, Moves env p t parent ∧ q = p.modify parent.name (filterBy t)

/-- one step filtered by one more term: every step has a counterpart that reads the same and filters by no less -/
theorem of_mem_filterBy (h : d ∈ (p.modify n (filterBy t)).ctes) : ∃ c ∈ p.ctes, c.name = d.name ∧
    c.parents = d.parents ∧
      ∀ u : Condition, u.holdsInOption c.condition = true → u.holdsInOption d.condition = true := by
  rcases CtePlan.of_mem_modify h with h | ⟨c, hc, rfl⟩
  · exact ⟨d, h, rfl, rfl, fun _ hu => hu⟩
  · exact ⟨c, hc, rfl, rfl, fun _ hu => Condition.holdsInOption_conjoin hu⟩

theorem reads_filterBy : (p.modify n (filterBy t)).Reads m x ↔ p.Reads m x := by
  constructor
  · rintro ⟨d, hd, rfl, hx⟩
    obtain ⟨c, hc, hname, hparents, -⟩ := of_mem_filterBy hd
    exact ⟨c, hc, hname, hparents ▸ hx⟩
  · rintro ⟨c, hc, rfl, hx⟩
    rcases CtePlan.mem_modify_or hc with h | h
    · exact ⟨_, h, rfl, hx⟩
    · exact ⟨_, h, rfl, hx⟩

/-- what a step carries it carries after further moves -/
theorem Carried.push (h : Carried env p n t) (hq : Push env p q) : Carried env q n t := by
  obtain ⟨u, parent, -, rfl⟩ := hq
  refine ⟨h.isTerm, h.scalar, h.rows, h.read.imp fun m hm => reads_filterBy.2 hm, fun e he hn => ?_⟩
  obtain ⟨c, hc, -, hparents, hmono⟩ := of_mem_filterBy he
  exact hmono t (h.shared c hc (hparents ▸ hn))

/-! ## Runs -/

/-- the plan after a run: each step is exchanged for one that reads the same, and whose condition is AND-ed with terms
that it carries -/
structure Pushed (env : Environment) (p q : CtePlan) (g : Cte → Cte) : Prop where
  root : q.root = p.root
  ctes : q.ctes = p.ctes.map g
  name : ∀ c ∈ p.ctes, (g c).name = c.name
  parents : ∀ c ∈ p.ctes, (g c).parents = c.parents
  condition : ∀ c ∈ p.ctes, ∃ ts, (g c).condition = conjoinAll c.condition ts ∧ ∀ t ∈ ts, Carried env q c.name t

theorem Pushed.refl : Pushed env p p id :=
  ⟨rfl, (List.map_id _).symm, fun _ _ => rfl, fun _ _ => rfl,
    fun _ _ => ⟨[], rfl, fun _ ht => absurd ht List.not_mem_nil⟩⟩

variable {g : Cte → Cte}

theorem Pushed.names (h : Pushed env p q g) : q.names = p.names := CtePlan.names_of_map h.ctes h.name

theorem Pushed.find? (h : Pushed env p q g) : q.find? n = (p.find? n).map g := by
  have hname : ∀ c ∈ p.ctes, ((g c).name == n) = (c.name == n) := fun c hc => by rw [h.name c hc]
  rw [CtePlan.find?, h.ctes, List.find?_map]
  exact congrArg _ (List.find?_congr hname)

theorem Pushed.reads (h : Pushed env p q g) : q.Reads m n ↔ p.Reads m n := by
  constructor
  · rintro ⟨d, hd, rfl, hn⟩
    obtain ⟨c, hc, rfl⟩ := List.mem_map.1 (h.ctes ▸ hd)
    exact ⟨c, hc, (h.name c hc).symm, h.parents c hc ▸ hn⟩
  · rintro ⟨c, hc, rfl, hn⟩
    exact ⟨g c, h.ctes ▸ List.mem_map_of_mem hc, h.name c hc, (h.parents c hc).symm ▸ hn⟩

theorem Pushed.terms (h : Pushed env p q g) (hc : c ∈ p.ctes) (ht : t ∈ termsOf c.condition) :
    t ∈ termsOf (g c).condition := by
  obtain ⟨ts, hts, hcarried⟩ := h.condition c hc
  rw [hts, Condition.termsOf_conjoinAll fun u hu => (hcarried u hu).isTerm]
  exact List.mem_append_left _ ht

/-- a run that goes on by one move -/
theorem Pushed.push (hn : p.names.Nodup) (h : Pushed env p q g) (hr : Push env q r) : ∃ g', Pushed env p r g' := by
  obtain ⟨t, parent, hmoves, rfl⟩ := id hr
  obtain ⟨hparent, -⟩ := CtePlan.find?_some hmoves.found
  let f := fun e : Cte => if e.name = parent.name then filterBy t e else e
  have hctes : (q.modify parent.name (filterBy t)).ctes = q.ctes.map f := CtePlan.ctes_modify (h.names ▸ hn) _ _
  have hkept : ∀ e, (f e).name = e.name ∧ (f e).parents = e.parents := by
    intro e
    show (if _ then _ else _ : Cte).name = _ ∧ (if _ then _ else _ : Cte).parents = _
    split
    · exact ⟨rfl, rfl⟩
    · exact ⟨rfl, rfl⟩
  refine ⟨f ∘ g, h.root, by rw [hctes, h.ctes, List.map_map], fun c hc => ?_, fun c hc => ?_, fun c hc => ?_⟩
  · exact (hkept (g c)).1.trans (h.name c hc)
  · exact (hkept (g c)).2.trans (h.parents c hc)
  · obtain ⟨ts, hts, hcarried⟩ := h.condition c hc
    have hstill : ∀ u ∈ ts, Carried env _ c.name u := fun u hu => (hcarried u hu).push hr
    by_cases hname : (g c).name = parent.name
    · refine ⟨ts ++ [t], ?_, fun u hu => ?_⟩
      · rw [Condition.conjoinAll_append_singleton, ← hts]
        exact congrArg Cte.condition (if_pos hname)
      · rcases List.mem_append.1 hu with hu | hu
        · exact hstill u hu
        · rw [List.mem_singleton.1 hu, ← h.name c hc, hname]
          exact hmoves.toCarried.push hr
    · exact ⟨ts, (congrArg Cte.condition (if_neg hname)).trans hts, hstill⟩

theorem exists_pushed (hn : p.names.Nodup) (h : Relation.ReflTransGen (Push env) p q) : ∃ g, Pushed env p q g := by
  induction h with
  | refl => exact ⟨id, .refl⟩
  | tail _ hr ih =>
    obtain ⟨g, hg⟩ := ih
    exact hg.push hn hr

/-! ## Applications of the rule -/

/-- a term of a visited step that is accepted by one of its parents may move there -/
theorem moves_of_accepts (hn : p.names.Nodup) (h : Pushed env p q g) (hc : c ∈ p.ctes) {condition : Condition}
    (hcondition : c.condition = some condition) (ht : t ∈ movable env condition) (hm : m ∈ c.parents)
    (hparent : q.find? m = some parent)
    (haccepts : accepts env q (CtePlan.readersOf p.readers m) t parent = true) : Moves env q t parent := by
  obtain ⟨-, rfl⟩ := CtePlan.find?_some hparent
  obtain ⟨hterm, hmovable⟩ := List.mem_filter.1 ht
  rw [Bool.and_eq_true, List.isEmpty_iff] at hmovable
  simp only [accepts, Bool.and_eq_true, Bool.not_eq_true'] at haccepts
  obtain ⟨⟨⟨⟨⟨hnew, -⟩, -⟩, -⟩, hshared⟩, -⟩ := haccepts
  have hread : q.Reads c.name parent.name := h.reads.2 ⟨c, hc, rfl, hm⟩
  have horigin : t ∈ termsOf c.condition := hcondition ▸ hterm
  refine ⟨⟨Condition.isTerm_of_mem_terms hterm, hmovable.1, hmovable.2, ⟨_, hread⟩, fun e he hn' => ?_⟩, hparent, hnew,
    ⟨g c, h.ctes ▸ List.mem_map_of_mem hc, h.terms hc horigin⟩⟩
  have hreader : e.name ∈ CtePlan.readersOf p.readers parent.name :=
    CtePlan.mem_readersOf.2 (h.reads.1 ⟨e, he, rfl, hn'⟩)
  have hfilters := List.all_eq_true.1 hshared e.name hreader
  rwa [CtePlan.find?_of_mem (h.names ▸ hn) he] at hfilters

/-- the offers made to the parents of a visited step move terms, and at least one where they change the plan -/
theorem offers_pushes (hn : p.names.Nodup) (hc : c ∈ p.ctes) {condition : Condition}
    (hcondition : c.condition = some condition) {offers : List (Condition × String)}
    (hoffers : ∀ e ∈ offers, e.1 ∈ movable env condition ∧ e.2 ∈ c.parents) {w : Revision}
    (hw : Relation.ReflTransGen (Push env) p w.plan)
    (hchanged : w.changed = true → Relation.TransGen (Push env) p w.plan) :
    Relation.ReflTransGen (Push env) p (offers.foldl (offer env p.readers) w).plan ∧
      ((offers.foldl (offer env p.readers) w).changed = true →
        Relation.TransGen (Push env) p (offers.foldl (offer env p.readers) w).plan) := by
  induction offers generalizing w with
  | nil => exact ⟨hw, hchanged⟩
  | cons e rest ih =>
    have hrest := @ih fun e he => hoffers e (List.mem_cons_of_mem _ he)
    rw [List.foldl_cons, offer]
    split
    · exact hrest hw hchanged
    · rename_i parent hparent
      split
      · rename_i haccepts
        obtain ⟨hmovable, hm⟩ := hoffers e List.mem_cons_self
        obtain ⟨g, hg⟩ := exists_pushed hn hw
        obtain ⟨-, hname⟩ := CtePlan.find?_some hparent
        have hpush : Push env w.plan (w.plan.modify e.2 (filterBy e.1)) :=
          ⟨e.1, parent, moves_of_accepts hn hg hc hcondition hmovable hm hparent haccepts, by rw [hname]⟩
        exact hrest (hw.tail hpush) fun _ => .tail' hw hpush
      · exact hrest hw hchanged

theorem apply_pushes (env : Environment) (n : String) (memory : RuleMemory) (hn : p.names.Nodup) :
    Relation.ReflTransGen (Push env) p (apply env p.readers n memory p).plan ∧
      ((apply env p.readers n memory p).changed = true →
        Relation.TransGen (Push env) p (apply env p.readers n memory p).plan) := by
  have hnone : Relation.ReflTransGen (Push env) p p ∧ (false = true → Relation.TransGen (Push env) p p) :=
    ⟨.refl, fun h => absurd h Bool.false_ne_true⟩
  unfold apply
  split
  · exact hnone
  · rename_i c hc
    split
    · exact hnone
    · rename_i condition hcondition
      split
      · exact hnone
      · refine offers_pushes hn (CtePlan.find?_some hc).1 hcondition (fun e he => ?_) .refl
          fun h => absurd h Bool.false_ne_true
        obtain ⟨t, ht, hmem⟩ := List.mem_flatMap.1 he
        obtain ⟨m, hm, rfl⟩ := List.mem_map.1 hmem
        exact ⟨ht, hm⟩

/-- **applications of the rule move terms, one after the other** -/
theorem applied_pushes (hn : p.names.Nodup) (h : Relation.ReflTransGen (Rule.pushPredicate.Applies env s) p q) :
    Relation.ReflTransGen (Push env) p q := by
  induction h with
  | refl => exact .refl
  | tail _ hr ih =>
    obtain ⟨g, hg⟩ := exists_pushed hn ih
    obtain ⟨name, memory, rfl⟩ := hr
    exact ih.trans (apply_pushes env _ _ (hg.names ▸ hn)).1

/-- **a run leaves the root's condition as it was, and whatever it adds to another is scalar, on rows alone, and a term
by which all readers filter when the run ends** -/
theorem pushed_carried (hn : p.names.Nodup) (hacyclic : ∀ n, ¬ Relation.TransGen p.Reads n n)
    (hlive : ∀ c ∈ p.ctes, p.Live c.name) (h : Relation.ReflTransGen (Rule.pushPredicate.Applies env s) p q) :
    q.rootCte.map Cte.condition = p.rootCte.map Cte.condition ∧
    ∀ d ∈ q.ctes, ∃ c ∈ p.ctes, c.name = d.name ∧ (∃ ts, d.condition = conjoinAll c.condition ts) ∧
      ∀ t ∈ termsOf d.condition, t ∉ termsOf c.condition → t.isScalar env ∅ = true ∧ t.existenceArguments = [] ∧
        ∀ e ∈ q.ctes, d.name ∈ e.parents → ∃ u ∈ termsOf e.condition, (t == u) = true := by
  obtain ⟨g, hg⟩ := exists_pushed hn (applied_pushes hn h)
  -- the root is not read, so that there is no term it could have been given
  have hroot : ∀ m, ¬ p.Reads m p.root := by
    intro m hm
    obtain ⟨c, hc, rfl, -⟩ := id hm
    exact hacyclic p.root (.tail' (hlive c hc) hm)
  constructor
  · rw [CtePlan.rootCte, CtePlan.rootCte, hg.root, hg.find?, Option.map_map]
    refine Option.map_congr fun c hc => ?_
    obtain ⟨hmem, hname⟩ := CtePlan.find?_some hc
    obtain ⟨ts, hts, hcarried⟩ := hg.condition c hmem
    have hnil : ts = [] := by
      refine List.eq_nil_iff_forall_not_mem.2 fun t ht => ?_
      obtain ⟨m, hm⟩ := (hcarried t ht).read
      exact hroot m (hg.reads.1 (hname ▸ hm))
    exact hts.trans (hnil ▸ rfl)
  · intro d hd
    obtain ⟨c, hc, rfl⟩ := List.mem_map.1 (hg.ctes ▸ hd)
    obtain ⟨ts, hts, hcarried⟩ := hg.condition c hc
    refine ⟨c, hc, (hg.name c hc).symm, ⟨ts, hts⟩, fun t ht hnew => ?_⟩
    rw [hts, Condition.termsOf_conjoinAll fun u hu => (hcarried u hu).isTerm, List.mem_append] at ht
    have hmoved := hcarried t (ht.resolve_left hnew)
    refine ⟨hmoved.scalar, hmoved.rows, fun e he hread => ?_⟩
    exact hmoved.isTerm.holdsInOption_iff.1 (hmoved.shared e he (hg.name c hc ▸ hread))

/-- items under two steps, one above the other, of which two filtered steps read the upper one -/
def twoReaders : CtePlan :=
  let items : Datasource := .ofColumns "items" [.bind "x" "x"] []
  let above : Condition := .comparison (.concept "local.x") .gt (.literal (.integer 100))
  let reader (name parent : String) : Cte :=
    CtePlan.plainStep name .select [parent] [] [("local.x", [parent])] ["local.x"]
  ⟨[CtePlan.plainStep "items" .select [] [items] [("local.x", ["items"])] ["local.x"], reader "low" "items",
    { reader "left" "low" with condition := some above }, { reader "right" "low" with condition := some above },
    CtePlan.plainStep "root" .merge ["left", "right"] [] [("local.x", ["left", "right"])] ["local.x"]], "root"⟩

/-- the filter of two steps goes down to the step that both read, and on to the one below -/
theorem pushed_carried_twoReaders : ∃ q, Relation.ReflTransGen (Rule.pushPredicate.Applies .empty {}) twoReaders q ∧
    q.rootCte.map Cte.condition = some none ∧ ∃ d ∈ q.ctes, d.name = "items" ∧ ∃ t ∈ termsOf d.condition,
      t.isScalar .empty ∅ = true ∧ ∀ e ∈ q.ctes, d.name ∈ e.parents → ∃ u ∈ termsOf e.condition, (t == u) = true := by
  have hwell : twoReaders.WellFormed :=
    CtePlan.wellFormed_of_idxOf (by decide +kernel) (by decide +kernel) (by decide +kernel)
  have hlive : ∀ c ∈ twoReaders.ctes, twoReaders.Live c.name := by
    have hreachable : ∀ c ∈ twoReaders.ctes, c.name ∈ twoReaders.reachable := by decide +kernel
    exact fun c hc => (CtePlan.mem_reachable hwell).1 (hreachable c hc)
  have hrun := Rule.pushPredicate.applyAll_applies {} .empty ["left", "low"] (.unchanged {} twoReaders)
  obtain ⟨hroot, hall⟩ := pushed_carried hwell.distinct hwell.acyclic hlive hrun
  have hpushed : (((Rule.pushPredicate.applyAll {} .empty ["left", "low"] (.unchanged {} twoReaders)).plan.find?
      "items").map fun d => (termsOf d.condition).length) = some 1 := by decide +kernel
  obtain ⟨d, hd, hlength⟩ := Option.map_eq_some_iff.1 hpushed
  obtain ⟨hmem, hname⟩ := CtePlan.find?_some hd
  obtain ⟨t, ht⟩ := List.exists_mem_of_length_pos (hlength ▸ Nat.one_pos)
  obtain ⟨c, hc, hcname, -, hterms⟩ := hall d hmem
  have hgiven : ∀ c ∈ twoReaders.ctes, c.name = "items" → termsOf c.condition = [] := by
    simp [twoReaders, CtePlan.plainStep, termsOf]
  have hnew : t ∉ termsOf c.condition := by
    rw [hgiven c hc (hcname.trans hname)]
    exact List.not_mem_nil
  obtain ⟨hscalar, -, hshared⟩ := hterms t ht hnew
  exact ⟨_, hrun, hroot, d, hmem, hname, t, ht, hscalar, hshared⟩

end PushPredicate

end SemanticPlanner
