/-
Keeping relations changes nothing: a node resolves to what it would resolve to if nothing were kept.

  Exact               the relation is what the node resolves to anew, where joins name parents
  Built.remembers     what a built arena keeps has every lawful property
  Gives               a resolving step returns a given outcome, whatever is kept
  resolve_eq          a node of a built arena resolves to what it resolves to anew
  resolve_transparent the result, for every node and for rebuilding too

A relation that is handed out is exact, since its stamp is the present one. What is resolved is exact by the rule of
the node. A joined node that is no parent could change without its merge being resolved anew, so that joins must
name parents.
-/
import SemanticPlanner.Proofs.Refinement

namespace SemanticPlanner.Arena

variable {a b c : Arena} {id p x : PlanId} {r : Relation}

/-! ## What is kept -/

/-- where joins name parents, the relation is what the node resolves to anew -/
def Exact (a : Arena) (id : PlanId) (r : Relation) : Prop := a.JoinsBelow id → a.resolveFresh id = .ok r

/-- a fallible step that returned for each item of a list -/
theorem mapM_eq_ok {α β : Type} {step : α → Except PlanningError β} {l : List α} {vs : List β}
    (hl : vs.length = l.length) (h : ∀ e ∈ l.zip vs, step e.1 = .ok e.2) : l.mapM step = .ok vs := by
  induction l generalizing vs with
  | nil =>
    rw [List.length_eq_zero_iff.1 hl]
    rfl
  | cons x l ih =>
    cases vs with
    | nil => exact absurd hl (Nat.succ_ne_zero _).symm
    | cons v vs =>
      have hx : step x = .ok v := h (x, v) List.mem_cons_self
      rw [List.mapM_cons, hx, ih (Nat.succ.inj hl) fun e he => h e (List.mem_cons_of_mem _ he)]
      rfl

/-- one round of a node, by its parts -/
theorem round_eq_ok {step : PlanId → Except PlanningError Relation} {rs : List Relation}
    {joins : List Resolve.NamedJoin} (hrs : (a.parents id).mapM step = .ok rs)
    (hjoins : (a.node id).kind.joins.mapM (nameJoin step) = .ok joins)
    (hr : Resolve.node a.environment (a.node id) rs joins = .ok r) : a.round step id = .ok r := by
  rw [round, hrs]
  show (a.node id).kind.joins.mapM (nameJoin step) >>= _ = _
  rw [hjoins]
  exact hr

theorem Exact.lawful : Lawful Exact := by
  refine ⟨fun ha hb he hn h hj => ?_, fun {a id rs joins r} ha hps hjoins hr hj => ?_⟩
  · have hj' := hn.symm.joinsBelow hj
    rw [resolveFresh_congr ha hb he hn hj', h hj']
  · have hown := hj id (Or.inl rfl)
    have hparent : ∀ p ∈ a.parents id, a.JoinsBelow p := fun p hp => hj.of_below (Or.inr (.of_parent hp))
    have hrs : (a.parents id).mapM a.resolveFresh = .ok rs :=
      mapM_eq_ok hps.1 fun e he => hps.2 e he (hparent _ (List.of_mem_zip he).1)
    have hnamed : (a.node id).kind.joins.mapM (nameJoin a.resolveFresh) = .ok joins := by
      refine mapM_eq_ok hjoins.1 fun e he => ?_
      obtain ⟨l, r, hl, hr, hn⟩ := hjoins.2 e he
      have hends := hown e.1 (List.of_mem_zip he).1
      rw [nameJoin, hl (hparent _ hends.1), hr (hparent _ hends.2), hn]
      rfl
    exact (resolveFresh_eq_round ha hj).trans (round_eq_ok hrs hnamed hr)

/-- **what a built arena keeps has every lawful property** -/
theorem Built.remembers {P : Arena → PlanId → Relation → Prop} (hP : Lawful P) (h : Built a) : a.Remembers P := by
  induction h with
  | empty env => exact .empty env
  | @insert a n h hn ih =>
    have hwf := h.consistent.wellFormed
    exact ih.of_extends hP hwf (Built.insert h hn).consistent.wellFormed (.append _)
  | @change a id f h hf ih => exact ih.change hP h.consistent.wellFormed (h.consistent.wellFormed.change hf)
  | @addParents a b id ps h hp hb ih =>
    have hwf := h.consistent.wellFormed.addParents hp hb
    obtain ⟨rfl, -⟩ := addParents_eq_ok h.consistent.wellFormed hb
    exact ih.change hP h.consistent.wellFormed hwf
  | @copy a id h hid ih =>
    obtain ⟨s, hcopy, hc, -⟩ := copy_copied h.consistent hid
    rw [hcopy]
    exact ih.of_extends hP h.consistent.wellFormed hc.consistent.wellFormed hc.extended
  | @resolve a id h ih =>
    exact (resolveWithin_remembers hP h.consistent.wellFormed _ id a ⟨.refl a, ih⟩).1.2
  | @rebuild a id h ih =>
    have hwf : (a.forget id).WellFormed := h.consistent.forget.wellFormed
    exact (resolveWithin_remembers hP hwf _ id _ ⟨.refl _, ih.forget hP h.consistent.wellFormed⟩).1.2

/-! ## What is returned -/

/-- from every state of a kind, the step ends in one of that kind with the given outcome -/
def Gives {α : Type} (I : Arena → Prop) (step : Resolving α) (v : Except PlanningError α) : Prop :=
  ∀ b, I b → I (step.run b).2 ∧ (step.run b).1 = v

namespace Gives

variable {α β : Type} {I : Arena → Prop} {step : Resolving α} {v : Except PlanningError α}

theorem pure {v : α} : Gives I (Pure.pure v) (.ok v) := fun _ hb => ⟨hb, rfl⟩

theorem lift (v : Except PlanningError α) : Gives I (liftM v : Resolving α) v := fun _ hb => ⟨hb, rfl⟩

theorem get {next : Arena → Resolving α} (h : ∀ b, I b → Gives I (next b) v) :
    Gives I (MonadStateOf.get >>= next) v := fun b hb => h b hb b hb

theorem bind {next : α → Resolving β} {next' : α → Except PlanningError β} (h : Gives I step v)
    (hn : ∀ w, v = .ok w → Gives I (next w) (next' w)) : Gives I (step >>= next) (v >>= next') := by
  intro b hb
  obtain ⟨hI, hv⟩ := h b hb
  rw [run_bind]
  rcases hs : step.run b with ⟨e | w, b'⟩
  · rw [hs] at hI hv
    rw [← hv]
    exact ⟨hI, rfl⟩
  · rw [hs] at hI hv
    rw [← hv]
    exact hn w hv.symm b' hI

theorem mapM {l : List β} {step : β → Resolving α} {step' : β → Except PlanningError α}
    (h : ∀ x ∈ l, Gives I (step x) (step' x)) : Gives I (l.mapM step) (l.mapM step') := by
  induction l with
  | nil => exact .pure
  | cons x l ih =>
    rw [List.mapM_cons, List.mapM_cons]
    refine (h x List.mem_cons_self).bind fun y _ => ?_
    exact (ih fun z hz => h z (List.mem_cons_of_mem _ hz)).bind fun ys _ => .pure

end Gives

/-- the arenas with the nodes of `a` that keep exact relations -/
def Exactly (a b : Arena) : Prop := a.SameNodes b ∧ b.Remembers Exact

/-- a relation that is kept under the present stamp is what the node resolves to anew -/
theorem Exactly.lookUp (ha : a.WellFormed) (hb : Exactly a b) (hj : a.JoinsBelow id)
    (hl : b.lookUp id (b.stamp id) = some r) : a.resolveFresh id = .ok r := by
  have hagree := hb.1.agreeBelow id
  rw [← hb.2.lookUp hl (hagree.joinsBelow hj)]
  exact (resolveFresh_congr ha (ha.of_sameNodes hb.1) hb.1.environment hagree hj).symm

/-- what the node resolves to anew may be kept, under the stamp of another arena with the same nodes -/
theorem Exactly.remember (ha : a.WellFormed) (hb : Exactly a b) (hc : Exactly a c) (hr : a.resolveFresh id = .ok r) :
    Exactly a (c.remember id (b.stamp id) r) := by
  have hcwf : c.WellFormed := ha.of_sameNodes hc.1
  have hstamp : b.stamp id = c.stamp id :=
    (stamp_congr ha (ha.of_sameNodes hb.1) (hb.1.agreeBelow id) fun x _ => hb.1.version x).trans
      (stamp_congr ha hcwf (hc.1.agreeBelow id) fun x _ => hc.1.version x).symm
  refine ⟨hc.1.trans (.remember _ _), ?_⟩
  rw [hstamp]
  exact hc.2.remember Exact.lawful hcwf
    (Exact.lawful.congr ha hcwf hc.1.environment (hc.1.agreeBelow id) fun _ => hr)

/-- **whatever is kept, a node resolves to what it resolves to anew**, given more rounds than it has ancestors -/
theorem resolveWithin_gives (ha : a.WellFormed) {fuel : Nat} (hj : a.JoinsBelow id) (hf : a.height id < fuel) :
    Gives (Exactly a) (resolveWithin fuel id) (a.resolveFresh id) := by
  induction fuel generalizing id with
  | zero => exact absurd hf (Nat.not_lt_zero _)
  | succ fuel ih =>
    have hparent : ∀ p ∈ a.parents id, Gives (Exactly a) (resolveWithin fuel p) (a.resolveFresh p) := fun p hp =>
      ih (hj.of_below (Or.inr (.of_parent hp))) (Nat.lt_of_lt_of_le (height_lt ha hp) (Nat.le_of_lt_succ hf))
    refine .get fun b hb => ?_
    cases hl : b.lookUp id (b.stamp id) with
    | some r =>
      simp only [hl, hb.lookUp ha hj hl]
      exact .pure
    | none =>
      simp only [hl, hb.1.node, hb.1.environment]
      rw [resolveFresh_eq_round ha hj]
      refine (Gives.mapM hparent).bind fun rs hrs => ?_
      have hends := hj id (Or.inl rfl)
      have hnamed : Gives (Exactly a) _ ((a.node id).kind.joins.mapM (nameJoin a.resolveFresh)) :=
        .mapM fun j hmem => (hparent _ (hends j hmem).1).bind fun l _ =>
          (hparent _ (hends j hmem).2).bind fun r _ => .pure
      refine hnamed.bind fun joins hjoins => ?_
      suffices h : Gives (Exactly a) _ (Resolve.node a.environment (a.node id) rs joins >>= pure) by
        rwa [bind_pure] at h
      refine (Gives.lift _).bind fun r hr => ?_
      have hexact : a.resolveFresh id = .ok r := (resolveFresh_eq_round ha hj).trans (round_eq_ok hrs hjoins hr)
      exact fun c hc => ⟨hb.remember ha hc hexact, rfl⟩

/-- **a node of a built arena resolves to what it resolves to anew** -/
theorem Built.resolve_eq (ha : a.Built) (hj : a.JoinsBelow id) : (a.resolve id).1 = a.resolveFresh id := by
  have hwf := ha.consistent.wellFormed
  exact (resolveWithin_gives hwf hj (Nat.lt_succ_of_le (height_le hwf)) a
    ⟨.refl a, ha.remembers Exact.lawful⟩).2

/-- **Transparency.** In an arena built by its own operations in which explicit joins name parents, resolving a node
and rebuilding it return what resolving it without any kept relation returns: the outcome of its rule on the outcomes
of its parents and joined nodes, the first error included. -/
theorem resolve_transparent (ha : a.Built) (hj : ∀ x, a.JoinsParents x) (id : PlanId) :
    (a.resolve id).1 = a.resolveFresh id ∧ (a.rebuild id).1 = a.resolveFresh id ∧
      a.resolveFresh id = a.round a.resolveFresh id := by
  have hbelow : a.JoinsBelow id := fun x _ => hj x
  have hwf := ha.consistent.wellFormed
  refine ⟨ha.resolve_eq hbelow, ?_, resolveFresh_eq_round hwf hbelow⟩
  have hforget : a.AgreeBelow (a.forget id) id := SameNodes.forget.agreeBelow id
  have hfwf : (a.forget id).WellFormed := hwf.of_sameNodes .forget
  rw [← resolveFresh_congr hwf hfwf rfl hforget hbelow]
  exact (resolveWithin_gives hfwf (hforget.joinsBelow hbelow) (Nat.lt_succ_of_le (height_le hfwf)) _
    ⟨.refl _, (ha.remembers Exact.lawful).forget Exact.lawful hwf⟩).2

/-- two constants, and a merge that joins them -/
def joinedConstants : Arena :=
  let (l, a) := (Arena.empty default).insert ⟨.constant, NodeCore.of [] ["local.a"]⟩
  let (r, a) := a.insert ⟨.constant, NodeCore.of [] ["local.b"]⟩
  (a.insert ⟨.merge (some [⟨l, r, [], .full⟩]),
    (NodeCore.of ["local.a", "local.b"] ["local.a", "local.b"]).withParents [l, r]⟩).2

theorem built_joinedConstants : joinedConstants.Built := by
  refine .insert (.insert (.insert (.empty default) ?_) ?_) ?_
  all_goals decide

/-- one of the constants was resolved before it was given another output -/
def editedConstant : Arena := (joinedConstants.resolve ⟨0⟩).2.addOutputs ⟨0⟩ ["local.c"]

/-- the constant's first relation is still kept, under a stamp that has passed -/
theorem resolve_transparent_editedConstant :
    editedConstant.Built ∧ (∀ x, editedConstant.JoinsParents x) ∧
      (editedConstant.slot ⟨0⟩).memo = some (1, Resolve.constant (NodeCore.of [] ["local.a"])) ∧
      (editedConstant.resolve ⟨0⟩).1 = .ok (Resolve.constant (NodeCore.of [] ["local.a", "local.c"])) ∧
      (editedConstant.resolve ⟨2⟩).1 = editedConstant.resolveFresh ⟨2⟩ := by
  have hb : editedConstant.Built := by
    rw [editedConstant, addOutputs]
    exact .change (.resolve built_joinedConstants) fun _ => rfl
  have hj : ∀ x, editedConstant.JoinsParents x := joinsParents_of_ids (by decide)
  exact ⟨hb, hj, rfl, (resolve_transparent hb hj ⟨0⟩).1.trans rfl, (resolve_transparent hb hj ⟨2⟩).1⟩

end SemanticPlanner.Arena
