/-
Relations that are kept are the relations a node resolves to.

  Resolves         a node has a relation: one that its rule makes of relations of its parents
  Remembers        a relation kept under a node's present stamp has a property
  Sound            such a relation is one the node has
  Yields           what a resolving step leaves of an arena and what it returns
  resolveWithin_remembers
                   resolving changes no node, and what it returns and keeps has the property
  resolve_resolves resolving a node of a sound arena gives a relation it has, and changes no node
  resolve_again    resolving a node once more gives the same relation

A stamp that is unchanged stands for unchanged nodes: a change gives its node a version beyond every kept stamp, and
the node stays among the ancestors through which it is read.
-/
import SemanticPlanner.Proofs.Arena
import SemanticPlanner.Proofs.Rules

namespace SemanticPlanner.Arena

variable {a b : Arena} {id p q x : PlanId} {r : Relation}

/-! ## Stamps -/

theorem foldl_max_le_iff {α : Type} (f : α → Nat) {l : List α} {k n : Nat} :
    l.foldl (fun v p => max v (f p)) k ≤ n ↔ k ≤ n ∧ ∀ p ∈ l, f p ≤ n := by
  induction l generalizing k with
  | nil => simp
  | cons p l ih =>
    rw [List.foldl_cons, ih, List.forall_mem_cons, Nat.max_le, and_assoc]

/-- a stamp bounds the versions of a node and of all it depends on, and nothing else -/
theorem stamp_le_iff (ha : a.WellFormed) {n : Nat} :
    a.stamp id ≤ n ↔ a.version id ≤ n ∧ ∀ x, a.DependsOn id x → a.version x ≤ n := by
  rw [stamp, foldl_max_le_iff]
  refine and_congr_right fun _ => forall_congr' fun x => ?_
  rw [← SortedSet.mem_def, mem_ancestors ha]

theorem version_le_stamp (ha : a.WellFormed) (h : x = id ∨ a.DependsOn id x) : a.version x ≤ a.stamp id := by
  have hle := (stamp_le_iff ha).1 (Nat.le_refl (a.stamp id))
  rcases h with rfl | h
  · exact hle.1
  · exact hle.2 x h

theorem stamp_le_clock (ha : a.WellFormed) : a.stamp id ≤ a.clock :=
  (stamp_le_iff ha).2 ⟨ha.dated id, fun x _ => ha.dated x⟩

/-- the nodes of two arenas agree on `id` and on all it depends on -/
def AgreeBelow (a b : Arena) (id : PlanId) : Prop := ∀ x, x = id ∨ a.DependsOn id x → b.node x = a.node x

namespace AgreeBelow

theorem parents (h : a.AgreeBelow b id) (hx : x = id ∨ a.DependsOn id x) : b.parents x = a.parents x :=
  congrArg (fun n => n.core.parents) (h x hx)

theorem dependsOn (h : a.AgreeBelow b id) : b.DependsOn id q ↔ a.DependsOn id q :=
  DependsOn.iff_of_same_parents (h.parents (Or.inl rfl)) fun _ hx => h.parents (Or.inr hx)

theorem symm (h : a.AgreeBelow b id) : b.AgreeBelow a id := by
  intro x hx
  exact (h x (hx.imp_right h.dependsOn.1)).symm

/-- what holds below a node holds below its parents -/
theorem parent (h : a.AgreeBelow b id) (hp : p ∈ a.parents id) : a.AgreeBelow b p := by
  intro x hx
  refine h x (Or.inr ?_)
  rcases hx with rfl | hx
  · exact .of_parent hp
  · exact hx.head hp

end AgreeBelow

theorem SameNodes.agreeBelow (h : a.SameNodes b) (id : PlanId) : a.AgreeBelow b id := fun x _ => h.node x

theorem stamp_congr (ha : a.WellFormed) (hb : b.WellFormed) (h : a.AgreeBelow b id)
    (hv : ∀ x, x = id ∨ a.DependsOn id x → b.version x = a.version x) : b.stamp id = a.stamp id := by
  refine Nat.le_antisymm ?_ ?_
  · refine (stamp_le_iff hb).2 ⟨?_, fun x hx => ?_⟩
    · rw [hv id (Or.inl rfl)]
      exact version_le_stamp ha (Or.inl rfl)
    · rw [hv x (Or.inr (h.dependsOn.1 hx))]
      exact version_le_stamp ha (Or.inr (h.dependsOn.1 hx))
  · refine (stamp_le_iff ha).2 ⟨?_, fun x hx => ?_⟩
    · rw [← hv id (Or.inl rfl)]
      exact version_le_stamp hb (Or.inl rfl)
    · rw [← hv x (Or.inr hx)]
      exact version_le_stamp hb (Or.inr (h.dependsOn.2 hx))

/-! ## The relations of a node -/

/-- `r` is of a form that the rule of the node gives to relations of its parents -/
inductive Resolves (a : Arena) : PlanId → Relation → Prop
  | intro {id : PlanId} {rs : List Relation} {r : Relation}
      (length : rs.length = (a.parents id).length)
      (parents : ∀ e ∈ (a.parents id).zip rs, Resolves a e.1 e.2)
      (rule : Resolve.Ruled a.environment (a.node id) rs r) : Resolves a id r

/-- each item of a list no longer than another stands beside an item of that -/
theorem mem_zip_of_mem_right {α β : Type} {l : List α} {m : List β} {y : β} (h : m.length ≤ l.length) (hy : y ∈ m) :
    ∃ x, (x, y) ∈ l.zip m := by
  obtain ⟨i, hi, rfl⟩ := List.getElem_of_mem hy
  have hl : i < l.length := Nat.lt_of_lt_of_le hi h
  have hz : i < (l.zip m).length := by rw [List.length_zip]; omega
  exact ⟨l[i], List.getElem_zip (h := hz) ▸ List.getElem_mem hz⟩

theorem Resolves.congr (h : a.Resolves id r) (he : b.environment = a.environment) (hn : a.AgreeBelow b id) :
    b.Resolves id r := by
  induction h with
  | @intro id rs r length parents rule ih =>
    have hid : b.node id = a.node id := hn id (Or.inl rfl)
    have hps : b.parents id = a.parents id := hn.parents (Or.inl rfl)
    refine .intro (hps ▸ length) ?_ ?_
    · intro e hmem
      rw [hps] at hmem
      exact ih e hmem (hn.parent (List.of_mem_zip hmem).1)
    · rw [he, hid]
      exact rule

/-! ## Kept relations -/

/-- a join named by what its two sides resolve to, where these have a property -/
def Names (P : Arena → PlanId → Relation → Prop) (a : Arena) (j : NodeJoin) (n : Resolve.NamedJoin) : Prop :=
  ∃ l r, P a j.left l ∧ P a j.right r ∧ n = ⟨j, l.identifier, r.identifier⟩

/-- a property of the relations of a node that is told by the node and all it depends on, and that the rule of the node
passes on to it -/
structure Lawful (P : Arena → PlanId → Relation → Prop) : Prop where
  congr : ∀ {a b : Arena} {id : PlanId} {r : Relation}, a.WellFormed → b.WellFormed →
    b.environment = a.environment → a.AgreeBelow b id → P a id r → P b id r
  rule : ∀ {a : Arena} {id : PlanId} {rs : List Relation} {joins : List Resolve.NamedJoin} {r : Relation},
    a.WellFormed → (rs.length = (a.parents id).length ∧ ∀ e ∈ (a.parents id).zip rs, P a e.1 e.2) →
    (joins.length = (a.node id).kind.joins.length ∧ ∀ e ∈ (a.node id).kind.joins.zip joins, Names P a e.1 e.2) →
    Resolve.node a.environment (a.node id) rs joins = .ok r → P a id r

theorem Resolves.lawful : Lawful Resolves :=
  ⟨fun _ _ he hn h => h.congr he hn, fun _ hps _ hr => .intro hps.1 hps.2 (Resolve.node_eq_ok hr)⟩

/-- a relation kept under a node's present stamp has a property -/
def Remembers (P : Arena → PlanId → Relation → Prop) (a : Arena) : Prop :=
  ∀ id s r, (a.slot id).memo = some (s, r) → s ≤ a.clock ∧ (s = a.stamp id → P a id r)

namespace Remembers

variable {P : Arena → PlanId → Relation → Prop}

theorem empty (env : Environment) : Remembers P (Arena.empty env) := by
  intro id s r h
  rw [slot_eq_default rfl] at h
  exact absurd h (by simp [default, instInhabitedSlot.default])

theorem lookUp (hs : a.Remembers P) (h : a.lookUp id (a.stamp id) = some r) : P a id r := by
  simp only [Arena.lookUp] at h
  split at h
  · rename_i s r' hm
    split at h
    · rename_i he
      cases h
      exact (hs id s r hm).2 he
    · exact absurd h (by simp)
  · exact absurd h (by simp)

/-- kept relations stay right where nodes and versions stay -/
theorem of_sameNodes (hP : Lawful P) (ha : a.WellFormed) (h : a.SameNodes b)
    (hm : ∀ id s r, (b.slot id).memo = some (s, r) →
      (a.slot id).memo = some (s, r) ∨ s = a.stamp id ∧ P a id r) (hs : a.Remembers P) : b.Remembers P := by
  intro id s r hmem
  have hb : b.WellFormed := ha.of_sameNodes h
  have hstamp : b.stamp id = a.stamp id := stamp_congr ha hb (h.agreeBelow id) fun x _ => h.version x
  rw [h.clock, hstamp]
  rcases hm id s r hmem with hold | ⟨rfl, hr⟩
  · exact ⟨(hs id s r hold).1, fun e => hP.congr ha hb h.environment (h.agreeBelow id) ((hs id s r hold).2 e)⟩
  · exact ⟨stamp_le_clock ha, fun _ => hP.congr ha hb h.environment (h.agreeBelow id) hr⟩

theorem forget (hP : Lawful P) (ha : a.WellFormed) (hs : a.Remembers P) : (a.forget id).Remembers P := by
  refine of_sameNodes hP ha .forget ?_ hs
  intro x s r h
  rw [forget_eq, slot_rewriteSlot] at h
  split at h
  · exact absurd h (by simp)
  · exact Or.inl h

theorem remember (hP : Lawful P) (ha : a.WellFormed) (hs : a.Remembers P) (hr : P a id r) :
    (a.remember id (a.stamp id) r).Remembers P := by
  refine of_sameNodes hP ha (.remember _ _) ?_ hs
  intro x s r' h
  rw [remember_eq, slot_rewriteSlot] at h
  split at h
  · rename_i hx
    cases h
    exact Or.inr ⟨by rw [hx.1], hx.1 ▸ hr⟩
  · exact Or.inl h

/-- new nodes keep nothing, and are not below old ones -/
theorem of_extends (hP : Lawful P) (ha : a.WellFormed) (hb : b.WellFormed) (h : a.Extends b) (hs : a.Remembers P) :
    b.Remembers P := by
  intro x s r hm
  have hx : a.contains x = true := by
    by_contra hc
    rw [h.blank x (by simpa using hc)] at hm
    exact absurd hm (by simp)
  have hold : ∀ y, y = x ∨ a.DependsOn x y → b.slot y = a.slot y := by
    intro y hy
    refine h.slot y ?_
    rcases hy with rfl | hy
    · exact hx
    · exact contains_of_dependsOn ha hy
  have hagree : a.AgreeBelow b x := fun y hy => congrArg Slot.node (hold y hy)
  have hstamp := stamp_congr ha hb hagree fun y hy => congrArg Slot.version (hold y hy)
  rw [h.slot x hx] at hm
  exact ⟨Nat.le_trans (hs x s r hm).1 h.clock,
    fun e => hP.congr ha hb h.environment hagree ((hs x s r hm).2 (e.trans hstamp))⟩

/-- a changed node has a version beyond every kept stamp, so what is kept above it is not handed out again -/
theorem change (hP : Lawful P) (ha : a.WellFormed) {f : NodeCore → NodeCore} (hb : (a.change id f).WellFormed)
    (hs : a.Remembers P) : (a.change id f).Remembers P := by
  intro x s r h
  have hm : (a.slot x).memo = some (s, r) := by
    rw [slot_change] at h
    split at h
    · rename_i hx
      rw [hx.1]
      exact h
    · exact h
  obtain ⟨hclock, hr⟩ := hs x s r hm
  refine ⟨Nat.le_succ_of_le hclock, fun e => ?_⟩
  have hold : ∀ y, y = x ∨ (a.change id f).DependsOn x y → a.slot y = (a.change id f).slot y := by
    intro y hy
    rw [slot_change]
    split
    · rename_i hid
      -- the changed node itself: its version is beyond `s`
      have hlate : (a.change id f).version y = a.clock + 1 := by
        rw [version, slot_change, if_pos hid]
      have := version_le_stamp hb hy
      omega
    · rfl
  have hagree : (a.change id f).AgreeBelow a x := fun y hy => congrArg Slot.node (hold y hy)
  have hstamp := stamp_congr hb ha hagree fun y hy => congrArg Slot.version (hold y hy)
  exact hP.congr ha hb rfl hagree.symm (hr (e.trans hstamp.symm))

end Remembers

/-- a relation kept under a node's present stamp is one the node has -/
def Sound (a : Arena) : Prop :=
  ∀ id s r, (a.slot id).memo = some (s, r) → s ≤ a.clock ∧ (s = a.stamp id → a.Resolves id r)

/-! ## Resolving -/

/-- the second of two steps runs where the first one returned, and on what the first one left -/
theorem run_bind {σ ε α β : Type} (step : ExceptT ε (StateM σ) α) (next : α → ExceptT ε (StateM σ) β) (s : σ) :
    (step >>= next).run s = match step.run s with
      | (.ok v, s') => (next v).run s'
      | (.error e, s') => (.error e, s') := by
  show (match step s with | (r, s') => ExceptT.bindCont next r s') = _
  simp only [ExceptT.run]
  rcases step s with ⟨_ | v, s'⟩ <;> rfl

/-- a resolving step keeps what holds of the arena, and what it returns has the given property -/
def Yields {α : Type} (I : Arena → Prop) (step : Resolving α) (Q : α → Prop) : Prop :=
  ∀ a, I a → I (step.run a).2 ∧ ∀ v, (step.run a).1 = .ok v → Q v

namespace Yields

variable {α β : Type} {I : Arena → Prop} {Q : α → Prop} {R : β → Prop}

theorem pure {v : α} (h : Q v) : Yields I (Pure.pure v) Q := fun _ ha => ⟨ha, fun _ e => Except.ok.inj e ▸ h⟩

theorem throw {e : PlanningError} : Yields I (MonadExcept.throw e) Q := fun _ ha => ⟨ha, fun _ h => by cases h⟩

theorem bind {step : Resolving α} {next : α → Resolving β} (h : Yields I step Q) (hn : ∀ v, Q v → Yields I (next v) R) :
    Yields I (step >>= next) R := by
  intro a ha
  rw [run_bind]
  obtain ⟨hI, hQ⟩ := h a ha
  rcases hs : step.run a with ⟨e | v, a'⟩
  · rw [hs] at hI
    exact ⟨hI, fun v h => by cases h⟩
  · rw [hs] at hI hQ
    exact hn v (hQ v rfl) a' hI

theorem get {next : Arena → Resolving α} (h : ∀ a, I a → Yields I (next a) Q) :
    Yields I (MonadStateOf.get >>= next) Q := fun a ha => h a ha a ha

theorem lift {v : Except PlanningError α} (h : ∀ w, v = .ok w → Q w) : Yields I (liftM v : Resolving α) Q :=
  fun _ ha => ⟨ha, h⟩

theorem of_run {step : Resolving α} {v : α} (h : Yields I step Q) (ha : I a) (hr : step.run a = (.ok v, b)) :
    I b ∧ Q v := by
  have := h a ha
  rw [hr] at this
  exact ⟨this.1, this.2 v rfl⟩

theorem mono {Q' : α → Prop} {step : Resolving α} (h : Yields I step Q) (hq : ∀ v, Q v → Q' v) : Yields I step Q' :=
  fun a ha => ⟨(h a ha).1, fun v hv => hq v ((h a ha).2 v hv)⟩

/-- a step taken for each item of a list -/
theorem mapM {l : List β} {step : β → Resolving α} {P : β → α → Prop} (h : ∀ x ∈ l, Yields I (step x) (P x)) :
    Yields I (l.mapM step) fun vs => vs.length = l.length ∧ ∀ e ∈ l.zip vs, P e.1 e.2 := by
  induction l with
  | nil =>
    rw [List.mapM_nil]
    exact .pure ⟨rfl, fun e he => by simp at he⟩
  | cons x l ih =>
    rw [List.mapM_cons]
    refine bind (h x List.mem_cons_self) fun v hv => ?_
    refine bind (ih fun y hy => h y (List.mem_cons_of_mem _ hy)) fun vs hvs => ?_
    refine .pure ⟨by rw [List.length_cons, List.length_cons, hvs.1], ?_⟩
    intro e he
    rcases List.mem_cons.1 (List.zip_cons_cons ▸ he) with rfl | he
    · exact hv
    · exact hvs.2 e he

end Yields

/-- **resolving keeps every node, and returns and keeps relations with a lawful property** -/
theorem resolveWithin_remembers {P : Arena → PlanId → Relation → Prop} (hP : Lawful P) (ha : a.WellFormed) (fuel : Nat)
    (id : PlanId) : Yields (fun b => a.SameNodes b ∧ b.Remembers P) (resolveWithin fuel id) (P a id) := by
  induction fuel generalizing id with
  | zero => exact .get fun b _ => .throw
  | succ fuel ih =>
    refine .get fun b hb => ?_
    have hwf : b.WellFormed := ha.of_sameNodes hb.1
    have hstamp : ∀ c, a.SameNodes c → b.stamp id = c.stamp id := fun c hc =>
      (stamp_congr ha hwf (hb.1.agreeBelow id) fun x _ => hb.1.version x).trans
        (stamp_congr ha (ha.of_sameNodes hc) (hc.agreeBelow id) fun x _ => hc.version x).symm
    cases hl : b.lookUp id (b.stamp id) with
    | some r =>
      simp only [hl]
      exact .pure (hP.congr hwf ha hb.1.environment.symm (hb.1.agreeBelow id).symm (hb.2.lookUp hl))
    | none =>
      simp only [hl, hb.1.node]
      refine .bind (.mapM fun p _ => ih p) fun rs hrs => ?_
      refine .bind (.mapM (P := Names P a) fun j _ => ?_) fun joins hjoins => ?_
      · exact .bind (ih j.left) fun l hl => .bind (ih j.right) fun r hr => .pure ⟨l, r, hl, hr, rfl⟩
      refine .bind (.lift fun r hr => ?_) fun r (hr : P a id r) => ?_
      · exact hP.rule ha hrs hjoins (hb.1.environment ▸ hr)
      · intro c hc
        have hcwf : c.WellFormed := ha.of_sameNodes hc.1
        have hcr : P c id r := hP.congr ha hcwf hc.1.environment (hc.1.agreeBelow id) hr
        refine ⟨⟨hc.1.trans (.remember _ _), ?_⟩, fun v hv => Except.ok.inj hv ▸ hr⟩
        rw [hstamp c hc.1]
        exact hc.2.remember hP hcwf hcr

/-- a sound arena with the nodes of `a` -/
def KeepsNodes (a b : Arena) : Prop := a.SameNodes b ∧ b.Sound

/-- **resolving keeps every node and returns relations that nodes have** -/
theorem resolveWithin_yields (ha : a.WellFormed) (fuel : Nat) (id : PlanId) :
    Yields a.KeepsNodes (resolveWithin fuel id) (a.Resolves id) :=
  resolveWithin_remembers Resolves.lawful ha fuel id

/-- what every operation of an arena keeps: it is well-formed, and what it keeps of relations is right -/
structure Consistent (a : Arena) : Prop where
  wellFormed : a.WellFormed
  sound : a.Sound

namespace Consistent

theorem empty (env : Environment) : (Arena.empty env).Consistent := ⟨.empty env, Remembers.empty env⟩

theorem append (h : a.Consistent) {n : PlanNode} (hn : ∀ p ∈ n.core.parents, a.contains p = true) :
    (a.append n).2.Consistent :=
  ⟨h.wellFormed.append hn,
    Remembers.of_extends Resolves.lawful h.wellFormed (h.wellFormed.append hn) (.append n) h.sound⟩

theorem insert (h : a.Consistent) {n : PlanNode} (hn : ∀ p ∈ n.core.parents, a.contains p = true) :
    (a.insert n).2.Consistent := by
  refine h.append ?_
  simp only [inheriting]
  split
  · exact hn
  · exact hn

theorem change (h : a.Consistent) {f : NodeCore → NodeCore} (hf : ∀ c, (f c).parents = c.parents) :
    (a.change id f).Consistent := 
  ⟨h.wellFormed.change hf, Remembers.change Resolves.lawful h.wellFormed (h.wellFormed.change hf) h.sound⟩

theorem addParents (h : a.Consistent) {ps : List PlanId} (hp : ∀ p ∈ ps, a.contains p = true)
    (hb : a.addParents id ps = .ok b) : b.Consistent := by
  have hwf := h.wellFormed.addParents hp hb
  obtain ⟨rfl, -⟩ := addParents_eq_ok h.wellFormed hb
  exact ⟨hwf, Remembers.change Resolves.lawful h.wellFormed hwf h.sound⟩

theorem forget (h : a.Consistent) : (a.forget id).Consistent :=
  ⟨h.wellFormed.of_sameNodes .forget, Remembers.forget Resolves.lawful h.wellFormed h.sound⟩

theorem keeps (h : a.Consistent) (hb : a.KeepsNodes b) : b.Consistent := ⟨h.wellFormed.of_sameNodes hb.1, hb.2⟩

end Consistent

/-- resolving a node gives a relation it has; nodes and versions stay, and what is kept stays right -/
theorem resolve_keeps (ha : a.Consistent) (id : PlanId) : a.KeepsNodes (a.resolve id).2 :=
  (resolveWithin_yields ha.wellFormed _ id a ⟨.refl a, ha.sound⟩).1

theorem resolve_resolves (ha : a.Consistent) (h : (a.resolve id).1 = .ok r) : a.Resolves id r :=
  (resolveWithin_yields ha.wellFormed _ id a ⟨.refl a, ha.sound⟩).2 r h

/-- a step that returned did so through both of its parts -/
theorem run_bind_eq_ok {σ ε α β : Type} {step : ExceptT ε (StateM σ) α} {next : α → ExceptT ε (StateM σ) β} {s t : σ}
    {w : β} (h : (step >>= next).run s = (.ok w, t)) :
    ∃ v s', step.run s = (.ok v, s') ∧ (next v).run s' = (.ok w, t) := by
  rw [run_bind] at h
  rcases hs : step.run s with ⟨_ | v, s'⟩
  · rw [hs] at h
    cases h
  · rw [hs] at h
    exact ⟨v, s', rfl, h⟩

/-- what was resolved is kept under the node's stamp -/
theorem resolveWithin_kept (ha : a.WellFormed) (hs : a.Sound) (hc : a.contains id = true) {fuel : Nat}
    (h : (resolveWithin (fuel + 1) id).run a = (.ok r, b)) : b.lookUp id (b.stamp id) = some r := by
  rw [resolveWithin] at h
  obtain ⟨_, _, hget, h⟩ := run_bind_eq_ok h
  cases hget
  cases hl : a.lookUp id (a.stamp id) with
  | some r' =>
    simp only [hl] at h
    cases h
    exact hl
  | none =>
    simp only [hl] at h
    obtain ⟨rs, a₁, hps, h⟩ := run_bind_eq_ok h
    obtain ⟨joins, a₂, hjs, h⟩ := run_bind_eq_ok h
    obtain ⟨r', a₃, hrule, h⟩ := run_bind_eq_ok h
    have h₁ : a.KeepsNodes a₁ := by
      exact (Yields.of_run (.mapM fun p _ => resolveWithin_yields ha fuel p) ⟨.refl a, hs⟩ hps).1
    have h₂ : a.KeepsNodes a₂ := by
      refine (Yields.of_run (.mapM (P := fun _ _ => True) fun j _ => ?_) h₁ hjs).1
      exact .bind (resolveWithin_yields ha fuel j.left) fun _ _ =>
        .bind (resolveWithin_yields ha fuel j.right) fun _ _ => .pure trivial
    have h₃ : a₂ = a₃ := congrArg Prod.snd hrule
    subst h₃
    have hsame : a.SameNodes (a₂.remember id (a.stamp id) r') := h₂.1.trans (.remember _ _)
    have hb : b = a₂.remember id (a.stamp id) r' ∧ r' = r := by
      cases h
      exact ⟨rfl, rfl⟩
    obtain ⟨rfl, rfl⟩ := hb
    rw [stamp_congr ha (ha.of_sameNodes hsame) (hsame.agreeBelow id) fun x _ => hsame.version x, Arena.lookUp,
      remember_eq, slot_rewriteSlot, if_pos ⟨rfl, by rw [h₂.1.contains, hc]⟩]
    simp

/-- **resolving a node once more gives the same relation** -/
theorem resolve_again (ha : a.Consistent) (hc : a.contains id = true) (h : (a.resolve id).1 = .ok r) :
    ((a.resolve id).2.resolve id).1 = .ok r := by
  have hkept := resolveWithin_kept (b := (a.resolve id).2) ha.wellFormed ha.sound hc (Prod.ext h rfl)
  set b := (a.resolve id).2
  show ((resolveWithin (b.size + 1) id).run b).1 = .ok r
  have hget : (get : Resolving Arena).run b = (.ok b, b) := rfl
  rw [resolveWithin, run_bind, hget]
  simp only [hkept]
  rfl

end SemanticPlanner.Arena
