/-
What a node resolves to does not depend on what was resolved before it.

  keptWithin          resolution that hands out what an arena keeps and keeps nothing new
  keptWithin_enough   one round for each node, and one more, are enough
  Keeps               an arena with the same nodes, which keeps what the first one keeps and what that one resolves to
  resolveWithin_settles  from every such arena a node resolves to the same
  Keeps.resolve_iff      the result, for every arena

Nothing is asked of the arena: parents and joins may be cyclic, and what is kept may be anything. Rounds can run out on
a cycle only, so that a node that resolves at all does so within as many rounds as there are nodes.
-/
import Mathlib.Data.List.Basic
import SemanticPlanner.Proofs.Reach
import SemanticPlanner.Proofs.Transparency

namespace SemanticPlanner.Arena

variable {a b : Arena} {id p x : PlanId} {r : Relation} {m n : Nat}

/-- resolution that hands out what is kept, and keeps nothing new, within the given rounds -/
def keptWithin (a : Arena) : Nat → PlanId → Except PlanningError Relation
  | 0, id => .error (.cyclicPlan (a.node id).display)
  | n + 1, id =>
    match a.lookUp id (a.stamp id) with
    | some r => .ok r
    | none => a.round (keptWithin a n) id

theorem keptWithin_of_lookUp (h : a.lookUp id (a.stamp id) = some r) : a.keptWithin (n + 1) id = .ok r := by
  simp only [keptWithin, h]

theorem keptWithin_succ (h : a.lookUp id (a.stamp id) = none) :
    a.keptWithin (n + 1) id = a.round (a.keptWithin n) id := by
  simp only [keptWithin, h]

/-! ## Rounds -/

/-- a parent of a node, or a node that one of its joins names -/
def Named (a : Arena) (id p : PlanId) : Prop :=
  p ∈ a.parents id ∨ ∃ j ∈ (a.node id).kind.joins, p = j.left ∨ p = j.right

theorem mapM_ok_mono {α β : Type} {f g : α → Except PlanningError β} {l : List α} {vs : List β}
    (h : ∀ y ∈ l, ∀ v, f y = .ok v → g y = .ok v) (hf : l.mapM f = .ok vs) : l.mapM g = .ok vs := by
  induction l generalizing vs with
  | nil => exact hf
  | cons y l ih =>
    rw [List.mapM_cons] at hf ⊢
    obtain ⟨v, hv, hf⟩ := Resolve.bind_eq_ok hf
    obtain ⟨ws, hws, hf⟩ := Resolve.bind_eq_ok hf
    rw [h y List.mem_cons_self v hv, ih (fun z hz => h z (List.mem_cons_of_mem _ hz)) hws]
    exact hf

theorem nameJoin_mono {step step' : PlanId → Except PlanningError Relation} {j : NodeJoin} {v : Resolve.NamedJoin}
    (hl : ∀ r, step j.left = .ok r → step' j.left = .ok r) (hr : ∀ r, step j.right = .ok r → step' j.right = .ok r)
    (h : nameJoin step j = .ok v) : nameJoin step' j = .ok v := by
  obtain ⟨l, hleft, h⟩ := Resolve.bind_eq_ok h
  obtain ⟨r, hright, h⟩ := Resolve.bind_eq_ok h
  rw [nameJoin, hl l hleft, hr r hright]
  exact h

/-- a round returns what it returned, where the nodes it names resolve to what they resolved to -/
theorem round_mono {step step' : PlanId → Except PlanningError Relation}
    (h : ∀ p, a.Named id p → ∀ r, step p = .ok r → step' p = .ok r) (hr : a.round step id = .ok r) :
    a.round step' id = .ok r := by
  obtain ⟨rs, hrs, hr⟩ := Resolve.bind_eq_ok hr
  obtain ⟨joins, hjoins, hr⟩ := Resolve.bind_eq_ok hr
  have hrs' := mapM_ok_mono (fun p hp => h p (Or.inl hp)) hrs
  have hjoins' := mapM_ok_mono (fun j hj v => nameJoin_mono (h _ (Or.inr ⟨j, hj, Or.inl rfl⟩))
    (h _ (Or.inr ⟨j, hj, Or.inr rfl⟩))) hjoins
  exact round_eq_ok hrs' hjoins' hr

theorem keptWithin_mono (hmn : m ≤ n) (h : a.keptWithin m id = .ok r) : a.keptWithin n id = .ok r := by
  induction m generalizing n id r with
  | zero => cases h
  | succ m ih =>
    obtain ⟨n, rfl⟩ : ∃ k, n = k + 1 := ⟨n - 1, by omega⟩
    cases hl : a.lookUp id (a.stamp id) with
    | some r' => rwa [keptWithin_of_lookUp hl] at h ⊢
    | none =>
      rw [keptWithin_succ hl] at h ⊢
      exact round_mono (fun p _ r => ih (Nat.le_of_succ_le_succ hmn)) h

/-! ## Enough rounds -/

/-- what is not in an arena resolves in one round if at all -/
theorem keptWithin_of_not_contains (hx : a.contains x = false) (h : a.keptWithin m x = .ok r) :
    a.keptWithin (n + 1) x = .ok r := by
  cases m with
  | zero => cases h
  | succ m =>
    have hl : a.lookUp x (a.stamp x) = none := by rw [lookUp, slot_eq_default hx]; rfl
    rw [keptWithin_succ hl] at h ⊢
    refine round_mono (fun p hp => ?_) h
    rcases hp with hp | ⟨j, hj, -⟩
    · rw [parents_eq_nil hx] at hp
      cases hp
    · rw [node, slot_eq_default hx] at hj
      cases hj

/-- the nodes that resolve within the given rounds -/
def answered (a : Arena) (n : Nat) : List PlanId := a.ids.filter fun x => (a.keptWithin n x).toOption.isSome

theorem isSome_toOption {v : Except PlanningError Relation} : v.toOption.isSome = true ↔ ∃ r, v = .ok r := by
  cases v <;> simp [Except.toOption]

/-- in some round no more nodes resolve than in the one before -/
theorem exists_still (a : Arena) : ∃ n, 0 < n ∧ n ≤ a.size + 1 ∧
    ∀ x, a.contains x = true → ∀ r, a.keptWithin (n + 1) x = .ok r → a.keptWithin n x = .ok r := by
  by_contra hnone
  have hmore : ∀ n, 0 < n → n ≤ a.size + 1 → (a.answered n).length < (a.answered (n + 1)).length := by
    intro n hpos hle
    by_contra hlt
    refine hnone ⟨n, hpos, hle, fun x hx r hr => ?_⟩
    cases hn : a.keptWithin n x with
    | ok r' => rw [← hr, keptWithin_mono (Nat.le_succ n) hn]
    | error e =>
      refine absurd (length_filter_lt (fun y _ hy => ?_) (mem_ids.2 hx) (isSome_toOption.2 ⟨r, hr⟩) ?_) hlt
      · obtain ⟨r', hr'⟩ := isSome_toOption.1 hy
        exact isSome_toOption.2 ⟨r', keptWithin_mono (Nat.le_succ n) hr'⟩
      · rw [hn]
        rfl
  have hcount : ∀ k, k ≤ a.size + 1 → k ≤ (a.answered (k + 1)).length := by
    intro k
    induction k with
    | zero => exact fun _ => Nat.zero_le _
    | succ k ih => exact fun hk => Nat.succ_le_of_lt (Nat.lt_of_le_of_lt (ih (by omega)) (hmore (k + 1) (by omega) hk))
  have hall : (a.answered (a.size + 1 + 1)).length ≤ a.size := length_ids (a := a) ▸ List.length_filter_le _ _
  have := hcount (a.size + 1) (Nat.le_refl _)
  omega

/-- **one round for each node, and one more, are enough** -/
theorem keptWithin_enough (h : a.keptWithin m id = .ok r) : a.keptWithin (a.size + 1) id = .ok r := by
  obtain ⟨n, hpos, hle, hstill⟩ := a.exists_still
  obtain ⟨n, rfl⟩ : ∃ k, n = k + 1 := ⟨n - 1, by omega⟩
  suffices hall : ∀ m x r, a.keptWithin m x = .ok r → a.keptWithin (n + 1) x = .ok r from
    keptWithin_mono hle (hall m id r h)
  intro m
  induction m with
  | zero => exact fun x r h => by cases h
  | succ m ih =>
    intro x r h
    cases hx : a.contains x with
    | false => exact keptWithin_of_not_contains hx h
    | true =>
      refine hstill x hx r ?_
      cases hl : a.lookUp x (a.stamp x) with
      | some r' => rwa [keptWithin_of_lookUp hl] at h ⊢
      | none =>
        rw [keptWithin_succ hl] at h ⊢
        exact round_mono (fun p _ r => ih p r) h

/-! ## Arenas that keep more -/

theorem SameNodes.stamp (h : a.SameNodes b) (id : PlanId) : b.stamp id = a.stamp id := by
  have hparents : b.parents = a.parents := funext h.parents
  have hversion : b.version = a.version := funext h.version
  rw [Arena.stamp, Arena.stamp, ancestors, ancestors, hparents, hversion, h.size]

/-- an arena with the nodes of `a` that keeps what `a` keeps, and else what nodes of `a` resolve to -/
structure Keeps (a b : Arena) : Prop where
  nodes : a.SameNodes b
  kept : ∀ id r, a.lookUp id (a.stamp id) = some r → b.lookUp id (b.stamp id) = some r
  settled : ∀ id r, b.lookUp id (b.stamp id) = some r → a.keptWithin (a.size + 1) id = .ok r

theorem Keeps.refl (a : Arena) : a.Keeps a := ⟨.refl a, fun _ _ h => h, fun _ _ h => keptWithin_of_lookUp h⟩

theorem lookUp_remember : (a.remember id (a.stamp id) r).lookUp x (a.stamp x) =
    if x = id ∧ a.contains id = true then some r else a.lookUp x (a.stamp x) := by
  rw [lookUp, lookUp, remember_eq, slot_rewriteSlot]
  by_cases h : x = id ∧ a.contains id = true
  · simp [h]
  · simp only [if_neg h]

/-- what a node resolves to may be kept -/
theorem Keeps.remember (h : a.Keeps b) (hr : a.keptWithin (a.size + 1) id = .ok r) :
    a.Keeps (b.remember id (b.stamp id) r) := by
  have hsame : b.SameNodes (b.remember id (b.stamp id) r) := .remember _ _
  refine ⟨h.nodes.trans hsame, fun x r' hx => ?_, fun x r' hx => ?_⟩
  · rw [hsame.stamp, lookUp_remember]
    split
    · rename_i he
      rw [← he.1, keptWithin_of_lookUp hx] at hr
      exact congrArg some (Except.ok.inj hr).symm
    · exact h.kept x r' hx
  · rw [hsame.stamp, lookUp_remember] at hx
    split at hx
    · rename_i he
      rw [he.1, ← Option.some.inj hx, hr]
    · exact h.settled x r' hx

/-! ## Steps that return what is settled -/

/-- From every arena of a kind the step ends in one of that kind. It returns what is found within some rounds, and
returns nothing but what is found within enough of them. -/
def SettlesTo {α : Type} (I : Arena → Prop) (step : Resolving α) (found enough : Except PlanningError α) : Prop :=
  ∀ b, I b → I (step.run b).2 ∧ (∀ v, found = .ok v → (step.run b).1 = .ok v) ∧
    ∀ v, (step.run b).1 = .ok v → enough = .ok v

namespace SettlesTo

variable {α β : Type} {I : Arena → Prop} {step : Resolving α} {found enough : Except PlanningError α}

theorem pure {v : α} : SettlesTo I (Pure.pure v) (.ok v) (.ok v) := fun _ hb => ⟨hb, fun _ h => h, fun _ h => h⟩

theorem lift (v : Except PlanningError α) : SettlesTo I (liftM v : Resolving α) v v :=
  fun _ hb => ⟨hb, fun _ h => h, fun _ h => h⟩

theorem throw {e e' : PlanningError} : SettlesTo I (MonadExcept.throw e : Resolving α) (.error e') enough :=
  fun _ hb => ⟨hb, fun _ => nofun, fun _ => nofun⟩

theorem mono {enough' : Except PlanningError α} (h : SettlesTo I step found enough)
    (he : ∀ v, enough = .ok v → enough' = .ok v) : SettlesTo I step found enough' :=
  fun b hb => ⟨(h b hb).1, (h b hb).2.1, fun v hv => he v ((h b hb).2.2 v hv)⟩

theorem get {next : Arena → Resolving α} (h : ∀ b, I b → SettlesTo I (next b) found enough) :
    SettlesTo I (MonadStateOf.get >>= next) found enough := fun b hb => h b hb b hb

theorem bind {next : α → Resolving β} {found' enough' : α → Except PlanningError β} (h : SettlesTo I step found enough)
    (hn : ∀ w, enough = .ok w → SettlesTo I (next w) (found' w) (enough' w)) :
    SettlesTo I (step >>= next) (found >>= found') (enough >>= enough') := by
  intro b hb
  obtain ⟨hI, hfound, henough⟩ := h b hb
  rw [run_bind]
  rcases hs : step.run b with ⟨e | w, b'⟩
  · rw [hs] at hI hfound
    refine ⟨hI, fun v hv => ?_, fun v hv => by cases hv⟩
    obtain ⟨w, hw, -⟩ := Resolve.bind_eq_ok hv
    cases hfound w hw
  · rw [hs] at hI hfound henough
    have hw := henough w rfl
    obtain ⟨hI', hfound', henough'⟩ := hn w hw b' hI
    refine ⟨hI', fun v hv => ?_, fun v hv => ?_⟩
    · obtain ⟨w', hw', hv⟩ := Resolve.bind_eq_ok hv
      cases hfound w' hw'
      exact hfound' v hv
    · rw [hw]
      exact henough' v hv

theorem mapM {l : List β} {step : β → Resolving α} {found enough : β → Except PlanningError α}
    (h : ∀ x ∈ l, SettlesTo I (step x) (found x) (enough x)) :
    SettlesTo I (l.mapM step) (l.mapM found) (l.mapM enough) := by
  induction l with
  | nil => exact .pure
  | cons x l ih =>
    rw [List.mapM_cons, List.mapM_cons, List.mapM_cons]
    refine (h x List.mem_cons_self).bind fun y _ => ?_
    exact (ih fun z hz => h z (List.mem_cons_of_mem _ hz)).bind fun ys _ => .pure

theorem foldlM {l : List β} {step : α → β → Resolving α} {want : α → β → Except PlanningError α} {v : α}
    (h : ∀ v, ∀ x ∈ l, SettlesTo I (step v x) (want v x) (want v x)) :
    SettlesTo I (l.foldlM step v) (l.foldlM want v) (l.foldlM want v) := by
  induction l generalizing v with
  | nil => exact .pure
  | cons x l ih =>
    rw [List.foldlM_cons, List.foldlM_cons]
    exact (h v x List.mem_cons_self).bind fun w _ => ih fun w y hy => h w y (List.mem_cons_of_mem _ hy)

end SettlesTo

/-- **whatever else was resolved before, a node resolves to what it resolves to from the given arena** -/
theorem resolveWithin_settles (n : Nat) (id : PlanId) :
    SettlesTo a.Keeps (resolveWithin n id) (a.keptWithin n id) (a.keptWithin (a.size + 1) id) := by
  induction n generalizing id with
  | zero => exact .get fun b _ => .throw
  | succ n ih =>
    refine .get fun b hb => ?_
    cases hl : b.lookUp id (b.stamp id) with
    | some r =>
      have hr := hb.settled id r hl
      simp only [hl]
      exact fun c hc => ⟨hc, fun v hv => hr.symm.trans (keptWithin_enough hv), fun v hv => hv ▸ hr⟩
    | none =>
      have hla : a.lookUp id (a.stamp id) = none := by
        cases hla : a.lookUp id (a.stamp id) with
        | none => rfl
        | some r =>
          rw [hb.kept id r hla] at hl
          cases hl
      have henough : ∀ v, a.round (a.keptWithin (a.size + 1)) id = .ok v → a.keptWithin (a.size + 1) id = .ok v :=
        fun v hv => keptWithin_enough ((keptWithin_succ hla).trans hv)
      rw [keptWithin_succ (n := n) hla]
      simp only [hl, hb.nodes.node, hb.nodes.environment]
      refine .mono ?_ henough
      refine (SettlesTo.mapM fun p _ => ih p).bind fun rs hrs => ?_
      refine (SettlesTo.mapM fun j _ => (ih j.left).bind fun l _ => (ih j.right).bind fun r _ => .pure).bind
        fun joins hjoins => ?_
      suffices h : SettlesTo a.Keeps _ (Resolve.node a.environment (a.node id) rs joins >>= pure)
          (Resolve.node a.environment (a.node id) rs joins >>= pure) by
        rwa [bind_pure] at h
      refine (SettlesTo.lift _).bind fun r hr => ?_
      have hsettled : a.keptWithin (a.size + 1) id = .ok r := henough r (round_eq_ok hrs hjoins hr)
      refine fun c hc => ⟨?_, fun v hv => hv, fun v hv => hv⟩
      rw [hb.nodes.stamp, ← hc.nodes.stamp]
      exact hc.remember hsettled

theorem resolve_eq_ok_iff : (a.resolve id).1 = .ok r ↔ a.keptWithin (a.size + 1) id = .ok r :=
  have h := (resolveWithin_settles (a.size + 1) id a (.refl a)).2
  ⟨h.2 r, h.1 r⟩

theorem resolve_settles (id : PlanId) :
    SettlesTo a.Keeps (resolveWithin (a.size + 1) id) (a.resolve id).1 (a.resolve id).1 := by
  intro b hb
  obtain ⟨hI, hfound, henough⟩ := resolveWithin_settles (a.size + 1) id b hb
  exact ⟨hI, fun v hv => hfound v (resolve_eq_ok_iff.1 hv), fun v hv => resolve_eq_ok_iff.2 (henough v hv)⟩

/-- **Whatever was resolved before, a node resolves to the same.** -/
theorem Keeps.resolve_iff (h : a.Keeps b) : (b.resolve id).1 = .ok r ↔ (a.resolve id).1 = .ok r := by
  obtain ⟨-, hfound, henough⟩ := resolve_settles id b h
  rw [resolve, h.nodes.size]
  exact ⟨henough r, hfound r⟩

end SemanticPlanner.Arena
