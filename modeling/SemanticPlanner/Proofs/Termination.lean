/-
Plans stay acyclic, so every recursion over parents ends.

  wellFounded_parents   there is no endless way up from a node
  linesFrom_eq, copyFrom_eq, grow_parents
                        the bounds on rounds are never met: rounds beyond the ancestors of a node change nothing
  addParents_eq_error   new parents are refused exactly if one of them is the node or depends on it
  plans_acyclic         the results together, for every built arena

A parent may have a later number than the node that reads it, once it was added. What falls along every edge is the
number of ancestors.
-/
import SemanticPlanner.Plan.Arena
import SemanticPlanner.Proofs.Transparency
import SemanticPlanner.Sourcing.Planner

namespace SemanticPlanner.Arena

variable {a b : Arena} {id p x y : PlanId} {m n : Nat}

theorem wellFounded_parents (ha : a.WellFormed) : WellFounded fun p id => p ∈ a.parents id :=
  Subrelation.wf (fun h => height_lt ha h) (InvImage.wf a.height Nat.lt_wfRel.wf)

/-! ## Rounds -/

/-- the ancestors are closed under parents, so further rounds find no more -/
theorem grow_parents (ha : a.WellFormed) (hn : a.size < n) :
    Reach.grow a.parents n (SortedSet.ofList (a.parents id)) = a.ancestors id :=
  SortedSet.ext fun _ => (mem_grow_parents ha hn).trans (mem_ancestors ha).symm

/-- a plan is shown alike, given more rounds than its root has ancestors -/
theorem linesFrom_eq (ha : a.WellFormed) (hm : a.height id < m) (hn : a.height id < n) (depth : Nat) :
    a.linesFrom m depth id = a.linesFrom n depth id := by
  induction m generalizing id n depth with
  | zero => exact absurd hm (Nat.not_lt_zero _)
  | succ m ih =>
    obtain ⟨n, rfl⟩ : ∃ k, n = k + 1 := ⟨n - 1, by omega⟩
    rw [linesFrom, linesFrom]
    refine congrArg _ (List.flatMap_congr fun p hp => ?_)
    have := height_lt ha hp
    exact ih (by omega) (by omega) (depth + 1)

/-- nodes copied one after the other by steps that agree wherever something is being copied -/
theorem mapM_copyFrom_congr {step step' : PlanId → StateM Copying PlanId} {l : List PlanId}
    (h : ∀ p ∈ l, ∀ s, Copied a s → step p s = step' p s ∧ Copied a (step p s).2) {s : Copying} (hs : Copied a s) :
    l.mapM step s = l.mapM step' s := by
  induction l generalizing s with
  | nil => rfl
  | cons p l ih =>
    obtain ⟨he, hc⟩ := h p List.mem_cons_self s hs
    have hrest := ih (fun q hq => h q (List.mem_cons_of_mem _ hq)) hc
    rw [List.mapM_cons, List.mapM_cons]
    show ((step p s).1 :: (l.mapM step (step p s).2).1, (l.mapM step (step p s).2).2) =
      ((step' p s).1 :: (l.mapM step' (step' p s).2).1, (l.mapM step' (step' p s).2).2)
    rw [← he, hrest]

/-- a node is copied alike, given more rounds than it has ancestors -/
theorem copyFrom_eq (ha : a.WellFormed) (hid : a.contains id = true) (hm : a.height id < m) (hn : a.height id < n)
    {s : Copying} (hs : Copied a s) : copyFrom m id s = copyFrom n id s := by
  induction m generalizing id n s with
  | zero => exact absurd hm (Nat.not_lt_zero _)
  | succ m ih =>
    obtain ⟨n, rfl⟩ : ∃ k, n = k + 1 := ⟨n - 1, by omega⟩
    cases hc : s.copies.get? id with
    | some new => rw [copyFrom_of_copied hc, copyFrom_of_copied hc]
    | none =>
      have hparents : (a.parents id).mapM (copyFrom m) s = (a.parents id).mapM (copyFrom n) s := by
        refine mapM_copyFrom_congr (fun p hp t ht => ?_) hs
        have := height_lt ha hp
        have hcp := ha.closed id p hp
        exact ⟨ih hcp (by omega) (by omega) ht, (copyFrom_spec ha hcp (by omega) ht).1.copied⟩
      rw [copyFrom_of_new hc, copyFrom_of_new hc, hs.extended.parents hid, hparents]

/-- **rounds beyond the ancestors of a node change nothing**: what goes over parents never meets its bound -/
structure Settles (a : Arena) (id : PlanId) : Prop where
  ancestors : ∀ n, a.size < n → Reach.grow a.parents n (SortedSet.ofList (a.parents id)) = a.ancestors id
  explain : ∀ n, a.height id < n → a.linesFrom n 0 id = a.explain id
  copy : a.contains id = true → ∀ n, a.height id < n →
    (copyFrom n id).run ⟨a, ∅⟩ = (copyFrom (a.size + 1) id).run ⟨a, ∅⟩
  resolve : a.JoinsBelow id → ∀ n, a.height id < n → ((resolveWithin n id).run a).1 = (a.resolve id).1

theorem Built.settles (ha : a.Built) (id : PlanId) : a.Settles id := by
  have hwf := ha.consistent.wellFormed
  have hbound : a.height id < a.size + 1 := Nat.lt_succ_of_le (height_le hwf)
  refine ⟨fun n hn => grow_parents hwf hn, fun n hn => linesFrom_eq hwf hn hbound 0, fun hid n hn => ?_,
    fun hj n hn => ?_⟩
  · exact copyFrom_eq hwf hid hn hbound (.start ha.consistent)
  · have hkept : a.Exactly a := ⟨.refl a, ha.remembers Exact.lawful⟩
    exact (resolveWithin_gives hwf hj hn a hkept).2.trans (resolveWithin_gives hwf hj hbound a hkept).2.symm

/-! ## New parents -/

/-- **new parents are refused exactly if one of them is the node or has it among its ancestors** -/
theorem addParents_eq_error {ps : List PlanId} {e : PlanningError} :
    a.addParents id ps = .error e ↔
      e = .cyclicPlan (a.node id).display ∧ ∃ p ∈ ps, p = id ∨ id ∈ a.ancestors p := by
  have hany : (ps.any fun p => p == id || (a.ancestors p).contains id) = true ↔
      ∃ p ∈ ps, p = id ∨ id ∈ a.ancestors p := by
    simp only [List.any_eq_true, Bool.or_eq_true, beq_iff_eq, SortedSet.contains_iff]
  rw [addParents, ← hany]
  split
  · rename_i h
    simp only [Except.error.injEq, h, and_true, eq_comm]
  · rename_i h
    simp only [reduceCtorEq, h, and_false]

/-- parents added in a planning pass -/
theorem run_addParents {ps : List PlanId} {s : Planner} :
    (Planning.addParents id ps).run s = match s.arena.addParents id ps with
      | .ok arena => (.ok (), { s with arena })
      | .error e => (.error e, s) := by
  have hget : (get : Planning Planner).run s = (.ok s, s) := rfl
  have hlift : ∀ v, (liftM v : Planning Arena).run s = (v, s) := fun _ => rfl
  rw [Planning.addParents, run_bind, hget]
  simp only [run_bind, hlift]
  cases s.arena.addParents id ps <;> rfl

/-- what is refused changes nothing of a planning pass -/
theorem run_addParents_error {ps : List PlanId} {s t : Planner} {e : PlanningError}
    (h : (Planning.addParents id ps).run s = (.error e, t)) : t = s := by
  rw [run_addParents] at h
  cases ha : s.arena.addParents id ps with
  | ok b =>
    rw [ha] at h
    cases h
  | error e' =>
    rw [ha] at h
    cases h
    rfl

/-- **Acyclicity.** In an arena built by its own operations, parents lead from no node back to it, there is no endless
way over parents, and the rounds that are given to ancestors, copies, written plans and resolving are never used up.
New parents are refused exactly if one of them is the node or has it among its ancestors, and then nothing changes. -/
theorem plans_acyclic (ha : a.Built) (id : PlanId) :
    id ∉ a.ancestors id ∧ (∀ x, x ∈ a.ancestors id ↔ a.DependsOn id x) ∧
      (WellFounded fun p id => p ∈ a.parents id) ∧ a.Settles id ∧
      (∀ ps e, a.addParents id ps = .error e ↔
        e = .cyclicPlan (a.node id).display ∧ ∃ p ∈ ps, p = id ∨ id ∈ a.ancestors p) ∧
      ∀ ps (s : Planner) e t, s.arena = a → (Planning.addParents id ps).run s = (.error e, t) → t = s := by
  have hwf := ha.consistent.wellFormed
  refine ⟨fun h => hwf.acyclic id ((mem_ancestors hwf).1 h), fun x => mem_ancestors hwf, wellFounded_parents hwf,
    ha.settles id, fun ps e => addParents_eq_error, fun ps s e t _ h => run_addParents_error h⟩

/-- a constant under a merge, and a copy of both -/
def copiedPair : Arena :=
  let (below, a) := (Arena.empty default).insert ⟨.constant, NodeCore.of [] ["local.a"]⟩
  let (above, a) := a.insert ⟨.merge none, (NodeCore.of ["local.a"] ["local.a"]).withParents [below]⟩
  (a.copy above).2

/-- the constant now reads the copy of the merge, which was numbered after it -/
def backLinked : Arena := copiedPair.change ⟨0⟩ fun c => { c with parents := addAllNew c.parents [⟨3⟩] }

theorem built_backLinked : backLinked.Built := by
  have hcopied : copiedPair.Built := by
    refine .copy (.insert (.insert (.empty default) ?_) ?_) ?_
    all_goals decide
  have hattached : copiedPair.addParents ⟨0⟩ [⟨3⟩] = .ok backLinked := rfl
  exact .addParents hcopied (by decide) hattached

/-- the merge reads the copied constant by way of the original, so it is refused as a parent of the copy -/
theorem plans_acyclic_backLinked :
    backLinked.Built ∧ backLinked.parents ⟨0⟩ = [⟨3⟩] ∧ ⟨0⟩ ∉ backLinked.ancestors ⟨0⟩ ∧
      backLinked.addParents ⟨2⟩ [⟨1⟩] = .error (.cyclicPlan "Constant<local.a>") :=
  ⟨built_backLinked, rfl, (plans_acyclic built_backLinked ⟨0⟩).1,
    ((plans_acyclic built_backLinked ⟨2⟩).2.2.2.2.1 [⟨1⟩] _).2 ⟨by decide, ⟨1⟩, by decide, by decide⟩⟩

end SemanticPlanner.Arena
