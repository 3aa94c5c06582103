/-
Inferred joins and the rows of outer joins.

  mem_outerRights   the right sides that an inner join must preserve are those of joins that are outer by their own keys
  kind_of_mem       an inner join becomes a left outer one exactly if it reads from one of these
  order_keeps_outer so an inner join reads from an outer one only if that was an inner one itself
  deliveries_drop_rows
                    an inner join that is two steps behind an outer one

The right sides of outer joins are collected once, before any join is changed. A join that is changed gets an outer
right side thereby, and the joins that read from it are not looked at again.
-/
import SemanticPlanner.Proofs.Chaining

namespace SemanticPlanner.JoinChain

variable {inp : Input} {l : Link} {outer : List String} {s : String}

/-- a kind of join that keeps rows without a partner -/
def KeepsRows (k : JoinKind) : Prop := k = .leftOuter ∨ k = .full

instance (k : JoinKind) : Decidable (KeepsRows k) := inferInstanceAs (Decidable (_ ∨ _))

/-- a join that is inner by its own keys and reads from the right side of one that is outer by its own -/
def Upgraded (inp : Input) (l : Link) : Prop :=
  ownKind inp l = .inner ∧ ∃ i ∈ order inp, KeepsRows (ownKind inp i) ∧ i.right ∈ l.keys.keys

instance (inp : Input) (l : Link) : Decidable (Upgraded inp l) := inferInstanceAs (Decidable (_ ∧ _))

theorem keys_preserve (outer : List String) (l : Link) : (preserve outer l).keys = l.keys := by
  rw [preserve]
  split <;> rfl

theorem ownKind_preserve (inp : Input) (outer : List String) (l : Link) :
    ownKind inp (preserve outer l) = ownKind inp l := by
  rw [preserve]
  split <;> rfl

/-- an inner join with an outer right side among its keys changes its kind, and no other join does -/
theorem kind_preserve (outer : List String) (l : Link) :
    (preserve outer l).kind = if l.kind = .inner ∧ ∃ s ∈ outer, s ∈ l.keys.keys then .leftOuter else l.kind := by
  have hreads : l.keys.keys.any outer.contains = true ↔ ∃ s ∈ outer, s ∈ l.keys.keys := by
    simp [and_comm]
  simp only [preserve, Bool.and_eq_true, decide_eq_true_eq, hreads]
  split <;> rfl

/-- the right sides of the outer joins of the chain -/
def outerRights (inp : Input) : List String := ((chainOf inp).links.filter isOuter).map Link.right

theorem mem_order : l ∈ order inp ↔ ∃ i ∈ (chainOf inp).links, preserve (outerRights inp) i = l := by
  rw [order_eq, List.mem_map]
  exact Iff.rfl

theorem kind_chainOf (hl : l ∈ (chainOf inp).links) : l.kind = ownKind inp l := by
  obtain ⟨starts, hb, -⟩ := chainOf_built inp
  exact (hb.formed l hl).kind

theorem mem_outerRights : s ∈ outerRights inp ↔ ∃ i ∈ order inp, KeepsRows (ownKind inp i) ∧ i.right = s := by
  have houter : ∀ i ∈ (chainOf inp).links, isOuter i = true ↔ KeepsRows (ownKind inp i) := fun i hi => by
    rw [isOuter, decide_eq_true_iff, kind_chainOf hi]
    exact Iff.rfl
  rw [outerRights, List.mem_map]
  constructor
  · rintro ⟨i, hi, rfl⟩
    obtain ⟨hi, hkind⟩ := List.mem_filter.1 hi
    refine ⟨_, mem_order.2 ⟨i, hi, rfl⟩, ?_, right_preserve _ i⟩
    rw [ownKind_preserve]
    exact (houter i hi).1 hkind
  · rintro ⟨l, hl, hkind, rfl⟩
    obtain ⟨i, hi, rfl⟩ := mem_order.1 hl
    rw [ownKind_preserve] at hkind
    exact ⟨i, List.mem_filter.2 ⟨hi, (houter i hi).2 hkind⟩, (right_preserve _ i).symm⟩

/-- a join of the list keeps its own kind, unless it is upgraded -/
theorem kind_of_mem (hl : l ∈ order inp) : l.kind = if Upgraded inp l then .leftOuter else ownKind inp l := by
  obtain ⟨i, hi, rfl⟩ := mem_order.1 hl
  have hreads : (∃ s ∈ outerRights inp, s ∈ i.keys.keys) ↔
      ∃ j ∈ order inp, KeepsRows (ownKind inp j) ∧ j.right ∈ i.keys.keys := by
    constructor
    · rintro ⟨s, hs, hmem⟩
      obtain ⟨j, hj, hkind, rfl⟩ := mem_outerRights.1 hs
      exact ⟨j, hj, hkind, hmem⟩
    · rintro ⟨j, hj, hkind, hmem⟩
      exact ⟨j.right, mem_outerRights.2 ⟨j, hj, hkind, rfl⟩, hmem⟩
  simp only [kind_preserve, Upgraded, ownKind_preserve, keys_preserve, kind_chainOf hi, hreads]

/-- **Which joins keep the rows of outer ones.** An inner join that reads from the right side of a join that is outer by
its own keys becomes a left outer join, and all others keep their kind. So an inner join that reads from the right side
of an outer one is two steps behind an outer join: the join between them became outer itself. -/
theorem order_keeps_outer (inp : Input) :
    (∀ l ∈ order inp, l.kind = if Upgraded inp l then .leftOuter else ownKind inp l) ∧
    ∀ l ∈ order inp, l.kind = .inner → ∀ i ∈ order inp, i.right ∈ l.keys.keys → KeepsRows i.kind → Upgraded inp i := by
  refine ⟨fun l => kind_of_mem, fun l hl hinner i hi hreads hkeeps => by_contra fun hown => ?_⟩
  have hl := kind_of_mem hl
  have hi' := kind_of_mem hi
  rw [if_neg hown] at hi'
  rw [hi'] at hkeeps
  split at hl
  · cases hinner.symm.trans hl
  · rename_i hplain
    exact hplain ⟨hl.symm.trans hinner, i, hi, hkeeps, hreads⟩

/-! ## Rows lost two steps behind an outer join -/

/-- orders, the runs that deliver some of them, the vans of the runs and their drivers -/
def deliveries : Input :=
  { plainly [("orders", ["order"]), ("runs", ["order", "run"]), ("vans", ["run", "van"]), ("drivers", ["van"])] with
    partials := .ofList [("runs", SortedSet.ofList ["order"])] }

/-- an inner join reads from a join that was upgraded -/
theorem order_keeps_outer_deliveries : ∃ l ∈ order deliveries, ∃ i ∈ order deliveries,
    l.kind = .inner ∧ i.right ∈ l.keys.keys ∧ KeepsRows i.kind ∧ Upgraded deliveries i := by
  have hread : ∃ l ∈ order deliveries, ∃ i ∈ order deliveries,
      l.kind = .inner ∧ i.right ∈ l.keys.keys ∧ KeepsRows i.kind := by decide +kernel
  obtain ⟨l, hl, i, hi, hinner, hreads, hkeeps⟩ := hread
  exact ⟨l, hl, i, hi, hinner, hreads, hkeeps, (order_keeps_outer deliveries).2 l hl hinner i hi hreads hkeeps⟩

/-- **The drivers drop the orders without a run.** The vans keep them, since they read from the runs; the drivers are
joined to the vans by an inner join. -/
theorem deliveries_drop_rows :
    (order deliveries).map (fun l => (l.reads, l.kind, l.right)) =
      [(["orders"], .leftOuter, "runs"), (["runs"], .leftOuter, "vans"), (["vans"], .inner, "drivers")] ∧
    ¬ ∀ l ∈ order deliveries, l.kind = .inner → ∀ i ∈ order deliveries, i.right ∈ l.keys.keys → ¬ KeepsRows i.kind := by
  decide +kernel

end SemanticPlanner.JoinChain
