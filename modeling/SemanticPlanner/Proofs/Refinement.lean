/-
A resolved relation shows the columns that its node shows, unless a merge hands back what it merges.

  Ruled.shows          every rule keeps the outputs and the hidden ones of its node, or hands back a source
  Resolves.visible     so the refinement holds of a node's relation, or the node hands that back
  Built.consistent     an arena made by its own operations keeps right relations
  getLast?_lower       the last step of a lowered plan is the step of its relation

A merge without a condition that is handed a parent which already is what it asks for returns that parent's relation,
so the columns are then the parent's: every output of the merge is among them, but the parent may have more of them and
may hide some.
-/
import SemanticPlanner.Cte.Lower
import SemanticPlanner.Proofs.Copy

namespace SemanticPlanner

namespace Resolve

variable {env : Environment} {n : PlanNode} {rs : List Relation} {r : Relation}

/-- every rule keeps the outputs and the hidden ones of its node, or is a merge handing back a source -/
theorem Ruled.shows (h : Ruled env n rs r) :
    (r.outputs = n.core.outputs ∧ r.hidden = n.core.hidden) ∨
      n.kind.sourceKind = .merge ∧ n.core.condition = none ∧ Answers n.core.outputs (mergedSources rs) r := by
  cases h with
  | handedBack kind back => exact Or.inr ⟨by rw [kind]; rfl, passThrough_eq_some back⟩
  | _ => exact Or.inl ⟨rfl, rfl⟩

end Resolve

/-! ## The lowered root -/

/-- a plan ends with the step of its relation -/
theorem Relation.ctes_lower (r : Relation) : r.lower.ctes = lowerSources r.sources [] ++ [r.toCte] := by
  cases r
  simp [lower, lowerInto]

theorem Relation.getLast?_lower (r : Relation) : r.lower.ctes.getLast? = some r.toCte := by
  rw [ctes_lower, List.getLast?_concat]

namespace Arena

variable {a : Arena} {id : PlanId} {r : Relation}

theorem lower_of_resolve (h : (a.resolve id).1 = .ok r) : (a.lower id).1 = .ok r.lower := by
  show (a.resolve id).1.map Relation.lower = _
  rw [h]
  rfl

/-- an unconditional merge hands `r` back: the relation of a parent, or of several of one identifier put together,
that is what the merge asks for -/
def HandsBack (a : Arena) (id : PlanId) (r : Relation) : Prop :=
  (a.node id).kind.sourceKind = .merge ∧ (a.core id).condition = none ∧
    ∃ rs, rs.length = (a.parents id).length ∧ (∀ e ∈ (a.parents id).zip rs, a.Resolves e.1 e.2) ∧
      Resolve.Answers (a.core id).outputs (Resolve.mergedSources rs) r

/-- every output of the merge is one of the relation that it hands back -/
theorem HandsBack.outputs (h : a.HandsBack id r) {x : String} (hx : x ∈ (a.core id).outputs) : x ∈ r.outputs := by
  obtain ⟨-, -, rs, -, -, hr⟩ := h
  rcases hr.covers with ⟨-, hsame⟩ | hcomplete
  · exact (hsame x).2 hx
  · exact (List.mem_filter.1 (hcomplete x hx)).1

theorem Resolves.shows (h : a.Resolves id r) :
    (r.outputs = (a.core id).outputs ∧ r.hidden = (a.core id).hidden) ∨ a.HandsBack id r := by
  cases h with
  | intro length parents rule => exact rule.shows.imp_right fun h => ⟨h.1, h.2.1, _, length, parents, h.2.2⟩

theorem Resolves.visible (h : a.Resolves id r) : r.visible = (a.core id).visible ∨ a.HandsBack id r := by
  refine h.shows.imp_left fun hs => ?_
  rw [Relation.visible, NodeCore.visible, hs.1, hs.2]

/-! ## Built arenas -/

/-- an arena made by its own operations: nodes are inserted and parents added that are in the arena, and a core is
changed but for its parents -/
inductive Built : Arena → Prop
  | empty (env : Environment) : Built (Arena.empty env)
  | insert {a : Arena} {n : PlanNode} (h : Built a) (hn : ∀ p ∈ n.core.parents, a.contains p = true) :
      Built (a.insert n).2
  | change {a : Arena} {id : PlanId} {f : NodeCore → NodeCore} (h : Built a) (hf : ∀ c, (f c).parents = c.parents) :
      Built (a.change id f)
  | addParents {a b : Arena} {id : PlanId} {ps : List PlanId} (h : Built a) (hp : ∀ p ∈ ps, a.contains p = true)
      (hb : a.addParents id ps = .ok b) : Built b
  | copy {a : Arena} {id : PlanId} (h : Built a) (hid : a.contains id = true) : Built (a.copy id).2
  | resolve {a : Arena} {id : PlanId} (h : Built a) : Built (a.resolve id).2
  | rebuild {a : Arena} {id : PlanId} (h : Built a) : Built (a.rebuild id).2

/-- **a built arena is well-formed, and the relations it keeps are right** -/
theorem Built.consistent (h : Built a) : a.Consistent := by
  induction h with
  | empty env => exact .empty env
  | insert _ hn ih => exact ih.insert hn
  | change _ hf ih => exact ih.change hf
  | addParents _ hp hb ih => exact ih.addParents hp hb
  | copy _ hid ih => exact (copy_spec ih hid).1
  | @resolve a id _ ih => exact ih.keeps (resolve_keeps ih id)
  | @rebuild a id _ ih => exact ih.forget.keeps (resolve_keeps ih.forget id)

end Arena

end SemanticPlanner
