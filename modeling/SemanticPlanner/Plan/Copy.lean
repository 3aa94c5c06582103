/-
Copies of a node with everything it depends on.

Each node below is copied once, parents before the nodes that read them; parents and explicit joins of a copy name
copies. Nothing that was in the arena changes.
-/
import SemanticPlanner.Plan.Arena

namespace SemanticPlanner

/-- the nodes that an explicit merge names, renamed -/
def NodeKind.renameJoins (k : NodeKind) (f : PlanId → PlanId) : NodeKind :=
  match k with
  | .merge (some js) => .merge (some (js.map fun j => { j with left := f j.left, right := f j.right }))
  | k => k

namespace Arena

/-- the arena while a subtree is copied, and the copies made so far -/
structure Copying where
  arena : Arena
  copies : SortedMap PlanId PlanId

/-- one node copied, given the copies of its parents -/
def Copying.put (id : PlanId) (parents : List PlanId) (s : Copying) : PlanId × Copying :=
  let n := s.arena.node id
  let (new, arena) := s.arena.append
    ⟨n.kind.renameJoins fun p => s.copies.getD p p, { n.core with parents }⟩
  (new, ⟨arena, s.copies.insert id new⟩)

/-- the copy of a node, made with its ancestors where there is none yet -/
def copyFrom : Nat → PlanId → StateM Copying PlanId
  | 0, id => pure id
  | fuel + 1, id => do
    match (← get).copies.get? id with
    | some new => pure new
    | none =>
      let parents ← ((← get).arena.parents id).mapM (copyFrom fuel)
      modifyGet (Copying.put id parents)

/-- a copy that later changes to the node do not reach -/
def copy (a : Arena) (id : PlanId) : PlanId × Arena :=
  let (new, s) := (copyFrom (a.size + 1) id).run ⟨a, ∅⟩
  (new, s.arena)

end Arena

end SemanticPlanner
