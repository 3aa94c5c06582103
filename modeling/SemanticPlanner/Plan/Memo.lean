/-
Resolving a node of an arena.

`resolveFresh` resolves a node and everything it reads. `resolve` keeps each relation with the stamp of its node, and
hands it out again while that stamp is unchanged; what was kept survives a failure further on.
-/
import SemanticPlanner.Plan.Arena
import SemanticPlanner.Plan.Resolve

namespace SemanticPlanner.Arena

/-- resolution that forgets nothing between nodes, within the given depth -/
def freshWithin (a : Arena) : Nat → PlanId → Except PlanningError Relation
  | 0, id => .error (.cyclicPlan (a.node id).display)
  | fuel + 1, id => do
    let n := a.node id
    let parents ← n.core.parents.mapM (freshWithin a fuel)
    let joins ← n.kind.joins.mapM fun j => do
      let l ← freshWithin a fuel j.left
      let r ← freshWithin a fuel j.right
      pure (⟨j, l.identifier, r.identifier⟩ : Resolve.NamedJoin)
    Resolve.node a.environment n parents joins

/-- the relation of a node, resolved anew -/
def resolveFresh (a : Arena) (id : PlanId) : Except PlanningError Relation := a.freshWithin (a.size + 1) id

/-- a step that can fail and may fill memos -/
abbrev Resolving := ExceptT PlanningError (StateM Arena)

/-- the relation kept for a node, if nothing below the node has changed since -/
def lookUp (a : Arena) (id : PlanId) (stamp : Nat) : Option Relation :=
  match (a.slot id).memo with
  | some (at_, r) => if at_ = stamp then some r else none
  | none => none

def remember (a : Arena) (id : PlanId) (stamp : Nat) (r : Relation) : Arena :=
  { a with slots := a.slots.modify id.index fun s => { s with memo := some (stamp, r) } }

def forget (a : Arena) (id : PlanId) : Arena :=
  { a with slots := a.slots.modify id.index fun s => { s with memo := none } }

def resolveWithin : Nat → PlanId → Resolving Relation
  | 0, id => do throw (.cyclicPlan ((← get).node id).display)
  | fuel + 1, id => do
    let a ← get
    let stamp := a.stamp id
    match a.lookUp id stamp with
    | some r => pure r
    | none =>
      let n := a.node id
      let parents ← n.core.parents.mapM (resolveWithin fuel)
      let joins ← n.kind.joins.mapM fun j => do
        let l ← resolveWithin fuel j.left
        let r ← resolveWithin fuel j.right
        pure (⟨j, l.identifier, r.identifier⟩ : Resolve.NamedJoin)
      let r ← Resolve.node a.environment n parents joins
      modify fun a => a.remember id stamp r
      pure r

/-- the relation of a node, and the arena with what was resolved on the way -/
def resolve (a : Arena) (id : PlanId) : Except PlanningError Relation × Arena :=
  (resolveWithin (a.size + 1) id).run a

/-- the relation of a node whose kept relation is dropped first -/
def rebuild (a : Arena) (id : PlanId) : Except PlanningError Relation × Arena := (a.forget id).resolve id

end SemanticPlanner.Arena
