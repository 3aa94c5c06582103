/-
The order of explicit joins: every join's left side is there before it.

The first join starts at a node that is never joined to another; joins whose two sides are there already are dropped.
-/
import SemanticPlanner.Plan.Node
import SemanticPlanner.Error

namespace SemanticPlanner.JoinOrder

def idsText (ids : SortedSet PlanId) : String := Text.join "," (ids.toList.map PlanId.display)

def lefts (js : List NodeJoin) : SortedSet PlanId := SortedSet.ofList (js.map NodeJoin.left)

def rights (js : List NodeJoin) : SortedSet PlanId := SortedSet.ofList (js.map NodeJoin.right)

/-- the joins ordered so far, the nodes they reach, and the joins still to be placed -/
structure Sweep where
  ordered : List NodeJoin
  available : SortedSet PlanId
  remaining : List NodeJoin

/-- one join placed, dropped or kept for the next sweep -/
def place (s : Sweep) (j : NodeJoin) : Sweep :=
  if s.available.contains j.left then
    if s.available.contains j.right then s
    else { s with ordered := s.ordered ++ [j], available := s.available.insert j.right }
  else { s with remaining := s.remaining ++ [j] }

/-- sweeps over the pending joins until none is left or a sweep places none -/
def sweep : Nat → Sweep → List NodeJoin → Except PlanningError (List NodeJoin)
  | 0, s, _ => .ok s.ordered
  | fuel + 1, s, pending =>
    let t := pending.foldl place { s with remaining := [] }
    if t.remaining.isEmpty then .ok t.ordered
    else if t.remaining.length = pending.length then
      .error (.joinOrder (idsText (lefts t.remaining)) (idsText (rights t.remaining)))
    else sweep fuel t t.remaining

/-- the joins in an order in which each left side is available -/
def order (js : List NodeJoin) : Except PlanningError (List NodeJoin) :=
  if js.isEmpty then .ok []
  else
    let basis := (lefts js).diff (rights js)
    match js.find? fun j => basis.contains j.left with
    | none => .error (.joinOrder (idsText (lefts js)) (idsText (rights js)))
    | some base =>
      sweep (js.length + 1) ⟨[base], SortedSet.ofList [base.left, base.right], []⟩
        (js.filter fun j => decide (j ≠ base))

end SemanticPlanner.JoinOrder
