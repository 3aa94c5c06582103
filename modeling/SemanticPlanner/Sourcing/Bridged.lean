/-
Sourcing targets over a bridge: each piece of a connecting graph on its own, and then all of them merged.
-/
import SemanticPlanner.Sourcing.Bridge
import SemanticPlanner.Sourcing.Planner

namespace SemanticPlanner.Bridged

/-- every piece sourced in order; none if one of them cannot be had -/
def sourcePieces (search : Search) (depth : Nat) : List (List Concept) → Planning (Option (List PlanId))
  | [] => pure (some [])
  | piece :: rest => do
    match ← search { concepts := piece, depth := depth + 1 } with
    | none => pure none
    | some id => pure ((← sourcePieces search depth rest).map (id :: ·))

/-- an address that is a target, or another name of one -/
def isWanted (env : Environment) (targets : List Concept) (address : String) : Bool :=
  targets.any fun t => t.address == address || t.pseudonyms.contains address
    || (env.pseudonyms address).contains t.address

/-- the pieces merged; a single one is handed back -/
def mergePieces (targets : List Concept) (depth : Nat) (parents : List PlanId) : Planning PlanId := do
  match parents with
  | [one] => pure one
  | _ =>
    let env ← Planning.environment
    let inputs := distinct ((← parents.mapM Planning.core).flatMap NodeCore.visible)
    Planning.insert (.merge none)
      (((NodeCore.of inputs (inputs.filter (isWanted env targets))).withParents parents).withDepth depth)

/-- the wanted concepts: the targets and what the condition reads, by address -/
def wanted (env : Environment) (r : Request) : Except PlanningError (List Concept) := do
  let read ← match r.condition with
    | some c => env.conceptsFor c.rowArguments
    | none => pure []
  pure (Concept.unique (sortOn Concept.address (r.concepts ++ read)))

/-- the pieces of the first bridge there is: over roots alone, or else over any concepts -/
def firstGroups (p : Planner) (r : Request) (concepts : List Concept) :
    Except PlanningError (Option (List (List Concept))) := do
  let env := p.arena.environment
  let groups (rootsOnly : Bool) :=
    Bridge.groups env p.graph ⟨concepts, rootsOnly, r.acceptPartial⟩ r.condition p.settings.weakComponentLimit
  match ← groups true with
  | some gs => pure (some gs)
  | none => groups false

/-- targets sourced over a bridge; a piece that asks for the very same concepts gets nowhere -/
def source (search : Search) : Search := fun r => do
  let p ← get
  let concepts ← wanted p.arena.environment r
  match ← firstGroups p r concepts with
  | none => pure none
  | some groups =>
    let whole := SortedSet.ofList (Concept.addresses concepts)
    if groups.any fun g => decide (SortedSet.ofList (Concept.addresses g) = whole) then return none
    match ← sourcePieces search r.depth groups with
    | none => pure none
    | some parents => some <$> mergePieces r.concepts r.depth parents

end SemanticPlanner.Bridged
