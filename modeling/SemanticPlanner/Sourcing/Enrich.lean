/-
Bringing companions to a node that does not produce them.

Missing companions are sourced with the join keys in a search of their own and merged with the node. If all of them are
properties of keys that the node has, each set of keys is looked up on its own. A node that cannot be enriched is left
as it is.
-/
import SemanticPlanner.Sourcing.Planner

namespace SemanticPlanner.Enrich

/-- a property whose keys are all at hand -/
def isLookup (outputs : List String) (c : Concept) : Bool :=
  decide (c.purpose = .property) && !c.keys.isEmpty && c.keys.toList.all outputs.contains

/-- properties by the text of their keys -/
def byKeys (properties : List Concept) : List (List String × List String) :=
  let sets := distinct (properties.map fun c => c.keys.toList)
  (sortBy listLE sets).map fun keys =>
    (keys, Concept.addresses (properties.filter fun c => c.keys.toList == keys))

/-- the parents that look the properties up, one for each set of keys; none if one of them cannot be had -/
def lookups (search : Search) (depth : Nat) (condition : Option Condition) :
    List (List String × List String) → Planning (Option (List PlanId))
  | [] => pure (some [])
  | (keys, values) :: rest => do
    let cs := (← Planning.conceptsFor keys) ++ (← Planning.conceptsFor values)
    match ← search { concepts := cs, depth := depth + 1, condition } with
    | none => pure none
    | some id => pure ((← lookups search depth condition rest).map (id :: ·))

/-- a node merged with the properties that belong to its keys -/
def withProperties (search : Search) (base : PlanId) (properties : List Concept) (depth : Nat)
    (condition : Option Condition) : Planning PlanId := do
  match ← lookups search depth condition (byKeys properties) with
  | none => pure base
  | some parents =>
    let outputs := (← Planning.core base).outputs ++ Concept.addresses properties
    Planning.insert (.merge none)
      (((NodeCore.of outputs outputs).withParents (base :: parents)).withDepth depth |>.withPreexisting condition)

/-- a node merged with a search for the missing companions -/
def withSearch (search : Search) (base : PlanId) (core : NodeCore) (mandatory : List Concept) (depth : Nat)
    (condition : Option Condition) : Planning PlanId := do
  match ← search { concepts := mandatory, depth := depth + 1, condition } with
  | none => pure base
  | some found =>
    let outputs := Concept.addresses mandatory ++ core.visible
    Planning.insert (.merge none)
      (((NodeCore.of outputs outputs).withParents [found, base]).withDepth depth
        |>.withForceGroup (some false)
        |>.withPreexisting condition)

/-- a node that also has the companions, as far as they can be had -/
def node (search : Search) (base : PlanId) (joinKeys companions : List Concept) (depth : Nat)
    (condition : Option Condition) : Planning PlanId := do
  let core ← Planning.core base
  let missing := companions.filter fun c =>
    !core.outputs.contains c.address || core.partials.contains c.address
  if missing.isEmpty then pure base
  else if missing.all (isLookup core.outputs) then withProperties search base missing depth condition
  else withSearch search base core (Concept.unique (joinKeys ++ missing)) depth condition

end SemanticPlanner.Enrich
