/-
Plan nodes: the steps of a plan before it is resolved, linked to their parents by number.

Every kind of node shares a core (parents, concept sets, conditions, grain). A condition attached to a node is kept in
step with the condition its rows are known to satisfy (`syncPreexisting`).
-/
import SemanticPlanner.Relation.Join

namespace SemanticPlanner

/-- the number of a node in its arena -/
structure PlanId where
  index : Nat
deriving DecidableEq, Repr, Inhabited

namespace PlanId

def display (id : PlanId) : String := "#" ++ toString id.index

instance : Sorts PlanId := Sorts.ofKey PlanId.index fun a b h => by cases a; cases b; simp_all

end PlanId

/-- what every kind of node has; concepts are held by address -/
structure NodeCore where
  parents : List PlanId := []
  inputs : List String
  outputs : List String
  hidden : NameSet := ∅
  partials : List String := []
  nullables : List String := []
  /-- outputs satisfied through a pseudonym -/
  virtual : List String := []
  /-- concepts read by membership tests only -/
  existence : List String := []
  condition : Option Condition := none
  /-- the condition that the node's rows are known to satisfy -/
  preexisting : Option Condition := none
  forceGroup : Option Bool := none
  grain : Option Grain := none
  wholeGrain : Bool := false
  depth : Nat := 0
deriving Inhabited

namespace NodeCore

def of (inputs outputs : List String) : NodeCore := { inputs := distinct inputs, outputs := distinct outputs }

def withParents (c : NodeCore) (parents : List PlanId) : NodeCore := { c with parents }

def withDepth (c : NodeCore) (depth : Nat) : NodeCore := { c with depth }

def withGrain (c : NodeCore) (grain : Grain) : NodeCore := { c with grain := some grain }

def withForceGroup (c : NodeCore) (forceGroup : Option Bool) : NodeCore := { c with forceGroup }

def withPartials (c : NodeCore) (partials : List String) : NodeCore := { c with partials := distinct partials }

def withNullables (c : NodeCore) (nullables : List String) : NodeCore := { c with nullables := distinct nullables }

def withHidden (c : NodeCore) (hidden : List String) : NodeCore := { c with hidden := SortedSet.ofList hidden }

def withExistence (c : NodeCore) (existence : List String) : NodeCore := { c with existence := distinct existence }

/-- the node's own condition joins what its rows are known to satisfy, unless that is a part of it -/
def syncPreexisting (c : NodeCore) : NodeCore :=
  match c.condition, c.preexisting with
  | some own, none => { c with preexisting := some own }
  | some own, some known =>
    if !(own == known) && !known.holdsIn own then { c with preexisting := some (.and own known) } else c
  | none, _ => c

def withCondition (c : NodeCore) (condition : Option Condition) : NodeCore := { c with condition }.syncPreexisting

def withPreexisting (c : NodeCore) (preexisting : Option Condition) : NodeCore :=
  { c with preexisting }.syncPreexisting

/-- the outputs that consumers see -/
def visible (c : NodeCore) : List String := c.outputs.filter fun a => !c.hidden.contains a

theorem visible_eq_outputs {c : NodeCore} (h : c.hidden = ∅) : c.visible = c.outputs := by
  refine List.filter_eq_self.2 fun x _ => ?_
  rw [h, SortedSet.not_contains_iff]
  exact SortedSet.not_mem_empty x

end NodeCore

/-- an explicit join of two parents of a merge -/
structure NodeJoin where
  left : PlanId
  right : PlanId
  concepts : List String
  kind : JoinKind
deriving DecidableEq, Repr, Inhabited

/-- what is particular to a kind of node -/
inductive NodeKind where
  | select (datasource : Datasource) (acceptPartial : Bool)
  | group
  | filter
  | window
  | unnest (concepts : List String)
  | recursive
  | union
  /-- joins are inferred from shared concepts where none are given; an empty list means none at all -/
  | merge (joins : Option (List NodeJoin))
  | constant
deriving Inhabited

namespace NodeKind

def sourceKind : NodeKind → SourceKind
  | select _ _ => .select
  | group => .group
  | filter => .filter
  | window => .window
  | unnest _ => .unnest
  | recursive => .recursive
  | union => .union
  | merge _ => .merge
  | constant => .constant

def title : NodeKind → String
  | select _ _ => "Select"
  | group => "Group"
  | filter => "Filter"
  | window => "Window"
  | unnest _ => "Unnest"
  | recursive => "Recursive"
  | union => "Union"
  | merge _ => "Merge"
  | constant => "Constant"

/-- the explicit joins of a merge -/
def joins : NodeKind → List NodeJoin
  | merge (some js) => js
  | _ => []

end NodeKind

/-- a node of a plan -/
structure PlanNode where
  kind : NodeKind
  core : NodeCore
deriving Inhabited

namespace PlanNode

/-- the kind and the first three outputs, sorted -/
def display (n : PlanNode) : String :=
  let shown := Text.join "," (sortOn id (n.core.outputs.take 3))
  let more := n.core.outputs.length - 3
  n.kind.title ++ "<" ++ shown ++ (if more > 0 then "..." ++ toString more ++ " more" else "") ++ ">"

end PlanNode

end SemanticPlanner
