/-
Named steps: the form in which a resolved plan is written out and then improved by rules.

A step names its parents, its own datasources and, for each address, the sources that provide it; an address without
sources is computed in the step itself.
-/
import SemanticPlanner.Relation.Join

namespace SemanticPlanner

/-- a join of two sources of a step, by name -/
inductive CteJoin where
  | base (left : Option String) (right : String) (kind : JoinKind) (keys : List (String × String))
  | unnest (j : UnnestJoin)
deriving DecidableEq, Inhabited

namespace CteJoin

/-- every mention of one source made a mention of another -/
def rename (old new : String) : CteJoin → CteJoin
  | base left right kind keys =>
    base (left.map fun l => if l = old then new else l) (if right = old then new else right) kind keys
  | unnest j => unnest j

/-- the join reads one of the named sources -/
def reads (names : List String) : CteJoin → Bool
  | base left right _ _ => names.contains right || left.any names.contains
  | unnest _ => false

end CteJoin

/-- a named step of a plan -/
structure Cte where
  name : String
  kind : SourceKind
  /-- the steps read, by name -/
  parents : List String
  /-- the datasources read directly -/
  datasources : List Datasource
  sourceMap : NameMap (List String)
  inputs : List String
  outputs : List String
  hidden : NameSet
  partials : List String
  nullables : List String
  grain : Grain
  /-- the rows are grouped to the grain -/
  grouped : Bool
  joins : List CteJoin
  condition : Option Condition
  /-- constants written as their value -/
  constants : NameMap Literal
deriving Inhabited

namespace Cte

instance : BEq Cte := ⟨fun a b => a.name == b.name && decide (a.kind = b.kind) && a.parents == b.parents
  && a.datasources == b.datasources && a.sourceMap == b.sourceMap && a.inputs == b.inputs && a.outputs == b.outputs
  && decide (a.hidden = b.hidden) && a.partials == b.partials && a.nullables == b.nullables && a.grain == b.grain
  && a.grouped == b.grouped && a.joins == b.joins && a.condition == b.condition && a.constants == b.constants⟩

/-- the step only reads one datasource, row by row -/
def isBare (c : Cte) : Bool :=
  decide (c.kind = .select) && !c.grouped && c.parents.isEmpty && c.datasources.length == 1 && c.joins.isEmpty

/-- the datasource of a bare step -/
def bareDatasource (c : Cte) : Option Datasource := if c.isBare then c.datasources.head? else none

/-- the outputs that are computed here -/
def computed (c : Cte) : List String := c.outputs.filter fun a => !c.inputs.contains a

/-- the addresses that are read from some source -/
def materialized (c : Cte) : NameSet := (c.sourceMap.filter fun _ s => !s.isEmpty).keySet

/-- the outputs that consumers see -/
def visible (c : Cte) : List String := c.outputs.filter fun a => !c.hidden.contains a

/-- a list with each run of equal items cut down to one -/
def dropRuns : List String → List String
  | [] => []
  | a :: l => match dropRuns l with
    | [] => [a]
    | b :: r => if a = b then b :: r else a :: b :: r

/-- one parent put in the place of another wherever it is mentioned -/
def replaceParent (c : Cte) (old new : String) : Cte :=
  let swap := fun s => if s = old then new else s
  { c with
    parents := distinct (c.parents.map swap)
    sourceMap := c.sourceMap.mapValues fun _ s => dropRuns (s.map swap)
    joins := c.joins.map (CteJoin.rename old new) }

/-- a bare parent's datasource read in the parent's place, where the parent is one -/
def inlineParent (c parent : Cte) : Option Cte :=
  match parent.bareDatasource with
  | none => none
  | some d =>
    if !c.parents.contains parent.name then none
    else some
      { c with
        parents := c.parents.filter fun p => p != parent.name
        sourceMap := c.sourceMap.mapValues fun _ s => s.map fun x => if x = parent.name then d.identifier else x
        joins := c.joins.map (CteJoin.rename parent.name d.identifier)
        datasources :=
          if c.datasources.any fun e => e.identifier == d.identifier then c.datasources else c.datasources ++ [d] }

end Cte

end SemanticPlanner
