/-
Lineage: the expression or derivation that produces a concept.

`arguments` lists the concepts a lineage reads, `derivation` names the way it produces values, and `isEquivalent`
holds of two lineages that share one physical computation.
-/
import SemanticPlanner.Term.Condition

namespace SemanticPlanner

/-- how a concept's value is produced -/
inductive Derivation where
  | root | constant | basic | aggregate | filter | window | unnest | union | recursive | rowset | multiselect | groupTo
deriving DecidableEq, Repr, Inhabited

namespace Derivation

def name : Derivation → String
  | root => "root"
  | constant => "constant"
  | basic => "basic"
  | aggregate => "aggregate"
  | filter => "filter"
  | window => "window"
  | unnest => "unnest"
  | union => "union"
  | recursive => "recursive"
  | rowset => "rowset"
  | multiselect => "multiselect"
  | groupTo => "group_to"

def all : List Derivation :=
  [root, constant, basic, aggregate, filter, window, unnest, union, recursive, rowset, multiselect, groupTo]

def ofJson? : Json.Decoder Derivation := Json.asName (all.map fun d => (d.name, d))

end Derivation

/-- a scalar function of expressions -/
structure FunctionLineage where
  op : FunctionOp
  args : List Expr
deriving BEq, Inhabited

/-- an aggregate; an empty `by` list aggregates to a single row -/
structure AggregateLineage where
  op : AggregateOp
  args : List Expr
  byKeys : List String
deriving BEq, Inhabited

structure FilterLineage where
  content : String
  condition : Condition
deriving BEq, Inhabited

inductive WindowKind where
  | rowNumber | rank | lag | lead | sum | count | avg
deriving DecidableEq, Repr, Inhabited

namespace WindowKind

def name : WindowKind → String
  | rowNumber => "row_number"
  | rank => "rank"
  | lag => "lag"
  | lead => "lead"
  | sum => "sum"
  | count => "count"
  | avg => "avg"

def all : List WindowKind := [rowNumber, rank, lag, lead, sum, count, avg]

def ofJson? : Json.Decoder WindowKind := Json.asName (all.map fun k => (k.name, k))

end WindowKind

structure OrderItem where
  concept : String
  descending : Bool
deriving BEq, Inhabited

structure WindowLineage where
  kind : WindowKind
  content : String
  partitionBy : List String
  orderBy : List OrderItem
deriving BEq, Inhabited

/-- the values of several key-compatible concepts put together -/
structure UnionLineage where
  concepts : List String
deriving BEq, Inhabited

/-- an inner select, as rowsets and multiselects hold it -/
structure InnerSelect where
  output : List String
  hidden : List String
  condition : Option Condition
  havingCondition : Option Condition
deriving BEq, Inhabited

/-- a concept exposed by a named rowset -/
structure RowsetLineage where
  rowset : String
  content : String
  select : InnerSelect
deriving BEq, Inhabited

/-- `aligned` collects `concepts` across the branches of a multiselect -/
structure Alignment where
  aligned : String
  concepts : List String
deriving BEq, Inhabited

structure MultiselectLineage where
  name : String
  selects : List InnerSelect
  align : List Alignment
  /-- the aligned concept this lineage produces -/
  aligned : String
deriving BEq, Inhabited

/-- the aligned concept that collects an address, if any -/
def MultiselectLineage.mergeConcept (m : MultiselectLineage) (address : String) : Option String :=
  (m.align.find? fun a => a.concepts.contains address).map Alignment.aligned

inductive Lineage where
  | function (f : FunctionLineage)
  | aggregate (a : AggregateLineage)
  | filter (f : FilterLineage)
  | window (w : WindowLineage)
  | union (u : UnionLineage)
  | rowset (r : RowsetLineage)
  | multiselect (m : MultiselectLineage)
deriving BEq, Inhabited

namespace Lineage

/-- the addresses read by expressions, one expression after the other -/
def argumentsOf (args : List Expr) : List String := args.flatMap Expr.concepts

/-- the concepts read, in first-seen order -/
def arguments : Lineage → List String
  | function f => distinct (argumentsOf f.args)
  | aggregate a => distinct (argumentsOf a.args ++ a.byKeys)
  | filter f => distinct (f.content :: f.condition.concepts)
  | window w => distinct (w.content :: w.partitionBy ++ w.orderBy.map OrderItem.concept)
  | union u => distinct u.concepts
  | rowset r => [r.content]
  | multiselect m =>
    match m.align.find? fun a => a.aligned == m.aligned with
    | some a => distinct a.concepts
    | none => []

def derivation : Lineage → Derivation
  | function f =>
    match f.op with
    | .unnest => .unnest
    | .group => .groupTo
    | .recurseEdge => .recursive
    | _ => if f.args.all fun e => e.concepts.isEmpty then .constant else .basic
  | aggregate _ => .aggregate
  | filter _ => .filter
  | window _ => .window
  | union _ => .union
  | rowset _ => .rowset
  | multiselect _ => .multiselect

/-- windows over one partition and order, functions of one operator over the same concepts, or equal lineages -/
def isEquivalent : Lineage → Lineage → Bool
  | window a, window b => a.partitionBy == b.partitionBy && a.orderBy == b.orderBy
  | function a, function b => decide (a.op = b.op) && argumentsOf a.args == argumentsOf b.args
  | a, b => a == b

/-- the literal held by a constant -/
def constantValue : Lineage → Option Literal
  | function ⟨.constant, [.literal l]⟩ => some l
  | _ => none

def isFunction : Lineage → Bool
  | function _ => true
  | _ => false

def isWindow : Lineage → Bool
  | window _ => true
  | _ => false

end Lineage

end SemanticPlanner
