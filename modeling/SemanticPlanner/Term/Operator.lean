/-
The operators of expressions and conditions, with their written forms and their names in files.
-/
import SemanticPlanner.Json.Decode

namespace SemanticPlanner

/-- a row-level function -/
inductive FunctionOp where
  | add | subtract | multiply | divide | concat | upper | lower | coalesce | length
  /-- wraps a literal into a constant concept -/
  | constant
  /-- expands an array into one row per element -/
  | unnest
  /-- states a value at an explicit grain -/
  | group
  /-- transitive closure over a child and parent edge -/
  | recurseEdge
deriving DecidableEq, Repr, Inhabited

namespace FunctionOp

/-- the sign between two operands, for the four that have one -/
def sign? : FunctionOp → Option String
  | add => some "+"
  | subtract => some "-"
  | multiply => some "*"
  | divide => some "/"
  | _ => none

def name : FunctionOp → String
  | add => "add"
  | subtract => "subtract"
  | multiply => "multiply"
  | divide => "divide"
  | concat => "concat"
  | upper => "upper"
  | lower => "lower"
  | coalesce => "coalesce"
  | length => "length"
  | constant => "constant"
  | unnest => "unnest"
  | group => "group"
  | recurseEdge => "recurse_edge"

def all : List FunctionOp :=
  [add, subtract, multiply, divide, concat, upper, lower, coalesce, length, constant, unnest, group, recurseEdge]

def ofJson? : Json.Decoder FunctionOp := Json.asName (all.map fun o => (o.name, o))

end FunctionOp

/-- an aggregate function -/
inductive AggregateOp where
  | sum | count | countDistinct | avg | min | max | arrayAgg
deriving DecidableEq, Repr, Inhabited

namespace AggregateOp

def name : AggregateOp → String
  | sum => "sum"
  | count => "count"
  | countDistinct => "count_distinct"
  | avg => "avg"
  | min => "min"
  | max => "max"
  | arrayAgg => "array_agg"

def all : List AggregateOp := [sum, count, countDistinct, avg, min, max, arrayAgg]

def ofJson? : Json.Decoder AggregateOp := Json.asName (all.map fun o => (o.name, o))

end AggregateOp

/-- a comparison of a condition -/
inductive ComparisonOp where
  | eq | ne | gt | gte | lt | lte | isIn | notIn | is | isNot | like
deriving DecidableEq, Repr, Inhabited

namespace ComparisonOp

/-- the written sign -/
def sign : ComparisonOp → String
  | eq => "="
  | ne => "!="
  | gt => ">"
  | gte => ">="
  | lt => "<"
  | lte => "<="
  | isIn => "in"
  | notIn => "not in"
  | is => "is"
  | isNot => "is not"
  | like => "like"

def name : ComparisonOp → String
  | eq => "eq"
  | ne => "ne"
  | gt => "gt"
  | gte => "gte"
  | lt => "lt"
  | lte => "lte"
  | isIn => "in"
  | notIn => "not_in"
  | is => "is"
  | isNot => "is_not"
  | like => "like"

def all : List ComparisonOp := [eq, ne, gt, gte, lt, lte, isIn, notIn, is, isNot, like]

def ofJson? : Json.Decoder ComparisonOp := Json.asName (all.map fun o => (o.name, o))

/-- the comparison with its two sides exchanged -/
def flip : ComparisonOp → ComparisonOp
  | gt => lt
  | gte => lte
  | lt => gt
  | lte => gte
  | o => o

end ComparisonOp

end SemanticPlanner
