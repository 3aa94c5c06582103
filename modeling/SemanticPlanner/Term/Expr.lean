/-
Expressions over concepts, which they name by address.

`concepts` lists the addresses an expression reads in first-seen order, and `inlineLiteral` replaces one of them by a
literal and tells whether it occurred.
-/
import SemanticPlanner.Order.Distinct
import SemanticPlanner.Term.Literal
import SemanticPlanner.Term.Operator
import SemanticPlanner.Text.Split

namespace SemanticPlanner

/-- a scalar or aggregate expression -/
inductive Expr where
  | concept (address : String)
  | literal (value : Literal)
  | function (op : FunctionOp) (args : List Expr)
  | aggregate (op : AggregateOp) (args : List Expr)
deriving Inhabited

namespace Expr

/-! ## Equality -/

mutual

def same : Expr → Expr → Bool
  | concept a, concept b => a == b
  | literal a, literal b => a == b
  | function o a, function p b => decide (o = p) && sameAll a b
  | aggregate o a, aggregate p b => decide (o = p) && sameAll a b
  | _, _ => false

def sameAll : List Expr → List Expr → Bool
  | [], [] => true
  | a :: as, b :: bs => same a b && sameAll as bs
  | _, _ => false

end

instance : BEq Expr := ⟨same⟩

/-! ## Concepts read -/

mutual

/-- the addresses read, added to `out` where they are new -/
def collect (out : List String) : Expr → List String
  | concept a => addNew out a
  | literal _ => out
  | function _ args => collectAll out args
  | aggregate _ args => collectAll out args

def collectAll (out : List String) : List Expr → List String
  | [] => out
  | e :: es => collectAll (collect out e) es

end

/-- the addresses read, in first-seen order -/
def concepts (e : Expr) : List String := collect [] e

/-! ## Replacing a concept by a literal -/

mutual

/-- whether `address` is referred to -/
def mentions (address : String) : Expr → Bool
  | concept a => decide (a = address)
  | literal _ => false
  | function _ args => mentionsAny address args
  | aggregate _ args => mentionsAny address args

def mentionsAny (address : String) : List Expr → Bool
  | [] => false
  | e :: es => mentions address e || mentionsAny address es

end

mutual

/-- every reference to `address` replaced by `value` -/
def inline (address : String) (value : Literal) : Expr → Expr
  | concept a => if a = address then literal value else concept a
  | literal l => literal l
  | function o args => function o (inlineAll address value args)
  | aggregate o args => aggregate o (inlineAll address value args)

def inlineAll (address : String) (value : Literal) : List Expr → List Expr
  | [] => []
  | e :: es => inline address value e :: inlineAll address value es

end

/-- whether anything was replaced, and the expression afterwards -/
def inlineLiteral (address : String) (value : Literal) (e : Expr) : Bool × Expr :=
  (e.mentions address, e.inline address value)

/-! ## Written form -/

mutual

def display : Expr → String
  | concept a => a
  | literal l => l.display
  | function o args =>
    match o.sign?, displayAll args with
    | some s, [l, r] => "(" ++ l ++ " " ++ s ++ " " ++ r ++ ")"
    | _, texts => o.name ++ "(" ++ Text.join ", " texts ++ ")"
  | aggregate o args => o.name ++ "(" ++ Text.join ", " (displayAll args) ++ ")"

def displayAll : List Expr → List String
  | [] => []
  | e :: es => display e :: displayAll es

end

/-! ## Files -/

/-- an expression nested at most `fuel` deep -/
def ofJsonWithin : Nat → Json.Decoder Expr
  | 0, _ => none
  | fuel + 1, j => do
    match ← Json.asVariant j with
    | ("concept", some v) => (Json.asText v).map concept
    | ("literal", some v) => (Literal.ofJson? v).map literal
    | ("function", some v) =>
      let f ← Json.asFields ["op", "args"] v
      pure (function (← f.required "op" FunctionOp.ofJson?) (← f.required "args" (Json.asList (ofJsonWithin fuel))))
    | ("aggregate", some v) =>
      let f ← Json.asFields ["op", "args"] v
      pure (aggregate (← f.required "op" AggregateOp.ofJson?) (← f.required "args" (Json.asList (ofJsonWithin fuel))))
    | _ => none

/-- JSON nests at most 127 deep, and every level of an expression opens at least two of it -/
def ofJson? : Json.Decoder Expr := ofJsonWithin 128

mutual

def toJson : Expr → Json
  | concept a => .object [("concept", .text a)]
  | literal l => .object [("literal", l.toJson)]
  | function o args => .object [("function", .object [("op", .text o.name), ("args", .array (toJsonAll args))])]
  | aggregate o args => .object [("aggregate", .object [("op", .text o.name), ("args", .array (toJsonAll args))])]

def toJsonAll : List Expr → List Json
  | [] => []
  | e :: es => toJson e :: toJsonAll es

end

end Expr

end SemanticPlanner
