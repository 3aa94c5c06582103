/-
Literal values of expressions.

Two literals are equal when they are of one kind and equal there; floats compare as numbers, so a NaN differs from
itself and the two zeros are equal.
-/
import SemanticPlanner.Decimal.Shortest
import SemanticPlanner.Json.Decode

namespace SemanticPlanner

/-- a literal value -/
inductive Literal where
  | integer (value : Int)
  | float (value : Float)
  | text (value : String)
  | boolean (value : Bool)
  | null
deriving Inhabited

namespace Literal

def same : Literal → Literal → Bool
  | integer a, integer b => a == b
  | float a, float b => a == b
  | text a, text b => a == b
  | boolean a, boolean b => a == b
  | null, null => true
  | _, _ => false

instance : BEq Literal := ⟨same⟩

/-- the characters of a text with every quote written twice -/
def doubleQuotes : List Char → List Char
  | [] => []
  | c :: r => if c = '\'' then '\'' :: '\'' :: doubleQuotes r else c :: doubleQuotes r

/-- the written form -/
def display : Literal → String
  | integer n => toString n
  | float x => Decimal.plain.text x
  | text s => "'" ++ String.ofList (doubleQuotes s.toList) ++ "'"
  | boolean b => if b then "true" else "false"
  | null => "null"

/-- the literal as a number, if it is one -/
def number? : Literal → Option Float
  | integer n => some (Float.ofInt n)
  | float x => some x
  | _ => none

def ofJson? : Json.Decoder Literal := fun j => do
  match ← Json.asVariant j with
  | ("integer", some v) => (Json.asInteger v).map integer
  | ("float", some v) => (Json.asFloat v).map float
  | ("string", some v) => (Json.asText v).map text
  | ("boolean", some v) => (Json.asBool v).map boolean
  | ("null", none) => some null
  | ("null", some .null) => some null
  | _ => none

def toJson : Literal → Json
  | integer n => .object [("integer", .integer n)]
  | float x => .object [("float", .fraction x)]
  | text s => .object [("string", .text s)]
  | boolean b => .object [("boolean", .bool b)]
  | null => .text "null"

end Literal

end SemanticPlanner
