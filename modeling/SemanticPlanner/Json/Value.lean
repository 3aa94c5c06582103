/-
JSON values.

A number with a fraction or an exponent is kept apart from an integer (`fraction`, `integer`), and an object keeps
its members in written order, repeated names included. What is well written but has no value here (a number beyond
every range, a text that is no Unicode) is `unreadable`: a reader may pass over it, but nothing is read out of it.
-/
namespace SemanticPlanner

/-- a JSON value -/
inductive Json where
  | null
  | bool (value : Bool)
  | integer (value : Int)
  | fraction (value : Float)
  | text (value : String)
  | array (items : List Json)
  | object (members : List (String × Json))
  /-- well written, but nothing can be read out of it -/
  | unreadable
deriving Inhabited

namespace Json

mutual

/-- a value with no unreadable part -/
def isReadable : Json → Bool
  | .unreadable => false
  | .array xs => areReadable xs
  | .object ms => haveReadable ms
  | _ => true

def areReadable : List Json → Bool
  | [] => true
  | x :: xs => x.isReadable && areReadable xs

def haveReadable : List (String × Json) → Bool
  | [] => true
  | (_, v) :: ms => v.isReadable && haveReadable ms

end

/-- the last member of a name, as a reader that overwrites would keep it -/
def member? (j : Json) (name : String) : Option Json :=
  match j with
  | .object ms => (ms.reverse.find? fun m => m.1 == name).map Prod.snd
  | _ => none

/-- the member of a name, unless it is missing or null -/
def field? (j : Json) (name : String) : Option Json :=
  match j.member? name with
  | none | some .null => none
  | some v => some v

/-- an integer that fits 64 bits with its sign -/
def isSigned (n : Int) : Bool := -9223372036854775808 ≤ n && n ≤ 9223372036854775807

/-- a list of texts -/
def texts (items : List String) : Json := .array (items.map .text)

/-- a value, or null -/
def optional {α : Type} (f : α → Json) : Option α → Json
  | none => .null
  | some a => f a

end Json

end SemanticPlanner
