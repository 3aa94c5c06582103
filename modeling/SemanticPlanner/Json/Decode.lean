/-
Reading domain values out of JSON values.

A record is read from an object, where a known field stands at most once and unknown ones are passed over, or from
an array that lists its fields in order. A variant is named by a bare text or by the one member of an object. A field
with a default may be missing but not null; only an optional one may be null.
-/
import SemanticPlanner.Json.Value
import SemanticPlanner.Order.SortedSet

namespace SemanticPlanner.Json

/-- reading an `α` out of a JSON value, if it holds one -/
abbrev Decoder (α : Type) := Json → Option α

def asText : Decoder String
  | .text s => some s
  | _ => none

def asBool : Decoder Bool
  | .bool b => some b
  | _ => none

/-- a signed 64 bit integer -/
def asInteger : Decoder Int
  | .integer n => if isSigned n then some n else none
  | _ => none

/-- an unsigned 64 bit integer -/
def asCount : Decoder Nat
  | .integer n => if 0 ≤ n && n < UInt64.size then some n.toNat else none
  | _ => none

/-- a float; an integer is one too -/
def asFloat : Decoder Float
  | .fraction x => some x
  | .integer n => some (Float.ofInt n)
  | _ => none

def asList {α : Type} (item : Decoder α) : Decoder (List α)
  | .array xs => xs.mapM item
  | _ => none

def asOption {α : Type} (item : Decoder α) : Decoder (Option α)
  | .null => some none
  | j => (item j).map some

def asTexts : Decoder (List String) := asList asText

def asNames : Decoder NameSet := fun j => (asTexts j).map SortedSet.ofList

/-- an optional member of an object, which may be missing or null -/
def memberOr {α : Type} (j : Json) (name : String) (default : α) (item : Decoder α) : Option α :=
  match j.field? name with
  | none => some default
  | some v => item v

/-- the fields of a record, by name -/
abbrev Fields := String → Option Json

/-- the record `j` holds, if the fields `names` can be told apart in it -/
def asFields (names : List String) : Decoder Fields
  | .object ms =>
    if names.all fun n => (ms.filter fun m => m.1 == n).length ≤ 1 then
      some fun n => (ms.find? fun m => m.1 == n).map Prod.snd
    else none
  | .array xs =>
    if xs.length ≤ names.length then some fun n => ((names.zip xs).find? fun m => m.1 == n).map Prod.snd else none
  | _ => none

namespace Fields

/-- a field that must be there -/
def required {α : Type} (f : Fields) (name : String) (item : Decoder α) : Option α := (f name).bind item

/-- a field that may be missing -/
def withDefault {α : Type} (f : Fields) (name : String) (default : α) (item : Decoder α) : Option α :=
  match f name with
  | none => some default
  | some j => item j

/-- a field that may be missing or null -/
def optional {α : Type} (f : Fields) (name : String) (item : Decoder α) : Option (Option α) :=
  f.withDefault name none (asOption item)

end Fields

/-- a variant: its name and its data, if it has any -/
def asVariant : Decoder (String × Option Json)
  | .text s => some (s, none)
  | .object [(k, v)] => some (k, some v)
  | _ => none

/-- a variant without data, by the names of the variants -/
def asName {α : Type} (names : List (String × α)) : Decoder α := fun j => do
  match ← asVariant j with
  | (k, none) => names.lookup k
  | (k, some .null) => names.lookup k
  | _ => none

end SemanticPlanner.Json
