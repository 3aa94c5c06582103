/-
Concepts: named, typed attributes that can be derived from one another.
-/
import SemanticPlanner.Concept.Grain
import SemanticPlanner.Concept.Lineage
import SemanticPlanner.Text.Address

namespace SemanticPlanner

/-- the role of a concept -/
inductive Purpose where
  | key
  | property
  /-- a property in one-to-one relation to its keys -/
  | uniqueProperty
  | metric
  | constant
  | unknown
deriving DecidableEq, Repr, Inhabited

namespace Purpose

def name : Purpose → String
  | key => "key"
  | property => "property"
  | uniqueProperty => "unique_property"
  | metric => "metric"
  | constant => "constant"
  | unknown => "unknown"

def all : List Purpose := [key, property, uniqueProperty, metric, constant, unknown]

def ofJson? : Json.Decoder Purpose := Json.asName (all.map fun p => (p.name, p))

end Purpose

inductive Granularity where
  | singleRow | multiRow
deriving DecidableEq, Repr, Inhabited

namespace Granularity

def name : Granularity → String
  | singleRow => "single_row"
  | multiRow => "multi_row"

def ofJson? : Json.Decoder Granularity := Json.asName [("single_row", singleRow), ("multi_row", multiRow)]

end Granularity

inductive DataType where
  | string | integer | float | boolean | date | timestamp
  | array (item : DataType)
  | unknown
deriving DecidableEq, Repr, Inhabited

namespace DataType

def plain : List (String × DataType) :=
  [("string", string), ("integer", integer), ("float", float), ("boolean", boolean), ("date", date),
    ("timestamp", timestamp), ("unknown", unknown)]

/-- a type nested at most `fuel` deep -/
def ofJsonWithin : Nat → Json.Decoder DataType
  | 0, _ => none
  | fuel + 1, j =>
    match j with
    | .object [("array", v)] => (ofJsonWithin fuel v).map array
    | _ => Json.asName plain j

def ofJson? : Json.Decoder DataType := ofJsonWithin 128

def toJson : DataType → Json
  | string => .text "string"
  | integer => .text "integer"
  | float => .text "float"
  | boolean => .text "boolean"
  | date => .text "date"
  | timestamp => .text "timestamp"
  | array t => .object [("array", toJson t)]
  | unknown => .text "unknown"

end DataType

/-- a named, typed, derivable attribute -/
structure Concept where
  address : String
  datatype : DataType
  purpose : Purpose
  derivation : Derivation
  granularity : Granularity
  grain : Grain
  lineage : Option Lineage
  keys : NameSet
  pseudonyms : NameSet
deriving Inhabited

namespace Concept

/-- a root key, which is its own grain -/
def key (name : String) (datatype : DataType) : Concept :=
  let address := Address.qualify name
  ⟨address, datatype, .key, .root, .multiRow, Grain.ofList [address], none, ∅, ∅⟩

/-- a root property, whose grain is its keys -/
def property (name : String) (datatype : DataType) (keys : List String) : Concept :=
  let keys := SortedSet.ofList (keys.map Address.qualify)
  ⟨Address.qualify name, datatype, .property, .root, .multiRow, ⟨keys, none⟩, none, keys, ∅⟩

def uniqueProperty (name : String) (datatype : DataType) (keys : List String) : Concept :=
  { property name datatype keys with purpose := .uniqueProperty }

/-- a single-row constant -/
def constant (name : String) (datatype : DataType) (value : Literal) : Concept :=
  ⟨Address.qualify name, datatype, .constant, .constant, .singleRow, Grain.single,
    some (.function ⟨.constant, [.literal value]⟩), ∅, ∅⟩

/-- a derived concept whose attributes are given -/
def derived (name : String) (datatype : DataType) (purpose : Purpose) (lineage : Lineage) (grain : Grain)
    (granularity : Granularity) : Concept :=
  ⟨Address.qualify name, datatype, purpose, lineage.derivation, granularity, grain, some lineage, ∅, ∅⟩

def name (c : Concept) : String := Address.nameOf c.address

/-- the concepts its lineage reads -/
def arguments (c : Concept) : List String :=
  match c.lineage with
  | some l => l.arguments
  | none => []

def isAggregate (c : Concept) : Bool :=
  match c.lineage with
  | some (.aggregate _) => true
  | _ => false

def isSingleRow (c : Concept) : Bool := decide (c.granularity = .singleRow)

/-- a root or a constant, which needs no generator of its own -/
def isPlain (c : Concept) : Bool := decide (c.derivation = .root ∨ c.derivation = .constant)

/-- a function that states a value at an explicit grain -/
def isGroupTo (c : Concept) : Bool :=
  match c.lineage with
  | some (.function f) => decide (f.op = .group)
  | _ => false

def withKeys (c : Concept) (keys : List String) : Concept :=
  { c with keys := SortedSet.ofList (keys.map Address.qualify) }

/-- the same concept seen at another grain -/
def withGrain (c : Concept) (grain : Grain) : Concept := { c with grain }

def constantValue (c : Concept) : Option Literal := c.lineage.bind Lineage.constantValue

def display (c : Concept) : String := c.address ++ "@" ++ c.grain.fingerprint

/-- the addresses of a list of concepts -/
def addresses (cs : List Concept) : List String := cs.map address

/-- a list of concepts, each address once, the first occurrence kept -/
def unique (cs : List Concept) : List Concept :=
  cs.foldl (fun out c => if out.any fun d => d.address == c.address then out else out ++ [c]) []

end Concept

/-! ## The grain of a row -/

/-- whether a concept adds itself to the grain of a row that carries the addresses `present`.

Single rows and constants never do. A property is fixed by its keys when all are present, a metric by its keys or by
its own grain. -/
def Concept.isComponent (present : NameSet) (c : Concept) : Bool :=
  let keysPresent := !c.keys.isEmpty && c.keys.isSubset present
  if c.granularity = .singleRow then false
  else match c.purpose with
    | .property => !keysPresent
    | .uniqueProperty => !keysPresent
    | .metric =>
      !keysPresent && !(c.grain.components.toList.all fun a => present.contains a && a != c.address)
    | .constant => false
    | _ => true

/-- the grain of a row that carries `cs` -/
def Grain.ofConcepts (cs : List Concept) : Grain :=
  let present := SortedSet.ofList (Concept.addresses cs)
  Grain.ofList (Concept.addresses (cs.filter (Concept.isComponent present)))

end SemanticPlanner
