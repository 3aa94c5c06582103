/-
Datasources: physical relations and the concepts their columns carry.
-/
import SemanticPlanner.Concept.Basic

namespace SemanticPlanner

/-- the binding of a physical column to a concept -/
structure Column where
  name : String
  concept : String
  /-- false if only some of the concept's values appear here -/
  isComplete : Bool
  isNullable : Bool
deriving DecidableEq, Repr, Inhabited

namespace Column

/-- a complete column without nulls -/
def bind (name concept : String) : Column := ⟨name, Address.qualify concept, true, false⟩

def partly (c : Column) : Column := { c with isComplete := false }

def nullable (c : Column) : Column := { c with isNullable := true }

def ofJson? : Json.Decoder Column := fun j => do
  let f ← Json.asFields ["name", "concept", "is_complete", "is_nullable"] j
  pure ⟨← f.required "name" Json.asText, ← f.required "concept" Json.asText,
    ← f.withDefault "is_complete" true Json.asBool, ← f.withDefault "is_nullable" false Json.asBool⟩

def toJson (c : Column) : Json :=
  .object [("name", .text c.name), ("concept", .text c.concept), ("is_complete", .bool c.isComplete),
    ("is_nullable", .bool c.isNullable)]

end Column

/-- a named physical relation -/
structure Datasource where
  identifier : String
  /-- the physical address, where it is not the identifier -/
  address : Option String
  columns : List Column
  grain : Grain
  /-- a row filter baked into the relation -/
  whereClause : Option Condition
  /-- the condition under which the relation is complete -/
  nonPartialFor : Option Condition
deriving Inhabited

namespace Datasource

instance : BEq Datasource := ⟨fun a b => a.identifier == b.identifier && a.address == b.address
  && a.columns == b.columns && a.grain == b.grain && a.whereClause == b.whereClause
  && a.nonPartialFor == b.nonPartialFor⟩

/-- an unconditional relation at the grain of the listed names -/
def ofColumns (identifier : String) (columns : List Column) (grain : List String) : Datasource :=
  ⟨identifier, none, columns, Grain.ofList (grain.map Address.qualify), none, none⟩

def withNonPartialFor (d : Datasource) (c : Condition) : Datasource := { d with nonPartialFor := some c }

def physicalAddress (d : Datasource) : String := d.address.getD d.identifier

/-- the concepts bound to a column, each once -/
def outputs (d : Datasource) : List String := distinct (d.columns.map Column.concept)

def provides (d : Datasource) (address : String) : Bool := d.columns.any fun c => c.concept == address

def partials (d : Datasource) : List String := (d.columns.filter fun c => !c.isComplete).map Column.concept

def nullables (d : Datasource) : List String := (d.columns.filter Column.isNullable).map Column.concept

def columnFor (d : Datasource) (address : String) : Option Column := d.columns.find? fun c => c.concept == address

/-- a conditional extract asked for under its own condition, and so complete -/
def isCompleteUnder (d : Datasource) (condition : Option Condition) : Bool :=
  d.nonPartialFor.isSome && d.nonPartialFor == condition

def ofJson? : Json.Decoder Datasource := fun j => do
  let f ← Json.asFields ["identifier", "address", "columns", "grain", "where_clause", "non_partial_for"] j
  pure ⟨← f.required "identifier" Json.asText, ← f.optional "address" Json.asText,
    ← f.required "columns" (Json.asList Column.ofJson?), ← f.required "grain" Grain.ofJson?,
    ← f.optional "where_clause" Condition.ofJson?, ← f.optional "non_partial_for" Condition.ofJson?⟩

def toJson (d : Datasource) : Json :=
  .object [("identifier", .text d.identifier), ("address", Json.optional .text d.address),
    ("columns", .array (d.columns.map Column.toJson)), ("grain", d.grain.toJson),
    ("where_clause", Json.optional Condition.toJson d.whereClause),
    ("non_partial_for", Json.optional Condition.toJson d.nonPartialFor)]

end Datasource

theorem Datasource.provides_iff {d : Datasource} {a : String} : d.provides a = true ↔ a ∈ d.outputs := by
  simp [provides, outputs, mem_distinct]

end SemanticPlanner
