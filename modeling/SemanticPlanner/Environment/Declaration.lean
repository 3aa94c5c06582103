/-
Environment files: declarations applied in order, and an optional query.

A declaration is an object whose member `kind`, which may stand anywhere in it, names what is declared. Everything in it
must be readable, also what it is not asked for, and a variant without data may carry an empty record in it. The query
has neither rule: what it is not asked for is passed over, and a variant without data carries nothing or null.
-/
import SemanticPlanner.Environment.Basic
import SemanticPlanner.Json.Reader

namespace SemanticPlanner

namespace InnerSelect

def ofJson? : Json.Decoder InnerSelect := fun j => do
  let f ← Json.asFields ["output", "hidden", "condition", "having"] j
  pure ⟨← f.required "output" Json.asTexts, ← f.withDefault "hidden" [] Json.asTexts,
    ← f.optional "condition" Condition.ofJson?, ← f.optional "having" Condition.ofJson?⟩

end InnerSelect

namespace Alignment

def ofJson? : Json.Decoder Alignment := fun j => do
  let f ← Json.asFields ["aligned", "concepts"] j
  pure ⟨← f.required "aligned" Json.asText, ← f.required "concepts" Json.asTexts⟩

end Alignment

namespace OrderItem

def ofJson? : Json.Decoder OrderItem := fun j => do
  let f ← Json.asFields ["concept", "descending"] j
  pure ⟨← f.required "concept" Json.asText, ← f.withDefault "descending" false Json.asBool⟩

end OrderItem

namespace Lineage

def ofJson? : Json.Decoder Lineage := fun j => do
  match ← Json.asVariant j with
  | ("function", some v) =>
    let f ← Json.asFields ["op", "args"] v
    pure (function ⟨← f.required "op" FunctionOp.ofJson?, ← f.required "args" (Json.asList Expr.ofJson?)⟩)
  | ("aggregate", some v) =>
    let f ← Json.asFields ["op", "args", "by"] v
    pure (aggregate ⟨← f.required "op" AggregateOp.ofJson?, ← f.required "args" (Json.asList Expr.ofJson?),
      ← f.withDefault "by" [] Json.asTexts⟩)
  | ("filter", some v) =>
    let f ← Json.asFields ["content", "condition"] v
    pure (filter ⟨← f.required "content" Json.asText, ← f.required "condition" Condition.ofJson?⟩)
  | ("window", some v) =>
    let f ← Json.asFields ["kind", "content", "over", "order_by"] v
    pure (window ⟨← f.required "kind" WindowKind.ofJson?, ← f.required "content" Json.asText,
      ← f.withDefault "over" [] Json.asTexts, ← f.withDefault "order_by" [] (Json.asList OrderItem.ofJson?)⟩)
  | ("union", some v) =>
    let f ← Json.asFields ["concepts"] v
    pure (union ⟨← f.required "concepts" Json.asTexts⟩)
  | ("rowset", some v) =>
    let f ← Json.asFields ["rowset", "content", "select"] v
    pure (rowset ⟨← f.required "rowset" Json.asText, ← f.required "content" Json.asText,
      ← f.required "select" InnerSelect.ofJson?⟩)
  | ("multiselect", some v) =>
    let f ← Json.asFields ["name", "selects", "align", "aligned"] v
    pure (multiselect ⟨← f.required "name" Json.asText, ← f.required "selects" (Json.asList InnerSelect.ofJson?),
      ← f.required "align" (Json.asList Alignment.ofJson?), ← f.required "aligned" Json.asText⟩)
  | _ => none

end Lineage

namespace Concept

def ofJson? : Json.Decoder Concept := fun j => do
  let f ← Json.asFields
    ["address", "datatype", "purpose", "derivation", "granularity", "grain", "lineage", "keys", "pseudonyms"] j
  pure ⟨← f.required "address" Json.asText, ← f.required "datatype" DataType.ofJson?,
    ← f.required "purpose" Purpose.ofJson?, ← f.required "derivation" Derivation.ofJson?,
    ← f.required "granularity" Granularity.ofJson?, ← f.required "grain" Grain.ofJson?,
    ← f.optional "lineage" Lineage.ofJson?, ← f.withDefault "keys" ∅ Json.asNames,
    ← f.withDefault "pseudonyms" ∅ Json.asNames⟩

end Concept

/-- one declaration of an environment file -/
inductive Declaration where
  | key (name : String) (datatype : DataType)
  | property (name : String) (datatype : DataType) (keys : List String) (isUnique : Bool)
  | constant (name : String) (datatype : DataType) (value : Literal)
  | derived (name : String) (datatype : DataType) (lineage : Lineage)
  | merge (source target : String)
  | datasource (d : Datasource)
  | rowset (name : String) (select : InnerSelect)
  | multiselect (name : String) (selects : List InnerSelect) (align : List Alignment)
deriving Inhabited

namespace Declaration

/-- the kind of a declaration and what is left without it; from an array the kind is the first item -/
def splitKind : Json → Option (String × Json)
  | .object ms =>
    match ms.filter fun m => m.1 == "kind" with
    | [(_, .text k)] => some (k, .object (ms.filter fun m => m.1 != "kind"))
    | _ => none
  | .array (.text k :: xs) => some (k, .array xs)
  | _ => none

/-- the names of the variants without data that a declaration may hold; no record in it has a field of such a name -/
def bareVariants : List String :=
  "null" :: DataType.plain.map Prod.fst ++ FunctionOp.all.map FunctionOp.name ++ AggregateOp.all.map AggregateOp.name
    ++ ComparisonOp.all.map ComparisonOp.name ++ WindowKind.all.map WindowKind.name

mutual

/-- a value with null for the empty record that a variant without data carries -/
def settled : Json → Json
  | .object [(name, .object [])] => .object [(name, if bareVariants.contains name then .null else .object [])]
  | .object ms => .object (settledMembers ms)
  | .array xs => .array (settledItems xs)
  | j => j

def settledItems : List Json → List Json
  | [] => []
  | x :: xs => settled x :: settledItems xs

def settledMembers : List (String × Json) → List (String × Json)
  | [] => []
  | (name, v) :: ms => (name, settled v) :: settledMembers ms

end

def ofJson? : Json.Decoder Declaration := fun j => do
  let (kind, v) ← if j.isReadable then splitKind (settled j) else none
  let datatype (f : Json.Fields) := f.withDefault "datatype" .unknown DataType.ofJson?
  match kind with
  | "key" =>
    let f ← Json.asFields ["name", "datatype"] v
    pure (key (← f.required "name" Json.asText) (← datatype f))
  | "property" =>
    let f ← Json.asFields ["name", "datatype", "keys", "unique"] v
    pure (property (← f.required "name" Json.asText) (← datatype f) (← f.required "keys" Json.asTexts)
      (← f.withDefault "unique" false Json.asBool))
  | "constant" =>
    let f ← Json.asFields ["name", "datatype", "value"] v
    pure (constant (← f.required "name" Json.asText) (← datatype f) (← f.required "value" Literal.ofJson?))
  | "derived" =>
    let f ← Json.asFields ["name", "datatype", "lineage"] v
    pure (derived (← f.required "name" Json.asText) (← datatype f) (← f.required "lineage" Lineage.ofJson?))
  | "merge" =>
    let f ← Json.asFields ["source", "target"] v
    pure (merge (← f.required "source" Json.asText) (← f.required "target" Json.asText))
  | "datasource" => (Datasource.ofJson? v).map datasource
  | "rowset" =>
    let f ← Json.asFields ["name", "select"] v
    pure (rowset (← f.required "name" Json.asText) (← f.required "select" InnerSelect.ofJson?))
  | "multiselect" =>
    let f ← Json.asFields ["name", "selects", "align"] v
    pure (multiselect (← f.required "name" Json.asText) (← f.required "selects" (Json.asList InnerSelect.ofJson?))
      (← f.required "align" (Json.asList Alignment.ofJson?)))
  | _ => none

/-- the environment with the declaration applied -/
def apply (env : Environment) : Declaration → Except PlanningError Environment
  | key name datatype => .ok (env.add (Concept.key name datatype))
  | property name datatype keys isUnique =>
    .ok (env.add (if isUnique then Concept.uniqueProperty name datatype keys else Concept.property name datatype keys))
  | constant name datatype value => .ok (env.add (Concept.constant name datatype value))
  | derived name datatype lineage => (env.declareDerived name datatype lineage).map Prod.fst
  | merge source target => env.merge source target
  | datasource d =>
    env.declareDatasource { d with columns := d.columns.map fun c => { c with concept := Address.qualify c.concept } }
  | rowset name select => (env.declareRowset name select).map Prod.fst
  | multiselect name selects align =>
    match env.declareMultiselect name selects align with
    | (env, .ok _) => .ok env
    | (_, .error e) => .error e

/-- the environment that a list of declarations builds, from an empty one -/
def build (ds : List Declaration) : Except PlanningError Environment := ds.foldlM apply Environment.empty

end Declaration

/-- what a query selects, and its condition -/
structure QuerySpec where
  select : List String
  condition : Option Condition
deriving Inhabited

namespace QuerySpec

def ofJson? : Json.Decoder QuerySpec := fun j => do
  let f ← Json.asFields ["select", "condition"] j
  pure ⟨← f.required "select" Json.asTexts, ← f.optional "condition" Condition.ofJson?⟩

end QuerySpec

/-- an environment file -/
structure EnvironmentFile where
  declarations : List Declaration
  query : Option QuerySpec
deriving Inhabited

namespace EnvironmentFile

def ofJson? : Json.Decoder EnvironmentFile := fun j => do
  let f ← Json.asFields ["declarations", "query"] j
  pure ⟨← f.withDefault "declarations" [] (Json.asList Declaration.ofJson?), ← f.optional "query" QuerySpec.ofJson?⟩

/-- the file a text holds -/
def read (source : String) : Option EnvironmentFile := (Json.read source).bind ofJson?

def build (file : EnvironmentFile) : Except PlanningError Environment := Declaration.build file.declarations

end EnvironmentFile

end SemanticPlanner
