/-
Domain values shown as JSON, for whoever looks into a plan.

Every attribute is shown. Conditions, grains and literals are in their written form, sets and maps in their order, and
what is named elsewhere is shown by its name.
-/
import SemanticPlanner.Cte.Plan
import SemanticPlanner.Search.Coverage

namespace SemanticPlanner

namespace Inspect

def condition (c : Option Condition) : Json := Json.optional (fun c => .text c.display) c

def grain (g : Grain) : Json := .text g.display

def names (s : NameSet) : Json := Json.texts s.toList

def id (i : PlanId) : Json := .integer i.index

def map {α : Type} (f : α → Json) (m : NameMap α) : Json := .object (m.toList.map fun e => (e.1, f e.2))

end Inspect

def Concept.inspect (c : Concept) : Json :=
  .object [("address", .text c.address), ("datatype", c.datatype.toJson), ("purpose", .text c.purpose.name),
    ("derivation", .text c.derivation.name), ("granularity", .text c.granularity.name),
    ("grain", Inspect.grain c.grain), ("keys", Inspect.names c.keys), ("pseudonyms", Inspect.names c.pseudonyms),
    ("args", Json.texts c.arguments), ("constant", Json.optional (fun l => .text l.display) c.constantValue),
    ("group_to", .bool c.isGroupTo)]

def Column.inspect (c : Column) : Json :=
  .array [.text c.name, .text c.concept, .bool c.isComplete, .bool c.isNullable]

def Datasource.inspect (d : Datasource) : Json :=
  .object [("identifier", .text d.identifier), ("address", .text d.physicalAddress),
    ("columns", .array (d.columns.map Column.inspect)), ("grain", Inspect.grain d.grain),
    ("where", Inspect.condition d.whereClause), ("non_partial_for", Inspect.condition d.nonPartialFor)]

def ConceptPair.inspect (p : ConceptPair) : Json := Json.texts [p.left, p.right, p.existing]

def BaseJoin.inspect (j : BaseJoin) : Json :=
  .object [("left", Json.optional .text j.left), ("right", .text j.right), ("type", .text j.kind.name),
    ("pairs", .array (j.pairs.map ConceptPair.inspect)), ("text", .text j.display)]

def UnnestJoin.inspect (j : UnnestJoin) : Json := .object [("unnest", Json.texts j.concepts), ("alias", .text j.label)]

def RelationJoin.inspect : RelationJoin → Json
  | base j => j.inspect
  | unnest j => j.inspect

def Relation.inspect (r : Relation) : Json :=
  .object [("id", .text r.identifier), ("type", .text r.kind.name), ("in", Json.texts r.inputs),
    ("out", Json.texts r.outputs), ("hidden", Inspect.names r.hidden), ("partial", Json.texts r.partials),
    ("nullable", Json.texts r.nullables), ("sources", Json.texts (r.sources.map RelationSource.identifier)),
    ("map", Inspect.map Inspect.names r.conceptMap), ("joins", .array (r.joins.map RelationJoin.inspect)),
    ("grain", Inspect.grain r.grain), ("condition", Inspect.condition r.condition),
    ("force_group", Json.optional .bool r.forceGroup)]

def NodeCore.inspect (c : NodeCore) : Json :=
  .object [("parents", .array (c.parents.map Inspect.id)), ("in", Json.texts c.inputs), ("out", Json.texts c.outputs),
    ("hidden", Inspect.names c.hidden), ("partial", Json.texts c.partials), ("nullable", Json.texts c.nullables),
    ("virtual", Json.texts c.virtual), ("existence", Json.texts c.existence),
    ("conditions", Inspect.condition c.condition), ("preexisting", Inspect.condition c.preexisting),
    ("force_group", Json.optional .bool c.forceGroup), ("grain", Json.optional Inspect.grain c.grain),
    ("whole_grain", .bool c.wholeGrain), ("depth", .integer c.depth)]

/-- a node of an arena with its number and the time of its last change -/
def Arena.inspect (a : Arena) (id : PlanId) : Json :=
  let n := a.node id
  .object [("id", Inspect.id id), ("text", .text n.display), ("type", .text n.kind.sourceKind.name),
    ("version", .integer (a.version id)), ("core", n.core.inspect)]

def Coverage.inspect (c : Coverage) : Json :=
  .object [("result", .text c.result.name), ("found", Inspect.names c.found), ("missing", Inspect.names c.missing),
    ("partial", Inspect.names c.partials), ("virtual", Inspect.names c.virtual)]

def CteJoin.inspect : CteJoin → Json
  | base left right kind keys =>
    .object [("left", Json.optional .text left), ("right", .text right), ("type", .text kind.name),
      ("keys", .array (keys.map fun k => Json.texts [k.1, k.2]))]
  | unnest j => j.inspect

def Cte.inspect (c : Cte) : Json :=
  .object [("name", .text c.name), ("type", .text c.kind.name), ("from", Json.texts c.parents),
    ("datasources", Json.texts (c.datasources.map Datasource.identifier)),
    ("map", Inspect.map Json.texts c.sourceMap), ("in", Json.texts c.inputs), ("out", Json.texts c.outputs),
    ("hidden", Inspect.names c.hidden), ("partial", Json.texts c.partials), ("nullable", Json.texts c.nullables),
    ("grain", Inspect.grain c.grain), ("grouped", .bool c.grouped), ("joins", .array (c.joins.map CteJoin.inspect)),
    ("where", Inspect.condition c.condition),
    ("constants", Inspect.map (fun l => .text (Literal.display l)) c.constants)]

def CtePlan.inspect (p : CtePlan) : Json :=
  .object [("root", .text p.root), ("ctes", .array (p.ctes.map Cte.inspect))]

end SemanticPlanner
