/-
Relations: the concrete shape that a plan node resolves to, with its sources, joins, grain and condition.

`conceptMap` says which sources provide a concept; a concept with no source there is computed by the relation itself.
-/
import SemanticPlanner.Relation.Join

namespace SemanticPlanner

mutual

/-- a source of a relation: a datasource, or another relation -/
inductive RelationSource where
  | datasource (d : Datasource)
  | query (r : Relation)

/-- the relational shape of one plan node -/
structure Relation where
  identifier : String
  kind : SourceKind
  inputs : List String
  outputs : List String
  hidden : NameSet
  partials : List String
  nullables : List String
  sources : List RelationSource
  conceptMap : NameMap NameSet
  joins : List RelationJoin
  grain : Grain
  condition : Option Condition
  forceGroup : Option Bool

end

instance : Inhabited Relation := ⟨⟨"", .select, [], [], ∅, [], [], [], ∅, [], Grain.single, none, none⟩⟩

instance : Inhabited RelationSource := ⟨.query default⟩

namespace Relation

/-- the outputs that are not hidden -/
def visible (r : Relation) : List String := r.outputs.filter fun c => !r.hidden.contains c

/-- the outputs that are fully populated -/
def complete (r : Relation) : List String := r.outputs.filter fun c => !r.partials.contains c

def baseJoins (r : Relation) : List BaseJoin := r.joins.filterMap RelationJoin.base?

end Relation

namespace RelationSource

def identifier : RelationSource → String
  | datasource d => d.identifier
  | query r => r.identifier

def grain : RelationSource → Grain
  | datasource d => d.grain
  | query r => r.grain

def outputs : RelationSource → List String
  | datasource d => d.outputs
  | query r => r.outputs

/-- the outputs that consumers see -/
def visible : RelationSource → List String
  | datasource d => d.outputs
  | query r => r.visible

def partials : RelationSource → List String
  | datasource d => d.partials
  | query r => r.partials

def nullables : RelationSource → List String
  | datasource d => d.nullables
  | query r => r.nullables

def isHidden (s : RelationSource) (address : String) : Bool :=
  match s with
  | datasource _ => false
  | query r => r.hidden.contains address

def condition : RelationSource → Option Condition
  | datasource d => d.whereClause
  | query r => r.condition

end RelationSource

end SemanticPlanner
