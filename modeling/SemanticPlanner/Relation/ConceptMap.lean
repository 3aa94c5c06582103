/-
Which sources provide which concepts, and which concepts may be null.
-/
import SemanticPlanner.Relation.Basic

namespace SemanticPlanner.ConceptMap

/-- a complete, visible output recorded: the first provider of each concept, every provider of a full join's key -/
def addComplete (fullJoins : List String) (s : RelationSource) (m : NameMap NameSet) (a : String) :
    NameMap NameSet :=
  if s.partials.contains a || s.isHidden a then m
  else if fullJoins.contains a || !m.contains a then m.update a ∅ fun names => names.insert s.identifier
  else m

/-- an inherited, visible output recorded where no complete provider was found -/
def addInherited (inherited : List String) (s : RelationSource) (m : NameMap NameSet) (a : String) :
    NameMap NameSet :=
  if !inherited.contains a || s.isHidden a then m
  else if (m.getD a ∅).isEmpty then m.insert a (SortedSet.singleton s.identifier)
  else m

/-- the sources each concept is read from. Complete providers win; partial ones serve inherited inputs that nothing
else provides. Targets that are not inherited are computed here and read from nowhere. -/
def resolve (sources : List RelationSource) (targets inherited fullJoins : List String) : NameMap NameSet :=
  let complete := sources.foldl (fun m s => s.outputs.foldl (addComplete fullJoins s) m) ∅
  let filled := sources.foldl (fun m s => s.outputs.foldl (addInherited inherited s) m) complete
  (targets.filter fun t => !inherited.contains t).foldl (fun m t => m.insert t ∅) filled

/-! ## Nullability -/

/-- the source listed last under an identifier -/
def sourceOf (sources : List RelationSource) (identifier : String) : Option RelationSource :=
  sources.reverse.find? fun s => s.identifier == identifier

def isNullableOn (sources : List RelationSource) (identifier address : String) : Bool :=
  match sourceOf sources identifier with
  | some s => s.nullables.contains address
  | none => false

/-- the join has a key that may be null on one of its sides -/
def joinsOnNullable (sources : List RelationSource) (j : BaseJoin) : Bool :=
  j.pairs.any fun p =>
    isNullableOn sources j.right p.right || isNullableOn sources (j.left.getD p.existing) p.left

/-- whether an address read from `providers` may be null: it is on every source that outputs it, or each of its
providers is joined on a nullable key or has it nullable -/
def isNullable (sources : List RelationSource) (joined : List String) (address : String) (providers : NameSet) :
    Bool :=
  let having := sources.filter fun s => s.outputs.contains address
  (!having.isEmpty && having.all fun s => s.nullables.contains address)
    || (!joined.isEmpty && !providers.isEmpty
      && providers.toList.all fun s => joined.contains s || isNullableOn sources s address)

/-- the addresses of a concept map that may be null, in order -/
def nullables (map : NameMap NameSet) (sources : List RelationSource) (joins : List RelationJoin) : List String :=
  let joined := ((joins.filterMap RelationJoin.base?).filter (joinsOnNullable sources)).map BaseJoin.right
  (map.toList.filter fun e => isNullable sources joined e.1 e.2).map Prod.fst

end SemanticPlanner.ConceptMap
