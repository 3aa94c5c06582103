/-
Whether rows have to be grouped before they can be read at a target grain.

Grouping is skipped if the supplied grain lies in the target, if what it has beyond the target belongs to keys that are
supplied too, if that is keys whose unique properties the target carries, or if the target differs by renames of
rowsets and filters only.
-/
import SemanticPlanner.Relation.Identifier
import SemanticPlanner.Environment.Basic

namespace SemanticPlanner

namespace Grouping

/-- the grain collected from the sources of a relation, and the sources it came from -/
structure Collected where
  grain : Grain
  seen : List String

def addGrain (c : Collected) (s : RelationSource) : Collected := ⟨c.grain.union s.grain, s.identifier :: c.seen⟩

/-- one base join: its left sources count, its right source only if it is not joined on exactly its own grain -/
def addBaseJoin (env : Environment) (r : Relation) (c : Collected) (j : BaseJoin) : Collected :=
  let c := (j.pairs.filterMap fun p => r.source? p.existing).foldl addGrain c
  let c := ((j.left.bind r.source?).toList).foldl addGrain c
  match r.source? j.right with
  | none => c
  | some right =>
    let keys := j.pairs.filterMap fun p => env.find? p.right
    if Grain.ofConcepts keys == right.grain then { c with seen := right.identifier :: c.seen } else addGrain c right

def addJoin (env : Environment) (r : Relation) (c : Collected) : RelationJoin → Collected
  | .unnest j => { c with grain := c.grain.union (Grain.ofList j.concepts) }
  | .base j => addBaseJoin env r c j

/-- a source read by a membership test of the condition -/
def isExistence (existence : List String) (s : RelationSource) : Bool :=
  !existence.isEmpty && s.outputs.any existence.contains

/-- the grain a source contributes to the rows of its consumer -/
def effectiveGrain (env : Environment) : RelationSource → Grain
  | .datasource d => d.grain
  | .query r =>
    if r.joins.isEmpty then r.grain
    else
      let c := r.joins.foldl (addJoin env r) ⟨Grain.single, []⟩
      let existence := match r.condition with
        | some c => c.existenceArguments
        | none => []
      (r.sources.filter fun s => !c.seen.contains s.identifier && !isExistence existence s).foldl
        (fun g s => g.union s.grain) c.grain

/-- the outcome of the grouping question -/
structure Verdict where
  target : Grain
  supplied : Grain
  required : Bool
deriving Inhabited

/-- the address with unique properties replaced by their keys -/
def replaceUnique (c : Concept) : List String :=
  if c.purpose = .uniqueProperty then c.keys.toList else [c.address]

/-- the content of a rowset or filter concept, any other address unchanged -/
def renamed (env : Environment) (address : String) : String :=
  match env.lineage? address with
  | some (.rowset r) => r.content
  | some (.filter f) => f.content
  | _ => address

/-- whether rows of `parents` must be grouped to carry `downstream` at its own grain -/
def check (env : Environment) (downstream : List String) (parents : List RelationSource) :
    Except PlanningError Verdict := do
  let concepts ← env.conceptsFor downstream
  let target := Grain.ofConcepts concepts
  let supplied := Grain.unionAll (parents.map (effectiveGrain env))
  if supplied.isAbstract && !target.isAbstract then return ⟨target, supplied, true⟩
  if supplied.isSubset target then return ⟨target, supplied, false⟩
  let extra := (supplied.diff target).components.toList.filterMap env.find?
  if !extra.isEmpty && extra.all fun x => !x.keys.isEmpty && x.keys.toList.all supplied.contains then
    return ⟨target, supplied, false⟩
  if !extra.isEmpty && extra.all fun x => decide (x.purpose = .key) then
    let replaced := SortedSet.ofList ((concepts.filter fun x => target.contains x.address).flatMap replaceUnique)
    if supplied.isSubset (← env.grainOf replaced.toList) then return ⟨target, supplied, false⟩
  let renamedTarget ← env.grainOf (target.components.toList.map (renamed env))
  if supplied.isSubset renamedTarget then return ⟨renamedTarget, supplied, false⟩
  return ⟨target, supplied, true⟩

end Grouping

/-- the concepts that are worth joining on: those whose keys are not all among them -/
def relevantJoins (cs : List Concept) : List String :=
  let present := SortedSet.ofList (Concept.addresses cs)
  distinct (Concept.addresses (cs.filter fun c => c.keys.isEmpty || !c.keys.isSubset present))

end SemanticPlanner
