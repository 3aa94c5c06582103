/-
Sourcing targets straight from datasources, without any derivation.

There is one select per chosen datasource, grouped where its rows are finer than what is asked of it; several are
merged. Constants come along in a node of their own.
-/
import SemanticPlanner.Sourcing.Match
import SemanticPlanner.Sourcing.Planner

namespace SemanticPlanner.Direct

def isConstant (c : Concept) : Bool := decide (c.derivation = .constant)

/-- the core of a select that reads the concepts from a datasource -/
def selectCore (d : Datasource) (cs : List Concept) (depth : Nat) (condition : Option Condition) : NodeCore :=
  let requested := Concept.addresses cs
  -- an extract is complete for its own condition
  let isFull := condition.isSome && d.nonPartialFor == condition
  (((NodeCore.of d.outputs (sortOn id requested)).withDepth depth).withGrain d.grain
    |>.withPartials (if isFull then [] else d.partials.filter requested.contains)
    |>.withNullables (d.nullables.filter requested.contains)
    |>.withPreexisting (if isFull then condition else none)
    |>.withCondition d.whereClause)

/-- the rows of the datasource are not those of the concepts asked of it -/
def needsGroup (d : Datasource) (cs : List Concept) : Bool :=
  !d.grain.isSubset (Grain.ofConcepts cs) || d.grain.isAbstract

/-- a select for each datasource of a source, under a union if there are several; also whether it needs grouping -/
def readSource (source : GraphSource) (cs : List Concept) (acceptPartial : Bool) (depth : Nat)
    (condition : Option Condition) : Planning (PlanId × Bool) := do
  match source with
  | .single d =>
    let id ← Planning.insert (.select d acceptPartial) (selectCore d cs depth condition)
    pure (id, needsGroup d cs)
  | .union ds =>
    let parents ← ds.mapM fun d =>
      Planning.insert (.select d acceptPartial) (selectCore d cs (depth + 1) condition)
    let outputs := Concept.addresses cs
    let id ← Planning.insert .union (((NodeCore.of outputs outputs).withParents parents).withDepth depth)
    pure (id, ds.any fun d => needsGroup d cs)

/-- the node that reads the concepts from a source -/
def sourceNode (source : GraphSource) (cs : List Concept) (acceptPartial : Bool) (depth : Nat)
    (condition : Option Condition) : Planning PlanId := do
  let outputs := Concept.addresses cs
  if cs.all isConstant then
    Planning.insert .constant (((NodeCore.of [] outputs).withDepth depth).withPreexisting condition)
  else
    let (id, grouping) ← readSource source cs acceptPartial depth condition
    if !grouping then pure id
    else
      let below ← Planning.core id
      Planning.insert .group
        (((NodeCore.of outputs outputs).withParents [id]).withDepth (depth + 1)
          |>.withPartials below.partials
          |>.withNullables below.nullables
          |>.withPreexisting below.preexisting
          |>.withForceGroup (some true))

/-- constants alone; a condition on anything else cannot be applied to them -/
def constantsOnly (constants : List Concept) (depth : Nat) (condition : Option Condition) :
    Planning (Option PlanId) := do
  let read ← match condition with
    | some c => Planning.conceptsFor c.rowArguments
    | none => pure []
  if !read.all isConstant then return none
  let outputs := Concept.addresses (constants ++ read)
  some <$> Planning.insert .constant (((NodeCore.of [] outputs).withDepth depth).withCondition condition)

/-- the first match: among complete sources, or else among partial ones where those are accepted -/
def firstMatch (env : Environment) (graph : ReferenceGraph) (targets : List Concept) (acceptPartial : Bool)
    (condition : Option Condition) : Option ReferenceGraph :=
  (Match.matching env graph targets false condition).or
    (if acceptPartial then Match.matching env graph targets true condition else none)

/-- the node of one chosen datasource -/
def chosenNode (g : ReferenceGraph) (r : Request) (e : GraphNode × List GraphNode) : Planning (Option PlanId) := do
  match g.sources.get? e.1 with
  | none => pure none
  | some source =>
    let cs ← (e.2.filterMap GraphNode.address?).mapM Planning.concept
    some <$> sourceNode source cs r.acceptPartial r.depth r.condition

/-- several parents of a match merged; the condition holds if it holds on all of them -/
def mergeParents (r : Request) (plain : List Concept) (parents : List PlanId) : Planning PlanId := do
  let cores ← parents.mapM Planning.core
  let known := match r.condition with
    | some c => if cores.all fun x => x.preexisting == some c then some c else none
    | none => none
  Planning.insert (.merge none)
    (((NodeCore.of (Concept.addresses plain) (Concept.addresses r.concepts)).withParents parents).withDepth r.depth
      |>.withPreexisting known)

/-- targets sourced from datasources that are connected and cover them, if there are such -/
def source : Search := fun r => do
  let (constants, plain) := r.concepts.partition isConstant
  if plain.isEmpty then return ← constantsOnly constants r.depth r.condition
  let p ← get
  match firstMatch p.arena.environment p.graph plain r.acceptPartial r.condition with
  | none => pure none
  | some g =>
    let nodes ← (Match.chosen g plain r.condition).mapM (chosenNode g r)
    let parents := nodes.filterMap id
    if parents.isEmpty then return none
    let parents ← if constants.isEmpty then pure parents
      else do
        let core := ((NodeCore.of [] (Concept.addresses constants)).withDepth r.depth).withPreexisting r.condition
        pure (parents ++ [← Planning.insert .constant core])
    match parents with
    | [one] => pure (some one)
    | _ => some <$> mergeParents r plain parents

end SemanticPlanner.Direct
