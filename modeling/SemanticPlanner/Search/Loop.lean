/-
The search: concepts sourced into one node.

Concepts are picked and sourced one after the other onto a stack, until the stack covers what is asked for and joins
into one graph. The stack is then merged and the condition applied, unless every node of it applies the condition
already. A search that fails is tried once more with partial sources. Every search is remembered.
-/
import SemanticPlanner.Search.Coverage
import SemanticPlanner.Search.Priority
import SemanticPlanner.Sourcing.Derivation

namespace SemanticPlanner

/-- derivations that are sourced once in a search, as a second attempt would only see part of their inputs -/
def Derivation.isSourcedOnce (d : Derivation) : Bool :=
  [aggregate, filter, window, unnest, rowset, basic, multiselect, union].contains d

/-- what one search is after -/
structure Goal where
  depth : Nat
  acceptPartial : Bool
  condition : Option Condition
  /-- the addresses that were asked for -/
  requested : NameSet
  mandatory : List Concept
  /-- the mandatory concepts and what the condition reads -/
  completion : List Concept
  /-- what the condition reads -/
  read : NameSet
  /-- the condition reads a derived concept that is asked for, so it has to be applied in this search -/
  mustEvaluate : Bool

namespace Goal

/-- a derived concept that has to be computed before the condition can be; single-row aggregates are known anyway -/
def blocks (read : NameSet) (c : Concept) : Bool :=
  !c.isPlain && !(decide (c.derivation = .aggregate) && c.isSingleRow) && read.contains c.address

def of (env : Environment) (r : Request) : Except PlanningError Goal := do
  let asked := Concept.unique r.concepts
  let requested := SortedSet.ofList (Concept.addresses asked)
  match r.condition with
  | none => pure ⟨r.depth, r.acceptPartial, none, requested, asked, asked, ∅, false⟩
  | some c =>
    let completion := Concept.unique (asked ++ (← env.conceptsFor c.rowArguments))
    let read := SortedSet.ofList c.rowArguments
    let mustEvaluate := asked.any (blocks read)
    pure ⟨r.depth, r.acceptPartial, some c, requested, if mustEvaluate then completion else asked, completion, read,
      mustEvaluate⟩

/-- everything asked for is plain or read by the condition, and everything the condition reads is asked for -/
def evaluatesHere (g : Goal) : Bool :=
  let addresses := Concept.addresses g.mandatory
  g.read.toList.all addresses.contains && !g.mandatory.any fun c => !c.isPlain && !g.read.contains c.address

/-- the condition under which a picked concept is sourced: rows are filtered before anything is derived from them -/
def conditionFor (g : Goal) (picked : Concept) : Option Condition :=
  if !picked.isPlain && !g.read.contains picked.address then g.condition
  else if g.mustEvaluate || g.evaluatesHere then none
  else g.condition

/-- the same goal asked for with partial sources -/
def retry (g : Goal) : Request := ⟨g.mandatory, g.depth, true, g.condition⟩

end Goal

/-- what a search has so far -/
structure Progress where
  attempted : NameSet := ∅
  found : NameSet := ∅
  exhausted : NameSet := ∅
  stack : List PlanId := []
  coverage : Coverage := ⟨.incomplete, ∅, ∅, ∅, ∅⟩

namespace Progress

def isComplete (p : Progress) : Bool := decide (p.coverage.result = .complete)

/-- nothing more is to be gained: all is there, and partial only if nothing partial is left, or a root was tried -/
def isDone (p : Progress) (g : Goal) (picked : Concept) : Bool :=
  (p.isComplete && (!g.acceptPartial || p.coverage.partials.isEmpty)) || decide (picked.derivation = .root)

end Progress

/-- the condition that cannot be applied, and what the nodes of the stack apply instead -/
def conditionMismatch (g : Goal) (cores : List NodeCore) : PlanningError :=
  let text (c : Option Condition) (absent : String) := (c.map Condition.display).getD absent
  .conditionMismatch (Text.join "; " (cores.map fun c => text c.preexisting "none")) (text g.condition "")

/-- one picked concept sourced, and the stack checked -/
def attempt (search : Search) (g : Goal) (p : Progress) (picked : Concept) : Planning Progress := do
  let env ← Planning.environment
  let candidates := g.mandatory.filter fun c => c.address != picked.address
  let others ← (companions env picked candidates p.exhausted g.condition : Except PlanningError (List Concept))
  let generated ← sourceConcept search picked others g.depth g.acceptPartial (g.conditionFor picked)
  let p ← match generated with
    | none => pure p
    | some id => do
      let _ ← Planning.resolve id
      pure { p with
        stack := p.stack ++ [id]
        exhausted :=
          if picked.derivation.isSourcedOnce then p.exhausted.insert picked.address else p.exhausted }
  let coverage ← Planning.resolving
    (Coverage.check p.stack g.mandatory g.completion g.condition g.acceptPartial)
  if coverage.result = .conditionUnmet then throw (conditionMismatch g (← p.stack.mapM Planning.core))
  pure { p with attempted := p.attempted.insert picked.address, found := coverage.found, coverage }

/-- concepts attempted until the goal is met or nothing is left to attempt -/
def attempts (search : Search) (g : Goal) : Nat → Progress → Planning Progress
  | 0, p => pure p
  | fuel + 1, p => do
    if p.attempted = g.requested then return p
    let env ← Planning.environment
    match Priority.next env g.mandatory p.attempted p.found with
    | none => pure p
    | some picked =>
      let p ← attempt search g p picked
      if p.isDone g picked then pure p else attempts search g fuel p

/-- the stack as one node -/
def mergeStack (g : Goal) (p : Progress) (outputs : List String) : Planning PlanId :=
  match p.stack with
  | [one] => pure one
  | stack => Planning.insert (.merge none) (((NodeCore.of outputs outputs).withParents stack).withDepth g.depth)

/-- the address that a membership test reads sourced on its own, in a query of its own, and read by the node -/
def addExistence (search : Search) (id : PlanId) (address : String) : Planning Unit := do
  if (← Planning.core id).inputs.contains address then return
  let parent ← sourceQuery search (← Planning.conceptsFor [address]) none
  Planning.addParents id [parent]
  Planning.edit fun a => a.addExistence id [address]

/-- a complete stack made one node that satisfies the condition -/
def finish (search : Search) (g : Goal) (p : Progress) : Planning PlanId := do
  let cores ← p.stack.mapM Planning.core
  let isApplied := g.condition.all fun c => Coverage.appliedBy c cores
  let basis := if isApplied then g.mandatory else g.completion
  let outputs := (Concept.addresses basis).filter fun a => !p.coverage.virtual.contains a
  let id ← mergeStack g p outputs
  let _ ← Planning.resolve id
  match g.condition with
  | none => pure id
  | some c =>
    if isApplied then
      Planning.edit fun a => a.setPreexisting id (some c)
      pure id
    else
      Planning.edit fun a => a.addCondition id c
      for address in c.existenceArguments do
        addExistence search id address
      pure id

/-- a request that is not remembered yet -/
def searchAnew (search : Search) (r : Request) : Planning (Option PlanId) := do
  let env ← Planning.environment
  let g ← (Goal.of env r : Except PlanningError Goal)
  let p ← attempts search g (g.mandatory.length + 1) {}
  if p.isComplete && !p.stack.isEmpty then return some (← finish search g p)
  if !g.acceptPartial && (← get).settings.partialRetry then search g.retry
  else pure none

/-- a search nested at most `fuel` deep -/
def searchWithin : Nat → Search
  | 0, _ => do throw (.depthExceeded (← get).settings.maxDepth)
  | fuel + 1, r => do
    let limit := (← get).settings.maxDepth
    if limit < r.depth then throw (.depthExceeded limit)
    match ← Planning.recallSearch r.key with
    | some outcome => pure outcome
    | none =>
      let found ← searchAnew (searchWithin fuel) r
      Planning.storeSearch r.key found
      pure found

/-- how deep searches nest at most: each level holds a search and its retry, and the levels start anew for each
membership test that leads to another -/
def Planner.nesting (p : Planner) : Nat := 2 * (p.settings.maxDepth + 2) * (p.arena.environment.concepts.size + 2)

def search : Search := fun r => do searchWithin (← get).nesting r

end SemanticPlanner
