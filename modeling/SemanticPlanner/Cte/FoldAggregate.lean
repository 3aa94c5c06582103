/-
Folding an aggregate into the single step it reads.

The parent then groups to the aggregate's grain itself. It must have no other reader, no grouping of its own and
nothing that a grouping may not move past.
-/
import SemanticPlanner.Cte.DirectReturn
import SemanticPlanner.Cte.Rule

namespace SemanticPlanner.FoldAggregate

/-- a grouping without joins, condition or datasources of its own -/
def isFoldable (c : Cte) : Bool :=
  (decide (c.kind = .group) || c.grouped) && c.joins.isEmpty && c.condition.isNone && c.datasources.isEmpty

/-- a step that can group its rows as well -/
def canGroup (env : Environment) (parent : Cte) : Bool :=
  !(decide (parent.kind = .union) || decide (parent.kind = .recursive) || decide (parent.kind = .group)
      || decide (parent.kind = .constant))
    && !parent.grouped && !parent.outputs.any env.isSensitive

/-- the parent grouped to the aggregate's grain, with the aggregate's columns -/
def absorb (aggregate parent : Cte) : Cte :=
  let computedHere := aggregate.outputs.filter fun a => aggregate.sourceMap.get? a == some []
  { parent with
    sourceMap := computedHere.foldl (fun m a => m.insert a []) parent.sourceMap
    outputs := aggregate.outputs
    hidden := aggregate.hidden
    partials := parent.partials.filter aggregate.partials.contains
    nullables := aggregate.nullables
    grain := aggregate.grain
    grouped := true }

/-- the parent of a step that can absorb it -/
def absorber (env : Environment) (readers : Readers) (p : CtePlan) (c : Cte) : Option Cte := do
  let parentName ← match c.parents with
    | [q] => some q
    | _ => none
  let parent ← p.find? parentName
  if isFoldable c && canGroup env parent && CtePlan.readersOf readers parentName == [c.name] then some parent
  else none

/-- the aggregate's readers made readers of its parent -/
def redirect (readers : List String) (old new : String) (p : CtePlan) : CtePlan :=
  readers.foldl (fun p reader => p.modify reader fun c => c.replaceParent old new) p

def apply (env : Environment) (readers : Readers) (name : String) (memory : RuleMemory) (p : CtePlan) : Revision :=
  if memory.folded.contains name then .unchanged memory p
  else match p.find? name with
    | none => .unchanged memory p
    | some c =>
      match absorber env readers p c with
      | none => .unchanged memory p
      | some parent =>
        let p := redirect (CtePlan.readersOf readers name) name parent.name (p.modify parent.name (absorb c))
        ⟨true, { memory with folded := memory.folded.insert name },
          { p with root := if p.root = name then parent.name else p.root }⟩

end SemanticPlanner.FoldAggregate
