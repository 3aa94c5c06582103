/-
Improving a plan until no rule changes it.

The root is dropped in favour of its parent while that is possible. Each enabled rule then runs over the root and every
other step, readers first, until a whole pass changes nothing; after each pass unread steps are dropped and the steps
are listed parents first.
-/
import SemanticPlanner.Cte.FoldAggregate
import SemanticPlanner.Cte.InlineConstant
import SemanticPlanner.Cte.InlineDatasource
import SemanticPlanner.Cte.PushPredicate
import SemanticPlanner.Settings

namespace SemanticPlanner

inductive Rule where
  | inlineDatasource | pushPredicate | dropPredicate | inlineConstant | foldAggregate
deriving DecidableEq, Repr, Inhabited

namespace Rule

def name : Rule → String
  | inlineDatasource => "inline_datasource"
  | pushPredicate => "predicate_pushdown"
  | dropPredicate => "predicate_pushdown_remove"
  | inlineConstant => "inline_constant"
  | foldAggregate => "merge_aggregate"

/-- the rules in the order in which they run -/
def all : List Rule := [inlineDatasource, pushPredicate, dropPredicate, inlineConstant, foldAggregate]

def isEnabled (s : OptimizerSettings) : Rule → Bool
  | inlineDatasource => s.datasourceInlining
  | pushPredicate => s.predicatePushdown
  | dropPredicate => s.predicatePushdownRemove
  | inlineConstant => s.constantInlining
  | foldAggregate => s.mergeAggregate

/-- a rule applied to one step of a plan -/
def apply (r : Rule) (s : OptimizerSettings) (env : Environment) (name : String) (memory : RuleMemory)
    (p : CtePlan) : Revision :=
  match r with
  | inlineDatasource => InlineDatasource.apply s.inlineDatasourceCutoff name memory p
  | pushPredicate => PushPredicate.apply env p.readers name memory p
  | dropPredicate => PushPredicate.applyRemoval name memory p
  | inlineConstant => InlineConstant.apply env name memory p
  | foldAggregate => FoldAggregate.apply env p.readers name memory p

end Rule

namespace CtePlan

/-- the root, and then every other step, the last listed first -/
def visitOrder (p : CtePlan) : List String := p.root :: (p.names.reverse.filter fun n => n != p.root)

/-- one step visited in a pass, if it is still there -/
def visit (r : Rule) (s : OptimizerSettings) (env : Environment) (w : Revision) (name : String) : Revision :=
  if (w.plan.find? name).isNone then w
  else
    let t := r.apply s env name w.memory w.plan
    { t with changed := w.changed || t.changed }

/-- a rule applied to every step once -/
def pass (r : Rule) (s : OptimizerSettings) (env : Environment) (memory : RuleMemory) (p : CtePlan) : Revision :=
  p.visitOrder.foldl (visit r s env) (.unchanged memory p)

section
variable (sort : Topological.Sorting)

/-- passes of a rule until one changes nothing, at most as many as there is fuel -/
def runRule (r : Rule) (s : OptimizerSettings) (env : Environment) :
    Nat → RuleMemory → CtePlan → Except PlanningError CtePlan
  | 0, _, _ => .error (.iterationLimit ("optimizer rule " ++ r.name) s.maxLoops)
  | fuel + 1, memory, p => do
    let w := pass r s env memory p
    let q ← w.plan.prune.reorderBy sort
    if w.changed then runRule r s env fuel w.memory q else pure q

/-- every enabled rule run to its end, steps listed by `sort` -/
def optimizeBy (env : Environment) (s : OptimizerSettings) (p : CtePlan) : Except PlanningError CtePlan := do
  let p ← if s.directReturn then prune <$> returnDirectly env s.maxLoops s.maxLoops p else pure p
  let p ← (Rule.all.filter (Rule.isEnabled s)).foldlM (fun p r => runRule sort r s env s.maxLoops {} p) p
  p.prune.reorderBy sort

end

def optimize (env : Environment) (s : OptimizerSettings) (p : CtePlan) : Except PlanningError CtePlan :=
  p.optimizeBy Topological.order env s

end CtePlan

end SemanticPlanner
