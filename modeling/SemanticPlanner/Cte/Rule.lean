/-
What the rules for single steps have in common.

A rule looks at one step of a plan, given the readers of every step, and may change that step, its parents and the
root. Rules remember what they did in a `RuleMemory` that lives as long as one run of them.
-/
import SemanticPlanner.Cte.Plan

namespace SemanticPlanner

structure RuleMemory where
  /-- parents that a step was found to be able to do without, by step -/
  candidates : NameMap NameSet := ∅
  /-- how often each datasource was found so -/
  uses : NameMap Nat := ∅
  /-- steps whose terms are all pushed as far as they go -/
  pushed : NameSet := ∅
  /-- aggregates that were folded into their parent -/
  folded : NameSet := ∅
deriving Inhabited

/-- a plan after a rule was applied, and whether that changed it -/
structure Revision where
  changed : Bool
  memory : RuleMemory
  plan : CtePlan

namespace Revision

/-- nothing changed -/
def unchanged (memory : RuleMemory) (plan : CtePlan) : Revision := ⟨false, memory, plan⟩

end Revision

end SemanticPlanner
