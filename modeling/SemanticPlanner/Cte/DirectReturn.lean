/-
Returning a plan's only source directly: a root that adds nothing but a condition and a choice of columns is dropped
in favour of its single parent.
-/
import SemanticPlanner.Cte.Plan

namespace SemanticPlanner

/-- windows, array expansions and recursions, which may not move past a filter or a grouping -/
def Environment.isSensitive (env : Environment) (address : String) : Bool :=
  match env.find? address with
  | some c => decide (c.derivation = .window ∨ c.derivation = .unnest ∨ c.derivation = .recursive)
  | none => false

namespace CtePlan

/-- a concept the parent computes can be filtered by in the parent -/
def allowsFilterOn (env : Environment) (parent : Cte) (address : String) : Bool :=
  if !parent.computed.contains address then true
  else if env.isSensitive address then false
  else match env.find? address with
    | none => true
    | some c => c.arguments.all fun a => parent.inputs.contains a || !env.isSensitive a

/-- the single parent that can be returned in the place of the root -/
def directParent (env : Environment) (p : CtePlan) : Option String := do
  let root ← p.rootCte
  let name ← match root.parents with
    | [name] => some name
    | _ => none
  let parent ← p.find? name
  let read := match root.condition with
    | some c => c.rowArguments
    | none => []
  if root.datasources.isEmpty && root.joins.isEmpty
      && !(decide (parent.kind = .union) || decide (parent.kind = .recursive))
      && root.outputs.all parent.outputs.contains
      && parent.grain == root.grain
      && !root.computed.any env.isSensitive
      && read.all (allowsFilterOn env parent)
  then some parent.name
  else none

/-- the parent with what the root did to its rows: its condition, its columns in order, its hidden columns -/
def absorbRoot (root parent : Cte) : Cte :=
  let rest := parent.outputs.filter fun c => !root.visible.contains c
  { parent with
    condition := match root.condition with
      | some c => some (Condition.conjoin parent.condition c)
      | none => parent.condition
    outputs := root.visible ++ rest
    hidden := (parent.hidden.insertAll rest).union root.hidden }

/-- the root dropped in favour of its parent -/
def collapse (p : CtePlan) (parent : String) : CtePlan :=
  match p.rootCte with
  | none => p
  | some root => { p.modify parent (absorbRoot root) with root := parent }

/-- roots dropped while that is possible, at most `limit` of them -/
def returnDirectly (env : Environment) (limit : Nat) : Nat → CtePlan → Except PlanningError CtePlan
  | fuel, p =>
    match p.directParent env with
    | none => .ok p
    | some parent =>
      match fuel with
      | 0 => .error (.iterationLimit "direct return" limit)
      | fuel + 1 => returnDirectly env limit fuel (p.collapse parent)

end CtePlan

end SemanticPlanner
