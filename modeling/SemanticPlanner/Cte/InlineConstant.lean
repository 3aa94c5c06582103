/-
Writing constants as their value instead of reading them from another step.
-/
import SemanticPlanner.Cte.Rule

namespace SemanticPlanner.InlineConstant

/-- the value of an input that is read and is a declared constant -/
def valueOf (env : Environment) (c : Cte) (address : String) : Option Literal :=
  if (c.sourceMap.getD address []).isEmpty then none
  else match env.find? address with
    | some x => if x.derivation = .constant then x.constantValue else none
    | none => none

/-- one input written as its value, where it has one -/
def inlineInput (env : Environment) (s : Bool × Cte) (address : String) : Bool × Cte :=
  match valueOf env s.2 address with
  | none => s
  | some v =>
    (true, { s.2 with
      condition := s.2.condition.map fun c => c.inline address v
      constants := s.2.constants.insert address v
      sourceMap := s.2.sourceMap.insert address [] })

/-- parents that hold constants only and that nothing reads any more -/
def unread (constantSteps : List String) (c : Cte) : List String :=
  c.parents.filter fun p => constantSteps.contains p && !c.sourceMap.values.any fun s => s.contains p

/-- the step without the given parents and the joins on them -/
def dropParents (names : List String) (c : Cte) : Cte :=
  { c with
    parents := c.parents.filter fun p => !names.contains p
    joins := c.joins.filter fun j => !j.reads names }

def apply (env : Environment) (name : String) (memory : RuleMemory) (p : CtePlan) : Revision :=
  match p.find? name with
  | none => .unchanged memory p
  | some c =>
    let (changed, inlined) := c.inputs.foldl (inlineInput env) (false, c)
    if changed then
      let constantSteps := (p.ctes.filter fun x => decide (x.kind = .constant)).map Cte.name
      ⟨true, memory, p.modify name fun _ => dropParents (unread constantSteps inlined) inlined⟩
    else .unchanged memory p

end SemanticPlanner.InlineConstant
