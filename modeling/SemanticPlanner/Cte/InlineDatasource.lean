/-
Reading bare datasources directly instead of through a step of their own.

A parent is first registered and is inlined when it is met again, unless its datasource was registered more often than
the cutoff. A parent at a coarser grain than its datasource is left alone, so the reader keeps its grain.
-/
import SemanticPlanner.Cte.Rule

namespace SemanticPlanner.InlineDatasource

/-- the parent only hands on its datasource -/
def isReplaceable (c parent : Cte) : Bool :=
  match parent.bareDatasource with
  | none => false
  | some d =>
    parent.condition.isNone
      && (c.sourceMap.toList.filter fun e => e.2.contains parent.name).all (fun e => d.provides e.1)
      && d.grain.isSubset parent.grain

/-- a parent met: registered the first time, inlined from then on -/
def step (cutoff : Nat) (name : String) : List Cte → Revision → Revision
  | [], r => r
  | parent :: rest, r =>
    match parent.bareDatasource with
    | none => step cutoff name rest r
    | some d =>
      let seen := r.memory.candidates.getD name ∅
      if !seen.contains parent.name then
        ⟨true, { r.memory with
          candidates := r.memory.candidates.insert name (seen.insert parent.name)
          uses := r.memory.uses.update d.identifier 0 (· + 1) }, r.plan⟩
      else if cutoff < r.memory.uses.getD d.identifier 0 then step cutoff name rest r
      else
        match (r.plan.find? name).bind fun c => c.inlineParent parent with
        | none => step cutoff name rest r
        | some c => step cutoff name rest ⟨true, r.memory, r.plan.modify name fun _ => c⟩

def apply (cutoff : Nat) (name : String) (memory : RuleMemory) (p : CtePlan) : Revision :=
  match p.find? name with
  | none => .unchanged memory p
  | some c => step cutoff name ((c.parents.filterMap p.find?).filter (isReplaceable c)) (.unchanged memory p)

end SemanticPlanner.InlineDatasource
