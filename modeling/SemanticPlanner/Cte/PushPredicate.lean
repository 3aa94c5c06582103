/-
Moving row filters into the steps that read the rows.

A term goes down to a parent if the parent reads all the term needs and every reader of the parent filters by the term
already. A condition that every parent applies is then dropped.
-/
import SemanticPlanner.Cte.Rule
import SemanticPlanner.Environment.Scalar

namespace SemanticPlanner.PushPredicate

/-! ## Pushing terms down -/

/-- the columns that a bare parent has to read additionally to filter by the rows -/
def borrowed (parent : Cte) (rows : NameSet) : List (String × String) :=
  match parent.bareDatasource with
  | none => []
  | some d =>
    if rows.toList.all d.provides then
      (rows.toList.filter fun r => !parent.materialized.contains r).map fun r => (r, d.identifier)
    else []

/-- every reader of the parent filters by the term -/
def isShared (p : CtePlan) (term : Condition) (readers : List String) : Bool :=
  readers.all fun reader =>
    match p.find? reader with
    | some c => term.holdsInOption c.condition
    | none => false

/-- the term may be moved into the parent -/
def accepts (env : Environment) (p : CtePlan) (readers : List String) (term : Condition) (parent : Cte) : Bool :=
  let rows := SortedSet.ofList term.rowArguments
  let readable := parent.materialized.insertAll ((borrowed parent rows).map Prod.fst)
  !term.holdsInOption parent.condition && !rows.isEmpty && !parent.materialized.isEmpty && rows.isSubset readable
    && isShared p term readers
    && (match parent.condition with
      | some c => c.isScalar env readable
      | none => true)

/-- the parent with the term as part of its condition -/
def filterBy (term : Condition) (parent : Cte) : Cte :=
  { parent with
    sourceMap := (borrowed parent (SortedSet.ofList term.rowArguments)).foldl (fun m e => m.insert e.1 [e.2])
      parent.sourceMap
    condition := some (Condition.conjoin parent.condition term) }

/-- one term offered to one parent, which is then to be looked at again -/
def offer (env : Environment) (readers : Readers) (r : Revision) (e : Condition × String) : Revision :=
  match r.plan.find? e.2 with
  | none => r
  | some parent =>
    if accepts env r.plan (CtePlan.readersOf readers e.2) e.1 parent then
      ⟨true, { r.memory with pushed := r.memory.pushed.erase e.2 }, r.plan.modify e.2 (filterBy e.1)⟩
    else r

/-- the terms that may move at all: scalar, without membership tests -/
def movable (env : Environment) (c : Condition) : List Condition :=
  c.terms.filter fun t => t.isScalar env ∅ && t.existenceArguments.isEmpty

def apply (env : Environment) (readers : Readers) (name : String) (memory : RuleMemory) (p : CtePlan) : Revision :=
  match p.find? name with
  | none => .unchanged memory p
  | some c =>
    match c.condition with
    | none => .unchanged memory p
    | some condition =>
      if c.parents.isEmpty || memory.pushed.contains name then .unchanged memory p
      else
        let offers := (movable env condition).flatMap fun t => c.parents.map fun q => (t, q)
        let r := offers.foldl (offer env readers) (.unchanged memory p)
        { r with memory := { r.memory with pushed := r.memory.pushed.insert name } }

/-! ## Dropping conditions that the parents apply -/

/-- a parent that only membership tests of the condition read -/
def isExistenceOnly (condition : Condition) (parent : Cte) : Bool :=
  !condition.existenceArguments.isEmpty && parent.outputs.all condition.existenceArguments.contains

/-- the step without its condition and without the parents that only the condition read -/
def dropCondition (unread : List String) (c : Cte) : Cte :=
  { c with
    condition := none
    parents := c.parents.filter fun q => !unread.contains q
    sourceMap := c.sourceMap.mapValues fun _ s => s.filter fun x => !unread.contains x }

/-- the parents that only the condition reads, if every other parent applies the condition and there is one -/
def redundancy (p : CtePlan) (c : Cte) (condition : Condition) : Option (List String) := do
  let parents ← c.parents.mapM p.find?
  let (unread, rows) := (c.parents.zip parents).partition fun e => isExistenceOnly condition e.2
  if !rows.isEmpty && rows.all (fun e => condition.holdsInOption e.2.condition) then some (unread.map Prod.fst)
  else none

def applyRemoval (name : String) (memory : RuleMemory) (p : CtePlan) : Revision :=
  match p.find? name with
  | none => .unchanged memory p
  | some c =>
    match c.condition with
    | none => .unchanged memory p
    | some condition =>
      if c.parents.isEmpty || !c.datasources.isEmpty then .unchanged memory p
      else match redundancy p c condition with
        | none => .unchanged memory p
        | some unread => ⟨true, memory, p.modify name (dropCondition unread)⟩

end SemanticPlanner.PushPredicate
