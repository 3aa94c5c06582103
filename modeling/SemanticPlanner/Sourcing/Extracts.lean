/-
Unions of conditional extracts.

An extract is a datasource that is complete for the rows of its own condition. Extracts that provide every target, and
whose conditions split the values of one concept among them, can be read together as one complete source.
-/
import SemanticPlanner.Environment.Basic
import SemanticPlanner.Sourcing.Ranges

namespace SemanticPlanner.Extracts

/-- the number an expression states, directly or through a constant -/
def numberOf (env : Environment) : Expr → Option Literal
  | .literal l => if l.number?.isSome then some l else none
  | .concept a =>
    match (env.find? a).bind Concept.constantValue with
    | some l => if l.number?.isSome then some l else none
    | none => none
  | _ => none

/-- a comparison of one concept with a number, the concept brought to the left -/
def boundOf (env : Environment) : Condition → Option (String × ComparisonOp × Literal)
  | .comparison left op right =>
    match left, numberOf env left with
    | .concept a, none => (numberOf env right).map fun l => (a, op, l)
    | _, _ =>
      match right, numberOf env right with
      | .concept a, none => (numberOf env left).map fun l => (a, op.flip, l)
      | _, _ => none
  | _ => none

/-- comparisons that split the values of the concept they are on -/
def isPartition (env : Environment) (address : String) (comparisons : List (ComparisonOp × Literal)) : Bool :=
  match (env.find? address).map Concept.datatype with
  | some .integer => partitionsIntegers comparisons
  | some .float => partitionsFloats comparisons
  | _ => false

/-- every value of each compared concept satisfies exactly one of the conditions -/
def areExhaustive (env : Environment) (conditions : List Condition) : Bool :=
  match conditions.mapM (boundOf env) with
  | none => false
  | some bounds =>
    let grouped : NameMap (List (ComparisonOp × Literal)) :=
      bounds.foldl (fun m b => m.update b.1 [] (· ++ [b.2])) ∅
    !grouped.isEmpty && grouped.toList.all fun e => isPartition env e.1 e.2

/-- the concept that an extract is cut by, if it can stand for the targets and they are partial in it -/
def cutBy (targets : List Concept) (d : Datasource) : Option String :=
  match d.nonPartialFor with
  | none => none
  | some condition =>
    if (Concept.addresses targets).all d.provides && (Concept.addresses targets).any d.partials.contains then
      match condition.concepts with
      | [a] => some a
      | _ => none
    else none

/-- the groups of extracts that together are complete for the targets -/
def unions (env : Environment) (targets : List Concept) : List (List Datasource) :=
  let byConcept : NameMap (List Datasource) :=
    env.datasources.values.foldl
      (fun m d =>
        match cutBy targets d with
        | some a => m.update a [] (· ++ [d])
        | none => m) ∅
  byConcept.values.filter fun group => areExhaustive env (group.filterMap Datasource.nonPartialFor)

end SemanticPlanner.Extracts
