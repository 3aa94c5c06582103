/-
Scalar expressions and conditions: those that evaluate no aggregate, not even through the lineage of the concepts
they read. Concepts that are already computed columns (`materialized`) are not looked through, and no concept is looked
through twice.
-/
import SemanticPlanner.Environment.Basic

namespace SemanticPlanner

namespace Expr

mutual

/-- no aggregate is evaluated by an expression, as `look` tells of the concepts it reads, and the concepts seen so far -/
def scalarBy (look : NameSet → String → Bool × NameSet) (seen : NameSet) : Expr → Bool × NameSet
  | concept a => look seen a
  | literal _ => (true, seen)
  | function _ args => allScalarBy look seen args
  | aggregate _ _ => (false, seen)

/-- the same of several expressions in turn, up to the first that evaluates one -/
def allScalarBy (look : NameSet → String → Bool × NameSet) (seen : NameSet) : List Expr → Bool × NameSet
  | [] => (true, seen)
  | e :: es =>
    let (scalar, seen) := scalarBy look seen e
    if scalar then allScalarBy look seen es else (false, seen)

end

end Expr

/-- no aggregate is evaluated for a concept, nor in the function lineage below it, looked through at most `fuel` deep -/
def Environment.looksScalar (env : Environment) (materialized : NameSet) :
    Nat → NameSet → String → Bool × NameSet
  | 0, seen, _ => (true, seen)
  | fuel + 1, seen, address =>
    if materialized.contains address || seen.contains address then (true, seen)
    else match env.lineage? address with
      | some (.aggregate _) => (false, seen.insert address)
      | some (.function f) => Expr.allScalarBy (looksScalar env materialized fuel) (seen.insert address) f.args
      | _ => (true, seen.insert address)

/-- no aggregate is evaluated by the expression or by the function lineage below it; a concept is looked through once, so
lineage is not followed deeper than there are concepts -/
def Expr.isScalar (env : Environment) (materialized : NameSet) (e : Expr) : Bool :=
  (e.scalarBy (env.looksScalar materialized (env.concepts.size + 1)) ∅).1

/-- the condition can be evaluated row by row; membership tests always can -/
def Condition.isScalar (env : Environment) (materialized : NameSet) : Condition → Bool
  | .comparison l _ r => l.isScalar env materialized && r.isScalar env materialized
  | .membership _ _ _ => true
  | .and l r => l.isScalar env materialized && r.isScalar env materialized
  | .or l r => l.isScalar env materialized && r.isScalar env materialized
  | .not c => c.isScalar env materialized

end SemanticPlanner
