/-
What can go wrong while a query is planned or a plan is optimized, and how each cause is worded.
-/
import SemanticPlanner.Text.Split

namespace SemanticPlanner

/-- a failure of planning -/
inductive PlanningError where
  | unresolvable (concepts : List String)
  /-- several incomparable sets of bridging concepts link the targets -/
  | ambiguous (targets : List String) (candidates : List (List String))
  | selfReference (address : String)
  | joinOrder (left right : String)
  | conditionMismatch (held need : String)
  | iterationLimit (stage : String) (limit : Nat)
  | cyclicPlan (node : String)
  | depthExceeded (limit : Nat)
  | undefinedConcept (address : String)
  | invalidPseudonym (concept pseudonym : String)
  | unknownDatasource (identifier : String)
  | invalidLineage (address reason : String)
deriving DecidableEq, Repr, Inhabited

namespace PlanningError

/-- the name of the cause -/
def kind : PlanningError → String
  | unresolvable _ => "Unresolvable"
  | ambiguous _ _ => "Ambiguous"
  | selfReference _ => "SelfReference"
  | joinOrder _ _ => "JoinOrder"
  | conditionMismatch _ _ => "ConditionMismatch"
  | iterationLimit _ _ => "IterationLimit"
  | cyclicPlan _ => "CyclicPlan"
  | depthExceeded _ => "DepthExceeded"
  | undefinedConcept _ => "UndefinedConcept"
  | invalidPseudonym _ _ => "InvalidPseudonym"
  | unknownDatasource _ => "UnknownDatasource"
  | invalidLineage _ _ => "InvalidLineage"

/-- a candidate set in braces -/
def braced (names : List String) : String := "\x7b" ++ Text.join ", " names ++ "\x7d"

def message : PlanningError → String
  | unresolvable cs => "Could not resolve connections between [" ++ Text.join ", " cs ++ "]"
  | ambiguous ts cs =>
    "Ambiguous join path for [" ++ Text.join ", " ts ++ "]: multiple bridging concept sets "
      ++ Text.join " vs " (cs.map braced)
  | selfReference a => "Concept " ++ a ++ " references itself through its lineage"
  | joinOrder l r => "Unresolvable join order: " ++ l ++ " and " ++ r ++ " each require the other first"
  | conditionMismatch h n => "Condition mismatch: have " ++ h ++ ", need " ++ n
  | iterationLimit s l => s ++ " did not converge within " ++ toString l ++ " iterations"
  | cyclicPlan n => "Plan node " ++ n ++ " would become its own ancestor"
  | depthExceeded l => "Search depth exceeded limit of " ++ toString l
  | undefinedConcept a => "Undefined concept: " ++ a
  | invalidPseudonym c p => "Concept " ++ c ++ " has invalid pseudonym " ++ p
  | unknownDatasource d => "Unknown datasource: " ++ d
  | invalidLineage a r => "Invalid lineage for " ++ a ++ ": " ++ r

end PlanningError

end SemanticPlanner
