/-
Sourcing a concept by its derivation, after a direct match of datasources was tried.
-/
import SemanticPlanner.Sourcing.Derived
import SemanticPlanner.Sourcing.Direct
import SemanticPlanner.Sourcing.Filter
import SemanticPlanner.Sourcing.Multiselect
import SemanticPlanner.Sourcing.Root
import SemanticPlanner.Sourcing.Rowset
import SemanticPlanner.Sourcing.Union

namespace SemanticPlanner

/-- a direct match of datasources, remembered by its key -/
def matchOnce : Search := fun r => do
  match ← Planning.recallMatch r.key with
  | some outcome => pure outcome
  | none =>
    let found ← Direct.source r
    Planning.storeMatch r.key found
    pure found

/-- a concept sourced by its derivation, one level deeper than it was asked for -/
def sourceDerived (search : Search) (picked : Concept) (r : Request) : Planning (Option PlanId) :=
  let t : Task := ⟨picked, r.concepts.drop 1, r.depth, r.condition⟩
  match picked.derivation with
  | .window => Derived.window search t
  | .filter => Filter.source search t
  | .unnest => Derived.unnest search t
  | .recursive => Derived.recursion search t
  | .union => Union.source search t
  | .rowset => Rowset.source search t
  | .multiselect => Multiselect.source search t
  -- single rows cannot be grouped along
  | .aggregate => Derived.aggregate search { t with companions := t.companions.filter fun c => !c.isSingleRow }
  | .basic => Derived.function search t
  | .groupTo => Derived.regroup search t
  | .root => Root.source search r
  | .constant => Root.source search r

/-- a node for a picked concept, with its companions where they can come along -/
def sourceConcept (search : Search) (picked : Concept) (companions : List Concept) (depth : Nat) (acceptPartial : Bool)
    (condition : Option Condition) : Planning (Option PlanId) := do
  let r : Request := ⟨picked :: companions, depth + 1, acceptPartial, condition⟩
  match ← matchOnce r with
  | some id => pure (some id)
  | none => sourceDerived search picked r

end SemanticPlanner
