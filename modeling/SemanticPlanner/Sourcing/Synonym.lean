/-
Sourcing pseudonyms in the place of targets.

Every combination of targets and their pseudonyms is tried, the most natural first: the one with the most roots, then
the one whose addresses share the most leading segments, then by address.
-/
import SemanticPlanner.Sourcing.Planner
import SemanticPlanner.Text.Address

namespace SemanticPlanner.Synonym

/-- a target and its declared pseudonyms, by address -/
def choices (env : Environment) (c : Concept) : List Concept :=
  sortOn Concept.address (c :: c.pseudonyms.toList.filterMap env.find?)

/-- one item of each list, the last list varying fastest -/
def combinations {α : Type} : List (List α) → List (List α)
  | [] => [[]]
  | options :: rest => options.flatMap fun a => (combinations rest).map (a :: ·)

/-- the number of leading segments that two addresses share -/
def sharedSegments (a b : String) : Nat :=
  (((Address.segments a).zip (Address.segments b)).takeWhile fun p => p.1 == p.2).length

/-- the shared leading segments of every two addresses -/
def similarity : List String → Nat
  | [] => 0
  | a :: rest => (rest.map (sharedSegments a)).foldl (· + ·) 0 + similarity rest

def roots (cs : List Concept) : Nat := (cs.filter Concept.isPlain).length

/-- a combination is at least as natural as another -/
def isMoreNatural (a b : List Concept) : Bool :=
  if roots a != roots b then roots b < roots a
  else
    let x := Concept.addresses a
    let y := Concept.addresses b
    if similarity x != similarity y then similarity y < similarity x else listLE x y

/-- the first combination that can be sourced -/
def firstSourced (search : Search) (r : Request) : List (List Concept) → Planning (Option PlanId)
  | [] => pure none
  | cs :: rest => do
    match ← search { r with concepts := cs } with
    | some id => pure (some id)
    | none => firstSourced search r rest

/-- the combinations with some pseudonym, most natural first; the targets as they are were tried before -/
def candidates (env : Environment) (targets : List Concept) : List (List Concept) :=
  let sorted := sortOn Concept.address targets
  let own := sortOn id (Concept.addresses targets)
  (sortBy isMoreNatural (combinations (sorted.map (choices env)))).filter fun cs =>
    sortOn id (Concept.addresses cs) != own

def source (search : Search) : Search := fun r => do
  let env ← Planning.environment
  if r.concepts.all fun c => c.pseudonyms.toList.all fun p => (env.find? p).isNone then return none
  firstSourced search r (candidates env r.concepts)

end SemanticPlanner.Synonym
