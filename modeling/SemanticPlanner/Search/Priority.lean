/-
Which concept of a search is sourced next, and with which companions.

Concepts are picked by tier and then by address. One that another remaining concept is computed from waits, so
consumers come before what they are computed from. The companions of a pick are the concepts worth sourcing in the
same node.
-/
import SemanticPlanner.Environment.Basic

namespace SemanticPlanner

/-- the tiers of concepts, first picked first; a single-row constant needs no join and can end a search early -/
inductive Tier where
  | singleRowConstant
  | multiselect
  | rowset
  | union
  | aggregate
  | window
  | filter
  | unnest
  | recursive
  | basic
  | groupTo
  | constant
  | root
deriving DecidableEq, Repr, Inhabited

namespace Tier

def order : List Tier :=
  [singleRowConstant, multiselect, rowset, union, aggregate, window, filter, unnest, recursive, basic, groupTo,
    constant, root]

/-- the place of a tier in the pick order -/
def rank : Tier → Nat
  | singleRowConstant => 0
  | multiselect => 1
  | rowset => 2
  | union => 3
  | aggregate => 4
  | window => 5
  | filter => 6
  | unnest => 7
  | recursive => 8
  | basic => 9
  | groupTo => 10
  | constant => 11
  | root => 12

def title : Tier → String
  | singleRowConstant => "SingleRowConstant"
  | multiselect => "Multiselect"
  | rowset => "Rowset"
  | union => "Union"
  | aggregate => "Aggregate"
  | window => "Window"
  | filter => "Filter"
  | unnest => "Unnest"
  | recursive => "Recursive"
  | basic => "Basic"
  | groupTo => "GroupTo"
  | constant => "Constant"
  | root => "Root"

def of (c : Concept) : Tier :=
  match c.derivation with
  | .constant => if c.isSingleRow then singleRowConstant else constant
  | .multiselect => multiselect
  | .rowset => rowset
  | .union => union
  | .aggregate => aggregate
  | .window => window
  | .filter => filter
  | .unnest => unnest
  | .recursive => recursive
  | .basic => basic
  | .groupTo => groupTo
  | .root => root

end Tier

namespace Environment

/-- the addresses of every output of the rowset that a concept belongs to -/
def rowsetSiblings (env : Environment) (address : String) : List String :=
  match env.lineage? address with
  | some (.rowset r) => (r.select.output.filterMap env.find?).map (rowsetAddress r.rowset)
  | _ => []

/-- what has been found of the inputs of a concept -/
structure Inputs where
  found : NameSet := ∅
  /-- the concepts whose arguments are followed already -/
  entered : NameSet := ∅
deriving Inhabited

/-- an argument is found, with all outputs of its rowset if it is one of them, and then followed -/
def followInput (env : Environment) (follow : Inputs → Concept → Inputs) (s : Inputs) (address : String) : Inputs :=
  match env.find? address with
  | none => s
  | some c => follow { s with found := (s.found.insertAll (env.rowsetSiblings address)).insert c.address } c

/-- the arguments of a concept and what they are computed from added, followed at most `fuel` deep -/
def collectInputs (env : Environment) : Nat → Inputs → Concept → Inputs
  | 0, s, _ => s
  | fuel + 1, s, c =>
    if s.entered.contains c.address then s
    else c.arguments.foldl (env.followInput (collectInputs env fuel)) { s with entered := s.entered.insert c.address }

/-- what a concept is computed from in one or more steps; a concept is entered once, so no way is longer than there are
concepts -/
def inputsOf (env : Environment) (c : Concept) : NameSet := (env.collectInputs (env.concepts.size + 1) {} c).found

end Environment

namespace Priority

/-- the concepts left to source, in pick order -/
def remaining (cs : List Concept) (attempted found : NameSet) : List Concept :=
  sortOn (fun c => ((Tier.of c).rank, c.address))
    (cs.filter fun c => !attempted.contains c.address && !found.contains c.address)

/-- the next concept to source: the first that no other remaining one is computed from, or else the first -/
def next (env : Environment) (cs : List Concept) (attempted found : NameSet) : Option Concept :=
  let left := remaining cs attempted found
  let inputs : NameSet := left.foldl (fun s c => s.union (env.inputsOf c)) ∅
  (left.find? fun c => !inputs.contains c.address).or left.head?

/-- every pick in turn, each then counted as attempted -/
def picks (env : Environment) (cs : List Concept) (found : NameSet) : Nat → NameSet → List String
  | 0, _ => []
  | fuel + 1, attempted =>
    match next env cs attempted found with
    | none => []
    | some c => c.address :: picks env cs found fuel (attempted.insert c.address)

/-- the whole pick order of a list -/
def sequence (env : Environment) (cs : List Concept) (attempted found : NameSet) : List String :=
  picks env cs found (cs.length + 1) attempted

end Priority

/-! ## Companions -/

/-- a concept that can be joined to `picked` and is not just another name for it -/
def Concept.isCompanionOf (picked : Concept) (exhausted : NameSet) (c : Concept) : Bool :=
  !exhausted.contains c.address && !c.isSingleRow && !picked.pseudonyms.contains c.address
    && !c.pseudonyms.contains picked.address

/-- the companions of a picked concept.

A single row needs no join, so it takes no companions and is none. A root or constant brings the row arguments of the
condition first, so that its node can evaluate the condition. -/
def companions (env : Environment) (picked : Concept) (candidates : List Concept) (exhausted : NameSet)
    (condition : Option Condition) : Except PlanningError (List Concept) := do
  if picked.isSingleRow then return []
  let fitting := candidates.filter (picked.isCompanionOf exhausted)
  match condition with
  | none => return fitting
  | some c =>
    if !picked.isPlain then return fitting
    let read ← env.conceptsFor c.rowArguments
    return Concept.unique ((read ++ fitting).filter fun x => x.address != picked.address)

end SemanticPlanner
