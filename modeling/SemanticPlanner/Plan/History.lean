/-
What a planning pass remembers of its searches.

A finished search is remembered with the node it found, or as a miss. Nodes are copied when they are stored and again
whenever they are handed out, so nobody changes what is remembered.
-/
import SemanticPlanner.Plan.Copy

namespace SemanticPlanner

/-- what a search is told apart by: its concepts, its acceptance of partial sources, the text of its condition -/
structure SearchKey where
  concepts : NameSet
  acceptPartial : Bool
  condition : Option String
deriving DecidableEq

namespace SearchKey

def of (concepts : List String) (acceptPartial : Bool) (condition : Option Condition) : SearchKey :=
  ⟨SortedSet.ofList concepts, acceptPartial, condition.map Condition.display⟩

end SearchKey

/-- outcomes by key, the latest first; no node means a miss -/
abbrev Outcomes := List (SearchKey × Option PlanId)

namespace Outcomes

/-- a copy of a node where there is one -/
def copyOf (node : Option PlanId) (a : Arena) : Option PlanId × Arena :=
  match node with
  | none => (none, a)
  | some id =>
    let (new, a) := a.copy id
    (some new, a)

/-- an outcome stored in place of any other under its key -/
def store (m : Outcomes) (key : SearchKey) (node : Option PlanId) (a : Arena) : Outcomes × Arena :=
  let (kept, a) := copyOf node a
  ((key, kept) :: m, a)

/-- the outcome under a key, its node copied; nothing where none is stored -/
def lookUp (m : Outcomes) (key : SearchKey) (a : Arena) : Option (Option PlanId) × Arena :=
  match List.lookup key m with
  | none => (none, a)
  | some kept =>
    let (node, a) := copyOf kept a
    (some node, a)

end Outcomes

structure History where
  /-- finished searches -/
  searches : Outcomes := []
  /-- finished attempts to match datasources directly -/
  matched : Outcomes := []
  /-- searches that are under way -/
  started : List SearchKey := []
deriving Inhabited

namespace History

def isStarted (h : History) (key : SearchKey) : Bool := h.started.contains key

/-- a search marked as under way -/
def start (h : History) (key : SearchKey) : History := { h with started := addNew h.started key }

def finish (h : History) (key : SearchKey) : History := { h with started := h.started.filter fun k => k != key }

end History

end SemanticPlanner
