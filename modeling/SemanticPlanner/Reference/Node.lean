/-
Nodes of the reference graph: a concept at a grain, or a datasource.

Concept nodes are listed before datasource nodes, by address and then by the text of their grain.
-/
import SemanticPlanner.Concept.Datasource

namespace SemanticPlanner

inductive GraphNode where
  /-- a concept at a grain, the grain by its text without condition -/
  | concept (address grain : String)
  | datasource (name : String)
deriving DecidableEq, Repr, Inhabited

namespace GraphNode

/-- the key that nodes are ordered by -/
def sortKey : GraphNode → Nat × String × String
  | concept a g => (0, a, g)
  | datasource n => (1, n, "")

theorem sortKey_injective (a b : GraphNode) (h : sortKey a = sortKey b) : a = b := by
  cases a <;> cases b <;> simp_all [sortKey]

instance : Sorts GraphNode := Sorts.ofKey sortKey sortKey_injective

/-- the node of a concept at its own grain -/
def ofConcept (c : Concept) : GraphNode := concept c.address c.grain.fingerprint

/-- the node of an address at a grain -/
def atGrain (address : String) (grain : Grain) : GraphNode := concept address grain.fingerprint

def isConcept : GraphNode → Bool
  | concept _ _ => true
  | datasource _ => false

def isDatasource (n : GraphNode) : Bool := !n.isConcept

/-- the address of a concept node -/
def address? : GraphNode → Option String
  | concept a _ => some a
  | datasource _ => none

def display : GraphNode → String
  | concept a g => "c~" ++ a ++ "@" ++ g
  | datasource n => "ds~" ++ n

end GraphNode

/-- what a datasource node stands for -/
inductive GraphSource where
  | single (d : Datasource)
  /-- compatible partial datasources whose conditions together cover every row -/
  | union (ds : List Datasource)
deriving Inhabited

namespace GraphSource

def unionName (ds : List Datasource) : String := Text.join "-" (ds.map Datasource.identifier)

def name : GraphSource → String
  | single d => d.identifier
  | union ds => unionName ds

def grain : GraphSource → Grain
  | single d => d.grain
  | union ds => Grain.unionAll (ds.map Datasource.grain)

end GraphSource

end SemanticPlanner
