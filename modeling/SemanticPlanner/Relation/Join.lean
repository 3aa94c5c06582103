/-
The kinds of relational steps and the joins between their sources.
-/
import SemanticPlanner.Concept.Datasource

namespace SemanticPlanner

/-- the kind of step a relation performs -/
inductive SourceKind where
  | select | group | filter | window | unnest | recursive | union | merge | constant
deriving DecidableEq, Repr, Inhabited

namespace SourceKind

def name : SourceKind → String
  | select => "select"
  | group => "group"
  | filter => "filter"
  | window => "window"
  | unnest => "unnest"
  | recursive => "recursive"
  | union => "union"
  | merge => "merge"
  | constant => "constant"

def all : List SourceKind := [select, group, filter, window, unnest, recursive, union, merge, constant]

def ofJson? : Json.Decoder SourceKind := Json.asName (all.map fun k => (k.name, k))

end SourceKind

inductive JoinKind where
  | inner | leftOuter | full | cross
deriving DecidableEq, Repr, Inhabited

namespace JoinKind

/-- the written form -/
def display : JoinKind → String
  | inner => "inner"
  | leftOuter => "left outer"
  | full => "full"
  | cross => "cross"

/-- the name in files -/
def name : JoinKind → String
  | inner => "inner"
  | leftOuter => "left_outer"
  | full => "full"
  | cross => "cross"

def all : List JoinKind := [inner, leftOuter, full, cross]

def ofJson? : Json.Decoder JoinKind := Json.asName (all.map fun k => (k.name, k))

end JoinKind

/-- an equality of a join; `existing` is the left source that `left` is read from -/
structure ConceptPair where
  left : String
  right : String
  existing : String
deriving DecidableEq, Repr, Inhabited

/-- a join of two sources, by identifier -/
structure BaseJoin where
  /-- none where the keys come from several left sources -/
  left : Option String
  right : String
  kind : JoinKind
  pairs : List ConceptPair
deriving DecidableEq, Repr, Inhabited

namespace BaseJoin

/-- the left keys, each once -/
def keys (j : BaseJoin) : List String := distinct (j.pairs.map ConceptPair.left)

def pairText (p : ConceptPair) : String := if p.left = p.right then p.left else p.left ++ "=" ++ p.right

def display (j : BaseJoin) : String :=
  j.kind.display ++ " join " ++ j.left.getD "*" ++ " to " ++ j.right ++ " on ["
    ++ Text.join ", " (j.pairs.map pairText) ++ "]"

end BaseJoin

/-- an array expansion joined onto the rows -/
structure UnnestJoin where
  concepts : List String
  label : String
deriving DecidableEq, Repr, Inhabited

inductive RelationJoin where
  | base (j : BaseJoin)
  | unnest (j : UnnestJoin)
deriving DecidableEq, Repr, Inhabited

/-- the join of two sources, if it is one -/
def RelationJoin.base? : RelationJoin → Option BaseJoin
  | base j => some j
  | unnest _ => none

end SemanticPlanner
