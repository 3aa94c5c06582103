/-
Identifiers of relations, and what is made of two resolutions under one identifier.

An identifier is made of the kind, the sources, the last names of the grain and a digest of the condition
(`identifierOf`). Two resolutions of the same relation are put together by `mergedWith`.
-/
import SemanticPlanner.Digest.Sha256
import SemanticPlanner.Relation.Basic

namespace SemanticPlanner

/-- the first eight hexadecimal digits of a condition's digest -/
def Condition.shortDigest (c : Condition) : String := String.ofList ((Sha256.hex c.display).toList.take 8)

/-- the identifier of a relation over `sources`; a select does not name its kind unless it has no sources -/
def Relation.identifierOf (kind : String) (sources : List RelationSource) (grain : Grain)
    (condition : Option Condition) : String :=
  let base :=
    if sources.isEmpty then kind
    else
      let joined := Text.join "_join_" (sources.map RelationSource.identifier)
      if kind = "select" then joined else kind ++ "_" ++ joined
  let base :=
    if grain.isAbstract then base
    else base ++ "_at_" ++ Text.join "_" (grain.components.toList.map Address.nameOf)
  match condition with
  | some c => base ++ "_filtered_" ++ c.shortDigest
  | none => base

namespace Relation

/-- the source of an identifier, the first of several -/
def source? (r : Relation) (identifier : String) : Option RelationSource :=
  r.sources.find? fun s => s.identifier == identifier

/-- two maps put together, the names of each key united -/
def uniteMaps (m n : NameMap NameSet) : NameMap NameSet :=
  n.toList.foldl (fun m e => m.update e.1 ∅ fun s => s.union e.2) m

/-- two resolutions of one relation put together: a column is hidden only if both hide it, and partial if it is so on
each side that has it -/
def mergedWith (a b : Relation) : Relation :=
  { a with
    outputs := addAllNew a.outputs b.outputs
    inputs := addAllNew a.inputs b.inputs
    conceptMap := uniteMaps a.conceptMap b.conceptMap
    hidden := a.hidden.inter b.hidden
    partials := (b.partials.filter fun c => !a.outputs.contains c).foldl addNew
      (a.partials.filter fun c => b.partials.contains c || !b.outputs.contains c) }

end Relation

end SemanticPlanner
