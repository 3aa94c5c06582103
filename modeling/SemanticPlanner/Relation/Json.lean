/-
Relations read from JSON, where everything but the identifier may be missing.
-/
import SemanticPlanner.Relation.Basic

namespace SemanticPlanner

namespace Json

/-- a map from names -/
def asNameMap {α : Type} (item : Decoder α) : Decoder (NameMap α)
  | .object ms => do pure (SortedMap.ofList (← ms.mapM fun m => do pure (m.1, ← item m.2)))
  | _ => none

/-- a member that has to be there -/
def memberAs {α : Type} (j : Json) (name : String) (item : Decoder α) : Option α := (j.member? name).bind item

end Json

def ConceptPair.ofJson? : Json.Decoder ConceptPair
  | .array [.text left, .text right, .text existing] => some ⟨left, right, existing⟩
  | _ => none

def UnnestJoin.ofJson? : Json.Decoder UnnestJoin := fun j => do
  pure ⟨← j.memberAs "unnest" Json.asTexts, ← j.memberAs "alias" Json.asText⟩

def BaseJoin.ofJson? : Json.Decoder BaseJoin := fun j => do
  pure ⟨← j.memberOr "left" none (Json.asOption Json.asText), ← j.memberAs "right" Json.asText,
    ← j.memberOr "type" .inner JoinKind.ofJson?, ← j.memberOr "pairs" [] (Json.asList ConceptPair.ofJson?)⟩

def RelationJoin.ofJson? : Json.Decoder RelationJoin := fun j =>
  if (j.field? "unnest").isSome then (UnnestJoin.ofJson? j).map unnest else (BaseJoin.ofJson? j).map base

namespace Relation

mutual

/-- a relation whose sources nest at most `fuel` deep -/
def ofJsonWithin : Nat → Json.Decoder Relation
  | 0, _ => none
  | fuel + 1, j => do
    pure
      { identifier := ← j.memberAs "id" Json.asText
        kind := ← j.memberOr "type" .select SourceKind.ofJson?
        inputs := ← j.memberOr "in" [] Json.asTexts
        outputs := ← j.memberOr "out" [] Json.asTexts
        hidden := ← j.memberOr "hidden" ∅ Json.asNames
        partials := ← j.memberOr "partial" [] Json.asTexts
        nullables := ← j.memberOr "nullable" [] Json.asTexts
        sources := ← j.memberOr "sources" [] (Json.asList (sourceWithin fuel))
        conceptMap := ← j.memberOr "map" ∅ (Json.asNameMap Json.asNames)
        joins := ← j.memberOr "joins" [] (Json.asList RelationJoin.ofJson?)
        grain := ← j.memberOr "grain" Grain.single Grain.ofListOrJson?
        condition := ← j.memberOr "condition" none (Json.asOption Condition.ofJson?)
        forceGroup := ← j.memberOr "force_group" none (Json.asOption Json.asBool) }

/-- a source: the one member of an object, a datasource or a relation -/
def sourceWithin : Nat → Json.Decoder RelationSource
  | 0, _ => none
  | fuel + 1, j =>
    match j.field? "datasource", j.field? "query" with
    | some d, _ => (Datasource.ofJson? d).map .datasource
    | none, some r => (ofJsonWithin fuel r).map .query
    | none, none => none

end

def ofJson? : Json.Decoder Relation := ofJsonWithin 128

end Relation

def RelationSource.ofJson? : Json.Decoder RelationSource := Relation.sourceWithin 128

end SemanticPlanner
