/-
Row conditions.

A conjunction splits into its terms (`terms`) and is rebuilt from them (`ofTerms`); `holdsIn` says that a condition is
one of the AND-ed parts of another. Row arguments must be present on the row, existence arguments are sourced on
their own for membership tests.
-/
import SemanticPlanner.Term.Expr

namespace SemanticPlanner

/-- a boolean condition on rows -/
inductive Condition where
  | comparison (left : Expr) (op : ComparisonOp) (right : Expr)
  /-- membership in the values of another concept, which has its own row context -/
  | membership (left : Expr) (op : ComparisonOp) (right : String)
  | and (left right : Condition)
  | or (left right : Condition)
  | not (inner : Condition)
deriving Inhabited

namespace Condition

/-! ## Equality -/

def same : Condition → Condition → Bool
  | comparison l o r, comparison l' o' r' => l == l' && decide (o = o') && r == r'
  | membership l o r, membership l' o' r' => l == l' && decide (o = o') && decide (r = r')
  | and l r, and l' r' => same l l' && same r r'
  | or l r, or l' r' => same l l' && same r r'
  | not c, not c' => same c c'
  | _, _ => false

instance : BEq Condition := ⟨same⟩

/-! ## Arguments -/

/-- the addresses read from the row, added to `out` where they are new -/
def collectRow (out : List String) : Condition → List String
  | comparison l _ r => r.collect (l.collect out)
  | membership l _ _ => l.collect out
  | and l r => collectRow (collectRow out l) r
  | or l r => collectRow (collectRow out l) r
  | not c => collectRow out c

/-- concepts that must be on the row, in first-seen order -/
def rowArguments (c : Condition) : List String := collectRow [] c

/-- the sides of membership tests, added to `out` where they are new -/
def collectExistence (out : List String) : Condition → List String
  | comparison _ _ _ => out
  | membership _ _ r => addNew out r
  | and l r => collectExistence (collectExistence out l) r
  | or l r => collectExistence (collectExistence out l) r
  | not c => collectExistence out c

/-- concepts sourced on their own for membership tests -/
def existenceArguments (c : Condition) : List String := collectExistence [] c

/-- every concept mentioned, row arguments first -/
def concepts (c : Condition) : List String := addAllNew c.rowArguments c.existenceArguments

/-! ## Conjunctions -/

/-- an optional condition AND-ed with one more -/
def conjoin (existing : Option Condition) (new : Condition) : Condition :=
  match existing with
  | some c => and c new
  | none => new

/-- the independent terms of a conjunction -/
def terms : Condition → List Condition
  | and l r => terms l ++ terms r
  | c => [c]

/-- the conjunction of terms, left to right; none for no terms -/
def ofTerms (ts : List Condition) : Option Condition := ts.foldl (fun acc t => some (conjoin acc t)) none

/-- `c` is `parent` or one of its AND-ed parts -/
def holdsIn (c : Condition) : Condition → Bool
  | and l r => c == and l r || holdsIn c l || holdsIn c r
  | parent => c == parent

/-- `c` is an AND-ed part of a condition that may be absent -/
def holdsInOption (c : Condition) (parent : Option Condition) : Bool := parent.any c.holdsIn

/-! ## Replacing a concept by a literal -/

/-- whether the row is read at `address` -/
def mentions (address : String) : Condition → Bool
  | comparison l _ r => l.mentions address || r.mentions address
  | membership l _ _ => l.mentions address
  | and l r => mentions address l || mentions address r
  | or l r => mentions address l || mentions address r
  | not c => mentions address c

/-- every row reference to `address` replaced by `value` -/
def inline (address : String) (value : Literal) : Condition → Condition
  | comparison l o r => comparison (l.inline address value) o (r.inline address value)
  | membership l o r => membership (l.inline address value) o r
  | and l r => and (inline address value l) (inline address value r)
  | or l r => or (inline address value l) (inline address value r)
  | not c => not (inline address value c)

/-- whether anything was replaced, and the condition afterwards -/
def inlineLiteral (address : String) (value : Literal) (c : Condition) : Bool × Condition :=
  (c.mentions address, c.inline address value)

/-! ## Written form -/

def display : Condition → String
  | comparison l o r => l.display ++ " " ++ o.sign ++ " " ++ r.display
  | membership l o r => l.display ++ " " ++ o.sign ++ " (select " ++ r ++ ")"
  | and l r => "(" ++ display l ++ " and " ++ display r ++ ")"
  | or l r => "(" ++ display l ++ " or " ++ display r ++ ")"
  | not c => "not " ++ display c

/-! ## Files -/

/-- a condition nested at most `fuel` deep -/
def ofJsonWithin : Nat → Json.Decoder Condition
  | 0, _ => none
  | fuel + 1, j => do
    let pair : Json.Decoder (Condition × Condition)
      | .array [l, r] => do pure (← ofJsonWithin fuel l, ← ofJsonWithin fuel r)
      | _ => none
    match ← Json.asVariant j with
    | ("comparison", some v) =>
      let f ← Json.asFields ["left", "op", "right"] v
      pure (comparison (← f.required "left" Expr.ofJson?) (← f.required "op" ComparisonOp.ofJson?)
        (← f.required "right" Expr.ofJson?))
    | ("subselect", some v) =>
      let f ← Json.asFields ["left", "op", "right"] v
      pure (membership (← f.required "left" Expr.ofJson?) (← f.required "op" ComparisonOp.ofJson?)
        (← f.required "right" Json.asText))
    | ("and", some v) => (pair v).map fun (l, r) => and l r
    | ("or", some v) => (pair v).map fun (l, r) => or l r
    | ("not", some v) => (ofJsonWithin fuel v).map not
    | _ => none

def ofJson? : Json.Decoder Condition := ofJsonWithin 128

def toJson : Condition → Json
  | comparison l o r =>
    .object [("comparison", .object [("left", l.toJson), ("op", .text o.name), ("right", r.toJson)])]
  | membership l o r =>
    .object [("subselect", .object [("left", l.toJson), ("op", .text o.name), ("right", .text r)])]
  | and l r => .object [("and", .array [toJson l, toJson r])]
  | or l r => .object [("or", .array [toJson l, toJson r])]
  | not c => .object [("not", toJson c)]

end Condition

end SemanticPlanner
