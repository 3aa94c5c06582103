/-
Grain: the set of concepts at which rows are unique, with an optional condition attached.

A grain without components is abstract, a single row. The condition takes no part in equality or in `isSubset`.
-/
import SemanticPlanner.Term.Condition
import SemanticPlanner.Order.SortedMap

namespace SemanticPlanner

structure Grain where
  components : NameSet
  condition : Option Condition := none
deriving Inhabited

namespace Grain

instance : BEq Grain := ⟨fun g h => decide (g.components = h.components)⟩

/-- the grain of the listed components -/
def ofList (components : List String) : Grain := ⟨SortedSet.ofList components, none⟩

/-- the single-row grain -/
def single : Grain := ⟨SortedSet.empty, none⟩

def isAbstract (g : Grain) : Bool := g.components.isEmpty

def contains (g : Grain) (address : String) : Bool := g.components.contains address

def size (g : Grain) : Nat := g.components.size

/-- both grains' components; the first condition there is -/
def union (g h : Grain) : Grain := ⟨g.components.union h.components, g.condition.or h.condition⟩

def diff (g h : Grain) : Grain := ⟨g.components.diff h.components, g.condition⟩

/-- rows at this grain are already unique at `h` -/
def isSubset (g h : Grain) : Bool := g.components.isSubset h.components

/-- the union of a list of grains -/
def unionAll (gs : List Grain) : Grain := gs.foldl union single

/-- the text without the condition, by which graph nodes are told apart -/
def fingerprint (g : Grain) : String :=
  if g.isAbstract then "Grain<Abstract>" else "Grain<" ++ Text.join "," g.components.toList ++ ">"

def display (g : Grain) : String :=
  match g.condition with
  | some c => g.fingerprint ++ "|" ++ c.display
  | none => g.fingerprint

def ofJson? : Json.Decoder Grain := fun j => do
  let f ← Json.asFields ["components", "condition"] j
  pure ⟨← f.withDefault "components" SortedSet.empty Json.asNames, ← f.optional "condition" Condition.ofJson?⟩

/-- a grain, or just the list of its components -/
def ofListOrJson? : Json.Decoder Grain
  | .array xs => (Json.asTexts (.array xs)).map ofList
  | j => ofJson? j

def toJson (g : Grain) : Json :=
  .object (("components", Json.texts g.components.toList) ::
    (match g.condition with
    | some c => [("condition", c.toJson)]
    | none => []))

end Grain

end SemanticPlanner
