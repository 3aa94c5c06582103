/-
Addresses: dotted names of concepts, `namespace.name`.

A bare name belongs to the namespace `local` (`qualify`). The last dot divides namespace from name; an address
without a dot is all name.
-/
import SemanticPlanner.Text.Split

namespace SemanticPlanner.Address

/-- the namespace of a bare name -/
def defaultNamespace : String := "local"

def hasDot (text : String) : Bool := text.toList.contains '.'

/-- the address of a name: a bare one is put in the default namespace -/
def qualify (text : String) : String := if hasDot text then text else defaultNamespace ++ "." ++ text

/-- the characters before and after the last dot -/
def splitLast : List Char → Option (List Char × List Char)
  | [] => none
  | c :: r =>
    match splitLast r with
    | some (a, b) => some (c :: a, b)
    | none => if c = '.' then some ([], r) else none

def namespaceOf (address : String) : String :=
  match splitLast address.toList with
  | some (a, _) => String.ofList a
  | none => defaultNamespace

/-- what follows the last dot, or the whole address -/
def nameOf (address : String) : String :=
  match splitLast address.toList with
  | some (_, b) => String.ofList b
  | none => address

/-- the pieces between the dots; never empty -/
def segments (address : String) : List String := Text.splitAt '.' address

/-- the address with every dot written as an underscore -/
def underscored (address : String) : String := address.map fun c => if c = '.' then '_' else c

/-! ## Laws -/

theorem hasDot_qualify (text : String) : hasDot (qualify text) = true := by
  unfold qualify
  split
  · assumption
  · simp [hasDot, defaultNamespace]

/-- a qualified address stays as it is -/
theorem qualify_qualify (text : String) : qualify (qualify text) = qualify text := by
  have h := hasDot_qualify text
  generalize qualify text = q at h
  simp [qualify, h]

end SemanticPlanner.Address
