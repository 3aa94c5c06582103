/-
Tables of a settings file while they are being filled.

A table is opened by a header, by the headers of tables in it, or by the dots of a key. No name is given two values,
and no table is opened twice: a header may only take over a table that other headers brought about. A dotted key puts
its value into a table that dotted keys opened; on the way there it may also pass through a table that other headers
brought about and through the latest of a list, but not through a table with a header of its own.
-/
import SemanticPlanner.Json.Value

namespace SemanticPlanner.Toml

/-- how a table came about -/
inductive Opening where
  /-- by its own header -/
  | header
  /-- by the header of a table in it -/
  | nested
  /-- by a dotted key -/
  | dotted
deriving DecidableEq, Repr

/-- an entry of a table -/
inductive Node where
  | value (v : Json)
  | table (opening : Opening) (entries : List (String × Node))
  /-- a list of tables, the latest first -/
  | tables (items : List (List (String × Node)))

abbrev Entries := List (String × Node)

namespace Entries

def get? (es : Entries) (name : String) : Option Node := (es.find? fun e => e.1 == name).map Prod.snd

/-- an entry put in the place of the one of its name, or at the end -/
def put (es : Entries) (name : String) (n : Node) : Entries :=
  if es.any fun e => e.1 == name then es.map fun e => if e.1 == name then (name, n) else e else es ++ [(name, n)]

/-- a value under a dotted key; `isOpen` tells whether values may be put into this very table -/
def setKeyWhere (v : Json) : Bool → List String → Entries → Option Entries
  | _, [], _ => none
  | isOpen, [name], es =>
    match isOpen, get? es name with
    | true, none => some (es.put name (.value v))
    | _, _ => none
  | _, name :: path, es =>
    match get? es name with
    | none => (setKeyWhere v true path []).map fun sub => es.put name (.table .dotted sub)
    | some (.table .header _) => none
    | some (.table o sub) => (setKeyWhere v (o == .dotted) path sub).map fun sub => es.put name (.table o sub)
    | some (.tables (sub :: rest)) =>
      (setKeyWhere v false path sub).map fun sub => es.put name (.tables (sub :: rest))
    | some _ => none

/-- a value under a dotted key of the table that is being filled -/
def setKey (v : Json) (path : List String) (es : Entries) : Option Entries := setKeyWhere v true path es

/-- a function applied to the table that a header's path leads to, the last name apart -/
def descend (f : String → Entries → Option Entries) : List String → Entries → Option Entries
  | [], _ => none
  | [name], es => f name es
  | name :: path, es =>
    match get? es name with
    | none => (descend f path []).map fun sub => es.put name (.table .nested sub)
    | some (.table o sub) => (descend f path sub).map fun sub => es.put name (.table o sub)
    | some (.tables (sub :: rest)) => (descend f path sub).map fun sub => es.put name (.tables (sub :: rest))
    | some _ => none

/-- a table opened by its header -/
def openTable : List String → Entries → Option Entries :=
  descend fun name es =>
    match get? es name with
    | none => some (es.put name (.table .header []))
    | some (.table .nested sub) => some (es.put name (.table .header sub))
    | some _ => none

/-- a table added to a list of tables by its header -/
def addTable : List String → Entries → Option Entries :=
  descend fun name es =>
    match get? es name with
    | none => some (es.put name (.tables [[]]))
    | some (.tables items) => some (es.put name (.tables ([] :: items)))
    | some _ => none

/-- a value set under a key of the table that a header opened; no header means the outermost table -/
def setIn (key : List String) (v : Json) (header : List String) (es : Entries) : Option Entries :=
  match header with
  | [] => setKey v key es
  | _ => descend (fun name es =>
      match get? es name with
      | some (.table o sub) => (setKey v key sub).map fun sub => es.put name (.table o sub)
      | some (.tables (sub :: rest)) => (setKey v key sub).map fun sub => es.put name (.tables (sub :: rest))
      | _ => none) header es

end Entries

mutual

def Node.toJson : Node → Json
  | .value v => v
  | .table _ es => .object (entriesToJson es)
  | .tables items => .array (itemsToJson items).reverse

def entriesToJson : List (String × Node) → List (String × Json)
  | [] => []
  | (k, n) :: es => (k, n.toJson) :: entriesToJson es

def itemsToJson : List (List (String × Node)) → List Json
  | [] => []
  | es :: items => .object (entriesToJson es) :: itemsToJson items

end

end SemanticPlanner.Toml
