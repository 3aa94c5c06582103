/-
Reading a settings file written in TOML.

`read` gives the tables of a file as one JSON object. A line holds a header, a key with its value, or nothing; a
comment may end it.
-/
import SemanticPlanner.Toml.Number
import SemanticPlanner.Toml.Table

namespace SemanticPlanner.Toml

/-- the rest of a line after a comment, if one stands at its head; none if a control character stands in it -/
def skipComment : List Char → Option (List Char)
  | '#' :: r =>
    let comment := r.takeWhile fun c => c != '\n'
    let body := if comment.getLast? == some '\r' then comment.dropLast else comment
    if body.any isControl then none else some ((if comment.length = body.length then [] else ['\r'])
      ++ r.dropWhile fun c => c != '\n')
  | cs => some cs

/-- spaces, comments and line ends, as they may stand between the parts of an array or an inline table -/
def skipBlank : Nat → List Char → Option (List Char)
  | 0, cs => some cs
  | fuel + 1, cs => do
    let r ← skipComment (skipSpaces cs)
    match lineEnd? r with
    | some r => skipBlank fuel r
    | none => some r

/-- blanks before the next thing -/
def skipBlanks (cs : List Char) : Option (List Char) := skipBlank (cs.length + 1) cs

mutual

/-- a value at the head of the input; `depth` is how many arrays and inline tables may still be opened -/
def value : Nat → Nat → List Char → Option (Json × List Char)
  | 0, _, _ => none
  | fuel + 1, depth, cs =>
    match cs with
    | '"' :: _ => (text? cs).map fun (s, r) => (.text s, r)
    | '\'' :: _ => (text? cs).map fun (s, r) => (.text s, r)
    | '[' :: r => if depth == 0 then none else (items fuel (depth - 1) r).map fun (xs, r) => (.array xs, r)
    | '\x7b' :: r =>
      if depth == 0 then none
      else (members fuel (depth - 1) [] r).map fun (es, r) => (.object (entriesToJson es), r)
    | _ =>
      let (word, r) := bareWord cs
      match String.ofList word with
      | "true" => some (.bool true, r)
      | "false" => some (.bool false, r)
      | _ => (bareValue word).map (·, r)

/-- the items of an array up to its closing bracket; a comma may follow the last -/
def items : Nat → Nat → List Char → Option (List Json × List Char)
  | 0, _, _ => none
  | fuel + 1, depth, cs => do
    match ← skipBlanks cs with
    | ']' :: r => pure ([], r)
    | r =>
      let (x, r) ← value fuel depth r
      match ← skipBlanks r with
      | ',' :: r => do
        let (xs, r) ← items fuel depth r
        pure (x :: xs, r)
      | ']' :: r => pure ([x], r)
      | _ => none

/-- the members of an inline table up to its closing brace; a comma may follow the last -/
def members : Nat → Nat → Entries → List Char → Option (Entries × List Char)
  | 0, _, _, _ => none
  | fuel + 1, depth, es, cs => do
    match ← skipBlanks cs with
    | '\x7d' :: r => pure (es, r)
    | r =>
      let (path, r) ← key r
      match ← skipBlanks r with
      | '=' :: r => do
        let (v, r) ← value fuel depth (← skipBlanks r)
        let es ← es.setKey v path
        match ← skipBlanks r with
        | ',' :: r => members fuel depth es r
        | '\x7d' :: r => pure (es, r)
        | _ => none
      | _ => none

end

/-- the file read so far: the table that is open, by its path, and every entry -/
structure Progress where
  header : List String
  entries : Entries

/-- how deep arrays and inline tables may nest -/
def depthLimit : Nat := 80

/-- a header, or a key with its value, at the head of a line -/
def line (p : Progress) (cs : List Char) : Option (Progress × List Char) := do
  match cs with
  | '[' :: '[' :: r => do
    let (path, r) ← key r
    match r with
    | ']' :: ']' :: r => pure (⟨path, ← p.entries.addTable path⟩, r)
    | _ => none
  | '[' :: r => do
    let (path, r) ← key r
    match r with
    | ']' :: r => pure (⟨path, ← p.entries.openTable path⟩, r)
    | _ => none
  | _ => do
    let (path, r) ← key cs
    match r with
    | '=' :: r => do
      let (v, r) ← value (r.length + 1) depthLimit (skipSpaces r)
      pure (⟨p.header, ← p.entries.setIn path v p.header⟩, r)
    | _ => none

/-- the lines of a file one after the other -/
def lines : Nat → Progress → List Char → Option Entries
  | 0, _, _ => none
  | fuel + 1, p, cs => do
    match ← skipBlanks cs with
    | [] => pure p.entries
    | r =>
      let (p, r) ← line p r
      match ← skipComment (skipSpaces r) with
      | [] => pure p.entries
      | r =>
        match lineEnd? r with
        | some r => lines fuel p r
        | none => none

/-- the tables of a whole file -/
def read (source : String) : Option Json :=
  let cs := source.toList
  let cs := if cs.head? == some (Char.ofNat 0xFEFF) then cs.tail else cs
  (lines (cs.length + 1) ⟨[], []⟩ cs).map fun es => .object (entriesToJson es)

end SemanticPlanner.Toml
