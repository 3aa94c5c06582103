/-
Texts and keys of a settings file.

A text stands in one or in three quotes. Between double quotes a backslash starts an escape; between single quotes
every character stands for itself. A text in three quotes may run over several lines, which keep the line ends they are
written with.
-/
import SemanticPlanner.Json.Reader

namespace SemanticPlanner.Toml

/-- a space or a tab -/
def isSpace (c : Char) : Bool := c == ' ' || c == '\t'

def skipSpaces (cs : List Char) : List Char := cs.dropWhile isSpace

/-- the characters that may not stand as they are -/
def isControl (c : Char) : Bool := (c.toNat < 0x20 && c != '\t') || c.toNat == 0x7f

/-- the rest of a text after the end of a line, if one stands at its head -/
def lineEnd? : List Char → Option (List Char)
  | '\n' :: r => some r
  | '\r' :: '\n' :: r => some r
  | _ => none

/-- a number of hexadecimal digits -/
def hexDigits : Nat → Nat → List Char → Option (Nat × List Char)
  | 0, n, cs => some (n, cs)
  | k + 1, n, c :: r => do hexDigits k (n * 16 + (← Json.hexValue c)) r
  | _ + 1, _, [] => none

/-- the character that an escape stands for, given what follows the backslash -/
def escape : List Char → Option (Char × List Char)
  | 'b' :: r => some (Char.ofNat 8, r)
  | 't' :: r => some ('\t', r)
  | 'n' :: r => some ('\n', r)
  | 'f' :: r => some (Char.ofNat 12, r)
  | 'r' :: r => some ('\r', r)
  | 'e' :: r => some (Char.ofNat 27, r)
  | '"' :: r => some ('"', r)
  | '\\' :: r => some ('\\', r)
  | 'x' :: r => scalar 2 r
  | 'u' :: r => scalar 4 r
  | 'U' :: r => scalar 8 r
  | _ => none
where
  /-- a Unicode scalar value of the given number of digits -/
  scalar (digits : Nat) (cs : List Char) : Option (Char × List Char) := do
    let (n, r) ← hexDigits digits 0 cs
    if h : n.isValidChar then pure (Char.ofNatAux n h, r) else none

/-- the rest of a text on one line; `done` is what was read, last first -/
def lineText (quote : Char) : Nat → List Char → List Char → Option (String × List Char)
  | 0, _, _ => none
  | fuel + 1, done, cs =>
    match cs with
    | [] => none
    | c :: r =>
      if c == quote then some (String.ofList done.reverse, r)
      else if c == '\\' && quote == '"' then do
        let (e, r) ← escape r
        lineText quote fuel (e :: done) r
      else if isControl c then none
      else lineText quote fuel (c :: done) r

/-- spaces and line ends, as a backslash at the end of a line passes over them -/
def skipLines : Nat → List Char → List Char
  | 0, cs => cs
  | fuel + 1, cs =>
    match lineEnd? (skipSpaces cs) with
    | some r => skipLines fuel r
    | none => skipSpaces cs

/-- the rest of a text in three quotes; up to two quotes may stand before the closing ones -/
def blockText (quote : Char) : Nat → List Char → List Char → Option (String × List Char)
  | 0, _, _ => none
  | fuel + 1, done, cs =>
    match cs with
    | [] => none
    | c :: r =>
      if c == quote then
        let quotes := (cs.takeWhile fun x => x == quote).length
        if quotes < 3 then blockText quote fuel (c :: done) r
        else if quotes ≤ 5 then
          some (String.ofList ((List.replicate (quotes - 3) quote ++ done).reverse), cs.drop quotes)
        else none
      else if c == '\\' && quote == '"' then
        match lineEnd? (skipSpaces r) with
        | some r => blockText quote fuel done (skipLines (r.length + 1) r)
        | none => do
          let (e, r) ← escape r
          blockText quote fuel (e :: done) r
      else if isControl c && (lineEnd? cs).isNone then none
      else blockText quote fuel (c :: done) r

/-- a text at the head of the input -/
def text? : List Char → Option (String × List Char)
  | '"' :: '"' :: '"' :: r => blockText '"' (r.length + 1) [] ((lineEnd? r).getD r)
  | '\'' :: '\'' :: '\'' :: r => blockText '\'' (r.length + 1) [] ((lineEnd? r).getD r)
  | '"' :: r => lineText '"' (r.length + 1) [] r
  | '\'' :: r => lineText '\'' (r.length + 1) [] r
  | _ => none

/-! ## Keys -/

def isBare (c : Char) : Bool := c.isAlphanum || c == '_' || c == '-'

/-- one part of a key: bare, or a text on one line -/
def keyPart : List Char → Option (String × List Char)
  | '"' :: r => lineText '"' (r.length + 1) [] r
  | '\'' :: r => lineText '\'' (r.length + 1) [] r
  | cs =>
    let name := cs.takeWhile isBare
    if name.isEmpty then none else some (String.ofList name, cs.dropWhile isBare)

/-- a key of at most so many parts, with dots between them -/
def keyWithin : Nat → List Char → Option (List String × List Char)
  | 0, _ => none
  | limit + 1, cs => do
    let (part, r) ← keyPart (skipSpaces cs)
    match skipSpaces r with
    | '.' :: r => do
      let (parts, r) ← keyWithin limit r
      pure (part :: parts, r)
    | r => pure ([part], r)

/-- a key of a line or a header; it has at most 80 parts -/
def key (cs : List Char) : Option (List String × List Char) := keyWithin 80 cs

end SemanticPlanner.Toml
