/-
Reading JSON text.

Blanks are space, tab, line feed and carriage return. Texts hold no control characters, and nothing follows the value.
Escapes make Unicode scalar values, a surrogate only as half of a pair, and arrays and objects nest at most 127 deep.
What breaks one of these two rules is unreadable but well written, and so is an object with a name that does.
-/
import SemanticPlanner.Json.Number

namespace SemanticPlanner.Json

def isSpace (c : Char) : Bool := c == ' ' || c == '\t' || c == '\n' || c == '\r'

def skip (cs : List Char) : List Char := cs.dropWhile isSpace

def hexValue (c : Char) : Option Nat :=
  if '0' ≤ c && c ≤ '9' then some (c.toNat - '0'.toNat)
  else if 'a' ≤ c && c ≤ 'f' then some (c.toNat - 'a'.toNat + 10)
  else if 'A' ≤ c && c ≤ 'F' then some (c.toNat - 'A'.toNat + 10)
  else none

/-- four hexadecimal digits -/
def hex4 : List Char → Option (Nat × List Char)
  | a :: b :: c :: d :: r => do
    let a ← hexValue a
    let b ← hexValue b
    let c ← hexValue c
    let d ← hexValue d
    pure (((a * 16 + b) * 16 + c) * 16 + d, r)
  | _ => none

/-- the second half of a surrogate pair, as an escape at the head of a text -/
def lowHalf? : List Char → Option (Nat × List Char)
  | '\\' :: 'u' :: r => do
    let (n, r) ← hex4 r
    if 0xDC00 ≤ n && n ≤ 0xDFFF then pure (n - 0xDC00, r) else none
  | _ => none

/-- the character of a four digit escape, with its second half where it is the first of a pair; half a pair is none -/
def escaped (cs : List Char) : Option (Option Char × List Char) := do
  let (n, r) ← hex4 cs
  if 0xDC00 ≤ n && n ≤ 0xDFFF then pure (none, r)
  else if 0xD800 ≤ n && n ≤ 0xDBFF then
    match lowHalf? r with
    | some (m, r) => pure (some (Char.ofNat (0x10000 + (n - 0xD800) * 0x400 + m)), r)
    | none => pure (none, r)
  else pure (some (Char.ofNat n), r)

/-- the character that an escape stands for, given what follows the backslash -/
def escape : List Char → Option (Option Char × List Char)
  | '"' :: r => some (some '"', r)
  | '\\' :: r => some (some '\\', r)
  | '/' :: r => some (some '/', r)
  | 'b' :: r => some (some (Char.ofNat 8), r)
  | 'f' :: r => some (some (Char.ofNat 12), r)
  | 'n' :: r => some (some '\n', r)
  | 'r' :: r => some (some '\r', r)
  | 't' :: r => some (some '\t', r)
  | 'u' :: r => escaped r
  | _ => none

/-- the characters up to the closing quote of a text, last first and with their escapes as written, and what follows -/
def textBody (done : List Char) : List Char → Option (List Char × List Char)
  | [] => none
  | '"' :: r => some (done, r)
  | '\\' :: e :: r => textBody (e :: '\\' :: done) r
  | c :: r => if c.toNat < 0x20 then none else textBody (c :: done) r

/-- the text that its written characters stand for; `done` is what was read, last first, and none once half a surrogate
pair has stood alone -/
def unescaped : Nat → Option (List Char) → List Char → Option (Option String)
  | 0, _, _ => none
  | fuel + 1, done, cs =>
    match cs with
    | [] => some (done.map fun s => String.ofList s.reverse)
    | '\\' :: r =>
      match escape r with
      | some (c, r) => unescaped fuel (done.bind fun s => c.map (· :: s)) r
      | none => none
    | c :: r => unescaped fuel (done.map (c :: ·)) r

/-- a text after its opening quote -/
def quoted (cs : List Char) : Option (Option String × List Char) := do
  let (body, r) ← textBody [] cs
  pure (← unescaped (body.length + 1) (some []) body.reverse, r)

/-- the characters of a word, taken off the head of a text -/
def dropWord : List Char → List Char → Option (List Char)
  | [], cs => some cs
  | w :: ws, c :: cs => if w == c then dropWord ws cs else none
  | _ :: _, [] => none

def word (w : String) (value : Json) (cs : List Char) : Option (Json × List Char) :=
  (dropWord w.toList cs).map (value, ·)

/-- a value that holds no other -/
def scalar : List Char → Option (Json × List Char)
  | '"' :: r => (quoted r).map fun (s, r) => (s.elim .unreadable .text, r)
  | 'n' :: r => word "null" .null ('n' :: r)
  | 't' :: r => word "true" (.bool true) ('t' :: r)
  | 'f' :: r => word "false" (.bool false) ('f' :: r)
  | cs => number cs

/-! ## Values nested too deep -/

/-- where a reader stands that keeps nothing -/
inductive Place where
  | beforeValue
  | beforeName
  | afterValue
deriving DecidableEq, Repr

/-- what is left after the innermost value; `around` says of each bracket still open, the innermost first, whether it is
an object's -/
def passOver : Nat → Place → List Bool → List Char → Option (List Char)
  | 0, _, _, _ => none
  | fuel + 1, .beforeValue, around, cs =>
    match skip cs with
    | '[' :: r =>
      match skip r with
      | ']' :: r => passOver fuel .afterValue around r
      | r => passOver fuel .beforeValue (false :: around) r
    | '\x7b' :: r =>
      match skip r with
      | '\x7d' :: r => passOver fuel .afterValue around r
      | r => passOver fuel .beforeName (true :: around) r
    | cs =>
      match scalar cs with
      | some (_, r) => passOver fuel .afterValue around r
      | none => none
  | fuel + 1, .beforeName, around, cs =>
    match skip cs with
    | '"' :: r =>
      match (quoted r).map fun q => skip q.2 with
      | some (':' :: r) => passOver fuel .beforeValue around r
      | _ => none
    | _ => none
  | _ + 1, .afterValue, [], cs => some cs
  | fuel + 1, .afterValue, isObject :: around, cs =>
    match skip cs with
    | ',' :: r => passOver fuel (if isObject then .beforeName else .beforeValue) (isObject :: around) r
    | ']' :: r => if isObject then none else passOver fuel .afterValue around r
    | '\x7d' :: r => if isObject then passOver fuel .afterValue around r else none
    | _ => none

/-! ## Values -/

/-- an object of the given members, if all their names are readable -/
def ofMembers (ms : List (Option String × Json)) : Json :=
  match ms.mapM fun m => m.1.map (·, m.2) with
  | some ms => .object ms
  | none => .unreadable

mutual

/-- a value; `depth` is how many arrays and objects may still be opened -/
def value : Nat → Nat → List Char → Option (Json × List Char)
  | 0, _, _ => none
  | fuel + 1, depth, cs =>
    match skip cs with
    | '[' :: r =>
      if depth == 0 then (passOver (2 * cs.length + 2) .beforeValue [] cs).map (.unreadable, ·)
      else match skip r with
        | ']' :: r => some (.array [], r)
        | r => (items fuel (depth - 1) r).map fun (xs, r) => (.array xs, r)
    | '\x7b' :: r =>
      if depth == 0 then (passOver (2 * cs.length + 2) .beforeValue [] cs).map (.unreadable, ·)
      else match skip r with
        | '\x7d' :: r => some (.object [], r)
        | r => (members fuel (depth - 1) r).map fun (ms, r) => (ofMembers ms, r)
    | cs => scalar cs

/-- the items of an array up to its closing bracket; there is at least one -/
def items : Nat → Nat → List Char → Option (List Json × List Char)
  | 0, _, _ => none
  | fuel + 1, depth, cs => do
    let (x, r) ← value fuel depth cs
    match skip r with
    | ',' :: r => do
      let (xs, r) ← items fuel depth r
      pure (x :: xs, r)
    | ']' :: r => pure ([x], r)
    | _ => none

/-- the members of an object up to its closing brace; there is at least one -/
def members : Nat → Nat → List Char → Option (List (Option String × Json) × List Char)
  | 0, _, _ => none
  | fuel + 1, depth, cs => do
    match skip cs with
    | '"' :: r =>
      let (k, r) ← quoted r
      match skip r with
      | ':' :: r =>
        let (v, r) ← value fuel depth r
        match skip r with
        | ',' :: r => do
          let (ms, r) ← members fuel depth r
          pure ((k, v) :: ms, r)
        | '\x7d' :: r => pure ([(k, v)], r)
        | _ => none
      | _ => none
    | _ => none

end

/-- how deep arrays and objects may nest -/
def depthLimit : Nat := 127

/-- the value a whole text holds -/
def read (source : String) : Option Json :=
  let cs := source.toList
  match value (2 * cs.length + 2) depthLimit cs with
  | some (j, r) => if (skip r).isEmpty then some j else none
  | none => none

end SemanticPlanner.Json
