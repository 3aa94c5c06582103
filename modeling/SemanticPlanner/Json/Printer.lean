/-
Writing JSON text: on one line (`compress`) or indented by two spaces (`pretty`).
-/
import SemanticPlanner.Json.Value
import SemanticPlanner.Decimal.Shortest

namespace SemanticPlanner.Json

def hexDigit (n : Nat) : Char := if n < 10 then Char.ofNat ('0'.toNat + n) else Char.ofNat ('a'.toNat + n - 10)

/-- a character inside a quoted text -/
def quoteChar (c : Char) : List Char :=
  if c == '"' then ['\\', '"']
  else if c == '\\' then ['\\', '\\']
  else if c == '\n' then ['\\', 'n']
  else if c == '\r' then ['\\', 'r']
  else if c == '\t' then ['\\', 't']
  else if c.toNat == 8 then ['\\', 'b']
  else if c.toNat == 12 then ['\\', 'f']
  else if c.toNat < 0x20 then ['\\', 'u', '0', '0', hexDigit (c.toNat / 16), hexDigit (c.toNat % 16)]
  else [c]

def quote (s : String) : String := "\"" ++ String.ofList (s.toList.flatMap quoteChar) ++ "\""

/-- a float; one that is not finite has no JSON form but null -/
def floatText (x : Float) : String := if x.isFinite then Decimal.compact.text x else "null"

mutual

def compress : Json → String
  | .null => "null"
  | .bool b => if b then "true" else "false"
  | .integer n => toString n
  | .fraction x => floatText x
  | .text s => quote s
  | .array xs => "[" ++ compressItems xs ++ "]"
  | .object ms => "\x7b" ++ compressMembers ms ++ "\x7d"
  | .unreadable => "null"

def compressItems : List Json → String
  | [] => ""
  | [x] => compress x
  | x :: y :: xs => compress x ++ "," ++ compressItems (y :: xs)

def compressMembers : List (String × Json) → String
  | [] => ""
  | [(k, v)] => quote k ++ ":" ++ compress v
  | (k, v) :: m :: ms => quote k ++ ":" ++ compress v ++ "," ++ compressMembers (m :: ms)

end

def indent (n : Nat) : String := String.ofList (List.replicate (2 * n) ' ')

mutual

/-- the value with its inner lines indented `n` levels deep -/
def prettyAt (n : Nat) : Json → String
  | .null => "null"
  | .bool b => if b then "true" else "false"
  | .integer i => toString i
  | .fraction x => floatText x
  | .text s => quote s
  | .array [] => "[]"
  | .array (x :: xs) => "[\n" ++ prettyItems (n + 1) (x :: xs) ++ "\n" ++ indent n ++ "]"
  | .object [] => "\x7b\x7d"
  | .object (m :: ms) => "\x7b\n" ++ prettyMembers (n + 1) (m :: ms) ++ "\n" ++ indent n ++ "\x7d"
  | .unreadable => "null"

def prettyItems (n : Nat) : List Json → String
  | [] => ""
  | [x] => indent n ++ prettyAt n x
  | x :: y :: xs => indent n ++ prettyAt n x ++ ",\n" ++ prettyItems n (y :: xs)

def prettyMembers (n : Nat) : List (String × Json) → String
  | [] => ""
  | [(k, v)] => indent n ++ quote k ++ ": " ++ prettyAt n v
  | (k, v) :: m :: ms => indent n ++ quote k ++ ": " ++ prettyAt n v ++ ",\n" ++ prettyMembers n (m :: ms)

end

def pretty (j : Json) : String := prettyAt 0 j

end SemanticPlanner.Json
