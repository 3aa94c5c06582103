/-
Reading JSON numbers.

An integer that fits 64 bits stays an integer; `-0`, and any integer beyond that range, is read as a float. A float
is the reader's product of significand and power of ten: the leading digits that fit 64 bits make the significand,
later ones only move the exponent, and the significand is multiplied or divided by the nearest double to the power.
A result beyond the doubles is unreadable.
-/
import SemanticPlanner.Json.Value

namespace SemanticPlanner.Json

/-- the greatest significand that is kept -/
def significandLimit : Nat := UInt64.size - 1

def isDigit (c : Char) : Bool := '0' ≤ c && c ≤ '9'

def digitValue (c : Char) : Nat := c.toNat - '0'.toNat

/-- a significand, the power of ten it is multiplied by, and the digits after the one that did not fit -/
structure Scan where
  significand : Nat
  exponent : Int
  rest : List Char

/-- whole digits, up to the first that does not fit -/
def wholeDigits (significand : Nat) : List Char → Nat × List Char
  | [] => (significand, [])
  | c :: r =>
    if isDigit c && significand * 10 + digitValue c ≤ significandLimit then
      wholeDigits (significand * 10 + digitValue c) r
    else (significand, c :: r)

/-- digits after the point; those that do not fit are passed over -/
def pointDigits (significand : Nat) (exponent : Int) : List Char → Scan
  | [] => ⟨significand, exponent, []⟩
  | c :: r =>
    if isDigit c then
      if significand * 10 + digitValue c ≤ significandLimit then
        pointDigits (significand * 10 + digitValue c) (exponent - 1) r
      else ⟨significand, exponent, (c :: r).dropWhile isDigit⟩
    else ⟨significand, exponent, c :: r⟩

/-- the significand times a power of ten, in doubles; none beyond them -/
def scaled : Nat → Float → Int → Option Float
  | 0, f, _ => some f
  | fuel + 1, f, e =>
    if e.natAbs ≤ 308 then
      let power := Float.ofScientific 1 false e.natAbs
      if 0 ≤ e then
        let v := f * power
        if v.isInf then none else some v
      else some (f / power)
    else if f == 0 then some f
    else if 0 ≤ e then none
    else scaled fuel (f / Float.ofScientific 1 false 308) (e + 308)

def signed (negative : Bool) (f : Float) : Float := if negative then -f else f

def float (negative : Bool) (significand : Nat) (exponent : Int) : Json :=
  match scaled (exponent.natAbs + 1) (Float.ofNat significand) exponent with
  | some f => .fraction (signed negative f)
  | none => .unreadable

/-- what follows the mark of an exponent -/
def exponentPart (negative : Bool) (significand : Nat) (exponent : Int) (cs : List Char) : Option (Json × List Char) :=
  let (down, cs) := match cs with
    | '+' :: r => (false, r)
    | '-' :: r => (true, r)
    | _ => (false, cs)
  let ds := cs.takeWhile isDigit
  let rest := cs.dropWhile isDigit
  if ds.isEmpty then none
  else
    let e := ds.foldl (fun n c => n * 10 + digitValue c) 0
    if 2 * e < UInt32.size then
      some (float negative significand (exponent + (if down then -(e : Int) else e)), rest)
    -- an exponent beyond 32 bits leaves nothing, or zero
    else if significand == 0 || down then some (.fraction (signed negative 0), rest)
    else some (.unreadable, rest)

/-- what follows the whole digits of a float -/
def fractionPart (negative : Bool) (significand : Nat) (exponent : Int) : List Char → Option (Json × List Char)
  | '.' :: cs =>
    if (cs.headD ' ' |> isDigit) then
      let s := pointDigits significand exponent cs
      match s.rest with
      | c :: r =>
        if c == 'e' || c == 'E' then exponentPart negative s.significand s.exponent r
        else some (float negative s.significand s.exponent, s.rest)
      | [] => some (float negative s.significand s.exponent, [])
    else none
  | c :: r =>
    if c == 'e' || c == 'E' then exponentPart negative significand exponent r
    else some (float negative significand exponent, c :: r)
  | [] => some (float negative significand exponent, [])

/-- a whole number that ends here -/
def whole (negative : Bool) (significand : Nat) : Json :=
  if !negative then .integer significand
  else if significand == 0 || UInt64.size < 2 * significand then .fraction (-(Float.ofNat significand))
  else .integer (-(significand : Int))

/-- a number without its sign -/
def unsigned (negative : Bool) (cs : List Char) : Option (Json × List Char) :=
  let finish (significand : Nat) (rest : List Char) : Option (Json × List Char) :=
    match rest with
    | c :: _ =>
      if c == '.' || c == 'e' || c == 'E' then fractionPart negative significand 0 rest
      else some (whole negative significand, rest)
    | [] => some (whole negative significand, [])
  match cs with
  | '0' :: rest => if isDigit (rest.headD ' ') then none else finish 0 rest
  | c :: _ =>
    if isDigit c then
      let (significand, rest) := wholeDigits 0 cs
      if isDigit (rest.headD ' ') then
        let unread := (rest.takeWhile isDigit).length
        fractionPart negative significand unread (rest.dropWhile isDigit)
      else finish significand rest
    else none
  | [] => none

/-- a number at the head of a text -/
def number : List Char → Option (Json × List Char)
  | '-' :: r => unsigned true r
  | cs => unsigned false cs

end SemanticPlanner.Json
