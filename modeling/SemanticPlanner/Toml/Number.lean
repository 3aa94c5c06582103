/-
Numbers and dates of a settings file.

An integer fits 128 bits, with a sign or without; it may be written to base 16, 8 or 2, and underscores may stand
between digits. A float is one of the finite doubles unless it is spelled out as infinite. A number beyond these is
unreadable. A date or time must be one of the calendar and the clock, and is kept as a record that no setting is read
from.
-/
import SemanticPlanner.Toml.Text

namespace SemanticPlanner.Toml

/-- digits with single underscores between them -/
def grouped (isDigit : Char → Bool) : List Char → Option (List Char)
  | [] => none
  | [c] => if isDigit c then some [c] else none
  | c :: '_' :: r => if isDigit c then (grouped isDigit r).map (c :: ·) else none
  | c :: d :: r => if isDigit c then (grouped isDigit (d :: r)).map (c :: ·) else none

def ofDigits (base : Nat) (cs : List Char) : Nat := cs.foldl (fun n c => n * base + (Json.hexValue c).getD 0) 0

/-- an integer of 128 bits -/
def fitting (n : Int) : Json :=
  if -170141183460469231731687303715884105728 ≤ n && n < 340282366920938463463374607431768211456 then .integer n
  else .unreadable

def isBelow (base : Nat) (c : Char) : Bool := (Json.hexValue c).any fun d => decide (d < base)

/-- an integer written to another base -/
def based (base : Nat) (cs : List Char) : Option Json := do
  pure (fitting (ofDigits base (← grouped (isBelow base) cs)))

/-- decimal digits without a leading zero -/
def decimal (cs : List Char) : Option (List Char) := do
  match ← grouped Json.isDigit cs with
  | '0' :: _ :: _ => none
  | ds => some ds

/-- the sign of a number, and the rest -/
def sign : List Char → Bool × List Char
  | '-' :: r => (true, r)
  | '+' :: r => (false, r)
  | r => (false, r)

/-- the exponent of a float -/
def exponent (cs : List Char) : Option Int := do
  let (down, r) := sign cs
  let n : Int := ofDigits 10 (← grouped Json.isDigit r)
  pure (if down then -n else n)

/-- the double nearest to a significand times a power of ten; powers far beyond the doubles are not computed -/
def power (significand : Nat) (e : Int) : Float :=
  if significand = 0 ∨ e < -400 - (significand.log2 : Int) then 0
  else if 400 < e then 1 / 0
  else Float.ofScientific significand (decide (e < 0)) e.natAbs

/-- a float: whole digits, then a fraction, an exponent, or both -/
def float (negative : Bool) (cs : List Char) : Option Json := do
  let whole := cs.takeWhile fun c => c != '.' && c != 'e' && c != 'E'
  let rest := cs.dropWhile fun c => c != '.' && c != 'e' && c != 'E'
  let ds ← decimal whole
  let (fraction, rest) ← match rest with
    | '.' :: r => do
      let f ← grouped Json.isDigit (r.takeWhile fun c => c != 'e' && c != 'E')
      pure (f, r.dropWhile fun c => c != 'e' && c != 'E')
    | r => pure ([], r)
  let e ← match rest with
    | [] => if fraction.isEmpty then none else pure 0
    | _ :: r => exponent r
  let x := power (ofDigits 10 (ds ++ fraction)) (e - fraction.length)
  pure (if x.isInf then .unreadable else .fraction (if negative then -x else x))

/-! ## Dates and times -/

/-- a number of just so many digits -/
def digits (count : Nat) (cs : List Char) : Option (Nat × List Char) :=
  let ds := cs.takeWhile Json.isDigit
  if ds.length = count then some (ofDigits 10 ds, cs.dropWhile Json.isDigit) else none

/-- the same, after a mark -/
def marked (mark : Char) (count : Nat) : List Char → Option (Nat × List Char)
  | c :: r => if c == mark then digits count r else none
  | [] => none

def isLeap (year : Nat) : Bool := year % 4 == 0 && (year % 100 != 0 || year % 400 == 0)

def monthLength (year month : Nat) : Nat :=
  match month with
  | 2 => if isLeap year then 29 else 28
  | 4 | 6 | 9 | 11 => 30
  | _ => 31

/-- what follows a date of the calendar -/
def afterDate (cs : List Char) : Option (List Char) := do
  let (year, r) ← digits 4 cs
  let (month, r) ← marked '-' 2 r
  let (day, r) ← marked '-' 2 r
  if 1 ≤ month && month ≤ 12 && 1 ≤ day && day ≤ monthLength year month then pure r else none

/-- what follows hours and minutes -/
def afterMinutes (cs : List Char) : Option (List Char) := do
  let (hour, r) ← digits 2 cs
  let (minute, r) ← marked ':' 2 r
  if hour < 24 && minute < 60 then pure r else none

/-- what follows a time of day; the seconds may be missing, or have a fraction, and may be those of a leap second -/
def afterTime (cs : List Char) : Option (List Char) := do
  let r ← afterMinutes cs
  match r with
  | ':' :: _ =>
    let (second, r) ← marked ':' 2 r
    if 60 < second then none
    else match r with
      | '.' :: f => if Json.isDigit (f.headD ' ') then pure (f.dropWhile Json.isDigit) else none
      | _ => pure r
  | _ => pure r

/-- an offset from universal time, or none -/
def isOffset : List Char → Bool
  | [] => true
  | '+' :: r => afterMinutes r == some []
  | '-' :: r => afterMinutes r == some []
  | r => r == ['Z'] || r == ['z']

/-- a date, a time, or both -/
def isMoment (cs : List Char) : Bool :=
  match afterDate cs with
  | some [] => true
  | some (c :: r) => (c == 'T' || c == 't' || c == ' ') && (afterTime r).any isOffset
  | none => afterTime cs == some []

def moment (cs : List Char) : Json := .object [("moment", .text (String.ofList cs))]

/-- what a bare word stands for -/
def bareValue (cs : List Char) : Option Json :=
  if isMoment cs then some (moment cs)
  else match cs with
    | '0' :: 'x' :: r => based 16 r
    | '0' :: 'o' :: r => based 8 r
    | '0' :: 'b' :: r => based 2 r
    | _ =>
      let (negative, r) := sign cs
      match String.ofList r with
      | "inf" => some (.fraction (if negative then -(1 / 0) else 1 / 0))
      | "nan" => some (.fraction (0 / 0))
      | _ =>
        match decimal r with
        | some ds => some (fitting (if negative then -(ofDigits 10 ds : Int) else ofDigits 10 ds))
        | none => float negative r

/-- the characters that a bare word is made of -/
def isWord (c : Char) : Bool := c.isAlphanum || c == '_' || c == '-' || c == '+' || c == '.' || c == ':'

/-- a bare word at the head of the input; a date may go on after one space -/
def bareWord (cs : List Char) : List Char × List Char :=
  let first := cs.takeWhile isWord
  let rest := cs.dropWhile isWord
  match rest with
  | ' ' :: c :: r =>
    if afterDate first == some [] && Json.isDigit c then
      (first ++ ' ' :: (c :: r).takeWhile isWord, (c :: r).dropWhile isWord)
    else (first, rest)
  | _ => (first, rest)

end SemanticPlanner.Toml
