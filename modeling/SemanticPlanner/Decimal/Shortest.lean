/-
The shortest decimal that reads back as a given binary float.

A positive finite double is m · 2^q. The reals that round to it form an interval around it whose ends belong to it
when m is even. For one digit, two digits, and so on up to seventeen, the two neighbours of the value on the grid of
decimals with that many digits are tested; the first grid with a hit wins, and of two hits the nearer.
-/
namespace SemanticPlanner.Decimal

/-- a finite double other than zero, as m · 2^q -/
structure Binary where
  m : Nat
  q : Int
  /-- the neighbour below is half as far as the one above -/
  narrow : Bool

/-- what the bits of a double say -/
inductive Shape where
  | zero (negative : Bool)
  | finite (negative : Bool) (value : Binary)
  | infinite (negative : Bool)
  | nan

def shape (x : Float) : Shape :=
  let bits := x.toBits.toNat
  let negative := bits / Nat.pow 2 63 == 1
  let e : Nat := bits / Nat.pow 2 52 % 2048
  let f : Nat := bits % Nat.pow 2 52
  if e == 2047 then (if f == 0 then .infinite negative else .nan)
  else if e == 0 then (if f == 0 then .zero negative else .finite negative ⟨f, -1074, false⟩)
  else .finite negative ⟨Nat.pow 2 52 + f, (e : Int) - 1075, f == 0 && e != 1⟩

/-- digits d₁d₂… with the value d₁.d₂… · 10^exponent -/
structure Digits where
  digits : List Nat
  exponent : Int
deriving DecidableEq, Repr

/-- 10^k · num / den as a fraction, k of either sign -/
def scale (k : Int) (num den : Nat) : Nat × Nat :=
  if 0 ≤ k then (num * Nat.pow 10 k.toNat, den) else (num, den * Nat.pow 10 (-k).toNat)

/-- the greatest e with 10^e ≤ num / den, looked for downwards from `e` -/
def floorLog (num den : Nat) : Nat → Int → Int
  | 0, e => e
  | fuel + 1, e =>
    let (a, b) := scale (-e) num den
    if b ≤ a then e else floorLog num den fuel (e - 1)

/-- the value four times over, as a fraction, and the reach of its interval below and above in quarters of 2^q -/
def Binary.fraction (v : Binary) : Nat × Nat :=
  if 0 ≤ v.q then (4 * v.m * Nat.pow 2 v.q.toNat, 4) else (4 * v.m, 4 * Nat.pow 2 (-v.q).toNat)

/-- whether the decimal c · 10^k rounds to the value -/
def Binary.reads (v : Binary) (c : Nat) (k : Int) : Bool :=
  -- everything in quarters of 2^q: the value is 4m, the interval 4m - 2 (or 1) to 4m + 2
  let unit := if 0 ≤ v.q then Nat.pow 2 v.q.toNat else 1
  let parts := if 0 ≤ v.q then 1 else Nat.pow 2 (-v.q).toNat
  let (a, b) := scale k (4 * c * parts) unit
  let low := 4 * v.m - (if v.narrow then 1 else 2)
  let high := 4 * v.m + 2
  if v.m % 2 == 0 then low * b ≤ a && a ≤ high * b else low * b < a && a < high * b

/-- the decimal digits of a number, most significant first -/
def digitsOf (n : Nat) : List Nat := (Nat.toDigits 10 n).map (fun c => c.toNat - '0'.toNat)

/-- the hit with `n` digits, if there is one -/
def Binary.hit (v : Binary) (top : Int) (n : Nat) : Option Nat :=
  let k := top - n + 1
  let (num, den) := v.fraction
  let (a, b) := scale (-k) num den
  let low := a / b
  -- distances to the value in units of 1/b
  let below := a - low * b
  let above := (low + 1) * b - a
  match v.reads low k, v.reads (low + 1) k with
  | true, true => some (if below < above then low else low + 1)
  | true, false => some low
  | false, true => some (low + 1)
  | false, false => none

/-- the first grid with a hit, from `n` digits on -/
def Binary.search (v : Binary) (top : Int) : Nat → Nat → Nat × Nat
  | 0, n => ((v.hit top n).getD 0, n)
  | fuel + 1, n =>
    match v.hit top n with
    | some c => (c, n)
    | none => Binary.search v top fuel (n + 1)

def dropZeros (ds : List Nat) : List Nat := (ds.reverse.dropWhile (· == 0)).reverse

/-- the shortest digits that read back -/
def Binary.shortest (v : Binary) : Digits :=
  let (num, den) := v.fraction
  let top := floorLog num den 700 310
  let (c, n) := v.search top 17 1
  let ds := digitsOf c
  -- rounding up may have carried into a new leading digit
  ⟨dropZeros ds, top + ds.length - n⟩

/-! ## Written forms -/

/-- how a number with given digits is laid out -/
structure Layout where
  /-- exponents from this one on are written with a mark -/
  scientificFrom : Option Int
  /-- exponents below this one are written with a mark -/
  scientificBelow : Option Int
  /-- a whole value keeps `.0` -/
  keepsPoint : Bool

/-- positional always, whole values without a point -/
def plain : Layout := ⟨none, none, false⟩

/-- positional from 10^-5 up to 10^16, whole values with `.0`, otherwise a mark `e` -/
def compact : Layout := ⟨some 16, some (-5), true⟩

def digitText (ds : List Nat) : String := String.ofList (ds.map fun d => Char.ofNat ('0'.toNat + d))

def zeros (n : Nat) : List Nat := List.replicate n 0

def positional (l : Layout) (d : Digits) : String :=
  if d.exponent < 0 then "0." ++ digitText (zeros (-d.exponent - 1).toNat ++ d.digits)
  else
    let whole := d.exponent.toNat + 1
    if d.digits.length ≤ whole then
      digitText (d.digits ++ zeros (whole - d.digits.length)) ++ (if l.keepsPoint then ".0" else "")
    else digitText (d.digits.take whole) ++ "." ++ digitText (d.digits.drop whole)

/-- one digit before the point, and the exponent with its sign -/
def scientific (d : Digits) : String :=
  let tail := d.digits.drop 1
  digitText (d.digits.take 1) ++ (if tail.isEmpty then "" else "." ++ digitText tail)
    ++ (if d.exponent < 0 then "e" else "e+") ++ toString d.exponent

def Layout.write (l : Layout) (d : Digits) : String :=
  let marked := (match l.scientificFrom with | some e => decide (e ≤ d.exponent) | none => false)
    || (match l.scientificBelow with | some e => decide (d.exponent < e) | none => false)
  if marked then scientific d else positional l d

def sign (negative : Bool) : String := if negative then "-" else ""

/-- a float in a layout; what is not finite has a name -/
def Layout.text (l : Layout) (x : Float) : String :=
  match shape x with
  | .zero negative => sign negative ++ (if l.keepsPoint then "0.0" else "0")
  | .finite negative v => sign negative ++ l.write v.shortest
  | .infinite negative => sign negative ++ "inf"
  | .nan => "NaN"

end SemanticPlanner.Decimal
