/-
Whether numeric ranges together cover every number exactly once.

Ranges are taken by their start. No gap between one and the next may be wider than one step, and no range may start
before the one before it ends. Integers below 2^52 are compared exactly. Any other numbers are compared as doubles. Open
ranges of doubles end at the infinities, so that a number which is infinite itself is no different from an open end.
-/
import SemanticPlanner.Order.Sorts
import SemanticPlanner.Term.Literal
import SemanticPlanner.Term.Operator

namespace SemanticPlanner

/-- an end of a range of whole numbers -/
inductive Limit where
  /-- below every number -/
  | low
  | at (n : Int)
  /-- above every number -/
  | high

namespace Limit

/-- more than a step lies between two limits -/
def isGap : Limit → Limit → Bool
  | low, low => false
  | low, _ => true
  | .at _, low => false
  | .at a, .at b => decide (1 < b - a)
  | .at _, high => true
  | high, _ => false

def isBefore : Limit → Limit → Bool
  | low, low => false
  | low, _ => true
  | .at _, low => false
  | .at a, .at b => decide (a < b)
  | .at _, high => true
  | high, _ => false

def later (x y : Limit) : Limit := if x.isBefore y then y else x

/-- the place of a limit in order -/
def rank : Limit → Nat × Int
  | low => (0, 0)
  | .at a => (1, a)
  | high => (2, 0)

end Limit

namespace Double

def infinity : Float := 1 / 0

/-- the later of two doubles; one that is not a number gives way to the other -/
def later (x y : Float) : Float := if x.isNaN then y else if y.isNaN then x else if x < y then y else x

/-- the order of doubles by sign and magnitude, with what is no number beyond the infinities -/
def rank (x : Float) : Int :=
  let bits := x.toBits.toNat
  if 2 * bits < UInt64.size then bits else UInt64.size / 2 - 1 - bits

end Double

/-- numbers, the ends of ranges of them, and how a sweep over ranges compares ends -/
structure Scale (ν α : Type) where
  /-- the ends of what is open below and above -/
  low : α
  high : α
  /-- a number as an end, and the ends a step below and above it -/
  place : ν → α
  below : ν → α
  above : ν → α
  /-- more than a step lies between two ends -/
  isGap : α → α → Bool
  isBefore : α → α → Bool
  later : α → α → α
  isHigh : α → Bool
  rank : α → Nat × Int

namespace Scale

/-- the whole numbers -/
def whole : Scale Int Limit where
  low := .low
  high := .high
  place := .at
  below n := .at (n - 1)
  above n := .at (n + 1)
  isGap := Limit.isGap
  isBefore := Limit.isBefore
  later := Limit.later
  isHigh x := !x.isBefore .high
  rank := Limit.rank

/-- the doubles, with a step of their own; no gap is where the difference is no number, as between like infinities -/
def double (step : Float) : Scale Float Float where
  low := -Double.infinity
  high := Double.infinity
  place := id
  below x := x - step
  above x := x + step
  isGap x y := decide (step < y - x)
  isBefore x y := decide (x < y)
  later := Double.later
  isHigh x := decide (Double.infinity ≤ x)
  rank x := (0, Double.rank x)

variable {ν α : Type}

/-- ranges in order follow an end without gap or overlap, up to the top -/
def follows (s : Scale ν α) : α → List (α × α) → Bool
  | last, [] => s.isHigh last
  | last, (start, stop) :: rest =>
    !s.isGap last start && !s.isBefore start last && s.follows (s.later last stop) rest

/-- the ranges cover everything, once -/
def covers (s : Scale ν α) (ranges : List (α × α)) : Bool :=
  s.follows s.low (sortOn (fun r => (s.rank r.1, s.rank r.2)) ranges)

/-- the numbers that compare so to a value, where they form a range -/
def rangeOf (s : Scale ν α) (op : ComparisonOp) (a : ν) : Option (α × α) :=
  match op with
  | .gt => some (s.above a, s.high)
  | .gte => some (s.place a, s.high)
  | .lt => some (s.low, s.below a)
  | .lte => some (s.low, s.place a)
  | .eq => some (s.place a, s.place a)
  | _ => none

/-- comparisons that hold of every number, of each for exactly one of them -/
def partitions (s : Scale ν α) (comparisons : List (ComparisonOp × ν)) : Bool :=
  match comparisons.mapM fun c => s.rangeOf c.1 c.2 with
  | some ranges => s.covers ranges
  | none => false

end Scale

namespace Literal

/-- an integer that a double holds exactly, with its neighbours -/
def small? : Literal → Option Int
  | integer n => if -4503599627370496 < n && n < 4503599627370496 then some n else none
  | _ => none

end Literal

/-- comparisons with integers that partition the integers -/
def partitionsIntegers (comparisons : List (ComparisonOp × Literal)) : Bool :=
  match comparisons.mapM fun c => c.2.small?.map (c.1, ·) with
  | some exact => Scale.whole.partitions exact
  | none => (Scale.double 1).partitions (comparisons.filterMap fun c => c.2.number?.map (c.1, ·))

/-- comparisons with numbers that partition the floats, which are told apart to seven places -/
def partitionsFloats (comparisons : List (ComparisonOp × Literal)) : Bool :=
  (Scale.double (Float.ofScientific 1 true 7)).partitions (comparisons.filterMap fun c => c.2.number?.map (c.1, ·))

end SemanticPlanner
