import FlowTree.Number.Binary64

/-!
# FlowTree.Number.Shortest

The fewest decimal digits that read back as a given binary64 number.

The reals that round to a number form an interval; its ends belong to it when
the significand is even.  A decimal grid `10 ^ k` serves when one of the two grid
points around the number lies in that interval.  The coarsest grid that serves
gives the digits:

* `Binary64.pointOn` — the grid point chosen on one grid, the nearer of two hits,
  a tie going to the even point;
* `Binary64.shortest` — the digits and the power of ten of the coarsest grid.
-/

namespace FlowTree

/-- A decimal `digits * 10 ^ exponent`. -/
structure Decimal where
  digits : Nat
  exponent : Int
  deriving DecidableEq, Repr

namespace Binary64

/-- A number and the ends of its rounding interval, as numerators over one
denominator, in units of a power of ten. -/
structure Interval where
  low : Nat
  value : Nat
  high : Nat
  den : Nat
  closed : Bool

/-- The rounding interval of a number other than zero, in units of `10 ^ k`.
The lower end is nearer where the significand is the least of its binade. -/
def interval (x : Binary64) (k : Int) : Interval :=
  let (up, den) := scaleDown 1 1 (2 - x.exponent)
  let (num, den) :=
    if 0 ≤ k then (up, den * Nat.pow 10 k.toNat) else (up * Nat.pow 10 (-k).toNat, den)
  let below := if x.significand = leastNormal ∧ leastExponent < x.exponent then 1 else 2
  { low := (4 * x.significand - below) * num
    value := 4 * x.significand * num
    high := (4 * x.significand + 2) * num
    den
    closed := x.significand % 2 = 0 }

/-- Whether the grid point `d` lies in the interval. -/
def Interval.holds (i : Interval) (d : Nat) : Bool :=
  let p := d * i.den
  (i.low < p || (i.closed && i.low == p)) && (p < i.high || (i.closed && p == i.high))

/-- The grid point of `10 ^ k` that stands for the number, if one of its two
neighbours on that grid reads back. -/
def pointOn (x : Binary64) (k : Int) : Option Nat :=
  let i := x.interval k
  let d := i.value / i.den
  match i.holds d, i.holds (d + 1) with
  | true, true => some (roundDiv i.value i.den)
  | true, false => some d
  | false, true => some (d + 1)
  | false, false => none

/-- Walks from the grid `10 ^ k` to finer ones, `steps` of them at most. -/
def coarsest (x : Binary64) : Nat → Int → Decimal
  | 0, k => ⟨0, k⟩
  | steps + 1, k =>
    match x.pointOn k with
    | some d => ⟨d, k⟩
    | none => coarsest x steps (k - 1)

/-- A power of ten above the number: `30103 / 100000` is just above `log10 2`. -/
def powerAbove (x : Binary64) : Int :=
  ((Nat.log2 x.significand : Int) + 1 + x.exponent) * 30103 / 100000 + 1

/-- The shortest decimal that reads back as a number other than zero.  From the
first grid tried, twenty steps reach one of seventeen digits. -/
def shortest (x : Binary64) : Decimal := x.coarsest 20 x.powerAbove

end Binary64

end FlowTree
