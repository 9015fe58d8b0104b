import FlowTree.Json.Value
import FlowTree.Number.Shortest

/-!
# FlowTree.Json.Numeral

Numbers of a JSON text: what is written, what it stands for, and how a number is
written again.

A numeral without fraction and exponent stands for an integer as long as it fits
in 64 bits, signed or unsigned; every other numeral, `-0` among them, stands for
a binary64 number.  That number is found in two roundings: the leading digits
that fit in 64 bits are rounded first, then their product with, or quotient by, a
rounded power of ten.

* `Numeral.number?` — the number of a numeral, `none` where it exceeds every
  finite binary64 number;
* `JsonNumber.render` — integers in full, binary64 numbers with the fewest digits
  that read back.
-/

namespace FlowTree

/-- A number as it is written: digits, each below ten, and an exponent. -/
structure Numeral where
  negative : Bool
  whole : List Nat
  fraction : List Nat
  exponent : Option Int
  deriving DecidableEq, Repr

namespace Numeral

/-- The number that a row of decimal digits denotes. -/
def ofDigits (digits : List Nat) : Nat := digits.foldl (fun n d => 10 * n + d) 0

/-- One past the largest unsigned number of 64 bits. -/
def wordLimit : Nat := Nat.pow 2 64

/-! ## Leading digits -/

/-- Digits taken so far, and the power of ten that they still have to be
multiplied by. -/
structure Scaled where
  significand : Nat
  exponent : Int

/-- Takes digits before the point.  From the first one that does not fit in 64
bits on, a digit only raises the power of ten. -/
def takeWhole : Nat → List Nat → Scaled
  | n, [] => ⟨n, 0⟩
  | n, d :: rest =>
    if 10 * n + d < wordLimit then takeWhole (10 * n + d) rest
    else ⟨n, (rest.length : Int) + 1⟩

/-- Takes digits behind the point.  From the first one that does not fit in 64
bits on, digits are passed over. -/
def takeFraction : Scaled → List Nat → Scaled
  | s, [] => s
  | s, d :: rest =>
    if 10 * s.significand + d < wordLimit then
      takeFraction ⟨10 * s.significand + d, s.exponent - 1⟩ rest
    else s

/-- The leading digits of a numeral with their power of ten. -/
def scaled (n : Numeral) : Scaled :=
  let s := takeFraction (takeWhole 0 n.whole) n.fraction
  ⟨s.significand, s.exponent + n.exponent.getD 0⟩

/-! ## Rounding -/

/-- The largest power of ten among the finite numbers. -/
def largestPower : Nat := 308

/-- `x / 10 ^ e`, in steps of the largest power of ten; a number that has become
zero stays zero. -/
def divideByPower (x : Binary64) (e : Nat) : Option Binary64 :=
  if e ≤ largestPower then do x.div (← Binary64.ofNat (Nat.pow 10 e))
  else if x.isZero then some x
  else do
    let y ← x.div (← Binary64.ofNat (Nat.pow 10 largestPower))
    divideByPower y (e - largestPower)
termination_by e
decreasing_by simp_all [largestPower]; omega

/-- `x * 10 ^ e`; only zero can be multiplied by more than the largest power. -/
def multiplyByPower (x : Binary64) (e : Nat) : Option Binary64 :=
  if e ≤ largestPower then do x.mul (← Binary64.ofNat (Nat.pow 10 e))
  else if x.isZero then some x
  else none

/-- The binary64 number of a numeral. -/
def double? (n : Numeral) : Option Binary64 := do
  let s := n.scaled
  let x ← Binary64.ofNat s.significand
  let y ← if s.exponent < 0 then divideByPower x s.exponent.natAbs
    else multiplyByPower x s.exponent.natAbs
  return { y with negative := n.negative }

/-- The number of a numeral. -/
def number? (n : Numeral) : Option JsonNumber :=
  let value := ofDigits n.whole
  if n.fraction.isEmpty && n.exponent.isNone && !n.negative && value < wordLimit then
    some (.int value)
  else if n.fraction.isEmpty && n.exponent.isNone && n.negative
      && 0 < value && value ≤ Nat.pow 2 63 then
    some (.int (-value))
  else n.double?.map .double

end Numeral

/-! ## Writing -/

/-- How a binary64 number is laid out: which decimal exponents are written with
a point among the digits, and the sign of a power of ten otherwise. -/
structure NumberLayout where
  leastPositional : Int
  mostPositional : Int
  plusSign : String

/-- Numbers of a document have their point among the digits from `0.00001` up to
sixteen digits before it, and an exponent always has a sign. -/
def documentLayout : NumberLayout := ⟨-5, 15, "+"⟩

namespace NumberLayout

/-- Digits with a point so that the first digit has the weight `10 ^ e`; there is
always a digit on either side of the point. -/
def positional (digits : List Char) (e : Int) : List Char :=
  if e < 0 then '0' :: '.' :: (List.replicate (e.natAbs - 1) '0' ++ digits)
  else
    let whole := e.natAbs + 1
    let before := digits.take whole ++ List.replicate (whole - digits.length) '0'
    let after := digits.drop whole
    before ++ '.' :: (if after.isEmpty then ['0'] else after)

/-- Digits with a point behind the first one, and a power of ten. -/
def scientific (layout : NumberLayout) (digits : List Char) (e : Int) : List Char :=
  let fraction := digits.drop 1
  digits.take 1 ++ (if fraction.isEmpty then [] else '.' :: fraction) ++ 'e' ::
    ((if e < 0 then ['-'] else layout.plusSign.toList) ++ (toString e.natAbs).toList)

/-- A binary64 number with the fewest digits that read back. -/
def render (layout : NumberLayout) (x : Binary64) : String :=
  let sign := if x.negative then ['-'] else []
  if x.isZero then String.ofList (sign ++ positional ['0'] 0)
  else
    let shortest := x.shortest
    let digits := (toString shortest.digits).toList
    let e := shortest.exponent + digits.length - 1
    String.ofList (sign ++
      (if layout.leastPositional ≤ e ∧ e ≤ layout.mostPositional then positional digits e
        else layout.scientific digits e))

end NumberLayout

/-- A number as it is written into a text. -/
def JsonNumber.render : JsonNumber → String
  | .int value => toString value
  | .double value => documentLayout.render value

end FlowTree
