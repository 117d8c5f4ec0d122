import WasmX64.Float.Format

/-!
# Floating-point arithmetic

The operations of the interchange formats on bit patterns.  Finite operands are
taken apart, the exact result is computed over the integers and rounded once.
Every NaN that an operation produces is the canonical one.
-/

namespace WasmX64.FloatFormat

def negate (format : FloatFormat) (bits : Nat) : Nat :=
  format.withSign (!format.isNegative bits) (bits % format.signBit)

def magnitude (format : FloatFormat) (bits : Nat) : Nat :=
  bits % format.signBit

def copySign (format : FloatFormat) (bits sign : Nat) : Nat :=
  format.withSign (format.isNegative sign) (format.magnitude bits)

def signedScaled (negative : Bool) (significand shift : Nat) : Int :=
  let scaled : Int := (significand * Nat.pow 2 shift : Nat)
  if negative then -scaled else scaled

/-- The sum of two patterns.  An exact zero is negative only if both operands are. -/
def add (format : FloatFormat) (left right : Nat) : Nat :=
  match format.view left, format.view right with
  | .notANumber, _ | _, .notANumber => format.canonicalNaN
  | .infinite first, .infinite second => if first = second then left else format.canonicalNaN
  | .infinite _, .finite _ _ _ => left
  | .finite _ _ _, .infinite _ => right
  | .finite firstNegative firstPart firstExponent,
    .finite secondNegative secondPart secondExponent =>
      let exponent := min firstExponent secondExponent
      let sum :=
        signedScaled firstNegative firstPart (firstExponent - exponent).toNat +
          signedScaled secondNegative secondPart (secondExponent - exponent).toNat
      if sum = 0 then format.withSign (firstNegative && secondNegative) 0
      else format.withSign (sum < 0) (format.nearestScaled sum.natAbs exponent)

def sub (format : FloatFormat) (left right : Nat) : Nat :=
  format.add left (format.negate right)

def mul (format : FloatFormat) (left right : Nat) : Nat :=
  let negative := format.isNegative left != format.isNegative right
  match format.view left, format.view right with
  | .notANumber, _ | _, .notANumber => format.canonicalNaN
  | .infinite _, .infinite _ => format.withSign negative format.infinity
  | .infinite _, .finite _ part _ | .finite _ part _, .infinite _ =>
    if part = 0 then format.canonicalNaN else format.withSign negative format.infinity
  | .finite _ firstPart firstExponent, .finite _ secondPart secondExponent =>
    format.withSign negative
      (format.nearestScaled (firstPart * secondPart) (firstExponent + secondExponent))

def div (format : FloatFormat) (left right : Nat) : Nat :=
  let negative := format.isNegative left != format.isNegative right
  match format.view left, format.view right with
  | .notANumber, _ | _, .notANumber => format.canonicalNaN
  | .infinite _, .infinite _ => format.canonicalNaN
  | .infinite _, .finite _ _ _ => format.withSign negative format.infinity
  | .finite _ _ _, .infinite _ => format.withSign negative 0
  | .finite _ firstPart firstExponent, .finite _ secondPart secondExponent =>
    if secondPart = 0 then
      if firstPart = 0 then format.canonicalNaN else format.withSign negative format.infinity
    else
      let exponent := firstExponent - secondExponent
      format.withSign negative
        (if 0 ≤ exponent then format.nearest (firstPart * Nat.pow 2 exponent.toNat) secondPart
          else format.nearest firstPart (secondPart * Nat.pow 2 (-exponent).toNat))

/-- The largest number below `root + 2 ^ bits` that extends `root` and whose square
is at most `value`. -/
def squareRootFrom (value : Nat) : Nat → Nat → Nat
  | 0, root => root
  | bits + 1, root =>
    let next := root + Nat.pow 2 bits
    squareRootFrom value bits (if next * next ≤ value then next else root)

def squareRoot (value : Nat) : Nat :=
  squareRootFrom value (Nat.log2 value / 2 + 1) 0

/-- The square root of a pattern.  The root of the integer is taken with a few bits
more than the format holds; one more bit tells whether it is inexact. -/
def sqrt (format : FloatFormat) (bits : Nat) : Nat :=
  match format.view bits with
  | .notANumber => format.canonicalNaN
  | .infinite negative => if negative then format.canonicalNaN else bits
  | .finite negative part exponent =>
    if part = 0 then bits
    else if negative then format.canonicalNaN
    else
      let odd := (exponent % 2).toNat
      let scaled := part * Nat.pow 2 (2 * format.precision + 4 + odd)
      let root := squareRoot scaled
      let exact := root * root = scaled
      format.nearestScaled (2 * root + if exact then 0 else 1)
        ((exponent - odd) / 2 - (format.precision + 2 : Nat) - 1)

/-- How two patterns compare; a NaN compares with nothing. -/
def compare? (format : FloatFormat) (left right : Nat) : Option Ordering :=
  match format.view left, format.view right with
  | .notANumber, _ | _, .notANumber => none
  | _, _ =>
    let value (bits : Nat) : Int :=
      if format.isNegative bits then -(format.magnitude bits : Int)
      else (format.magnitude bits : Int)
    some (compare (value left) (value right))

/-- The smaller of two patterns; of two zeros the negative one. -/
def minimum (format : FloatFormat) (left right : Nat) : Nat :=
  match format.compare? left right with
  | none => format.canonicalNaN
  | some .lt => left
  | some .gt => right
  | some .eq => if format.isNegative left then left else right

/-- The larger of two patterns; of two zeros the positive one. -/
def maximum (format : FloatFormat) (left right : Nat) : Nat :=
  match format.compare? left right with
  | none => format.canonicalNaN
  | some .lt => right
  | some .gt => left
  | some .eq => if format.isNegative left then right else left

inductive Rounding where
  | up
  | down
  | towardZero
  | toNearest
deriving DecidableEq, Repr

/-- The quotient of two naturals rounded to a whole number, as the magnitude of a
number with a sign. -/
def Rounding.quotient (rounding : Rounding) (negative : Bool) (numerator denominator : Nat) :
    Nat :=
  let floor := numerator / denominator
  let away := if numerator % denominator = 0 then floor else floor + 1
  match rounding with
  | .up => if negative then floor else away
  | .down => if negative then away else floor
  | .towardZero => floor
  | .toNearest => roundQuotient numerator denominator

/-- A pattern rounded to a whole number; the sign stays, of zero too. -/
def roundWhole (format : FloatFormat) (rounding : Rounding) (bits : Nat) : Nat :=
  match format.view bits with
  | .notANumber => format.canonicalNaN
  | .infinite _ => bits
  | .finite negative part exponent =>
    if 0 ≤ exponent then bits
    else
      format.withSign negative
        (format.nearest (rounding.quotient negative part (Nat.pow 2 (-exponent).toNat)) 1)

def wholePart? (format : FloatFormat) (bits : Nat) : Option Int :=
  match format.view bits with
  | .finite negative part exponent =>
    let whole : Nat :=
      if 0 ≤ exponent then part * Nat.pow 2 exponent.toNat else part / Nat.pow 2 (-exponent).toNat
    some (if negative then -(whole : Int) else whole)
  | _ => none

def leastInt64 : Int := -9223372036854775808

/-- The whole part of a pattern as a 64-bit integer; what does not fit becomes the
least one. -/
def toInt64 (format : FloatFormat) (bits : Nat) : Int :=
  match format.wholePart? bits with
  | some whole => if leastInt64 ≤ whole ∧ whole < -leastInt64 then whole else leastInt64
  | none => leastInt64

def ofInt (format : FloatFormat) (value : Int) : Nat :=
  format.withSign (value < 0) (format.nearest value.natAbs 1)

/-- The pattern of one format nearest to what a pattern of another denotes. -/
def convertFrom (format source : FloatFormat) (bits : Nat) : Nat :=
  match source.view bits with
  | .notANumber => format.canonicalNaN
  | .infinite negative => format.withSign negative format.infinity
  | .finite negative part exponent =>
    format.withSign negative (format.nearestScaled part exponent)

end WasmX64.FloatFormat
