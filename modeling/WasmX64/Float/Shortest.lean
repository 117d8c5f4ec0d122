import WasmX64.Float.Format

/-!
# Decimal text of floating-point numbers

The shortest text that reads back, and text of a fixed number of digits.
-/

/-!
## Shortest decimal text

The fewest significant digits that read back as the same pattern, and the text
made of them.  For one, two, … digits the two neighbours of the value on the
decimal grid are tried against the interval of numbers that round to the value;
the first grid with a neighbour inside wins, the nearer one if both are inside.
-/

namespace WasmX64.FloatFormat

/-- A decimal number `digits * 10 ^ (exponent + 1 - count)`, where `digits` has
`count` digits: `exponent` is the place of its first digit. -/
structure Decimal where
  digits : Nat
  count : Nat
  exponent : Int
deriving DecidableEq, Repr

/-- The exponent `k` with `10 ^ k ≤ numerator / denominator < 10 ^ (k + 1)`,
searched downwards from `guess`. -/
def decimalLogFrom (numerator denominator : Nat) : Nat → Int → Int
  | 0, guess => guess
  | fuel + 1, guess =>
    let fits :=
      if 0 ≤ guess then denominator * Nat.pow 10 guess.toNat ≤ numerator
      else denominator ≤ numerator * Nat.pow 10 (-guess).toNat
    if fits then guess else decimalLogFrom numerator denominator fuel (guess - 1)

def decimalLog (numerator denominator : Nat) : Int :=
  let guess : Int :=
    ((Nat.log2 numerator + 1 : Nat) - (Nat.log2 denominator : Int)) * 30103 / 100000 + 1
  decimalLogFrom numerator denominator 8 guess

/-- An interval of positive fractions over a common denominator, with a point
inside. -/
structure Interval where
  low : Nat
  value : Nat
  high : Nat
  denominator : Nat
  closed : Bool
deriving Repr

/-- The numbers that round to `significand * 2 ^ exponent`.  Below a power of two
the neighbours are half as far away. -/
def roundingInterval (format : FloatFormat) (significand : Nat) (exponent : Int) : Interval :=
  let below :=
    if significand = format.hiddenBit ∧ format.leastExponent < exponent then 1 else 2
  let scale := if 2 ≤ exponent then Nat.pow 2 (exponent - 2).toNat else 1
  let denominator := if exponent < 2 then Nat.pow 2 (2 - exponent).toNat else 1
  { low := (4 * significand - below) * scale
    value := 4 * significand * scale
    high := (4 * significand + 2) * scale
    denominator
    closed := significand % 2 = 0 }

def Interval.contains (interval : Interval) (numerator denominator : Nat) : Bool :=
  let point := numerator * interval.denominator
  let low := interval.low * denominator
  let high := interval.high * denominator
  if interval.closed then low ≤ point && point ≤ high else low < point && point < high

/-- The neighbour of the value on the grid of `count` digits that lies in the
interval, if one does: the nearer of two, the even one of two equally near. -/
def Interval.onGrid? (interval : Interval) (exponent : Int) (count : Nat) : Option Decimal :=
  let place : Int := exponent + 1 - count
  let unit := if 0 ≤ place then Nat.pow 10 place.toNat else 1
  let parts := if place < 0 then Nat.pow 10 (-place).toNat else 1
  let scaled := interval.value * parts
  let step := interval.denominator * unit
  let floor := scaled / step
  let rest := scaled % step
  let floorInside := interval.contains (floor * unit) parts
  let ceilInside := interval.contains ((floor + 1) * unit) parts
  let upper := step < 2 * rest ∨ (2 * rest = step ∧ floor % 2 = 1)
  let found (digits : Nat) : Decimal :=
    if digits = Nat.pow 10 count then ⟨1, 1, exponent + 1⟩ else ⟨digits, count, exponent⟩
  if floorInside && ceilInside then some (found (if upper then floor + 1 else floor))
  else if floorInside then some (found floor)
  else if ceilInside then some (found (floor + 1))
  else none

/-- The first grid with a point inside, trying `fuel` digit counts from `count`. -/
def Interval.shortestFrom (interval : Interval) (exponent : Int) : Nat → Nat → Decimal
  | 0, _ => ⟨0, 1, 0⟩
  | fuel + 1, count =>
    match interval.onGrid? exponent count with
    | some decimal => decimal
    | none => interval.shortestFrom exponent fuel (count + 1)

def shortest (format : FloatFormat) (significand : Nat) (exponent : Int) : Decimal :=
  if significand = 0 then ⟨0, 1, 0⟩
  else
    let interval := format.roundingInterval significand exponent
    interval.shortestFrom (decimalLog interval.value interval.denominator) 20 1

def Decimal.chars (decimal : Decimal) : List Char :=
  Nat.toDigits 10 decimal.digits

/-- Digits with a point behind the first, when there are more. -/
def pointed : List Char → List Char
  | first :: second :: rest => first :: '.' :: second :: rest
  | digits => digits

/-- An exponent with its sign and at least two digits. -/
def exponentText (exponent : Int) : String :=
  let digits := Nat.toDigits 10 exponent.natAbs
  (if exponent < 0 then "e-" else "e+") ++
    String.ofList (if digits.length < 2 then '0' :: digits else digits)

def Decimal.positional (decimal : Decimal) : String :=
  let digits := decimal.chars
  if decimal.exponent < 0 then
    String.ofList ('0' :: '.' :: List.replicate (-decimal.exponent - 1).toNat '0' ++ digits)
  else
    let whole := decimal.exponent.toNat + 1
    if digits.length ≤ whole then
      String.ofList (digits ++ List.replicate (whole - digits.length) '0')
    else String.ofList (digits.take whole ++ '.' :: digits.drop whole)

/-- A decimal with an exponent when its first digit stands below the fourth place
behind the point or at place `limit` and above, written out otherwise. -/
def Decimal.general (limit : Int) (decimal : Decimal) : String :=
  if decimal.exponent < -4 ∨ limit ≤ decimal.exponent then
    String.ofList (pointed decimal.chars) ++ exponentText decimal.exponent
  else decimal.positional

/-- The text of a pattern: the shortest digits that read back, with an exponent
from a million upwards. -/
def render (format : FloatFormat) (bits : Nat) : String :=
  match format.view bits with
  | .notANumber => "NaN"
  | .infinite negative => if negative then "-Inf" else "+Inf"
  | .finite negative significand exponent =>
    (if negative then "-" else "") ++ (format.shortest significand exponent).general 6

end WasmX64.FloatFormat

/-!
## Decimals of a fixed number of digits

The decimal with a given number of significant digits that is nearest to an exact
fraction, a half going to the even neighbour, without the zeros at its end.
-/

namespace WasmX64.FloatFormat

/-- A decimal without the zeros at its end, given at least as much fuel as it has
digits. -/
def dropZeros : Nat → Decimal → Decimal
  | 0, decimal => decimal
  | fuel + 1, decimal =>
    if 1 < decimal.count ∧ decimal.digits % 10 = 0 then
      dropZeros fuel ⟨decimal.digits / 10, decimal.count - 1, decimal.exponent⟩
    else decimal

def roundedFraction (count numerator denominator : Nat) : Decimal :=
  if numerator = 0 then ⟨0, 1, 0⟩
  else
    let exponent := decimalLog numerator denominator
    let place : Int := exponent + 1 - count
    let digits :=
      if 0 ≤ place then roundQuotient numerator (denominator * Nat.pow 10 place.toNat)
      else roundQuotient (numerator * Nat.pow 10 (-place).toNat) denominator
    if digits = Nat.pow 10 count then ⟨1, 1, exponent + 1⟩
    else dropZeros count ⟨digits, count, exponent⟩

/-- The text of the magnitude of a finite pattern with at most `count` digits, with
an exponent from place `count` upwards. -/
def renderRounded (format : FloatFormat) (count : Nat) (bits : Nat) : String :=
  match format.view bits with
  | .finite _ part exponent =>
    (if 0 ≤ exponent then roundedFraction count (part * Nat.pow 2 exponent.toNat) 1
      else roundedFraction count part (Nat.pow 2 (-exponent).toNat)).general count
  | _ => format.render bits

end WasmX64.FloatFormat
