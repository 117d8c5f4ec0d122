/-!
# Binary floating-point formats

The two interchange formats as bit patterns over `Nat`.  A finite pattern denotes
`± significand * 2 ^ exponent`; `FloatFormat.nearest` is the one place where an
exact fraction is rounded to a pattern, to nearest with ties to the even
significand.
-/

namespace WasmX64

/-- A binary interchange format: its significand width, the hidden bit included,
and the width of its exponent field. -/
structure FloatFormat where
  precision : Nat
  exponentBits : Nat
deriving DecidableEq, Repr

namespace FloatFormat

def single : FloatFormat := ⟨24, 8⟩

def double : FloatFormat := ⟨53, 11⟩

def width (format : FloatFormat) : Nat :=
  format.precision + format.exponentBits

def signBit (format : FloatFormat) : Nat :=
  Nat.pow 2 (format.width - 1)

/-- The weight of the hidden bit, one past the fraction field. -/
def hiddenBit (format : FloatFormat) : Nat :=
  Nat.pow 2 (format.precision - 1)

/-- The pattern of positive infinity: the exponent field all ones. -/
def infinity (format : FloatFormat) : Nat :=
  (Nat.pow 2 format.exponentBits - 1) * format.hiddenBit

/-- The pattern of the positive quiet NaN with no other payload bit. -/
def canonicalNaN (format : FloatFormat) : Nat :=
  format.infinity + format.hiddenBit / 2

/-- The exponent of the lowest significand bit of the smallest numbers. -/
def leastExponent (format : FloatFormat) : Int :=
  3 - (Nat.pow 2 (format.exponentBits - 1) : Nat) - format.precision

inductive View where
  | notANumber
  | infinite (negative : Bool)
  /-- The number `± significand * 2 ^ exponent`. -/
  | finite (negative : Bool) (significand : Nat) (exponent : Int)
deriving DecidableEq, Repr

def isNegative (format : FloatFormat) (bits : Nat) : Bool :=
  bits / format.signBit % 2 = 1

/-- Decodes a pattern; bits above the width are ignored. -/
def view (format : FloatFormat) (bits : Nat) : View :=
  let negative := format.isNegative bits
  let magnitude := bits % format.signBit
  let field := magnitude / format.hiddenBit
  let fraction := magnitude % format.hiddenBit
  if format.infinity < magnitude then .notANumber
  else if magnitude = format.infinity then .infinite negative
  else if field = 0 then .finite negative fraction format.leastExponent
  else .finite negative (format.hiddenBit + fraction) (format.leastExponent + (field - 1))

def withSign (format : FloatFormat) (negative : Bool) (magnitude : Nat) : Nat :=
  if negative then format.signBit + magnitude else magnitude

/-- The quotient of two naturals rounded to nearest, a half going to the even
neighbour. -/
def roundQuotient (numerator denominator : Nat) : Nat :=
  let quotient := numerator / denominator
  let remainder := numerator % denominator
  if denominator < 2 * remainder ∨ (2 * remainder = denominator ∧ quotient % 2 = 1) then
    quotient + 1
  else quotient

/-- The exponent `k` with `2 ^ k ≤ numerator / denominator < 2 ^ (k + 1)`, for
positive arguments. -/
def binaryLog (numerator denominator : Nat) : Int :=
  let guess : Int := (Nat.log2 numerator : Int) - (Nat.log2 denominator : Int)
  let below :=
    if 0 ≤ guess then numerator < denominator * Nat.pow 2 guess.toNat
    else numerator * Nat.pow 2 (-guess).toNat < denominator
  if below then guess - 1 else guess

/-- The magnitude pattern nearest to a fraction.  Fractions beyond the largest
finite number give infinity. -/
def nearest (format : FloatFormat) (numerator denominator : Nat) : Nat :=
  if numerator = 0 then 0
  else
    let exponent :=
      max format.leastExponent (binaryLog numerator denominator - (format.precision - 1 : Nat))
    let significand :=
      if 0 ≤ exponent then roundQuotient numerator (denominator * Nat.pow 2 exponent.toNat)
      else roundQuotient (numerator * Nat.pow 2 (-exponent).toNat) denominator
    min format.infinity
      ((exponent - format.leastExponent).toNat * format.hiddenBit + significand)

def nearestScaled (format : FloatFormat) (significand : Nat) (exponent : Int) : Nat :=
  if 0 ≤ exponent then format.nearest (significand * Nat.pow 2 exponent.toNat) 1
  else format.nearest significand (Nat.pow 2 (-exponent).toNat)

end FloatFormat

end WasmX64
