import WasmX64.Float.Format
import WasmX64.Number.Literal

/-!
# Floating-point literals

Decimal numerals, hexadecimal numerals with a binary exponent, and the names of
infinity and not-a-number in any letter case.  The value is rounded once, straight
from the numeral to the wanted format.
-/

namespace WasmX64.FloatFormat

open WasmX64.Number

/-- A numeral taken apart: the digits as one natural number and the power of ten
or two it is scaled by. -/
structure Numeral where
  negative : Bool
  hexadecimal : Bool
  digits : Nat
  exponent : Int
deriving DecidableEq, Repr

/-- Reads mantissa digits with at most one point.  The result holds the digits as
a number, how many stand behind the point, whether any digit was seen, and the
text that follows. -/
def readMantissa (base : Nat) (pointSeen digitSeen : Bool) (digits behindPoint : Nat) :
    List Char → Nat × Nat × Bool × List Char
  | [] => (digits, behindPoint, digitSeen, [])
  | char :: rest =>
    if char = '_' then readMantissa base pointSeen digitSeen digits behindPoint rest
    else if char = '.' then
      if pointSeen then (digits, behindPoint, digitSeen, char :: rest)
      else readMantissa base true digitSeen digits behindPoint rest
    else
      match digitValue? char with
      | some digit =>
        if digit < base then
          readMantissa base pointSeen true (digits * base + digit)
            (if pointSeen then behindPoint + 1 else behindPoint) rest
        else (digits, behindPoint, digitSeen, char :: rest)
      | none => (digits, behindPoint, digitSeen, char :: rest)

/-- Reads exponent digits.  Once the exponent has reached 10000 further digits
leave it alone: such a number is zero or infinite anyway. -/
def readExponent (exponent : Nat) : List Char → Nat × List Char
  | [] => (exponent, [])
  | char :: rest =>
    if char = '_' then readExponent exponent rest
    else if '0' ≤ char ∧ char ≤ '9' then
      readExponent
        (if exponent < 10000 then exponent * 10 + (char.toNat - '0'.toNat) else exponent) rest
    else (exponent, char :: rest)

/-- The exponent part behind the mantissa, if one is written, and what follows.
`none` is an exponent mark without digits. -/
def readExponentPart (mark : Char) : List Char → Option (Option Int × List Char)
  | [] => some (none, [])
  | char :: rest =>
    if char.toLower = mark then
      let negative := rest.head? = some '-'
      match dropSign rest with
      | digit :: more =>
        if '0' ≤ digit ∧ digit ≤ '9' then
          let (exponent, after) := readExponent 0 (digit :: more)
          some (some (if negative then -(exponent : Int) else exponent), after)
        else none
      | [] => none
    else some (none, char :: rest)

def readNumeral? (chars : List Char) : Option Numeral :=
  let negative := chars.head? = some '-'
  let (hexadecimal, body) :=
    match dropSign chars with
    | '0' :: mark :: digit :: rest =>
      if mark.toLower = 'x' then (true, digit :: rest) else (false, '0' :: mark :: digit :: rest)
    | body => (false, body)
  let (digits, behindPoint, digitSeen, rest) :=
    readMantissa (if hexadecimal then 16 else 10) false false 0 0 body
  if !digitSeen then none
  else
    match readExponentPart (if hexadecimal then 'p' else 'e') rest with
    | none => none
    | some (written, after) =>
      if hexadecimal && written.isNone then none
      else if !after.isEmpty then none
      else if chars.contains '_' && !underscoresPlaced chars then none
      else
        let shift : Int := if hexadecimal then 4 * behindPoint else behindPoint
        some ⟨negative, hexadecimal, digits, written.getD 0 - shift⟩

def Numeral.magnitude (numeral : Numeral) (format : FloatFormat) : Nat :=
  if numeral.hexadecimal then format.nearestScaled numeral.digits numeral.exponent
  else if 0 ≤ numeral.exponent then
    format.nearest (numeral.digits * Nat.pow 10 numeral.exponent.toNat) 1
  else format.nearest numeral.digits (Nat.pow 10 (-numeral.exponent).toNat)

/-- Whether text spells a lower-case word in any letter case. -/
def spells (word : String) (chars : List Char) : Bool :=
  chars.map Char.toLower = word.toList

def literalNaN (format : FloatFormat) : Nat :=
  if format = .double then format.canonicalNaN + 1 else format.canonicalNaN

/-- The pattern of a named value: `inf` and `infinity` with an optional sign, and
`nan` without one. -/
def readNamed? (format : FloatFormat) (chars : List Char) : Option Nat :=
  let body := dropSign chars
  if spells "inf" body || spells "infinity" body then
    some (format.withSign (chars.head? = some '-') format.infinity)
  else if spells "nan" chars then some format.literalNaN
  else none

/-- Reads a floating-point numeral into a pattern of the format.  A finite numeral
that rounds to infinity is out of range. -/
def parse (format : FloatFormat) (text : String) : Except LiteralError Nat :=
  match format.readNamed? text.toList with
  | some bits => .ok bits
  | none =>
    match readNumeral? text.toList with
    | none => .error ⟨.float, text, .malformed⟩
    | some numeral =>
      let magnitude := numeral.magnitude format
      if magnitude = format.infinity then .error ⟨.float, text, .outOfRange⟩
      else .ok (format.withSign numeral.negative magnitude)

end WasmX64.FloatFormat
