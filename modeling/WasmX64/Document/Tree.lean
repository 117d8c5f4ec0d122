import WasmX64.Float.Literal

/-!
# Documents

The trees that documents are read into, and the scalars at their ends.
-/

/-!
## Document trees

What a document says, whichever way it is written: scalars, lists and mappings, each
with the line it starts on.
-/

namespace WasmX64

/-- A scalar.  Numbers come with the text they are written as. -/
inductive Scalar where
  | null
  | bool (value : Bool)
  | int (digits : String) (value : Int)
  /-- A number with a fraction or an exponent, as the bits of a double. -/
  | float (digits : String) (bits : Nat)
  | text (value : String)
deriving DecidableEq, Repr, Inhabited

namespace Scalar

def written : Scalar → String
  | .null => ""
  | .bool value => if value then "true" else "false"
  | .int digits _ => digits
  | .float digits _ => digits
  | .text value => value

def tag : Scalar → String
  | .null => "!!null"
  | .bool _ => "!!bool"
  | .int _ _ => "!!int"
  | .float _ _ => "!!float"
  | .text _ => "!!str"

end Scalar

inductive Tree where
  | scalar (line : Nat) (value : Scalar)
  | list (line : Nat) (items : List Tree)
  | map (line : Nat) (entries : List (String × Tree))
deriving Inhabited

end WasmX64

/-!
## Plain scalars

Text that stands in a document without quotes.  What looks like a number is read as
one, so text that looks like one is written between quotes.
-/

namespace WasmX64.Document

def splitDigits (chars : List Char) : List Char × List Char :=
  (chars.takeWhile Char.isDigit, chars.dropWhile Char.isDigit)

/-- Whether text is an optional exponent: a mark, an optional sign and digits. -/
def isExponent : List Char → Bool
  | [] => true
  | mark :: rest =>
    let digits := Number.dropSign rest
    mark.toLower = 'e' && !digits.isEmpty && digits.all Char.isDigit

/-- Whether text is a decimal number with an optional sign, point and exponent. -/
def isDecimal (chars : List Char) : Bool :=
  let (whole, rest) := splitDigits (Number.dropSign chars)
  match rest with
  | '.' :: rest =>
    let (fraction, rest) := splitDigits rest
    (!whole.isEmpty || !fraction.isEmpty) && isExponent rest
  | rest => !whole.isEmpty && isExponent rest

/-- The integer that plain text stands for: signed, or unsigned and as wide. -/
def readInteger? (chars : List Char) : Option Int :=
  match Number.readSigned 64 chars with
  | .ok value => some value
  | .error _ => ((Number.readUnsigned 64 chars).toOption).map Int.ofNat

/-- The number that plain text stands for.  Underscores do not count. -/
def numericScalar? (text : String) : Option Scalar :=
  let chars := text.toList.filter (· ≠ '_')
  match readInteger? chars with
  | some value => some (.int text value)
  | none =>
    if isDecimal chars then
      ((FloatFormat.double.parse (String.ofList chars)).toOption).map (.float text)
    else none

def plainScalar (text : String) : Scalar :=
  if text.isEmpty ∨ text = "null" ∨ text = "~" then .null
  else if text = "true" then .bool true
  else if text = "false" then .bool false
  else (numericScalar? text).getD (.text text)

/-- Text as it is written in a document: plain if it reads back, between double
quotes if it looks like a number, between single quotes if blanks at its ends would
get lost. -/
def scalarText (text : String) : String :=
  if (numericScalar? text).isSome then "\"" ++ text ++ "\""
  else if text.toList.head? = some ' ' ∨ text.toList.getLast? = some ' ' then
    "'" ++ text ++ "'"
  else text

end WasmX64.Document
