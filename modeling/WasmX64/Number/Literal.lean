import WasmX64.Text.Quoted

/-!
# Integer literals

Numerals with an optional base mark (`0x`, `0b`, `0o` or a bare leading `0` for
octal) and underscores between digits.  A numeral is read from left to right and
refused at the first thing that is wrong with it: a character that is no digit of
the base, or a value that has outgrown its width.
-/

namespace WasmX64.Number

inductive Flaw where
  | malformed
  /-- The numeral denotes a value outside the accepted range. -/
  | outOfRange
deriving DecidableEq, Repr

inductive Form where
  | unsigned
  | signed
  | float
  | decimal
deriving DecidableEq, Repr

structure LiteralError where
  form : Form
  text : String
  flaw : Flaw
deriving DecidableEq, Repr

def Form.label : Form → String
  | .unsigned => "ParseUint"
  | .signed => "ParseInt"
  | .float => "ParseFloat"
  | .decimal => "Atoi"

def Flaw.message : Flaw → String
  | .malformed => "invalid syntax"
  | .outOfRange => "value out of range"

def LiteralError.message (error : LiteralError) : String :=
  "strconv." ++ error.form.label ++ ": parsing " ++ Text.quote error.text ++ ": " ++
    error.flaw.message

def digitValue? (char : Char) : Option Nat :=
  let code := char.toNat
  if '0'.toNat ≤ code ∧ code ≤ '9'.toNat then some (code - '0'.toNat)
  else if 'a'.toNat ≤ code ∧ code ≤ 'z'.toNat then some (code - 'a'.toNat + 10)
  else if 'A'.toNat ≤ code ∧ code ≤ 'Z'.toNat then some (code - 'A'.toNat + 10)
  else none

/-- The base a numeral announces and the digits behind the mark.  A mark needs at
least one character behind it; a bare leading zero means octal. -/
def baseMark : List Char → Nat × List Char
  | '0' :: mark :: digit :: rest =>
    if mark.toLower = 'b' then (2, digit :: rest)
    else if mark.toLower = 'o' then (8, digit :: rest)
    else if mark.toLower = 'x' then (16, digit :: rest)
    else (8, mark :: digit :: rest)
  | '0' :: rest => (8, rest)
  | chars => (10, chars)

/-- The character class that decides where an underscore may stand. -/
inductive Neighbour where
  | start
  | digit
  | underscore
  | other
deriving DecidableEq, Repr

/-- Whether every underscore stands between two digits, given the class of the
character before. -/
def underscoresPlacedFrom (hexadecimal : Bool) (before : Neighbour) : List Char → Bool
  | [] => before ≠ .underscore
  | char :: rest =>
    if ('0' ≤ char ∧ char ≤ '9') ∨
        (hexadecimal ∧ 'a' ≤ char.toLower ∧ char.toLower ≤ 'f') then
      underscoresPlacedFrom hexadecimal .digit rest
    else if char = '_' then
      before = .digit && underscoresPlacedFrom hexadecimal .underscore rest
    else before ≠ .underscore && underscoresPlacedFrom hexadecimal .other rest

def dropSign : List Char → List Char
  | '-' :: rest => rest
  | '+' :: rest => rest
  | chars => chars

/-- Whether every underscore of a numeral separates digits.  A base mark counts
as a digit. -/
def underscoresPlaced (chars : List Char) : Bool :=
  match dropSign chars with
  | '0' :: mark :: rest =>
    if mark.toLower = 'b' ∨ mark.toLower = 'o' ∨ mark.toLower = 'x' then
      underscoresPlacedFrom (mark.toLower = 'x') .digit rest
    else underscoresPlacedFrom false .start ('0' :: mark :: rest)
  | chars => underscoresPlacedFrom false .start chars

/-- Reads digits of a base onto `value`, passing over underscores and refusing a
value above `limit` as soon as it is reached. -/
def readDigits (base limit value : Nat) : List Char → Except Flaw Nat
  | [] => .ok value
  | char :: rest =>
    if char = '_' then readDigits base limit value rest
    else
      match digitValue? char with
      | none => .error .malformed
      | some digit =>
        if base ≤ digit then .error .malformed
        else if limit < value * base + digit then .error .outOfRange
        else readDigits base limit (value * base + digit) rest

def readUnsigned (bits : Nat) (chars : List Char) : Except Flaw Nat :=
  if chars.isEmpty then .error .malformed
  else
    let (base, digits) := baseMark chars
    match readDigits base (Nat.pow 2 bits - 1) 0 digits with
    | .error flaw => .error flaw
    | .ok value =>
      if chars.contains '_' && !underscoresPlaced chars then .error .malformed
      else .ok value

def readSigned (bits : Nat) (chars : List Char) : Except Flaw Int :=
  let negative := chars.head? = some '-'
  match readUnsigned bits (dropSign chars) with
  | .error flaw => .error flaw
  | .ok magnitude =>
    if negative then
      if Nat.pow 2 (bits - 1) < magnitude then .error .outOfRange else .ok (-(magnitude : Int))
    else if Nat.pow 2 (bits - 1) ≤ magnitude then .error .outOfRange
    else .ok magnitude

def parseUnsigned (bits : Nat) (text : String) : Except LiteralError Nat :=
  (readUnsigned bits text.toList).mapError fun flaw => ⟨.unsigned, text, flaw⟩

def parseSigned (bits : Nat) (text : String) : Except LiteralError Int :=
  (readSigned bits text.toList).mapError fun flaw => ⟨.signed, text, flaw⟩

def readDecimal (limit value : Nat) : List Char → Except Flaw Nat
  | [] => .ok value
  | char :: rest =>
    if '0' ≤ char ∧ char ≤ '9' then
      let next := value * 10 + (char.toNat - '0'.toNat)
      if limit < next then .error .outOfRange else readDecimal limit next rest
    else .error .malformed

/-- Reads a 64-bit decimal integer with an optional sign and nothing else. -/
def parseDecimal (text : String) : Except LiteralError Int :=
  let chars := text.toList
  let digits := dropSign chars
  let read : Except Flaw Int :=
    if digits.isEmpty then .error .malformed
    else
      match readDecimal 18446744073709551615 0 digits with
      | .error flaw => .error flaw
      | .ok magnitude =>
        if chars.head? = some '-' then
          if 9223372036854775808 < magnitude then .error .outOfRange else .ok (-(magnitude : Int))
        else if 9223372036854775808 ≤ magnitude then .error .outOfRange
        else .ok magnitude
  read.mapError fun flaw => ⟨.decimal, text, flaw⟩

end WasmX64.Number
