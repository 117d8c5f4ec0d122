import WasmX64.Float.Arithmetic
import WasmX64.Float.Literal
import WasmX64.Text.Lines
import WasmX64.Text.LowerCase

/-!
# Values of settings

Log levels and sizes as they are written in a configuration.
-/

/-!
## Log levels in text

Levels such as `WARN` or `debug+2`: a name in any letter case and an offset.
-/

namespace WasmX64

inductive LevelFlaw where
  | unknownName
  | offset (cause : Number.LiteralError)
deriving DecidableEq, Repr

structure LevelError where
  text : String
  flaw : LevelFlaw
deriving DecidableEq, Repr

def LevelError.message (error : LevelError) : String :=
  "slog: level string " ++ Text.quote error.text ++ ": " ++
    match error.flaw with
    | .unknownName => "unknown name"
    | .offset cause => cause.message

namespace Level

/-- The upper-case form of a character, as far as it is an ASCII letter: besides the
ASCII letters the dotless `ı` and the long `ſ` have one. -/
def capital (char : Char) : Char :=
  if char = 'ı' then 'I' else if char = 'ſ' then 'S' else char.toUpper

def named? (name : List Char) : Option Int :=
  let name := String.ofList (name.map capital)
  if name = "DEBUG" then some (-4)
  else if name = "INFO" then some 0
  else if name = "WARN" then some 4
  else if name = "ERROR" then some 8
  else none

def isSign (char : Char) : Bool := char = '+' || char = '-'

/-- Reads a level.  The offset is read before the name is looked at; the sum wraps
around like a machine word. -/
def parse (text : String) : Except LevelError Int := do
  let chars := text.toList
  let name := chars.takeWhile fun char => !isSign char
  let sign := chars.drop name.length
  let offset ←
    if sign.isEmpty then pure 0
    else (Number.parseDecimal (String.ofList sign)).mapError fun cause =>
      ⟨text, .offset cause⟩
  match named? name with
  | none => throw ⟨text, .unknownName⟩
  | some base => return Int.bmod (base + offset) 18446744073709551616

end Level

end WasmX64

/-!
## Sizes in text

Sizes such as `1MiB` or `1.5 g`: a number, at most one space and a binary unit.
-/

namespace WasmX64

inductive SizeError where
  /-- There is no number, or it is negative. -/
  | invalid (text : String)
  | number (cause : Number.LiteralError)
  | suffix (text : String)
deriving DecidableEq, Repr

def SizeError.message : SizeError → String
  | .invalid text => "invalid size: '" ++ text ++ "'"
  | .number cause => cause.message
  | .suffix text => "invalid suffix: '" ++ text ++ "'"

namespace Size

def endsNumber (char : Char) : Bool := char.isDigit || char = '.' || char = ' '

/-- Cuts text behind the last character that can end the number; a space there is
dropped. -/
def split? (chars : List Char) : Option (List Char × List Char) :=
  let reversed := chars.reverse
  let suffix := (reversed.takeWhile fun char => !endsNumber char).reverse
  match reversed.dropWhile fun char => !endsNumber char with
  | [] => none
  | last :: before =>
    some ((if last = ' ' then before else last :: before).reverse, suffix)

/-- The power of 1024 that a unit letter stands for. -/
def power? : Char → Option Nat
  | 'k' => some 1
  | 'm' => some 2
  | 'g' => some 3
  | 't' => some 4
  | 'p' => some 5
  | _ => none

/-- The number of bytes of a unit in lower case: `b`, or a letter that may be
followed by `b` or `ib`. -/
def unit? (suffix : List Char) : Option Nat :=
  match suffix with
  | [] => some 1
  | 'b' :: rest => if rest.isEmpty then some 1 else none
  | letter :: rest =>
    match power? letter with
    | none => none
    | some power =>
      let bytes := Text.byteLength (letter :: rest)
      if bytes = 2 ∧ rest ≠ ['b'] then none
      else if bytes = 3 ∧ rest ≠ ['i', 'b'] then none
      else some (Nat.pow 1024 power)

def parse (text : String) : Except SizeError Int :=
  match split? text.toList with
  | none => .error (.invalid text)
  | some (number, suffix) =>
    match FloatFormat.double.parse (String.ofList number) with
    | .error cause => .error (.number cause)
    | .ok bits =>
      if FloatFormat.double.compare? bits 0 = some .lt then .error (.invalid text)
      else if 3 < Text.byteLength suffix then .error (.suffix (String.ofList suffix))
      else
        let lower := suffix.map Text.toLower
        match unit? lower with
        | none => .error (.suffix (String.ofList lower))
        | some unit =>
          let product := FloatFormat.double.mul bits (FloatFormat.double.ofInt unit)
          .ok (FloatFormat.double.toInt64 product)

end Size

end WasmX64
