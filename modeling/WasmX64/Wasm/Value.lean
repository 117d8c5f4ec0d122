import WasmX64.Float.Literal
import WasmX64.Float.Shortest
import WasmX64.Text.Lines
import WasmX64.Wasm.ValueType

/-!
# Typed values

A value is a type and its raw bits.  Integers are written in decimal or with a
base mark, signed or unsigned; floats as numerals, `inf`, `nan`, or `nan:` with a
payload.
-/

namespace WasmX64

structure Value where
  type : ValueType
  bits : UInt64
deriving DecidableEq, Repr, Inhabited

inductive ValueError where
  /-- The numeral of an integer of this width. -/
  | integer (width : Nat) (text : String) (cause : Number.LiteralError)
  | float (width : Nat) (text : String) (cause : Number.LiteralError)
  /-- The type has no literals. -/
  | noLiteral (type : ValueType)
deriving DecidableEq, Repr

def ValueError.message : ValueError → String
  | .integer width text cause =>
    s!"wasm: bad i{width} literal " ++ Text.quote text ++ ": " ++ cause.message
  | .float width text cause =>
    s!"wasm: bad f{width} literal " ++ Text.quote text ++ ": " ++ cause.message
  | .noLiteral type => "wasm: cannot parse literal of type " ++ type.name

def ValueError.flaw? : ValueError → Option Number.Flaw
  | .integer _ _ cause => some cause.flaw
  | .float _ _ cause => some cause.flaw
  | .noLiteral _ => none

namespace Value

/-- The text of a value behind its type: the signed reading of integers, the
shortest digits of floats. -/
def text (value : Value) : String :=
  match value.type with
  | .i32 => s!"i32:{(BitVec.ofNat 32 value.bits.toNat).toInt}"
  | .i64 => s!"i64:{(BitVec.ofNat 64 value.bits.toNat).toInt}"
  | .f32 => "f32:" ++ FloatFormat.single.render (value.bits.toNat % 4294967296)
  | .f64 => "f64:" ++ FloatFormat.double.render value.bits.toNat
  | .unknown _ => "invalid:" ++ Text.hexNumber value.bits.toNat

/-- The bits of an integer literal of a width.  A minus sign asks for the signed
range, anything else for the unsigned one. -/
def readInteger (width : Nat) (chars : List Char) : Except ValueError Nat :=
  let text := String.ofList chars
  match chars with
  | '-' :: _ =>
    match Number.parseSigned width text with
    | .error cause => .error (.integer width text cause)
    | .ok value => .ok (value % Nat.pow 2 width).toNat
  | _ =>
    let digits := if chars.head? = some '+' then chars.drop 1 else chars
    match Number.parseUnsigned width (String.ofList digits) with
    | .error cause => .error (.integer width text cause)
    | .ok value => .ok value

/-- The payload of a NaN literal: the quiet bit for plain `nan`, the number behind
`nan:` otherwise, which must not be zero. -/
def readPayload? (format : FloatFormat) : List Char → Option Nat
  | ['n', 'a', 'n'] => some (format.hiddenBit / 2)
  | 'n' :: 'a' :: 'n' :: ':' :: payload =>
    match Number.readUnsigned format.width payload with
    | .ok 0 => none
    | .ok value => some value
    | .error _ => none
  | _ => none

/-- The bits of a NaN literal.  Any number of signs may lead; the first decides. -/
def readNaN? (format : FloatFormat) (chars : List Char) : Option Nat :=
  let body := chars.dropWhile fun char => char = '+' || char = '-'
  (readPayload? format body).map fun payload =>
    let magnitude := format.infinity ||| payload
    if chars.head? = some '-' then magnitude ||| format.signBit else magnitude

def readFloat (format : FloatFormat) (chars : List Char) : Except ValueError Nat :=
  match readNaN? format chars with
  | some bits => .ok bits
  | none =>
    let text := String.ofList chars
    match format.parse text with
    | .error cause => .error (.float format.width text cause)
    | .ok bits => .ok bits

/-- Reads a literal of a type.  Surrounding blanks and all underscores are
dropped first. -/
def parse (type : ValueType) (text : String) : Except ValueError Value :=
  let chars := (Text.trim text.toList).filter (· ≠ '_')
  let typed (read : Except ValueError Nat) : Except ValueError Value :=
    read.map fun bits => ⟨type, UInt64.ofNat bits⟩
  match type with
  | .i32 => typed (readInteger 32 chars)
  | .i64 => typed (readInteger 64 chars)
  | .f32 => typed (readFloat .single chars)
  | .f64 => typed (readFloat .double chars)
  | .unknown _ => .error (.noLiteral type)

def ofRegister (type : ValueType) (bits : UInt64) : Value :=
  match type with
  | .i32 | .f32 => ⟨type, bits &&& 0xffffffff⟩
  | _ => ⟨type, bits⟩

end Value

end WasmX64
