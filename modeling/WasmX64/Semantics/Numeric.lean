import WasmX64.Compile.Trap
import WasmX64.Float.Arithmetic

/-!
# Numeric operations

What the opcodes on integers and floating-point numbers mean.
-/

namespace WasmX64

/-!
## Integer operations

The meaning of the integer opcodes on words of a width.  Division traps on a zero
divisor and on the one signed quotient that does not fit; shifts take their amount
modulo the width.
-/

def leadingZeros {width : Nat} (word : BitVec width) : Nat :=
  if word.toNat = 0 then width else width - (Nat.log2 word.toNat + 1)

def trailingZeros {width : Nat} (word : BitVec width) : Nat :=
  ((List.range width).find? word.getLsbD).getD width

def onesCount {width : Nat} (word : BitVec width) : Nat :=
  (List.range width).countP word.getLsbD

def IntUnary.eval {width : Nat} (op : IntUnary) (word : BitVec width) : BitVec width :=
  match op with
  | .clz => BitVec.ofNat width (leadingZeros word)
  | .ctz => BitVec.ofNat width (trailingZeros word)
  | .popcnt => BitVec.ofNat width (onesCount word)

def IntBinary.eval {width : Nat} (op : IntBinary) (left right : BitVec width) :
    Except TrapKind (BitVec width) :=
  let amount := right.toNat % width
  match op with
  | .add => .ok (left + right)
  | .sub => .ok (left - right)
  | .mul => .ok (left * right)
  | .divS =>
    if right = 0 then .error .divideByZero
    else if left = BitVec.intMin width ∧ right = -1 then .error .integerOverflow
    else .ok (left.sdiv right)
  | .divU => if right = 0 then .error .divideByZero else .ok (left / right)
  | .remS => if right = 0 then .error .divideByZero else .ok (left.srem right)
  | .remU => if right = 0 then .error .divideByZero else .ok (left % right)
  | .and => .ok (left &&& right)
  | .or => .ok (left ||| right)
  | .xor => .ok (left ^^^ right)
  | .shl => .ok (left <<< amount)
  | .shrS => .ok (left.sshiftRight amount)
  | .shrU => .ok (left >>> amount)
  | .rotl => .ok (left.rotateLeft amount)
  | .rotr => .ok (left.rotateRight amount)

def IntRelation.holds {width : Nat} (relation : IntRelation) (left right : BitVec width) :
    Bool :=
  match relation with
  | .eq => left = right
  | .ne => left ≠ right
  | .ltS => left.slt right
  | .ltU => left.ult right
  | .gtS => right.slt left
  | .gtU => right.ult left
  | .leS => left.sle right
  | .leU => left.ule right
  | .geS => right.sle left
  | .geU => right.ule left

/-!
## Floating-point operations and conversions

The meaning of the floating-point opcodes on bit patterns and of the conversions
between the numeric types on raw values.
-/

def FloatWidth.format : FloatWidth → FloatFormat
  | .w32 => .single
  | .w64 => .double

def FloatUnary.eval (op : FloatUnary) (format : FloatFormat) (bits : Nat) : Nat :=
  match op with
  | .abs => format.magnitude bits
  | .neg => format.negate bits
  | .ceil => format.roundWhole .up bits
  | .floor => format.roundWhole .down bits
  | .trunc => format.roundWhole .towardZero bits
  | .nearest => format.roundWhole .toNearest bits
  | .sqrt => format.sqrt bits

def FloatBinary.eval (op : FloatBinary) (format : FloatFormat) (left right : Nat) : Nat :=
  match op with
  | .add => format.add left right
  | .sub => format.sub left right
  | .mul => format.mul left right
  | .div => format.div left right
  | .min => format.minimum left right
  | .max => format.maximum left right
  | .copysign => format.copySign left right

/-- Whether a comparison holds; with a NaN only `ne` does. -/
def FloatRelation.holds (relation : FloatRelation) (format : FloatFormat) (left right : Nat) :
    Bool :=
  match relation, format.compare? left right with
  | .ne, none => true
  | _, none => false
  | .eq, some order => order = .eq
  | .ne, some order => order ≠ .eq
  | .lt, some order => order = .lt
  | .gt, some order => order = .gt
  | .le, some order => order ≠ .gt
  | .ge, some order => order ≠ .lt

/-- The integers a conversion can produce: the least, and one past the greatest. -/
def IntWidth.range (width : IntWidth) (signed : Bool) : Int × Int :=
  if signed then (-(Nat.pow 2 (width.bits - 1) : Nat), (Nat.pow 2 (width.bits - 1) : Nat))
  else (0, (Nat.pow 2 width.bits : Nat))

/-- The raw bits of an integer in two's complement of a width. -/
def IntWidth.wrap (width : IntWidth) (value : Int) : Nat :=
  (value % (Nat.pow 2 width.bits : Nat)).toNat

/-- The integer that raw bits of a width stand for. -/
def IntWidth.read (width : IntWidth) (signed : Bool) (bits : Nat) : Int :=
  if signed then (BitVec.ofNat width.bits bits).toInt else (BitVec.ofNat width.bits bits).toNat

def Conversion.eval (op : Conversion) (bits : Nat) : Except TrapKind Nat :=
  match op with
  | .wrap => .ok (bits % 4294967296)
  | .truncate result source signed =>
    match source.format.wholePart? bits with
    | none => .error .invalidConversion
    | some whole =>
      let (least, bound) := result.range signed
      if least ≤ whole ∧ whole < bound then .ok (result.wrap whole)
      else .error .invalidConversion
  | .extend signed => .ok (IntWidth.w64.wrap (IntWidth.w32.read signed bits))
  | .convert result source signed => .ok (result.format.ofInt (source.read signed bits))
  | .demote => .ok (FloatFormat.single.convertFrom .double bits)
  | .promote => .ok (FloatFormat.double.convertFrom .single bits)
  | .reinterpretFloat _ | .reinterpretInt _ => .ok bits

end WasmX64
