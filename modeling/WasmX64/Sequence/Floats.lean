import WasmX64.Sequence.Arithmetic

/-!
# Floating-point sequences

Comparisons, minimum and maximum, sign manipulation and the conversions between
integers and floats.
-/

namespace WasmX64.Sequence

/-- Compares floats and writes the outcome of a condition as 0 or 1.  With a NaN
only "not equal" holds. -/
def floatSetCondition (type : ValueType) (condition : Condition)
    (dst left right : Register) : List Step :=
  [.emit (.ucomis type left right), .jumpIf .ordered (.inner 0) .near,
    if condition = .notEqual then .emit (.movImm .i32 dst 1)
    else .emit (.alu .xor .i32 dst dst),
    .jump (.inner 1) .near, .bind (.inner 0), .emit (.setcc condition dst),
    .emit (.extend .zero8 .i32 dst dst), .bind (.inner 1)]

/-- Converts an unsigned 64-bit integer.  A value with the top bit set is halved
with its low bit kept sticky, converted and doubled. -/
def convertUnsigned64 (type : ValueType) (dst src : Register) : List Step :=
  [.emit (.convertInt type .i64 dst src), .emit (.test .i64 src src),
    .jumpIf .positive (.inner 1) .near, .emit (.mov .i64 .r10 src),
    .emit (.shiftImm .shr .i64 .r10 1), .jumpIf .aboveEqual (.inner 0) .near,
    .emit (.aluImm .or .i64 .r10 1), .bind (.inner 0),
    .emit (.convertInt type .i64 dst .r10), .emit (.sse .add type dst dst), .bind (.inner 1)]

def minusTwo63 (type : ValueType) : UInt64 :=
  if type = .f64 then 0xc3e0000000000000 else 0xdf000000

/-- Truncates to an unsigned 64-bit integer.  Out of range values go to `failure`,
or are left as they come when there is none. -/
def truncateUnsigned64 (type : ValueType) (dst src : Register) (failure : Target) :
    List Step :=
  let small : List Step :=
    [.emit (.truncateFloat .i64 type dst src), .emit (.test .i64 dst dst),
      .jumpIf .positive (.inner 0) .far]
  let large : List Step :=
    [.emit (.sse .add type .xmm15 src), .emit (.truncateFloat .i64 type dst .xmm15),
      .emit (.test .i64 dst dst),
      .jumpIf .negative (if failure = .missing then .inner 0 else failure) .far,
      .emit (.movImm .i64 .r10 (-9223372036854775808)), .emit (.alu .or .i64 dst .r10),
      .bind (.inner 0)]
  small ++ loadConstant type .xmm15 (minusTwo63 type) ++ large

/-- Truncates to an integer: rounds toward zero, converts, converts back and
compares.  A NaN or any difference traps. -/
def truncate (target source : ValueType) (signed : Bool) (dst src : Register)
    (trap : Target) : List Step :=
  if target = .i64 ∧ !signed then truncateUnsigned64 source dst src trap
  else
    let thereAndBack : List Step :=
      if target = .i32 ∧ signed then
        [.emit (.truncateFloat .i32 source dst .xmm15),
          .emit (.convertInt source .i32 .xmm14 dst)]
      else if target = .i32 then
        [.emit (.truncateFloat .i64 source dst .xmm15), .emit (.mov .i32 dst dst),
          .emit (.convertInt source .i64 .xmm14 dst)]
      else
        [.emit (.truncateFloat .i64 source dst .xmm15),
          .emit (.convertInt source .i64 .xmm14 dst)]
    let check : List Step :=
      [.emit (.ucomis source .xmm14 .xmm15), .jumpIf .unordered trap .far,
        .jumpIf .notEqual trap .far]
    .emit (.round source .xmm15 src .towardZero) :: thereAndBack ++ check

/-- Minimum or maximum: a NaN operand gives a NaN, and equal operands are told
apart by the sign of the right one. -/
def minMax (type : ValueType) (minimum : Bool) (dst left right : Register) : List Step :=
  let nan := Target.inner 0
  let below := Target.inner 1
  let above := Target.inner 2
  let done := Target.inner 3
  let choose : List Step :=
    [.emit (.ucomis type left right), .jumpIf .unordered nan .near, .jumpIf .below below .near,
      .jumpIf .above above .near, .emit (.signBits type .r10 right),
      .emit (.testImm .i32 .r10 1), .jumpIf .equal below .near, .jump above .near,
      .bind nan, .emit (.logic .xor type dst dst), .emit (.sse .div type dst dst),
      .jump done .near, .bind below]
  let skip : List Step := [.jump done .near, .bind above]
  choose ++ move type dst (if minimum then left else right) ++ skip ++
    move type dst (if minimum then right else left) ++ [Step.bind done]

def signMask (type : ValueType) : UInt64 :=
  if type = .f64 then 0x8000000000000000 else 0x80000000

/-- Clears the sign bit, or flips it for a negation. -/
def absOrNeg (type : ValueType) (negate : Bool) (dst src : Register) : List Step :=
  let mask :=
    if negate then signMask type
    else if type = .f32 then ~~~(signMask type) &&& 0xffffffff
    else ~~~(signMask type)
  let word : ValueType := if type = .f64 then .i64 else .i32
  let op := if negate then LogicOp.xor else LogicOp.and
  let scratch : Register := if dst = src then .xmm15 else dst
  [.emit (.movImm word .r10 mask.toInt64), .emit (.movToFp word scratch .r10),
    .emit (.logic op type dst (if scratch = dst then src else scratch))]

/-- The magnitude of the left operand with the sign of the right one. -/
def copysign (type : ValueType) (dst left right : Register) : List Step :=
  let combine : List Step :=
    [.emit (.mov type .xmm14 .xmm15), .emit (.logic .and type .xmm14 right),
      .emit (.logic .andNot type .xmm15 left), .emit (.logic .or type .xmm15 .xmm14),
      .emit (.mov type dst .xmm15)]
  loadConstant type .xmm15 (signMask type) ++ combine

/-- A conversion between numeric types; `trap` receives failing truncations. -/
def conversion (op : Conversion) (dst src : Register) (trap : Target) : List Step :=
  match op with
  | .wrap => [.emit (.mov .i32 dst src)]
  | .truncate result source signed => truncate result.type source.type signed dst src trap
  | .extend true => [.emit (.extend .sign32 .i64 dst src)]
  | .extend false => [.emit (.mov .i32 dst src)]
  | .convert result .w32 true => [.emit (.convertInt result.type .i32 dst src)]
  | .convert result .w32 false =>
    [.emit (.mov .i32 .r10 src), .emit (.convertInt result.type .i64 dst .r10)]
  | .convert result .w64 true => [.emit (.convertInt result.type .i64 dst src)]
  | .convert result .w64 false => convertUnsigned64 result.type dst src
  | .demote => [.emit (.doubleToSingle dst src)]
  | .promote => [.emit (.singleToDouble dst src)]
  | .reinterpretFloat .w32 => [.emit (.movFromFp .i32 dst src)]
  | .reinterpretFloat .w64 => [.emit (.movFromFp .i64 dst src)]
  | .reinterpretInt .w32 => [.emit (.movToFp .i32 dst src)]
  | .reinterpretInt .w64 => [.emit (.movToFp .i64 dst src)]

def conversionOf (op : Opcode) (dst src : Register) (trap : Target) : List Step :=
  match op with
  | .convert op => conversion op dst src trap
  | op => [.fail (.notConversion op)]

end WasmX64.Sequence
