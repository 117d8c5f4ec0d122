import WasmX64.Compile.Allocation
import WasmX64.Sequence.Floats

/-!
# Numeric operations

Comparisons, arithmetic and conversions.  Operands are popped into registers, the
result goes into one of them where possible.
-/

namespace WasmX64

def IntRelation.condition : IntRelation → Condition
  | .eq => .equal
  | .ne => .notEqual
  | .ltS => .less
  | .ltU => .below
  | .gtS => .greater
  | .gtU => .above
  | .leS => .lessEqual
  | .leU => .belowEqual
  | .geS => .greaterEqual
  | .geU => .aboveEqual

/-- The condition that decides a floating-point comparison, whose flags are those
of an unsigned one. -/
def FloatRelation.condition : FloatRelation → Condition
  | .eq => .equal
  | .ne => .notEqual
  | .lt => .below
  | .gt => .above
  | .le => .belowEqual
  | .ge => .aboveEqual

namespace Sequence

def commutative (op : Register → Register → Instruction) (type : ValueType)
    (dst left right : Register) : List Step :=
  if dst = right then [.emit (op dst left)]
  else move type dst left ++ [.emit (op dst right)]

def ordered (op : SseOp) (type : ValueType) (dst left right : Register) : List Step :=
  if dst = right ∧ dst ≠ left then
    move type .xmm15 right ++ move type dst left ++ [.emit (.sse op type dst .xmm15)]
  else move type dst left ++ [.emit (.sse op type dst right)]

/-- An integer addition, by `lea` when the result goes to a third register. -/
def addition (type : ValueType) (dst left right : Register) : List Step :=
  if dst = left then [.emit (.alu .add type dst right)]
  else if dst = right then [.emit (.alu .add type dst left)]
  else [.emit (.lea type dst ⟨left, right, 1, 0⟩)]

def subtraction (type : ValueType) (dst left right : Register) : List Step :=
  if dst = right ∧ dst ≠ left then
    [.emit (.unary .neg type dst), .emit (.alu .add type dst left)]
  else move type dst left ++ [.emit (.alu .sub type dst right)]

end Sequence

inductive IntLowering where
  | divide (part : Sequence.DivisionPart)
  | shift (op : ShiftOp)
  | plain (steps : ValueType → Register → Register → Register → List Step)

def IntBinary.lowering : IntBinary → IntLowering
  | .add => .plain Sequence.addition
  | .sub => .plain Sequence.subtraction
  | .mul => .plain fun type => Sequence.commutative (.imul type) type
  | .and => .plain fun type => Sequence.commutative (.alu .and type) type
  | .or => .plain fun type => Sequence.commutative (.alu .or type) type
  | .xor => .plain fun type => Sequence.commutative (.alu .xor type) type
  | .divS | .divU => .divide .quotient
  | .remS | .remU => .divide .remainder
  | .shl => .shift .shl
  | .shrS => .shift .sar
  | .shrU => .shift .shr
  | .rotl => .shift .rol
  | .rotr => .shift .ror

def FloatBinary.steps (op : FloatBinary) (type : ValueType) (dst left right : Register) :
    List Step :=
  match op with
  | .add => Sequence.commutative (.sse .add type) type dst left right
  | .mul => Sequence.commutative (.sse .mul type) type dst left right
  | .sub => Sequence.ordered .sub type dst left right
  | .div => Sequence.ordered .div type dst left right
  | .min => Sequence.minMax type true dst left right
  | .max => Sequence.minMax type false dst left right
  | .copysign => Sequence.copysign type dst left right

def IntUnary.steps (op : IntUnary) (type : ValueType) (dst src : Register) : List Step :=
  match op with
  | .clz => Sequence.leadingZeros type dst src
  | .ctz => Sequence.trailingZeroCount type dst src
  | .popcnt => [.emit (.scan .popcnt type dst src)]

def FloatUnary.steps (op : FloatUnary) (type : ValueType) (dst src : Register) : List Step :=
  match op with
  | .abs => Sequence.absOrNeg type false dst src
  | .neg => Sequence.absOrNeg type true dst src
  | .ceil => [.emit (.round type dst src .up)]
  | .floor => [.emit (.round type dst src .down)]
  | .trunc => [.emit (.round type dst src .towardZero)]
  | .nearest => [.emit (.round type dst src .nearest)]
  | .sqrt => [.emit (.sse .sqrt type dst src)]

namespace Compile

def popOperands (type : ValueType) : Compile (Register × Register) := do
  expect 0 type
  expect 1 type
  let right ← popRegister RegSet.empty
  let left ← popRegister (RegSet.single right)
  return (left, right)

def lowerBinary (type result : ValueType)
    (steps : Register → Register → Register → Compile (List Step)) : Compile Unit := do
  let (left, right) ← popOperands type
  let wishes := if type.regClass = result.regClass then [left, right] else []
  let dst ← takeRegister result.regClass wishes RegSet.empty
  emit (← steps dst left right)
  pushRegister result dst

/-- Frees a register that a division overwrites. -/
def vacate (reg : Register) : Compile Unit := do
  if (← get).layout.used.has reg then spillRegister reg

def lowerDivision (part : Sequence.DivisionPart) (type : ValueType) (signed : Bool) :
    Compile Unit := do
  let (left, right) ← popOperands type
  let divideByZero ← addTrap .divideByZero
  let overflow ← if signed ∧ part = .quotient then addTrap .integerOverflow
    else pure divideByZero
  vacate .rax
  vacate .rdx
  let dst ← takeRegister .gp [left, right] RegSet.empty
  emit (Sequence.division part type signed dst left right divideByZero overflow)
  pushRegister type dst

def lowerIntBinary (width : IntWidth) (op : IntBinary) : Compile Unit :=
  match op.lowering with
  | .divide part => lowerDivision part width.type op.signed
  | .shift shift =>
    lowerBinary width.type width.type fun dst left right => do
      let live := (← get).layout.used.has .rcx
      return Sequence.shift shift width.type dst left right live
  | .plain steps =>
    lowerBinary width.type width.type fun dst left right =>
      pure (steps width.type dst left right)

def lowerUnary (type result : ValueType) (steps : Register → Register → List Step) :
    Compile Unit := do
  expect 0 type
  let src ← popRegister RegSet.empty
  let dst ← takeRegister result.regClass [src] RegSet.empty
  emit (steps dst src)
  pushRegister result dst

def isZero (type : ValueType) (dst src : Register) : List Step :=
  [.emit (.test type src src), .emit (.setcc .equal dst), .emit (.extend .zero8 .i32 dst dst)]

def lowerConversion (op : Conversion) : Compile Unit := do
  expect 0 op.operand
  let src ← popRegister RegSet.empty
  let wishes := if src.regClass = op.result.regClass then [src] else []
  let dst ← takeRegister op.result.regClass wishes RegSet.empty
  let trap ← match op with
    | .truncate _ _ _ => Target.label <$> addTrap .invalidConversion
    | _ => pure .missing
  emit (Sequence.conversion op dst src trap)
  pushRegister op.result dst

end Compile

end WasmX64
