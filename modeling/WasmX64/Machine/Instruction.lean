import WasmX64.Machine.Address

/-!
# Machine instructions

The instructions the compiler emits, as data, and their encoding.  Integer forms
take the operand type to choose between 32 and 64 bits.  `Instruction.encode`
refuses operands of the wrong bank or type; what it accepts is one instruction.
-/

namespace WasmX64

/-- The two-operand integer group, by its number. -/
structure AluOp where
  code : UInt8
deriving DecidableEq, Repr, Inhabited

namespace AluOp
def add : AluOp := ⟨0⟩
def or : AluOp := ⟨1⟩
def and : AluOp := ⟨4⟩
def sub : AluOp := ⟨5⟩
def xor : AluOp := ⟨6⟩
def cmp : AluOp := ⟨7⟩
end AluOp

/-- The rotate and shift group, by its number. -/
structure ShiftOp where
  code : UInt8
deriving DecidableEq, Repr, Inhabited

namespace ShiftOp
def rol : ShiftOp := ⟨0⟩
def ror : ShiftOp := ⟨1⟩
def shl : ShiftOp := ⟨4⟩
def shr : ShiftOp := ⟨5⟩
def sar : ShiftOp := ⟨7⟩
end ShiftOp

/-- Scalar floating-point arithmetic, by its opcode byte. -/
structure SseOp where
  code : UInt8
deriving DecidableEq, Repr, Inhabited

namespace SseOp
def sqrt : SseOp := ⟨0x51⟩
def add : SseOp := ⟨0x58⟩
def mul : SseOp := ⟨0x59⟩
def sub : SseOp := ⟨0x5c⟩
def div : SseOp := ⟨0x5e⟩
end SseOp

/-- Packed logic on floating-point registers, by its opcode byte. -/
structure LogicOp where
  code : UInt8
deriving DecidableEq, Repr, Inhabited

namespace LogicOp
def and : LogicOp := ⟨0x54⟩
def andNot : LogicOp := ⟨0x55⟩
def or : LogicOp := ⟨0x56⟩
def xor : LogicOp := ⟨0x57⟩
end LogicOp

/-- A rounding direction, by its immediate. -/
structure RoundMode where
  code : UInt8
deriving DecidableEq, Repr, Inhabited

namespace RoundMode
def nearest : RoundMode := ⟨0⟩
def down : RoundMode := ⟨1⟩
def up : RoundMode := ⟨2⟩
def towardZero : RoundMode := ⟨3⟩
end RoundMode

/-- A zero or sign extension, by its number. -/
structure Extension where
  code : UInt8
deriving DecidableEq, Repr, Inhabited

namespace Extension

def zero8 : Extension := ⟨0⟩
def zero16 : Extension := ⟨1⟩
def sign8 : Extension := ⟨2⟩
def sign16 : Extension := ⟨3⟩
def sign32 : Extension := ⟨4⟩

def opcode (extension : Extension) : List UInt8 :=
  if extension = zero8 then [0x0f, 0xb6]
  else if extension = zero16 then [0x0f, 0xb7]
  else if extension = sign8 then [0x0f, 0xbe]
  else if extension = sign16 then [0x0f, 0xbf]
  else [0x63]

def fromByte (extension : Extension) : Bool :=
  extension = zero8 || extension = sign8

end Extension

structure Condition where
  code : UInt8
deriving DecidableEq, Repr, Inhabited

namespace Condition

def overflow : Condition := ⟨0⟩
def below : Condition := ⟨2⟩
def aboveEqual : Condition := ⟨3⟩
def equal : Condition := ⟨4⟩
def notEqual : Condition := ⟨5⟩
def belowEqual : Condition := ⟨6⟩
def above : Condition := ⟨7⟩
def negative : Condition := ⟨8⟩
def positive : Condition := ⟨9⟩

/-- Parity even: the outcome of comparing with a NaN. -/
def unordered : Condition := ⟨10⟩
def ordered : Condition := ⟨11⟩
def less : Condition := ⟨12⟩
def greaterEqual : Condition := ⟨13⟩
def lessEqual : Condition := ⟨14⟩
def greater : Condition := ⟨15⟩

def names : List String :=
  ["o", "no", "b", "ae", "e", "ne", "be", "a", "s", "ns", "p", "np", "l", "ge", "le", "g"]

def name (condition : Condition) : String :=
  names[(condition.code &&& 0x0f).toNat]?.getD ""

def ofName? (name : String) : Option Condition :=
  (names.findIdx? (· = name)).map fun index => ⟨UInt8.ofNat index⟩

def negate (condition : Condition) : Condition := ⟨condition.code ^^^ 1⟩

end Condition

inductive UnaryOp where
  | not
  | neg
  | div
  | idiv
deriving DecidableEq, Repr

/-- The name of a one-operand instruction and its number in the group. -/
def UnaryOp.info : UnaryOp → String × UInt8
  | .not => ("not", 2)
  | .neg => ("neg", 3)
  | .div => ("div", 6)
  | .idiv => ("idiv", 7)

inductive ScanOp where
  | bsr
  | bsf
  | popcnt
deriving DecidableEq, Repr

/-- The name, leading byte and opcode byte of a scan. -/
def ScanOp.info : ScanOp → String × Option UInt8 × UInt8
  | .bsr => ("bsr", none, 0xbd)
  | .bsf => ("bsf", none, 0xbc)
  | .popcnt => ("popcnt", some 0xf3, 0xb8)

inductive Instruction where
  | alu (op : AluOp) (type : ValueType) (dst src : Register)
  | aluLoad (op : AluOp) (type : ValueType) (dst : Register) (src : Address)
  | aluImm (op : AluOp) (type : ValueType) (dst : Register) (imm : Int32)
  | aluStoreImm (op : AluOp) (type : ValueType) (dst : Address) (imm : Int32)
  /-- Lowers the stack pointer by an immediate that always takes four bytes. -/
  | enterFrame (size : UInt32)
  | test (type : ValueType) (left right : Register)
  | testImm (type : ValueType) (reg : Register) (imm : Int32)
  | imul (type : ValueType) (dst src : Register)
  | unary (op : UnaryOp) (type : ValueType) (reg : Register)
  | cdq
  | cqo
  | shiftCl (op : ShiftOp) (type : ValueType) (reg : Register)
  | shiftImm (op : ShiftOp) (type : ValueType) (reg : Register) (imm : UInt8)
  | lea (type : ValueType) (dst : Register) (src : Address)
  | mov (type : ValueType) (dst src : Register)
  | movImm (type : ValueType) (dst : Register) (imm : Int64)
  /-- The ten byte form, whatever the value. -/
  | movabs (dst : Register) (imm : UInt64)
  | load (type : ValueType) (dst : Register) (src : Address)
  | store (type : ValueType) (dst : Address) (src : Register)
  | storeImm (type : ValueType) (dst : Address) (imm : Int32)
  | storeByte (dst : Address) (src : Register)
  | storeWord (dst : Address) (src : Register)
  | extend (extension : Extension) (type : ValueType) (dst src : Register)
  | extendLoad (extension : Extension) (type : ValueType) (dst : Register) (src : Address)
  | setcc (condition : Condition) (dst : Register)
  | scan (op : ScanOp) (type : ValueType) (dst src : Register)
  | push (reg : Register)
  | pop (reg : Register)
  | pushImm (imm : Int32)
  | pushLoad (src : Address)
  | callReg (reg : Register)
  | jmpReg (reg : Register)
  | jmpLoad (src : Address)
  | ret
  | int3
  | sse (op : SseOp) (type : ValueType) (dst src : Register)
  | logic (op : LogicOp) (type : ValueType) (dst src : Register)
  | ucomis (type : ValueType) (left right : Register)
  | floatLoad (type : ValueType) (dst : Register) (src : Address)
  | floatStore (type : ValueType) (dst : Address) (src : Register)
  | movToFp (type : ValueType) (dst src : Register)
  | movFromFp (type : ValueType) (dst src : Register)
  | convertInt (target source : ValueType) (dst src : Register)
  | truncateFloat (target source : ValueType) (dst src : Register)
  | singleToDouble (dst src : Register)
  | doubleToSingle (dst src : Register)
  | round (type : ValueType) (dst src : Register) (mode : RoundMode)
  | signBits (type : ValueType) (dst src : Register)
  | equalLanes (dst src : Register)
  | shiftLanes (left : Bool) (type : ValueType) (reg : Register) (imm : UInt8)
deriving DecidableEq, Repr

/-- The fixed part of an instruction with a ModRM byte. -/
structure OpcodeForm where
  legacy : Option UInt8 := none
  wide : Bool := false
  /-- Asks for a REX byte even if it holds no bit. -/
  forceRex : Bool := false
  opcode : List UInt8
deriving DecidableEq, Repr

namespace OpcodeForm

def rex (form : OpcodeForm) (reg : UInt8) (rm : UInt8) : List UInt8 :=
  let extendsReg := reg &&& 0x08 ≠ 0
  if !form.wide && !extendsReg && !form.forceRex && rm = 0 then []
  else
    [0x40 ||| rm ||| (if form.wide then 0x08 else 0) ||| (if extendsReg then 0x04 else 0)]

/-- The bytes of an instruction up to its displacement. -/
def bytes (form : OpcodeForm) (reg : UInt8) (rm : RmOperand) : List UInt8 :=
  form.legacy.toList ++ form.rex reg rm.rex ++ form.opcode ++ rm.bytes reg

def withReg (form : OpcodeForm) (reg : UInt8) (rm : Register) : List UInt8 :=
  form.bytes reg (.ofRegister rm)

def withAddress (form : OpcodeForm) (reg : UInt8) (address : Address) :
    Except CodeError (List UInt8) :=
  match address.encode with
  | .ok operand => .ok (form.bytes reg operand)
  | .error cause => .error (.address cause)

end OpcodeForm

namespace Instruction

def needGp (what : String) (regs : List Register) : Except CodeError Unit :=
  match regs.find? (!·.isGp) with
  | some reg => .error (.notGp what reg)
  | none => .ok ()

def needFp (what : String) (regs : List Register) : Except CodeError Unit :=
  match regs.find? (!·.isFp) with
  | some reg => .error (.notFp what reg)
  | none => .ok ()

def needInteger (what : String) (type : ValueType) : Except CodeError Unit :=
  if type.isInteger then .ok () else .error (.notInteger what type)

def needFloat (what : String) (type : ValueType) : Except CodeError Unit :=
  if type.isFloat then .ok () else .error (.notFloat what type)

def scalarByte (type : ValueType) : UInt8 :=
  if type = .f64 then 0xf2 else 0xf3

/-- The leading byte of packed forms, which single precision does without. -/
def packedByte? (type : ValueType) : Option UInt8 :=
  if type = .f64 then some 0x66 else none

def lowByteNeedsRex (reg : Register) : Bool :=
  reg.isGp && 4 ≤ reg.code

def integerForm (type : ValueType) (opcode : List UInt8) : OpcodeForm :=
  { wide := type = .i64, opcode }

def shortForm (wide : Bool) (opcode : UInt8) (reg : Register) : List UInt8 :=
  let rex : UInt8 := (if wide then 0x48 else 0) ||| (if reg.high then 0x41 else 0)
  (if rex = 0 then [] else [rex]) ++ [opcode + reg.low]

/-- A byte immediate behind `short` when the value fits one, four bytes behind
`long` otherwise. -/
def withImm (imm : Int32) (short long : Except CodeError (List UInt8)) :
    Except CodeError (List UInt8) := do
  if fitsInt8 imm.toInt then return (← short) ++ [byteOf imm.toInt]
  else return (← long) ++ bytes32 (wordOf imm.toInt)

/-- The shortest move of a 64-bit constant: sign-extended, zero-extended or whole. -/
def moveConstant (dst : Register) (imm : Int64) : List UInt8 :=
  if fitsInt32 imm.toInt then
    (integerForm .i64 [0xc7]).withReg 0 dst ++ bytes32 (wordOf imm.toInt)
  else if 0 ≤ imm.toInt ∧ imm.toInt < 4294967296 then
    shortForm false 0xb8 dst ++ bytes32 (wordOf imm.toInt)
  else shortForm true 0xb8 dst ++ bytes64 imm.toUInt64

def encode : Instruction → Except CodeError (List UInt8)
  | .alu op type dst src => do
    needInteger "alu" type; needGp "alu" [dst, src]
    return (integerForm type [op.code <<< 3 ||| 0x01]).withReg src.bits4 dst
  | .aluLoad op type dst src => do
    needInteger "alu" type; needGp "alu" [dst]
    (integerForm type [op.code <<< 3 ||| 0x03]).withAddress dst.bits4 src
  | .aluImm op type dst imm => do
    needInteger "alu" type; needGp "alu" [dst]
    withImm imm (.ok ((integerForm type [0x83]).withReg op.code dst))
      (.ok ((integerForm type [0x81]).withReg op.code dst))
  | .aluStoreImm op type dst imm => do
    needInteger "alu" type
    withImm imm ((integerForm type [0x83]).withAddress op.code dst)
      ((integerForm type [0x81]).withAddress op.code dst)
  | .enterFrame size =>
    .ok ((integerForm .i64 [0x81]).withReg AluOp.sub.code .rsp ++ bytes32 size)
  | .test type left right => do
    needInteger "test" type; needGp "test" [left, right]
    return (integerForm type [0x85]).withReg right.bits4 left
  | .testImm type reg imm => do
    needInteger "test" type; needGp "test" [reg]
    return (integerForm type [0xf7]).withReg 0 reg ++ bytes32 (wordOf imm.toInt)
  | .imul type dst src => do
    needInteger "imul" type; needGp "imul" [dst, src]
    return (integerForm type [0x0f, 0xaf]).withReg dst.bits4 src
  | .unary op type reg => do
    needInteger op.info.1 type; needGp op.info.1 [reg]
    return (integerForm type [0xf7]).withReg op.info.2 reg
  | .cdq => .ok [0x99]
  | .cqo => .ok [0x48, 0x99]
  | .shiftCl op type reg => do
    needInteger "shift" type; needGp "shift" [reg]
    return (integerForm type [0xd3]).withReg op.code reg
  | .shiftImm op type reg imm => do
    needInteger "shift" type; needGp "shift" [reg]
    return (integerForm type [0xc1]).withReg op.code reg ++ [imm]
  | .lea type dst src => do
    needInteger "lea" type; needGp "lea" [dst]
    (integerForm type [0x8d]).withAddress dst.bits4 src
  | .mov type dst src => do
    if type.isFloat then
      needFp "mov" [dst, src]
      return OpcodeForm.withReg { legacy := packedByte? type, opcode := [0x0f, 0x28] }
        dst.bits4 src
    else
      needInteger "mov" type; needGp "mov" [dst, src]
      return (integerForm type [0x89]).withReg src.bits4 dst
  | .movImm type dst imm => do
    needInteger "mov" type; needGp "mov" [dst]
    if type = .i32 then return shortForm false 0xb8 dst ++ bytes32 (wordOf imm.toInt)
    else return moveConstant dst imm
  | .movabs dst imm => do
    needGp "movabs" [dst]
    return shortForm true 0xb8 dst ++ bytes64 imm
  | .load type dst src => do
    needInteger "mov" type; needGp "mov" [dst]
    (integerForm type [0x8b]).withAddress dst.bits4 src
  | .store type dst src => do
    needInteger "mov" type; needGp "mov" [src]
    (integerForm type [0x89]).withAddress src.bits4 dst
  | .storeImm type dst imm => do
    needInteger "mov" type
    return (← (integerForm type [0xc7]).withAddress 0 dst) ++ bytes32 (wordOf imm.toInt)
  | .storeByte dst src => do
    needGp "movb" [src]
    OpcodeForm.withAddress { forceRex := lowByteNeedsRex src, opcode := [0x88] } src.bits4 dst
  | .storeWord dst src => do
    needGp "movw" [src]
    OpcodeForm.withAddress { legacy := some 0x66, opcode := [0x89] } src.bits4 dst
  | .extend extension type dst src => do
    needInteger "movx" type; needGp "movx" [dst, src]
    return OpcodeForm.withReg
      { wide := type = .i64 || extension = .sign32
        forceRex := extension.fromByte && lowByteNeedsRex src
        opcode := extension.opcode } dst.bits4 src
  | .extendLoad extension type dst src => do
    needInteger "movx" type; needGp "movx" [dst]
    OpcodeForm.withAddress
      { wide := type = .i64 || extension = .sign32, opcode := extension.opcode } dst.bits4 src
  | .setcc condition dst => do
    needGp "setcc" [dst]
    return OpcodeForm.withReg
      { forceRex := lowByteNeedsRex dst, opcode := [0x0f, 0x90 ||| condition.code] } 0 dst
  | .scan op type dst src => do
    needInteger op.info.1 type; needGp op.info.1 [dst, src]
    return OpcodeForm.withReg
      { legacy := op.info.2.1, wide := type = .i64, opcode := [0x0f, op.info.2.2] }
      dst.bits4 src
  | .push reg => do
    needGp "push" [reg]
    return shortForm false 0x50 reg
  | .pop reg => do
    needGp "pop" [reg]
    return shortForm false 0x58 reg
  | .pushImm imm =>
    withImm imm (.ok [0x6a]) (.ok [0x68])
  | .pushLoad src => OpcodeForm.withAddress { opcode := [0xff] } 6 src
  | .callReg reg => do
    needGp "call" [reg]
    return OpcodeForm.withReg { opcode := [0xff] } 2 reg
  | .jmpReg reg => do
    needGp "jmp" [reg]
    return OpcodeForm.withReg { opcode := [0xff] } 4 reg
  | .jmpLoad src => OpcodeForm.withAddress { opcode := [0xff] } 4 src
  | .ret => .ok [0xc3]
  | .int3 => .ok [0xcc]
  | .sse op type dst src => do
    needFloat "sse" type; needFp "sse" [dst, src]
    return OpcodeForm.withReg
      { legacy := some (scalarByte type), opcode := [0x0f, op.code] } dst.bits4 src
  | .logic op type dst src => do
    needFloat "logic" type; needFp "logic" [dst, src]
    return OpcodeForm.withReg
      { legacy := packedByte? type, opcode := [0x0f, op.code] } dst.bits4 src
  | .ucomis type left right => do
    needFloat "ucomis" type; needFp "ucomis" [left, right]
    return OpcodeForm.withReg
      { legacy := packedByte? type, opcode := [0x0f, 0x2e] } left.bits4 right
  | .floatLoad type dst src => do
    needFloat "movs" type; needFp "movs" [dst]
    OpcodeForm.withAddress
      { legacy := some (scalarByte type), opcode := [0x0f, 0x10] } dst.bits4 src
  | .floatStore type dst src => do
    needFloat "movs" type; needFp "movs" [src]
    OpcodeForm.withAddress
      { legacy := some (scalarByte type), opcode := [0x0f, 0x11] } src.bits4 dst
  | .movToFp type dst src => do
    needInteger "movd" type; needFp "movd" [dst]; needGp "movd" [src]
    return OpcodeForm.withReg
      { legacy := some 0x66, wide := type = .i64, opcode := [0x0f, 0x6e] } dst.bits4 src
  | .movFromFp type dst src => do
    needInteger "movd" type; needGp "movd" [dst]; needFp "movd" [src]
    return OpcodeForm.withReg
      { legacy := some 0x66, wide := type = .i64, opcode := [0x0f, 0x7e] } src.bits4 dst
  | .convertInt target source dst src => do
    needFloat "cvtsi2s" target; needInteger "cvtsi2s" source
    needFp "cvtsi2s" [dst]; needGp "cvtsi2s" [src]
    return OpcodeForm.withReg
      { legacy := some (scalarByte target), wide := source = .i64, opcode := [0x0f, 0x2a] }
      dst.bits4 src
  | .truncateFloat target source dst src => do
    needInteger "cvtts2si" target; needFloat "cvtts2si" source
    needGp "cvtts2si" [dst]; needFp "cvtts2si" [src]
    return OpcodeForm.withReg
      { legacy := some (scalarByte source), wide := target = .i64, opcode := [0x0f, 0x2c] }
      dst.bits4 src
  | .singleToDouble dst src => do
    needFp "cvtss2sd" [dst, src]
    return OpcodeForm.withReg { legacy := some 0xf3, opcode := [0x0f, 0x5a] } dst.bits4 src
  | .doubleToSingle dst src => do
    needFp "cvtsd2ss" [dst, src]
    return OpcodeForm.withReg { legacy := some 0xf2, opcode := [0x0f, 0x5a] } dst.bits4 src
  | .round type dst src mode => do
    needFloat "rounds" type; needFp "rounds" [dst, src]
    return OpcodeForm.withReg
      { legacy := some 0x66, opcode := [0x0f, 0x3a, if type = .f64 then 0x0b else 0x0a] }
      dst.bits4 src ++ [mode.code ||| 0x08]
  | .signBits type dst src => do
    needFloat "movmskp" type; needGp "movmskp" [dst]; needFp "movmskp" [src]
    return OpcodeForm.withReg
      { legacy := packedByte? type, opcode := [0x0f, 0x50] } dst.bits4 src
  | .equalLanes dst src => do
    needFp "pcmpeqd" [dst, src]
    return OpcodeForm.withReg { legacy := some 0x66, opcode := [0x0f, 0x76] } dst.bits4 src
  | .shiftLanes left type reg imm => do
    needFloat "pshift" type; needFp "pshift" [reg]
    return OpcodeForm.withReg
      { legacy := some 0x66, opcode := [0x0f, if type = .f64 then 0x73 else 0x72] }
      (if left then 6 else 2) reg ++ [imm]

end Instruction

end WasmX64
