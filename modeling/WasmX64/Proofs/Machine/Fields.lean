import WasmX64.Machine.Instruction
import WasmX64.Proofs.Code.Field
import WasmX64.Proofs.Register.Set

/-!
# Instructions that have an encoding

The demands of `Instruction.encode`, one operand at a time, and the addresses that
can be encoded.
-/

/-!
## Decoding machine code

What the processor reads from a sequence of bytes: leading bytes, REX, opcode, ModRM, SIB,
displacement and immediate, in this order.  The tables cover the part of the instruction
set that the compiler draws on; other opcodes do not decode.
-/

namespace WasmX64.Decode

/-- The width of an operand. -/
inductive Width where
  | byte
  | word
  | dword
  | qword
  | oword
deriving DecidableEq, Repr

/-- The precision of a floating-point operation. -/
inductive Precision where
  | single
  | double
deriving DecidableEq, Repr

/-- The width of a scalar. -/
def Precision.width : Precision → Width
  | .single => .dword
  | .double => .qword

/-- Scalar floating-point arithmetic. -/
inductive Arithmetic where
  | sqrt
  | add
  | mul
  | sub
  | min
  | div
  | max
deriving DecidableEq, Repr

/-- Packed logic. -/
inductive Logic where
  | and
  | andNot
  | or
  | xor
deriving DecidableEq, Repr

/-- What an instruction does to its operands. -/
inductive Operation where
  | add | or | adc | sbb | and | sub | xor | cmp
  | rol | ror | rcl | rcr | shl | shr | sar
  | test | not | neg | mul | imul | div | idiv
  | mov | movzx | movsx | movsxd | lea
  | push | pop | call | jmp | ret | int3
  /-- The sign of `rax` in the width of an operand is spread over `rdx`. -/
  | spread (width : Width)
  | set (condition : Condition)
  | bsf | bsr | popcnt
  | arithmetic (op : Arithmetic) (precision : Precision)
  | logic (op : Logic) (precision : Precision)
  | compareScalar (precision : Precision)
  | moveScalar (precision : Precision)
  | moveAligned (precision : Precision)
  | movd
  | fromInteger (precision : Precision)
  | truncate (precision : Precision)
  | widen
  | narrow
  | round (precision : Precision)
  | signMask (precision : Precision)
  | equalLanes
  | shiftLanes (left : Bool) (precision : Precision)
deriving DecidableEq, Repr

inductive Operand where
  | reg (width : Width) (reg : Register)
  /-- The second byte of one of the first four registers. -/
  | highByte (reg : Register)
  | vector (reg : Register)
  | memory (width : Width) (address : Address)
  /-- Memory at a distance from the next instruction. -/
  | relative (width : Width) (disp : Int32)
  | imm (value : Int)
deriving DecidableEq, Repr

/-- A decoded instruction. -/
structure Decoded where
  operation : Operation
  operands : List Operand
deriving DecidableEq, Repr

/-- The bytes that may precede an instruction. -/
structure Leading where
  /-- The operand size byte. -/
  narrow : Bool := false
  /-- The last repeat byte. -/
  repeats : Option UInt8 := none
deriving DecidableEq, Repr

/-- Reads leading bytes. -/
def readLeading (found : Leading) : List UInt8 → Leading × List UInt8
  | [] => (found, [])
  | byte :: rest =>
    if byte = 0x66 then readLeading { found with narrow := true } rest
    else if byte = 0xf2 ∨ byte = 0xf3 then readLeading { found with repeats := some byte } rest
    else (found, byte :: rest)

/-- The REX byte: whether there is one, and its bits. -/
structure Rex where
  present : Bool := false
  wide : Bool := false
  reg : Bool := false
  index : Bool := false
  base : Bool := false
deriving DecidableEq, Repr

/-- The bits of a REX byte. -/
def Rex.ofByte (byte : UInt8) : Rex where
  present := true
  wide := byte &&& 0x08 ≠ 0
  reg := byte &&& 0x04 ≠ 0
  index := byte &&& 0x02 ≠ 0
  base := byte &&& 0x01 ≠ 0

/-- Reads a REX byte if there is one. -/
def readRex : List UInt8 → Rex × List UInt8
  | [] => ({}, [])
  | byte :: rest => if byte &&& 0xf0 = 0x40 then (.ofByte byte, rest) else ({}, byte :: rest)

/-- The opcode maps, by the number of bytes of their opcodes. -/
inductive OpcodeMap where
  | one
  | two
  | three
deriving DecidableEq, Repr

def readOpcode : List UInt8 → Option (OpcodeMap × UInt8 × List UInt8)
  | [] => none
  | first :: rest =>
    if first ≠ 0x0f then some (.one, first, rest)
    else
      match rest with
      | [] => none
      | second :: rest =>
        if second = 0x38 then none
        else if second ≠ 0x3a then some (.two, second, rest)
        else
          match rest with
          | [] => none
          | third :: rest => some (.three, third, rest)

/-- Where an operand comes from. -/
inductive Kind where
  /-- A general-purpose register or memory by the r/m field. -/
  | rm (width : Width)
  /-- A general-purpose register by the register field. -/
  | reg (width : Width)
  /-- Memory by the r/m field. -/
  | memory (width : Width)
  | vectorReg
  /-- A vector register or memory of a width by the r/m field. -/
  | vectorRm (width : Width)
  /-- A vector register by the r/m field. -/
  | vectorOnly
  /-- A general-purpose register by the low bits of the opcode. -/
  | short (width : Width)
  /-- The register `cl`. -/
  | cl
  | imm8
  | signed8
  | signed16
  | signed32
  | signed64
deriving DecidableEq, Repr

/-- The width of integer operands. -/
def operandWidth (leading : Leading) (wide : Bool) : Width :=
  if wide then .qword else if leading.narrow then .word else .dword

/-- The width of operands that have no 32-bit form. -/
def stackWidth (leading : Leading) : Width :=
  if leading.narrow then .word else .qword

/-- An immediate in the width of the operands, four bytes at most. -/
def fullImmediate (leading : Leading) (wide : Bool) : Kind :=
  if leading.narrow && !wide then .signed16 else .signed32

def integerGroup (number : UInt8) : Option Operation :=
  [.add, .or, .adc, .sbb, .and, .sub, .xor, .cmp][number.toNat]?

/-- The rotations and shifts by number. -/
def shiftGroup (number : UInt8) : Option Operation :=
  [.rol, .ror, .rcl, .rcr, .shl, .shr, .shl, .sar][number.toNat]?

/-- The precision that a repeat byte stands for. -/
def Leading.scalar? (leading : Leading) : Option Precision :=
  if leading.repeats = some 0xf3 then some .single
  else if leading.repeats = some 0xf2 then some .double
  else none

/-- The precision of packed forms, which have no repeat byte. -/
def Leading.packed? (leading : Leading) : Option Precision :=
  if leading.repeats.isSome then none else if leading.narrow then some .double else some .single

/-- The one-byte opcodes.  `digit` is the register field of what may be a ModRM byte. -/
def lookupOne (leading : Leading) (wide : Bool) (opcode digit : UInt8) :
    Option (Operation × List Kind) :=
  let width := operandWidth leading wide
  let full := fullImmediate leading wide
  if leading.repeats.isSome then none
  else if opcode &&& 0xc7 = 0x01 then
    (integerGroup (opcode >>> 3)).map (·, [.rm width, .reg width])
  else if opcode &&& 0xc7 = 0x03 then
    (integerGroup (opcode >>> 3)).map (·, [.reg width, .rm width])
  else if opcode &&& 0xf8 = 0x50 then some (.push, [.short (stackWidth leading)])
  else if opcode &&& 0xf8 = 0x58 then some (.pop, [.short (stackWidth leading)])
  else if opcode = 0x63 then some (.movsxd, [.reg width, .rm .dword])
  else if opcode = 0x68 then some (.push, [full])
  else if opcode = 0x6a then some (.push, [.signed8])
  else if opcode = 0x81 then (integerGroup digit).map (·, [.rm width, full])
  else if opcode = 0x83 then (integerGroup digit).map (·, [.rm width, .signed8])
  else if opcode = 0x85 then some (.test, [.rm width, .reg width])
  else if opcode = 0x88 then some (.mov, [.rm .byte, .reg .byte])
  else if opcode = 0x89 then some (.mov, [.rm width, .reg width])
  else if opcode = 0x8b then some (.mov, [.reg width, .rm width])
  else if opcode = 0x8d then some (.lea, [.reg width, .memory width])
  else if opcode = 0x99 then some (.spread width, [])
  else if opcode &&& 0xf8 = 0xb8 then
    some (.mov, [.short width, if wide then .signed64 else full])
  else if opcode = 0xc1 then (shiftGroup digit).map (·, [.rm width, .imm8])
  else if opcode = 0xc3 then some (.ret, [])
  else if opcode = 0xc7 then if digit = 0 then some (.mov, [.rm width, full]) else none
  else if opcode = 0xcc then some (.int3, [])
  else if opcode = 0xd3 then (shiftGroup digit).map (·, [.rm width, .cl])
  else if opcode = 0xf7 then
    if digit = 0 then some (.test, [.rm width, full])
    else if digit = 2 then some (.not, [.rm width])
    else if digit = 3 then some (.neg, [.rm width])
    else if digit = 4 then some (.mul, [.rm width])
    else if digit = 5 then some (.imul, [.rm width])
    else if digit = 6 then some (.div, [.rm width])
    else if digit = 7 then some (.idiv, [.rm width])
    else none
  else if opcode = 0xff then
    if digit = 2 then some (.call, [.rm .qword])
    else if digit = 4 then some (.jmp, [.rm .qword])
    else if digit = 6 then some (.push, [.rm (stackWidth leading)])
    else none
  else none

/-- Scalar arithmetic by its opcode. -/
def arithmetic? (opcode : UInt8) : Option Arithmetic :=
  if opcode = 0x51 then some .sqrt
  else if opcode = 0x58 then some .add
  else if opcode = 0x59 then some .mul
  else if opcode = 0x5c then some .sub
  else if opcode = 0x5d then some .min
  else if opcode = 0x5e then some .div
  else if opcode = 0x5f then some .max
  else none

/-- Packed logic by its opcode. -/
def logic? (opcode : UInt8) : Option Logic :=
  if opcode = 0x54 then some .and
  else if opcode = 0x55 then some .andNot
  else if opcode = 0x56 then some .or
  else if opcode = 0x57 then some .xor
  else none

/-- The two-byte opcodes with scalar operands. -/
def lookupScalar (wide : Bool) (precision : Precision) (opcode : UInt8) :
    Option (Operation × List Kind) :=
  let integer : Width := if wide then .qword else .dword
  let scalar : Kind := .vectorRm precision.width
  if opcode = 0x10 then some (.moveScalar precision, [.vectorReg, scalar])
  else if opcode = 0x11 then some (.moveScalar precision, [scalar, .vectorReg])
  else if opcode = 0x2a then some (.fromInteger precision, [.vectorReg, .rm integer])
  else if opcode = 0x2c then some (.truncate precision, [.reg integer, scalar])
  else if opcode = 0x5a then
    some (if precision = .single then .widen else .narrow, [.vectorReg, scalar])
  else if opcode = 0xb8 then
    if precision = .single then some (.popcnt, [.reg integer, .rm integer]) else none
  else (arithmetic? opcode).map (.arithmetic · precision, [.vectorReg, scalar])

/-- The two-byte opcodes with packed operands. -/
def lookupPacked (wide : Bool) (precision : Precision) (opcode digit : UInt8) :
    Option (Operation × List Kind) :=
  let integer : Width := if wide then .qword else .dword
  let shift (lanes : Precision) : Option (Operation × List Kind) :=
    if digit = 2 then some (.shiftLanes false lanes, [.vectorOnly, .imm8])
    else if digit = 6 then some (.shiftLanes true lanes, [.vectorOnly, .imm8])
    else none
  if opcode = 0x28 then some (.moveAligned precision, [.vectorReg, .vectorRm .oword])
  else if opcode = 0x2e then
    some (.compareScalar precision, [.vectorReg, .vectorRm precision.width])
  else if opcode = 0x50 then some (.signMask precision, [.reg .dword, .vectorOnly])
  else if precision = .double ∧ opcode = 0x6e then some (.movd, [.vectorReg, .rm integer])
  else if precision = .double ∧ opcode = 0x7e then some (.movd, [.rm integer, .vectorReg])
  else if precision = .double ∧ opcode = 0x72 then shift .single
  else if precision = .double ∧ opcode = 0x73 then shift .double
  else if precision = .double ∧ opcode = 0x76 then
    some (.equalLanes, [.vectorReg, .vectorRm .oword])
  else (logic? opcode).map (.logic · precision, [.vectorReg, .vectorRm .oword])

/-- The two-byte opcodes of integer instructions. -/
def lookupTwo (leading : Leading) (wide : Bool) (opcode digit : UInt8) :
    Option (Operation × List Kind) :=
  let width := operandWidth leading wide
  if leading.repeats.isSome then leading.scalar?.bind (lookupScalar wide · opcode)
  else if opcode &&& 0xf0 = 0x90 then some (.set ⟨opcode &&& 0x0f⟩, [.rm .byte])
  else if opcode = 0xaf then some (.imul, [.reg width, .rm width])
  else if opcode = 0xb6 then some (.movzx, [.reg width, .rm .byte])
  else if opcode = 0xb7 then some (.movzx, [.reg width, .rm .word])
  else if opcode = 0xbc then some (.bsf, [.reg width, .rm width])
  else if opcode = 0xbd then some (.bsr, [.reg width, .rm width])
  else if opcode = 0xbe then some (.movsx, [.reg width, .rm .byte])
  else if opcode = 0xbf then some (.movsx, [.reg width, .rm .word])
  else leading.packed?.bind (lookupPacked wide · opcode digit)

/-- The three-byte opcodes. -/
def lookupThree (leading : Leading) (opcode : UInt8) : Option (Operation × List Kind) :=
  if leading.packed? ≠ some .double then none
  else if opcode = 0x0a then
    some (.round .single, [.vectorReg, .vectorRm .dword, .imm8])
  else if opcode = 0x0b then
    some (.round .double, [.vectorReg, .vectorRm .qword, .imm8])
  else none

def lookup (leading : Leading) (wide : Bool) (map : OpcodeMap) (opcode digit : UInt8) :
    Option (Operation × List Kind) :=
  match map with
  | .one => lookupOne leading wide opcode digit
  | .two => lookupTwo leading wide opcode digit
  | .three => lookupThree leading opcode

/-- What the r/m field of a ModRM byte stands for. -/
inductive RmField where
  | register (number : UInt8)
  | memory (address : Address)
  | relative (disp : Int32)
deriving DecidableEq, Repr

/-- The fields of a ModRM byte and of what belongs to it. -/
structure Fields where
  reg : UInt8
  rm : RmField
deriving DecidableEq, Repr

/-- Three bits with an extension bit. -/
def extendBits (bits : UInt8) (high : Bool) : UInt8 :=
  bits ||| (if high then 8 else 0)

def wordOfBytes (first second third fourth : UInt8) : UInt32 :=
  first.toUInt32 ||| second.toUInt32 <<< 8 ||| third.toUInt32 <<< 16 ||| fourth.toUInt32 <<< 24

def readByte : List UInt8 → Option (UInt8 × List UInt8)
  | [] => none
  | byte :: rest => some (byte, rest)

/-- Reads a 32-bit word. -/
def readWord : List UInt8 → Option (UInt32 × List UInt8)
  | first :: second :: third :: fourth :: rest =>
    some (wordOfBytes first second third fourth, rest)
  | _ => none

/-- Reads the displacement that the mode bits call for; without a base it has four
bytes. -/
def readDisplacement (mode : UInt8) (baseless : Bool) (bytes : List UInt8) :
    Option (Int32 × List UInt8) :=
  if mode = 2 ∨ baseless then (readWord bytes).map fun read => (read.1.toInt32, read.2)
  else if mode = 1 then (readByte bytes).map fun read => (read.1.toInt8.toInt32, read.2)
  else some (0, bytes)

/-- Reads the rest of a memory operand with a SIB byte.  An index of four is none. -/
def readScaled (rex : Rex) (mode : UInt8) : List UInt8 → Option (RmField × List UInt8)
  | [] => none
  | sib :: rest =>
    let index := extendBits ((sib >>> 3) &&& 7) rex.index
    let baseless : Bool := sib &&& 7 = 5 ∧ mode = 0
    let base : Register := if baseless then .absent else ⟨extendBits (sib &&& 7) rex.base⟩
    (readDisplacement mode baseless rest).map fun read =>
      (.memory (if index = 4 then .based base read.1
        else ⟨base, ⟨index⟩, (1 : UInt8) <<< (sib >>> 6), read.1⟩), read.2)

/-- Reads what the mode bits and the low bits of a ModRM byte call for. -/
def readRm (rex : Rex) (mode low : UInt8) (bytes : List UInt8) :
    Option (RmField × List UInt8) :=
  if mode = 3 then some (.register (extendBits low rex.base), bytes)
  else if low = 4 then readScaled rex mode bytes
  else if low = 5 ∧ mode = 0 then
    (readDisplacement mode true bytes).map fun read => (.relative read.1, read.2)
  else
    (readDisplacement mode false bytes).map fun read =>
      (.memory (.based ⟨extendBits low rex.base⟩ read.1), read.2)

/-- Reads a ModRM byte and what belongs to it. -/
def readModRM (rex : Rex) : List UInt8 → Option (Fields × List UInt8)
  | [] => none
  | byte :: rest =>
    (readRm rex (byte >>> 6) (byte &&& 7) rest).map fun read =>
      (⟨extendBits ((byte >>> 3) &&& 7) rex.reg, read.1⟩, read.2)

/-- Whether an operand is found through the ModRM byte. -/
def Kind.usesFields : Kind → Bool
  | .rm _ | .reg _ | .memory _ | .vectorReg | .vectorRm _ | .vectorOnly => true
  | _ => false

def Kind.readImmediate (kind : Kind) (bytes : List UInt8) : Option (Int × List UInt8) :=
  match kind with
  | .imm8 => (readByte bytes).map fun read => (read.1.toNat, read.2)
  | .signed8 => (readByte bytes).map fun read => (read.1.toInt8.toInt, read.2)
  | .signed16 =>
    (readByte bytes).bind fun low => (readByte low.2).map fun high =>
      ((low.1.toUInt16 ||| high.1.toUInt16 <<< 8).toInt16.toInt, high.2)
  | .signed32 => (readWord bytes).map fun read => (read.1.toInt32.toInt, read.2)
  | .signed64 =>
    (readWord bytes).bind fun low => (readWord low.2).map fun high =>
      ((low.1.toUInt64 ||| high.1.toUInt64 <<< 32).toInt64.toInt, high.2)
  | _ => some (0, bytes)

/-- A general-purpose register operand.  Without a REX byte the numbers 4 to 7 stand for
the second bytes of the first four registers. -/
def generalOperand (rex : Bool) (width : Width) (number : UInt8) : Operand :=
  if width = .byte ∧ rex = false ∧ 4 ≤ number then .highByte ⟨number - 4⟩
  else .reg width ⟨number⟩

/-- The operand of a kind, given the fields and the low bits of the opcode. -/
def Kind.operand (rex : Rex) (low : UInt8) (fields : Fields) (value : Int) :
    Kind → Option Operand
  | .rm width =>
    match fields.rm with
    | .register number => some (generalOperand rex.present width number)
    | .memory address => some (.memory width address)
    | .relative disp => some (.relative width disp)
  | .reg width => some (generalOperand rex.present width fields.reg)
  | .memory width =>
    match fields.rm with
    | .register _ => none
    | .memory address => some (.memory width address)
    | .relative disp => some (.relative width disp)
  | .vectorReg => some (.vector ⟨16 + fields.reg⟩)
  | .vectorRm width =>
    match fields.rm with
    | .register number => some (.vector ⟨16 + number⟩)
    | .memory address => some (.memory width address)
    | .relative disp => some (.relative width disp)
  | .vectorOnly =>
    match fields.rm with
    | .register number => some (.vector ⟨16 + number⟩)
    | _ => none
  | .short width => some (.reg width ⟨extendBits low rex.base⟩)
  | .cl => some (.reg .byte .rcx)
  | .imm8 | .signed8 | .signed16 | .signed32 | .signed64 => some (.imm value)

/-- Reads the immediate of an instruction, which has at most one. -/
def readImmediates : List Kind → List UInt8 → Option (Int × List UInt8)
  | [], bytes => some (0, bytes)
  | [kind], bytes => kind.readImmediate bytes
  | _ :: kinds, bytes => readImmediates kinds bytes

/-- Reads the fields if an operand is found through them. -/
def readFields (rex : Rex) (kinds : List Kind) (bytes : List UInt8) :
    Option (Fields × List UInt8) :=
  if kinds.any Kind.usesFields then readModRM rex bytes
  else some (⟨0, .register 0⟩, bytes)

def decodeOpcode (leading : Leading) (rex : Rex) (bytes : List UInt8) :
    Option (Decoded × List UInt8) := do
  let (map, opcode, bytes) ← readOpcode bytes
  let digit := (bytes.head?.getD 0 >>> 3) &&& 7
  let (operation, kinds) ← lookup leading rex.wide map opcode digit
  let (fields, bytes) ← readFields rex kinds bytes
  let (value, bytes) ← readImmediates kinds bytes
  let operands ← kinds.mapM (Kind.operand rex (opcode &&& 7) fields value)
  return (⟨operation, operands⟩, bytes)

/-- Decodes one instruction and tells what follows it. -/
def decode (bytes : List UInt8) : Option (Decoded × List UInt8) :=
  let (leading, bytes) := readLeading {} bytes
  let (rex, bytes) := readRex bytes
  decodeOpcode leading rex bytes

example : decode [0x66, 0x44, 0x0f, 0x28, 0xc1, 0x90] =
    some (⟨.moveAligned .double, [.vector (.xmm 8), .vector (.xmm 1)]⟩, [0x90]) := by decide +kernel

end WasmX64.Decode

namespace WasmX64

namespace Address

theorem encode_based {base : Register} (general : base.isGp = true) (disp : Int32) :
    (Address.based base disp).encode = .ok (encodeBase base disp) := by
  have present : base ≠ .absent := by
    intro equality
    rw [equality] at general
    exact absurd general (by decide)
  simp [encode, based, present, general]

theorem encode_slot (index : Int) :
    (Address.slot index).encode =
      .ok (encodeBase .rbp (Int32.ofInt (-8 * index - 8))) :=
  encode_based (by decide) _

end Address

namespace Instruction

@[simp] theorem needGp_nil (what : String) : needGp what [] = .ok () := rfl

@[simp] theorem needGp_cons (what : String) (reg : Register) (rest : List Register) :
    needGp what (reg :: rest) =
      if reg.isGp then needGp what rest else .error (.notGp what reg) := by
  cases general : reg.isGp <;> simp [needGp, general]

@[simp] theorem needFp_nil (what : String) : needFp what [] = .ok () := rfl

@[simp] theorem needFp_cons (what : String) (reg : Register) (rest : List Register) :
    needFp what (reg :: rest) =
      if reg.isFp then needFp what rest else .error (.notFp what reg) := by
  cases vector : reg.isFp <;> simp [needFp, vector]

end Instruction

/-! ## Operands read back

The bytes of an instruction with a ModRM byte, read back field by field: the leading bytes,
the REX bits, and the register or address that was encoded.
-/

namespace Decode

theorem byte_cases (holds : UInt8 → Prop) (bound : Nat)
    (each : ∀ index : Fin bound, holds (UInt8.ofNat index)) {byte : UInt8}
    (small : byte.toNat < bound) : holds byte := by
  have found := each ⟨byte.toNat, small⟩
  rwa [UInt8.ofNat_toNat] at found

/-- The three bits of a register inside a byte. -/
theorem low_lt (byte : UInt8) : (byte &&& 7).toNat < 8 := by
  rw [UInt8.toNat_and]
  exact Nat.lt_of_le_of_lt Nat.and_le_right (by decide)

theorem extendBits_split {field : UInt8} (small : field.toNat < 16) :
    extendBits (field &&& 7) (field &&& 8 ≠ 0) = field :=
  byte_cases (fun field => extendBits (field &&& 7) (field &&& 8 ≠ 0) = field) 16 (by decide)
    small

theorem modrm_fields {low : UInt8} (lowSmall : low.toNat < 8) {mode : UInt8}
    (modeKnown : mode ∈ [0x00, 0x40, 0x80, 0xc0]) (reg : UInt8) :
    (low ||| mode ||| (reg &&& 7) <<< 3) >>> 6 = mode >>> 6 ∧
      ((low ||| mode ||| (reg &&& 7) <<< 3) >>> 3) &&& 7 = reg &&& 7 ∧
      (low ||| mode ||| (reg &&& 7) <<< 3) &&& 7 = low := by
  have all : ∀ mode ∈ ([0x00, 0x40, 0x80, 0xc0] : List UInt8), ∀ low reg : Fin 8,
      (UInt8.ofNat low ||| mode ||| UInt8.ofNat reg <<< 3) >>> 6 = mode >>> 6 ∧
        ((UInt8.ofNat low ||| mode ||| UInt8.ofNat reg <<< 3) >>> 3) &&& 7 = UInt8.ofNat reg ∧
        (UInt8.ofNat low ||| mode ||| UInt8.ofNat reg <<< 3) &&& 7 = UInt8.ofNat low := by
    decide +kernel
  have found := all mode modeKnown ⟨low.toNat, lowSmall⟩ ⟨(reg &&& 7).toNat, low_lt reg⟩
  simpa only [UInt8.ofNat_toNat] using found

theorem sib_fields {scale index base : UInt8} (scaleSmall : scale.toNat < 4)
    (indexSmall : index.toNat < 8) (baseSmall : base.toNat < 8) :
    (scale <<< 6 ||| index <<< 3 ||| base) >>> 6 = scale ∧
      ((scale <<< 6 ||| index <<< 3 ||| base) >>> 3) &&& 7 = index ∧
      (scale <<< 6 ||| index <<< 3 ||| base) &&& 7 = base := by
  have all : ∀ (scale : Fin 4) (index base : Fin 8),
      (UInt8.ofNat scale <<< 6 ||| UInt8.ofNat index <<< 3 ||| UInt8.ofNat base) >>> 6 =
          UInt8.ofNat scale ∧
        ((UInt8.ofNat scale <<< 6 ||| UInt8.ofNat index <<< 3 ||| UInt8.ofNat base) >>> 3) &&& 7 =
          UInt8.ofNat index ∧
        (UInt8.ofNat scale <<< 6 ||| UInt8.ofNat index <<< 3 ||| UInt8.ofNat base) &&& 7 =
          UInt8.ofNat base := by
    decide +kernel
  have found := all ⟨scale.toNat, scaleSmall⟩ ⟨index.toNat, indexSmall⟩ ⟨base.toNat, baseSmall⟩
  simpa only [UInt8.ofNat_toNat] using found

theorem readWord_bytes32 (word : UInt32) (rest : List UInt8) :
    readWord (bytes32 word ++ rest) = some (word, rest) := by
  have joined := join_bytes32 word
  simp only [bytes32, List.cons_append, List.nil_append, readWord, wordOfBytes, joined]

end Decode

namespace Register

theorem code_lt_of_isGp {reg : Register} (general : reg.isGp = true) : reg.code.toNat < 16 := by
  have below : reg.code < 16 := by simpa [isGp] using general
  exact UInt8.lt_iff_toNat_lt.mp below

theorem bits4_lt (reg : Register) : reg.bits4.toNat < 16 := by
  unfold bits4
  rw [UInt8.toNat_and]
  exact Nat.lt_of_le_of_lt Nat.and_le_right (by decide)

theorem low_lt (reg : Register) : reg.low.toNat < 8 := Decode.low_lt reg.code

theorem extendBits_low (reg : Register) : Decode.extendBits reg.low reg.high = reg.bits4 :=
  Decode.byte_cases
    (fun code => Decode.extendBits (Register.mk code).low (Register.mk code).high =
      (Register.mk code).bits4) 256 (by decide +kernel) (UInt8.toNat_lt reg.code)

theorem eq_of_bits4 {reg : Register} (general : reg.isGp = true) : ⟨reg.bits4⟩ = reg :=
  Decode.byte_cases (fun code => (⟨(Register.mk code).bits4⟩ : Register) = ⟨code⟩) 16 (by decide)
    (code_lt_of_isGp general)

theorem eq_of_bits4_vector {reg : Register} (vector : reg.isFp = true) :
    ⟨16 + reg.bits4⟩ = reg := by
  have below := code_lt_of_isMachine (isMachine_of_isFp vector)
  have above : 16 ≤ reg.code := by simp_all [isFp]
  exact Decode.byte_cases
    (fun code => 16 ≤ code → (⟨16 + (Register.mk code).bits4⟩ : Register) = ⟨code⟩) 32
    (by decide) below above

end Register

open Decode

/-- An encoded r/m operand stands for a register or an address, whatever the register
field and the REX bits that are not its own. -/
structure RmOperand.Reads (operand : RmOperand) (rm : RmField) : Prop where
  rexSmall : operand.rex.toNat < 4
  digit : ∀ reg : UInt8, ((operand.modrm ||| (reg &&& 7) <<< 3) >>> 3) &&& 7 = reg &&& 7
  fields : ∀ (rex : Rex) (reg : UInt8) (rest : List UInt8),
    rex.index = decide (operand.rex &&& 2 ≠ 0) → rex.base = decide (operand.rex &&& 1 ≠ 0) →
    readModRM rex (operand.bytes reg ++ rest) =
      some (⟨extendBits (reg &&& 7) rex.reg, rm⟩, rest)

namespace RmOperand

theorem reads_of {operand : RmOperand} {rm : RmField} {low mode : UInt8}
    (modrm : operand.modrm = low ||| mode) (lowSmall : low.toNat < 8)
    (modeKnown : mode ∈ [0x00, 0x40, 0x80, 0xc0]) (rexSmall : operand.rex.toNat < 4)
    (rest : ∀ (rex : Rex) (rest : List UInt8),
      rex.index = decide (operand.rex &&& 2 ≠ 0) → rex.base = decide (operand.rex &&& 1 ≠ 0) →
      readRm rex (mode >>> 6) low (operand.sib.toList ++ operand.disp ++ rest) =
        some (rm, rest)) : operand.Reads rm := by
  constructor
  · exact rexSmall
  · intro reg
    rw [modrm]
    exact (modrm_fields lowSmall modeKnown reg).2.1
  · intro rex reg after index base
    obtain ⟨high, digit, bits⟩ := modrm_fields lowSmall modeKnown reg
    rw [RmOperand.bytes, modrm, List.cons_append, List.cons_append, readModRM, high, digit, bits,
      rest rex after index base, Option.map_some]

/-- The extension bit of a register in the r/m field. -/
theorem rex_of_high (high : Bool) :
    (if high then (1 : UInt8) else 0).toNat < 4 ∧
      decide ((if high then (1 : UInt8) else 0) &&& 1 ≠ 0) = high := by
  cases high with
  | false => decide
  | true => decide

theorem ofRegister_reads (rm : Register) :
    (RmOperand.ofRegister rm).Reads (.register rm.bits4) := by
  apply reads_of (UInt8.or_comm 0xc0 rm.low) rm.low_lt (by decide) (rex_of_high rm.high).1
  intro rex rest _ base
  have high : rex.base = rm.high := base.trans (rex_of_high rm.high).2
  rw [readRm, if_pos (by decide), high, rm.extendBits_low]
  rfl

end RmOperand

namespace Address

/-- An address as it is read back: without an index there is no factor, and a factor of zero
counts as one. -/
def normal (address : Address) : Address :=
  if address.index = .absent then .based address.base address.disp
  else if address.scale = 0 then { address with scale := 1 }
  else address

theorem displacement_known (base : Register) (disp : Int32) :
    (displacement base disp).1 ∈ [0x00, 0x40, 0x80, 0xc0] := by
  unfold displacement
  split
  · simp
  · split
    · simp
    · simp

theorem toInt32_byteOf {disp : Int32} (fits : fitsInt8 disp.toInt = true) :
    (byteOf disp.toInt).toInt8.toInt32 = disp := by
  apply Int32.toInt_inj.mp
  simp only [fitsInt8, Bool.and_eq_true, decide_eq_true_eq] at fits
  rw [Int8.toInt_toInt32, toInt_byteOf fits.1 fits.2]

theorem toInt32_wordOf (disp : Int32) : (wordOf disp.toInt).toInt32 = disp := by
  apply Int32.toInt_inj.mp
  have low := Int32.le_toInt disp
  have high := Int32.toInt_lt disp
  exact toInt_wordOf (by omega) (by omega)

theorem readDisplacement_byte {disp : Int32} (fits : fitsInt8 disp.toInt = true)
    (rest : List UInt8) :
    readDisplacement 1 false (byteOf disp.toInt :: rest) = some (disp, rest) := by
  change some ((byteOf disp.toInt).toInt8.toInt32, rest) = _
  rw [toInt32_byteOf fits]

theorem readDisplacement_word {mode : UInt8} {baseless : Bool}
    (full : mode = 2 ∨ baseless = true) (disp : Int32) (rest : List UInt8) :
    readDisplacement mode baseless (bytes32 (wordOf disp.toInt) ++ rest) =
      some (disp, rest) := by
  unfold readDisplacement
  rw [if_pos full, readWord_bytes32, Option.map_some, toInt32_wordOf]

/-- The displacement read back.  It is left out only where the mode bits leave the base in
place. -/
theorem displacement_reads (base : Register) (disp : Int32) (rest : List UInt8) :
    readDisplacement ((displacement base disp).1 >>> 6) false
        ((displacement base disp).2 ++ rest) = some (disp, rest) ∧
      ((displacement base disp).1 >>> 6 = 0 → base.low ≠ 5) ∧
      (displacement base disp).1 >>> 6 ≠ 3 := by
  unfold displacement
  split
  · rename_i zero
    refine ⟨?_, fun _ => zero.2, by decide⟩
    rw [zero.1]
    rfl
  · have one : (0x40 : UInt8) >>> 6 = 1 := by decide
    have two : (0x80 : UInt8) >>> 6 = 2 := by decide
    split
    · rename_i fits
      rw [one]
      exact ⟨readDisplacement_byte fits rest, fun none => absurd none (by decide), by decide⟩
    · rw [two]
      exact ⟨readDisplacement_word (.inl rfl) disp rest, fun none => absurd none (by decide),
        by decide⟩

theorem encodeBase_reads {base : Register} (general : base.isGp = true) (disp : Int32) :
    (encodeBase base disp).Reads (.memory (.based base disp)) := by
  apply RmOperand.reads_of rfl base.low_lt (displacement_known base disp)
    (RmOperand.rex_of_high base.high).1
  intro rex rest index extension
  have high : rex.base = base.high := extension.trans (RmOperand.rex_of_high base.high).2
  have lone : rex.index = false := by
    rw [index]
    change decide ((if base.high then (1 : UInt8) else 0) &&& 2 ≠ 0) = false
    cases base.high with
    | false => decide
    | true => decide
  have whole : (⟨extendBits base.low rex.base⟩ : Register) = base := by
    rw [high, base.extendBits_low, Register.eq_of_bits4 general]
  obtain ⟨reads, kept, direct⟩ := displacement_reads base disp rest
  rw [readRm, if_neg direct]
  unfold encodeBase
  by_cases stack : base.low = 4
  · rw [if_pos stack]
    simp only [if_pos stack, Option.toList_some, List.cons_append, List.nil_append]
    have four : extendBits (((0x24 : UInt8) >>> 3) &&& 7) rex.index = 4 := by
      rw [lone]
      decide
    have same : (0x24 : UInt8) &&& 7 = base.low := by
      rw [stack]
      decide
    have based : decide ((0x24 : UInt8) &&& 7 = 5 ∧ (displacement base disp).1 >>> 6 = 0) =
        false := by
      simp [same, stack]
    rw [readScaled, four, based, same, whole, reads]
    rfl
  · rw [if_neg stack, if_neg fun both => kept both.2 both.1]
    simp only [if_neg stack, Option.toList_none, List.nil_append]
    rw [reads, whole]
    rfl

/-- The factor of an index read back. -/
theorem scaleBits_reads {scale bits : UInt8} (found : scaleBits? scale = some bits) :
    bits.toNat < 4 ∧ (1 : UInt8) <<< bits = if scale = 0 then 1 else scale := by
  unfold scaleBits? at found
  split at found
  · rename_i small
    cases found
    cases small with
    | inl zero => subst zero; decide
    | inr one => subst one; decide
  · split at found
    · rename_i two
      cases found
      subst two
      decide
    · split at found
      · rename_i four
        cases found
        subst four
        decide
      · split at found
        · rename_i eight
          cases found
          subst eight
          decide
        · cases found

/-- The extension bits of an address with an index. -/
theorem rex_of_index (base index : Bool) :
    (if base then (if index then (2 : UInt8) else 0) ||| 1
        else if index then 2 else 0).toNat < 4 ∧
      decide ((if base then (if index then (2 : UInt8) else 0) ||| 1
        else if index then 2 else 0) &&& 2 ≠ 0) = index ∧
      decide ((if base then (if index then (2 : UInt8) else 0) ||| 1
        else if index then 2 else 0) &&& 1 ≠ 0) = base := by
  cases base with
  | false =>
    cases index with
    | false => decide
    | true => decide
  | true =>
    cases index with
    | false => decide
    | true => decide

theorem normal_indexed {address : Address} (indexed : address.index ≠ .absent) :
    address.normal = ⟨address.base, address.index,
      if address.scale = 0 then 1 else address.scale, address.disp⟩ := by
  unfold normal
  rw [if_neg indexed]
  split
  · rfl
  · rfl

theorem encodeIndexed_reads {address : Address} {scale : UInt8}
    (baseGeneral : address.base = .absent ∨ address.base.isGp = true)
    (indexGeneral : address.index.isGp = true) (indexed : address.index ≠ .absent)
    (free : address.index ≠ .rsp) (scaled : scaleBits? address.scale = some scale) :
    (address.encodeIndexed scale).Reads (.memory address.normal) := by
  obtain ⟨scaleSmall, factor⟩ := scaleBits_reads scaled
  have fieldLow := address.index.low_lt
  have notFour : address.index.bits4 ≠ 4 := by
    intro four
    apply free
    rw [← Register.eq_of_bits4 indexGeneral, four]
    rfl
  rw [normal_indexed indexed, ← factor]
  unfold encodeIndexed
  by_cases baseless : address.base = .absent
  · rw [if_pos baseless]
    obtain ⟨small, indexBit, _⟩ := rex_of_index false address.index.high
    apply RmOperand.reads_of (UInt8.or_zero).symm (show (4 : UInt8).toNat < 8 by decide)
      (by decide) small
    intro rex rest index extension
    have high : rex.index = address.index.high := index.trans indexBit
    obtain ⟨top, middle, bottom⟩ := sib_fields scaleSmall fieldLow
      (show (5 : UInt8).toNat < 8 by decide)
    rw [readRm, if_neg (by decide), if_pos rfl]
    simp only [Option.toList_some, List.cons_append, List.nil_append]
    rw [readScaled, top, middle, bottom, high, Register.extendBits_low]
    rw [readDisplacement_word (.inr (by decide)), Option.map_some, if_neg notFour,
      Register.eq_of_bits4 indexGeneral, baseless]
    rfl
  · rw [if_neg baseless]
    have general := baseGeneral.resolve_left baseless
    obtain ⟨small, indexBit, baseBit⟩ := rex_of_index address.base.high address.index.high
    apply RmOperand.reads_of rfl (by decide) (displacement_known address.base address.disp) small
    intro rex rest index extension
    have high : rex.index = address.index.high := index.trans indexBit
    have baseHigh : rex.base = address.base.high := extension.trans baseBit
    obtain ⟨reads, kept, direct⟩ := displacement_reads address.base address.disp rest
    obtain ⟨top, middle, bottom⟩ := sib_fields scaleSmall fieldLow address.base.low_lt
    have based : decide (address.base.low = 5 ∧
        (displacement address.base address.disp).1 >>> 6 = 0) = false := by
      rw [decide_eq_false_iff_not]
      exact fun both => kept both.2 both.1
    rw [readRm, if_neg direct, if_pos rfl]
    simp only [Option.toList_some, List.cons_append, List.nil_append]
    rw [readScaled, top, middle, bottom, high, baseHigh, Register.extendBits_low,
      Register.extendBits_low, based]
    rw [reads, Option.map_some, if_neg notFour, Register.eq_of_bits4 indexGeneral,
      Register.eq_of_bits4 general]
    rfl

/-- An address that has an encoding: a base or an index, both general-purpose, an index other
than the stack pointer and a factor that is a power of two up to eight. -/
structure Encodable (address : Address) : Prop where
  present : address.base ≠ .absent ∨ address.index ≠ .absent
  base : address.base = .absent ∨ address.base.isGp = true
  index : address.index = .absent ∨ address.index.isGp = true ∧ address.index ≠ .rsp ∧
    address.scale ∈ [0, 1, 2, 4, 8]

theorem encode_reads {address : Address} (encodable : address.Encodable) :
    ∃ operand, address.encode = .ok operand ∧ operand.Reads (.memory address.normal) := by
  obtain ⟨present, base, index⟩ := encodable
  have some : ¬ (address.base = .absent ∧ address.index = .absent) := by
    intro both
    exact present.elim (absurd both.1) (absurd both.2)
  have bank : ¬ (address.base ≠ .absent ∧ (!address.base.isGp) = true) := by
    intro both
    have general := base.resolve_left both.1
    simp [general] at both
  unfold encode
  rw [if_neg some, if_neg bank]
  by_cases lone : address.index = .absent
  · have based : address.base ≠ .absent := fun none => some ⟨none, lone⟩
    rw [if_pos lone, normal, if_pos lone]
    exact ⟨_, rfl, encodeBase_reads (base.resolve_left based) address.disp⟩
  · obtain ⟨general, free, factor⟩ := index.resolve_left lone
    have known : ∀ scale ∈ ([0, 1, 2, 4, 8] : List UInt8), (scaleBits? scale).isSome := by
      simp [scaleBits?]
    obtain ⟨scale, scaled⟩ := Option.isSome_iff_exists.mp (known _ factor)
    rw [if_neg lone, if_neg (by simp [general]), if_neg free, scaled]
    exact ⟨_, rfl, encodeIndexed_reads base general lone free scaled⟩

theorem encode_refuses {address : Address} (refused : ¬ address.Encodable) :
    ∃ cause, address.encode = .error cause := by
  unfold encode
  split
  · exact ⟨_, rfl⟩
  · rename_i some
    split
    · exact ⟨_, rfl⟩
    · rename_i bank
      have base : address.base = .absent ∨ address.base.isGp = true := by
        simpa [Decidable.or_iff_not_imp_left] using bank
      have present : address.base ≠ .absent ∨ address.index ≠ .absent := by
        simpa [Decidable.or_iff_not_imp_left] using some
      split
      · rename_i lone
        exact absurd ⟨present, base, .inl lone⟩ refused
      · split
        · exact ⟨_, rfl⟩
        · rename_i general
          split
          · exact ⟨_, rfl⟩
          · rename_i free
            split
            · exact ⟨_, rfl⟩
            · rename_i scale scaled
              refine absurd ⟨present, base, .inr ⟨by simpa using general, free, ?_⟩⟩ refused
              unfold scaleBits? at scaled
              simp only [List.mem_cons, List.not_mem_nil, or_false]
              grind

end Address

end WasmX64
