import WasmX64.Machine.Register
import WasmX64.Wasm.Opcode

/-!
# Assembly errors

Everything that can go wrong while machine code is put together: operands that no
encoding exists for, jumps that cannot reach, labels used out of order and writes
outside the code.
-/

namespace WasmX64

inductive AddressError where
  /-- Neither base nor index: only relative to the instruction pointer. -/
  | noRegister
  | baseBank (reg : Register)
  | indexBank (reg : Register)
  | stackPointerIndex
  | scale (factor : UInt8)
deriving DecidableEq, Repr

def AddressError.message : AddressError → String
  | .noRegister => "asm: rip-relative addressing is not supported"
  | .baseBank reg => s!"asm: base register {reg.name} is not general purpose"
  | .indexBank reg => s!"asm: index register {reg.name} is not general purpose"
  | .stackPointerIndex => "asm: rsp cannot be used as an index register"
  | .scale factor => s!"asm: invalid index scale {factor.toNat}"

inductive CodeError where
  | address (cause : AddressError)
  | labelBound
  | nearRange
  /-- `what` names the instruction that was asked for. -/
  | notGp (what : String) (reg : Register)
  | notFp (what : String) (reg : Register)
  | notInteger (what : String) (type : ValueType)
  | notFloat (what : String) (type : ValueType)
  | constantType (type : ValueType)
  | spilledConstantType (type : ValueType)
  | loadWidth (bytes : UInt8) (type : ValueType)
  | storeWidth (bytes : UInt8) (type : ValueType)
  | notConversion (op : Opcode)
  | linkAfterBind (position : Nat)
  | readOutside (offset : Int) (size : Nat)
  | patchOutside (bytes : Nat) (offset : Int) (size : Nat)
  | reported (text : String)
deriving DecidableEq, Repr

def CodeError.message : CodeError → String
  | .address cause => cause.message
  | .labelBound => "asm: label already bound"
  | .nearRange => "asm: near jump out of range"
  | .notGp what reg => s!"asm: {what}: {reg.name} is not a general-purpose register"
  | .notFp what reg => s!"asm: {what}: {reg.name} is not a floating-point register"
  | .notInteger what type => s!"asm: {what}: want integer type, got {type.name}"
  | .notFloat what type => s!"asm: {what}: want float type, got {type.name}"
  | .constantType type => s!"asm: load constant of type {type.name}"
  | .spilledConstantType type => s!"asm: spill constant of type {type.name}"
  | .loadWidth bytes type => s!"asm: load of {bytes.toNat} bytes into {type.name}"
  | .storeWidth bytes type => s!"asm: store of {bytes.toNat} bytes from {type.name}"
  | .notConversion op => s!"asm: {op.name} is not a conversion"
  | .linkAfterBind position => s!"asm: link to bound label at {position}"
  | .readOutside offset size =>
    s!"asm: read of 4 bytes at {offset} outside code of length {size}"
  | .patchOutside bytes offset size =>
    "asm: patch of " ++ (if bytes = 1 then "1 byte" else s!"{bytes} bytes") ++
      s!" at {offset} outside code of length {size}"
  | .reported text => "asm: " ++ text

end WasmX64
