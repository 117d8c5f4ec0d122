import WasmX64.Code.Error
import WasmX64.Text.Quoted

/-!
# Addresses and r/m operands

An effective address `[base + index * scale + disp]` and its encoding as ModRM,
SIB and displacement bytes.  The shortest displacement is taken; `rsp` and `r12`
as bases force a SIB byte, `rbp` and `r13` a displacement.
-/

namespace WasmX64

def bytes32 (word : UInt32) : List UInt8 :=
  [word.toUInt8, (word >>> 8).toUInt8, (word >>> 16).toUInt8, (word >>> 24).toUInt8]

def bytes64 (word : UInt64) : List UInt8 :=
  bytes32 word.toUInt32 ++ bytes32 (word >>> 32).toUInt32

def fitsInt8 (value : Int) : Bool := -128 ≤ value && value ≤ 127

def fitsInt32 (value : Int) : Bool := -2147483648 ≤ value && value ≤ 2147483647

def byteOf (value : Int) : UInt8 := UInt8.ofNat (value % 256).toNat

def wordOf (value : Int) : UInt32 := UInt32.ofNat (value % 4294967296).toNat

/-- An effective address.  Base or index may be absent. -/
structure Address where
  base : Register
  index : Register
  scale : UInt8
  disp : Int32
deriving DecidableEq, Repr, Inhabited

namespace Address

def based (base : Register) (disp : Int32) : Address :=
  ⟨base, .absent, 1, disp⟩

def text (address : Address) : String :=
  let base := if address.base = .absent then [] else [address.base.name]
  let index :=
    if address.index = .absent then []
    else [address.index.name ++ s!"*{address.scale.toNat}"]
  let registers := base ++ index
  let disp :=
    if address.disp ≠ 0 ∨ registers.isEmpty then [Text.hexInteger address.disp.toInt] else []
  "[" ++ "+".intercalate (registers ++ disp) ++ "]"

/-- The spill slot with an index, below the frame pointer. -/
def slot (index : Int) : Address :=
  .based .rbp (Int32.ofInt (-8 * index - 8))

def argument (index : Int) : Address :=
  .based .rbp (Int32.ofInt (16 + 8 * index))

end Address

/-- An encoded r/m operand: ModRM with an empty register field, what follows it,
and the extension bits it needs. -/
structure RmOperand where
  modrm : UInt8
  sib : Option UInt8 := none
  disp : List UInt8 := []
  rex : UInt8 := 0
deriving DecidableEq, Repr

namespace RmOperand

/-- The bytes of an operand with a register field filled in. -/
def bytes (operand : RmOperand) (reg : UInt8) : List UInt8 :=
  (operand.modrm ||| (reg &&& 7) <<< 3) :: operand.sib.toList ++ operand.disp

def ofRegister (reg : Register) : RmOperand :=
  { modrm := 0xc0 ||| reg.low, rex := if reg.high then 1 else 0 }

end RmOperand

namespace Address

/-- The two scale bits of an index factor; 0 counts as 1. -/
def scaleBits? (scale : UInt8) : Option UInt8 :=
  if scale = 0 ∨ scale = 1 then some 0
  else if scale = 2 then some 1
  else if scale = 4 then some 2
  else if scale = 8 then some 3
  else none

/-- The mode bits and displacement bytes of an address with a base. -/
def displacement (base : Register) (disp : Int32) : UInt8 × List UInt8 :=
  if disp = 0 ∧ base.low ≠ 5 then (0x00, [])
  else if fitsInt8 disp.toInt then (0x40, [byteOf disp.toInt])
  else (0x80, bytes32 (wordOf disp.toInt))

def encodeBase (base : Register) (disp : Int32) : RmOperand :=
  let (mode, bytes) := displacement base disp
  { modrm := base.low ||| mode
    sib := if base.low = 4 then some 0x24 else none
    disp := bytes
    rex := if base.high then 1 else 0 }

/-- Encodes an address with an index, which always takes a SIB byte. -/
def encodeIndexed (address : Address) (scale : UInt8) : RmOperand :=
  let field := scale <<< 6 ||| address.index.low <<< 3
  let extended : UInt8 := if address.index.high then 2 else 0
  if address.base = .absent then
    { modrm := 0x04, sib := some (field ||| 0x05)
      disp := bytes32 (wordOf address.disp.toInt), rex := extended }
  else
    let (mode, bytes) := displacement address.base address.disp
    { modrm := 0x04 ||| mode, sib := some (field ||| address.base.low), disp := bytes
      rex := if address.base.high then extended ||| 1 else extended }

def encode (address : Address) : Except AddressError RmOperand :=
  if address.base = .absent ∧ address.index = .absent then .error .noRegister
  else if address.base ≠ .absent ∧ !address.base.isGp then .error (.baseBank address.base)
  else if address.index = .absent then .ok (encodeBase address.base address.disp)
  else if !address.index.isGp then .error (.indexBank address.index)
  else if address.index = .rsp then .error .stackPointerIndex
  else
    match scaleBits? address.scale with
    | none => .error (.scale address.scale)
    | some scale => .ok (address.encodeIndexed scale)

end Address

end WasmX64
