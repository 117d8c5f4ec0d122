import WasmX64.Code.Program
import WasmX64.Code.Step

/-!
# Moves, constants and memory accesses

Instruction sequences that copy values between registers, constants, frame slots
and memory.
-/

namespace WasmX64.Sequence

/-- Copies a register; nothing when source and destination agree. -/
def move (type : ValueType) (dst src : Register) : List Step :=
  if dst = src then [] else [.emit (.mov type dst src)]

/-- The number of zero bits below the lowest one of a positive number. -/
def trailingZeros : Nat → Nat → Nat
  | 0, _ => 0
  | fuel + 1, bits => if bits % 2 = 1 then 0 else trailingZeros fuel (bits / 2) + 1

/-- Whether a positive number has the ones of its binary form side by side. -/
def isRun (bits : Nat) : Bool :=
  let body := bits >>> trailingZeros 64 bits
  body &&& (body + 1) = 0

/-- Loads floating-point bits that form one run of ones: all ones, shifted left
and right. -/
def loadRun (type : ValueType) (dst : Register) (bits : Nat) : List Step :=
  let trailing := trailingZeros 64 bits
  let leading := type.bits - 1 - Nat.log2 bits
  [.emit (.equalLanes dst dst)] ++
    (if trailing = 0 then []
      else [.emit (.shiftLanes true type dst (UInt8.ofNat (trailing + leading)))]) ++
    (if leading = 0 then [] else [.emit (.shiftLanes false type dst (UInt8.ofNat leading))])

def loadInteger (type : ValueType) (dst : Register) (bits : UInt64) : List Step :=
  if bits = 0 then [.emit (.alu .xor .i32 dst dst)]
  else if type = .i32 then [.emit (.movImm type dst (bits &&& 0xffffffff).toInt64)]
  else [.emit (.movImm type dst bits.toInt64)]

/-- Loads the raw bits of a float: zero by exclusive or, a run of ones by shifts,
anything else by way of a scratch register. -/
def loadFloat (type word : ValueType) (dst : Register) (bits : UInt64) : List Step :=
  if bits = 0 then [.emit (.logic .xor type dst dst)]
  else if isRun bits.toNat then loadRun type dst bits.toNat
  else [.emit (.movImm word .r10 bits.toInt64), .emit (.movToFp word dst .r10)]

def loadConstant (type : ValueType) (dst : Register) (bits : UInt64) : List Step :=
  match type with
  | .i32 | .i64 => loadInteger type dst bits
  | .f32 => loadFloat .f32 .i32 dst (bits &&& 0xffffffff)
  | .f64 => loadFloat .f64 .i64 dst bits
  | .unknown _ => [.fail (.constantType type)]

def spill (type : ValueType) (index : Int) (src : Register) : List Step :=
  if type.isFloat then [.emit (.floatStore type (.slot index) src)]
  else [.emit (.store type (.slot index) src)]

def spillConstant (type : ValueType) (index : Int) (bits : UInt64) : List Step :=
  match type with
  | .i32 => [.emit (.storeImm .i32 (.slot index) bits.toUInt32.toInt32)]
  | .i64 =>
    if fitsInt32 bits.toInt64.toInt then
      [.emit (.storeImm .i64 (.slot index) bits.toUInt32.toInt32)]
    else [.emit (.movImm .i64 .r10 bits.toInt64), .emit (.store .i64 (.slot index) .r10)]
  | _ => [.fail (.spilledConstantType type)]

def loadFrom (type : ValueType) (dst : Register) (address : Address) : List Step :=
  if type.isFloat then [.emit (.floatLoad type dst address)]
  else [.emit (.load type dst address)]

def fill (type : ValueType) (dst : Register) (index : Int) : List Step :=
  loadFrom type dst (.slot index)

def loadArgument (type : ValueType) (dst : Register) (index : Int) : List Step :=
  loadFrom type dst (.argument index)

/-- The address `[base + index + offset]` and the steps that prepare it.  An offset
beyond a signed displacement is added to the index in a scratch register. -/
def memoryAddress (base index : Register) (offset : UInt32) : Address × List Step :=
  if offset.toNat < 2147483648 then
    if index = .absent then (.based base (Int32.ofInt offset.toNat), [])
    else (⟨base, index, 1, Int32.ofInt offset.toNat⟩, [])
  else
    (⟨base, .r10, 1, 0⟩,
      [.emit (.movImm .i32 .r10 (Int64.ofInt offset.toNat))] ++
        (if index = .absent then [] else [.emit (.alu .add .i64 .r10 index)]))

def read (type : ValueType) (bytes : UInt8) (signed : Bool) (dst : Register)
    (address : Address) : List Step :=
  if type.isFloat then [.emit (.floatLoad type dst address)]
  else if bytes = 1 then
    if signed then [.emit (.extendLoad .sign8 type dst address)]
    else [.emit (.extendLoad .zero8 .i32 dst address)]
  else if bytes = 2 then
    if signed then [.emit (.extendLoad .sign16 type dst address)]
    else [.emit (.extendLoad .zero16 .i32 dst address)]
  else if bytes = 4 then
    if type = .i64 ∧ signed then [.emit (.extendLoad .sign32 .i64 dst address)]
    else [.emit (.load .i32 dst address)]
  else if bytes = 8 then [.emit (.load .i64 dst address)]
  else [.fail (.loadWidth bytes type)]

def write (type : ValueType) (bytes : UInt8) (address : Address) (src : Register) :
    List Step :=
  if type.isFloat then [.emit (.floatStore type address src)]
  else if bytes = 1 then [.emit (.storeByte address src)]
  else if bytes = 2 then [.emit (.storeWord address src)]
  else if bytes = 4 then [.emit (.store .i32 address src)]
  else if bytes = 8 then [.emit (.store .i64 address src)]
  else [.fail (.storeWidth bytes type)]

def pushValue (type : ValueType) (src : Register) : List Step :=
  if type.isFloat then
    [.emit (.aluImm .sub .i64 .rsp 8), .emit (.floatStore type (.based .rsp 0) src)]
  else [.emit (.push src)]

/-- Opens a frame whose size is filled in later. -/
def prologue : List Step :=
  [.emit (.push .rbp), .emit (.mov .i64 .rbp .rsp), .emit (.enterFrame 0)]

def epilogue : List Step :=
  [.emit (.mov .i64 .rsp .rbp), .emit (.pop .rbp), .emit .ret]

end WasmX64.Sequence

/-!
## Patchable fields

Instructions with a field that is filled in after the fact, and where that field
lies: the size of the frame and the address of a run-time object.
-/

namespace WasmX64.Code

/-- Where a field of `width` bytes at the end of the last instruction lies.  A
buffer with an error has not grown, and the field is taken to start at its end. -/
def fieldOffset (before after : Code) (width : Nat) : Nat :=
  if before.error.isSome then after.size else after.size - width

/-- Opens a frame and tells where its size has to be written. -/
def openFrame (code : Code) : Nat × Code :=
  let opened := code.place Sequence.prologue
  (code.fieldOffset opened 4, opened)

/-- Writes the size of a frame with a number of slots. -/
def setFrame (code : Code) (offset slots : Int) : Code :=
  code.patch offset (bytes32 (Program.frameSize slots))

/-- Loads a 64-bit immediate in the ten byte form and tells where it lies; -1 when
there is no such instruction. -/
def loadWide (code : Code) (dst : Register) (imm : UInt64) : Int × Code :=
  let loaded := code.emit (.movabs dst imm)
  if dst.isGp then (code.fieldOffset loaded 8, loaded) else (-1, loaded)

end WasmX64.Code
