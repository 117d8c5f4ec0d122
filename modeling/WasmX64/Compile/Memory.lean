import WasmX64.Compile.Allocation

/-!
# Memory

Loads and stores with their bounds checks, and the size of memory.  An i32 in a
register has its upper half zero, so an index serves as a 64-bit address.
-/

namespace WasmX64.Compile

def demandMemory : Compile Unit := do
  if (← read).module.memory.isNone then malformed (.noMemory (← get).op)

/-- Code behind a certain trap is compiled for its types only. -/
def demoteBlock : Compile Unit :=
  modifyBlock 0 fun block => if block.isReached then { block with reach := .specOnly } else block

/-- Guards an access of `bytes` bytes at a static offset from an index, in the
scratch registers.  Where no memory is reserved at all, every access traps. -/
def checkBounds (index : Register) (offset : UInt32) (bytes : Nat) : Compile Unit := do
  let host := (← read).host
  let limit := host.memoryLimit
  let finish := offset.toNat + bytes
  if host.bounds = .unchecked ∧ limit ≠ 0 then return
  if limit < finish then
    let trap ← addTrap .outOfBounds
    emit [.jump trap .far]
    demoteBlock
  else if host.bounds = .static then return
  else
    let trap ← addTrap .outOfBounds
    emit [.emit (.movImm .i64 .r10 (Int64.ofInt finish)), .emit (.alu .add .i64 .r10 index)]
    loadRef .r11 .memorySize 0
    emit [.emit (.aluLoad .cmp .i64 .r10 (.based .r11 0)), .jumpIf .above trap .far]

def lowerLoad (op : LoadOp) (offset : UInt32) : Compile Unit := do
  demandMemory
  expect 0 .i32
  let index ← popRegister RegSet.empty
  checkBounds index offset op.bytes
  machine { kind := .memoryAccess } do
    let base ← takeRegister .gp [] (RegSet.single index)
    loadRef base .memory 0
    let wishes := if op.result.isFloat then [] else [index]
    let dst ← takeRegister op.result.regClass wishes (RegSet.single base)
    let (address, steps) := Sequence.memoryAddress base index offset
    emit steps
    emit (Sequence.read op.result (UInt8.ofNat op.bytes) op.signed dst address)
    pushRegister op.result dst

def lowerStore (op : StoreOp) (offset : UInt32) : Compile Unit := do
  demandMemory
  expect 0 op.operand
  expect 1 .i32
  let value ← popRegister RegSet.empty
  let index ← popRegister (RegSet.single value)
  checkBounds index offset op.bytes
  machine { kind := .memoryAccess, index := 1 } do
    let base ← takeRegister .gp [] ((RegSet.single value).insert index)
    loadRef base .memory 0
    let (address, steps) := Sequence.memoryAddress base index offset
    emit steps
    emit (Sequence.write op.operand (UInt8.ofNat op.bytes) address value)

def loadPages (dst cell : Register) : Compile Unit := do
  loadRef cell .memorySize 0
  emit [.emit (.load .i64 dst (.based cell 0)), .emit (.shiftImm .shr .i64 dst 16)]

def lowerMemorySize : Compile Unit := do
  demandMemory
  let host := (← read).host
  let dst ← takeRegister .gp [] RegSet.empty
  if host.maxPages = 0 then
    emit (Sequence.loadConstant .i32 dst host.minPages.toUInt64)
  else machine { kind := .memoryAccess } (loadPages dst dst)
  pushRegister .i32 dst

/-- Adds to the size of memory in pages unless that passes the maximum; the old
size, or -1, ends up in `dst`. -/
def growSequence (maxPages : UInt32) (dst cell delta : Register) : List Step :=
  [.emit (.mov .i64 .r10 dst), .emit (.alu .add .i64 .r10 delta),
    .emit (.aluImm .cmp .i64 .r10 maxPages.toInt32), .jumpIf .above (.inner 0) .near,
    .emit (.shiftImm .shl .i64 .r10 16), .emit (.store .i64 (.based cell 0) .r10),
    .jump (.inner 1) .near, .bind (.inner 0), .emit (.movImm .i32 dst (-1)), .bind (.inner 1)]

/-- Lowers `memory.grow`.  Memory is reserved up to its maximum, so growing only
changes the size. -/
def lowerMemoryGrow : Compile Unit := do
  demandMemory
  expect 0 .i32
  let host := (← read).host
  if host.maxPages = 0 then
    dropOperand
    let dst ← takeRegister .gp [] RegSet.empty
    emit (Sequence.loadConstant .i32 dst 0xffffffff)
    pushRegister .i32 dst
  else
    let delta ← popRegister RegSet.empty
    machine { kind := .memoryAccess, index := 1 } do
      let cell ← takeRegister .gp [] (RegSet.single delta)
      let dst ← takeRegister .gp [] ((RegSet.single delta).insert cell)
      loadPages dst cell
      emit (growSequence host.maxPages dst cell delta)
      pushRegister .i32 dst

end WasmX64.Compile
