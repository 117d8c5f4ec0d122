import WasmX64.Compile.Allocation

/-!
# Locals, globals and constants

Locals live in the layout like operands, so reading one shares its register and
writing one moves the operand's claim on a register over to the local.
-/

namespace WasmX64.Compile

def localSlot (index : UInt32) : Compile Slot := do
  let count := (← read).locals
  if count ≤ index.toNat then malformed (.localIndex index count)
  match (← get).layout.slot? index.toNat with
  | some slot => return slot
  | none => throw .missing

def lowerLocalGet (index : UInt32) : Compile Unit := do
  let slot ← localSlot index
  match slot.place with
  | .reg reg => pushRegister slot.type reg
  | .const value => pushConst slot.type value
  | .frame =>
    let reg ← takeRegister slot.type.regClass [] RegSet.empty
    emit (Sequence.fill slot.type reg index.toNat)
    pushRegister slot.type reg
  | .unknown _ => pure ()

def releaseLocal (index : Nat) : Compile Unit :=
  modifyLayout fun layout =>
    match layout.slot? index with
    | some ⟨_, .reg reg⟩ => layout.release reg
    | _ => layout

/-- Sets a local from an operand in a frame slot: straight into the local's register
if nothing else holds it, into a new one otherwise. -/
def setLocalFromFrame (index : Nat) (slot : Slot) : Compile Unit := do
  let layout := (← get).layout
  let top := layout.height - 1
  match slot.reg?.filter (layout.count · = 1) with
  | some reg => emit (Sequence.fill slot.type reg top)
  | none =>
    releaseLocal index
    modifyLayout (·.setSlot index (.inFrame slot.type))
    let reg ← takeRegister slot.type.regClass [] RegSet.empty
    emit (Sequence.fill slot.type reg top)
    modifyLayout fun layout => (layout.setSlot index (.inReg slot.type reg)).retain reg

def lowerLocalSet (index : UInt32) (keep : Bool) : Compile Unit := do
  let slot ← localSlot index
  expect 0 slot.type
  match (← get).layout.top? with
  | none => throw .missing
  | some top =>
    match top.place with
    | .reg reg =>
      releaseLocal index.toNat
      modifyLayout (·.setSlot index.toNat top)
      if keep then modifyLayout (·.retain reg)
    | .const _ =>
      releaseLocal index.toNat
      modifyLayout (·.setSlot index.toNat top)
    | .frame => setLocalFromFrame index.toNat slot
    | .unknown _ => pure ()
    if !keep then modifyLayout Layout.pop

def globalAt (index : UInt32) : Compile Global := do
  let globals := (← read).module.globals
  match globals[index.toNat]? with
  | some global => return global
  | none => malformed (.globalIndex index globals.size)

def lowerGlobalGet (index : UInt32) : Compile Unit := do
  let type := (← globalAt index).type
  machine { kind := .memoryAccess, index } do
    let cell ← takeRegister .gp [] RegSet.empty
    loadRef cell .global index
    let dst ← takeRegister type.regClass [] (RegSet.single cell)
    emit (Sequence.read type (UInt8.ofNat type.size) false dst (.based cell 0))
    pushRegister type dst

def lowerGlobalSet (index : UInt32) : Compile Unit := do
  let global ← globalAt index
  if !global.isMutable then malformed (.immutableGlobal index)
  expect 0 global.type
  machine { kind := .memoryAccess, index } do
    let value ← popRegister RegSet.empty
    let cell ← takeRegister .gp [] (RegSet.single value)
    loadRef cell .global index
    emit (Sequence.write global.type (UInt8.ofNat global.type.size) (.based cell 0) value)

def pushBits (type : ValueType) (bits : UInt64) : Compile Unit := do
  let reg ← takeRegister type.regClass [] RegSet.empty
  emit (Sequence.loadConstant type reg bits)
  pushRegister type reg

def lowerIntConst (width : IntWidth) (bits : UInt64) : Compile Unit :=
  match width with
  | .w32 => pushConst .i32 bits.toUInt32.toInt32
  | .w64 =>
    if fitsInt32 bits.toInt64.toInt then pushConst .i64 bits.toUInt32.toInt32
    else pushBits .i64 bits

def lowerFloatConst (width : FloatWidth) (bits : UInt64) : Compile Unit :=
  match width with
  | .w32 => pushBits .f32 (bits &&& 0xffffffff)
  | .w64 => pushBits .f64 bits

def lowerSelect : Compile Unit := do
  expect 0 .i32
  let type ← operandType 1
  expect 2 type
  let condition ← popRegister RegSet.empty
  let pinned := RegSet.single condition
  let otherwise ← popRegister pinned
  let chosen ← popRegister (pinned.insert otherwise)
  let dst ← takeRegister type.regClass [otherwise, chosen] pinned
  emit ([.emit (.test .i32 condition condition), .jumpIf .equal (.inner 0) .near] ++
    Sequence.move type dst chosen ++ [.jump (.inner 1) .near, .bind (.inner 0)] ++
    Sequence.move type dst otherwise ++ [.bind (.inner 1)])
  pushRegister type dst

end WasmX64.Compile
