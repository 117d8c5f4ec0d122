import WasmX64.Compile.Allocation

/-!
# Calls

Everything below the arguments goes to the frame, stack arguments are pushed and
register arguments loaded.  No register is in use across a call.
-/

namespace WasmX64.Compile

def calleeSignature (type : FuncType) : Compile Signature := do
  if 1 < type.results.length then throw (.unsupported (.callResults type.results.length))
  return .ofType type

def demandArguments : List ValueType → Compile Unit
  | [] => pure ()
  | type :: rest => do
    expect rest.length type
    demandArguments rest

def storeBelow (count : Nat) : Compile Unit := do
  for index in List.range count do
    match (← get).layout.slot? index with
    | some ⟨type, .reg reg⟩ =>
      emit (Sequence.spill type index reg)
      needSlot index
      modifyLayout (·.setSlot index (.inFrame type))
    | _ => pure ()

def pushArgument (slot : Slot) (index : Nat) : List Step :=
  match slot.place with
  | .frame =>
    if slot.type = .i32 then [.emit (.load .i32 .r10 (.slot index)), .emit (.push .r10)]
    else [.emit (.pushLoad (.slot index))]
  | .reg reg => Sequence.pushValue slot.type reg
  | .const value => [.emit (.pushImm value)]
  | .unknown _ => []

/-- Passes arguments, given last first with their slots and indices. -/
def passArguments : List (Passing × Slot × Nat) → TransferM Unit
  | [] => pure ()
  | (passing, slot, index) :: rest => do
    match passing with
    | .reg _ reg => TransferM.loadInto reg slot index
    | .stack _ _ => modify (·.emit (pushArgument slot index))
    passArguments rest

/-- Prepares a call and pops the arguments.  A target held in an argument register
is moved out of the way; the register that holds it at the call is the result. -/
def prepareCall (type : FuncType) (signature : Signature) (target : Register) :
    Compile Register := do
  let count := type.params.length
  let base := (← innermost).base
  let height := (← get).layout.height
  if (height : Int) - count < base then malformed (.callArguments count (height - base))
  let first := height - count
  demandArguments type.params
  storeBelow first
  if signature.needsPadding then emit [.emit (.push .rax)]
  let layout := (← get).layout
  let arguments := signature.params.zip ((layout.slots.toList.drop first).zipIdx first)
  let free :=
    ((RegSet.ofClass .gp).diff signature.registers).diff RegSet.reserved
  let moves := target ≠ .absent ∧ signature.registers.has target
  let held := if moves then free.first else target
  transfer layout do
    passArguments arguments.reverse
    if moves then TransferM.moveRegister held target .i64
    TransferM.execute
  modifyLayout fun layout =>
    { layout.forgetAll with slots := layout.slots.extract 0 first }
  return held

/-- Takes the stack arguments off and pushes the result. -/
def finishCall (signature : Signature) : Compile Unit := do
  if 0 < signature.stackParams then
    let words := signature.stackParams + (if signature.needsPadding then 1 else 0)
    emit [.emit (.aluImm .add .i64 .rsp (Int32.ofInt (8 * words)))]
  match signature.result with
  | some (type, reg) => pushRegister type reg
  | none => pure ()

def lowerCall (index : UInt32) : Compile Unit := do
  match (← read).module.functionType index with
  | .error cause => malformed (.reference cause)
  | .ok type =>
    let signature ← calleeSignature type
    let _ ← prepareCall type signature .absent
    machine { kind := .call, index } do
      let address ← takeRegister .gp [] signature.registers
      loadRef address .func index
      emit [.emit (.callReg address)]
    finishCall signature

/-- Lowers `call_indirect`: the index is checked against the table, the signature
of the entry against the wanted one. -/
def lowerCallIndirect (typeIndex : UInt32) : Compile Unit := do
  let module := (← read).module
  match module.typeAt typeIndex with
  | .error cause => malformed (.reference cause)
  | .ok type =>
    let signature ← calleeSignature type
    let canonical := module.canonicalType typeIndex
    expect 0 .i32
    let index ← popRegister RegSet.empty
    let table ← takeRegister .gp [] (RegSet.single index)
    let entry ← takeRegister .gp [] ((RegSet.single index).insert table)
    let undefined ← addTrap .undefinedElement
    loadRef table .tableSize 0
    emit [.emit (.load .i32 table (.based table 0)), .emit (.alu .cmp .i32 index table),
      .jumpIf .aboveEqual undefined .far]
    let mismatch ← addTrap .typeMismatch
    loadRef table .tableSigs 0
    emit [.emit (.load .i32 table ⟨table, index, 4, 0⟩),
      .emit (.aluImm .cmp .i32 table canonical.toInt32), .jumpIf .notEqual mismatch .far]
    loadRef table .table 0
    emit [.emit (.load .i64 entry ⟨table, index, 8, 0⟩)]
    let callee ← prepareCall type signature entry
    machine { kind := .call, index := typeIndex } (emit [.emit (.callReg callee)])
    finishCall signature

end WasmX64.Compile
