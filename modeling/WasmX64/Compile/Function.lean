import WasmX64.Compile.Branch
import WasmX64.Compile.Call
import WasmX64.Compile.Memory
import WasmX64.Compile.Numeric
import WasmX64.Compile.Variable

/-!
# Compiling functions

One pass over the body.  Dead code is skipped, every other instruction is lowered
under an entry of the source map; the stubs that report faults follow the body,
and the size of the frame is filled in last.
-/

namespace WasmX64

structure Compiled where
  index : UInt32
  program : Program
  signature : Signature
  sources : SourceMap
  traps : List TrapSite
deriving Inhabited

namespace Compile

/-- Lowers one instruction; markers come without operands. -/
def lower (op : Opcode) (instr : Instr) : Compile Unit :=
  match op with
  | .unreachable => lowerUnreachable
  | .nop => pure ()
  | .block => lowerBlock instr
  | .loop => lowerLoop instr
  | .branchIf => lowerIf instr
  | .otherwise => lowerElse
  | .finish => lowerEnd
  | .br => lowerBr instr.index.toNat
  | .brIf => lowerBrIf instr.index.toNat
  | .brTable => lowerBrTable instr
  | .ret => do
    returnFromFunction
    finishBlock
  | .call => lowerCall instr.index
  | .callIndirect => lowerCallIndirect instr.index
  | .drop => dropOperand
  | .select => lowerSelect
  | .localGet => lowerLocalGet instr.index
  | .localSet => lowerLocalSet instr.index false
  | .localTee => lowerLocalSet instr.index true
  | .globalGet => lowerGlobalGet instr.index
  | .globalSet => lowerGlobalSet instr.index
  | .load op => lowerLoad op instr.offset
  | .store op => lowerStore op instr.offset
  | .memorySize => lowerMemorySize
  | .memoryGrow => lowerMemoryGrow
  | .intConst width => lowerIntConst width instr.value
  | .floatConst width => lowerFloatConst width instr.value
  | .eqz width => lowerUnary width.type .i32 (isZero width.type)
  | .intCompare width relation =>
    lowerBinary width.type .i32 fun dst left right =>
      pure (Sequence.setCondition width.type relation.condition dst left right)
  | .floatCompare width relation =>
    lowerBinary width.type .i32 fun dst left right =>
      pure (Sequence.floatSetCondition width.type relation.condition dst left right)
  | .intUnary width op => lowerUnary width.type width.type (op.steps width.type)
  | .intBinary width op => lowerIntBinary width op
  | .floatUnary width op => lowerUnary width.type width.type (op.steps width.type)
  | .floatBinary width op =>
    lowerBinary width.type width.type fun dst left right =>
      pure (op.steps width.type dst left right)
  | .convert op => lowerConversion op
  | .unknown code => throw (.unsupported (.opcode code))

def snapshot : Compile Snapshot := do
  let state ← get
  return ⟨state.blocks.head?.map Block.reach, state.layout, state.output.frameSlots⟩

def demandSound : Compile Unit := do
  match (← get).output.code.error with
  | some cause => throw (.code cause)
  | none => pure ()

def step (instr : Option Instr) (op : Opcode) : Compile Unit := do
  modify ({ · with op })
  let dead := (← innermost).reach = .unreachable ∧ op ≠ .finish ∧ op ≠ .otherwise
  if dead then
    let skipped : Int := (instr.elim 0 Instr.count : Nat)
    modify fun state => { state with instr := state.instr + skipped }
  else
    modify fun state =>
      { state with
        sources := state.sources.insert ⟨state.output.code.size, state.instr, op⟩ }
    record (.instrStart instr)
    lower op (instr.getD { op })
    demandSound
    record (.instrEnd instr (← snapshot))
    modify fun state => { state with instr := state.instr + 1 }

/-- Takes the next instruction of the innermost block; a marker follows the last
one of a body. -/
def next (block : Block) : Compile (Option Instr × Opcode) := do
  match block.pending with
  | instr :: pending =>
    modifyBlock 0 ({ · with pending })
    return (some instr, instr.op)
  | [] => return (none, if block.kind = .ifThen ∧ block.hasElse then .otherwise else .finish)

def steps : Nat → Compile Unit
  | 0 => pure ()
  | fuel + 1 => do
    match (← get).blocks with
    | [] => pure ()
    | block :: _ =>
      let (instr, op) ← next block
      step instr op
      steps fuel

def placeParams : List Passing → Compile Unit
  | [] => pure ()
  | .reg type reg :: rest => do
    pushRegister type reg
    placeParams rest
  | .stack type offset :: rest => do
    let reg ← takeRegister type.regClass [] RegSet.empty
    emit (Sequence.loadArgument type reg offset)
    pushRegister type reg
    placeParams rest

/-- Sets the declared locals to zero.  Float zeros share one register until one of
them is written. -/
def placeLocals (zero : Option Register) : List ValueType → Compile Unit
  | [] => pure ()
  | type :: rest => do
    if !type.isValid then malformed .invalidLocal
    if type.isFloat then
      let used := (← get).layout.used
      let reg ← match zero.filter used.has with
        | some reg => pure reg
        | none => do
          let reg ← takeRegister .fp [] RegSet.empty
          emit (Sequence.loadConstant .f64 reg 0)
          pure reg
      pushRegister type reg
      placeLocals (some reg) rest
    else
      pushConst type 0
      placeLocals zero rest

def emitStubs : List TrapStub → Compile (List TrapSite)
  | [] => return []
  | stub :: rest => do
    let code := (← get).output.code
    if (code.label stub.label).state = .unused then emitStubs rest
    else
      bindLabel stub.label
      loadRef .r10 .trap 0
      emit [.emit (.storeImm .i32 (.based .r10 trapCell.kind) stub.kind.code.toInt32),
        .emit (.storeImm .i32 (.based .r10 trapCell.instr) (Int32.ofInt stub.instr)),
        .emit (.storeImm .i32 (.based .r10 trapCell.func) (← read).index.toInt32),
        .emit (.load .i64 .rsp (.based .r10 trapCell.stackPointer)),
        .emit (.jmpLoad (.based .r10 trapCell.resume))]
      return ⟨stub.kind, stub.instr, code.size⟩ :: (← emitStubs rest)

def function : Compile Compiled := do
  let subject ← read
  record (.functionStart subject.function)
  let frame ← modifyGet fun state =>
    let (offset, code) := state.output.code.openFrame
    (offset, { state with output := { state.output with code } })
  placeParams subject.signature.params
  placeLocals none subject.function.locals
  let base : Int := subject.locals
  openBlock .block subject.type.results fun block =>
    { block with base, join := { block.join with base }, pending := subject.function.body }
  modifyLayout ({ · with base })
  modify ({ · with instr := 0 })
  steps (3 * Instr.nodesAll subject.function.body + 3)
  let traps ← emitStubs (← get).stubs.toList
  modify fun state =>
    { state with
      output := { state.output with
        code := state.output.code.setFrame frame state.output.frameSlots } }
  demandSound
  modify ({ · with instr := -1 })
  record (.functionEnd subject.function)
  let state ← get
  return {
    index := subject.index
    program := ⟨state.output.code.bytes, state.refs.toList, state.output.frameSlots⟩
    signature := subject.signature
    sources := state.sources
    traps }

end Compile

def Subject.of (module : Option Module) (host : Host) (index : UInt32) :
    Except Fault Subject := do
  match module with
  | none => throw (.malformed .noModule)
  | some module =>
    match module.functions[index.toNat]? with
    | none => throw (.malformed (.functionIndex index))
    | some function =>
      match module.typeAt function.type with
      | .error cause => throw (.malformed (.reference cause))
      | .ok type =>
        if 1 < type.results.length then
          throw (.unsupported (.functionResults type.results.length))
        return {
          module, index, function, type
          host := host.narrow module.memory
          signature := .ofType type
          locals := type.params.length + function.locals.length }

/-- What became of a function: the code or the fault, and the events up to it. -/
structure Attempt where
  outcome : Except CompileError Compiled
  events : Array Event

def compileFunction (module : Option Module) (host : Host) (index : UInt32) : Attempt :=
  match Subject.of module host index with
  | .error fault => ⟨.error ⟨index, -1, .unreachable, fault⟩, #[]⟩
  | .ok subject =>
    match Compile.function subject {} with
    | .ok compiled state => ⟨.ok compiled, state.events⟩
    | .error fault state => ⟨.error ⟨index, state.instr, state.op, fault⟩, state.events⟩

inductive ModuleCompileError where
  | noModule
  | invalid (cause : ModuleError)
  | function (cause : CompileError)
deriving DecidableEq, Repr

def ModuleCompileError.message : ModuleCompileError → String
  | .noModule => "jit: compile module: malformed function: no module"
  | .invalid cause => "jit: compile module: " ++ cause.message
  | .function cause => cause.message

def compileFrom (module : Module) (host : Host) (index : Nat) : Nat → List Attempt
  | 0 => []
  | count + 1 =>
    let attempt := compileFunction (some module) host (UInt32.ofNat index)
    match attempt.outcome with
    | .error _ => [attempt]
    | .ok _ => attempt :: compileFrom module host (index + 1) count

/-- Compiles every function of a module in order.  The attempts come with the
outcome. -/
def compileModule (module : Option Module) (host : Host) :
    Except ModuleCompileError (List Compiled) × List Attempt :=
  match module with
  | none => (.error .noModule, [])
  | some module =>
    match module.validate with
    | .error cause => (.error (.invalid cause), [])
    | .ok _ =>
      let attempts := compileFrom module.tabulate host 0 module.functions.size
      ((attempts.mapM Attempt.outcome).mapError .function, attempts)

end WasmX64
