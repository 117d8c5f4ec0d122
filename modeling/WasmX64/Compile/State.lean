import WasmX64.Compile.Event
import WasmX64.Compile.Host
import WasmX64.Compile.Signature
import WasmX64.Compile.Trap
import WasmX64.Layout.Join
import WasmX64.Layout.Transfer

/-!
# The state of a compilation

What a compilation reads (`Subject`), what it has built so far (`Compilation`) and
the monad in which it proceeds.  A fault ends it and leaves the state as it was
when the fault arose.
-/

namespace WasmX64

structure Subject where
  module : Module
  /-- The host, narrowed to the memory of the module. -/
  host : Host
  index : UInt32
  function : Function
  type : FuncType
  signature : Signature
  /-- The number of parameters and declared locals. -/
  locals : Nat
deriving Inhabited

/-- An out-of-line stub that reports a fault of an instruction. -/
structure TrapStub where
  label : Label
  kind : TrapKind
  instr : Int
deriving Repr, Inhabited

structure Compilation where
  output : Output := {}
  layout : Layout := {}
  /-- The open blocks, innermost first. -/
  blocks : List Block := []
  refs : Array Reference := #[]
  stubs : Array TrapStub := #[]
  sources : SourceMap := {}
  /-- The index of the current instruction; -1 outside the body. -/
  instr : Int := -1
  op : Opcode := .unreachable
  events : Array Event := #[]
deriving Inhabited

abbrev Compile := ReaderT Subject (EStateM Fault Compilation)

namespace Compile

def emit (steps : List Step) : Compile Unit :=
  modify fun state => { state with output := state.output.emit steps }

def needSlot (index : Int) : Compile Unit :=
  modify fun state => { state with output := state.output.needSlot index }

def modifyLayout (change : Layout → Layout) : Compile Unit :=
  modify fun state => { state with layout := change state.layout }

def malformed {α : Type} (cause : Malformed) : Compile α := throw (.malformed cause)

def newLabel : Compile Label :=
  modifyGet fun state =>
    let (label, code) := state.output.code.newLabel
    (label, { state with output := { state.output with code } })

def bindLabel (label : Label) : Compile Unit := emit [.bind label]

/-- Loads the address of a run-time object, to be filled in later. -/
def loadRef (target : Register) (kind : RefKind) (index : UInt32) : Compile Unit :=
  modify fun state =>
    let (offset, code) := state.output.code.loadWide target placeholder
    { state with
      output := { state.output with code }
      refs := state.refs.push ⟨offset, kind, index⟩ }

/-- Registers a stub that reports a fault of the current instruction. -/
def addTrap (kind : TrapKind) : Compile Label := do
  let label ← newLabel
  modify fun state => { state with stubs := state.stubs.push ⟨label, kind, state.instr⟩ }
  return label

def record (what : Happening) : Compile Unit := do
  let subject ← read
  modify fun state =>
    { state with
      events := state.events.push
        { func := subject.index, instr := state.instr, op := state.op
          depth := state.blocks.length, offset := state.output.code.size, what } }

/-- Records a machine-level construct around the steps that emit it. -/
def machine (event : MachineEvent) (action : Compile Unit) : Compile Unit := do
  record (.machineStart event)
  action
  record (.machineEnd event)

def innermost : Compile Block := do
  match (← get).blocks with
  | block :: _ => return block
  | [] => throw .missing

/-- The open block at a depth, 0 being the innermost. -/
def blockAt (depth : Nat) : Compile Block := do
  match (← get).blocks[depth]? with
  | some block => return block
  | none => throw .missing

def modifyBlock (depth : Nat) (change : Block → Block) : Compile Unit :=
  modify fun state => { state with blocks := state.blocks.modify depth change }

def openBlock (kind : BlockKind) (results : List ValueType) (setUp : Block → Block) :
    Compile Unit := do
  let label ← newLabel
  let elseLabel ← newLabel
  modify fun state =>
    let block := { Block.opened state.blocks kind results with label, elseLabel }
    { state with blocks := setUp block :: state.blocks }

def closeBlock : Compile Unit :=
  modify fun state => { state with blocks := state.blocks.tail }

def transfer (source : Layout) (action : TransferM Unit) : Compile Unit := do
  let state ← get
  match action (.start state.output state.layout source) with
  | .ok _ done => modify fun state => { state with output := done.output }
  | .error fault done =>
    modify fun state => { state with output := done.output }
    throw fault

def mergeAll (join source : Layout) : Compile Unit := do
  if join.height ≠ source.height then malformed (.joinHeight source.height join.height)
  transfer source do
    for (target, slot, index) in join.slots.toList.zip (source.slots.toList.zipIdx) do
      TransferM.transferSlot target slot index index
    TransferM.execute

/-- Transfers `count` slots between indices of two layouts. -/
def transferRange (join source : Layout) : Nat → Int → Int → TransferM Unit
  | 0, _, _ => pure ()
  | count + 1, joinIndex, sourceIndex => do
    match join.slot? joinIndex, source.slot? sourceIndex with
    | some target, some slot =>
      TransferM.transferSlot target slot joinIndex sourceIndex
      transferRange join source count (joinIndex + 1) (sourceIndex + 1)
    | _, _ => throw .missing

/-- Moves the layout of a branch that carries `arity` values into a join layout;
the values between are discarded. -/
def mergeBranch (join source : Layout) (arity : Int) : Compile Unit := do
  if source.height < join.height ∨ join.height < arity then
    malformed (.branchHeights source.height join.height arity)
  transfer source do
    let joinBase := join.height - arity
    let sourceBase := source.height - arity
    transferRange join source joinBase.toNat 0 0
    transferRange join source arity.toNat joinBase sourceBase
    TransferM.execute

def initJoin (join source : Layout) (arity : Int) : Compile Layout := do
  match Layout.initJoin (← read).locals source arity join with
  | .ok _ join => return join
  | .error fault _ => throw fault

end Compile

end WasmX64
