import WasmX64.Code.Error
import WasmX64.Layout.Basic
import WasmX64.Wasm.Module

/-!
# Faults

Why the compilation of a function stops: a construct that is not lowered, a body
that does not type, a broken invariant of the compiler itself, or code that cannot
be assembled.
-/

namespace WasmX64

inductive Unsupported where
  | opcode (code : UInt16)
  | functionResults (count : Nat)
  | blockResults (count : Nat)
  | callResults (count : Nat)
deriving DecidableEq, Repr

def Unsupported.message : Unsupported → String
  | .opcode code => s!"opcode {code.toNat}"
  | .functionResults count => s!"{count} results"
  | .blockResults count => s!"block with {count} results"
  | .callResults count => s!"call of function with {count} results"

inductive Malformed where
  | noModule
  | functionIndex (index : UInt32)
  | reference (cause : ModuleError)
  | invalidLocal
  | underflow
  | operandType (depth : Nat) (found wanted : ValueType)
  | branchValues (arity available : Int)
  | joinHeight (found wanted : Nat)
  | branchHeights (source target : Nat) (arity : Int)
  | elseOutside
  | endHeight (found : Nat) (wanted : Int)
  | ifWithoutElse (count : Nat)
  | branchDepth (depth : Nat) (blocks : Nat)
  | tableArity (target : UInt32) (carried wanted : Nat)
  | returnValues (wanted height : Nat)
  | callArguments (wanted : Nat) (available : Int)
  | noMemory (op : Opcode)
  | localIndex (index : UInt32) (count : Nat)
  | globalIndex (index : UInt32) (count : Nat)
  | immutableGlobal (index : UInt32)
deriving DecidableEq, Repr

def Malformed.message : Malformed → String
  | .noModule => "no module"
  | .functionIndex index => s!"function index {index.toNat} out of range"
  | .reference cause => cause.message
  | .invalidLocal => "local of invalid type"
  | .underflow => "operand stack underflow"
  | .operandType depth found wanted =>
    s!"operand {depth} has type {found.name}, expected {wanted.name}"
  | .branchValues arity available =>
    s!"branch carries {arity} values but only {available} are on the stack"
  | .joinHeight found wanted => s!"stack height {found} at join, expected {wanted}"
  | .branchHeights source target arity =>
    s!"branch from height {source} to height {target} with {arity} values"
  | .elseOutside => "else outside of if"
  | .endHeight found wanted => s!"stack height {found} at end, expected {wanted}"
  | .ifWithoutElse count => s!"if without else produces {count} values"
  | .branchDepth depth blocks => s!"branch depth {depth} with {blocks} open blocks"
  | .tableArity target carried wanted =>
    s!"br_table target {target.toNat} carries {carried} values, default carries {wanted}"
  | .returnValues wanted height => s!"return needs {wanted} values, stack height is {height}"
  | .callArguments wanted available =>
    s!"call needs {wanted} arguments, {available} on the stack"
  | .noMemory op => s!"{op.name} without a memory"
  | .localIndex index count => s!"local {index.toNat} of {count}"
  | .globalIndex index count => s!"global {index.toNat} of {count}"
  | .immutableGlobal index => s!"global.set of immutable global {index.toNat}"

inductive Broken where
  | noRegister (bank : RegClass) (pinned : RegSet)
  | useCount (reg : Register)
  | joinTwice
  | mergeRegisters (wanted used : RegSet)
  | conflictingMoves (target first second : Register)
  | loadedTwice (reg : Register)
  | reloadAfterWrite (index : Int)
  | acrossBanks (source target : Register)
  | writeBeforeReload (index : Int)
  | readAfterWrite (index : Int)
  | constantMerge (source target : Slot)
deriving DecidableEq, Repr

def Broken.message : Broken → String
  | .noRegister bank pinned =>
    s!"no {bank.name} register left to spill (pinned {pinned.text})"
  | .useCount reg => s!"register {reg.name} use count exceeds its slots"
  | .joinTwice => "join state initialised twice"
  | .mergeRegisters wanted used =>
    s!"merge registers {wanted.text} not all in use after merge ({used.text})"
  | .conflictingMoves target first second =>
    s!"conflicting moves into {target.name} from {first.name} and {second.name}"
  | .loadedTwice reg => s!"register {reg.name} loaded twice"
  | .reloadAfterWrite index =>
    s!"frame slot {index} reloaded after the transfer overwrote it"
  | .acrossBanks source target =>
    s!"move {source.name} into {target.name} across register classes"
  | .writeBeforeReload index =>
    s!"frame slot {index} overwritten before its pending reload"
  | .readAfterWrite index => s!"frame slot {index} read after the transfer overwrote it"
  | .constantMerge source target =>
    s!"merge of {source.text} into constant slot {target.text}"

inductive Fault where
  | unsupported (cause : Unsupported)
  | malformed (cause : Malformed)
  | broken (cause : Broken)
  | code (cause : CodeError)
  /-- A slot or register was asked for that does not exist. -/
  | missing
deriving DecidableEq, Repr

def Fault.message : Fault → String
  | .unsupported cause => "unsupported: " ++ cause.message
  | .malformed cause => "malformed function: " ++ cause.message
  | .broken cause => "internal compiler error: " ++ cause.message
  | .code cause => cause.message
  | .missing => "missing slot or register"

/-- A fault with the function and the instruction it arose in; an instruction of -1
is none. -/
structure CompileError where
  func : UInt32
  instr : Int
  op : Opcode
  fault : Fault
deriving DecidableEq, Repr

def CompileError.message (error : CompileError) : String :=
  if error.instr < 0 then s!"jit: func[{error.func.toNat}]: " ++ error.fault.message
  else
    s!"jit: func[{error.func.toNat}] instr {error.instr} ({error.op.name}): " ++
      error.fault.message

end WasmX64
