import WasmX64.Instance.Load
import WasmX64.Semantics.Evaluate

/-!
# Calling an instance

The arguments of a call, and the call itself.
-/

namespace WasmX64

/-!
## Arguments

The arguments of a call: read from comma separated text, and checked against the
parameters of the callee.
-/

inductive ArgumentError where
  | wrongCount (found : Nat) (type : FuncType)
  | wrongType (index : Nat) (found wanted : ValueType)
deriving DecidableEq, Repr

def ArgumentError.message : ArgumentError → String
  | .wrongCount found type => s!"runtime: {found} arguments for " ++ type.text
  | .wrongType index found wanted =>
    s!"runtime: argument {index} has type {found.name}, want {wanted.name}"

inductive ArgumentTextError where
  | count (type : FuncType) (found : Nat)
  | value (index : Nat) (cause : ValueError)
deriving DecidableEq, Repr

def ArgumentTextError.message : ArgumentTextError → String
  | .count type found =>
    "function " ++ type.text ++ s!" takes {type.params.length} arguments, got {found}"
  | .value index cause => s!"argument {index}: " ++ cause.message

namespace FuncType

def checkTypes (index : Nat) : List ValueType → List Value → Except ArgumentError Unit
  | wanted :: params, arg :: args =>
    if arg.type ≠ wanted then .error (.wrongType index arg.type wanted)
    else checkTypes (index + 1) params args
  | _, _ => .ok ()

def checkArgs (type : FuncType) (args : List Value) : Except ArgumentError Unit :=
  if args.length ≠ type.params.length then .error (.wrongCount args.length type)
  else checkTypes 0 type.params args

/-- The pieces of a text between commas, read with `current` (in reverse) as the
piece under way. -/
def splitCommas (current : List Char) : List Char → List (List Char)
  | [] => [current.reverse]
  | ',' :: rest => current.reverse :: splitCommas [] rest
  | char :: rest => splitCommas (char :: current) rest

def readArgs (index : Nat) :
    List ValueType → List (List Char) → Except ArgumentTextError (List Value)
  | type :: params, piece :: pieces => do
    let value ← (Value.parse type (String.ofList piece)).mapError (.value index)
    return value :: (← readArgs (index + 1) params pieces)
  | _, _ => .ok []

/-- Reads comma separated arguments; blank text is no argument at all. -/
def parseArgs (type : FuncType) (text : String) : Except ArgumentTextError (List Value) :=
  let chars := Text.trim text.toList
  let pieces := if chars.isEmpty then [] else splitCommas [] chars
  if pieces.length ≠ type.params.length then .error (.count type pieces.length)
  else readArgs 0 type.params pieces

end FuncType

/-!
## Calls

Calling a function of an instance.  What the code of a function does is what its
body means, so a call runs the body.
-/

namespace DataRegion

/-- Prepares a data region for a call: the arguments are written and the trap cell is cleared. -/
def prepare (region : DataRegion) (args : List Value) (data : Array UInt8) : Array UInt8 :=
  let data := write region.argumentAt (fun arg : Value => bytes64 arg.bits) 0 args data
  Code.overwrite data trapCellAt (List.replicate trapCellSize 0)

/-- The arguments that code finds in a data region. -/
def argumentsIn (region : DataRegion) (count : Nat) (data : Array UInt8) : List UInt64 :=
  (List.range count).map fun index => Program.wordAt data (region.argumentAt index)

end DataRegion

inductive CallError where
  | noExport (name : String)
  | noFunction (index : UInt32)
  | module (cause : ModuleError)
  | arguments (cause : ArgumentError)
  | trap (report : TrapReport)
  /-- The call did not come to an end within its bound. -/
  | unfinished
deriving DecidableEq, Repr

def CallError.message : CallError → String
  | .noExport name => "runtime: no export " ++ Text.quote name
  | .noFunction index => s!"runtime: no function {index.toNat}"
  | .module cause => "runtime: " ++ cause.message
  | .arguments cause => cause.message
  | .trap report => report.message
  | .unfinished => "runtime: call did not finish"

namespace Instance

/-- The bound on the steps of a call, `2 ^ 60`. -/
def callFuel : Nat := 1152921504606846976

def accept (inst : Instance) (index : UInt32) (args : List Value) :
    Except CallError FuncType := do
  if inst.thunks.size ≤ index.toNat then throw (.noFunction index)
  let type ← (inst.module.functionType index).mapError .module
  (type.checkArgs args).mapError .arguments
  return type

/-- The report of a trap: the opcode is read off the source map of the function. -/
def trapReport (inst : Instance) (kind : TrapKind) (func : UInt32) (instr : Nat) :
    TrapReport :=
  let op := (inst.functions[func.toNat]?.map fun compiled =>
    compiled.sources.opcodeOf instr).getD .unreachable
  ⟨kind, func, instr, op⟩

def callIndex (inst : Instance) (index : UInt32) (args : List Value) :
    Except CallError (List Value) := do
  let type ← inst.accept index args
  let data := inst.data.prepare args inst.contents
  let state := inst.module.initialState inst.host
  match inst.module.invoke inst.host callFuel index (inst.data.argumentsIn args.length data)
      state with
  | .values results _ =>
    return type.results.zipWith Value.ofRegister results
  | .trapped kind func instr => throw (.trap (inst.trapReport kind func instr))
  | .stuck | .outOfFuel => throw .unfinished

def call (inst : Instance) (name : String) (args : List Value) :
    Except CallError (List Value) :=
  match inst.module.exported? name with
  | none => .error (.noExport name)
  | some index => inst.callIndex index args

end Instance

end WasmX64
