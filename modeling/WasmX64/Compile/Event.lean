import WasmX64.Compile.Block
import WasmX64.Wasm.Module

/-!
# Compilation events

What happens while a function is compiled, in order: its start and end, the
control blocks, the instructions and the machine-level constructs among them.
Statistics and traces are read off the events.
-/

namespace WasmX64

inductive MachineKind where
  | uncondBranch
  | condBranch
  | brTableBranch
  | bind
  | call
  | ret
  | memoryAccess
deriving DecidableEq, Repr, Inhabited

namespace MachineKind

def list : List MachineKind :=
  [.uncondBranch, .condBranch, .brTableBranch, .bind, .call, .ret, .memoryAccess]

def name : MachineKind → String
  | .uncondBranch => "uncond_branch"
  | .condBranch => "cond_branch"
  | .brTableBranch => "br_table_branch"
  | .bind => "bind"
  | .call => "call"
  | .ret => "return"
  | .memoryAccess => "memory_access"

def nameOfCode (code : UInt8) : String :=
  (list[code.toNat]?.map name).getD s!"MachineInstKind({code.toNat})"

end MachineKind

/-- A machine-level construct: the depth of a branch and the index of a callee or
global. -/
structure MachineEvent where
  kind : MachineKind
  depth : Nat := 0
  index : UInt32 := 0
deriving DecidableEq, Repr, Inhabited

/-- The compiler after an instruction: the reachability of the innermost block, if
one is left, the layout, and the frame slots used so far. -/
structure Snapshot where
  reach : Option Reachability
  layout : Layout
  frameSlots : Int
deriving Inhabited

inductive Happening where
  | functionStart (function : Function)
  | functionEnd (function : Function)
  | controlStart (kind : BlockKind)
  | controlEnd (kind : BlockKind)
  /-- No instruction means a marker that ends a body or an arm. -/
  | instrStart (instr : Option Instr)
  | instrEnd (instr : Option Instr) (snapshot : Snapshot)
  | machineStart (event : MachineEvent)
  | machineEnd (event : MachineEvent)

structure Event where
  func : UInt32
  instr : Int
  op : Opcode
  depth : Nat
  offset : Nat
  what : Happening

end WasmX64
