import WasmX64.Wasm.Opcode

/-!
# Instruction trees

A function body is a list of instructions in which `block`, `loop` and `if` own
their bodies.  `Instr.count` numbers the instructions the way a compiler visits
them: every node, one marker where an else arm begins and one where a body ends.
-/

namespace WasmX64

/-- One node of a function body.  Which operands matter depends on the opcode:
`index` is the local, global, function, type or branch depth, `value` the raw bits
of a constant. -/
structure Instr where
  op : Opcode
  results : List ValueType := []
  body : List Instr := []
  elseBody : List Instr := []
  hasElse : Bool := false
  index : UInt32 := 0
  targets : List UInt32 := []
  default : UInt32 := 0
  offset : UInt32 := 0
  align : UInt32 := 0
  value : UInt64 := 0
deriving Inhabited

mutual

/-- The number of instructions and markers of one node. -/
def Instr.count : Instr → Nat
  | ⟨op, _, body, elseBody, hasElse, _, _, _, _, _, _⟩ =>
    if op.isStructured then
      1 + (Instr.countAll body + 1) +
        (if hasElse then Instr.countAll elseBody + 1 else 0)
    else 1

/-- The number of instructions and markers of a body, without its own end. -/
def Instr.countAll : List Instr → Nat
  | [] => 0
  | instr :: rest => instr.count + Instr.countAll rest

end

mutual

def Instr.nodes : Instr → Nat
  | ⟨_, _, body, elseBody, _, _, _, _, _, _, _⟩ =>
    1 + Instr.nodesAll body + Instr.nodesAll elseBody

def Instr.nodesAll : List Instr → Nat
  | [] => 0
  | instr :: rest => instr.nodes + Instr.nodesAll rest

end

structure Function where
  name : String
  type : UInt32
  locals : List ValueType
  body : List Instr
deriving Inhabited

end WasmX64
