import WasmX64.Code.Buffer
import WasmX64.Layout.Basic
import WasmX64.Wasm.Instr

/-!
# Control blocks

The structured constructs that are open at one point of a function, innermost
first.  Each remembers the layout its end (or, for a loop, its start) is reached
with and the part of its body that is still to come.
-/

namespace WasmX64

inductive BlockKind where
  | block
  | loop
  | ifThen
  | elseArm
  | unknown (code : UInt8)
deriving DecidableEq, Repr, Inhabited

namespace BlockKind

def list : List BlockKind := [.block, .loop, .ifThen, .elseArm]

def ofCode (code : UInt8) : BlockKind :=
  list[code.toNat]?.getD (.unknown code)

def name : BlockKind → String
  | .block => "block"
  | .loop => "loop"
  | .ifThen => "if"
  | .elseArm => "else"
  | .unknown code => s!"ControlKind({code.toNat})"

def ofName? (name : String) : Option BlockKind :=
  list.find? (·.name = name)

end BlockKind

inductive Reachability where
  | reachable
  /-- Compiled for its types only: it is never executed. -/
  | specOnly
  | unreachable
deriving DecidableEq, Repr, Inhabited

namespace Reachability

def name : Reachability → String
  | .reachable => "reachable"
  | .specOnly => "spec-only"
  | .unreachable => "unreachable"

def nameOfCode (code : UInt8) : String :=
  ["reachable", "spec-only", "unreachable"][code.toNat]?.getD s!"Reachability({code.toNat})"

end Reachability

structure Block where
  kind : BlockKind
  results : List ValueType
  reach : Reachability
  /-- A loop's start is the target of a branch; other blocks were entered
  reachably. -/
  startReached : Bool
  /-- `join` describes the end of the block. -/
  endReached : Bool := false
  /-- The height at entry, locals included. -/
  base : Int := 0
  label : Label := ⟨0⟩
  join : Layout := {}
  elseLabel : Label := ⟨0⟩
  elseLayout : Option Layout := none
  pending : List Instr := []
  hasElse : Bool := false
  elseBody : List Instr := []
deriving Inhabited

namespace Block

def arity (block : Block) : Nat := block.results.length

def isReached (block : Block) : Bool := block.reach = .reachable

def innerReach (block : Block) : Reachability :=
  if block.reach = .reachable then .reachable else .specOnly

/-- An `if` that has not seen an else. -/
def isOneArmed (block : Block) : Bool := block.kind = .ifThen

/-- The number of values a branch to the block carries; none back to a loop. -/
def branchArity (block : Block) : Nat :=
  if block.kind = .loop then 0 else block.arity

/-- Whether `join` already describes the target of branches to the block. -/
def targetReached (block : Block) : Bool :=
  if block.kind = .loop then block.startReached else block.endReached

/-- A branch to the block has been emitted. -/
def markTarget (block : Block) : Block :=
  if block.kind = .loop then { block with startReached := true }
  else { block with endReached := true }

def finish (block : Block) : Block := { block with reach := .unreachable }

/-- A block nested in the open ones, with the reachability it inherits. -/
def opened (blocks : List Block) (kind : BlockKind) (results : List ValueType) : Block :=
  let reach :=
    match blocks with
    | [] => .reachable
    | parent :: _ => parent.innerReach
  { kind, results, reach, startReached := reach = .reachable }

end Block

end WasmX64
