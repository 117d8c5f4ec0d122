import WasmX64.Wasm.Opcode

/-!
# Traps

The run-time faults of WebAssembly and the cell in which generated code reports
them to the host.
-/

namespace WasmX64

inductive TrapKind where
  | clear
  | unreachable
  | divideByZero
  | integerOverflow
  | invalidConversion
  | outOfBounds
  | undefinedElement
  | typeMismatch
  | unknown (code : UInt32)
deriving DecidableEq, Repr, Inhabited

namespace TrapKind

def list : List TrapKind :=
  [.clear, .unreachable, .divideByZero, .integerOverflow, .invalidConversion, .outOfBounds,
    .undefinedElement, .typeMismatch]

def ofCode (code : UInt32) : TrapKind :=
  list[code.toNat]?.getD (.unknown code)

def code : TrapKind → UInt32
  | .unknown code => code
  | kind => UInt32.ofNat (list.idxOf kind)

def message : TrapKind → String
  | .clear => "none"
  | .unreachable => "unreachable executed"
  | .divideByZero => "integer divide by zero"
  | .integerOverflow => "integer overflow"
  | .invalidConversion => "invalid conversion to integer"
  | .outOfBounds => "out of bounds memory access"
  | .undefinedElement => "undefined table element"
  | .typeMismatch => "indirect call type mismatch"
  | .unknown code => s!"TrapKind({code.toNat})"

end TrapKind

/-- Offsets in the trap cell: the fault, the instruction and the function, the
stack pointer to restore and the address to resume at. -/
structure TrapCell where
  kind : Int32 := 0
  instr : Int32 := 4
  stackPointer : Int32 := 8
  resume : Int32 := 16
  func : Int32 := 24

def trapCell : TrapCell := {}

def trapCellSize : Nat := 32

structure TrapSite where
  kind : TrapKind
  instr : Int
  offset : Int
deriving DecidableEq, Repr, Inhabited

/-!
## Source maps

An index from code offsets to instructions.  Of several instructions that start at
one offset the last wins, since the earlier ones produced no code.
-/

structure SourceEntry where
  offset : Int
  instr : Int
  op : Opcode
deriving DecidableEq, Repr, Inhabited

/-- Entries in descending order of their offsets, each offset once. -/
structure SourceMap where
  descending : List SourceEntry := []
deriving DecidableEq, Repr, Inhabited

namespace SourceMap

/-- Inserts an entry into a descending list, replacing one of the same offset. -/
def insertInto (entry : SourceEntry) : List SourceEntry → List SourceEntry
  | [] => [entry]
  | head :: rest =>
    if head.offset < entry.offset then entry :: head :: rest
    else if head.offset = entry.offset then entry :: rest
    else head :: insertInto entry rest

def insert (sources : SourceMap) (entry : SourceEntry) : SourceMap :=
  ⟨insertInto entry sources.descending⟩

/-- The entry whose code contains an offset: the last one at or before it. -/
def find? (sources : SourceMap) (offset : Int) : Option SourceEntry :=
  sources.descending.find? fun entry => entry.offset ≤ offset

def size (sources : SourceMap) : Nat := sources.descending.length

def toList (sources : SourceMap) : List SourceEntry := sources.descending.reverse

/-- The map of a list of entries, later ones replacing earlier ones. -/
def ofList (entries : List SourceEntry) : SourceMap :=
  entries.foldl insert {}

end SourceMap

/-!
## Trap reports

What the host says about a trap: the fault, where it arose and the opcode of the
instruction there.
-/

structure TrapReport where
  kind : TrapKind
  func : UInt32
  instr : Int
  op : Opcode
deriving DecidableEq, Repr

def TrapReport.message (report : TrapReport) : String :=
  "runtime: trap " ++ report.kind.message ++ s!" in func[{report.func.toNat}] instr " ++
    s!"{report.instr} ({report.op.name})"

/-- The opcode recorded for an instruction, the lowest offset first; `unreachable`
when there is none. -/
def SourceMap.opcodeOf (sources : SourceMap) (instr : Int) : Opcode :=
  ((sources.toList.find? fun entry => entry.instr = instr).map SourceEntry.op).getD .unreachable

end WasmX64
