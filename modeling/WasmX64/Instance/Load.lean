import WasmX64.Compile.Function
import WasmX64.Instance.Arena
import WasmX64.Instance.Thunk

/-!
# The data region and loading

A data region holds the run-time objects of an instance behind each other: the trap cell, the
size of memory, the size of the table, the globals, the signatures and the entries of the table,
and the arguments of the current call.  A module with compiled functions becomes an instance:
its functions are placed in an arena, the references of each are resolved against the final
addresses, and a thunk is added for each.
-/

namespace WasmX64

/-- The number of objects of each kind in a data region. -/
structure DataRegion where
  globals : Nat
  tableSlots : Nat
  arguments : Nat
deriving DecidableEq, Repr, Inhabited

namespace DataRegion

def ofModule (module : Module) : DataRegion :=
  { globals := module.globals.size
    tableSlots := module.table.size
    arguments := module.types.foldl (fun count type => max count type.params.length) 1 }

def trapCellAt : Nat := 0

def memorySizeAt : Nat := trapCellSize

def tableSizeAt : Nat := memorySizeAt + 8

def globalsAt : Nat := tableSizeAt + 8

def signaturesAt (region : DataRegion) : Nat := globalsAt + 8 * region.globals

/-- The offset of the first table entry, a multiple of eight. -/
def entriesAt (region : DataRegion) : Nat :=
  region.signaturesAt + (4 * region.tableSlots + 7) / 8 * 8

def argumentsAt (region : DataRegion) : Nat := region.entriesAt + 8 * region.tableSlots

def size (region : DataRegion) : Nat := region.argumentsAt + 8 * region.arguments

def globalAt (index : Nat) : Nat := globalsAt + 8 * index

def signatureAt (region : DataRegion) (index : Nat) : Nat := region.signaturesAt + 4 * index

def entryAt (region : DataRegion) (index : Nat) : Nat := region.entriesAt + 8 * index

def argumentAt (region : DataRegion) (index : Nat) : Nat := region.argumentsAt + 8 * index

/-- Writes items, from a number on, each at its place. -/
def write {α : Type} (place : Nat → Nat) (bytes : α → List UInt8) (index : Nat) :
    List α → Array UInt8 → Array UInt8
  | [], data => data
  | item :: rest, data =>
    write place bytes (index + 1) rest (Code.overwrite data (place index) (bytes item))

end DataRegion

/-- The addresses at which the regions of an instance start.  That of memory is 0 if the module has
no memory. -/
structure Bases where
  code : UInt64 := 0
  data : UInt64 := 0
  memory : UInt64 := 0
deriving DecidableEq, Repr, Inhabited

inductive LookupError where
  | noGlobal (index : UInt32)
  | noFunction (index : UInt32)
  | unknownKind (kind : RefKind)
deriving DecidableEq, Repr

def LookupError.message : LookupError → String
  | .noGlobal index => s!"no global {index.toNat}"
  | .noFunction index => s!"no function {index.toNat}"
  | .unknownKind kind => "unknown reference kind " ++ kind.name

inductive LoadError where
  | functionCount (compiled declared : Nat)
  | arena (cause : ArenaError)
  | place (index : Nat) (cause : ArenaError)
  | resolve (index : Nat) (cause : ResolveError LookupError)
  | thunk (index : Nat) (cause : CodeError)
  | placeThunk (index : Nat) (cause : ArenaError)

def LoadError.message : LoadError → String
  | .functionCount compiled declared =>
    s!"runtime: {compiled} compiled functions for {declared} functions"
  | .arena cause => "runtime: " ++ cause.message
  | .place index cause => s!"runtime: func[{index}]: " ++ cause.message
  | .resolve index cause => s!"runtime: func[{index}]: " ++ cause.message LookupError.message
  | .thunk index cause => s!"runtime: thunk for func[{index}]: " ++ cause.message
  | .placeThunk index cause => s!"runtime: thunk for func[{index}]: " ++ cause.message

structure Instance where
  module : Module
  functions : Array Compiled
  /-- The host, narrowed to the memory of the module. -/
  host : Host
  data : DataRegion
  arena : Arena
  entries : Array Int64
  thunks : Array Int64
deriving Inhabited

namespace Instance

def lookup (module : Module) (bases : Bases) (entries : Array Int64) (ref : Reference) :
    Except LookupError UInt64 :=
  let region := DataRegion.ofModule module
  let data (offset : Nat) : UInt64 := bases.data + UInt64.ofNat offset
  match ref.kind with
  | .global =>
    if module.globals.size ≤ ref.index.toNat then .error (.noGlobal ref.index)
    else .ok (data (DataRegion.globalAt ref.index.toNat))
  | .memory => .ok bases.memory
  | .memorySize => .ok (data DataRegion.memorySizeAt)
  | .func =>
    match entries[ref.index.toNat]? with
    | none => .error (.noFunction ref.index)
    | some entry => .ok (bases.code + entry.toUInt64)
  | .table => .ok (data region.entriesAt)
  | .tableSize => .ok (data DataRegion.tableSizeAt)
  | .tableSigs => .ok (data region.signaturesAt)
  | .trap => .ok (data DataRegion.trapCellAt)
  | .unknown _ => .error (.unknownKind ref.kind)

/-- Loading steps: the arena is filled under way. -/
abbrev LoadM := EStateM LoadError Arena

def onArena {α : Type} (cause : ArenaError → LoadError) (action : ArenaM α) : LoadM α :=
  fun arena =>
    match action arena with
    | .ok result arena => .ok result arena
    | .error error arena => .error (cause error) arena

def placeFunctions (index : Nat) : List Compiled → LoadM (List Region)
  | [] => return []
  | compiled :: rest => do
    let region ← onArena (.place index) (Arena.reserve (Int64.ofNat compiled.program.code.size))
    return region :: (← placeFunctions (index + 1) rest)

def writeFunctions (lookup : Reference → Except LookupError UInt64) (index : Nat) :
    List (Compiled × Region) → LoadM Unit
  | [] => pure ()
  | (compiled, region) :: rest => do
    match compiled.program.resolve lookup with
    | .error cause => throw (.resolve index cause)
    | .ok code => onArena (.place index) (Arena.fill region code.toList)
    writeFunctions lookup (index + 1) rest

def writeThunks (bases : Bases) (index : Nat) :
    List (Compiled × Region) → LoadM (List Int64)
  | [] => return []
  | (compiled, entry) :: rest => do
    let target := bases.code + entry.start.toUInt64
    let cell := bases.data + UInt64.ofNat DataRegion.trapCellAt
    match Thunk.build compiled.signature target cell with
    | .error cause => throw (.thunk index cause)
    | .ok thunk =>
      let region ←
        onArena (.placeThunk index) (Arena.reserve (Int64.ofNat thunk.code.length))
      onArena (.placeThunk index)
        (Arena.fill region (thunk.link (bases.code + region.start.toUInt64)))
      return region.start :: (← writeThunks bases (index + 1) rest)

/-- The size of an arena that is sure to hold functions and their thunks. -/
def sufficientArena (functions : List Compiled) : Int64 :=
  Int64.ofNat (functions.foldl (fun total compiled => total + compiled.program.code.size + 16) 0 +
    256 * functions.length)

/-- Loads compiled functions, one for each function of the module and in the same
order.  An arena size of zero means that the arena is fitted to the code. -/
def load (module : Module) (functions : List Compiled) (host : Host) (arenaSize : Int64)
    (bases : Bases) : Except LoadError Instance := do
  if functions.length ≠ module.functions.size then
    throw (.functionCount functions.length module.functions.size)
  let size := if arenaSize = 0 then sufficientArena functions else arenaSize
  let arena ← (Arena.create size).mapError .arena
  let fill : LoadM (List Region × List Int64) := do
    let regions ← placeFunctions 0 functions
    let entries := (regions.map Region.start).toArray
    let placed := functions.zip regions
    writeFunctions (lookup module bases entries) 0 placed
    let thunks ← writeThunks bases 0 placed
    onArena .arena Arena.freeze
    return (regions, thunks)
  match fill arena with
  | .error error _ => throw error
  | .ok (regions, thunks) arena =>
    return {
      module, arena
      functions := functions.toArray
      host := host.narrow module.memory
      data := .ofModule module
      entries := (regions.map Region.start).toArray
      thunks := thunks.toArray }

def tableEntry (inst : Instance) (func : UInt32) : Int64 :=
  inst.entries[func.toNat]?.getD 0

def tableSignature (inst : Instance) (func : UInt32) : UInt32 :=
  (inst.module.functions[func.toNat]?.map fun function =>
    inst.module.canonicalType function.type).getD 0

def memoryReserved (inst : Instance) : Nat :=
  if inst.module.memory.isSome then inst.host.memoryLimit else 0

def memorySize (inst : Instance) : Nat :=
  if inst.module.memory.isSome then inst.host.minPages.toNat * pageSize else 0

/-- What the data region holds before the first call.  The entries of the table are relative to
the arena. -/
def contents (inst : Instance) : Array UInt8 :=
  let region := inst.data
  let table := inst.module.table.toList
  let data := Array.replicate region.size 0
  let data := DataRegion.write DataRegion.globalAt (fun global : Global => bytes64 global.init.bits)
    0 inst.module.globals.toList data
  let data := Code.overwrite data DataRegion.tableSizeAt (bytes32 (UInt32.ofNat table.length))
  let data := Code.overwrite data DataRegion.memorySizeAt
    (bytes64 (UInt64.ofNat inst.memorySize))
  let data := DataRegion.write region.signatureAt (fun func => bytes32 (inst.tableSignature func))
    0 table data
  DataRegion.write region.entryAt (fun func => bytes64 (inst.tableEntry func).toUInt64) 0 table data

def global? (inst : Instance) (index : UInt32) : Option Value :=
  inst.module.globals[index.toNat]?.map fun global => .ofRegister global.type global.init.bits

def noGlobalMessage (index : UInt32) : String := s!"runtime: no global {index.toNat}"

end Instance

end WasmX64
