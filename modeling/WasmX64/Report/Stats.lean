import WasmX64.Compile.Event
import WasmX64.Float.Arithmetic

/-!
# Compilation statistics

Counts of what happened while functions were compiled, and the accesses to locals
and globals.  Counts are listed by number and accesses by place, so statistics do not
depend on the order in which the events of different functions arrive.
-/

namespace WasmX64

structure Access where
  func : UInt32
  instr : Int
  isGlobal : Bool
  index : UInt32
  isWrite : Bool
deriving DecidableEq, Repr

/-- Statistics over compiled functions.  Counts are listed by opcode, block kind
and machine kind in numbering order, without zeros. -/
structure Stats where
  functions : Nat
  codeBytes : Nat
  instructions : List (Opcode × Nat)
  controls : List (BlockKind × Nat)
  machine : List (MachineKind × Nat)
  accesses : List Access

namespace Stats

/-- How often each item of a list occurs, in ascending order of a key. -/
def tally {α : Type} [DecidableEq α] (key : α → Nat) (items : List α) : List (α × Nat) :=
  let sorted := items.mergeSort fun left right => key left ≤ key right
  sorted.foldr (fun item counted =>
    match counted with
    | (first, count) :: rest =>
      if first = item then (first, count + 1) :: rest else (item, 1) :: counted
    | [] => [(item, 1)]) []

def access? (event : Event) : Option Access :=
  match event.what with
  | .instrStart (some instr) =>
    let access := fun isGlobal isWrite =>
      some ⟨event.func, event.instr, isGlobal, instr.index, isWrite⟩
    match instr.op with
    | .localGet => access false false
    | .localSet | .localTee => access false true
    | .globalGet => access true false
    | .globalSet => access true true
    | _ => none
  | _ => none

def comesBefore (left right : Access) : Bool :=
  left.func < right.func || (left.func = right.func && left.instr ≤ right.instr)

def ofEvents (events : List Event) : Stats :=
  { functions := events.countP fun event =>
      match event.what with
      | .functionStart _ => true
      | _ => false
    codeBytes := events.foldl (fun total event =>
      match event.what with
      | .functionEnd _ => total + event.offset
      | _ => total) 0
    instructions := tally (fun op => op.code.toNat) (events.filterMap fun event =>
      match event.what with
      | .instrStart _ => some event.op
      | _ => none)
    controls := tally (fun kind => BlockKind.list.idxOf kind) (events.filterMap fun event =>
      match event.what with
      | .controlStart kind => some kind
      | _ => none)
    machine := tally (fun kind => MachineKind.list.idxOf kind) (events.filterMap fun event =>
      match event.what with
      | .machineStart machine => some machine.kind
      | _ => none)
    accesses := (events.filterMap access?).mergeSort comesBefore }

end Stats

/-!
## Sizes for people

A number of bytes with four digits and a decimal unit.
-/

def sizeUnits : List String := ["B", "kB", "MB", "GB", "TB", "PB", "EB", "ZB", "YB"]

/-- Divides a size by a thousand as long as it reaches a thousand and units are
left. -/
def scaleSize (size : Nat) : List String → String
  | [] => FloatFormat.double.renderRounded 4 size
  | [unit] => FloatFormat.double.renderRounded 4 size ++ unit
  | unit :: rest =>
    let thousand := FloatFormat.double.ofInt 1000
    if FloatFormat.double.compare? size thousand = some .lt then
      FloatFormat.double.renderRounded 4 size ++ unit
    else scaleSize (FloatFormat.double.div size thousand) rest

def humanSize (bytes : Nat) : String :=
  scaleSize (FloatFormat.double.ofInt bytes) sizeUnits

/-!
## Summaries

The statistics of a compilation as lines of a table.
-/

def padRight (width : Nat) (text : String) : String :=
  text ++ String.ofList (List.replicate (width - text.length) ' ')

namespace Stats

/-- The order of opcodes in a summary: the most frequent first, then by name. -/
def precedes (left right : Opcode × Nat) : Bool :=
  right.2 < left.2 || (left.2 = right.2 && left.1.name ≤ right.1.name)

/-- The lines of a summary: the totals, the opcodes and the machine-level
constructs. -/
def summary (stats : Stats) : List String :=
  let totals := s!"functions: {stats.functions}, code: {humanSize stats.codeBytes}, " ++
    s!"accesses: {stats.accesses.length}"
  let opcodes := (stats.instructions.mergeSort precedes).map fun (op, count) =>
    s!"  {padRight 20 op.name} {count}"
  let machine := stats.machine.map fun (kind, count) =>
    s!"  machine {padRight 16 kind.name} {count}"
  totals :: opcodes ++ machine

end Stats

end WasmX64
