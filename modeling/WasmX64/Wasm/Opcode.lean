import WasmX64.Wasm.ValueType

/-!
# Opcodes

The instruction set, grouped by the shape of its operations.  `Opcode.table` lists
every opcode in numbering order; `Opcode.info` describes how each one is typed.
-/

namespace WasmX64

inductive IntWidth where
  | w32
  | w64
deriving DecidableEq, Repr, Inhabited

inductive FloatWidth where
  | w32
  | w64
deriving DecidableEq, Repr, Inhabited

def IntWidth.type : IntWidth → ValueType
  | .w32 => .i32
  | .w64 => .i64

def IntWidth.bits : IntWidth → Nat
  | .w32 => 32
  | .w64 => 64

def FloatWidth.type : FloatWidth → ValueType
  | .w32 => .f32
  | .w64 => .f64

/-- The loads, by result type and by the width and sign of narrow accesses. -/
inductive LoadOp where
  | i32 | i64 | f32 | f64
  | i32From8S | i32From8U | i32From16S | i32From16U
  | i64From8S | i64From8U | i64From16S | i64From16U | i64From32S | i64From32U
deriving DecidableEq, Repr, Inhabited

/-- The stores, by operand type and by the width of narrow accesses. -/
inductive StoreOp where
  | i32 | i64 | f32 | f64
  | i32To8 | i32To16 | i64To8 | i64To16 | i64To32
deriving DecidableEq, Repr, Inhabited

inductive IntRelation where
  | eq | ne | ltS | ltU | gtS | gtU | leS | leU | geS | geU
deriving DecidableEq, Repr, Inhabited

inductive FloatRelation where
  | eq | ne | lt | gt | le | ge
deriving DecidableEq, Repr, Inhabited

inductive IntUnary where
  | clz | ctz | popcnt
deriving DecidableEq, Repr, Inhabited

inductive IntBinary where
  | add | sub | mul | divS | divU | remS | remU | and | or | xor
  | shl | shrS | shrU | rotl | rotr
deriving DecidableEq, Repr, Inhabited

inductive FloatUnary where
  | abs | neg | ceil | floor | trunc | nearest | sqrt
deriving DecidableEq, Repr, Inhabited

inductive FloatBinary where
  | add | sub | mul | div | min | max | copysign
deriving DecidableEq, Repr, Inhabited

inductive Conversion where
  | wrap
  /-- Truncates a float to an integer and traps when it does not fit. -/
  | truncate (result : IntWidth) (source : FloatWidth) (signed : Bool)
  | extend (signed : Bool)
  | convert (result : FloatWidth) (source : IntWidth) (signed : Bool)
  | demote
  | promote
  | reinterpretFloat (source : FloatWidth)
  | reinterpretInt (source : IntWidth)
deriving DecidableEq, Repr, Inhabited

/-- The operation of an instruction.  `unknown` keeps a number that names none. -/
inductive Opcode where
  | unreachable | nop | block | loop | branchIf | otherwise | finish
  | br | brIf | brTable | ret | call | callIndirect
  | drop | select
  | localGet | localSet | localTee | globalGet | globalSet
  | load (op : LoadOp)
  | store (op : StoreOp)
  | memorySize | memoryGrow
  | intConst (width : IntWidth)
  | floatConst (width : FloatWidth)
  | eqz (width : IntWidth)
  | intCompare (width : IntWidth) (relation : IntRelation)
  | floatCompare (width : FloatWidth) (relation : FloatRelation)
  | intUnary (width : IntWidth) (op : IntUnary)
  | intBinary (width : IntWidth) (op : IntBinary)
  | floatUnary (width : FloatWidth) (op : FloatUnary)
  | floatBinary (width : FloatWidth) (op : FloatBinary)
  | convert (op : Conversion)
  | unknown (code : UInt16)
deriving DecidableEq, Repr, Inhabited

/-- The groups of opcodes that are lowered alike, in numbering order. -/
inductive OpKind where
  | control | parametric | variable | load | store | memory | const
  | compare | unary | binary | convert
deriving DecidableEq, Repr, Inhabited

def OpKind.number (kind : OpKind) : Nat :=
  kind.ctorIdx

/-- What typing and lowering need to know of an opcode: its operand type, its
result type, the bytes a memory access touches and whether it reads its operand
as signed. -/
structure OpInfo where
  name : String
  kind : OpKind
  operand : Option ValueType
  result : Option ValueType
  accessBytes : Nat
  signed : Bool
deriving DecidableEq, Repr

namespace LoadOp

/-- Name suffix, result type, bytes read and signedness of a load. -/
def info : LoadOp → String × ValueType × Nat × Bool
  | .i32 => ("load", .i32, 4, false)
  | .i64 => ("load", .i64, 8, false)
  | .f32 => ("load", .f32, 4, false)
  | .f64 => ("load", .f64, 8, false)
  | .i32From8S => ("load8_s", .i32, 1, true)
  | .i32From8U => ("load8_u", .i32, 1, false)
  | .i32From16S => ("load16_s", .i32, 2, true)
  | .i32From16U => ("load16_u", .i32, 2, false)
  | .i64From8S => ("load8_s", .i64, 1, true)
  | .i64From8U => ("load8_u", .i64, 1, false)
  | .i64From16S => ("load16_s", .i64, 2, true)
  | .i64From16U => ("load16_u", .i64, 2, false)
  | .i64From32S => ("load32_s", .i64, 4, true)
  | .i64From32U => ("load32_u", .i64, 4, false)

def result (op : LoadOp) : ValueType := op.info.2.1

def bytes (op : LoadOp) : Nat := op.info.2.2.1

/-- Whether a narrow load extends by the sign. -/
def signed (op : LoadOp) : Bool := op.info.2.2.2

end LoadOp

namespace StoreOp

/-- Name suffix, operand type and bytes written of a store. -/
def info : StoreOp → String × ValueType × Nat
  | .i32 => ("store", .i32, 4)
  | .i64 => ("store", .i64, 8)
  | .f32 => ("store", .f32, 4)
  | .f64 => ("store", .f64, 8)
  | .i32To8 => ("store8", .i32, 1)
  | .i32To16 => ("store16", .i32, 2)
  | .i64To8 => ("store8", .i64, 1)
  | .i64To16 => ("store16", .i64, 2)
  | .i64To32 => ("store32", .i64, 4)

def operand (op : StoreOp) : ValueType := op.info.2.1

def bytes (op : StoreOp) : Nat := op.info.2.2

end StoreOp

def IntRelation.name : IntRelation → String
  | .eq => "eq" | .ne => "ne" | .ltS => "lt_s" | .ltU => "lt_u" | .gtS => "gt_s"
  | .gtU => "gt_u" | .leS => "le_s" | .leU => "le_u" | .geS => "ge_s" | .geU => "ge_u"

def IntRelation.signed : IntRelation → Bool
  | .ltS | .gtS | .leS | .geS => true
  | _ => false

def FloatRelation.name : FloatRelation → String
  | .eq => "eq" | .ne => "ne" | .lt => "lt" | .gt => "gt" | .le => "le" | .ge => "ge"

def IntUnary.name : IntUnary → String
  | .clz => "clz" | .ctz => "ctz" | .popcnt => "popcnt"

def IntBinary.name : IntBinary → String
  | .add => "add" | .sub => "sub" | .mul => "mul" | .divS => "div_s" | .divU => "div_u"
  | .remS => "rem_s" | .remU => "rem_u" | .and => "and" | .or => "or" | .xor => "xor"
  | .shl => "shl" | .shrS => "shr_s" | .shrU => "shr_u" | .rotl => "rotl" | .rotr => "rotr"

def IntBinary.signed : IntBinary → Bool
  | .divS | .remS | .shrS => true
  | _ => false

def FloatUnary.name : FloatUnary → String
  | .abs => "abs" | .neg => "neg" | .ceil => "ceil" | .floor => "floor"
  | .trunc => "trunc" | .nearest => "nearest" | .sqrt => "sqrt"

def FloatBinary.name : FloatBinary → String
  | .add => "add" | .sub => "sub" | .mul => "mul" | .div => "div" | .min => "min"
  | .max => "max" | .copysign => "copysign"

namespace Conversion

def operand : Conversion → ValueType
  | .wrap => .i64
  | .truncate _ source _ => source.type
  | .extend _ => .i32
  | .convert _ source _ => source.type
  | .demote => .f64
  | .promote => .f32
  | .reinterpretFloat source => source.type
  | .reinterpretInt source => source.type

def result : Conversion → ValueType
  | .wrap => .i32
  | .truncate result _ _ => result.type
  | .extend _ => .i64
  | .convert result _ _ => result.type
  | .demote => .f32
  | .promote => .f64
  | .reinterpretFloat .w32 => .i32
  | .reinterpretFloat .w64 => .i64
  | .reinterpretInt .w32 => .f32
  | .reinterpretInt .w64 => .f64

def signed : Conversion → Bool
  | .truncate _ _ signed => signed
  | .extend signed => signed
  | .convert _ _ signed => signed
  | _ => false

def verb : Conversion → String
  | .wrap => "wrap"
  | .truncate _ _ _ => "trunc"
  | .extend _ => "extend"
  | .convert _ _ _ => "convert"
  | .demote => "demote"
  | .promote => "promote"
  | .reinterpretFloat _ => "reinterpret"
  | .reinterpretInt _ => "reinterpret"

def namesSign : Conversion → Bool
  | .truncate _ _ _ | .extend _ | .convert _ _ _ => true
  | _ => false

def name (op : Conversion) : String :=
  op.result.name ++ "." ++ op.verb ++ "_" ++ op.operand.name ++
    (if op.namesSign then if op.signed then "_s" else "_u" else "")

end Conversion

namespace Opcode

def info : Opcode → OpInfo
  | .unreachable => ⟨"unreachable", .control, none, none, 0, false⟩
  | .nop => ⟨"nop", .control, none, none, 0, false⟩
  | .block => ⟨"block", .control, none, none, 0, false⟩
  | .loop => ⟨"loop", .control, none, none, 0, false⟩
  | .branchIf => ⟨"if", .control, none, none, 0, false⟩
  | .otherwise => ⟨"else", .control, none, none, 0, false⟩
  | .finish => ⟨"end", .control, none, none, 0, false⟩
  | .br => ⟨"br", .control, none, none, 0, false⟩
  | .brIf => ⟨"br_if", .control, none, none, 0, false⟩
  | .brTable => ⟨"br_table", .control, none, none, 0, false⟩
  | .ret => ⟨"return", .control, none, none, 0, false⟩
  | .call => ⟨"call", .control, none, none, 0, false⟩
  | .callIndirect => ⟨"call_indirect", .control, none, none, 0, false⟩
  | .drop => ⟨"drop", .parametric, none, none, 0, false⟩
  | .select => ⟨"select", .parametric, none, none, 0, false⟩
  | .localGet => ⟨"local.get", .variable, none, none, 0, false⟩
  | .localSet => ⟨"local.set", .variable, none, none, 0, false⟩
  | .localTee => ⟨"local.tee", .variable, none, none, 0, false⟩
  | .globalGet => ⟨"global.get", .variable, none, none, 0, false⟩
  | .globalSet => ⟨"global.set", .variable, none, none, 0, false⟩
  | .load op => ⟨op.result.name ++ "." ++ op.info.1, .load, none, op.result, op.bytes, op.signed⟩
  | .store op =>
    ⟨op.operand.name ++ "." ++ op.info.1, .store, op.operand, none, op.bytes, false⟩
  | .memorySize => ⟨"memory.size", .memory, none, some .i32, 0, false⟩
  | .memoryGrow => ⟨"memory.grow", .memory, some .i32, some .i32, 0, false⟩
  | .intConst width => ⟨width.type.name ++ ".const", .const, none, width.type, 0, false⟩
  | .floatConst width => ⟨width.type.name ++ ".const", .const, none, width.type, 0, false⟩
  | .eqz width => ⟨width.type.name ++ ".eqz", .unary, width.type, some .i32, 0, false⟩
  | .intCompare width relation =>
    ⟨width.type.name ++ "." ++ relation.name, .compare, width.type, some .i32, 0,
      relation.signed⟩
  | .floatCompare width relation =>
    ⟨width.type.name ++ "." ++ relation.name, .compare, width.type, some .i32, 0, false⟩
  | .intUnary width op =>
    ⟨width.type.name ++ "." ++ op.name, .unary, width.type, width.type, 0, false⟩
  | .intBinary width op =>
    ⟨width.type.name ++ "." ++ op.name, .binary, width.type, width.type, 0, op.signed⟩
  | .floatUnary width op =>
    ⟨width.type.name ++ "." ++ op.name, .unary, width.type, width.type, 0, false⟩
  | .floatBinary width op =>
    ⟨width.type.name ++ "." ++ op.name, .binary, width.type, width.type, 0, false⟩
  | .convert op => ⟨op.name, .convert, op.operand, op.result, 0, op.signed⟩
  | .unknown code => ⟨s!"Opcode({code.toNat})", .control, none, none, 0, false⟩

def name (op : Opcode) : String := op.info.name

def isValid : Opcode → Bool
  | .unknown _ => false
  | _ => true

/-- The control, parametric and variable instructions in numbering order. -/
def controls : List Opcode :=
  [.unreachable, .nop, .block, .loop, .branchIf, .otherwise, .finish, .br, .brIf, .brTable,
    .ret, .call, .callIndirect, .drop, .select, .localGet, .localSet, .localTee, .globalGet,
    .globalSet]

def loads : List LoadOp :=
  [.i32, .i64, .f32, .f64, .i32From8S, .i32From8U, .i32From16S, .i32From16U, .i64From8S,
    .i64From8U, .i64From16S, .i64From16U, .i64From32S, .i64From32U]

def stores : List StoreOp :=
  [.i32, .i64, .f32, .f64, .i32To8, .i32To16, .i64To8, .i64To16, .i64To32]

/-- The instructions on the size of memory and the constants in numbering order. -/
def constants : List Opcode :=
  [.memorySize, .memoryGrow, .intConst .w32, .intConst .w64, .floatConst .w32,
    .floatConst .w64]

def intRelations : List IntRelation :=
  [.eq, .ne, .ltS, .ltU, .gtS, .gtU, .leS, .leU, .geS, .geU]

def floatRelations : List FloatRelation :=
  [.eq, .ne, .lt, .gt, .le, .ge]

/-- The integer tests of a width in numbering order. -/
def intTests (width : IntWidth) : List Opcode :=
  .eqz width :: intRelations.map (.intCompare width)

def intUnaries : List IntUnary := [.clz, .ctz, .popcnt]

def intBinaries : List IntBinary :=
  [.add, .sub, .mul, .divS, .divU, .remS, .remU, .and, .or, .xor, .shl, .shrS, .shrU, .rotl,
    .rotr]

def floatUnaries : List FloatUnary := [.abs, .neg, .ceil, .floor, .trunc, .nearest, .sqrt]

def floatBinaries : List FloatBinary := [.add, .sub, .mul, .div, .min, .max, .copysign]

def intOperations (width : IntWidth) : List Opcode :=
  intUnaries.map (.intUnary width) ++ intBinaries.map (.intBinary width)

def floatOperations (width : FloatWidth) : List Opcode :=
  floatUnaries.map (.floatUnary width) ++ floatBinaries.map (.floatBinary width)

def conversions : List Conversion :=
  [.wrap, .truncate .w32 .w32 true, .truncate .w32 .w32 false, .truncate .w32 .w64 true,
    .truncate .w32 .w64 false, .extend true, .extend false, .truncate .w64 .w32 true,
    .truncate .w64 .w32 false, .truncate .w64 .w64 true, .truncate .w64 .w64 false,
    .convert .w32 .w32 true, .convert .w32 .w32 false, .convert .w32 .w64 true,
    .convert .w32 .w64 false, .demote, .convert .w64 .w32 true, .convert .w64 .w32 false,
    .convert .w64 .w64 true, .convert .w64 .w64 false, .promote, .reinterpretFloat .w32,
    .reinterpretFloat .w64, .reinterpretInt .w32, .reinterpretInt .w64]

def list : List Opcode :=
  controls ++ loads.map .load ++ stores.map .store ++ constants ++
  intTests .w32 ++ intTests .w64 ++
  floatRelations.map (.floatCompare .w32) ++
  floatRelations.map (.floatCompare .w64) ++
  intOperations .w32 ++ intOperations .w64 ++
  floatOperations .w32 ++ floatOperations .w64 ++
  conversions.map .convert

def table : Array Opcode := list.toArray

def ofCode (code : UInt16) : Opcode :=
  (table[code.toNat]?).getD (.unknown code)

def code (op : Opcode) : UInt16 :=
  match op with
  | .unknown code => code
  | op => UInt16.ofNat (list.idxOf op)

def named : List (String × Opcode) :=
  list.map fun op => (op.name, op)

def ofName? (name : String) : Option Opcode :=
  (named.find? fun entry => entry.1 = name).map Prod.snd

/-- Opcodes that open a body of their own. -/
def isStructured : Opcode → Bool
  | .block | .loop | .branchIf => true
  | _ => false

theorem length_list : list.length = 172 := by decide +kernel

end Opcode

end WasmX64
