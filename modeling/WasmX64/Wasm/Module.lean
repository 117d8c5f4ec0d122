import WasmX64.Wasm.Instr
import WasmX64.Wasm.Value

/-!
# Modules

Everything that encloses a function: signatures, globals, the function table, the
memory and the exports.  `Module.validate` checks the cross references; bodies are
typed when they are compiled.
-/

namespace WasmX64

def pageSize : Nat := 65536

structure Global where
  type : ValueType
  isMutable : Bool
  init : Value
deriving DecidableEq, Repr, Inhabited

structure Limits where
  min : UInt32
  max : Option UInt32
deriving DecidableEq, Repr, Inhabited

namespace FuncType

/-- The place of the first of the types before an index that equals a signature; the index
itself if there is none. -/
def firstBefore (types : Array FuncType) (type : FuncType) (index : Nat) : Nat :=
  (types.toList.take index).idxOf type

def firstPlaces (types : Array FuncType) : Array UInt32 :=
  types.mapIdx fun index type => UInt32.ofNat (firstBefore types type index)

end FuncType

/-- A module.  Exports are pairs of a name and a function index, each name once. -/
structure Module where
  types : Array FuncType := #[]
  functions : Array Function := #[]
  globals : Array Global := #[]
  table : Array UInt32 := #[]
  memory : Option Limits := none
  exports : List (String × UInt32) := []
  /-- The canonical index of each type, once validation has tabulated them. -/
  canonical : Array UInt32 := #[]
  canonical_eq : canonical = #[] ∨ canonical = FuncType.firstPlaces types := by exact .inl rfl

instance : Inhabited Module := ⟨{}⟩

def Module.declaring (types : Array FuncType) : Module := { types }

inductive ModuleError where
  | functionIndex (index : UInt32) (count : Nat)
  | typeIndex (index : UInt32) (count : Nat)
  | manyResults (index count : Nat)
  | undefinedType (function : Nat) (type : UInt32)
  | undefinedTableEntry (entry : Nat) (function : UInt32)
  | undefinedExport (name : String) (function : UInt32)
  | invalidGlobal (index : Nat)
  | globalInit (index : Nat) (declared initial : ValueType)
  | memoryLimits (max min : UInt32)
deriving DecidableEq, Repr

def ModuleError.message : ModuleError → String
  | .functionIndex index count =>
    s!"wasm: function index {index.toNat} out of range ({count} functions)"
  | .typeIndex index count => s!"wasm: type index {index.toNat} out of range ({count} types)"
  | .manyResults index count =>
    s!"wasm: type {index} has {count} results, at most one allowed"
  | .undefinedType function type =>
    s!"wasm: function {function} uses undefined type {type.toNat}"
  | .undefinedTableEntry entry function =>
    s!"wasm: table entry {entry} references undefined function {function.toNat}"
  | .undefinedExport name function =>
    "wasm: export " ++ Text.quote name ++ s!" references undefined function {function.toNat}"
  | .invalidGlobal index => s!"wasm: global {index} has invalid type"
  | .globalInit index declared initial =>
    s!"wasm: global {index} of type {declared.name} initialised with {initial.name}"
  | .memoryLimits max min => s!"wasm: memory max {max.toNat} below min {min.toNat}"

namespace Module

def typeAt (module : Module) (index : UInt32) : Except ModuleError FuncType :=
  match module.types[index.toNat]? with
  | some type => .ok type
  | none => .error (.typeIndex index module.types.size)

def functionType (module : Module) (index : UInt32) : Except ModuleError FuncType :=
  match module.functions[index.toNat]? with
  | some function => module.typeAt function.type
  | none => .error (.functionIndex index module.functions.size)

/-- The first type index with the same signature; an index out of range stands
for itself.  It is looked up once the indices are tabulated and searched for before. -/
def canonicalType (module : Module) (index : UInt32) : UInt32 :=
  match module.types[index.toNat]? with
  | none => index
  | some type =>
    if module.canonical.size = module.types.size then module.canonical[index.toNat]?.getD 0
    else UInt32.ofNat (FuncType.firstBefore module.types type index.toNat)

/-- Tabulates the canonical index of each type, as validation does before it checks. -/
def tabulate (module : Module) : Module :=
  { module with canonical := FuncType.firstPlaces module.types, canonical_eq := .inr rfl }

def exported? (module : Module) (name : String) : Option UInt32 :=
  (module.exports.find? fun entry => entry.1 = name).map Prod.snd

def addExport (module : Module) (name : String) (index : UInt32) : Module :=
  { module with exports := (module.exports.filter (·.1 ≠ name)) ++ [(name, index)] }

def firstError {α ε : Type} (check : Nat → α → Option ε) (index : Nat) :
    List α → Except ε Unit
  | [] => .ok ()
  | item :: rest =>
    match check index item with
    | some error => .error error
    | none => firstError check (index + 1) rest

def validate (module : Module) : Except ModuleError Unit := do
  firstError (fun index (type : FuncType) =>
      if 1 < type.results.length then some (.manyResults index type.results.length) else none)
    0 module.types.toList
  firstError (fun index (function : Function) =>
      if module.types.size ≤ function.type.toNat then some (.undefinedType index function.type)
      else none)
    0 module.functions.toList
  firstError (fun index (entry : UInt32) =>
      if module.functions.size ≤ entry.toNat then some (.undefinedTableEntry index entry)
      else none)
    0 module.table.toList
  firstError (fun _ (entry : String × UInt32) =>
      if module.functions.size ≤ entry.2.toNat then some (.undefinedExport entry.1 entry.2)
      else none)
    0 module.exports
  firstError (fun index (global : Global) =>
      if !global.type.isValid then some (.invalidGlobal index)
      else if global.init.type ≠ global.type then
        some (.globalInit index global.type global.init.type)
      else none)
    0 module.globals.toList
  match module.memory with
  | some ⟨min, some max⟩ => if max < min then throw (.memoryLimits max min)
  | _ => pure ()

end Module

end WasmX64
