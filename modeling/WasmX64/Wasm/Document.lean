import WasmX64.Document.Decode
import WasmX64.Document.Reader
import WasmX64.Wasm.Body
import WasmX64.Wasm.Module

/-!
# Module documents

A module as it is written down: types, literals and bodies as text.
`ModuleDocument.build` reads every part in order and validates the outcome.
-/

namespace WasmX64

structure TypeDocument where
  params : List String := []
  results : List String := []

structure MemoryDocument where
  min : UInt32 := 0
  max : Option UInt32 := none

/-- A global with its type and initial value as text; no text means zero. -/
structure GlobalDocument where
  type : String := ""
  isMutable : Bool := false
  init : String := ""

structure FunctionDocument where
  name : String := ""
  type : UInt32 := 0
  locals : List String := []
  isExported : Bool := false
  body : String := ""

structure ModuleDocument where
  types : List TypeDocument := []
  memory : Option MemoryDocument := none
  globals : List GlobalDocument := []
  table : List UInt32 := []
  functions : List FunctionDocument := []

inductive DocumentError where
  /-- There is no document, or it describes no module. -/
  | unreadable (cause : Document.Flaw)
  | type (index : Nat) (cause : OperandError)
  | globalType (index : Nat) (cause : OperandError)
  | globalInit (index : Nat) (cause : ValueError)
  | locals (index : Nat) (cause : OperandError)
  | body (index : Nat) (name : String) (cause : BodyError)
  | unnamedExport (index : Nat)
  | module (cause : ModuleError)
deriving DecidableEq, Repr

def DocumentError.message : DocumentError → String
  | .unreadable cause => "parse module yaml: " ++ cause.message
  | .type index cause => s!"type {index}: " ++ cause.message
  | .globalType index cause => s!"global {index}: " ++ cause.message
  | .globalInit index cause => s!"global {index}: " ++ cause.message
  | .locals index cause => s!"function {index}: " ++ cause.message
  | .body index name cause => s!"function {index} (" ++ name ++ "): " ++ cause.message
  | .unnamedExport index => s!"function {index}: exported function needs a name"
  | .module cause => cause.message

namespace ModuleDocument

def readTypes (index : Nat) : List TypeDocument → Except DocumentError (List FuncType)
  | [] => .ok []
  | type :: rest => do
    let params ← (Body.readTypes type.params).mapError (.type index)
    let results ← (Body.readTypes type.results).mapError (.type index)
    return ⟨params, results⟩ :: (← readTypes (index + 1) rest)

def readGlobal (index : Nat) (global : GlobalDocument) : Except DocumentError Global :=
  match ValueType.ofName? global.type with
  | none => .error (.globalType index (.unknownType global.type))
  | some type =>
    if global.init.isEmpty then .ok ⟨type, global.isMutable, ⟨type, 0⟩⟩
    else
      match Value.parse type global.init with
      | .error cause => .error (.globalInit index cause)
      | .ok init => .ok ⟨type, global.isMutable, init⟩

def readGlobals (index : Nat) : List GlobalDocument → Except DocumentError (List Global)
  | [] => .ok []
  | global :: rest => do
    return (← readGlobal index global) :: (← readGlobals (index + 1) rest)

def readFunctions (module : Module) (index : Nat) :
    List FunctionDocument → Except DocumentError Module
  | [] => .ok module
  | function :: rest => do
    let locals ← (Body.readTypes function.locals).mapError (.locals index)
    let body ← (Body.parse function.body).mapError (.body index function.name)
    let module := { module with
      functions := module.functions.push ⟨function.name, function.type, locals, body⟩ }
    if function.isExported then
      if function.name.isEmpty then throw (.unnamedExport index)
      readFunctions (module.addExport function.name (UInt32.ofNat index)) (index + 1) rest
    else readFunctions module (index + 1) rest

def build (document : ModuleDocument) : Except DocumentError Module := do
  let types ← readTypes 0 document.types
  let globals ← readGlobals 0 document.globals
  let module ← readFunctions
    { types := types.toArray
      memory := document.memory.map fun memory => ⟨memory.min, memory.max⟩
      globals := globals.toArray
      table := document.table.toArray } 0 document.functions
  module.validate.mapError .module
  return module.tabulate

def decodeType : Tree → Decode (Option TypeDocument) :=
  Decode.record "wasm.TypeFile" {} fun type key tree => do
    match key with
    | "params" => return { type with params := ← Decode.orElse type.params Decode.texts tree }
    | "results" => return { type with results := ← Decode.orElse type.results Decode.texts tree }
    | _ => return type

def decodeMemory : Tree → Decode (Option MemoryDocument) :=
  Decode.record "wasm.MemoryFile" {} fun memory key tree => do
    match key with
    | "min" => return { memory with min := ← Decode.orElse memory.min Decode.word tree }
    | "max" => return { memory with max := ← Decode.word tree }
    | _ => return memory

def decodeGlobal : Tree → Decode (Option GlobalDocument) :=
  Decode.record "wasm.GlobalFile" {} fun global key tree => do
    match key with
    | "type" => return { global with type := ← Decode.orElse global.type Decode.text tree }
    | "mutable" =>
      return { global with isMutable := ← Decode.orElse global.isMutable Decode.bool tree }
    | "init" => return { global with init := ← Decode.orElse global.init Decode.text tree }
    | _ => return global

def decodeFunction : Tree → Decode (Option FunctionDocument) :=
  Decode.record "wasm.FunctionFile" {} fun function key tree => do
    match key with
    | "name" => return { function with name := ← Decode.orElse function.name Decode.text tree }
    | "type" => return { function with type := ← Decode.orElse function.type Decode.word tree }
    | "locals" =>
      return { function with locals := ← Decode.orElse function.locals Decode.texts tree }
    | "export" =>
      return { function with isExported := ← Decode.orElse function.isExported Decode.bool tree }
    | "body" => return { function with body := ← Decode.orElse function.body Decode.text tree }
    | _ => return function

def decode : Tree → Decode (Option ModuleDocument) :=
  Decode.record "wasm.ModuleFile" {} fun module key tree => do
    match key with
    | "types" =>
      let types := Decode.list "wasm.TypeFile" decodeType
      return { module with types := ← Decode.orElse module.types types tree }
    | "memory" => return { module with memory := ← decodeMemory tree }
    | "globals" =>
      let globals := Decode.list "wasm.GlobalFile" decodeGlobal
      return { module with globals := ← Decode.orElse module.globals globals tree }
    | "table" =>
      let words := Decode.list "uint32" Decode.word
      return { module with table := ← Decode.orElse module.table words tree }
    | "functions" =>
      let functions := Decode.list "wasm.FunctionFile" decodeFunction
      return { module with functions := ← Decode.orElse module.functions functions tree }
    | _ => return module

end ModuleDocument

namespace Module

def ofBytes (bytes : List UInt8) : Except DocumentError Module := do
  let document ←
    (Document.read bytes >>= Decode.whole {} ModuleDocument.decode).mapError .unreadable
  document.build

def parse (text : String) : Except DocumentError Module := ofBytes (Text.bytesOfText text)

end Module

end WasmX64
