import WasmX64.Compile.Function

/-!
# Compiled modules as bytes

What is stored of a compiled module, and how it is written.
-/

namespace WasmX64

/-!
## Artifacts

Compiled functions in the form in which they are stored.
-/

structure StoredFunction where
  index : UInt32
  type : FuncType
  code : List UInt8
  refs : List Reference
  frameSlots : Int
  traps : List TrapSite
  sources : List SourceEntry
deriving DecidableEq, Repr, Inhabited

structure Artifact where
  functions : List StoredFunction := []
deriving DecidableEq, Repr, Inhabited

namespace StoredFunction

def ofCompiled (type : FuncType) (compiled : Compiled) : StoredFunction :=
  { index := compiled.index
    type
    code := compiled.program.code.toList
    refs := compiled.program.refs
    frameSlots := compiled.program.frameSlots
    traps := compiled.traps
    sources := compiled.sources.toList }

def toCompiled (stored : StoredFunction) : Compiled :=
  { index := stored.index
    program := ⟨stored.code.toArray, stored.refs, stored.frameSlots⟩
    signature := .ofType stored.type
    sources := .ofList stored.sources
    traps := stored.traps }

end StoredFunction

namespace Artifact

def ofCompiled (module : Module) (functions : List Compiled) : Except ModuleError Artifact := do
  let stored ← functions.mapM fun compiled => do
    return StoredFunction.ofCompiled (← module.functionType compiled.index) compiled
  return ⟨stored⟩

def toCompiled (artifact : Artifact) : List Compiled :=
  artifact.functions.map StoredFunction.toCompiled

def codeSize (artifact : Artifact) : Nat :=
  artifact.functions.foldl (fun total stored => total + stored.code.length) 0

end Artifact

/-!
## Writing artifacts

The bytes of an artifact: a header of eight bytes, and the function records.  Every
number is a little-endian 32-bit word, every list comes behind its length, and value
types are single bytes.
-/

/-- The first four bytes of an artifact, the letters `WJIT`. -/
def artifactMagic : List UInt8 := [0x57, 0x4a, 0x49, 0x54]

def artifactVersion : UInt32 := 1

def artifactHeader : List UInt8 := artifactMagic ++ bytes32 artifactVersion

namespace Artifact

def encodeLength {α : Type} (items : List α) : List UInt8 :=
  bytes32 (UInt32.ofNat items.length)

def encodeList {α : Type} (encode : α → List UInt8) (items : List α) : List UInt8 :=
  encodeLength items ++ items.flatMap encode

def encodeTypes (types : List ValueType) : List UInt8 :=
  encodeList (fun type => [type.code]) types

def encodeReference (ref : Reference) : List UInt8 :=
  bytes32 (wordOf ref.offset) ++ bytes32 ref.kind.code.toUInt32 ++ bytes32 ref.index

def encodeTrap (site : TrapSite) : List UInt8 :=
  bytes32 site.kind.code ++ bytes32 (wordOf site.instr) ++ bytes32 (wordOf site.offset)

def encodeSource (entry : SourceEntry) : List UInt8 :=
  bytes32 (wordOf entry.offset) ++ bytes32 (wordOf entry.instr) ++
    bytes32 entry.op.code.toUInt32

def encodeFunction (stored : StoredFunction) : List UInt8 :=
  bytes32 stored.index ++ encodeTypes stored.type.params ++ encodeTypes stored.type.results ++
    bytes32 (wordOf stored.frameSlots) ++ encodeList (fun byte => [byte]) stored.code ++
    encodeList encodeReference stored.refs ++ encodeList encodeTrap stored.traps ++
    encodeList encodeSource stored.sources

/-- The records of an artifact, which follow its header. -/
def encode (artifact : Artifact) : List UInt8 :=
  encodeList encodeFunction artifact.functions

end Artifact

end WasmX64
