import WasmX64.Compile.Host
import WasmX64.Config.Size
import WasmX64.Document.Decode
import WasmX64.Document.Reader

/-!
# Configuration

What a user can set: how memory accesses are guarded, how far memory reaches, how
much room there is for code and what is logged.
-/

namespace WasmX64

/-- A configuration as it is written down.  Empty text and zero mean that nothing is
said. -/
structure Config where
  boundsChecks : String := ""
  /-- In pages. -/
  minPages : UInt32 := 0
  /-- In pages. -/
  maxPages : UInt32 := 0
  parallel : Int := 0
  codeArena : String := ""
  maxMemory : String := ""
  logLevel : String := ""
deriving DecidableEq, Repr, Inhabited

inductive ConfigError where
  /-- There is no document, or it describes no configuration. -/
  | unreadable (cause : Document.Flaw)
  | boundsMode (name : String)
  | memoryLimits (max min : UInt32)
  | maxMemory (cause : SizeError)
  | maxMemoryLow (text : String)
  | codeArena (cause : SizeError)
  | codeArenaEmpty (text : String)
  | logLevel (cause : LevelError)
deriving DecidableEq, Repr

def ConfigError.message : ConfigError → String
  | .unreadable cause => cause.message
  | .boundsMode name => BoundsMode.unknownMessage name
  | .memoryLimits max min => s!"compiler.memory.max {max.toNat} below min {min.toNat}"
  | .maxMemory cause => "runtime.max_memory: " ++ cause.message
  | .maxMemoryLow text => "runtime.max_memory " ++ text ++ " is below compiler.memory.min"
  | .codeArena cause => "runtime.code_arena: " ++ cause.message
  | .codeArenaEmpty text => "runtime.code_arena " ++ Text.quote text ++ " must be positive"
  | .logLevel cause => "log.level: " ++ cause.message

namespace Config

def normalize (config : Config) : Config :=
  { config with
    boundsChecks :=
      if config.boundsChecks.isEmpty then BoundsMode.dynamic.name else config.boundsChecks
    logLevel := if config.logLevel.isEmpty then "info" else config.logLevel }

/-- The number of whole pages in a number of bytes, as a 32-bit number. -/
def pagesOf (bytes : Int) : UInt32 :=
  UInt32.ofNat (bytes.tdiv pageSize % 4294967296).toNat

def capMemory (config : Config) (host : Host) : Except ConfigError Host :=
  if config.maxMemory.isEmpty then .ok host
  else do
    let bytes ← (Size.parse config.maxMemory).mapError .maxMemory
    let pages := pagesOf bytes
    let maxPages :=
      if host.maxPages = 0 ∨ pages < host.maxPages then pages else host.maxPages
    if maxPages < host.minPages then throw (.maxMemoryLow config.maxMemory)
    return { host with maxPages }

def host (config : Config) : Except ConfigError Host := do
  match BoundsMode.ofName? config.boundsChecks with
  | none => throw (.boundsMode config.boundsChecks)
  | some bounds =>
    if config.maxPages ≠ 0 ∧ config.maxPages < config.minPages then
      throw (.memoryLimits config.maxPages config.minPages)
    config.capMemory { bounds, minPages := config.minPages, maxPages := config.maxPages }

def codeArenaSize (config : Config) : Except ConfigError Int := do
  if config.codeArena.isEmpty then return 0
  let bytes ← (Size.parse config.codeArena).mapError .codeArena
  if bytes ≤ 0 then throw (.codeArenaEmpty config.codeArena)
  return bytes

def level (config : Config) : Except ConfigError Int :=
  (Level.parse config.logLevel).mapError .logLevel

def check (config : Config) : Except ConfigError Unit := do
  let _ ← config.host
  let _ ← config.codeArenaSize
  let _ ← config.level

def decodeMemory (config : Config) : Tree → Decode (Option Config) :=
  Decode.record "config.MemoryConfig" config fun config key tree => do
    match key with
    | "min" => return { config with minPages := ← Decode.orElse config.minPages Decode.word tree }
    | "max" => return { config with maxPages := ← Decode.orElse config.maxPages Decode.word tree }
    | _ => return config

def decodeCompiler (config : Config) : Tree → Decode (Option Config) :=
  Decode.record "config.CompilerConfig" config fun config key tree => do
    match key with
    | "bounds_checks" =>
      let boundsChecks ← Decode.orElse config.boundsChecks Decode.text tree
      return { config with boundsChecks }
    | "memory" => Decode.orElse config config.decodeMemory tree
    | "parallel" =>
      return { config with parallel := ← Decode.orElse config.parallel Decode.int tree }
    | _ => return config

def decodeRuntime (config : Config) : Tree → Decode (Option Config) :=
  Decode.record "config.RuntimeConfig" config fun config key tree => do
    match key with
    | "code_arena" =>
      return { config with codeArena := ← Decode.orElse config.codeArena Decode.text tree }
    | "max_memory" =>
      return { config with maxMemory := ← Decode.orElse config.maxMemory Decode.text tree }
    | _ => return config

def decodeLog (config : Config) : Tree → Decode (Option Config) :=
  Decode.record "config.LogConfig" config fun config key tree => do
    match key with
    | "level" => return { config with logLevel := ← Decode.orElse config.logLevel Decode.text tree }
    | _ => return config

def decode : Tree → Decode (Option Config) :=
  Decode.record "config.Config" {} fun config key tree => do
    match key with
    | "compiler" => Decode.orElse config config.decodeCompiler tree
    | "runtime" => Decode.orElse config config.decodeRuntime tree
    | "log" => Decode.orElse config config.decodeLog tree
    | _ => return config

def ofBytes (bytes : List UInt8) : Except ConfigError Config := do
  let config ← (Document.read bytes >>= Decode.whole {} decode).mapError .unreadable
  let config := config.normalize
  config.check
  return config

def parse (text : String) : Except ConfigError Config := ofBytes (Text.bytesOfText text)

def fieldLine (indent key value : String) (isSet : Bool) : String :=
  if isSet then indent ++ key ++ ": " ++ value ++ "\n" else ""

/-- The document of a configuration in block style; fields that say nothing are left
out. -/
def text (config : Config) : String :=
  let config := config.normalize
  let textLine (key value : String) : String :=
    fieldLine "  " key (Document.scalarText value) (!value.isEmpty)
  let numberLine (indent key : String) (value : Int) : String :=
    fieldLine indent key s!"{value}" (value ≠ 0)
  let memory :=
    if config.minPages = 0 ∧ config.maxPages = 0 then ""
    else
      "  memory:\n" ++ numberLine "    " "min" config.minPages.toNat ++
        numberLine "    " "max" config.maxPages.toNat
  let runtime := textLine "code_arena" config.codeArena ++ textLine "max_memory" config.maxMemory
  "compiler:\n" ++ textLine "bounds_checks" config.boundsChecks ++ memory ++
    numberLine "  " "parallel" config.parallel ++
    (if runtime.isEmpty then "runtime: \x7b\x7d\n" else "runtime:\n" ++ runtime) ++
    "log:\n" ++ textLine "level" config.logLevel

end Config

end WasmX64
