import WasmX64.Artifact.Decode
import WasmX64.Command.Files
import WasmX64.Command.Flag
import WasmX64.Config.Basic
import WasmX64.Instance.Call
import WasmX64.Wasm.Document

/-!
# Failed commands

Why a command ends before its work is done.
-/

namespace WasmX64

inductive CommandError where
  | flags (cause : FlagError)
  | readConfig (cause : FileError)
  | parseConfig (path : String) (cause : ConfigError)
  | config (cause : ConfigError)
  | createConfig (cause : FileError)
  | noModuleFile
  | readModule (cause : FileError)
  | parseModule (path : String) (cause : DocumentError)
  | compile (cause : ModuleCompileError)
  | openArtifact (cause : FileError)
  | readArtifact (cause : FileError)
  | parseArtifact (cause : ArtifactError)
  | artifactCount (path : String) (found wanted : Nat)
  | artifactType (path : String) (index : UInt32) (found wanted : FuncType)
  | module (cause : ModuleError)
  | storeArtifact (cause : ModuleError)
  | createArtifact (cause : FileError)
  | load (cause : LoadError)
  | noExport (name : String)
  | arguments (cause : ArgumentTextError)
  | call (cause : CallError)

def CommandError.message : CommandError → String
  | .flags cause => cause.message
  | .readConfig cause => "read config: " ++ cause.message
  | .parseConfig path cause => "parse " ++ path ++ ": " ++ cause.message
  | .config cause => cause.message
  | .createConfig cause => "create config: " ++ cause.message
  | .noModuleFile => "module file required"
  | .readModule cause => "wasm: read module: " ++ cause.message
  | .parseModule path cause => "wasm: " ++ path ++ ": " ++ cause.message
  | .compile cause => "compile: " ++ cause.message
  | .openArtifact cause => "open artifact: " ++ cause.message
  | .readArtifact cause => "artifact: read header: " ++ cause.message
  | .parseArtifact cause => cause.message
  | .artifactCount path found wanted =>
    "artifact " ++ path ++ s!" holds {found} functions, module has {wanted}"
  | .artifactType path index found wanted =>
    "artifact " ++ path ++ s!": func[{index.toNat}] has type {found.text}, " ++
      s!"module says {wanted.text}"
  | .module cause => cause.message
  | .storeArtifact cause => "artifact: " ++ cause.message
  | .createArtifact cause => "create artifact: " ++ cause.message
  | .load cause => cause.message
  | .noExport name => "no export named " ++ Text.quote name
  | .arguments cause => cause.message
  | .call cause => cause.message

end WasmX64
