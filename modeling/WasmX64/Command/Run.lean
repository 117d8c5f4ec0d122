import WasmX64.Command.Error
import WasmX64.Report.Stats
import WasmX64.Report.Trace

/-!
# Running the command

The command from its arguments to its outcome: read the configuration and the
module, compile it or load its code from an artifact, and do with the code what the
flags ask for.  Everything before a failure stays done: what was printed and logged,
and the files that were written.
-/

namespace WasmX64

structure Session where
  files : Files
  /-- The least level that is logged. -/
  level : Int := 0
  output : Array String := #[]
  /-- The lines logged and the usage text. -/
  notes : Array String := #[]

abbrev CommandM := EStateM CommandError Session

namespace Command

def defaultConfig : String := "wasmjit.yaml"

def print (lines : List String) : CommandM Unit :=
  modify fun session => { session with output := session.output ++ lines }

def note (lines : List String) : CommandM Unit :=
  modify fun session => { session with notes := session.notes ++ lines }

def log (line : LogLine) : CommandM Unit := do
  if (← get).level ≤ line.level.number then note [line.text]

def inform (message : String) (attributes : List (String × String)) : CommandM Unit :=
  log ⟨.info, message, attributes⟩

def require {ε α : Type} (cause : ε → CommandError) : Except ε α → CommandM α
  | .ok result => return result
  | .error error => throw (cause error)

def readFile (cause : FileError → CommandError) (path : String) : CommandM (List UInt8) := do
  require cause ((← get).files.read path)

def writeFile (cause : FileError → CommandError) (path : String) (bytes : List UInt8) :
    CommandM Unit := do
  let files ← require cause ((← get).files.write path bytes)
  modify ({ · with files })

def readConfig (path : String) : CommandM Config := do
  let bytes ← readFile .readConfig path
  require (.parseConfig path) (Config.ofBytes bytes)

def findConfig (path : String) : CommandM Config := do
  if path ≠ "" then readConfig path
  else if (← get).files.exist defaultConfig then readConfig defaultConfig
  else return Config.normalize {}

def override (line : CommandLine) (config : Config) : Config :=
  { config with
    boundsChecks :=
      if line.text .bounds = "" then config.boundsChecks else line.text .bounds
    logLevel := if line.text .logLevel = "" then config.logLevel else line.text .logLevel }

def readModule (path : String) : CommandM Module := do
  let bytes ← readFile .readModule path
  require (.parseModule path) (Module.ofBytes bytes)

def logAttempt (isTraced : Bool) (attempt : Attempt) : CommandM Unit := do
  if isTraced then
    (attempt.events.toList.filterMap Event.traceLine?).forM log
  match attempt.outcome with
  | .ok compiled => log compiled.logLine
  | .error _ => pure ()

def codeSize (functions : List Compiled) : String :=
  humanSize (functions.foldl (fun total compiled => total + compiled.program.code.size) 0)

def compile (module : Module) (host : Host) (config : Config) (isTraced : Bool) :
    CommandM (List Compiled × List Event) := do
  let (outcome, attempts) := compileModule (some module) host
  attempts.forM (logAttempt isTraced)
  let functions ← require .compile outcome
  let parallel := if 0 < config.parallel then config.parallel else 1
  inform "compiled module"
    [("functions", s!"{functions.length}"), ("parallel", s!"{parallel}")]
  inform "Compiled module"
    [("functions", s!"{functions.length}"), ("code", codeSize functions)]
  return (functions, attempts.flatMap fun attempt => attempt.events.toList)

def checkStored (path : String) (module : Module) : List StoredFunction → CommandM Unit
  | [] => pure ()
  | stored :: rest => do
    let type ← require .module (module.functionType stored.index)
    if stored.type ≠ type then
      throw (.artifactType path stored.index stored.type type)
    checkStored path module rest

def loadArtifact (path : String) (module : Module) : CommandM (List Compiled) := do
  let bytes ← readFile (fun cause =>
    match cause.step with
    | .opening => .openArtifact cause
    | .reading => .readArtifact cause) path
  let size := artifactHeader.length
  let artifact ← require .parseArtifact (Artifact.read (bytes.take size) (bytes.drop size))
  if artifact.functions.length ≠ module.functions.size then
    throw (.artifactCount path artifact.functions.length module.functions.size)
  checkStored path module artifact.functions
  inform "Loaded artifact" [("path", path), ("code", humanSize artifact.codeSize)]
  return artifact.toCompiled

def writeArtifact (path : String) (module : Module) (functions : List Compiled) :
    CommandM Unit := do
  let artifact ← require .storeArtifact (Artifact.ofCompiled module functions)
  writeFile .createArtifact path (artifactHeader ++ artifact.encode)
  inform "Wrote artifact" [("path", path), ("code", humanSize artifact.codeSize)]

def callFunction (inst : Instance) (index : UInt32) (args : List Value) : CommandM Unit := do
  match inst.callIndex index args with
  | .ok results => print (results.map Value.text)
  | .error error =>
    match error with
    | .trap report =>
      log ⟨.error, "Trapped",
        [("kind", report.kind.message), ("func", s!"{report.func.toNat}"),
          ("instr", s!"{report.instr}"), ("op", report.op.name)]⟩
    | _ => pure ()
    throw (.call error)

def runExport (line : CommandLine) (module : Module) (functions : List Compiled)
    (host : Host) (arenaSize : Int) : CommandM Unit := do
  let inst ← require .load
    (Instance.load module functions host (Int64.ofInt arenaSize) {})
  log ⟨.debug, "instance ready",
    [("functions", s!"{functions.length}"),
      ("code", humanSize inst.arena.used.toNatClampNeg),
      ("memory", humanSize inst.memoryReserved)]⟩
  match module.exported? (line.text .run) with
  | none => throw (.noExport (line.text .run))
  | some index =>
    let type ← require .module (module.functionType index)
    callFunction inst index (← require .arguments (type.parseArgs (line.text .args)))

/-- Compiles or loads the module at a path and does what the flags ask for. -/
def processModule (line : CommandLine) (config : Config) (host : Host) (arenaSize : Int)
    (path : String) : CommandM Unit := do
  let module ← readModule path
  inform "Loaded module"
    [("path", path), ("functions", s!"{module.functions.size}"),
      ("types", s!"{module.types.size}")]
  let (functions, events) ←
    if line.text .load = "" then compile module host config (line.isOn .trace)
    else pure (← loadArtifact (line.text .load) module, [])
  if line.isOn .stats then print (Stats.ofEvents events).summary
  if line.text .output ≠ "" then writeArtifact (line.text .output) module functions
  if line.text .run ≠ "" then runExport line module functions host arenaSize

def execute (line : CommandLine) : CommandM Unit := do
  let config := override line (← findConfig (line.text .config))
  let level ← require .config config.level
  modify ({ · with level })
  let host ← require .config config.host
  let arenaSize ← require .config config.codeArenaSize
  if line.text .writeConfig ≠ "" then
    let path := line.text .writeConfig
    writeFile .createConfig path (Text.bytesOfText config.text)
    inform "Wrote configuration" [("path", path)]
  else
    match line.positional with
    | [path] => processModule line config host arenaSize path
    | _ =>
      note usageLines
      throw .noModuleFile

/-- The command with its arguments.  A refused command line is answered with the
usage text. -/
def start (arguments : List String) : CommandM Unit :=
  match CommandLine.parse arguments with
  | .ok line => execute line
  | .error .help => do
    note usageLines
    throw (.flags .help)
  | .error error => do
    note (error.message :: usageLines)
    throw (.flags error)

end Command

structure CommandOutcome where
  session : Session
  error : Option CommandError

def runCommand (arguments : List String) (files : Files) : CommandOutcome :=
  match Command.start arguments { files } with
  | .ok _ session => ⟨session, none⟩
  | .error error session => ⟨session, some error⟩

end WasmX64
