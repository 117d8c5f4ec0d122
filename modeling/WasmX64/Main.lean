import WasmX64.Command.Run

/-!
# The program

Reads the files that the arguments name, runs the command on them, and carries out
what it did: prints its lines and writes the files that changed.
-/

namespace WasmX64

def lookUp (path : String) : IO (Option Entry) := do
  try
    return some (.file (← IO.FS.readBinFile path).toList)
  catch
    | .inappropriateType .. => return some .directory
    | _ => return none

/-- The files that a command may see: those that its arguments name, the directories
they lie in and the default configuration. -/
def lookUpAll (arguments : List String) : IO Files := do
  let values := arguments.map fun argument =>
    match CommandLine.piece argument with
    | .flag _ (some value) => value
    | _ => argument
  let mut files : Files := {}
  for path in Command.defaultConfig :: values do
    let route := Route.ofPath path
    for count in List.range route.length do
      let part := route.take (count + 1)
      if let some entry ← lookUp ("/".intercalate part) then
        files := files.put part entry
  return files

def writeChanges (before after : Files) : IO Unit := do
  for (route, entry) in after.entries do
    if before.at? route ≠ some entry then
      if let .file bytes := entry then
        IO.FS.writeBinFile ("/".intercalate route) (ByteArray.mk bytes.toArray)

end WasmX64

open WasmX64 in
/-- Runs the command; its exit code is 2 for a refused command line, 1 for any other
failure. -/
def main (arguments : List String) : IO UInt32 := do
  let files ← lookUpAll arguments
  let outcome := runCommand arguments files
  writeChanges files outcome.session.files
  outcome.session.output.forM fun line => IO.println line
  outcome.session.notes.forM fun line => IO.eprintln line
  match outcome.error with
  | none => return 0
  | some (.flags .help) => return 0
  | some (.flags _) => return 2
  | some error =>
    IO.eprintln ("wasmjit: " ++ error.message)
    return 1
