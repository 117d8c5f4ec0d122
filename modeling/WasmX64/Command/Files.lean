/-!
# Files

The files that a command sees: a working directory with what it holds.  Paths that
take the same route are the same, whichever way they are written.
-/

namespace WasmX64

inductive Entry where
  | file (bytes : List UInt8)
  | directory
deriving DecidableEq, Repr

/-- The names on the way from the working directory, or from the root if the first is
a slash. -/
abbrev Route := List String

/-- The names between slashes, read with `current` (in reverse) as the name under
way. -/
def splitSlashes (current : List Char) : List Char → List String
  | [] => [String.ofList current.reverse]
  | '/' :: rest => String.ofList current.reverse :: splitSlashes [] rest
  | char :: rest => splitSlashes (char :: current) rest

/-- The route that a path takes; empty names and single dots stay where they are. -/
def Route.ofPath (path : String) : Route :=
  let names := (splitSlashes [] path.toList).filter fun name => name ≠ "" ∧ name ≠ "."
  if path.toList.head? = some '/' then "/" :: names else names

inductive FileStep where
  | opening
  | reading
deriving DecidableEq, Repr

inductive FileFault where
  | missing
  | isDirectory
  | notDirectory
deriving DecidableEq, Repr

structure FileError where
  step : FileStep
  path : String
  fault : FileFault
deriving DecidableEq, Repr

def FileError.message (error : FileError) : String :=
  (match error.step with
    | .opening => "open "
    | .reading => "read ") ++ error.path ++ ": " ++
  match error.fault with
  | .missing => "no such file or directory"
  | .isDirectory => "is a directory"
  | .notDirectory => "not a directory"

/-- Routes and what is found at their ends. -/
structure Files where
  entries : List (Route × Entry) := []
deriving DecidableEq, Repr, Inhabited

namespace Files

def namesDirectory (path : String) : Bool := path.toList.getLast? = some '/'

/-- What is found at the end of a route.  The working directory and those above it always
exist. -/
def at? (files : Files) (route : Route) : Option Entry :=
  if route.all (· = "..") ∨ route = ["/"] then some .directory else files.entries.lookup route

def passesFile (files : Files) (route : Route) : Bool :=
  (List.range route.length).any fun count =>
    match files.at? (route.take count) with
    | some (.file _) => true
    | _ => false

def read (files : Files) (path : String) : Except FileError (List UInt8) :=
  let route := Route.ofPath path
  if path.isEmpty then .error ⟨.opening, path, .missing⟩
  else if files.passesFile route then .error ⟨.opening, path, .notDirectory⟩
  else
    match files.at? route with
    | none => .error ⟨.opening, path, .missing⟩
    | some .directory => .error ⟨.reading, path, .isDirectory⟩
    | some (.file bytes) =>
      if namesDirectory path then .error ⟨.opening, path, .notDirectory⟩ else .ok bytes

def exist (files : Files) (path : String) : Bool :=
  (files.at? (Route.ofPath path)).isSome

def put (files : Files) (route : Route) (entry : Entry) : Files :=
  ⟨(route, entry) :: files.entries.filter fun known => known.1 ≠ route⟩

def write (files : Files) (path : String) (bytes : List UInt8) : Except FileError Files :=
  let route := Route.ofPath path
  if path.isEmpty then .error ⟨.opening, path, .missing⟩
  else if files.passesFile route then .error ⟨.opening, path, .notDirectory⟩
  else if files.at? route = some .directory then .error ⟨.opening, path, .isDirectory⟩
  else if files.at? route.dropLast ≠ some .directory then .error ⟨.opening, path, .missing⟩
  else if namesDirectory path then .error ⟨.opening, path, .isDirectory⟩
  else .ok (files.put route (.file bytes))

end Files

end WasmX64
