import WasmX64.Text.Quoted

/-!
# Flags

The flags of the command and how a command line is taken apart.  Flags come first,
written with one dash or two; the first argument that is none ends them.
-/

namespace WasmX64

inductive Flag where
  | args
  | bounds
  | config
  | disasm
  | load
  | logLevel
  | output
  | run
  | stats
  | trace
  | writeConfig
deriving DecidableEq, Repr

namespace Flag

def list : List Flag :=
  [.args, .bounds, .config, .disasm, .load, .logLevel, .output, .run, .stats, .trace,
    .writeConfig]

def name : Flag → String
  | .args => "args"
  | .bounds => "bounds"
  | .config => "config"
  | .disasm => "disasm"
  | .load => "load"
  | .logLevel => "log-level"
  | .output => "o"
  | .run => "run"
  | .stats => "stats"
  | .trace => "trace"
  | .writeConfig => "write-config"

def ofName? (name : String) : Option Flag := list.find? fun flag => flag.name = name

def isSwitch : Flag → Bool
  | .disasm | .stats | .trace => true
  | _ => false

def description : Flag → String
  | .args => "Comma separated arguments for -run"
  | .bounds => "Bounds check mode (none, static, dynamic); overrides the config"
  | .config => "Configuration file (default: ./wasmjit.yaml if present)"
  | .disasm => "Print the disassembly of every function"
  | .load => "Load compiled code from an artifact instead of compiling"
  | .logLevel => "Log level (debug, info, warn, error); overrides the config"
  | .output => "Write the compiled module to this artifact file"
  | .run => "Call this exported function after loading"
  | .stats => "Print compilation statistics"
  | .trace => "Log every compiler event at debug level"
  | .writeConfig => "Write the effective configuration to this file and exit"

def usage (flag : Flag) : List String :=
  ["  -" ++ flag.name ++ (if flag.isSwitch then "" else " string"),
    "    \t" ++ flag.description]

end Flag

def usageLines : List String :=
  ["Usage: wasmjit [flags] <module.yaml>", "",
    "Compile a wasm module to x86-64 and optionally run one of its exports.", "",
    "Examples:",
    "  wasmjit -disasm add.yaml",
    "  wasmjit -run add -args 2,3 add.yaml",
    "  wasmjit -o add.wjit add.yaml && wasmjit -load add.wjit -run add -args 2,3 add.yaml", "",
    "Flags:"] ++ Flag.list.flatMap Flag.usage

inductive FlagError where
  | malformed (argument : String)
  | undefined (name : String)
  | badSwitch (value : String) (flag : Flag)
  | missingValue (flag : Flag)
  /-- The user asks for the usage text. -/
  | help
deriving DecidableEq, Repr

def FlagError.message : FlagError → String
  | .malformed argument => "bad flag syntax: " ++ argument
  | .undefined name => "flag provided but not defined: -" ++ name
  | .badSwitch value flag =>
    "invalid boolean value " ++ Text.quote value ++ " for -" ++ flag.name ++ ": parse error"
  | .missingValue flag => "flag needs an argument: -" ++ flag.name
  | .help => "flag: help requested"

/-- A command line: what was said about each flag, the last word first, and the
arguments behind the flags. -/
structure CommandLine where
  texts : List (Flag × String) := []
  switches : List (Flag × Bool) := []
  positional : List String := []
deriving DecidableEq, Repr, Inhabited

namespace CommandLine

def text (line : CommandLine) (flag : Flag) : String := (line.texts.lookup flag).getD ""

def isOn (line : CommandLine) (flag : Flag) : Bool := (line.switches.lookup flag).getD false

def put (line : CommandLine) (flag : Flag) (value : String) : CommandLine :=
  { line with texts := (flag, value) :: line.texts }

def turn (line : CommandLine) (flag : Flag) (value : Bool) : CommandLine :=
  { line with switches := (flag, value) :: line.switches }

inductive Piece where
  | positional
  /-- Two dashes alone: everything behind them is positional. -/
  | terminator
  | malformed
  | flag (name : String) (value? : Option String)
deriving DecidableEq, Repr

/-- Splits what follows the dashes at its first equals sign. -/
def pieceOfName (chars : List Char) : Piece :=
  match chars with
  | [] | '-' :: _ | '=' :: _ => .malformed
  | _ =>
    let name := String.ofList (chars.takeWhile (· ≠ '='))
    match chars.dropWhile (· ≠ '=') with
    | [] => .flag name none
    | _ :: value => .flag name (some (String.ofList value))

def piece (argument : String) : Piece :=
  match argument.toList with
  | ['-', '-'] => .terminator
  | '-' :: '-' :: chars => pieceOfName chars
  | ['-'] => .positional
  | '-' :: chars => pieceOfName chars
  | _ => .positional

def switch? (text : String) : Option Bool :=
  if text ∈ ["1", "t", "T", "TRUE", "true", "True"] then some true
  else if text ∈ ["0", "f", "F", "FALSE", "false", "False"] then some false
  else none

/-- The flag with a name; `h` and `help` ask for the usage text. -/
def findFlag (name : String) : Except FlagError Flag :=
  match Flag.ofName? name with
  | some flag => .ok flag
  | none => if name = "h" ∨ name = "help" then .error .help else .error (.undefined name)

/-- Reads arguments behind what is known already.  A switch takes a value only
behind an equals sign, any other flag takes the next argument otherwise. -/
def parseFrom (line : CommandLine) : List String → Except FlagError CommandLine
  | [] => .ok line
  | argument :: rest =>
    match piece argument with
    | .positional => .ok { line with positional := argument :: rest }
    | .terminator => .ok { line with positional := rest }
    | .malformed => .error (.malformed argument)
    | .flag name value? =>
      match findFlag name with
      | .error error => .error error
      | .ok flag =>
        if flag.isSwitch then
          match value? with
          | none => parseFrom (line.turn flag true) rest
          | some value =>
            match switch? value with
            | some isOn => parseFrom (line.turn flag isOn) rest
            | none => .error (.badSwitch value flag)
        else
          match value?, rest with
          | some value, rest => parseFrom (line.put flag value) rest
          | none, value :: rest => parseFrom (line.put flag value) rest
          | none, [] => .error (.missingValue flag)

def parse (arguments : List String) : Except FlagError CommandLine := parseFrom {} arguments

end CommandLine

end WasmX64
