import WasmX64.Compile.Function

/-!
# Logs of compilations

Structured log lines, and the lines that trace a compilation.
-/

namespace WasmX64

/-!
## Log lines

Structured log lines: a level, a message and attributes, each written
`key=value`.  Values are quoted when they are empty or hold a blank, a quote, an
equals sign or something unprintable.
-/

inductive LogLevel where
  | debug
  | info
  | error
deriving DecidableEq, Repr

def LogLevel.name : LogLevel → String
  | .debug => "DEBUG"
  | .info => "INFO"
  | .error => "ERROR"

/-- The number of a level; a line is shown when it reaches the configured one. -/
def LogLevel.number : LogLevel → Int
  | .debug => -4
  | .info => 0
  | .error => 8

structure LogLine where
  level : LogLevel
  message : String
  attributes : List (String × String)
deriving DecidableEq, Repr

namespace LogLine

def needsQuotes (char : Char) : Bool :=
  let code := char.toNat
  if code < 0x80 then code < 0x20 || char = ' ' || char = '"' || char = '='
  else code = 0xfffd || Text.isBlank char || !Text.isPrintable char

def valueText (value : String) : String :=
  if value.isEmpty || value.toList.any needsQuotes then Text.quote value else value

def text (line : LogLine) : String :=
  let fields := ("level", line.level.name) :: ("msg", line.message) :: line.attributes
  " ".intercalate (fields.map fun (key, value) => key ++ "=" ++ valueText value)

end LogLine

/-!
## Traces

The log of a compilation: one line for each event but the ends of instructions and
machine-level constructs, and one for each finished function.
-/

def Event.traceLine? (event : Event) : Option LogLine :=
  let line (message : String) (attributes : List (String × String)) : Option LogLine :=
    some ⟨.debug, message, ("func", toString event.func.toNat) :: attributes⟩
  let instr := ("instr", s!"{event.instr}")
  let offset := ("offset", s!"{event.offset}")
  match event.what with
  | .functionStart function =>
    line "function start" [("name", function.name), ("locals", s!"{function.locals.length}")]
  | .functionEnd _ => line "function end" [("size", s!"{event.offset}")]
  | .controlStart kind =>
    line "control start" [instr, ("kind", kind.name), ("depth", s!"{event.depth}")]
  | .controlEnd kind =>
    line "control end" [instr, ("kind", kind.name), ("depth", s!"{event.depth}")]
  | .instrStart _ => line "instr" [instr, ("op", event.op.name), offset]
  | .machineStart machine =>
    line "machine" [instr, ("kind", machine.kind.name), ("depth", s!"{machine.depth}"), offset]
  | .instrEnd _ _ | .machineEnd _ => none

def Compiled.logLine (compiled : Compiled) : LogLine :=
  ⟨.debug, "compiled function",
    [("func", s!"{compiled.index.toNat}"), ("size", s!"{compiled.program.code.size}"),
      ("slots", s!"{compiled.program.frameSlots}"),
      ("refs", s!"{compiled.program.refs.length}"), ("traps", s!"{compiled.traps.length}")]⟩

end WasmX64
