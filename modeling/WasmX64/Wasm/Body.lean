import WasmX64.Wasm.Instr
import WasmX64.Wasm.Value

/-!
# The text form of bodies

One instruction a line, `;;` starting a comment.  `block`, `loop` and `if` stay
open until their `end`; an `if` may have one `else`.  A body is read line by line
over a stack of open constructs.
-/

namespace WasmX64

inductive OperandError where
  | wrongCount (wanted found : Nat)
  | noDefaultTarget
  | memoryArgument (text : String)
  | unknownType (name : String)
  | manyResults (count : Nat)
  | number (cause : Number.LiteralError)
  | literal (cause : ValueError)
deriving DecidableEq, Repr

def OperandError.message : OperandError → String
  | .wrongCount wanted found => s!"want {wanted} operands, got {found}"
  | .noDefaultTarget => "br_table needs a default target"
  | .memoryArgument text => "bad memory argument " ++ Text.quote text
  | .unknownType name => "wasm: unknown value type " ++ Text.quote name
  | .manyResults count => s!"block has {count} results, at most one allowed"
  | .number cause => cause.message
  | .literal cause => cause.message

def OperandError.flaw? : OperandError → Option Number.Flaw
  | .number cause => some cause.flaw
  | .literal cause => cause.flaw?
  | _ => none

/-- Why a body is refused, with the line it was noticed on. -/
inductive BodyError where
  | endOutside (line : Nat)
  | elseOutside (line : Nat)
  | unknownInstruction (line : Nat) (name : String)
  | operands (line : Nat) (name : String) (cause : OperandError)
  | lineTooLong
  | unclosed (line : Nat) (op : Opcode)
deriving DecidableEq, Repr

def BodyError.message : BodyError → String
  | .endOutside line => s!"wasm: line {line}: end without open block"
  | .elseOutside line => s!"wasm: line {line}: else outside if"
  | .unknownInstruction line name =>
    s!"wasm: line {line}: unknown instruction " ++ Text.quote name
  | .operands line name cause => s!"wasm: line {line}: " ++ name ++ ": " ++ cause.message
  | .lineTooLong => "wasm: read body: bufio.Scanner: token too long"
  | .unclosed line op => s!"wasm: line {line}: " ++ op.name ++ " is never closed"

namespace Body

def readIndex (text : String) : Except OperandError UInt32 :=
  match Number.parseUnsigned 32 text with
  | .ok value => .ok (UInt32.ofNat value)
  | .error cause => .error (.number cause)

/-- Text without a leading mark, if it starts with one. -/
def dropLeading (mark chars : List Char) : List Char :=
  if mark.isPrefixOf chars then chars.drop mark.length else chars

/-- Text without one closing bracket at its end. -/
def dropClosing (chars : List Char) : List Char :=
  if chars.getLast? = some ')' then chars.dropLast else chars

def readTypes : List String → Except OperandError (List ValueType)
  | [] => .ok []
  | name :: rest =>
    match ValueType.ofName? name with
    | none => .error (.unknownType name)
    | some type => (readTypes rest).map (type :: ·)

def readBlockType (operands : List String) : Except OperandError (List ValueType) := do
  let joined := (" ".intercalate operands).toList
  let inner := dropClosing (dropLeading "(result".toList joined)
  let types ← readTypes ((Text.words inner).map String.ofList)
  if 1 < types.length then .error (.manyResults types.length) else .ok types

/-- Reads the targets of a `br_table`; the last one is the default. -/
def readTargets (instr : Instr) : List String → Except OperandError Instr
  | [] => .error .noDefaultTarget
  | [last] => (readIndex last).map fun target => { instr with default := target }
  | target :: rest => do
    let target ← readIndex target
    let instr ← readTargets instr rest
    return { instr with targets := target :: instr.targets }

/-- Reads the `offset=` and `align=` operands of a memory access; a repeated one
overrides. -/
def readMemoryArguments (instr : Instr) : List String → Except OperandError Instr
  | [] => .ok instr
  | argument :: rest => do
    let chars := argument.toList
    let key := chars.takeWhile (· ≠ '=')
    if key.length = chars.length then throw (.memoryArgument argument)
    let value ← readIndex (String.ofList (chars.drop (key.length + 1)))
    if key = "offset".toList then
      readMemoryArguments { instr with offset := value } rest
    else if key = "align".toList then
      readMemoryArguments { instr with align := value } rest
    else throw (.memoryArgument argument)

def demand (wanted : Nat) (operands : List String) : Except OperandError Unit :=
  if operands.length = wanted then .ok () else .error (.wrongCount wanted operands.length)

def readSingle (operands : List String) : Except OperandError String := do
  demand 1 operands
  return operands.headD ""

def readConst (op : Opcode) (type : ValueType) (operands : List String) :
    Except OperandError Instr := do
  match Value.parse type (← readSingle operands) with
  | .ok value => return { op, value := value.bits }
  | .error cause => throw (.literal cause)

def readInstr (op : Opcode) (operands : List String) : Except OperandError Instr :=
  match op with
  | .block | .loop | .branchIf =>
    (readBlockType operands).map fun results => { op, results }
  | .br | .brIf | .call | .callIndirect
  | .localGet | .localSet | .localTee | .globalGet | .globalSet => do
    return { op, index := ← readIndex (← readSingle operands) }
  | .brTable => readTargets { op } operands
  | .intConst width => readConst op width.type operands
  | .floatConst width => readConst op width.type operands
  | .load _ | .store _ => readMemoryArguments { op } operands
  | _ => (demand 0 operands).map fun _ => { op }

/-- An open construct: its instruction with the bodies in reverse, whether the
else arm has begun, and the line it was opened on. -/
structure Open where
  instr : Instr
  inElse : Bool
  line : Nat

/-- The reading of a body so far: finished instructions in reverse under the open
constructs, innermost first. -/
structure Reading where
  finished : List Instr := []
  opened : List Open := []

def Open.append (construct : Open) (instr : Instr) : Open :=
  if construct.inElse then
    { construct with
      instr := { construct.instr with elseBody := instr :: construct.instr.elseBody } }
  else
    { construct with instr := { construct.instr with body := instr :: construct.instr.body } }

def Reading.append (reading : Reading) (instr : Instr) : Reading :=
  match reading.opened with
  | [] => { reading with finished := instr :: reading.finished }
  | top :: rest => { reading with opened := top.append instr :: rest }

def Open.close (construct : Open) : Instr :=
  { construct.instr with
    body := construct.instr.body.reverse
    elseBody := construct.instr.elseBody.reverse }

def dropComment : List Char → List Char
  | ';' :: ';' :: _ => []
  | char :: rest => char :: dropComment rest
  | [] => []

def readLine (reading : Reading) (number : Nat) (line : List Char) :
    Except BodyError Reading :=
  match (Text.words (dropComment line)).map String.ofList with
  | [] => .ok reading
  | name :: operands =>
    if name = "end" then
      match reading.opened with
      | [] => .error (.endOutside number)
      | top :: rest => .ok ({ reading with opened := rest }.append top.close)
    else if name = "else" then
      match reading.opened with
      | [] => .error (.elseOutside number)
      | top :: rest =>
        if top.instr.op ≠ .branchIf ∨ top.inElse then .error (.elseOutside number)
        else
          let top := { top with inElse := true, instr := { top.instr with hasElse := true } }
          .ok { reading with opened := top :: rest }
    else
      match Opcode.ofName? name with
      | none => .error (.unknownInstruction number name)
      | some op =>
        match readInstr op operands with
        | .error cause => .error (.operands number name cause)
        | .ok instr =>
          if op.isStructured then
            .ok { reading with opened := ⟨instr, false, number⟩ :: reading.opened }
          else .ok (reading.append instr)

def readLines (reading : Reading) (number : Nat) : List (List Char) → Except BodyError Reading
  | [] => .ok reading
  | line :: rest =>
    match readLine reading number line with
    | .error error => .error error
    | .ok reading => readLines reading (number + 1) rest

/-- Reads the text of a body.  Lines before one that is too long are read first;
an unclosed construct is noticed last. -/
def parse (text : String) : Except BodyError (List Instr) :=
  let (lines, tooLong) := Text.splitLines text
  match readLines {} 1 lines with
  | .error error => .error error
  | .ok reading =>
    if tooLong then .error .lineTooLong
    else
      match reading.opened with
      | top :: _ => .error (.unclosed top.line top.instr.op)
      | [] => .ok reading.finished.reverse

end Body

end WasmX64
