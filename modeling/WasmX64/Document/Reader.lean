import WasmX64.Document.Tree
import WasmX64.Document.Flaw

/-!
# Reading documents

Two ways to write a document: flow style, with brackets and quotes, and block style,
where indentation nests mappings of one `key: value` a line.
-/

namespace WasmX64.Document

/-- A place in a document: the line it is on and what follows it. -/
structure Cursor where
  line : Nat
  rest : List Char

def isSpace (char : Char) : Bool := char = ' ' || char = '\t'

def isBreak (char : Char) : Bool :=
  char = '\n' || char = '\r' || char = '\u0085' || char = '\u2028' || char = '\u2029'

def skipBlanks (line : Nat) : List Char → Cursor
  | [] => ⟨line, []⟩
  | '\r' :: '\n' :: rest => skipBlanks (line + 1) rest
  | char :: rest =>
    if isBreak char then skipBlanks (line + 1) rest
    else if isSpace char then skipBlanks line rest
    else ⟨line, char :: rest⟩

/-- The number written with four hexadecimal digits and what follows. -/
def readHex4? : List Char → Option (Nat × List Char)
  | a :: b :: c :: d :: rest => do
    let a ← Text.hexValue? a
    let b ← Text.hexValue? b
    let c ← Text.hexValue? c
    let d ← Text.hexValue? d
    return (((a * 16 + b) * 16 + c) * 16 + d, rest)
  | _ => none

def readUnicode? (chars : List Char) : Option (Char × List Char) := do
  let (code, rest) ← readHex4? chars
  if code.isValidChar then return (Char.ofNat code, rest) else none

def readEscape? : List Char → Option (Char × List Char)
  | 'n' :: rest => some ('\n', rest)
  | 't' :: rest => some ('\t', rest)
  | 'r' :: rest => some ('\r', rest)
  | 'b' :: rest => some ('\x08', rest)
  | 'f' :: rest => some ('\x0c', rest)
  | 'u' :: rest => readUnicode? rest
  | char :: rest => some (char, rest)
  | [] => none

/-- What lies between two pieces of quoted text, latest first: spaces, or line ends
and the spaces around them. -/
inductive Gap where
  | spaces (chars : List Char)
  | breaks (first : Char) (more : List Char)

namespace Gap

/-- A gap with one more space, which counts only within a line. -/
def addSpace (gap : Gap) (char : Char) : Gap :=
  match gap with
  | .spaces chars => .spaces (char :: chars)
  | .breaks first more => .breaks first more

/-- A gap with one more line end, which swallows the spaces before it. -/
def addBreak (gap : Gap) (char : Char) : Gap :=
  match gap with
  | .spaces _ => .breaks char []
  | .breaks first more => .breaks first (char :: more)

/-- What a gap stands for, latest first: a single line end folds into a space, and of
several the first is dropped.  The separators of lines and paragraphs stay. -/
def folded : Gap → List Char
  | .spaces chars => chars
  | .breaks first more =>
    if first = '\n' then (if more.isEmpty then [' '] else more) else more ++ [first]

end Gap

def breakOf (char : Char) : Char :=
  if char = '\u2028' ∨ char = '\u2029' then char else '\n'

/-- Text up to a double quote, collected in reverse, and the place behind it. -/
def readQuoted? : Nat → Gap → List Char → Cursor → Option (String × Cursor)
  | 0, _, _, _ => none
  | _, _, _, ⟨_, []⟩ => none
  | fuel + 1, gap, seen, ⟨line, '\r' :: '\n' :: rest⟩ =>
    readQuoted? fuel (gap.addBreak '\n') seen ⟨line + 1, rest⟩
  | fuel + 1, gap, seen, ⟨line, char :: rest⟩ =>
    if isSpace char then readQuoted? fuel (gap.addSpace char) seen ⟨line, rest⟩
    else if isBreak char then
      readQuoted? fuel (gap.addBreak (breakOf char)) seen ⟨line + 1, rest⟩
    else
      let seen := gap.folded ++ seen
      if char = '"' then some (String.ofList seen.reverse, ⟨line, rest⟩)
      else if char = '\\' then
        match readEscape? rest with
        | some (char, after) => readQuoted? fuel (.spaces []) (char :: seen) ⟨line, after⟩
        | none => none
      else readQuoted? fuel (.spaces []) (char :: seen) ⟨line, rest⟩

def endsPlain (char : Char) : Bool :=
  isSpace char || isBreak char || char = ',' || char = ']' || char = '\x7d' || char = ':'

mutual

def readFlow : Nat → Cursor → Option (Tree × Cursor)
  | 0, _ => none
  | fuel + 1, cursor =>
    let ⟨line, chars⟩ := skipBlanks cursor.line cursor.rest
    match chars with
    | '\x7b' :: rest => readEntries fuel line [] ⟨line, rest⟩
    | '[' :: rest => readItems fuel line [] ⟨line, rest⟩
    | '"' :: rest =>
      (readQuoted? (fuel + 1) (.spaces []) [] ⟨line, rest⟩).map fun (text, after) =>
        (.scalar line (.text text), after)
    | chars =>
      let plain := chars.takeWhile fun char => !endsPlain char
      if plain.isEmpty then none
      else
        some (.scalar line (plainScalar (String.ofList plain)),
          ⟨line, chars.drop plain.length⟩)

/-- Reads the rest of a list that starts on a line, the items so far in reverse. -/
def readItems : Nat → Nat → List Tree → Cursor → Option (Tree × Cursor)
  | 0, _, _, _ => none
  | fuel + 1, start, seen, cursor =>
    let ⟨line, chars⟩ := skipBlanks cursor.line cursor.rest
    match chars with
    | ']' :: rest => some (.list start seen.reverse, ⟨line, rest⟩)
    | ',' :: rest => readItems fuel start seen ⟨line, rest⟩
    | chars =>
      match readFlow fuel ⟨line, chars⟩ with
      | some (item, after) => readItems fuel start (item :: seen) after
      | none => none

def readEntries : Nat → Nat → List (String × Tree) → Cursor → Option (Tree × Cursor)
  | 0, _, _, _ => none
  | fuel + 1, start, seen, cursor =>
    let ⟨line, chars⟩ := skipBlanks cursor.line cursor.rest
    match chars with
    | '\x7d' :: rest => some (.map start seen.reverse, ⟨line, rest⟩)
    | ',' :: rest => readEntries fuel start seen ⟨line, rest⟩
    | chars =>
      match readFlow fuel ⟨line, chars⟩ with
      | some (.scalar _ key, after) =>
        let ⟨line, chars⟩ := skipBlanks after.line after.rest
        match chars with
        | ':' :: rest =>
          match readFlow fuel ⟨line, rest⟩ with
          | some (value, after) =>
            readEntries fuel start ((key.written, value) :: seen) after
          | none => none
        | _ => none
      | _ => none

end

/-- Enough fuel for a text in flow style: no character needs more than two steps. -/
def flowFuel (chars : List Char) : Nat := 2 * chars.length + 2

def readWholeFlow? (line : Nat) (chars : List Char) : Option Tree := do
  let (tree, after) ← readFlow (flowFuel chars) ⟨line, chars⟩
  if (skipBlanks after.line after.rest).rest.isEmpty then return tree else none

structure BlockLine where
  line : Nat
  indent : Nat
  key : String
  value : List Char

/-- Takes a numbered line apart at its first colon; blank lines are none. -/
def blockLine? (chars : List Char) (line : Nat) : Option BlockLine :=
  let body := chars.dropWhile (· = ' ')
  if body.isEmpty then none
  else
    some {
      line
      indent := chars.length - body.length
      key := String.ofList (body.takeWhile (· ≠ ':'))
      value := Text.trim ((body.dropWhile (· ≠ ':')).drop 1) }

def singleQuoted? (chars : List Char) : Option String :=
  if chars.head? = some '\'' ∧ chars.getLast? = some '\'' ∧ 2 ≤ chars.length then
    some (String.ofList (chars.drop 1).dropLast)
  else none

def lineValue (line : Nat) (chars : List Char) : Tree :=
  match singleQuoted? chars with
  | some text => .scalar line (.text text)
  | none =>
    match chars with
    | '"' :: _ | '[' :: _ | '\x7b' :: _ =>
      (readWholeFlow? line chars).getD (.scalar line .null)
    | _ => .scalar line (plainScalar (String.ofList chars))

/-- Reads the entries of one indentation and returns the lines behind them.  An
entry without a value owns the deeper lines that follow. -/
def readBlock (indent : Nat) : Nat → List BlockLine → List (String × Tree) × List BlockLine
  | 0, lines => ([], lines)
  | _, [] => ([], [])
  | fuel + 1, line :: rest =>
    if line.indent ≠ indent then ([], line :: rest)
    else
      let (value, rest) : Tree × List BlockLine :=
        match line.value, rest with
        | [], next :: _ =>
          if indent < next.indent then
            let (entries, rest) := readBlock next.indent fuel rest
            (.map next.line entries, rest)
          else (.scalar line.line .null, rest)
        | chars, _ => (lineValue line.line chars, rest)
      let (entries, rest) := readBlock indent fuel rest
      ((line.key, value) :: entries, rest)

def cutLines (current : List Char) : List Char → List (List Char)
  | [] => [current.reverse]
  | '\n' :: rest => current.reverse :: cutLines [] rest
  | char :: rest => cutLines (char :: current) rest

def readWholeBlock? (chars : List Char) : Option Tree :=
  let lines := ((cutLines [] chars).zipIdx 1).filterMap fun (line, number) =>
    blockLine? line number
  let (entries, rest) := readBlock 0 (lines.length + 1) lines
  if rest.isEmpty then some (.map 1 entries) else none

def readTree? (chars : List Char) : Option Tree :=
  let ⟨line, body⟩ := skipBlanks 1 chars
  match body with
  | [] => some (.scalar line .null)
  | '\x7b' :: _ | '[' :: _ | '"' :: _ => readWholeFlow? line body
  | _ => if body.contains ':' then readWholeBlock? chars else readWholeFlow? line body

def read (bytes : List UInt8) : Except Flaw Tree := do
  match readTree? (← charsOf bytes) with
  | some tree => return tree
  | none => throw .structural

end WasmX64.Document
