import WasmX64.Text.Lines
import WasmX64.Text.Quoted

/-!
# Bytes that are no document

What is wrong with a document, and how its bytes become characters.
-/

namespace WasmX64.Document

/-- A part of a document that does not fit the place it stands in. -/
structure Mismatch where
  line : Nat
  tag : String
  /-- The part as it is written, if it is a scalar. -/
  scalar : Option String
  wanted : String
deriving DecidableEq, Repr

namespace Mismatch

def shownBytes : Nat := 10

def cutBytes : Nat := 7

def shown (text : String) : String :=
  if Text.byteLength text.toList ≤ shownBytes then text
  else String.ofList (Text.cutText cutBytes text.toList) ++ "..."

def message (mismatch : Mismatch) : String :=
  s!"line {mismatch.line}: cannot unmarshal {mismatch.tag}" ++
    mismatch.scalar.elim "" (fun text => " `" ++ shown text ++ "`") ++
    " into " ++ mismatch.wanted

end Mismatch

inductive Flaw where
  /-- A byte that starts no character. -/
  | leadingOctet
  /-- A byte that continues no character where one should. -/
  | trailingOctet
  | incomplete
  /-- A character in more bytes than it needs. -/
  | overlong
  | noCharacter
  | control
  /-- Brackets, quotes or indentation that do not match. -/
  | structural
  | mismatches (list : List Mismatch)
deriving DecidableEq, Repr

def Flaw.message : Flaw → String
  | .leadingOctet => "yaml: invalid leading UTF-8 octet"
  | .trailingOctet => "yaml: invalid trailing UTF-8 octet"
  | .incomplete => "yaml: incomplete UTF-8 octet sequence"
  | .overlong => "yaml: invalid length of a UTF-8 sequence"
  | .noCharacter => "yaml: invalid Unicode character"
  | .control => "yaml: control characters are not allowed"
  | .structural => "yaml: not a document"
  | .mismatches list =>
    "yaml: unmarshal errors:\n  " ++ "\n  ".intercalate (list.map Mismatch.message)

end WasmX64.Document

/-!
## The characters of a document

Bytes become characters one after the other, up to the first that are none or that
stand for a character which documents may not contain.
-/

namespace WasmX64.Document

def isAllowed (char : Char) : Bool :=
  let code := char.toNat
  code = 0x9 || code = 0xa || code = 0xd || (0x20 ≤ code && code ≤ 0x7e) || code = 0x85 ||
    (0xa0 ≤ code && code ≤ 0xfffd) || 0x10000 ≤ code

/-- The number of bytes that continue a character and the bits in its first byte. -/
def leading? (byte : UInt8) : Option (Nat × Nat) :=
  let lead := byte.toNat
  if lead < 0x80 then some (0, lead)
  else if lead < 0xc0 then none
  else if lead < 0xe0 then some (1, lead - 0xc0)
  else if lead < 0xf0 then some (2, lead - 0xe0)
  else if lead < 0xf8 then some (3, lead - 0xf0)
  else none

/-- The least code point that needs a number of continuing bytes. -/
def leastCode : Nat → Nat
  | 0 => 0
  | 1 => 0x80
  | 2 => 0x800
  | _ => 0x10000

def assemble (lead : Nat) (tail : List UInt8) : Except Flaw Char :=
  match tail.mapM Text.continuation? with
  | none => .error .trailingOctet
  | some payloads =>
    let code := payloads.foldl (fun code payload => code * 64 + payload) lead
    if code < leastCode tail.length then .error .overlong
    else if !code.isValidChar then .error .noCharacter
    else if !isAllowed (Char.ofNat code) then .error .control
    else .ok (Char.ofNat code)

/-- The characters of bytes, given at least as much fuel as there are bytes. -/
def charsFrom : Nat → List UInt8 → Except Flaw (List Char)
  | 0, _ => .ok []
  | _, [] => .ok []
  | fuel + 1, byte :: rest => do
    match leading? byte with
    | none => throw .leadingOctet
    | some (width, lead) =>
      let tail := rest.take width
      if tail.length < width then throw .incomplete
      let char ← assemble lead tail
      return char :: (← charsFrom fuel (rest.drop width))

def charsOf (bytes : List UInt8) : Except Flaw (List Char) := charsFrom bytes.length bytes

end WasmX64.Document
