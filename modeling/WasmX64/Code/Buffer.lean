import WasmX64.Machine.Address

/-!
# The code buffer

Machine code under construction.  The buffer keeps the first error; from then on
nothing is appended, while patches of bytes already written still take effect.
Labels live in a table beside the code.
-/

namespace WasmX64

/-- The life of a label: not used yet, waiting with its latest four-byte use, or
at its final position. -/
inductive LabelState where
  | unused
  | linked (site : Nat)
  | bound (position : Nat)
deriving DecidableEq, Repr, Inhabited

def LabelState.name : LabelState → String
  | .unused => "unused"
  | .linked _ => "linked"
  | .bound _ => "bound"

def LabelState.nameOfCode (code : UInt8) : String :=
  ["unused", "linked", "bound"][code.toNat]?.getD "invalid"

def LabelState.position : LabelState → Nat
  | .unused => 0
  | .linked site => site
  | .bound position => position

/-- What is known of a label: its state and its latest one-byte use. -/
structure LabelInfo where
  state : LabelState := .unused
  near : Option Nat := none
deriving DecidableEq, Repr, Inhabited

def LabelInfo.isBound (info : LabelInfo) : Bool :=
  match info.state with
  | .bound _ => true
  | _ => false

structure Label where
  index : Nat
deriving DecidableEq, Repr, Inhabited

structure Code where
  bytes : Array UInt8 := #[]
  error : Option CodeError := none
  labels : Array LabelInfo := #[]
deriving Repr, Inhabited

namespace Code

def size (code : Code) : Nat := code.bytes.size

/-- Records an error unless an earlier one is there. -/
def fail (code : Code) (error : CodeError) : Code :=
  if code.error.isSome then code else { code with error := some error }

def append (code : Code) (bytes : List UInt8) : Code :=
  if code.error.isSome then code else { code with bytes := code.bytes ++ bytes }

/-- Discards the code and the error and keeps the labels. -/
def reset (code : Code) : Code :=
  { code with bytes := #[], error := none }

def covers (code : Code) (offset : Int) (count : Nat) : Bool :=
  0 ≤ offset && offset + count ≤ code.size

def byteAt (code : Code) (offset : Int) : UInt8 :=
  if 0 ≤ offset then code.bytes[offset.toNat]?.getD 0 else 0

def wordAt (code : Code) (offset : Int) : UInt32 :=
  let byte (index : Nat) : UInt32 := (code.byteAt (offset + index)).toUInt32
  byte 0 ||| byte 1 <<< 8 ||| byte 2 <<< 16 ||| byte 3 <<< 24

def readWord (code : Code) (offset : Int) : UInt32 × Code :=
  if code.covers offset 4 then (code.wordAt offset, code)
  else (0, code.fail (.readOutside offset code.size))

def overwrite (bytes : Array UInt8) (index : Nat) : List UInt8 → Array UInt8
  | [] => bytes
  | byte :: rest => overwrite (bytes.setIfInBounds index byte) (index + 1) rest

/-- Writes over bytes of the code; writing outside is an error. -/
def patch (code : Code) (offset : Int) (bytes : List UInt8) : Code :=
  if code.covers offset bytes.length then
    { code with bytes := overwrite code.bytes offset.toNat bytes }
  else code.fail (.patchOutside bytes.length offset code.size)

def newLabel (code : Code) : Label × Code :=
  (⟨code.labels.size⟩, { code with labels := code.labels.push {} })

def label (code : Code) (label : Label) : LabelInfo :=
  code.labels[label.index]?.getD {}

def setLabel (code : Code) (label : Label) (info : LabelInfo) : Code :=
  { code with labels := code.labels.setIfInBounds label.index info }

end Code

end WasmX64
