/-!
# Code arenas

A region of whole pages that receives code and then becomes executable.  Places in
it are handed out one after the other, aligned to sixteen bytes, and never twice.
Sizes are signed machine words and wrap around.
-/

namespace WasmX64

inductive ArenaError where
  | badSize (size : Int64)
  /-- The whole pages for a size are no machine word. -/
  | unmappable
  | isSealed
  | exhausted (need start size : Int64)
  | emptyCode
  /-- The arena has been given back, so there is nothing to seal. -/
  | released
  /-- The bytes asked for lie outside every arena. -/
  | unmapped
deriving DecidableEq, Repr

def ArenaError.message : ArenaError → String
  | .badSize size => s!"code arena size {size.toInt} must be positive"
  | .unmappable => "mmap code arena: invalid argument"
  | .isSealed => "code arena is sealed"
  | .exhausted need start size =>
    s!"code arena exhausted: need {need.toInt} bytes at {start.toInt}, have {size.toInt}"
  | .emptyCode => "empty code"
  | .released => "mprotect code arena: invalid argument"
  | .unmapped => "code outside the arena"

/-- The bytes `start`, `start + 1`, … of an arena. -/
structure Region where
  start : Int64
  size : Int64
deriving DecidableEq, Repr, Inhabited

/-- An arena: its size, how much of it is taken, and what has been written, latest
first. -/
structure Arena where
  size : Int64
  used : Int64 := 0
  isSealed : Bool := false
  writes : List (Int64 × List UInt8) := []
deriving DecidableEq, Repr, Inhabited

/-- Actions on an arena; what was done before an error stays done. -/
abbrev ArenaM := EStateM ArenaError Arena

namespace Arena

def page : Int64 := 4096

def roundUp (size : Int64) : Int64 := (size + page - 1) / page * page

def create (size : Int64) : Except ArenaError Arena :=
  if size ≤ 0 then .error (.badSize size)
  else if roundUp size ≤ 0 then .error .unmappable
  else .ok { size := roundUp size }

/-- The first place that is free and aligned. -/
def next (arena : Arena) : Int64 := (arena.used + 15) &&& ~~~15

def reserve (count : Int64) : ArenaM Region := do
  let arena ← get
  if arena.isSealed then throw .isSealed
  let start := arena.next
  if count ≤ 0 ∨ arena.size < start + count then
    throw (.exhausted count start arena.size)
  set { arena with used := start + count }
  if start < 0 ∨ start + count < start then throw .unmapped
  return ⟨start, count⟩

def fill (region : Region) (code : List UInt8) : ArenaM Unit :=
  modify fun arena =>
    { arena with writes := (region.start, code.take region.size.toNatClampNeg) :: arena.writes }

def write (code : List UInt8) : ArenaM Region := do
  if code.isEmpty then throw .emptyCode
  let region ← reserve (Int64.ofNat code.length)
  fill region code
  return region

/-- Makes the arena executable; no more code can be added. -/
def freeze : ArenaM Unit := do
  let arena ← get
  if arena.isSealed then return
  if arena.size = 0 then throw .released
  set { arena with isSealed := true }

def close : ArenaM Unit := modify ({ · with size := 0 })

def ofCode (code : List UInt8) : Except ArenaError (Region × Arena) := do
  if code.isEmpty then throw .emptyCode
  let arena ← create (Int64.ofNat code.length)
  match (write code <* freeze) arena with
  | .ok region arena => return (region, arena)
  | .error error _ => throw error

/-- The byte at a place, as last written; fresh memory is zero. -/
def byteAt (arena : Arena) (place : Nat) : UInt8 :=
  (arena.writes.findSome? fun (start, code) =>
    let offset := (place : Int) - start.toInt
    if 0 ≤ offset then code[offset.toNat]? else none).getD 0

end Arena

end WasmX64
