import WasmX64.Wasm.Module

/-!
# The host

What the generated code may rely on: how memory accesses are guarded and how far
memory reaches.  Sizes are in pages.
-/

namespace WasmX64

inductive BoundsMode where
  /-- Not at all, unless there is no memory to access. -/
  | unchecked
  /-- Accesses that can never be in bounds are refused. -/
  | static
  /-- Every address is compared with the current size. -/
  | dynamic
  | unknown (code : UInt8)
deriving DecidableEq, Repr, Inhabited

namespace BoundsMode

def ofCode (code : UInt8) : BoundsMode :=
  if code = 0 then .unchecked
  else if code = 1 then .static
  else if code = 2 then .dynamic
  else .unknown code

def name : BoundsMode → String
  | .unchecked => "none"
  | .static => "static"
  | .dynamic => "dynamic"
  | .unknown code => s!"BoundsCheckMode({code.toNat})"

def ofName? (name : String) : Option BoundsMode :=
  if name = "none" then some .unchecked
  else if name = "static" then some .static
  else if name = "dynamic" ∨ name = "" then some .dynamic
  else none

def unknownMessage (name : String) : String :=
  "jit: unknown bounds check mode " ++ Text.quote name

end BoundsMode

/-- The environment of generated code.  With a maximum of zero pages memory never
grows. -/
structure Host where
  bounds : BoundsMode := .unchecked
  minPages : UInt32 := 0
  maxPages : UInt32 := 0
deriving DecidableEq, Repr, Inhabited

namespace Host

def memoryLimit (host : Host) : Nat :=
  max host.minPages.toNat host.maxPages.toNat * pageSize

/-- The host narrowed to the limits of a memory: its minimum is always available,
and it never grows past its maximum. -/
def narrow (host : Host) (memory : Option Limits) : Host :=
  match memory with
  | none => host
  | some limits =>
    { host with
      minPages := max host.minPages limits.min
      maxPages := limits.max.elim host.maxPages fun declared => min host.maxPages declared }

end Host

end WasmX64
