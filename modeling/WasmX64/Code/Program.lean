import WasmX64.Code.Buffer

/-!
# Finished programs

The code of one function with the places where addresses of run-time objects are
still missing.  Each reference marks eight bytes that hold the placeholder until
they are resolved.
-/

namespace WasmX64

/-- The 64-bit immediate that stands for an address not known yet. -/
def placeholder : UInt64 := 0xffffffffffffffff

inductive RefKind where
  | global
  | memory
  | memorySize
  | func
  | table
  | tableSize
  | tableSigs
  | trap
  | unknown (code : UInt8)
deriving DecidableEq, Repr, Inhabited

namespace RefKind

def list : List RefKind :=
  [.global, .memory, .memorySize, .func, .table, .tableSize, .tableSigs, .trap]

def ofCode (code : UInt8) : RefKind :=
  list[code.toNat]?.getD (.unknown code)

def code : RefKind → UInt8
  | .unknown code => code
  | kind => UInt8.ofNat (list.idxOf kind)

def name : RefKind → String
  | .global => "global"
  | .memory => "memory"
  | .memorySize => "memory_size"
  | .func => "func"
  | .table => "table"
  | .tableSize => "table_size"
  | .tableSigs => "table_sigs"
  | .trap => "trap"
  | .unknown code => s!"RefKind({code.toNat})"

def ofName? (name : String) : Option RefKind :=
  list.find? (·.name = name)

end RefKind

/-- A reference: the offset of a placeholder and the object it stands for. -/
structure Reference where
  offset : Int
  kind : RefKind
  index : UInt32
deriving DecidableEq, Repr, Inhabited

/-- The code of a function, its references and the number of its frame slots. -/
structure Program where
  code : Array UInt8
  refs : List Reference
  frameSlots : Int
deriving DecidableEq, Repr, Inhabited

/-- Why references cannot be resolved; `ε` is why an address is not known. -/
inductive ResolveError (ε : Type) where
  | outside (ref : Reference) (size : Nat)
  | occupied (ref : Reference) (found : UInt64)
  | lookup (ref : Reference) (cause : ε)

def ResolveError.message {ε : Type} (wording : ε → String) : ResolveError ε → String
  | .outside ref size =>
    s!"asm: {ref.kind.name} ref {ref.index.toNat} at offset {ref.offset}" ++
      s!" outside code of length {size}"
  | .occupied ref found =>
    s!"asm: {ref.kind.name} ref {ref.index.toNat} at offset {ref.offset} holds " ++
      Text.hexNumber found.toNat ++ ", not a placeholder"
  | .lookup ref cause =>
    s!"asm: resolve {ref.kind.name} ref {ref.index.toNat}: " ++ wording cause

namespace Program

/-- The stack space of a frame: one word more than its slots, rounded up to
sixteen bytes. -/
def frameSize (slots : Int) : UInt32 :=
  (wordOf ((slots + 1) * 8) + 15) &&& ~~~15

def wordAt (code : Array UInt8) (index : Nat) : UInt64 :=
  (List.range 8).foldr
    (fun place word => word <<< 8 ||| (code[index + place]?.getD 0).toUInt64) 0

def resolveOne {ε : Type} (lookup : Reference → Except ε UInt64) (code : Array UInt8)
    (ref : Reference) : Except (ResolveError ε) (Array UInt8) :=
  if ref.offset < 0 ∨ (code.size : Int) < ref.offset + 8 then
    .error (.outside ref code.size)
  else
    let found := wordAt code ref.offset.toNat
    if found ≠ placeholder then .error (.occupied ref found)
    else
      match lookup ref with
      | .error cause => .error (.lookup ref cause)
      | .ok address => .ok (Code.overwrite code ref.offset.toNat (bytes64 address))

/-- The code with every reference replaced by the address of its object. -/
def resolve {ε : Type} (program : Program) (lookup : Reference → Except ε UInt64) :
    Except (ResolveError ε) (Array UInt8) :=
  program.refs.foldlM (resolveOne lookup) program.code

end Program

end WasmX64
