import WasmX64.Wasm.ValueType

/-!
# Registers

The sixteen general-purpose registers in hardware order, followed by the sixteen
vector registers.  The number after them stands for an absent register; larger
numbers name nothing.  `RegSet` is a set of registers as a 32-bit mask.
-/

namespace WasmX64

structure Register where
  code : UInt8
deriving DecidableEq, Repr, Inhabited

namespace Register

/-- The general-purpose registers with a role of their own. -/
def rax : Register := ⟨0⟩
def rcx : Register := ⟨1⟩
def rdx : Register := ⟨2⟩
def rbx : Register := ⟨3⟩
def rsp : Register := ⟨4⟩
def rbp : Register := ⟨5⟩
def rsi : Register := ⟨6⟩
def rdi : Register := ⟨7⟩
def r8 : Register := ⟨8⟩
def r9 : Register := ⟨9⟩

/-- The general-purpose scratch registers. -/
def r10 : Register := ⟨10⟩
def r11 : Register := ⟨11⟩

def xmm (number : UInt8) : Register := ⟨16 + number⟩

/-- The vector scratch registers. -/
def xmm14 : Register := xmm 14
def xmm15 : Register := xmm 15

/-- No register, in operands and signatures. -/
def absent : Register := ⟨32⟩

def names : List String :=
  ["rax", "rcx", "rdx", "rbx", "rsp", "rbp", "rsi", "rdi",
    "r8", "r9", "r10", "r11", "r12", "r13", "r14", "r15",
    "xmm0", "xmm1", "xmm2", "xmm3", "xmm4", "xmm5", "xmm6", "xmm7",
    "xmm8", "xmm9", "xmm10", "xmm11", "xmm12", "xmm13", "xmm14", "xmm15"]

def name (reg : Register) : String :=
  match names[reg.code.toNat]? with
  | some name => name
  | none => if reg = absent then "unknown" else s!"Register({reg.code.toNat})"

def ofName? (name : String) : Option Register :=
  if name = "unknown" then some absent
  else (names.findIdx? (· = name)).map fun index => ⟨UInt8.ofNat index⟩

def isMachine (reg : Register) : Bool := reg.code < 32

def isGp (reg : Register) : Bool := reg.code < 16

def isFp (reg : Register) : Bool := 16 ≤ reg.code && reg.code < 32

def bits4 (reg : Register) : UInt8 := reg.code &&& 0x0f

/-- The three bits of a register inside ModRM and SIB. -/
def low (reg : Register) : UInt8 := reg.code &&& 0x07

/-- Whether a register needs an extension bit. -/
def high (reg : Register) : Bool := reg.code &&& 0x08 ≠ 0

def all : List Register :=
  (List.range 32).map fun index => ⟨UInt8.ofNat index⟩

end Register

inductive RegClass where
  | gp
  | fp
deriving DecidableEq, Repr, Inhabited

namespace RegClass

def name : RegClass → String
  | .gp => "gp"
  | .fp => "fp"

def ofCode (code : UInt8) : RegClass :=
  if code = 1 then .fp else .gp

end RegClass

def ValueType.regClass (type : ValueType) : RegClass :=
  if type.isFloat then .fp else .gp

def Register.regClass (reg : Register) : RegClass :=
  if reg.isFp then .fp else .gp

/-- A set of machine registers: bit `n` stands for register `n`. -/
structure RegSet where
  mask : BitVec 32
deriving DecidableEq, Repr, Inhabited

namespace RegSet

def empty : RegSet := ⟨0⟩

def has (set : RegSet) (reg : Register) : Bool :=
  reg.isMachine && set.mask.getLsbD reg.code.toNat

/-- The mask of one register; empty for a number outside the machine. -/
def single (reg : Register) : RegSet :=
  if reg.isMachine then ⟨1#32 <<< reg.code.toNat⟩ else empty

def insert (set : RegSet) (reg : Register) : RegSet :=
  ⟨set.mask ||| (single reg).mask⟩

def erase (set : RegSet) (reg : Register) : RegSet :=
  ⟨set.mask &&& ~~~(single reg).mask⟩

def union (left right : RegSet) : RegSet := ⟨left.mask ||| right.mask⟩

def inter (left right : RegSet) : RegSet := ⟨left.mask &&& right.mask⟩

def diff (left right : RegSet) : RegSet := ⟨left.mask &&& ~~~right.mask⟩

def subset (left right : RegSet) : Bool := left.mask &&& right.mask = left.mask

def ofList (regs : List Register) : RegSet :=
  regs.foldl insert empty

def toList (set : RegSet) : List Register :=
  Register.all.filter set.has

def isEmpty (set : RegSet) : Bool := set.mask = 0

def count (set : RegSet) : Nat := set.toList.length

/-- The member with the lowest number. -/
def first? (set : RegSet) : Option Register := set.toList.head?

/-- The member with the lowest number; the absent register of the empty set. -/
def first (set : RegSet) : Register := set.first?.getD Register.absent

def text (set : RegSet) : String :=
  "[" ++ " ".intercalate (set.toList.map Register.name) ++ "]"

def ofClass : RegClass → RegSet
  | .gp => ⟨0x0000ffff⟩
  | .fp => ⟨0xffff0000⟩

/-- The registers that never hold a value: the scratch registers, the stack and
frame pointers, and `rbx`. -/
def reserved : RegSet :=
  ofList [.r10, .r11, .xmm15, .xmm14, .rbx, .rbp, .rsp]

end RegSet

namespace Register

def gpArguments : List Register := [rdi, rsi, rdx, rcx, r8, r9]

def fpArguments : List Register :=
  [xmm 0, xmm 1, xmm 2, xmm 3, xmm 4, xmm 5, xmm 6, xmm 7]

def returned (type : ValueType) : Register :=
  if type.isFloat then xmm 0 else rax

end Register

end WasmX64
