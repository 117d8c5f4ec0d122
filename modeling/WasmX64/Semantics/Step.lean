import Std.Data.HashMap
import WasmX64.Compile.Host
import WasmX64.Semantics.Numeric

/-!
# Linear memory and single instructions

The meaning of every instruction that does not transfer control.  Operands are raw
64-bit words; the upper half of a 32-bit value is zero.  Memory is zero until written and
counted in pages.
-/

namespace WasmX64

/-- A linear memory: its size in pages and the bytes that have been written. -/
structure Memory where
  pages : Nat := 0
  bytes : Std.HashMap Nat UInt8 := {}
deriving Inhabited

namespace Memory

def size (memory : Memory) : Nat := memory.pages * pageSize

def byteAt (memory : Memory) (address : Nat) : UInt8 := memory.bytes.getD address 0

/-- The little-endian number in `count` bytes from an address. -/
def word (memory : Memory) (address : Nat) : Nat → Nat
  | 0 => 0
  | count + 1 => (memory.byteAt address).toNat + 256 * memory.word (address + 1) count

/-- Writes the low `count` bytes of a number from an address on. -/
def setWord (memory : Memory) (address value : Nat) : Nat → Memory
  | 0 => memory
  | count + 1 =>
    setWord { memory with bytes := memory.bytes.insert address (UInt8.ofNat value) }
      (address + 1) (value / 256) count

def load? (memory : Memory) (address count : Nat) : Option Nat :=
  if memory.size < address + count then none else some (memory.word address count)

def store? (memory : Memory) (address value count : Nat) : Option Memory :=
  if memory.size < address + count then none else some (memory.setWord address value count)

/-- Adds pages unless that passes the maximum of the host, which is never if it is
zero.  The number of pages before comes with the memory. -/
def grow? (memory : Memory) (host : Host) (delta : Nat) : Option (Nat × Memory) :=
  if host.maxPages = 0 ∨ host.maxPages.toNat < memory.pages + delta then none
  else some (memory.pages, { memory with pages := memory.pages + delta })

end Memory

/-- What running code can change.  The top of the stack comes first. -/
structure State where
  locals : Array UInt64 := #[]
  stack : List UInt64 := []
  globals : Array UInt64 := #[]
  memory : Memory := {}
deriving Inhabited

/-- What an instruction does: change the state, trap, or find operands that a typed
body never gives it. -/
inductive Effect where
  | done (state : State)
  | trap (kind : TrapKind)
  | stuck

def IntWidth.word (width : IntWidth) (value : UInt64) : BitVec width.bits :=
  BitVec.ofNat width.bits value.toNat

def operandOf {width : Nat} (word : BitVec width) : UInt64 := UInt64.ofNat word.toNat

def flagOf (holds : Bool) : UInt64 := if holds then 1 else 0

/-- A loaded number of `bytes` bytes, extended to the result of the load. -/
def LoadOp.extend (op : LoadOp) (value : Nat) : Nat :=
  if op.signed then
    let width := if op.result.is64 then IntWidth.w64 else .w32
    width.wrap (BitVec.ofNat (8 * op.bytes) value).toInt
  else value

namespace State

def withStack (state : State) (stack : List UInt64) : State := { state with stack }

def leaving (state : State) (stack : List UInt64) : Effect := .done (state.withStack stack)

def finishing (state : State) (rest : List UInt64) : Except TrapKind UInt64 → Effect
  | .ok value => state.leaving (value :: rest)
  | .error kind => .trap kind

def load (state : State) (op : LoadOp) (address : Nat) (rest : List UInt64) : Effect :=
  match state.memory.load? address op.bytes with
  | some value => state.leaving (UInt64.ofNat (op.extend value) :: rest)
  | none => .trap .outOfBounds

def store (state : State) (op : StoreOp) (address : Nat) (value : UInt64)
    (rest : List UInt64) : Effect :=
  match state.memory.store? address value.toNat op.bytes with
  | some memory => .done { state with memory, stack := rest }
  | none => .trap .outOfBounds

/-- The effect of growing memory: the old size, or -1, is pushed. -/
def grow (state : State) (host : Host) (delta : UInt64) (rest : List UInt64) : Effect :=
  match state.memory.grow? host delta.toNat with
  | some (old, memory) => .done { state with memory, stack := UInt64.ofNat old :: rest }
  | none => state.leaving (0xffffffff :: rest)

def access (state : State) (host : Host) (instr : Instr) : Effect :=
  let index := instr.index.toNat
  let address (base : UInt64) : Nat := base.toNat + instr.offset.toNat
  match instr.op, state.stack with
  | .localGet, stack =>
    match state.locals[index]? with
    | some value => state.leaving (value :: stack)
    | none => .stuck
  | .localSet, value :: rest =>
    .done { state with locals := state.locals.setIfInBounds index value, stack := rest }
  | .localTee, value :: rest =>
    .done { state with
      locals := state.locals.setIfInBounds index value, stack := value :: rest }
  | .globalGet, stack =>
    match state.globals[index]? with
    | some value => state.leaving (value :: stack)
    | none => .stuck
  | .globalSet, value :: rest =>
    .done { state with globals := state.globals.setIfInBounds index value, stack := rest }
  | .load op, base :: rest => state.load op (address base) rest
  | .store op, value :: base :: rest => state.store op (address base) value rest
  | .memorySize, stack => state.leaving (UInt64.ofNat state.memory.pages :: stack)
  | .memoryGrow, delta :: rest => state.grow host delta rest
  | _, _ => .stuck

def step (state : State) (host : Host) (instr : Instr) : Effect :=
  match instr.op, state.stack with
  | .nop, stack => state.leaving stack
  | .drop, _ :: rest => state.leaving rest
  | .select, condition :: second :: first :: rest =>
    state.leaving ((if condition ≠ 0 then first else second) :: rest)
  | .intConst width, stack => state.leaving (operandOf (width.word instr.value) :: stack)
  | .floatConst width, stack =>
    state.leaving (UInt64.ofNat (instr.value.toNat % Nat.pow 2 width.format.width) :: stack)
  | .eqz width, value :: rest => state.leaving (flagOf (width.word value = 0) :: rest)
  | .intCompare width relation, right :: left :: rest =>
    state.leaving (flagOf (relation.holds (width.word left) (width.word right)) :: rest)
  | .floatCompare width relation, right :: left :: rest =>
    state.leaving
      (flagOf (relation.holds width.format left.toNat right.toNat) :: rest)
  | .intUnary width op, value :: rest =>
    state.leaving (operandOf (op.eval (width.word value)) :: rest)
  | .intBinary width op, right :: left :: rest =>
    state.finishing rest ((op.eval (width.word left) (width.word right)).map operandOf)
  | .floatUnary width op, value :: rest =>
    state.leaving (UInt64.ofNat (op.eval width.format value.toNat) :: rest)
  | .floatBinary width op, right :: left :: rest =>
    state.leaving (UInt64.ofNat (op.eval width.format left.toNat right.toNat) :: rest)
  | .convert op, value :: rest =>
    state.finishing rest ((op.eval value.toNat).map UInt64.ofNat)
  | _, _ => state.access host instr

end State

end WasmX64
