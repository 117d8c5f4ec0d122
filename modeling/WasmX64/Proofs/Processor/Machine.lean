import Mathlib.Algebra.Ring.Nat
import WasmX64.Machine.Instruction

/-!
# Byte memory

The memory of the processor, one byte at every 64-bit address, addresses wrapping
around.  Words are little-endian.  The laws say what a word reads as after a word
has been written to the same place or to one apart from it.
-/

namespace WasmX64

/-- The contents of memory. -/
def ByteMemory : Type := BitVec 64 → BitVec 8

/-- The low bytes of a word. -/
def narrow (bytes : Nat) (value : BitVec 64) : BitVec 64 :=
  (value.setWidth (8 * bytes)).setWidth 64

/-- A word cut to the width of a type. -/
def ValueType.clip (type : ValueType) (value : BitVec 64) : BitVec 64 :=
  narrow type.size value

theorem getLsbD_narrow (bytes : Nat) (value : BitVec 64) (index : Nat) :
    (narrow bytes value).getLsbD index =
      (decide (index < 64) && (decide (index < 8 * bytes) && value.getLsbD index)) := by
  simp [narrow]

theorem narrow_eq_self (value : BitVec 64) : narrow 8 value = value := by
  simp [narrow]

theorem narrow_narrow {few many : Nat} (fewer : few ≤ many) (value : BitVec 64) :
    narrow few (narrow many value) = narrow few value := by
  apply BitVec.eq_of_getLsbD_eq
  intro index small
  simp only [getLsbD_narrow, small]
  by_cases inside : index < 8 * few
  · have alsoInside : index < 8 * many := by omega
    simp [inside, alsoInside]
  · simp [inside]

namespace ByteMemory

/-- The little-endian word in `count` bytes from an address. -/
def read (memory : ByteMemory) (address : BitVec 64) : Nat → BitVec 64
  | 0 => 0
  | count + 1 =>
    memory.read (address + 1) count <<< 8 ||| (memory address).setWidth 64

/-- Writes the low `count` bytes of a word from an address on. -/
def write (memory : ByteMemory) (address : BitVec 64) (count : Nat) (value : BitVec 64) :
    ByteMemory := fun place =>
  let offset := (place - address).toNat
  if offset < count then (value >>> (8 * offset)).setWidth 8 else memory place

theorem getLsbD_read (memory : ByteMemory) (address : BitVec 64) (count index : Nat)
    (small : index < 64) :
    (memory.read address count).getLsbD index =
      (decide (index < 8 * count) &&
        (memory (address + BitVec.ofNat 64 (index / 8))).getLsbD (index % 8)) := by
  induction count generalizing address index with
  | zero => simp [read]
  | succ count ih =>
    rw [read, BitVec.getLsbD_or, BitVec.getLsbD_shiftLeft, BitVec.getLsbD_setWidth]
    by_cases low : index < 8
    · have zero : index / 8 = 0 := by omega
      have same : index % 8 = index := by omega
      have inside : index < 8 * (count + 1) := by omega
      simp [low, zero, same, small, inside]
    · have next : index / 8 = (index - 8) / 8 + 1 := by omega
      have same : index % 8 = (index - 8) % 8 := by omega
      have beyond : (memory address).getLsbD index = false :=
        BitVec.getLsbD_of_ge _ _ (by omega)
      have place : address + 1 + BitVec.ofNat 64 ((index - 8) / 8) =
          address + BitVec.ofNat 64 (index / 8) := by
        rw [next, BitVec.ofNat_add, BitVec.add_assoc, BitVec.add_comm 1]
        rfl
      rw [ih (address + 1) (index - 8) (by omega), place, ← same, beyond]
      have bound : (index - 8 < 8 * count) = (index < 8 * (count + 1)) := by
        simp only [eq_iff_iff]
        omega
      simp [low, small, bound]

theorem read_congr {left right : ByteMemory} {address : BitVec 64} {count : Nat}
    (same : ∀ offset < count, left (address + BitVec.ofNat 64 offset) =
      right (address + BitVec.ofNat 64 offset)) :
    left.read address count = right.read address count := by
  apply BitVec.eq_of_getLsbD_eq
  intro index small
  rw [getLsbD_read _ _ _ _ small, getLsbD_read _ _ _ _ small]
  by_cases inside : index < 8 * count
  · rw [same (index / 8) (by omega)]
  · simp [inside]

theorem read_narrow (memory : ByteMemory) (address : BitVec 64) {few many : Nat}
    (fewer : few ≤ many) :
    narrow few (memory.read address many) = memory.read address few := by
  apply BitVec.eq_of_getLsbD_eq
  intro index small
  rw [getLsbD_narrow, getLsbD_read _ _ _ _ small, getLsbD_read _ _ _ _ small]
  by_cases inside : index < 8 * few
  · have alsoInside : index < 8 * many := by omega
    simp [small, inside, alsoInside]
  · simp [inside]

theorem offset_toNat (address : BitVec 64) {offset : Nat} (small : offset < 2 ^ 64) :
    (address + BitVec.ofNat 64 offset - address).toNat = offset := by
  rw [BitVec.add_comm, BitVec.add_sub_cancel, BitVec.toNat_ofNat, Nat.mod_eq_of_lt small]

/-- A word reads back as it was written. -/
theorem read_write (memory : ByteMemory) (address value : BitVec 64) {count : Nat}
    (few : count ≤ 8) :
    (memory.write address count value).read address count = narrow count value := by
  apply BitVec.eq_of_getLsbD_eq
  intro index small
  rw [getLsbD_narrow, getLsbD_read _ _ _ _ small]
  by_cases inside : index < 8 * count
  · have place : index / 8 < count := by omega
    have whole : 8 * (index / 8) + index % 8 = index := Nat.div_add_mod index 8
    have low : index % 8 < 8 := Nat.mod_lt _ (by omega)
    simp only [write, offset_toNat address (show index / 8 < 2 ^ 64 by omega), place,
      if_true, BitVec.getLsbD_setWidth, BitVec.getLsbD_ushiftRight, whole]
    simp [small, inside, low]
  · simp [inside]

/-- What is written depends on the low bytes of a word only. -/
theorem write_congr (memory : ByteMemory) (address : BitVec 64) {count : Nat}
    {left right : BitVec 64} (same : narrow count left = narrow count right) :
    memory.write address count left = memory.write address count right := by
  funext place
  unfold write
  dsimp only
  split
  · rename_i inside
    apply BitVec.eq_of_getLsbD_eq
    intro index small
    have bits := congrArg (BitVec.getLsbD · (8 * (place - address).toNat + index)) same
    simp only [getLsbD_narrow] at bits
    simp only [BitVec.getLsbD_setWidth, BitVec.getLsbD_ushiftRight, small, decide_true,
      Bool.true_and]
    by_cases wide : 8 * (place - address).toNat + index < 64
    · have low : 8 * (place - address).toNat + index < 8 * count := by omega
      simpa only [wide, low, decide_true, Bool.true_and] using bits
    · rw [BitVec.getLsbD_of_ge _ _ (by omega), BitVec.getLsbD_of_ge _ _ (by omega)]
  · rfl

/-- A word apart from the one written is unchanged. -/
theorem read_write_of_apart (memory : ByteMemory) (value : BitVec 64)
    {readAt writeAt : BitVec 64} {readCount writeCount : Nat}
    (apart : ∀ offset < readCount,
      writeCount ≤ (readAt + BitVec.ofNat 64 offset - writeAt).toNat) :
    (memory.write writeAt writeCount value).read readAt readCount =
      memory.read readAt readCount := by
  apply read_congr
  intro offset inside
  have out := apart offset inside
  simp only [write]
  rw [if_neg (by omega)]

end ByteMemory

/-! ## The processor

What the instructions that copy values do to registers and memory.  Of a vector
register only the low quadword is modelled, which is all a value of the program
ever occupies.  An instruction outside the model has no outcome.
-/

/-- The flags that conditions read. -/
structure Flags where
  carry : Bool := false
  zero : Bool := false
  sign : Bool := false
  overflow : Bool := false
  parity : Bool := false
deriving DecidableEq, Repr

/-- Registers, memory and flags. -/
structure Processor where
  regs : Register → BitVec 64
  memory : ByteMemory
  flags : Flags := {}

namespace Processor

/-- The processor with a register replaced. -/
def setReg (machine : Processor) (reg : Register) (value : BitVec 64) : Processor :=
  { machine with regs := fun other => if other = reg then value else machine.regs other }

/-- The processor with a value of a type written to memory. -/
def store (machine : Processor) (type : ValueType) (address value : BitVec 64) :
    Processor :=
  { machine with memory := machine.memory.write address type.size value }

def load (machine : Processor) (type : ValueType) (address : BitVec 64) : BitVec 64 :=
  machine.memory.read address type.size

/-- What a register adds to an address; nothing if it is absent. -/
def addend (machine : Processor) (reg : Register) : BitVec 64 :=
  if reg = .absent then 0 else machine.regs reg

/-- The address an operand denotes.  A scale of zero counts as one. -/
def effective (machine : Processor) (address : Address) : BitVec 64 :=
  let scale := if address.scale = 0 then 1 else address.scale.toNat
  machine.addend address.base +
    machine.addend address.index * BitVec.ofNat 64 scale +
    BitVec.ofInt 64 address.disp.toInt

/-- The flags after a logical operation with a result of a type. -/
def logicFlags (type : ValueType) (result : BitVec 64) : Flags :=
  { zero := result = 0
    sign := result.getLsbD (type.bits - 1)
    parity := ((List.range 8).countP fun index => result.getLsbD index) % 2 = 0 }

/-- Runs one instruction. -/
def step (machine : Processor) : Instruction → Option Processor
  | .mov type dst src =>
    if type.isFloat then some (machine.setReg dst (machine.regs src))
    else some (machine.setReg dst (type.clip (machine.regs src)))
  | .movImm type dst imm => some (machine.setReg dst (type.clip imm.toBitVec))
  | .load type dst src => some (machine.setReg dst (machine.load type (machine.effective src)))
  | .floatLoad type dst src =>
    some (machine.setReg dst (machine.load type (machine.effective src)))
  | .store type dst src => some (machine.store type (machine.effective dst) (machine.regs src))
  | .floatStore type dst src =>
    some (machine.store type (machine.effective dst) (machine.regs src))
  | .storeImm type dst imm =>
    some (machine.store type (machine.effective dst) (BitVec.ofInt 64 imm.toInt))
  | .alu op type dst src =>
    if op = .xor then
      let result := type.clip (machine.regs dst ^^^ machine.regs src)
      some { machine.setReg dst result with flags := logicFlags type result }
    else none
  | _ => none

/-- Runs instructions one after the other. -/
def run (machine : Processor) : List Instruction → Option Processor
  | [] => some machine
  | instruction :: rest => (machine.step instruction).bind fun next => next.run rest

theorem run_append (machine : Processor) (first second : List Instruction) :
    machine.run (first ++ second) =
      (machine.run first).bind fun next => next.run second := by
  induction first generalizing machine with
  | nil => rfl
  | cons instruction rest ih =>
    rw [List.cons_append, run, run]
    cases machine.step instruction with
    | none => rfl
    | some next => exact ih next

@[simp] theorem regs_setReg (machine : Processor) (reg other : Register)
    (value : BitVec 64) :
    (machine.setReg reg value).regs other =
      if other = reg then value else machine.regs other := rfl

@[simp] theorem memory_setReg (machine : Processor) (reg : Register) (value : BitVec 64) :
    (machine.setReg reg value).memory = machine.memory := rfl

@[simp] theorem regs_store (machine : Processor) (type : ValueType)
    (address value : BitVec 64) :
    (machine.store type address value).regs = machine.regs := rfl

end Processor

/-! ## Frame slots

Slot `index` of a frame is the quadword at `rbp - 8 * index - 8`.  Below the bound
on slots the displacement is representable and different slots do not overlap.
-/

theorem ValueType.size_le (type : ValueType) : type.size ≤ 8 := by
  unfold size
  split <;> omega

theorem ValueType.clip_clip (type : ValueType) (value : BitVec 64) :
    type.clip (type.clip value) = type.clip value :=
  narrow_narrow (Nat.le_refl _) value

/-- Slots below this index have a displacement of 32 bits. -/
def frameLimit : Nat := 2 ^ 28

namespace Processor

/-- The address of a frame slot. -/
def slotAt (machine : Processor) (index : Nat) : BitVec 64 :=
  machine.regs .rbp - BitVec.ofNat 64 (8 * index + 8)

/-- The quadword in a frame slot. -/
def slotWord (machine : Processor) (index : Nat) : BitVec 64 :=
  machine.memory.read (machine.slotAt index) 8

theorem effective_based (machine : Processor) {base : Register} (disp : Int32)
    (present : base ≠ .absent) :
    machine.effective (.based base disp) =
      machine.regs base + BitVec.ofInt 64 disp.toInt := by
  have unindexed : machine.addend .absent = 0#64 := if_pos rfl
  have based : machine.addend base = machine.regs base := if_neg present
  simp only [effective, Address.based, unindexed, based, BitVec.zero_mul, BitVec.add_zero]

theorem effective_slot (machine : Processor) {index : Nat} (small : index < frameLimit) :
    machine.effective (.slot index) = machine.slotAt index := by
  unfold frameLimit at small
  have disp : (Int32.ofInt (-8 * index - 8)).toInt = -8 * index - 8 :=
    Int32.toInt_ofInt_of_le (by omega) (by omega)
  have negated : (-8 * (index : Int) - 8) = -((8 * index + 8 : Nat) : Int) := by omega
  rw [Address.slot, effective_based machine _ (by decide), disp, negated, BitVec.ofInt_neg,
    BitVec.ofInt_natCast, slotAt, BitVec.sub_eq_add_neg]

theorem load_slot (machine : Processor) (type : ValueType) (index : Nat) :
    machine.load type (machine.slotAt index) = type.clip (machine.slotWord index) :=
  (machine.memory.read_narrow _ type.size_le).symm

theorem clip_slotWord_store (machine : Processor) (type : ValueType) (index : Nat)
    (value : BitVec 64) :
    type.clip ((machine.store type (machine.slotAt index) value).slotWord index) =
      type.clip value := by
  have here : (machine.store type (machine.slotAt index) value).slotAt index =
      machine.slotAt index := rfl
  rw [ValueType.clip, slotWord, here, ByteMemory.read_narrow _ _ type.size_le]
  exact ByteMemory.read_write _ _ _ type.size_le

/-- Every byte of a slot is at least eight bytes past the start of another one. -/
theorem slotAt_apart (machine : Processor) {index other offset : Nat}
    (small : index < frameLimit) (otherSmall : other < frameLimit)
    (different : other ≠ index) (inside : offset < 8) :
    8 ≤ (machine.slotAt other + BitVec.ofNat 64 offset - machine.slotAt index).toNat := by
  unfold frameLimit at small otherSmall
  unfold slotAt
  bv_omega

theorem slotWord_store_of_ne (machine : Processor) (type : ValueType) {index other : Nat}
    (value : BitVec 64) (small : index < frameLimit) (otherSmall : other < frameLimit)
    (different : other ≠ index) :
    (machine.store type (machine.slotAt index) value).slotWord other =
      machine.slotWord other := by
  refine ByteMemory.read_write_of_apart _ _ fun offset inside => ?_
  exact Nat.le_trans type.size_le (machine.slotAt_apart small otherSmall different inside)

theorem slotWord_setReg {reg : Register} (notFrame : reg ≠ .rbp) (machine : Processor)
    (value : BitVec 64) (index : Nat) :
    (machine.setReg reg value).slotWord index = machine.slotWord index := by
  have pointer : (machine.setReg reg value).slotAt index = machine.slotAt index := by
    have different : ¬ (Register.rbp = reg) := fun equality => notFrame equality.symm
    simp [slotAt, different]
  unfold slotWord
  rw [pointer]
  rfl

theorem store_memory_of_apart (machine : Processor) (type : ValueType) {index : Nat}
    {address : BitVec 64} (value : BitVec 64)
    (apart : 8 ≤ (address - machine.slotAt index).toNat) :
    (machine.store type (machine.slotAt index) value).memory address =
      machine.memory address := by
  have bound := type.size_le
  simp only [store, ByteMemory.write]
  rw [if_neg (by omega)]

theorem slotWord_of_untouched {before after : Processor} {base top index : Nat}
    (pointer : after.regs .rbp = before.regs .rbp) (below : index < base)
    (room : top ≤ frameLimit) (small : index < frameLimit)
    (untouched : ∀ address, (∀ other, base ≤ other → other < top →
        8 ≤ (address - before.slotAt other).toNat) →
      after.memory address = before.memory address) :
    after.slotWord index = before.slotWord index := by
  have place : after.slotAt index = before.slotAt index := by simp [slotAt, pointer]
  unfold slotWord
  rw [place]
  apply ByteMemory.read_congr
  intro offset inside
  refine untouched _ fun other above under => ?_
  exact before.slotAt_apart (by omega) small (by omega) inside

end Processor

end WasmX64
