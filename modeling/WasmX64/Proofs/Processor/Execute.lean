import Mathlib.Algebra.Ring.Int.Defs
import WasmX64.Proofs.Processor.Machine
import WasmX64.Sequence.Moves

/-!
# Integer instructions

`step` knows the instructions that copy values.  `execute` adds integer arithmetic with its
flags, narrow accesses to memory and the stack.  What writes a 32-bit register clears its
upper half.
-/

namespace WasmX64

/-- The bits of a type that an integer instruction computes with. -/
def ValueType.word (type : ValueType) (value : BitVec 64) : BitVec type.bits :=
  value.setWidth type.bits

theorem ValueType.bits_le (type : ValueType) : type.bits ≤ 64 := by
  unfold bits
  split
  · exact Nat.le_refl _
  · decide

theorem ValueType.clip_eq (type : ValueType) (value : BitVec 64) :
    type.clip value = (type.word value).setWidth 64 := by
  have bits : 8 * type.size = type.bits := by
    unfold size bits
    split
    · rfl
    · rfl
  unfold clip narrow word
  rw [bits]

/-- The result of an operation of the integer group; a comparison subtracts. -/
def AluOp.result? {width : Nat} (op : AluOp) (left right : BitVec width) :
    Option (BitVec width) :=
  if op = .add then some (left + right)
  else if op = .or then some (left ||| right)
  else if op = .and then some (left &&& right)
  else if op = .sub ∨ op = .cmp then some (left - right)
  else if op = .xor then some (left ^^^ right)
  else none

/-- The flags after an operation of the integer group with a result. -/
def AluOp.flags {width : Nat} (op : AluOp) (left right result : BitVec width) : Flags where
  carry :=
    if op = .add then 2 ^ width ≤ left.toNat + right.toNat
    else if op = .sub ∨ op = .cmp then left.toNat < right.toNat
    else false
  zero := result = 0
  sign := result.msb
  overflow :=
    if op = .add then result.toInt ≠ left.toInt + right.toInt
    else if op = .sub ∨ op = .cmp then result.toInt ≠ left.toInt - right.toInt
    else false
  parity := ((List.range 8).countP fun index => result.getLsbD index) % 2 = 0

/-- Whether a condition holds; only the low four bits of its code count, and the lowest
negates. -/
def Condition.holds (condition : Condition) (flags : Flags) : Bool :=
  let base : Bool :=
    match (condition.code &&& 0x0f).toNat / 2 with
    | 0 => flags.overflow
    | 1 => flags.carry
    | 2 => flags.zero
    | 3 => flags.carry || flags.zero
    | 4 => flags.sign
    | 5 => flags.parity
    | 6 => flags.sign != flags.overflow
    | _ => flags.zero || flags.sign != flags.overflow
  base != ((condition.code &&& 0x0f).toNat % 2 = 1)

/-- A number of bytes extended to the width of a type, with or without its sign, as it fills a
register. -/
def Extension.fill (extension : Extension) (type : ValueType) (value : BitVec 64) :
    BitVec 64 :=
  if extension = .zero8 then value &&& 0xff
  else if extension = .zero16 then value &&& 0xffff
  else if extension = .sign8 then type.clip ((value.setWidth 8).signExtend 64)
  else if extension = .sign16 then type.clip ((value.setWidth 16).signExtend 64)
  else (value.setWidth 32).signExtend 64

/-- The number of bytes that an extension starts from. -/
def Extension.bytes (extension : Extension) : Nat :=
  if extension = .zero8 ∨ extension = .sign8 then 1
  else if extension = .zero16 ∨ extension = .sign16 then 2
  else 4

namespace Processor

/-- An operation of the integer group on a register; a comparison leaves the register. -/
def alu (machine : Processor) (op : AluOp) (type : ValueType) (dst : Register)
    (right : BitVec 64) : Option Processor :=
  let left := type.word (machine.regs dst)
  (op.result? left (type.word right)).map fun result =>
    let flags := op.flags left (type.word right) result
    if op = .cmp then { machine with flags }
    else { machine.setReg dst (result.setWidth 64) with flags }

/-- Pushes a quadword. -/
def push (machine : Processor) (value : BitVec 64) : Processor :=
  let top := machine.regs .rsp - 8
  { machine.setReg .rsp top with memory := machine.memory.write top 8 value }

/-- The quadword on top of the stack, and the processor without it. -/
def pop (machine : Processor) : BitVec 64 × Processor :=
  (machine.memory.read (machine.regs .rsp) 8,
    machine.setReg .rsp (machine.regs .rsp + 8))

/-- Runs one instruction. -/
def execute (machine : Processor) : Instruction → Option Processor
  | .alu op type dst src => machine.alu op type dst (machine.regs src)
  | .aluLoad op type dst src =>
    machine.alu op type dst (machine.load type (machine.effective src))
  | .aluImm op type dst imm => machine.alu op type dst (BitVec.ofInt 64 imm.toInt)
  | .enterFrame size => machine.alu .sub .i64 .rsp (BitVec.ofInt 64 size.toInt32.toInt)
  | .lea type dst src => some (machine.setReg dst (type.clip (machine.effective src)))
  | .movabs dst imm => some (machine.setReg dst imm.toBitVec)
  | .storeByte dst src =>
    some { machine with
      memory := machine.memory.write (machine.effective dst) 1 (machine.regs src) }
  | .storeWord dst src =>
    some { machine with
      memory := machine.memory.write (machine.effective dst) 2 (machine.regs src) }
  | .extend extension type dst src =>
    some (machine.setReg dst (extension.fill type (machine.regs src)))
  | .extendLoad extension type dst src =>
    some (machine.setReg dst (extension.fill type
      (machine.memory.read (machine.effective src) extension.bytes)))
  | .push reg => some (machine.push (machine.regs reg))
  | .pop reg => some (machine.pop.2.setReg reg machine.pop.1)
  | .pushImm imm => some (machine.push (BitVec.ofInt 64 imm.toInt))
  | .pushLoad src => some (machine.push (machine.load .i64 (machine.effective src)))
  | .logic op _ dst src =>
    if op = .xor then some (machine.setReg dst (machine.regs dst ^^^ machine.regs src))
    else none
  | instruction => machine.step instruction

/-- Runs instructions one after the other. -/
def executes (machine : Processor) : List Instruction → Option Processor
  | [] => some machine
  | instruction :: rest => (machine.execute instruction).bind fun next => next.executes rest

theorem executes_append (machine : Processor) (first second : List Instruction) :
    machine.executes (first ++ second) =
      (machine.executes first).bind fun next => next.executes second := by
  induction first generalizing machine with
  | nil => rfl
  | cons instruction rest ih =>
    rw [List.cons_append, executes, executes]
    cases machine.execute instruction with
    | none => rfl
    | some next => exact ih next

theorem alu_xor (machine : Processor) (type : ValueType) (dst : Register) (right : BitVec 64) :
    machine.alu .xor type dst right =
      let result := type.clip (machine.regs dst ^^^ right)
      some { machine.setReg dst result with flags := logicFlags type result } := by
  have whole : type.word (machine.regs dst) ^^^ type.word right =
      type.word (machine.regs dst ^^^ right) := by simp [ValueType.word]
  have bits := type.bits_le
  dsimp only
  rw [ValueType.clip_eq]
  simp only [alu, AluOp.result?, AluOp.flags, AluOp.add, AluOp.or, AluOp.and, AluOp.sub,
    AluOp.cmp, AluOp.xor, AluOp.mk.injEq, reduceIte, whole, logicFlags]
  generalize type.word (machine.regs dst ^^^ right) = result
  have zero : result = 0 ↔ result.setWidth 64 = 0 := by
    rw [← BitVec.toNat_inj, ← BitVec.toNat_inj, BitVec.toNat_setWidth_of_le bits]
    rfl
  have sign : result.msb = (result.setWidth 64).getLsbD (type.bits - 1) := by
    have inside : type.bits - 1 < 64 := by omega
    simp [BitVec.msb_eq_getLsbD_last, inside]
  have parity : (List.range 8).countP (fun index => result.getLsbD index) =
      (List.range 8).countP fun index => (result.setWidth 64).getLsbD index := by
    apply List.countP_congr
    intro index member
    have inside : index < 64 := by
      have := List.mem_range.mp member
      omega
    simp [inside]
  simpa [sign, parity] using zero

theorem execute_of_step {machine next : Processor} {instruction : Instruction}
    (steps : machine.step instruction = some next) : machine.execute instruction = some next := by
  cases instruction
  case alu op type dst src =>
    rw [step] at steps
    split at steps
    · rename_i exclusive
      subst exclusive
      rw [execute, alu_xor]
      exact steps
    · cases steps
  all_goals first
    | exact steps
    | cases steps

end Processor

/-! ## The integer processor

`perform` adds to `execute` what else the compiler emits for integers: tests, shifts,
multiplication and division, counting and scanning of bits, conditions as bytes.  A division
that faults has no outcome.  Where the manuals leave a flag undefined the model clears it.
-/

/-- The result of a shift or rotation by a number of bits below the width. -/
def ShiftOp.result? {width : Nat} (op : ShiftOp) (value : BitVec width) (count : Nat) :
    Option (BitVec width) :=
  if op = .rol then some (value.rotateLeft count)
  else if op = .ror then some (value.rotateRight count)
  else if op = .shl then some (value <<< count)
  else if op = .shr then some (value >>> count)
  else if op = .sar then some (value.sshiftRight count)
  else none

/-- The flags after a shift or rotation; by no bits it leaves them. -/
def ShiftOp.flags {width : Nat} (op : ShiftOp) (before : Flags) (value : BitVec width)
    (count : Nat) (result : BitVec width) : Flags :=
  if count = 0 then before
  else
    let carry :=
      if op = .rol then result.getLsbD 0
      else if op = .ror then result.msb
      else if op = .shl then value.getLsbD (width - count)
      else value.getLsbD (count - 1)
    if op = .rol ∨ op = .ror then { before with carry, overflow := false }
    else
      { carry
        zero := result = 0
        sign := result.msb
        parity := ((List.range 8).countP fun index => result.getLsbD index) % 2 = 0 }

/-- The number of bits that a shift count stands for. -/
def ValueType.shiftCount (type : ValueType) (count : Nat) : Nat := count % type.bits

namespace Processor

/-- Shifts or rotates a register. -/
def shift (machine : Processor) (op : ShiftOp) (type : ValueType) (reg : Register)
    (count : Nat) : Option Processor :=
  let value := type.word (machine.regs reg)
  let count := type.shiftCount count
  (op.result? value count).map fun result =>
    { machine.setReg reg (result.setWidth 64) with
      flags := op.flags machine.flags value count result }

/-- The flags of a test are those of a conjunction. -/
def testFlags (type : ValueType) (left right : BitVec 64) : Flags :=
  let result := type.word left &&& type.word right
  AluOp.flags .and (type.word left) (type.word right) result

/-- The operands of a division: the double word in `rdx` and `rax`, and the divisor. -/
def dividend (machine : Processor) (type : ValueType) : BitVec (type.bits + type.bits) :=
  type.word (machine.regs .rdx) ++ type.word (machine.regs .rax)

/-- Puts a quotient into `rax` and a remainder into `rdx`. -/
def divided (machine : Processor) (type : ValueType) (quotient remainder : BitVec type.bits) :
    Processor :=
  { (machine.setReg .rax (quotient.setWidth 64)).setReg .rdx (remainder.setWidth 64) with
    flags := {} }

/-- Divides without signs; a quotient that has no room is a fault. -/
def divideUnsigned (machine : Processor) (type : ValueType) (divisor : BitVec 64) :
    Option Processor :=
  let total := (machine.dividend type).toNat
  let number := (type.word divisor).toNat
  if number = 0 ∨ 2 ^ type.bits ≤ total / number then none
  else some (machine.divided type (.ofNat _ (total / number)) (.ofNat _ (total % number)))

/-- Divides with signs, toward zero; a quotient that has no room is a fault. -/
def divideSigned (machine : Processor) (type : ValueType) (divisor : BitVec 64) :
    Option Processor :=
  let total := (machine.dividend type).toInt
  let number := (type.word divisor).toInt
  let quotient := total.tdiv number
  if number = 0 ∨ quotient < -2 ^ (type.bits - 1) ∨ 2 ^ (type.bits - 1) ≤ quotient then none
  else some (machine.divided type (.ofInt _ quotient) (.ofInt _ (total.tmod number)))

/-- An operation on one register. -/
def unary (machine : Processor) (op : UnaryOp) (type : ValueType) (reg : Register) :
    Option Processor :=
  let value := type.word (machine.regs reg)
  match op with
  | .not => some (machine.setReg reg ((~~~ value).setWidth 64))
  | .neg =>
    some { machine.setReg reg ((-value).setWidth 64) with
      flags := AluOp.flags .sub 0 value (-value) }
  | .div => machine.divideUnsigned type (machine.regs reg)
  | .idiv => machine.divideSigned type (machine.regs reg)

/-- The position of the highest or lowest one, or the number of ones.  Scanning zero leaves the
register. -/
def scan (machine : Processor) (op : ScanOp) (type : ValueType) (dst src : Register) :
    Processor :=
  let value := type.word (machine.regs src)
  let flags : Flags := { zero := value = 0 }
  match op with
  | .popcnt =>
    let ones := (List.range type.bits).countP fun index => value.getLsbD index
    { machine.setReg dst (.ofNat 64 ones) with flags }
  | .bsr =>
    if value = 0 then { machine with flags }
    else { machine.setReg dst (.ofNat 64 value.toNat.log2) with flags }
  | .bsf =>
    if value = 0 then { machine with flags }
    else
      { machine.setReg dst (.ofNat 64 (Sequence.trailingZeros 64 value.toNat)) with flags }

/-- Runs one instruction. -/
def perform (machine : Processor) : Instruction → Option Processor
  | .aluStoreImm op type dst imm =>
    let address := machine.effective dst
    let left := type.word (machine.load type address)
    let right := type.word (BitVec.ofInt 64 imm.toInt)
    (op.result? left right).map fun result =>
      let flags := op.flags left right result
      if op = .cmp then { machine with flags }
      else { machine.store type address (result.setWidth 64) with flags }
  | .test type left right =>
    some { machine with flags := testFlags type (machine.regs left) (machine.regs right) }
  | .testImm type reg imm =>
    some { machine with
      flags := testFlags type (machine.regs reg) (BitVec.ofInt 64 imm.toInt) }
  | .imul type dst src =>
    let left := type.word (machine.regs dst)
    let right := type.word (machine.regs src)
    let lost : Bool := (left * right).toInt ≠ left.toInt * right.toInt
    some { machine.setReg dst ((left * right).setWidth 64) with
      flags := { carry := lost, overflow := lost } }
  | .unary op type reg => machine.unary op type reg
  | .cdq =>
    some (machine.setReg .rdx (if (ValueType.i32.word (machine.regs .rax)).msb then 0xffffffff
      else 0))
  | .cqo => some (machine.setReg .rdx (if (machine.regs .rax).msb then -1 else 0))
  | .shiftCl op type reg =>
    machine.shift op type reg ((machine.regs .rcx).setWidth 8).toNat
  | .shiftImm op type reg imm => machine.shift op type reg imm.toNat
  | .setcc condition dst =>
    let byte : BitVec 64 := if condition.holds machine.flags then 1 else 0
    some (machine.setReg dst ((machine.regs dst >>> 8) <<< 8 ||| byte))
  | .scan op type dst src => some (machine.scan op type dst src)
  | instruction => machine.execute instruction

theorem perform_of_execute {machine next : Processor} {instruction : Instruction}
    (runs : machine.execute instruction = some next) :
    machine.perform instruction = some next := by
  cases instruction
  all_goals first
    | exact runs
    | cases runs

end Processor

end WasmX64
