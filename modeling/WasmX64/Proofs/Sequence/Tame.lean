import WasmX64.Proofs.Sequence.Closed

/-!
# Sequences that leave the frame alone

All sequences that plain instructions are lowered to are tame: they write the registers they are
asked to write, and scratch registers.  The sequences that store and load frame slots are tame
as far as the slots lie in the frame.
-/

/-!
## What instructions touch

The registers that an instruction writes, whether it names them or not, the memory operand that
it reads or writes, and whether it goes on behind itself.  A tame instruction leaves the two
registers that delimit the frame alone, and its operand, if it lies in the frame, is a slot
below a bound or an argument of the caller.
-/

namespace WasmX64

/-- A register other than the two that delimit the frame. -/
def Register.Ordinary (reg : Register) : Prop := reg ≠ .rsp ∧ reg ≠ .rbp

instance (reg : Register) : Decidable reg.Ordinary := inferInstanceAs (Decidable (_ ∧ _))

/-- A general-purpose register other than those two. -/
def Register.General (reg : Register) : Prop := reg.isGp = true ∧ reg.Ordinary

instance (reg : Register) : Decidable reg.General := inferInstanceAs (Decidable (_ ∧ _))

namespace Register

@[simp] theorem ordinary_rax : rax.Ordinary := by decide
@[simp] theorem ordinary_rcx : rcx.Ordinary := by decide
@[simp] theorem ordinary_rdx : rdx.Ordinary := by decide
@[simp] theorem ordinary_r10 : r10.Ordinary := by decide
@[simp] theorem ordinary_xmm14 : xmm14.Ordinary := by decide
@[simp] theorem ordinary_xmm15 : xmm15.Ordinary := by decide

end Register

namespace Instruction

@[simp] def written : Instruction → List Register
  | .alu op _ dst _ | .aluLoad op _ dst _ | .aluImm op _ dst _ => if op = .cmp then [] else [dst]
  | .enterFrame _ | .push _ | .pushImm _ | .pushLoad _ | .callReg _ | .ret => [.rsp]
  | .pop reg => [.rsp, reg]
  | .unary .div _ _ | .unary .idiv _ _ => [.rax, .rdx]
  | .unary _ _ reg | .shiftCl _ _ reg | .shiftImm _ _ reg _ | .shiftLanes _ _ reg _ => [reg]
  | .cdq | .cqo => [.rdx]
  | .imul _ dst _ | .lea _ dst _ | .mov _ dst _ | .movImm _ dst _ | .movabs dst _
  | .load _ dst _ | .extend _ _ dst _ | .extendLoad _ _ dst _ | .setcc _ dst | .scan _ _ dst _
  | .sse _ _ dst _ | .logic _ _ dst _ | .floatLoad _ dst _ | .movToFp _ dst _
  | .movFromFp _ dst _ | .convertInt _ _ dst _ | .truncateFloat _ _ dst _
  | .singleToDouble dst _ | .doubleToSingle dst _ | .round _ dst _ _ | .signBits _ dst _
  | .equalLanes dst _ => [dst]
  | .aluStoreImm _ _ _ _ | .test _ _ _ | .testImm _ _ _ | .store _ _ _ | .storeImm _ _ _
  | .storeByte _ _ | .storeWord _ _ | .floatStore _ _ _ | .jmpReg _ | .jmpLoad _ | .int3
  | .ucomis _ _ _ => []

/-- The operand in memory that an instruction reads or writes. -/
@[simp] def operand? : Instruction → Option Address
  | .aluLoad _ _ _ address | .aluStoreImm _ _ address _ | .load _ _ address
  | .store _ address _ | .storeImm _ address _ | .storeByte address _ | .storeWord address _
  | .extendLoad _ _ _ address | .pushLoad address | .jmpLoad address | .floatLoad _ _ address
  | .floatStore _ address _ => some address
  | _ => none

/-- Whether control does not simply go on behind an instruction. -/
@[simp] def leaves : Instruction → Bool
  | .callReg _ | .jmpReg _ | .jmpLoad _ | .ret | .int3 => true
  | _ => false

/-- Whether an instruction loads a whole address. -/
@[simp] def isWide : Instruction → Bool
  | .movabs _ _ => true
  | _ => false

end Instruction

/-- An operand relative to the frame pointer is one of a number of slots, or an argument that the
caller has left on the stack. -/
def Address.Within (slots : Int) (address : Address) : Prop :=
  address.base = .rbp →
    (∃ index : Nat, (index : Int) < slots ∧ address = .slot index) ∨
      ∃ index : Nat, (index : Int) ≤ slots + 32 ∧ address = .argument index

theorem Address.Within.mono {few many : Int} {address : Address} (within : address.Within few)
    (fewer : few ≤ many) : address.Within many := by
  intro based
  rcases within based with ⟨index, below, same⟩ | ⟨index, below, same⟩
  · exact .inl ⟨index, by omega, same⟩
  · exact .inr ⟨index, by omega, same⟩

theorem Address.within_of_ordinary {slots : Int} {address : Address}
    (ordinary : address.base.Ordinary) : address.Within slots :=
  fun based => absurd based ordinary.2

/-- An instruction that leaves stack and frame pointer alone and stays inside a frame of a number
of slots. -/
structure Instruction.Tame (slots : Int) (instruction : Instruction) : Prop where
  writes : ∀ reg ∈ instruction.written, reg.Ordinary
  operand : ∀ address, instruction.operand? = some address →
    address.base ≠ .rsp ∧ address.Within slots
  goes : instruction.leaves = false
  narrow : instruction.isWide = false

theorem Instruction.Tame.mono {few many : Int} {instruction : Instruction}
    (tame : instruction.Tame few) (fewer : few ≤ many) : instruction.Tame many := by
  refine ⟨tame.writes, ?_, tame.goes, tame.narrow⟩
  intro address found
  obtain ⟨apart, within⟩ := tame.operand address found
  exact ⟨apart, within.mono fewer⟩

theorem Instruction.tame_iff {slots : Int} {instruction : Instruction} :
    instruction.Tame slots ↔ (∀ reg ∈ instruction.written, reg.Ordinary) ∧
      (∀ address, instruction.operand? = some address →
        address.base ≠ .rsp ∧ address.Within slots) ∧
      instruction.leaves = false ∧ instruction.isWide = false :=
  ⟨fun tame => ⟨tame.writes, tame.operand, tame.goes, tame.narrow⟩,
    fun ⟨writes, operand, goes, narrow⟩ => ⟨writes, operand, goes, narrow⟩⟩

/-!
## Tame sequences
-/

/-- A step whose instruction, if it has one, is tame. -/
def Step.Tame (slots : Int) : Step → Prop
  | .emit instruction => instruction.Tame slots
  | _ => True

namespace Sequence

/-- A sequence of tame steps. -/
def Tame (slots : Int) (steps : List Step) : Prop := ∀ step ∈ steps, step.Tame slots

variable {slots : Int} {first second steps : List Step} {dst base : Register}

theorem Tame.mono {few many : Int} (tame : Tame few steps) (fewer : few ≤ many) :
    Tame many steps := by
  intro step member
  have here := tame step member
  cases step with
  | emit instruction => exact here.mono fewer
  | _ => trivial

@[simp] theorem tame_nil : Tame slots [] :=
  fun _ member => absurd member List.not_mem_nil

@[simp] theorem tame_cons_iff {step : Step} :
    Tame slots (step :: steps) ↔ step.Tame slots ∧ Tame slots steps :=
  List.forall_mem_cons

@[simp] theorem tame_append_iff :
    Tame slots (first ++ second) ↔ Tame slots first ∧ Tame slots second :=
  List.forall_mem_append

theorem Tame.ite {condition : Prop} [Decidable condition] (left : Tame slots first)
    (right : Tame slots second) : Tame slots (if condition then first else second) := by
  split
  · exact left
  · exact right

section Steps

@[simp] theorem tame_emit_iff {instruction : Instruction} :
    (Step.emit instruction).Tame slots ↔ instruction.Tame slots := Iff.rfl

@[simp] theorem tame_jump (target : Target) (distance : Distance) :
    (Step.jump target distance).Tame slots := trivial

@[simp] theorem tame_jumpIf (condition : Condition) (target : Target) (distance : Distance) :
    (Step.jumpIf condition target distance).Tame slots := trivial

@[simp] theorem tame_bind (target : Target) : (Step.bind target).Tame slots := trivial

@[simp] theorem tame_fail (error : CodeError) : (Step.fail error).Tame slots := trivial

end Steps

theorem outside_frame {address : Address} (ordinary : address.base.Ordinary) :
    address.base ≠ .rsp ∧ address.Within slots :=
  ⟨ordinary.1, address.within_of_ordinary ordinary⟩

section Moves

theorem tame_move (type : ValueType) (ordinary : dst.Ordinary) (src : Register) :
    Tame slots (move type dst src) :=
  tame_nil.ite (by simp [Instruction.tame_iff, ordinary])

theorem tame_loadRun (type : ValueType) (ordinary : dst.Ordinary) (bits : Nat) :
    Tame slots (loadRun type dst bits) := by
  have shifts (left : Bool) (imm : UInt8) :
      Tame slots [.emit (.shiftLanes left type dst imm)] := by
    simp [Instruction.tame_iff, ordinary]
  unfold loadRun
  rw [tame_append_iff, tame_append_iff]
  refine ⟨⟨?_, tame_nil.ite (shifts _ _)⟩, tame_nil.ite (shifts _ _)⟩
  simp [Instruction.tame_iff, ordinary]

theorem tame_loadConstant (type : ValueType) (ordinary : dst.Ordinary) (bits : UInt64) :
    Tame slots (loadConstant type dst bits) := by
  have integer (type : ValueType) : Tame slots (loadInteger type dst bits) := by
    refine Tame.ite ?_ (Tame.ite ?_ ?_)
    · simp [Instruction.tame_iff, ordinary]
    · simp [Instruction.tame_iff, ordinary]
    · simp [Instruction.tame_iff, ordinary]
  have float (type word : ValueType) (bits : UInt64) :
      Tame slots (loadFloat type word dst bits) := by
    refine Tame.ite ?_ (Tame.ite (tame_loadRun type ordinary _) ?_)
    · simp [Instruction.tame_iff, ordinary]
    · simp [Instruction.tame_iff, ordinary]
  cases type with
  | i32 => exact integer .i32
  | i64 => exact integer .i64
  | f32 => exact float .f32 .i32 _
  | f64 => exact float .f64 .i64 _
  | unknown code => simp [loadConstant]

theorem inside_frame {index : Int} (positive : 0 ≤ index) (below : index < slots) :
    (Address.slot index).base ≠ .rsp ∧ (Address.slot index).Within slots := by
  obtain ⟨number, rfl⟩ := Int.eq_ofNat_of_zero_le positive
  refine ⟨(by decide : Register.rbp ≠ .rsp), fun _ => ?_⟩
  exact .inl ⟨number, below, rfl⟩

theorem tame_spill (type : ValueType) {index : Int} (positive : 0 ≤ index)
    (below : index < slots) (src : Register) : Tame slots (spill type index src) := by
  have inside := inside_frame positive below
  refine Tame.ite ?_ ?_
  · simp [Instruction.tame_iff, inside]
  · simp [Instruction.tame_iff, inside]

theorem tame_spillConstant (type : ValueType) {index : Int} (positive : 0 ≤ index)
    (below : index < slots) (bits : UInt64) : Tame slots (spillConstant type index bits) := by
  have inside := inside_frame positive below
  cases type with
  | i32 => simp [spillConstant, Instruction.tame_iff, inside]
  | i64 =>
    refine Tame.ite ?_ ?_
    · simp [Instruction.tame_iff, inside]
    · simp [Instruction.tame_iff, inside]
  | _ => simp [spillConstant]

theorem tame_loadFrom (type : ValueType) (ordinary : dst.Ordinary) {address : Address}
    (inside : address.base ≠ .rsp ∧ address.Within slots) :
    Tame slots (loadFrom type dst address) := by
  refine Tame.ite ?_ ?_
  · simp [Instruction.tame_iff, ordinary, inside]
  · simp [Instruction.tame_iff, ordinary, inside]

theorem tame_fill (type : ValueType) (ordinary : dst.Ordinary) {index : Int}
    (positive : 0 ≤ index) (below : index < slots) : Tame slots (fill type dst index) :=
  tame_loadFrom type ordinary (inside_frame positive below)

theorem tame_memoryAddress (base index : Register) (offset : UInt32) :
    Tame slots (memoryAddress base index offset).2 := by
  unfold memoryAddress
  split
  · split
    · exact tame_nil
    · exact tame_nil
  · rw [tame_append_iff]
    refine ⟨?_, tame_nil.ite ?_⟩
    · simp [Instruction.tame_iff]
    · simp [Instruction.tame_iff]

theorem base_memoryAddress (base index : Register) (offset : UInt32) :
    (memoryAddress base index offset).1.base = base := by
  unfold memoryAddress
  split
  · split
    · rfl
    · rfl
  · rfl

theorem tame_read (type : ValueType) (bytes : UInt8) (signed : Bool) (ordinary : dst.Ordinary)
    {address : Address} (outside : address.base.Ordinary) :
    Tame slots (read type bytes signed dst address) := by
  have inside := @outside_frame slots address outside
  unfold read
  repeat' apply Tame.ite
  all_goals simp [Instruction.tame_iff, ordinary, inside]

theorem tame_write (type : ValueType) (bytes : UInt8) (src : Register) {address : Address}
    (outside : address.base.Ordinary) : Tame slots (write type bytes address src) := by
  have inside := @outside_frame slots address outside
  unfold write
  repeat' apply Tame.ite
  all_goals simp [Instruction.tame_iff, inside]

end Moves

section Arithmetic

theorem tame_setCondition (type : ValueType) (condition : Condition) (ordinary : dst.Ordinary)
    (left right : Register) : Tame slots (setCondition type condition dst left right) := by
  simp [setCondition, Instruction.tame_iff, ordinary]

theorem tame_compareAndJump (condition : Condition) (target : Target) (type : ValueType)
    (left right : Register) :
    Tame slots (compareAndJump condition target type left right) := by
  unfold compareAndJump
  split
  · simp [Instruction.tame_iff]
  · simp [Instruction.tame_iff]

theorem tame_division (part : DivisionPart) (type : ValueType) (signed : Bool)
    (ordinary : dst.Ordinary) (left right : Register) (divideByZero overflow : Target) :
    Tame slots (division part type signed dst left right divideByZero overflow) := by
  have checks (divisor : Register) :
      Tame slots (signedDivisionChecks part type dst left divisor overflow) := by
    cases part with
    | quotient => simp [signedDivisionChecks, Instruction.tame_iff]
    | remainder =>
      simp [signedDivisionChecks, Instruction.tame_iff, ordinary]
  have divides (divisor : Register) : Tame slots (hardwareDivision type signed divisor) := by
    unfold hardwareDivision
    split
    · split
      · simp [Instruction.tame_iff]
      · simp [Instruction.tame_iff]
    · simp [Instruction.tame_iff]
  unfold division
  split
  · simp
  split
  · simp
  simp only [tame_append_iff]
  refine ⟨⟨⟨⟨⟨⟨Tame.ite ?_ tame_nil, ?_⟩, (checks _).ite tame_nil⟩, tame_move type (by simp) _⟩,
    divides _⟩, ?_⟩, Tame.ite ?_ tame_nil⟩
  · simp [Instruction.tame_iff]
  · simp [Instruction.tame_iff]
  · cases part with
    | quotient => exact tame_move type ordinary _
    | remainder => exact tame_move type ordinary _
  · simp

theorem tame_scanOr (width : Int64) (op : ScanOp) (type : ValueType) (ordinary : dst.Ordinary)
    (src : Register) {adjust : List Step} (tame : Tame slots adjust) :
    Tame slots (scanOr width op type dst src adjust) := by
  simp [scanOr, Instruction.tame_iff, ordinary, tame]

theorem tame_shift (op : ShiftOp) (type : ValueType) (ordinary : dst.Ordinary)
    (src amount : Register) (live : Bool) :
    Tame slots (shift op type dst src amount live) := by
  have fetch : Tame slots (if amount = .rcx then [] else [Step.emit (.mov .i64 .rcx amount)]) :=
    tame_nil.ite (by simp [Instruction.tame_iff])
  unfold shift
  dsimp only
  split
  · simp only [tame_append_iff]
    refine ⟨⟨tame_move type (by simp) _, fetch⟩, ?_⟩
    simp [Instruction.tame_iff]
  · simp only [tame_append_iff]
    refine ⟨⟨⟨⟨Tame.ite ?_ tame_nil, fetch⟩, tame_move type ordinary _⟩, ?_⟩,
      Tame.ite ?_ tame_nil⟩
    · simp [Instruction.tame_iff]
    · simp [Instruction.tame_iff, ordinary]
    · simp [Instruction.tame_iff]

theorem tame_commutative {op : Register → Register → Instruction} (type : ValueType)
    (ordinary : dst.Ordinary) (tame : ∀ right, (op dst right).Tame slots)
    (left right : Register) : Tame slots (commutative op type dst left right) := by
  refine Tame.ite (by simpa using tame left) ?_
  rw [tame_append_iff]
  exact ⟨tame_move type ordinary _, by simpa using tame right⟩

theorem tame_ordered (op : SseOp) (type : ValueType) (ordinary : dst.Ordinary)
    (left right : Register) : Tame slots (ordered op type dst left right) := by
  refine Tame.ite ?_ ?_
  · simp only [tame_append_iff]
    refine ⟨⟨tame_move type (by simp) _, tame_move type ordinary _⟩, ?_⟩
    simp [Instruction.tame_iff, ordinary]
  · rw [tame_append_iff]
    refine ⟨tame_move type ordinary _, ?_⟩
    simp [Instruction.tame_iff, ordinary]

theorem tame_addition (type : ValueType) (ordinary : dst.Ordinary) (left right : Register) :
    Tame slots (addition type dst left right) := by
  refine Tame.ite ?_ (Tame.ite ?_ ?_)
  · simp [Instruction.tame_iff, ordinary]
  · simp [Instruction.tame_iff, ordinary]
  · simp [Instruction.tame_iff, ordinary]

theorem tame_subtraction (type : ValueType) (ordinary : dst.Ordinary) (left right : Register) :
    Tame slots (subtraction type dst left right) := by
  refine Tame.ite ?_ ?_
  · simp [Instruction.tame_iff, ordinary]
  · rw [tame_append_iff]
    refine ⟨tame_move type ordinary _, ?_⟩
    simp [Instruction.tame_iff, ordinary]

theorem tame_intUnary (op : IntUnary) (type : ValueType) (ordinary : dst.Ordinary)
    (src : Register) : Tame slots (op.steps type dst src) := by
  cases op with
  | clz =>
    refine Tame.ite (tame_scanOr _ _ _ ordinary _ ?_) (tame_scanOr _ _ _ ordinary _ ?_)
    · simp [Instruction.tame_iff, ordinary]
    · simp [Instruction.tame_iff, ordinary]
  | ctz => exact tame_scanOr _ _ _ ordinary _ tame_nil
  | popcnt => simp [IntUnary.steps, Instruction.tame_iff, ordinary]

/-- The steps of an operation on integers that needs neither traps nor fixed registers. -/
theorem tame_intBinary {op : IntBinary} {type : ValueType}
    {steps : ValueType → Register → Register → Register → List Step}
    (lowering : op.lowering = .plain steps) (ordinary : dst.Ordinary) (left right : Register) :
    Tame slots (steps type dst left right) := by
  cases op with
  | add => cases lowering; exact tame_addition _ ordinary _ _
  | sub => cases lowering; exact tame_subtraction _ ordinary _ _
  | mul =>
    cases lowering
    exact tame_commutative _ ordinary (by simp [Instruction.tame_iff, ordinary]) _ _
  | and =>
    cases lowering
    exact tame_commutative _ ordinary (by simp [Instruction.tame_iff, ordinary]) _ _
  | or =>
    cases lowering
    exact tame_commutative _ ordinary (by simp [Instruction.tame_iff, ordinary]) _ _
  | xor =>
    cases lowering
    exact tame_commutative _ ordinary (by simp [Instruction.tame_iff, ordinary]) _ _
  | _ => cases lowering

end Arithmetic

section Floats

theorem tame_floatSetCondition (type : ValueType) (condition : Condition)
    (ordinary : dst.Ordinary) (left right : Register) :
    Tame slots (floatSetCondition type condition dst left right) := by
  unfold floatSetCondition
  split
  · simp [Instruction.tame_iff, ordinary]
  · simp [Instruction.tame_iff, ordinary]

theorem tame_minMax (type : ValueType) (minimum : Bool) (ordinary : dst.Ordinary)
    (left right : Register) : Tame slots (minMax type minimum dst left right) := by
  unfold minMax
  simp [Instruction.tame_iff, ordinary, tame_move]

theorem tame_floatUnary (op : FloatUnary) (type : ValueType) (ordinary : dst.Ordinary)
    (src : Register) : Tame slots (op.steps type dst src) := by
  have masks (negate : Bool) : Tame slots (absOrNeg type negate dst src) := by
    have scratch : (if dst = src then .xmm15 else dst).Ordinary := by
      split
      · simp
      · exact ordinary
    simp [absOrNeg, Instruction.tame_iff, ordinary, scratch]
  cases op with
  | abs => exact masks false
  | neg => exact masks true
  | _ => simp [FloatUnary.steps, Instruction.tame_iff, ordinary]

theorem tame_floatBinary (op : FloatBinary) (type : ValueType) (ordinary : dst.Ordinary)
    (left right : Register) : Tame slots (op.steps type dst left right) := by
  cases op with
  | add => exact tame_commutative _ ordinary (by simp [Instruction.tame_iff, ordinary]) _ _
  | mul => exact tame_commutative _ ordinary (by simp [Instruction.tame_iff, ordinary]) _ _
  | sub => exact tame_ordered _ _ ordinary _ _
  | div => exact tame_ordered _ _ ordinary _ _
  | min => exact tame_minMax _ _ ordinary _ _
  | max => exact tame_minMax _ _ ordinary _ _
  | copysign =>
    have sign : Tame slots (loadConstant type .xmm15 (signMask type)) :=
      tame_loadConstant type (by simp) _
    simp [FloatBinary.steps, copysign, Instruction.tame_iff, ordinary, sign]

theorem tame_truncate (target source : ValueType) (signed : Bool) (ordinary : dst.Ordinary)
    (src : Register) (trap : Target) :
    Tame slots (truncate target source signed dst src trap) := by
  have large : Tame slots (loadConstant source .xmm15 (minusTwo63 source)) :=
    tame_loadConstant source (by simp) _
  unfold truncate
  split
  · simp [truncateUnsigned64, Instruction.tame_iff, ordinary, large]
  · dsimp only
    rw [List.cons_append, tame_cons_iff, tame_append_iff]
    refine ⟨?_, Tame.ite ?_ (Tame.ite ?_ ?_), ?_⟩
    · simp [Instruction.tame_iff]
    · simp [Instruction.tame_iff, ordinary]
    · simp [Instruction.tame_iff, ordinary]
    · simp [Instruction.tame_iff, ordinary]
    · simp [Instruction.tame_iff]

theorem tame_conversion (op : Conversion) (ordinary : dst.Ordinary) (src : Register)
    (trap : Target) : Tame slots (conversion op dst src trap) := by
  unfold conversion
  split
  case h_2 => exact tame_truncate _ _ _ ordinary _ _
  case h_8 => simp [convertUnsigned64, Instruction.tame_iff, ordinary]
  all_goals simp [Instruction.tame_iff, ordinary]

end Floats

end Sequence

end WasmX64
