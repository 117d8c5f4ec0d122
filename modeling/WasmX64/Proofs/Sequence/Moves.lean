import WasmX64.Layout.Basic
import WasmX64.Proofs.Machine.Fields
import WasmX64.Proofs.Processor.Machine
import WasmX64.Sequence.Moves

/-!
# Copying values

What the sequences that copy a value between registers, constants and frame slots
do when they are run: one lemma for each sequence, which also says that every
instruction of it has an encoding.
-/

namespace WasmX64

/-- Straight-line steps that take one machine state to another. -/
structure Runs (steps : List Step) (before after : Processor) (instructions : List Instruction) :
    Prop where
  steps : steps = instructions.map Step.emit
  encodes : ∃ bytes, Instruction.encodeAll instructions = .ok bytes
  runs : before.run instructions = some after

structure Suits (type : ValueType) (reg : Register) : Prop where
  valid : type.isValid = true
  machine : reg.isMachine = true
  bank : reg.regClass = type.regClass

instance (type : ValueType) (reg : Register) : Decidable (Suits type reg) :=
  decidable_of_iff (type.isValid = true ∧ reg.isMachine = true ∧ reg.regClass = type.regClass)
    ⟨fun ⟨valid, machine, bank⟩ => ⟨valid, machine, bank⟩,
      fun suits => ⟨suits.valid, suits.machine, suits.bank⟩⟩

namespace Suits

theorem cases {type : ValueType} {reg : Register} (suits : Suits type reg) :
    (type.isFloat = true ∧ reg.isFp = true) ∨
      (type.isFloat = false ∧ type.isInteger = true ∧ reg.isGp = true) := by
  cases type with
  | unknown code => exact absurd suits.valid (by simp [ValueType.isValid])
  | f32 | f64 => exact .inl ⟨rfl, Register.isFp_of_regClass suits.bank⟩
  | i32 | i64 => exact .inr ⟨rfl, rfl, Register.isGp_of_regClass suits.machine suits.bank⟩

end Suits

theorem encodeAll_singleton {instruction : Instruction}
    (encodes : ∃ bytes, instruction.encode = .ok bytes) :
    ∃ bytes, Instruction.encodeAll [instruction] = .ok bytes := by
  obtain ⟨bytes, first⟩ := encodes
  exact ⟨bytes ++ [], Instruction.encodeAll_cons first rfl⟩

theorem Runs.one {instruction : Instruction} {before after : Processor}
    (encodes : ∃ bytes, instruction.encode = .ok bytes) (runs : before.step instruction = some after) :
    Runs [.emit instruction] before after [instruction] :=
  ⟨rfl, encodeAll_singleton encodes, by simp [Processor.run, runs]⟩

namespace Sequence

variable {type : ValueType} {reg : Register} {index : Nat}

theorem loadFrom_runs {address : Address} (suits : Suits type reg)
    (encodes : ∃ operand, address.encode = .ok operand) (machine : Processor) :
    ∃ instructions, Runs (loadFrom type reg address) machine
      (machine.setReg reg (machine.load type (machine.effective address))) instructions := by
  obtain ⟨operand, encodes⟩ := encodes
  rcases suits.cases with ⟨float, vector⟩ | ⟨integer, whole, general⟩
  · rw [loadFrom, if_pos float]
    refine ⟨_, .one ?_ rfl⟩
    simp [Instruction.encode, Instruction.needFloat, float, vector, OpcodeForm.withAddress,
      encodes, bind, Except.bind]
  · rw [loadFrom, if_neg (by simp [integer])]
    refine ⟨_, .one ?_ rfl⟩
    simp [Instruction.encode, Instruction.needInteger, whole, general, OpcodeForm.withAddress,
      encodes, bind, Except.bind]

theorem fill_runs (suits : Suits type reg) (small : index < frameLimit)
    (machine : Processor) :
    ∃ instructions, Runs (fill type reg index) machine
      (machine.setReg reg (type.clip (machine.slotWord index))) instructions := by
  rw [← machine.load_slot, ← machine.effective_slot small]
  exact loadFrom_runs suits ⟨_, Address.encode_slot _⟩ machine

theorem spill_runs (suits : Suits type reg) (small : index < frameLimit)
    (machine : Processor) :
    ∃ instructions, Runs (spill type index reg) machine
      (machine.store type (machine.slotAt index) (machine.regs reg)) instructions := by
  rw [← machine.effective_slot small]
  rcases suits.cases with ⟨float, vector⟩ | ⟨integer, whole, general⟩
  · rw [spill, if_pos float]
    refine ⟨_, .one ?_ rfl⟩
    simp [Instruction.encode, Instruction.needFloat, float, vector, OpcodeForm.withAddress,
      Address.encode_slot, bind, Except.bind]
  · rw [spill, if_neg (by simp [integer])]
    refine ⟨_, .one ?_ rfl⟩
    simp [Instruction.encode, Instruction.needInteger, whole, general, OpcodeForm.withAddress,
      Address.encode_slot, bind, Except.bind]

/-- What a register holds after a copy: a vector register is copied whole, the upper
half of a narrow integer is cleared. -/
def copied (type : ValueType) (value : BitVec 64) : BitVec 64 :=
  if type.isFloat then value else type.clip value

theorem clip_copied (type : ValueType) (value : BitVec 64) :
    type.clip (copied type value) = type.clip value := by
  unfold copied
  split
  · rfl
  · exact type.clip_clip value

theorem move_runs {source : Register} (suits : Suits type reg)
    (sourceSuits : Suits type source) (different : reg ≠ source) (machine : Processor) :
    ∃ instructions, Runs (move type reg source) machine
      (machine.setReg reg (copied type (machine.regs source))) instructions := by
  rw [move, if_neg different]
  refine ⟨_, .one ?_ ?_⟩
  · rcases suits.cases with ⟨float, vector⟩ | ⟨integer, whole, general⟩
    · have sourceVector : source.isFp = true := by
        apply Register.isFp_of_regClass
        rw [sourceSuits.bank]
        simp [ValueType.regClass, float]
      simp [Instruction.encode, float, vector, sourceVector, bind, Except.bind, pure,
        Except.pure]
    · have sourceGeneral : source.isGp = true := by
        apply Register.isGp_of_regClass sourceSuits.machine
        rw [sourceSuits.bank]
        simp [ValueType.regClass, integer]
      simp [Instruction.encode, Instruction.needInteger, integer, whole, general,
        sourceGeneral, bind, Except.bind, pure, Except.pure]
  · cases float : type.isFloat <;> simp [Processor.step, copied, float]

theorem constBits_i64 (value : Int32) :
    (Slot.constBits .i64 value).toBitVec = value.toBitVec.signExtend 64 := by
  simp [Slot.constBits]

theorem constBits_i32 (value : Int32) :
    (Slot.constBits .i32 value).toBitVec = value.toBitVec.setWidth 64 := by
  simp [Slot.constBits]

theorem setWidth_signExtend (value : BitVec 32) :
    (value.signExtend 64).setWidth 32 = value := by
  apply BitVec.eq_of_getLsbD_eq
  intro index small
  have wide : index < 64 := by omega
  rw [BitVec.getLsbD_setWidth, BitVec.getLsbD_signExtend]
  simp [small, wide]

theorem low_constBits (type : ValueType) (value : Int32) :
    (Slot.constBits type value).toUInt32.toInt32 = value := by
  unfold Slot.constBits
  split
  · apply Int32.toBitVec_inj.mp
    simpa using setWidth_signExtend value.toBitVec
  · simp

theorem constBits_i64_fits (value : Int32) :
    fitsInt32 (Slot.constBits .i64 value).toInt64.toInt = true := by
  have whole : (Slot.constBits .i64 value).toInt64 = value.toInt64 := by
    simp [Slot.constBits]
  have low := value.le_toInt
  have high := value.toInt_lt
  rw [whole, Int32.toInt_toInt64]
  simp only [fitsInt32, Bool.and_eq_true, decide_eq_true_eq]
  omega

/-- The immediate of a constant, extended with its sign, has the bits of the
constant in the width of its type. -/
theorem clip_signExtend_const (integer : type.isInteger = true) (value : Int32) :
    type.clip (BitVec.ofInt 64 value.toInt) =
      type.clip (Slot.constBits type value).toBitVec := by
  change type.clip (value.toBitVec.signExtend 64) = _
  cases type with
  | f32 | f64 | unknown code => cases integer
  | i64 => rw [constBits_i64]
  | i32 =>
    rw [constBits_i32]
    change ((value.toBitVec.signExtend 64).setWidth 32).setWidth 64 =
      ((value.toBitVec.setWidth 64).setWidth 32).setWidth 64
    rw [setWidth_signExtend]
    simp

theorem spillConstant_eq (integer : type.isInteger = true) (value : Int32) (place : Int) :
    spillConstant type place (Slot.constBits type value) =
      [.emit (.storeImm type (.slot place) value)] := by
  cases type with
  | f32 | f64 | unknown code => cases integer
  | i32 => simp [spillConstant, low_constBits]
  | i64 => simp [spillConstant, low_constBits, constBits_i64_fits]

theorem spillConstant_runs (integer : type.isInteger = true) (small : index < frameLimit)
    (value : Int32) (machine : Processor) :
    ∃ instructions stored,
      Runs (spillConstant type index (Slot.constBits type value)) machine
        (machine.store type (machine.slotAt index) stored) instructions ∧
      type.clip stored = type.clip (Slot.constBits type value).toBitVec := by
  rw [spillConstant_eq integer]
  refine ⟨_, BitVec.ofInt 64 value.toInt, .one ?_ ?_, clip_signExtend_const integer value⟩
  · simp [Instruction.encode, Instruction.needInteger, integer, OpcodeForm.withAddress,
      Address.encode_slot, bind, Except.bind, pure, Except.pure]
  · simp [Processor.step, machine.effective_slot small]

theorem clip_i32_mask (value : BitVec 64) :
    ValueType.i32.clip (value &&& 0xffffffff#64) = ValueType.i32.clip value := by
  have ones : 0xffffffff#64 = (BitVec.allOnes 32).setWidth 64 := by decide
  apply BitVec.eq_of_getLsbD_eq
  intro index small
  rw [ones, ValueType.clip, ValueType.clip, getLsbD_narrow, getLsbD_narrow,
    BitVec.getLsbD_and, BitVec.getLsbD_setWidth, BitVec.getLsbD_allOnes]
  by_cases low : index < 32
  · simp [small, low]
  · have out : ¬ index < 8 * ValueType.i32.size := low
    simp [out]

theorem loadConstant_runs (suits : Suits type reg) (integer : type.isInteger = true)
    (value : Int32) (machine : Processor) :
    ∃ instructions after,
      Runs (loadConstant type reg (Slot.constBits type value)) machine after instructions ∧
      after.memory = machine.memory ∧
      after.regs = (machine.setReg reg
        (type.clip (Slot.constBits type value).toBitVec)).regs := by
  have general : reg.isGp = true := by
    apply Register.isGp_of_regClass suits.machine
    rw [suits.bank]
    cases type <;> simp_all [ValueType.regClass, ValueType.isFloat, ValueType.isInteger]
  have byInteger : loadConstant type reg (Slot.constBits type value) =
      loadInteger type reg (Slot.constBits type value) := by
    cases type <;> simp_all [loadConstant, ValueType.isInteger]
  rw [byInteger, loadInteger]
  by_cases zero : Slot.constBits type value = 0
  · have cleared : type.clip (Slot.constBits type value).toBitVec = 0 := by
      rw [zero]
      simp [ValueType.clip, narrow]
    rw [if_pos zero, cleared]
    refine ⟨[.alu .xor .i32 reg reg],
      { machine.setReg reg 0 with flags := Processor.logicFlags .i32 0 }, .one ?_ ?_, rfl, rfl⟩
    · simp [Instruction.encode, Instruction.needInteger, ValueType.isInteger, general, bind,
        Except.bind, pure, Except.pure]
    · simp [Processor.step, ValueType.clip, narrow]
  · rw [if_neg zero]
    obtain ⟨imm, steps, value⟩ : ∃ imm : Int64,
        (if type = .i32 then
          [Step.emit (.movImm type reg
            (Slot.constBits type value &&& 0xffffffff).toInt64)]
        else [Step.emit (.movImm type reg (Slot.constBits type value).toInt64)]) =
          [Step.emit (.movImm type reg imm)] ∧
        type.clip imm.toBitVec = type.clip (Slot.constBits type value).toBitVec := by
      split
      case isTrue narrowed =>
        subst narrowed
        exact ⟨_, rfl, clip_i32_mask _⟩
      case isFalse => exact ⟨_, rfl, rfl⟩
    rw [steps, ← value]
    refine ⟨_, machine.setReg reg (type.clip imm.toBitVec), .one ?_ rfl, rfl, rfl⟩
    cases type with
    | f32 | f64 | unknown code => cases integer
    | i32 | i64 =>
      simp [Instruction.encode, Instruction.needInteger, ValueType.isInteger, general, bind,
        Except.bind, pure, Except.pure]

end Sequence

end WasmX64
