import WasmX64.Proofs.Processor.Stack
import WasmX64.Proofs.Sequence.Moves

/-!
# Lanes of vector registers

Comparing and shifting the lanes of a vector register, of which the low quadword is modelled:
two lanes of 32 bits, or one of 64.  Constants of every type are loaded this way or through the
scratch register.
-/

namespace WasmX64

/-- The lanes of a quadword, each shifted by a number of bits. -/
def shiftedLanes (left : Bool) (type : ValueType) (value : BitVec 64) (count : Nat) :
    BitVec 64 :=
  if type = .f64 then if left then value <<< count else value >>> count
  else
    let shifted (lane : BitVec 32) := if left then lane <<< count else lane >>> count
    shifted (value.extractLsb' 32 32) ++ shifted (value.setWidth 32)

/-- All ones in the lanes of 32 bits on which two quadwords agree. -/
def agreeingLanes (left right : BitVec 64) : BitVec 64 :=
  let compared (first second : BitVec 32) : BitVec 32 := if first = second then -1 else 0
  compared (left.extractLsb' 32 32) (right.extractLsb' 32 32) ++
    compared (left.setWidth 32) (right.setWidth 32)

theorem agreeingLanes_self (value : BitVec 64) : agreeingLanes value value = BitVec.allOnes 64 := by
  simp only [agreeingLanes, if_true]
  decide

theorem shiftedLanes_low (left : Bool) {type : ValueType} (narrow : type ≠ .f64)
    (value : BitVec 64) (count : Nat) :
    (shiftedLanes left type value count).setWidth 32 =
      if left then value.setWidth 32 <<< count else value.setWidth 32 >>> count := by
  rw [shiftedLanes, if_neg narrow]
  exact BitVec.setWidth_append_eq_right

namespace Processor

/-- Runs one instruction; the lanes of a vector register may be compared and shifted. -/
def operate (machine : Processor) : Instruction → Option Processor
  | .equalLanes dst src =>
    some (machine.setReg dst (agreeingLanes (machine.regs dst) (machine.regs src)))
  | .shiftLanes left type reg count =>
    some (machine.setReg reg (shiftedLanes left type (machine.regs reg) count.toNat))
  | instruction => machine.act instruction

/-- Runs instructions one after the other. -/
def operates (machine : Processor) : List Instruction → Option Processor
  | [] => some machine
  | instruction :: rest => (machine.operate instruction).bind fun next => next.operates rest

theorem operates_append (machine : Processor) (first second : List Instruction) :
    machine.operates (first ++ second) =
      (machine.operates first).bind fun next => next.operates second := by
  induction first generalizing machine with
  | nil => rfl
  | cons instruction rest ih =>
    rw [List.cons_append, operates, operates]
    cases machine.operate instruction with
    | none => rfl
    | some next => exact ih next

theorem operate_of_step {machine next : Processor} {instruction : Instruction}
    (steps : machine.step instruction = some next) : machine.operate instruction = some next := by
  cases instruction
  case equalLanes => cases steps
  case shiftLanes => cases steps
  all_goals exact act_of_execute (execute_of_step steps)

theorem operates_of_run {machine next : Processor} {instructions : List Instruction}
    (runs : machine.run instructions = some next) : machine.operates instructions = some next := by
  induction instructions generalizing machine with
  | nil => exact runs
  | cons instruction rest ih =>
    rw [run] at runs
    obtain ⟨middle, first, others⟩ := Option.bind_eq_some_iff.mp runs
    rw [operates, operate_of_step first]
    exact ih others

end Processor

theorem ValueType.not_isInteger {type : ValueType} (float : type.isFloat = true) :
    ¬ type.isInteger = true := by
  cases type with
  | i32 | i64 | unknown => cases float
  | f32 | f64 => exact Bool.false_ne_true

namespace Sequence

theorem trailingZeros_spec (fuel bits : Nat) :
    bits >>> trailingZeros fuel bits * 2 ^ trailingZeros fuel bits = bits := by
  induction fuel generalizing bits with
  | zero => simp [trailingZeros]
  | succ fuel ih =>
    rw [trailingZeros]
    split
    · simp
    · rename_i even
      have half := ih (bits / 2)
      rw [Nat.shiftRight_eq_div_pow, Nat.pow_succ, Nat.mul_comm (2 ^ _) 2, ← Nat.div_div_eq_div_mul,
        ← Nat.shiftRight_eq_div_pow, ← Nat.mul_assoc, Nat.mul_right_comm, half]
      omega

/-- Ones side by side, with none above them and zeros below. -/
theorem isRun_spec {bits : Nat} (positive : bits ≠ 0) (run : isRun bits = true) :
    trailingZeros 64 bits ≤ bits.log2 ∧
      bits = (2 ^ (bits.log2 + 1 - trailingZeros 64 bits) - 1) * 2 ^ trailingZeros 64 bits := by
  have whole := trailingZeros_spec 64 bits
  unfold isRun at run
  generalize trailingZeros 64 bits = low at run whole ⊢
  generalize bits >>> low = body at run whole
  have body_ne : body ≠ 0 := by
    rintro rfl
    omega
  -- A number and its successor share their highest one unless the successor is a power of two.
  have full : body + 1 = 2 ^ (body.log2 + 1) := by
    by_contra different
    have below : body + 1 < 2 ^ (body.log2 + 1) :=
      Nat.lt_of_le_of_ne Nat.lt_log2_self different
    have least := Nat.log2_self_le body_ne
    have shared : (body &&& (body + 1)).testBit body.log2 = true := by
      rw [Nat.testBit_and, Nat.testBit_of_two_pow_le_and_two_pow_add_one_gt least (by omega),
        Nat.testBit_of_two_pow_le_and_two_pow_add_one_gt (by omega) below]
      rfl
    rw [show body &&& (body + 1) = 0 by simpa using run] at shared
    simp at shared
  have top : bits.log2 = body.log2 + low := by
    rw [Nat.log2_eq_iff positive, ← whole]
    have least := Nat.log2_self_le body_ne
    have most := @Nat.lt_log2_self body
    rw [Nat.pow_add, show body.log2 + low + 1 = body.log2 + 1 + low by omega, Nat.pow_add]
    exact ⟨Nat.mul_le_mul_right _ least, Nat.mul_lt_mul_of_pos_right most (Nat.two_pow_pos low)⟩
  refine ⟨by omega, ?_⟩
  rw [top, show body.log2 + low + 1 - low = body.log2 + 1 by omega, ← full, Nat.add_sub_cancel]
  exact whole.symm

/-- All ones, shifted to both ends, are the run between.  Ones that go down to the low end need
no shift to the left. -/
theorem shifted_ones {width bits : Nat} (small : bits < 2 ^ width) (positive : bits ≠ 0)
    (run : isRun bits = true) :
    let low := trailingZeros 64 bits
    let high := width - 1 - bits.log2
    (BitVec.allOnes width <<< (if low = 0 then 0 else low + high)) >>>
      (if high = 0 then 0 else high) = BitVec.ofNat width bits := by
  obtain ⟨low, whole⟩ := isRun_spec positive run
  have top : bits.log2 < width := (Nat.log2_lt positive).mpr small
  apply BitVec.eq_of_getLsbD_eq
  intro index inside
  have bit : bits.testBit index =
      (decide (trailingZeros 64 bits ≤ index) && decide (index ≤ bits.log2)) := by
    conv_lhs => rw [whole]
    rw [Nat.testBit_mul_two_pow, Nat.testBit_two_pow_sub_one]
    by_cases above : trailingZeros 64 bits ≤ index
    · simp only [above, decide_true, Bool.true_and, decide_eq_decide]
      omega
    · simp [above]
  have shift : (if width - 1 - bits.log2 = 0 then 0 else width - 1 - bits.log2) =
      width - 1 - bits.log2 := by
    split <;> omega
  rw [BitVec.getLsbD_ofNat, bit, shift, BitVec.getLsbD_ushiftRight, BitVec.getLsbD_shiftLeft,
    BitVec.getLsbD_allOnes]
  generalize trailingZeros 64 bits = least at low ⊢
  rw [Bool.eq_iff_iff]
  simp only [Bool.and_eq_true, Bool.not_eq_true', decide_eq_true_eq, decide_eq_false_iff_not]
  split <;> omega

variable {type : ValueType} {reg : Register}

/-- Straight-line steps that take one machine state to another; lanes may be compared and
shifted. -/
structure Operates (steps : List Step) (before after : Processor)
    (instructions : List Instruction) : Prop where
  steps : steps = instructions.map Step.emit
  encodes : ∃ bytes, Instruction.encodeAll instructions = .ok bytes
  operates : before.operates instructions = some after

theorem Operates.of_runs {steps : List Step} {before after : Processor}
    {instructions : List Instruction} (runs : Runs steps before after instructions) :
    Operates steps before after instructions :=
  ⟨runs.steps, runs.encodes, Processor.operates_of_run runs.runs⟩

/-- What loading the bits of a value into a register leaves: the bits in the width of the type,
alone in the register if it is an integer, and all else as it was but the scratch register for a
float. -/
structure Loaded (type : ValueType) (reg : Register) (bits : UInt64) (before after : Processor) :
    Prop where
  value : type.clip (after.regs reg) = type.clip bits.toBitVec
  whole : type.isInteger = true → after.regs reg = type.clip bits.toBitVec
  memory : after.memory = before.memory
  others : ∀ other, other ≠ reg → (type.isFloat = true → other ≠ .r10) →
    after.regs other = before.regs other

theorem loadInteger_operates (suits : Suits type reg) (integer : type.isInteger = true)
    (bits : UInt64) (machine : Processor) :
    ∃ instructions after, Operates (loadInteger type reg bits) machine after instructions ∧
      Loaded type reg bits machine after := by
  have general : reg.isGp = true := by
    rcases suits.cases with ⟨float, _⟩ | ⟨_, _, general⟩
    · cases type <;> simp_all [ValueType.isFloat, ValueType.isInteger]
    · exact general
  unfold loadInteger
  split
  · rename_i zero
    subst zero
    refine ⟨[.alu .xor .i32 reg reg],
      { machine.setReg reg 0 with flags := Processor.logicFlags .i32 0 },
      ⟨rfl, ?_, Processor.operates_of_run ?_⟩, congrArg type.clip (if_pos rfl),
      fun _ => (if_pos rfl).trans (by simp [ValueType.clip, narrow]), rfl,
      fun other different _ => if_neg different⟩
    · apply encodeAll_singleton
      simp [Instruction.encode, Instruction.needInteger, ValueType.isInteger,
        Instruction.needGp, general, bind, Except.bind, pure, Except.pure]
    · simp [Processor.run, Processor.step, ValueType.clip, narrow]
  · have loads : ∀ imm : Int64, type.clip imm.toBitVec = type.clip bits.toBitVec →
        ∃ instructions after, Operates [.emit (.movImm type reg imm)] machine after instructions ∧
          Loaded type reg bits machine after := by
      intro imm same
      refine ⟨[.movImm type reg imm], machine.setReg reg (type.clip imm.toBitVec),
        ⟨rfl, ?_, rfl⟩, ?_, fun _ => (if_pos rfl).trans same, rfl,
        fun other different _ => if_neg different⟩
      · apply encodeAll_singleton
        cases type with
        | f32 | f64 | unknown code => cases integer
        | i32 | i64 =>
          simp [Instruction.encode, Instruction.needInteger, ValueType.isInteger,
            Instruction.needGp, general, bind, Except.bind, pure, Except.pure]
      · rw [Processor.regs_setReg, if_pos rfl, type.clip_clip, same]
    split
    · rename_i narrow
      subst narrow
      exact loads _ (clip_i32_mask bits.toBitVec)
    · exact loads _ rfl

theorem Operates.append {first second : List Step} {before middle after : Processor}
    {front back : List Instruction} (left : Operates first before middle front)
    (right : Operates second middle after back) :
    Operates (first ++ second) before after (front ++ back) := by
  refine ⟨?_, ?_, ?_⟩
  · rw [left.steps, right.steps, List.map_append]
  · obtain ⟨bytes, encodes⟩ := left.encodes
    obtain ⟨more, also⟩ := right.encodes
    exact ⟨bytes ++ more, Instruction.encodeAll_append encodes also⟩
  · rw [Processor.operates_append, left.operates]
    exact right.operates

theorem shiftLane_operates (left : Bool) (float : type.isFloat = true) (vector : reg.isFp = true)
    (skip : Prop) [Decidable skip] (count : Nat) (few : count < 256) (machine : Processor) :
    ∃ instructions value, Operates
        (if skip then [] else [.emit (.shiftLanes left type reg (.ofNat count))]) machine
        (machine.setReg reg value) instructions ∧
      type.word value = if left then type.word (machine.regs reg) <<< (if skip then 0 else count)
        else type.word (machine.regs reg) >>> (if skip then 0 else count) := by
  by_cases skipped : skip
  · simp only [if_pos skipped]
    refine ⟨[], machine.regs reg, ⟨rfl, ⟨[], rfl⟩, ?_⟩, by simp⟩
    have same : machine.setReg reg (machine.regs reg) = machine := by
      simp only [Processor.setReg]
      congr 1
      funext other
      split
      · rename_i equality
        rw [equality]
      · rfl
    rw [same]
    rfl
  · simp only [if_neg skipped]
    refine ⟨[.shiftLanes left type reg (.ofNat count)], _, ⟨rfl, ?_, rfl⟩, ?_⟩
    · apply encodeAll_singleton
      simp [Instruction.encode, Instruction.needFloat, Instruction.needFp, float, vector, bind,
        Except.bind, pure, Except.pure]
    · have same : (UInt8.ofNat count).toNat = count := UInt8.toNat_ofNat_of_lt few
      rw [same]
      cases type with
      | i32 | i64 | unknown code => cases float
      | f32 => exact shiftedLanes_low left (by decide) _ _
      | f64 =>
        change (shiftedLanes left .f64 (machine.regs reg) count).setWidth 64 = _
        rw [BitVec.setWidth_eq, shiftedLanes, if_pos rfl]
        simp only [ValueType.word, ValueType.bits]
        rfl

theorem loadRun_operates (float : type.isFloat = true) (vector : reg.isFp = true) {bits : Nat}
    (small : bits < 2 ^ type.bits) (positive : bits ≠ 0) (run : isRun bits = true)
    (machine : Processor) :
    ∃ instructions after, Operates (loadRun type reg bits) machine after instructions ∧
      Loaded type reg (.ofNat bits) machine after := by
  have wide := type.bits_le
  have top : bits.log2 < type.bits := (Nat.log2_lt positive).mpr small
  have low := (isRun_spec positive run).1
  have ones : Operates [.emit (.equalLanes reg reg)] machine
      (machine.setReg reg (BitVec.allOnes 64)) [.equalLanes reg reg] := by
    refine ⟨rfl, encodeAll_singleton ?_, ?_⟩
    · simp [Instruction.encode, Instruction.needFp, vector, bind, Except.bind, pure, Except.pure]
    · simp [Processor.operates, Processor.operate, agreeingLanes_self]
  obtain ⟨_, first, left, leftValue⟩ := shiftLane_operates true float vector
    (trailingZeros 64 bits = 0) (trailingZeros 64 bits + (type.bits - 1 - bits.log2)) (by omega)
    (machine.setReg reg (BitVec.allOnes 64))
  obtain ⟨_, second, right, rightValue⟩ := shiftLane_operates false float vector
    (type.bits - 1 - bits.log2 = 0) (type.bits - 1 - bits.log2) (by omega)
    ((machine.setReg reg (BitVec.allOnes 64)).setReg reg first)
  refine ⟨_, _, (ones.append left).append right, ?_,
    fun integer => absurd integer (ValueType.not_isInteger float), rfl,
    fun other different _ => ?_⟩
  · have full : type.word (BitVec.allOnes 64) = BitVec.allOnes type.bits := by
      apply BitVec.eq_of_getLsbD_eq
      intro index inside
      have below : index < 64 := by omega
      rw [ValueType.word, BitVec.getLsbD_setWidth, BitVec.getLsbD_allOnes, BitVec.getLsbD_allOnes]
      simp only [inside, below, decide_true, Bool.and_true]
    have narrow : type.word (UInt64.ofNat bits).toBitVec = BitVec.ofNat type.bits bits := by
      apply BitVec.eq_of_toNat_eq
      have few : bits < 2 ^ 64 := Nat.lt_of_lt_of_le small (Nat.pow_le_pow_right (by omega) wide)
      rw [ValueType.word, BitVec.toNat_setWidth, BitVec.toNat_ofNat, UInt64.toNat_toBitVec,
        UInt64.toNat_ofNat', Nat.mod_eq_of_lt few]
    rw [Processor.regs_setReg, if_pos rfl, type.clip_eq, type.clip_eq, rightValue, narrow]
    simp only [Processor.regs_setReg, if_true, leftValue, full, Bool.false_eq_true, if_false]
    rw [shifted_ones small positive run]
  · simp only [Processor.regs_setReg, if_neg different]

theorem loadThrough_operates {word : ValueType} (vector : reg.isFp = true)
    (float : type.isFloat = true) (integer : word.isInteger = true) (same : word.size = type.size)
    (bits : UInt64) (machine : Processor) :
    ∃ instructions after, Operates [.emit (.movImm word .r10 bits.toInt64),
        .emit (.movToFp word reg .r10)] machine after instructions ∧
      Loaded type reg bits machine after := by
  have apart : ¬ Register.r10 = reg := by
    rintro rfl
    cases vector
  refine ⟨[.movImm word .r10 bits.toInt64, .movToFp word reg .r10],
    (machine.setReg .r10 (word.clip bits.toBitVec)).setReg reg
      (word.clip ((machine.setReg .r10 (word.clip bits.toBitVec)).regs .r10)),
    ⟨rfl, ?_, rfl⟩, ?_, fun integer => absurd integer (ValueType.not_isInteger float), rfl,
    fun other different scratch => ?_⟩
  · have first : ∃ bytes, (Instruction.movImm word .r10 bits.toInt64).encode = .ok bytes := by
      cases word with
      | f32 | f64 | unknown code => cases integer
      | i32 | i64 => exact ⟨_, rfl⟩
    have second : ∃ bytes, (Instruction.movToFp word reg .r10).encode = .ok bytes := by
      simp [Instruction.encode, Instruction.needInteger, Instruction.needFp, Instruction.needGp,
        integer, vector, bind, Except.bind, pure, Except.pure,
        show Register.r10.isGp = true from rfl]
    obtain ⟨bytes, encodes⟩ := first
    obtain ⟨more, also⟩ := encodeAll_singleton second
    exact ⟨bytes ++ more, Instruction.encodeAll_cons encodes also⟩
  · simp only [Processor.regs_setReg, if_true, ValueType.clip, same, narrow_narrow (Nat.le_refl _)]
  · simp only [Processor.regs_setReg, if_neg different, if_neg (scratch float)]

theorem loadFloat_operates (type word : ValueType) (vector : reg.isFp = true)
    (float : type.isFloat = true) (integer : word.isInteger = true) (same : word.size = type.size)
    {bits : UInt64} (small : bits.toNat < 2 ^ type.bits) (machine : Processor) :
    ∃ instructions after, Operates (loadFloat type word reg bits) machine after instructions ∧
      Loaded type reg bits machine after := by
  unfold loadFloat
  split
  · rename_i zero
    subst zero
    refine ⟨[.logic .xor type reg reg], machine.setReg reg 0, ⟨rfl, encodeAll_singleton ?_, ?_⟩,
      congrArg type.clip (if_pos rfl),
      fun integer => absurd integer (ValueType.not_isInteger float), rfl,
      fun other different _ => if_neg different⟩
    · simp [Instruction.encode, Instruction.needFloat, Instruction.needFp, float, vector, bind,
        Except.bind, pure, Except.pure]
    · simp [Processor.operates, Processor.operate, Processor.act, Processor.perform,
        Processor.execute]
  · rename_i positive
    split
    · rename_i run
      have whole : UInt64.ofNat bits.toNat = bits := UInt64.ofNat_toNat
      have loads := loadRun_operates float vector small
        (fun zero => positive (UInt64.toNat_inj.mp zero)) run machine
      rw [whole] at loads
      exact loads
    · exact loadThrough_operates vector float integer same bits machine

theorem loadConstant_operates (suits : Suits type reg) (bits : UInt64) (machine : Processor) :
    ∃ instructions after, Operates (loadConstant type reg bits) machine after instructions ∧
      Loaded type reg bits machine after := by
  cases type with
  | unknown code => exact absurd suits.valid (by simp [ValueType.isValid])
  | i32 => exact loadInteger_operates suits rfl bits machine
  | i64 => exact loadInteger_operates suits rfl bits machine
  | f32 =>
    have vector := Register.isFp_of_regClass suits.bank
    have small : (bits &&& 0xffffffff).toNat < 2 ^ ValueType.f32.bits := by
      rw [UInt64.toNat_and]
      exact Nat.lt_of_le_of_lt Nat.and_le_right (by decide)
    obtain ⟨instructions, after, operates, loaded⟩ :=
      loadFloat_operates .f32 .i32 vector rfl rfl rfl small machine
    refine ⟨instructions, after, operates, ?_, fun integer => absurd integer (by decide),
      loaded.memory, loaded.others⟩
    rw [loaded.value]
    exact clip_i32_mask bits.toBitVec
  | f64 =>
    exact loadFloat_operates .f64 .i64 (Register.isFp_of_regClass suits.bank) rfl rfl rfl
      (UInt64.toNat_lt bits) machine

/-! ## Constants in frame slots -/

theorem clip_low_signExtend (bits : UInt64) :
    ValueType.i32.clip (BitVec.ofInt 64 bits.toUInt32.toInt32.toInt) =
      ValueType.i32.clip bits.toBitVec := by
  change (((bits.toBitVec.setWidth 32).signExtend 64).setWidth 32).setWidth 64 = _
  rw [setWidth_signExtend]
  rfl

theorem low_of_fits {bits : UInt64} (fits : fitsInt32 bits.toInt64.toInt = true) :
    BitVec.ofInt 64 bits.toUInt32.toInt32.toInt = bits.toBitVec := by
  simp only [fitsInt32, Bool.and_eq_true, decide_eq_true_eq] at fits
  have range : -2147483648 ≤ bits.toBitVec.toInt ∧ bits.toBitVec.toInt ≤ 2147483647 := fits
  change BitVec.ofInt 64 (bits.toBitVec.setWidth 32).toInt = bits.toBitVec
  have low : (bits.toBitVec.setWidth 32).toInt = bits.toBitVec.toInt := by
    rw [BitVec.toInt_setWidth, ← Int.bmod_bmod_of_dvd (show 2 ^ 32 ∣ 2 ^ 64 by decide),
      ← BitVec.toInt_eq_toNat_bmod]
    exact Int.bmod_eq_of_le (by omega) (by omega)
  rw [low, BitVec.ofInt_toInt]

/-- Storing the bits of an integer constant changes its slot only, and the scratch register if the
bits are no number of 32 bits. -/
theorem spillConstant_operates {index : Nat} (integer : type.isInteger = true)
    (small : index < frameLimit) (bits : UInt64) (machine : Processor) :
    ∃ instructions after, Operates (spillConstant type index bits) machine after instructions ∧
      after.memory = (machine.store type (machine.slotAt index) bits.toBitVec).memory ∧
      ∀ other, other ≠ .r10 → after.regs other = machine.regs other := by
  have immediate (value : Int32)
      (same : type.clip (BitVec.ofInt 64 value.toInt) = type.clip bits.toBitVec) :
      ∃ instructions after, Operates [.emit (.storeImm type (.slot index) value)] machine after
          instructions ∧
        after.memory = (machine.store type (machine.slotAt index) bits.toBitVec).memory ∧
        ∀ other, other ≠ .r10 → after.regs other = machine.regs other := by
    refine ⟨[.storeImm type (.slot index) value],
      machine.store type (machine.slotAt index) (BitVec.ofInt 64 value.toInt),
      ⟨rfl, encodeAll_singleton ?_, Processor.operates_of_run ?_⟩,
      machine.memory.write_congr _ same, fun _ _ => rfl⟩
    · simp [Instruction.encode, Instruction.needInteger, integer, OpcodeForm.withAddress,
        Address.encode_slot, bind, Except.bind, pure, Except.pure]
    · simp [Processor.run, Processor.step, machine.effective_slot small]
  cases type with
  | f32 | f64 | unknown => cases integer
  | i32 => exact immediate _ (clip_low_signExtend bits)
  | i64 =>
    unfold spillConstant
    dsimp only
    split
    · rename_i fits
      exact immediate _ (congrArg ValueType.i64.clip (low_of_fits fits))
    · let held := machine.setReg .r10 (ValueType.i64.clip bits.toInt64.toBitVec)
      have moves : ∃ bytes, (Instruction.movImm .i64 .r10 bits.toInt64).encode = .ok bytes :=
        ⟨_, rfl⟩
      have stores : ∃ bytes, (Instruction.store .i64 (.slot index) .r10).encode = .ok bytes := by
        simp [Instruction.encode, Instruction.needInteger, Instruction.needGp, integer,
          OpcodeForm.withAddress, Address.encode_slot, bind, Except.bind,
          show Register.r10.isGp = true from rfl]
      obtain ⟨bytes, encodes⟩ := moves
      obtain ⟨more, also⟩ := encodeAll_singleton stores
      refine ⟨[.movImm .i64 .r10 bits.toInt64, .store .i64 (.slot index) .r10],
        held.store .i64 (held.slotAt index) (held.regs .r10),
        ⟨rfl, ⟨_, Instruction.encodeAll_cons encodes also⟩, Processor.operates_of_run ?_⟩,
        machine.memory.write_congr _ (ValueType.i64.clip_clip _), fun other apart => if_neg apart⟩
      simp [Processor.run, Processor.step, held, Processor.effective_slot _ small]

end Sequence

end WasmX64
