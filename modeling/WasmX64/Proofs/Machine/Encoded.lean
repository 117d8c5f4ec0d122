import WasmX64.Proofs.Code.Jump
import WasmX64.Proofs.Machine.Integers

/-!
# Emitted bytes decode to what was asked

Floating-point instructions, in the scalar and packed forms and in the moves and conversions between
the two banks, decode to what was asked, and with the integer instructions so does whatever is
emitted.
-/

namespace WasmX64

open Decode

namespace Instruction

section Vectors

variable {form : OpcodeForm} {reg : UInt8} {type : ValueType}

theorem means_scalar (opcode : UInt8) (operation : Precision → Operation)
    (kinds : Precision → List Kind) (float : type.isFloat = true) {wide : Bool}
    (plain : opcode ≠ 0x38 ∧ opcode ≠ 0x3a) (small : reg.toNat < 16)
    (found : ∀ precision, lookup ⟨false, some (if precision = .double then 0xf2 else 0xf3)⟩ wide
      .two opcode (reg &&& 7) = some (operation precision, kinds precision))
    (uses : ∀ precision, (kinds precision).any Kind.usesFields = true) :
    OpcodeForm.Means { legacy := some (scalarByte type), wide, opcode := [0x0f, opcode] } reg
      (operation (.ofType type)) (kinds (.ofType type)) := by
  cases type with
  | f32 => exact ⟨small, ⟨_, _, OpcodeForm.stands_two rfl (by simp [scalarByte]) plain,
      found .single⟩, uses _⟩
  | f64 => exact ⟨small, ⟨_, _, OpcodeForm.stands_two rfl (by simp [scalarByte]) plain,
      found .double⟩, uses _⟩
  | i32 => simp [ValueType.isFloat] at float
  | i64 => simp [ValueType.isFloat] at float
  | unknown code => simp [ValueType.isFloat] at float

theorem means_packed (opcode : UInt8) (operation : Precision → Operation)
    (kinds : Precision → List Kind) (float : type.isFloat = true)
    (plain : opcode ≠ 0x38 ∧ opcode ≠ 0x3a) (small : reg.toNat < 16)
    (found : ∀ precision, lookup ⟨precision = .double, none⟩ false .two opcode (reg &&& 7) =
      some (operation precision, kinds precision))
    (uses : ∀ precision, (kinds precision).any Kind.usesFields = true) :
    OpcodeForm.Means { legacy := packedByte? type, opcode := [0x0f, opcode] } reg
      (operation (.ofType type)) (kinds (.ofType type)) := by
  cases type with
  | f32 => exact ⟨small, ⟨_, _, OpcodeForm.stands_two rfl (by simp [packedByte?]) plain,
      found .single⟩, uses _⟩
  | f64 => exact ⟨small, ⟨_, _, OpcodeForm.stands_two rfl (by simp [packedByte?]) plain,
      found .double⟩, uses _⟩
  | i32 => simp [ValueType.isFloat] at float
  | i64 => simp [ValueType.isFloat] at float
  | unknown code => simp [ValueType.isFloat] at float

theorem decodes_vectors {instruction : Instruction} {operation : Operation} {width : Width}
    {dst src : Register} (vectors : ∀ reg ∈ [dst, src], reg.isFp = true)
    (means : form.Means dst.bits4 operation [.vectorReg, .vectorRm width])
    (encoded : instruction.encode = .ok (form.withReg dst.bits4 src)) :
    instruction.Decodes ⟨operation, [.vector dst, .vector src]⟩ := by
  apply decodes_registers means encoded (fun _ => rfl)
  · exact fun _ _ => Kind.operand_vectorReg (vectors _ (.head _))
  · exact fun _ _ => Kind.operand_vectorRm (vectors _ (.tail _ (.head _)))

end Vectors

theorem mov_decodes {type : ValueType} {dst src : Register} {decoded : Decoded}
    (asks : (Instruction.mov type dst src).asked = some decoded)
    (valid : (Instruction.mov type dst src).Valid) :
    (Instruction.mov type dst src).Decodes decoded := by
  by_cases float : type.isFloat = true
  · rw [asked, if_pos float, Option.some.injEq] at asks
    rw [Valid, demands, if_pos float] at valid
    rw [← asks]
    apply decodes_vectors valid.vectors (means_packed 0x28 (fun precision => .moveAligned precision)
      (fun _ => [.vectorReg, .vectorRm .oword]) float (by decide) dst.bits4_lt _ (fun _ => rfl))
    · rw [encode, if_pos float]
      exact needFp_then valid.vectors
    · intro precision
      cases precision <;> rfl
  · rw [asked, if_neg float, Option.some.injEq] at asks
    rw [Valid, demands, if_neg float] at valid
    rw [← asks]
    apply decodes_rmReg valid.general (means_integer 0x89 (fun width => [.rm width, .reg width])
      (by decide) src.bits4_lt (fun _ => rfl) (fun _ => rfl))
    rw [encode, if_neg float]
    exact (needInteger_then (valid.integers _ (.head _))).trans (needGp_then valid.general)

/-! ## Arithmetic and logic -/

theorem sse_found {op : SseOp} {operation : Arithmetic} (named : op.operation? = some operation)
    (digit : UInt8) :
    (op.code ≠ 0x38 ∧ op.code ≠ 0x3a) ∧ ∀ precision,
      lookup ⟨false, some (if precision = .double then 0xf2 else 0xf3)⟩ false .two op.code digit =
        some (.arithmetic operation precision, [.vectorReg, .vectorRm precision.width]) := by
  have member := mem_of_lookup named
  simp only [List.mem_cons, Prod.mk.injEq, List.not_mem_nil, or_false] at member
  obtain ⟨rfl, rfl⟩ | ⟨rfl, rfl⟩ | ⟨rfl, rfl⟩ | ⟨rfl, rfl⟩ | ⟨rfl, rfl⟩ | ⟨rfl, rfl⟩ |
    ⟨rfl, rfl⟩ := member
  all_goals
    refine ⟨by decide, fun precision => ?_⟩
    cases precision <;> rfl

theorem sse_decodes {op : SseOp} {operation : Arithmetic} {type : ValueType}
    {dst src : Register} (named : op.operation? = some operation)
    (valid : (Instruction.sse op type dst src).Valid) :
    (Instruction.sse op type dst src).Decodes
      ⟨.arithmetic operation (.ofType type), [.vector dst, .vector src]⟩ := by
  obtain ⟨plain, found⟩ := sse_found named (dst.bits4 &&& 7)
  have float := valid.floats type (.head _)
  apply decodes_vectors valid.vectors (means_scalar op.code
    (fun precision => .arithmetic operation precision)
    (fun precision => [.vectorReg, .vectorRm precision.width]) float plain dst.bits4_lt found
    (fun _ => rfl))
  exact (needFloat_then float).trans (needFp_then valid.vectors)

theorem logic_found {op : LogicOp} {operation : Logic} (named : op.operation? = some operation)
    (digit : UInt8) :
    (op.code ≠ 0x38 ∧ op.code ≠ 0x3a) ∧ ∀ precision,
      lookup ⟨precision = .double, none⟩ false .two op.code digit =
        some (.logic operation precision, [.vectorReg, .vectorRm .oword]) := by
  have member := mem_of_lookup named
  simp only [List.mem_cons, Prod.mk.injEq, List.not_mem_nil, or_false] at member
  obtain ⟨rfl, rfl⟩ | ⟨rfl, rfl⟩ | ⟨rfl, rfl⟩ | ⟨rfl, rfl⟩ := member
  all_goals
    refine ⟨by decide, fun precision => ?_⟩
    cases precision <;> rfl

theorem logic_decodes {op : LogicOp} {operation : Logic} {type : ValueType}
    {dst src : Register} (named : op.operation? = some operation)
    (valid : (Instruction.logic op type dst src).Valid) :
    (Instruction.logic op type dst src).Decodes
      ⟨.logic operation (.ofType type), [.vector dst, .vector src]⟩ := by
  obtain ⟨plain, found⟩ := logic_found named (dst.bits4 &&& 7)
  have float := valid.floats type (.head _)
  apply decodes_vectors valid.vectors (means_packed op.code
    (fun precision => .logic operation precision)
    (fun _ => [.vectorReg, .vectorRm .oword]) float plain dst.bits4_lt found (fun _ => rfl))
  exact (needFloat_then float).trans (needFp_then valid.vectors)

theorem ucomis_decodes {type : ValueType} {left right : Register}
    (valid : (Instruction.ucomis type left right).Valid) :
    (Instruction.ucomis type left right).Decodes
      ⟨.compareScalar (.ofType type), [.vector left, .vector right]⟩ := by
  have float := valid.floats type (.head _)
  apply decodes_vectors valid.vectors (means_packed 0x2e (fun precision => .compareScalar precision)
    (fun precision => [.vectorReg, .vectorRm precision.width]) float (by decide) left.bits4_lt _
    (fun _ => rfl))
  · exact (needFloat_then float).trans (needFp_then valid.vectors)
  · intro precision
    cases precision <;> rfl

theorem round_decodes {type : ValueType} {dst src : Register} {mode : RoundMode}
    (declared : mode.isDeclared = true) (valid : (Instruction.round type dst src mode).Valid) :
    (Instruction.round type dst src mode).Decodes
      ⟨.round (.ofType type), [.vector dst, .vector src, .imm (8 + mode.code.toNat)]⟩ := by
  have float := valid.floats type (.head _)
  have stands : OpcodeForm.Stands
      { legacy := some 0x66, opcode := [0x0f, 0x3a, if type = .f64 then 0x0b else 0x0a] } .three
      (if type = .f64 then 0x0b else 0x0a) := OpcodeForm.stands_three rfl (by simp)
  have means : OpcodeForm.Means
      { legacy := some 0x66, opcode := [0x0f, 0x3a, if type = .f64 then 0x0b else 0x0a] }
      dst.bits4 (.round (.ofType type))
      [.vectorReg, .vectorRm (Precision.ofType type).width, .imm8] := by
    refine ⟨dst.bits4_lt, ⟨_, _, stands, ?_⟩, rfl⟩
    by_cases double : type = .f64
    · simp only [double]
      rfl
    · simp only [double, Precision.ofType]
      rfl
  have number : ((mode.code ||| 0x08).toNat : Int) = 8 + mode.code.toNat := by
    have all : ∀ mode ∈ [RoundMode.nearest, .down, .up, .towardZero],
        ((mode.code ||| 0x08).toNat : Int) = 8 + mode.code.toNat := by
      decide
    exact all mode (by simpa [RoundMode.isDeclared] using declared)
  have encoded : (Instruction.round type dst src mode).encode = .ok (OpcodeForm.withReg
      { legacy := some 0x66, opcode := [0x0f, 0x3a, if type = .f64 then 0x0b else 0x0a] }
      dst.bits4 src ++ [mode.code ||| 0x08]) :=
    (needFloat_then float).trans (needFp_then valid.vectors)
  apply decodes_of means (RmOperand.ofRegister_reads src) encoded
  · intro rest
    change some (((mode.code ||| 0x08).toNat : Int), rest) = _
    rw [number]
  · intro low
    have taken : ∀ rex low fields value, Kind.imm8.operand rex low fields value =
      some (.imm value) := fun _ _ _ _ => rfl
    simp [Kind.operand_vectorReg (valid.vectors dst (.head _)),
      Kind.operand_vectorRm (valid.vectors src (.tail _ (.head _))), taken]

theorem equalLanes_decodes {dst src : Register} (valid : (Instruction.equalLanes dst src).Valid) :
    (Instruction.equalLanes dst src).Decodes ⟨.equalLanes, [.vector dst, .vector src]⟩ := by
  have means : OpcodeForm.Means { legacy := some 0x66, opcode := [0x0f, 0x76] } dst.bits4
      .equalLanes [.vectorReg, .vectorRm .oword] :=
    ⟨dst.bits4_lt, ⟨_, _, OpcodeForm.stands_two rfl (by simp) (by decide), rfl⟩, rfl⟩
  exact decodes_vectors valid.vectors means (needFp_then valid.vectors)

theorem shiftLanes_decodes {left : Bool} {type : ValueType} {reg : Register} {imm : UInt8}
    (valid : (Instruction.shiftLanes left type reg imm).Valid) :
    (Instruction.shiftLanes left type reg imm).Decodes
      ⟨.shiftLanes left (.ofType type), [.vector reg, .imm imm.toNat]⟩ := by
  have float := valid.floats type (.head _)
  have means : OpcodeForm.Means
      { legacy := some 0x66, opcode := [0x0f, if type = .f64 then 0x73 else 0x72] }
      (if left then 6 else 2) (.shiftLanes left (.ofType type)) [.vectorOnly, .imm8] := by
    have stands := @OpcodeForm.stands_two
      { legacy := some 0x66, opcode := [0x0f, if type = .f64 then 0x73 else 0x72] } _ rfl
      (by simp)
    cases type with
    | f32 =>
      cases left with
      | false => exact ⟨by decide, ⟨_, _, stands (by decide), rfl⟩, rfl⟩
      | true => exact ⟨by decide, ⟨_, _, stands (by decide), rfl⟩, rfl⟩
    | f64 =>
      cases left with
      | false => exact ⟨by decide, ⟨_, _, stands (by decide), rfl⟩, rfl⟩
      | true => exact ⟨by decide, ⟨_, _, stands (by decide), rfl⟩, rfl⟩
    | i32 => simp [ValueType.isFloat] at float
    | i64 => simp [ValueType.isFloat] at float
    | unknown code => simp [ValueType.isFloat] at float
  have encoded : (Instruction.shiftLanes left type reg imm).encode = .ok (OpcodeForm.withReg
      { legacy := some 0x66, opcode := [0x0f, if type = .f64 then 0x73 else 0x72] }
      (if left then 6 else 2) reg ++ [imm]) :=
    (needFloat_then float).trans (needFp_then valid.vectors)
  apply decodes_registerImm means encoded
  · exact fun _ => rfl
  · exact fun _ _ => Kind.operand_vectorOnly (valid.vectors _ (.head _))
  · exact fun _ _ _ => rfl

/-! ## Loads, stores and conversions -/

theorem floatLoad_decodes {type : ValueType} {dst : Register} {src : Address}
    (valid : (Instruction.floatLoad type dst src).Valid) :
    (Instruction.floatLoad type dst src).Decodes
      ⟨.moveScalar (.ofType type),
        [.vector dst, .memory (Precision.ofType type).width src.normal]⟩ := by
  have float := valid.floats type (.head _)
  apply decodes_addresses (means_scalar 0x10 (fun precision => .moveScalar precision)
    (fun precision => [.vectorReg, .vectorRm precision.width]) float (by decide) dst.bits4_lt _
    (fun _ => rfl)) (valid.addresses _ (.head _))
  · exact (needFloat_then float).trans (needFp_then valid.vectors)
  · exact fun _ => rfl
  · exact fun _ _ => Kind.operand_vectorReg (valid.vectors _ (.head _))
  · exact fun _ _ => rfl
  · intro precision
    cases precision <;> rfl

theorem floatStore_decodes {type : ValueType} {dst : Address} {src : Register}
    (valid : (Instruction.floatStore type dst src).Valid) :
    (Instruction.floatStore type dst src).Decodes
      ⟨.moveScalar (.ofType type),
        [.memory (Precision.ofType type).width dst.normal, .vector src]⟩ := by
  have float := valid.floats type (.head _)
  apply decodes_addresses (means_scalar 0x11 (fun precision => .moveScalar precision)
    (fun precision => [.vectorRm precision.width, .vectorReg]) float (by decide) src.bits4_lt _
    (fun _ => rfl)) (valid.addresses _ (.head _))
  · exact (needFloat_then float).trans (needFp_then valid.vectors)
  · exact fun _ => rfl
  · exact fun _ _ => rfl
  · exact fun _ _ => Kind.operand_vectorReg (valid.vectors _ (.head _))
  · intro precision
    cases precision <;> rfl

theorem movToFp_decodes {type : ValueType} {dst src : Register}
    (valid : (Instruction.movToFp type dst src).Valid) :
    (Instruction.movToFp type dst src).Decodes
      ⟨.movd, [.vector dst, .reg (.ofType type) src]⟩ := by
  have stands : OpcodeForm.Stands
      { legacy := some 0x66, wide := type = .i64, opcode := [0x0f, 0x6e] } .two 0x6e :=
    OpcodeForm.stands_two rfl (by simp) (by decide)
  apply decodes_registers (means_width (fun width => [.vectorReg, .rm width]) stands rfl
    dst.bits4_lt _ (fun _ => rfl))
  · exact (needInteger_then (valid.integers _ (.head _))).trans
      ((needFp_then valid.vectors).trans (needGp_then valid.general))
  · exact fun _ => rfl
  · exact fun _ _ => Kind.operand_vectorReg (valid.vectors _ (.head _))
  · exact fun _ _ => Kind.operand_rm (Width.ofType_ne_byte type) (valid.general _ (.head _))
  · intro wide
    cases wide <;> rfl

theorem movFromFp_decodes {type : ValueType} {dst src : Register}
    (valid : (Instruction.movFromFp type dst src).Valid) :
    (Instruction.movFromFp type dst src).Decodes
      ⟨.movd, [.reg (.ofType type) dst, .vector src]⟩ := by
  have stands : OpcodeForm.Stands
      { legacy := some 0x66, wide := type = .i64, opcode := [0x0f, 0x7e] } .two 0x7e :=
    OpcodeForm.stands_two rfl (by simp) (by decide)
  apply decodes_registers (means_width (fun width => [.rm width, .vectorReg]) stands rfl
    src.bits4_lt _ (fun _ => rfl))
  · exact (needInteger_then (valid.integers _ (.head _))).trans
      ((needGp_then valid.general).trans (needFp_then valid.vectors))
  · exact fun _ => rfl
  · exact fun _ _ => Kind.operand_rm (Width.ofType_ne_byte type) (valid.general _ (.head _))
  · exact fun _ _ => Kind.operand_vectorReg (valid.vectors _ (.head _))
  · intro wide
    cases wide <;> rfl

theorem convertInt_decodes {target source : ValueType} {dst src : Register}
    (valid : (Instruction.convertInt target source dst src).Valid) :
    (Instruction.convertInt target source dst src).Decodes
      ⟨.fromInteger (.ofType target), [.vector dst, .reg (.ofType source) src]⟩ := by
  have float := valid.floats target (.head _)
  apply decodes_registers (means_scalar 0x2a (fun precision => .fromInteger precision)
    (fun _ => [.vectorReg, .rm (.ofType source)]) float (by decide) dst.bits4_lt _ (fun _ => rfl))
  · exact (needFloat_then float).trans ((needInteger_then (valid.integers _ (.head _))).trans
      ((needFp_then valid.vectors).trans (needGp_then valid.general)))
  · exact fun _ => rfl
  · exact fun _ _ => Kind.operand_vectorReg (valid.vectors _ (.head _))
  · exact fun _ _ => Kind.operand_rm (Width.ofType_ne_byte source) (valid.general _ (.head _))
  · intro precision
    rw [← operandWidth_integer]
    generalize decide (source = ValueType.i64) = wide
    cases precision <;> cases wide <;> rfl

theorem truncateFloat_decodes {target source : ValueType} {dst src : Register}
    (valid : (Instruction.truncateFloat target source dst src).Valid) :
    (Instruction.truncateFloat target source dst src).Decodes
      ⟨.truncate (.ofType source), [.reg (.ofType target) dst, .vector src]⟩ := by
  have float := valid.floats source (.head _)
  apply decodes_registers (means_scalar 0x2c (fun precision => .truncate precision)
    (fun precision => [.reg (.ofType target), .vectorRm precision.width]) float (by decide)
    dst.bits4_lt _ (fun _ => rfl))
  · exact (needInteger_then (valid.integers _ (.head _))).trans ((needFloat_then float).trans
      ((needGp_then valid.general).trans (needFp_then valid.vectors)))
  · exact fun _ => rfl
  · exact fun _ _ => Kind.operand_reg (Width.ofType_ne_byte target) (valid.general _ (.head _))
  · exact fun _ _ => Kind.operand_vectorRm (valid.vectors _ (.head _))
  · intro precision
    rw [← operandWidth_integer]
    generalize decide (target = ValueType.i64) = wide
    cases precision <;> cases wide <;> rfl

theorem singleToDouble_decodes {dst src : Register}
    (valid : (Instruction.singleToDouble dst src).Valid) :
    (Instruction.singleToDouble dst src).Decodes ⟨.widen, [.vector dst, .vector src]⟩ := by
  have means : OpcodeForm.Means { legacy := some 0xf3, opcode := [0x0f, 0x5a] } dst.bits4
      .widen [.vectorReg, .vectorRm .dword] :=
    ⟨dst.bits4_lt, ⟨_, _, OpcodeForm.stands_two rfl (by simp) (by decide), rfl⟩, rfl⟩
  exact decodes_vectors valid.vectors means (needFp_then valid.vectors)

theorem doubleToSingle_decodes {dst src : Register}
    (valid : (Instruction.doubleToSingle dst src).Valid) :
    (Instruction.doubleToSingle dst src).Decodes ⟨.narrow, [.vector dst, .vector src]⟩ := by
  have means : OpcodeForm.Means { legacy := some 0xf2, opcode := [0x0f, 0x5a] } dst.bits4
      .narrow [.vectorReg, .vectorRm .qword] :=
    ⟨dst.bits4_lt, ⟨_, _, OpcodeForm.stands_two rfl (by simp) (by decide), rfl⟩, rfl⟩
  exact decodes_vectors valid.vectors means (needFp_then valid.vectors)

theorem signBits_decodes {type : ValueType} {dst src : Register}
    (valid : (Instruction.signBits type dst src).Valid) :
    (Instruction.signBits type dst src).Decodes
      ⟨.signMask (.ofType type), [.reg .dword dst, .vector src]⟩ := by
  have float := valid.floats type (.head _)
  apply decodes_registers (means_packed 0x50 (fun precision => .signMask precision)
    (fun _ => [.reg .dword, .vectorOnly]) float (by decide) dst.bits4_lt _ (fun _ => rfl))
  · exact (needFloat_then float).trans
      ((needGp_then valid.general).trans (needFp_then valid.vectors))
  · exact fun _ => rfl
  · exact fun _ _ => Kind.operand_reg (by decide) (valid.general _ (.head _))
  · exact fun _ _ => Kind.operand_vectorOnly (valid.vectors _ (.head _))
  · intro precision
    cases precision <;> rfl

end Instruction

end WasmX64

/-!
## Emitted bytes decode to what was asked

An instruction that is emitted without an error appends bytes that decode, whatever follows
them, to the operation and operands that were asked for.  An instruction whose operands it
may not be given records an error and appends nothing.
-/

namespace WasmX64

open Decode

namespace Instruction

theorem decodes_asked {instruction : Instruction} (declared : instruction.Declared)
    (valid : instruction.Valid) :
    ∃ decoded, instruction.Decodes decoded ∧ instruction.Meets decoded := by
  obtain ⟨decoded, asks⟩ := Option.isSome_iff_exists.mp declared
  cases instruction with
  | movImm type dst imm => exact movImm_decodes valid
  | mov type dst src => exact ⟨decoded, mov_decodes asks valid, asks⟩
  | alu op type dst src =>
    obtain ⟨operation, named, same⟩ := Option.map_eq_some_iff.mp asks
    exact ⟨_, alu_decodes named valid, asks.trans (congrArg some same.symm)⟩
  | aluLoad op type dst src =>
    obtain ⟨operation, named, same⟩ := Option.map_eq_some_iff.mp asks
    exact ⟨_, aluLoad_decodes named valid, asks.trans (congrArg some same.symm)⟩
  | aluImm op type dst imm =>
    obtain ⟨operation, named, same⟩ := Option.map_eq_some_iff.mp asks
    exact ⟨_, aluImm_decodes named valid, asks.trans (congrArg some same.symm)⟩
  | aluStoreImm op type dst imm =>
    obtain ⟨operation, named, same⟩ := Option.map_eq_some_iff.mp asks
    exact ⟨_, aluStoreImm_decodes named valid, asks.trans (congrArg some same.symm)⟩
  | shiftCl op type reg =>
    obtain ⟨operation, named, same⟩ := Option.map_eq_some_iff.mp asks
    exact ⟨_, shiftCl_decodes named valid, asks.trans (congrArg some same.symm)⟩
  | shiftImm op type reg imm =>
    obtain ⟨operation, named, same⟩ := Option.map_eq_some_iff.mp asks
    exact ⟨_, shiftImm_decodes named valid, asks.trans (congrArg some same.symm)⟩
  | extend extension type dst src =>
    obtain ⟨named, found, same⟩ := Option.map_eq_some_iff.mp asks
    exact ⟨_, extend_decodes found valid, asks.trans (congrArg some same.symm)⟩
  | extendLoad extension type dst src =>
    obtain ⟨named, found, same⟩ := Option.map_eq_some_iff.mp asks
    exact ⟨_, extendLoad_decodes found valid, asks.trans (congrArg some same.symm)⟩
  | sse op type dst src =>
    obtain ⟨operation, named, same⟩ := Option.map_eq_some_iff.mp asks
    exact ⟨_, sse_decodes named valid, asks.trans (congrArg some same.symm)⟩
  | logic op type dst src =>
    obtain ⟨operation, named, same⟩ := Option.map_eq_some_iff.mp asks
    exact ⟨_, logic_decodes named valid, asks.trans (congrArg some same.symm)⟩
  | setcc condition dst =>
    have small : condition.code < 16 := by
      by_contra large
      simp [asked, large] at asks
    exact ⟨_, setcc_decodes small valid, if_pos small⟩
  | round type dst src mode =>
    have known : mode.isDeclared = true := by
      by_contra unknown
      simp [asked, unknown] at asks
    exact ⟨_, round_decodes known valid, if_pos known⟩
  | enterFrame size => exact ⟨_, enterFrame_decodes size, rfl⟩
  | test type left right => exact ⟨_, test_decodes valid, rfl⟩
  | testImm type reg imm => exact ⟨_, testImm_decodes valid, rfl⟩
  | imul type dst src => exact ⟨_, imul_decodes valid, rfl⟩
  | unary op type reg => exact ⟨_, unary_decodes valid, rfl⟩
  | cdq => exact ⟨_, cdq_decodes, rfl⟩
  | cqo => exact ⟨_, cqo_decodes, rfl⟩
  | lea type dst src => exact ⟨_, lea_decodes valid, rfl⟩
  | movabs dst imm => exact ⟨_, movabs_decodes valid, rfl⟩
  | load type dst src => exact ⟨_, load_decodes valid, rfl⟩
  | store type dst src => exact ⟨_, store_decodes valid, rfl⟩
  | storeImm type dst imm => exact ⟨_, storeImm_decodes valid, rfl⟩
  | storeByte dst src => exact ⟨_, storeByte_decodes valid, rfl⟩
  | storeWord dst src => exact ⟨_, storeWord_decodes valid, rfl⟩
  | scan op type dst src => exact ⟨_, scan_decodes valid, rfl⟩
  | push reg => exact ⟨_, push_decodes valid, rfl⟩
  | pop reg => exact ⟨_, pop_decodes valid, rfl⟩
  | pushImm imm => exact ⟨_, pushImm_decodes imm, rfl⟩
  | pushLoad src => exact ⟨_, pushLoad_decodes valid, rfl⟩
  | callReg reg => exact ⟨_, callReg_decodes valid, rfl⟩
  | jmpReg reg => exact ⟨_, jmpReg_decodes valid, rfl⟩
  | jmpLoad src => exact ⟨_, jmpLoad_decodes valid, rfl⟩
  | ret => exact ⟨_, ret_decodes, rfl⟩
  | int3 => exact ⟨_, int3_decodes, rfl⟩
  | ucomis type left right => exact ⟨_, ucomis_decodes valid, rfl⟩
  | floatLoad type dst src => exact ⟨_, floatLoad_decodes valid, rfl⟩
  | floatStore type dst src => exact ⟨_, floatStore_decodes valid, rfl⟩
  | movToFp type dst src => exact ⟨_, movToFp_decodes valid, rfl⟩
  | movFromFp type dst src => exact ⟨_, movFromFp_decodes valid, rfl⟩
  | convertInt target source dst src => exact ⟨_, convertInt_decodes valid, rfl⟩
  | truncateFloat target source dst src => exact ⟨_, truncateFloat_decodes valid, rfl⟩
  | singleToDouble dst src => exact ⟨_, singleToDouble_decodes valid, rfl⟩
  | doubleToSingle dst src => exact ⟨_, doubleToSingle_decodes valid, rfl⟩
  | signBits type dst src => exact ⟨_, signBits_decodes valid, rfl⟩
  | equalLanes dst src => exact ⟨_, equalLanes_decodes valid, rfl⟩
  | shiftLanes left type reg imm => exact ⟨_, shiftLanes_decodes valid, rfl⟩

/-! ## Operands that are refused -/

section Refused

variable {what : String} {type : ValueType} {reg : Register} {regs : List Register}
  {bytes : List UInt8} {next : Except CodeError (List UInt8)}

theorem needInteger_ok_iff : (do needInteger what type; next) = .ok bytes ↔
    type.isInteger = true ∧ next = .ok bytes := by
  by_cases integer : type.isInteger = true
  · rw [needInteger_then integer, and_iff_right integer]
  · rw [needInteger, if_neg integer, iff_false_right (fun both => integer both.1)]
    intro accepted
    cases accepted

theorem needFloat_ok_iff : (do needFloat what type; next) = .ok bytes ↔
    type.isFloat = true ∧ next = .ok bytes := by
  by_cases float : type.isFloat = true
  · rw [needFloat_then float, and_iff_right float]
  · rw [needFloat, if_neg float, iff_false_right (fun both => float both.1)]
    intro accepted
    cases accepted

theorem needGp_ok_iff : (do needGp what regs; next) = .ok bytes ↔
    (∀ reg ∈ regs, reg.isGp = true) ∧ next = .ok bytes := by
  by_cases general : ∀ reg ∈ regs, reg.isGp = true
  · rw [needGp_then general, and_iff_right general]
  · rw [iff_false_right (fun both => general both.1), needGp]
    intro accepted
    split at accepted
    · cases accepted
    · rename_i none
      exact general (by simpa using none)

theorem needFp_ok_iff : (do needFp what regs; next) = .ok bytes ↔
    (∀ reg ∈ regs, reg.isFp = true) ∧ next = .ok bytes := by
  by_cases vectors : ∀ reg ∈ regs, reg.isFp = true
  · rw [needFp_then vectors, and_iff_right vectors]
  · rw [iff_false_right (fun both => vectors both.1), needFp]
    intro accepted
    split at accepted
    · cases accepted
    · rename_i none
      exact vectors (by simpa using none)

theorem withAddress_ok_iff {form : OpcodeForm} {field : UInt8} {address : Address} :
    form.withAddress field address = .ok bytes ↔
      address.Encodable ∧ ∃ operand, address.encode = .ok operand ∧
        form.bytes field operand = bytes := by
  by_cases encodable : address.Encodable
  · obtain ⟨operand, found, _⟩ := Address.encode_reads encodable
    simp [OpcodeForm.withAddress, found, encodable]
  · obtain ⟨cause, error⟩ := Address.encode_refuses encodable
    simp [OpcodeForm.withAddress, error, encodable]

theorem encodable_of_append {form : OpcodeForm} {field : UInt8} {address : Address}
    {immediate : List UInt8}
    (encoded : (form.withAddress field address).map (· ++ immediate) = .ok bytes) :
    address.Encodable := by
  by_contra refused
  obtain ⟨cause, error⟩ := Address.encode_refuses refused
  rw [OpcodeForm.withAddress, error] at encoded
  cases encoded

end Refused

theorem valid_of_encode {instruction : Instruction} {bytes : List UInt8}
    (encoded : instruction.encode = .ok bytes) : instruction.Valid := by
  cases instruction with
  | mov type dst src =>
    rw [Valid, demands]
    rw [encode] at encoded
    split at encoded
    · rename_i float
      rw [needFp_ok_iff] at encoded
      rw [if_pos float]
      constructor <;> simp_all
    · rename_i integer
      rw [needInteger_ok_iff, needGp_ok_iff] at encoded
      rw [if_neg integer]
      constructor <;> simp_all
  | aluStoreImm op type dst imm =>
    rw [encode, needInteger_ok_iff] at encoded
    have encodable : dst.Encodable := by
      by_cases fits : fitsInt8 imm.toInt = true
      · rw [withImm_short fits] at encoded
        exact encodable_of_append encoded.2
      · rw [withImm_long fits] at encoded
        exact encodable_of_append encoded.2
    constructor <;> simp_all [demands]
  | storeImm type dst imm =>
    rw [encode, needInteger_ok_iff] at encoded
    have encodable : dst.Encodable := by
      by_contra refused
      obtain ⟨cause, error⟩ := Address.encode_refuses refused
      rw [OpcodeForm.withAddress, error] at encoded
      cases encoded.2
    constructor <;> simp_all [demands]
  | _ =>
    simp only [encode, needInteger_ok_iff, needFloat_ok_iff, needGp_ok_iff, needFp_ok_iff,
      withAddress_ok_iff] at encoded
    constructor <;> simp_all [demands]

end Instruction

namespace Code

variable {code : Code} {instruction : Instruction}

theorem emit_ok {bytes : List UInt8} (clean : code.error = none)
    (encoded : instruction.encode = .ok bytes) :
    code.emit instruction = { code with bytes := code.bytes ++ bytes } := by
  rw [emit, encoded]
  simp [append, clean]

theorem emit_error {error : CodeError} (refused : instruction.encode = .error error) :
    (code.emit instruction).error.isSome = true ∧
      (code.emit instruction).bytes = code.bytes := by
  rw [emit, refused]
  dsimp only [fail]
  split
  · rename_i failed
    exact ⟨failed, rfl⟩
  · exact ⟨rfl, rfl⟩

/-- Code without an error after an instruction had none before, and the instruction has an
encoding. -/
theorem emit_clean (clean : (code.emit instruction).error = none) :
    code.error = none ∧ ∃ bytes, instruction.encode = .ok bytes := by
  cases encoded : instruction.encode with
  | error error =>
    have failed := (emit_error encoded : (code.emit instruction).error.isSome = true ∧ _)
    simp [clean] at failed
  | ok bytes =>
    refine ⟨?_, bytes, rfl⟩
    rw [emit, encoded] at clean
    dsimp only [append] at clean
    split at clean
    · exact clean
    · exact clean

end Code

/-- Emitting an instruction with declared codes: without an error, the appended bytes decode,
whatever follows them, to what was asked, and decoding ends where they end.  Operands that an
instruction may be given are accepted; with others an error is recorded and nothing is
appended. -/
theorem emitted_decodes (code : Code) (instruction : Instruction) :
    (instruction.Declared → (code.emit instruction).error = none →
      ∃ (bytes : List UInt8) (decoded : Decoded),
        (code.emit instruction).bytes = code.bytes ++ bytes ∧
        instruction.Meets decoded ∧ ∀ rest, decode (bytes ++ rest) = some (decoded, rest)) ∧
    (instruction.Declared → instruction.Valid → code.error = none →
      (code.emit instruction).error = none) ∧
    (¬ instruction.Valid → (code.emit instruction).error.isSome = true ∧
      (code.emit instruction).bytes = code.bytes) := by
  refine ⟨?_, ?_, ?_⟩
  · intro declared clean
    obtain ⟨before, bytes, encoded⟩ := Code.emit_clean clean
    obtain ⟨decoded, ⟨found, same, decodes⟩, meets⟩ :=
      Instruction.decodes_asked declared (Instruction.valid_of_encode encoded)
    exact ⟨found, decoded, by rw [Code.emit_ok before same], meets, decodes⟩
  · intro declared valid clean
    obtain ⟨decoded, ⟨bytes, encoded, _⟩, _⟩ := Instruction.decodes_asked declared valid
    rw [Code.emit_ok clean encoded]
    exact clean
  · intro invalid
    cases encoded : instruction.encode with
    | error error => exact Code.emit_error encoded
    | ok bytes => exact absurd (Instruction.valid_of_encode encoded) invalid

/-- The low byte of `rsi` is stored. -/
theorem emitted_decodes_sil :
    ∃ (bytes : List UInt8) (decoded : Decoded),
      (({} : Code).emit (.storeByte (.based .rax 0) .rsi)).bytes = ({} : Code).bytes ++ bytes ∧
      (Instruction.storeByte (.based .rax 0) .rsi).Meets decoded ∧
      ∀ rest, decode (bytes ++ rest) = some (decoded, rest) :=
  (emitted_decodes {} (.storeByte (.based .rax 0) .rsi)).1 rfl rfl

/-- The sign extension of 32 bits fills 64 bits also when the operand type has 32. -/
theorem extend_sign32_fills_qword :
    (({} : Code).emit (.extend .sign32 .i32 .rax .rcx)).error = none ∧
      (({} : Code).emit (.extend .sign32 .i32 .rax .rcx)).bytes = #[0x48, 0x63, 0xc1] ∧
      decode [0x48, 0x63, 0xc1] =
        some (⟨.movsxd, [.reg .qword .rax, .reg .dword .rcx]⟩, []) ∧
      Width.ofType .i32 ≠ .qword := by
  decide +kernel

end WasmX64
