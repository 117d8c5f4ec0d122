import WasmX64.Proofs.Machine.Shapes

/-!
# Integer instructions decode to what was asked

One lemma for each instruction: with operands it may be given, its encoding decodes to its
operation and operands, whatever bytes follow.
-/

namespace WasmX64

open Decode

theorem mem_of_lookup {key value : Type} [DecidableEq key] {table : List (key × value)}
    {sought : key} {found : value} (hit : table.lookup sought = some found) :
    (sought, found) ∈ table := by
  rw [List.lookup_eq_some_iff] at hit
  obtain ⟨before, after, split, _⟩ := hit
  rw [split]
  exact List.mem_append_right _ (.head _)

theorem Extension.target_ne_byte (extension : Extension) (type : ValueType) :
    extension.target type ≠ .byte := by
  unfold Extension.target
  split
  · simp
  · exact Width.ofType_ne_byte type

theorem Extension.fromByte_of_operation {extension : Extension} {operation : Operation}
    (named : extension.operation? = some (operation, .byte)) : extension.fromByte = true := by
  have member := mem_of_lookup named
  simp only [List.mem_cons, Prod.mk.injEq, List.not_mem_nil, or_false, reduceCtorEq, and_false,
    and_true, false_or] at member
  obtain ⟨rfl, _⟩ | ⟨rfl, _⟩ := member
  · rfl
  · rfl

namespace Instruction

/-! ## Two-operand integer instructions -/

section Pairs

variable {form : OpcodeForm} {instruction : Instruction} {operation : Operation}
  {type : ValueType} {left right : Register}

theorem decodes_rmReg (general : ∀ reg ∈ [left, right], reg.isGp = true)
    (means : form.Means right.bits4 operation [.rm (.ofType type), .reg (.ofType type)])
    (encoded : instruction.encode = .ok (form.withReg right.bits4 left)) :
    instruction.Decodes ⟨operation, [.reg (.ofType type) left, .reg (.ofType type) right]⟩ := by
  have wide := Width.ofType_ne_byte type
  apply decodes_registers means encoded (fun _ => rfl)
  · exact fun _ _ => Kind.operand_rm wide (general _ (.head _))
  · exact fun _ _ => Kind.operand_reg wide (general _ (.tail _ (.head _)))

theorem decodes_regRm (general : ∀ reg ∈ [left, right], reg.isGp = true)
    (means : form.Means left.bits4 operation [.reg (.ofType type), .rm (.ofType type)])
    (encoded : instruction.encode = .ok (form.withReg left.bits4 right)) :
    instruction.Decodes ⟨operation, [.reg (.ofType type) left, .reg (.ofType type) right]⟩ := by
  have wide := Width.ofType_ne_byte type
  apply decodes_registers means encoded (fun _ => rfl)
  · exact fun _ _ => Kind.operand_reg wide (general _ (.head _))
  · exact fun _ _ => Kind.operand_rm wide (general _ (.tail _ (.head _)))

end Pairs

/-- The operations of the integer group stand where their codes say: at opcodes of their own
and in the register field of the immediate forms. -/
theorem alu_found {op : AluOp} {operation : Operation}
    (named : op.operation? = some operation) :
    op.code.toNat < 16 ∧ integerGroup (op.code &&& 7) = some operation ∧
      (op.code <<< 3 ||| 0x01 ∉ ([0x66, 0xf2, 0xf3, 0x0f] : List UInt8) ∧
        (op.code <<< 3 ||| 0x01) &&& 0xf0 ≠ 0x40) ∧
      (op.code <<< 3 ||| 0x03 ∉ ([0x66, 0xf2, 0xf3, 0x0f] : List UInt8) ∧
        (op.code <<< 3 ||| 0x03) &&& 0xf0 ≠ 0x40) ∧
      (∀ wide digit, lookup {} wide .one (op.code <<< 3 ||| 0x01) digit =
        some (operation, [.rm (operandWidth {} wide), .reg (operandWidth {} wide)])) ∧
      ∀ wide digit, lookup {} wide .one (op.code <<< 3 ||| 0x03) digit =
        some (operation, [.reg (operandWidth {} wide), .rm (operandWidth {} wide)]) := by
  have member := mem_of_lookup named
  simp only [List.mem_cons, Prod.mk.injEq, List.not_mem_nil, or_false] at member
  obtain ⟨rfl, rfl⟩ | ⟨rfl, rfl⟩ | ⟨rfl, rfl⟩ | ⟨rfl, rfl⟩ | ⟨rfl, rfl⟩ | ⟨rfl, rfl⟩ := member
  all_goals
    exact ⟨by decide, rfl, by decide, by decide, fun _ _ => rfl, fun _ _ => rfl⟩

theorem alu_decodes {op : AluOp} {operation : Operation} {type : ValueType} {dst src : Register}
    (named : op.operation? = some operation) (valid : (Instruction.alu op type dst src).Valid) :
    (Instruction.alu op type dst src).Decodes
      ⟨operation, [.reg (.ofType type) dst, .reg (.ofType type) src]⟩ := by
  obtain ⟨_, _, plain, _, found, _⟩ := alu_found named
  apply decodes_rmReg valid.general (means_integer _ (fun width => [.rm width, .reg width]) plain
    src.bits4_lt (fun wide => found wide _) (fun _ => rfl))
  exact (needInteger_then (valid.integers _ (.head _))).trans (needGp_then valid.general)

theorem aluLoad_decodes {op : AluOp} {operation : Operation} {type : ValueType} {dst : Register}
    {src : Address} (named : op.operation? = some operation)
    (valid : (Instruction.aluLoad op type dst src).Valid) :
    (Instruction.aluLoad op type dst src).Decodes
      ⟨operation, [.reg (.ofType type) dst, .memory (.ofType type) src.normal]⟩ := by
  obtain ⟨_, _, _, plain, _, found⟩ := alu_found named
  apply decodes_addresses (means_integer _ (fun width => [.reg width, .rm width]) plain
    dst.bits4_lt (fun wide => found wide _) (fun _ => rfl)) (valid.addresses _ (.head _))
  · exact (needInteger_then (valid.integers _ (.head _))).trans (needGp_then valid.general)
  · exact fun _ => rfl
  · exact fun _ _ => Kind.operand_reg (Width.ofType_ne_byte type) (valid.general _ (.head _))
  · exact fun _ _ => rfl

theorem means_aluImm {op : AluOp} {operation : Operation}
    (named : op.operation? = some operation) (type : ValueType) :
    (integerForm type [0x83]).Means op.code operation [.rm (.ofType type), .signed8] ∧
      (integerForm type [0x81]).Means op.code operation [.rm (.ofType type), .signed32] := by
  obtain ⟨small, group, _⟩ := alu_found named
  constructor
  · apply means_integer 0x83 (fun width => [.rm width, .signed8]) (by decide) small _
      (fun _ => rfl)
    intro wide
    change (integerGroup (op.code &&& 7)).map _ = _
    rw [group]
    rfl
  · apply means_integer 0x81 (fun width => [.rm width, .signed32]) (by decide) small _
      (fun _ => rfl)
    intro wide
    change (integerGroup (op.code &&& 7)).map _ = _
    rw [group]
    rfl

theorem withImm_short {imm : Int32} (fits : fitsInt8 imm.toInt = true)
    (short long : Except CodeError (List UInt8)) :
    withImm imm short long = short.map (· ++ [byteOf imm.toInt]) := by
  rw [withImm, if_pos fits]
  cases short with
  | error error => rfl
  | ok bytes => rfl

theorem withImm_long {imm : Int32} (large : ¬ fitsInt8 imm.toInt = true)
    (short long : Except CodeError (List UInt8)) :
    withImm imm short long = long.map (· ++ bytes32 (wordOf imm.toInt)) := by
  rw [withImm, if_neg large]
  cases long with
  | error error => rfl
  | ok bytes => rfl

theorem aluImm_decodes {op : AluOp} {operation : Operation} {type : ValueType} {dst : Register}
    {imm : Int32} (named : op.operation? = some operation)
    (valid : (Instruction.aluImm op type dst imm).Valid) :
    (Instruction.aluImm op type dst imm).Decodes
      ⟨operation, [.reg (.ofType type) dst, .imm imm.toInt]⟩ := by
  obtain ⟨short, long⟩ := means_aluImm named type
  have wide := Width.ofType_ne_byte type
  have general := valid.general dst (.head _)
  have encoded : (Instruction.aluImm op type dst imm).encode =
      withImm imm (.ok ((integerForm type [0x83]).withReg op.code dst))
        (.ok ((integerForm type [0x81]).withReg op.code dst)) :=
    (needInteger_then (valid.integers _ (.head _))).trans (needGp_then valid.general)
  by_cases fits : fitsInt8 imm.toInt = true
  · rw [withImm_short fits] at encoded
    exact decodes_registerImm short encoded (readImmediate_signed8 fits)
      (fun _ _ => Kind.operand_rm wide general) (fun _ _ _ => rfl)
  · rw [withImm_long fits] at encoded
    exact decodes_registerImm long encoded (readImmediate_wordOf imm)
      (fun _ _ => Kind.operand_rm wide general) (fun _ _ _ => rfl)

theorem aluStoreImm_decodes {op : AluOp} {operation : Operation} {type : ValueType}
    {dst : Address} {imm : Int32} (named : op.operation? = some operation)
    (valid : (Instruction.aluStoreImm op type dst imm).Valid) :
    (Instruction.aluStoreImm op type dst imm).Decodes
      ⟨operation, [.memory (.ofType type) dst.normal, .imm imm.toInt]⟩ := by
  obtain ⟨short, long⟩ := means_aluImm named type
  have encodable := valid.addresses dst (.head _)
  have encoded : (Instruction.aluStoreImm op type dst imm).encode =
      withImm imm ((integerForm type [0x83]).withAddress op.code dst)
        ((integerForm type [0x81]).withAddress op.code dst) :=
    needInteger_then (valid.integers _ (.head _))
  by_cases fits : fitsInt8 imm.toInt = true
  · rw [withImm_short fits] at encoded
    exact decodes_addressImm short encodable encoded (readImmediate_signed8 fits)
      (fun _ _ _ => rfl)
  · rw [withImm_long fits] at encoded
    exact decodes_addressImm long encodable encoded (readImmediate_wordOf imm)
      (fun _ _ _ => rfl)

theorem enterFrame_decodes (size : UInt32) :
    (Instruction.enterFrame size).Decodes
      ⟨.sub, [.reg .qword .rsp, .imm size.toInt32.toInt]⟩ :=
  decodes_registerImm (@means_aluImm .sub .sub rfl .i64).2 rfl (readImmediate_signed32 size)
    (fun _ _ => Kind.operand_rm (by decide) (by decide)) (fun _ _ _ => rfl)

theorem test_decodes {type : ValueType} {left right : Register}
    (valid : (Instruction.test type left right).Valid) :
    (Instruction.test type left right).Decodes
      ⟨.test, [.reg (.ofType type) left, .reg (.ofType type) right]⟩ := by
  apply decodes_rmReg valid.general (means_integer 0x85 (fun width => [.rm width, .reg width])
    (by decide) right.bits4_lt (fun _ => rfl) (fun _ => rfl))
  exact (needInteger_then (valid.integers _ (.head _))).trans (needGp_then valid.general)

theorem testImm_decodes {type : ValueType} {reg : Register} {imm : Int32}
    (valid : (Instruction.testImm type reg imm).Valid) :
    (Instruction.testImm type reg imm).Decodes
      ⟨.test, [.reg (.ofType type) reg, .imm imm.toInt]⟩ := by
  have means : (integerForm type [0xf7]).Means 0 .test [.rm (.ofType type), .signed32] :=
    means_integer 0xf7 (fun width => [.rm width, .signed32]) (by decide) (by decide)
      (fun _ => rfl) (fun _ => rfl)
  apply decodes_registerImm means
  · exact (needInteger_then (valid.integers _ (.head _))).trans (needGp_then valid.general)
  · exact readImmediate_wordOf imm
  · exact fun _ _ => Kind.operand_rm (Width.ofType_ne_byte type) (valid.general _ (.head _))
  · exact fun _ _ _ => rfl

theorem imul_decodes {type : ValueType} {dst src : Register}
    (valid : (Instruction.imul type dst src).Valid) :
    (Instruction.imul type dst src).Decodes
      ⟨.imul, [.reg (.ofType type) dst, .reg (.ofType type) src]⟩ := by
  have stands : (integerForm type [0x0f, 0xaf]).Stands .two 0xaf :=
    OpcodeForm.stands_two rfl (.head _) (by decide)
  apply decodes_regRm valid.general (means_width (fun width => [.reg width, .rm width]) stands rfl
    dst.bits4_lt (fun _ => rfl) (fun _ => rfl))
  exact (needInteger_then (valid.integers _ (.head _))).trans (needGp_then valid.general)

/-! ## One-operand integer instructions and shifts -/

theorem unary_decodes {op : UnaryOp} {type : ValueType} {reg : Register}
    (valid : (Instruction.unary op type reg).Valid) :
    (Instruction.unary op type reg).Decodes
      ⟨op.operation, [.reg (.ofType type) reg]⟩ := by
  have small : op.info.2.toNat < 16 := by
    cases op <;> decide
  have found : ∀ wide, lookup {} wide .one 0xf7 (op.info.2 &&& 7) =
      some (op.operation, [.rm (operandWidth {} wide)]) := by
    cases op <;> exact fun _ => rfl
  apply decodes_register (means_integer 0xf7 (fun width => [.rm width]) (by decide) small found
    (fun _ => rfl))
  · exact (needInteger_then (valid.integers _ (.head _))).trans (needGp_then valid.general)
  · exact fun _ => rfl
  · exact fun _ _ => Kind.operand_rm (Width.ofType_ne_byte type) (valid.general _ (.head _))

theorem shift_found {op : ShiftOp} {operation : Operation}
    (named : op.operation? = some operation) :
    op.code.toNat < 16 ∧
      (∀ wide, lookup {} wide .one 0xd3 (op.code &&& 7) =
        some (operation, [.rm (operandWidth {} wide), .cl])) ∧
      ∀ wide, lookup {} wide .one 0xc1 (op.code &&& 7) =
        some (operation, [.rm (operandWidth {} wide), .imm8]) := by
  have member := mem_of_lookup named
  simp only [List.mem_cons, Prod.mk.injEq, List.not_mem_nil, or_false] at member
  obtain ⟨rfl, rfl⟩ | ⟨rfl, rfl⟩ | ⟨rfl, rfl⟩ | ⟨rfl, rfl⟩ | ⟨rfl, rfl⟩ := member
  all_goals exact ⟨by decide, fun _ => rfl, fun _ => rfl⟩

theorem shiftCl_decodes {op : ShiftOp} {operation : Operation} {type : ValueType}
    {reg : Register} (named : op.operation? = some operation)
    (valid : (Instruction.shiftCl op type reg).Valid) :
    (Instruction.shiftCl op type reg).Decodes
      ⟨operation, [.reg (.ofType type) reg, .reg .byte .rcx]⟩ := by
  obtain ⟨small, found, _⟩ := shift_found named
  apply decodes_registers (means_integer 0xd3 (fun width => [.rm width, .cl]) (by decide) small
    found (fun _ => rfl))
  · exact (needInteger_then (valid.integers _ (.head _))).trans (needGp_then valid.general)
  · exact fun _ => rfl
  · exact fun _ _ => Kind.operand_rm (Width.ofType_ne_byte type) (valid.general _ (.head _))
  · exact fun _ _ => rfl

theorem shiftImm_decodes {op : ShiftOp} {operation : Operation} {type : ValueType}
    {reg : Register} {imm : UInt8} (named : op.operation? = some operation)
    (valid : (Instruction.shiftImm op type reg imm).Valid) :
    (Instruction.shiftImm op type reg imm).Decodes
      ⟨operation, [.reg (.ofType type) reg, .imm imm.toNat]⟩ := by
  obtain ⟨small, _, found⟩ := shift_found named
  apply decodes_registerImm (means_integer 0xc1 (fun width => [.rm width, .imm8]) (by decide)
    small found (fun _ => rfl))
  · exact (needInteger_then (valid.integers _ (.head _))).trans (needGp_then valid.general)
  · exact fun _ => rfl
  · exact fun _ _ => Kind.operand_rm (Width.ofType_ne_byte type) (valid.general _ (.head _))
  · exact fun _ _ _ => rfl

/-! ## Moves -/

theorem lea_decodes {type : ValueType} {dst : Register} {src : Address}
    (valid : (Instruction.lea type dst src).Valid) :
    (Instruction.lea type dst src).Decodes
      ⟨.lea, [.reg (.ofType type) dst, .memory (.ofType type) src.normal]⟩ := by
  apply decodes_addresses (means_integer 0x8d (fun width => [.reg width, .memory width])
    (by decide) dst.bits4_lt (fun _ => rfl) (fun _ => rfl)) (valid.addresses _ (.head _))
  · exact (needInteger_then (valid.integers _ (.head _))).trans (needGp_then valid.general)
  · exact fun _ => rfl
  · exact fun _ _ => Kind.operand_reg (Width.ofType_ne_byte type) (valid.general _ (.head _))
  · exact fun _ _ => rfl

theorem load_decodes {type : ValueType} {dst : Register} {src : Address}
    (valid : (Instruction.load type dst src).Valid) :
    (Instruction.load type dst src).Decodes
      ⟨.mov, [.reg (.ofType type) dst, .memory (.ofType type) src.normal]⟩ := by
  apply decodes_addresses (means_integer 0x8b (fun width => [.reg width, .rm width])
    (by decide) dst.bits4_lt (fun _ => rfl) (fun _ => rfl)) (valid.addresses _ (.head _))
  · exact (needInteger_then (valid.integers _ (.head _))).trans (needGp_then valid.general)
  · exact fun _ => rfl
  · exact fun _ _ => Kind.operand_reg (Width.ofType_ne_byte type) (valid.general _ (.head _))
  · exact fun _ _ => rfl

theorem store_decodes {type : ValueType} {dst : Address} {src : Register}
    (valid : (Instruction.store type dst src).Valid) :
    (Instruction.store type dst src).Decodes
      ⟨.mov, [.memory (.ofType type) dst.normal, .reg (.ofType type) src]⟩ := by
  apply decodes_addresses (means_integer 0x89 (fun width => [.rm width, .reg width])
    (by decide) src.bits4_lt (fun _ => rfl) (fun _ => rfl)) (valid.addresses _ (.head _))
  · exact (needInteger_then (valid.integers _ (.head _))).trans (needGp_then valid.general)
  · exact fun _ => rfl
  · exact fun _ _ => rfl
  · exact fun _ _ => Kind.operand_reg (Width.ofType_ne_byte type) (valid.general _ (.head _))

theorem means_moveImm (type : ValueType) :
    (integerForm type [0xc7]).Means 0 .mov [.rm (.ofType type), .signed32] :=
  means_integer 0xc7 (fun width => [.rm width, .signed32]) (by decide) (by decide)
    (fun _ => rfl) (fun _ => rfl)

theorem storeImm_decodes {type : ValueType} {dst : Address} {imm : Int32}
    (valid : (Instruction.storeImm type dst imm).Valid) :
    (Instruction.storeImm type dst imm).Decodes
      ⟨.mov, [.memory (.ofType type) dst.normal, .imm imm.toInt]⟩ := by
  apply decodes_addressImm (means_moveImm type) (valid.addresses _ (.head _))
  · rw [show (Instruction.storeImm type dst imm).encode = _ from
      needInteger_then (valid.integers _ (.head _))]
    cases (integerForm type [0xc7]).withAddress 0 dst with
    | error error => rfl
    | ok bytes => rfl
  · exact readImmediate_wordOf imm
  · exact fun _ _ _ => rfl

theorem storeByte_decodes {dst : Address} {src : Register}
    (valid : (Instruction.storeByte dst src).Valid) :
    (Instruction.storeByte dst src).Decodes
      ⟨.mov, [.memory .byte dst.normal, .reg .byte src]⟩ := by
  have means : OpcodeForm.Means { forceRex := lowByteNeedsRex src, opcode := [0x88] } src.bits4
      .mov [.rm .byte, .reg .byte] :=
    ⟨src.bits4_lt, ⟨_, _, OpcodeForm.stands_one rfl (.head _) (by decide), rfl⟩, rfl⟩
  apply decodes_addresses means (valid.addresses _ (.head _))
  · exact needGp_then valid.general
  · exact fun _ => rfl
  · exact fun _ _ => rfl
  · exact fun _ _ => congrArg some
      (generalOperand_byte (valid.general _ (.head _)) fun needs => rexBits_present needs _ _)

theorem storeWord_decodes {dst : Address} {src : Register}
    (valid : (Instruction.storeWord dst src).Valid) :
    (Instruction.storeWord dst src).Decodes
      ⟨.mov, [.memory .word dst.normal, .reg .word src]⟩ := by
  have means : OpcodeForm.Means { legacy := some 0x66, opcode := [0x89] } src.bits4
      .mov [.rm .word, .reg .word] :=
    ⟨src.bits4_lt, ⟨_, _, OpcodeForm.stands_one rfl (by simp) (by decide), rfl⟩, rfl⟩
  apply decodes_addresses means (valid.addresses _ (.head _))
  · exact needGp_then valid.general
  · exact fun _ => rfl
  · exact fun _ _ => rfl
  · exact fun _ _ => Kind.operand_reg (by decide) (valid.general _ (.head _))

theorem means_extend {extension : Extension} {operation : Operation} {source : Width}
    (named : extension.operation? = some (operation, source)) (type : ValueType) (force : Bool)
    (dst : Register) :
    OpcodeForm.Means
      { wide := type = .i64 || extension = .sign32, forceRex := force, opcode := extension.opcode }
      dst.bits4 operation [.reg (extension.target type), .rm source] := by
  have member := mem_of_lookup named
  simp only [List.mem_cons, Prod.mk.injEq, List.not_mem_nil, or_false] at member
  obtain ⟨rfl, rfl, rfl⟩ | ⟨rfl, rfl, rfl⟩ | ⟨rfl, rfl, rfl⟩ | ⟨rfl, rfl, rfl⟩ |
    ⟨rfl, rfl, rfl⟩ := member
  rotate_left 4
  · refine ⟨dst.bits4_lt, ⟨_, _, OpcodeForm.stands_one rfl (.head _) (by decide), ?_⟩, rfl⟩
    change lookup {} (decide (type = .i64) || true) .one 0x63 _ = _
    rw [Bool.or_true]
    rfl
  all_goals
    exact means_width (fun width => [.reg width, .rm _])
      (OpcodeForm.stands_two rfl (.head _) (by decide)) (Bool.or_false _) dst.bits4_lt
      (fun _ => rfl) (fun _ => rfl)

theorem extend_decodes {extension : Extension} {operation : Operation} {source : Width}
    {type : ValueType} {dst src : Register}
    (named : extension.operation? = some (operation, source))
    (valid : (Instruction.extend extension type dst src).Valid) :
    (Instruction.extend extension type dst src).Decodes
      ⟨operation, [.reg (extension.target type) dst, .reg source src]⟩ := by
  have general := valid.general src (.tail _ (.head _))
  apply decodes_registers (means_extend named type _ dst)
  · exact (needInteger_then (valid.integers _ (.head _))).trans (needGp_then valid.general)
  · exact fun _ => rfl
  · exact fun _ _ => Kind.operand_reg (Extension.target_ne_byte extension type)
      (valid.general _ (.head _))
  · intro extended low
    by_cases narrow : source = .byte
    · subst narrow
      apply congrArg some
      apply generalOperand_byte general
      intro needs
      apply rexBits_present
      simp [Extension.fromByte_of_operation named, needs]
    · exact Kind.operand_rm narrow general

theorem extendLoad_decodes {extension : Extension} {operation : Operation} {source : Width}
    {type : ValueType} {dst : Register} {src : Address}
    (named : extension.operation? = some (operation, source))
    (valid : (Instruction.extendLoad extension type dst src).Valid) :
    (Instruction.extendLoad extension type dst src).Decodes
      ⟨operation, [.reg (extension.target type) dst, .memory source src.normal]⟩ := by
  apply decodes_addresses (means_extend named type false dst) (valid.addresses _ (.head _))
  · exact (needInteger_then (valid.integers _ (.head _))).trans (needGp_then valid.general)
  · exact fun _ => rfl
  · exact fun _ _ => Kind.operand_reg (Extension.target_ne_byte extension type)
      (valid.general _ (.head _))
  · exact fun _ _ => rfl

theorem setcc_decodes {condition : Condition} {dst : Register} (small : condition.code < 16)
    (valid : (Instruction.setcc condition dst).Valid) :
    (Instruction.setcc condition dst).Decodes ⟨.set condition, [.reg .byte dst]⟩ := by
  obtain ⟨code⟩ := condition
  have all : ∀ code : Fin 16, (0x90 ||| UInt8.ofNat code) &&& 0xf0 = 0x90 ∧
      (0x90 ||| UInt8.ofNat code) &&& 0x0f = UInt8.ofNat code ∧
      0x90 ||| UInt8.ofNat code ≠ 0x38 ∧ 0x90 ||| UInt8.ofNat code ≠ 0x3a := by
    decide
  have bits := byte_cases (fun code => (0x90 ||| code) &&& 0xf0 = 0x90 ∧
    (0x90 ||| code) &&& 0x0f = code ∧ 0x90 ||| code ≠ 0x38 ∧ 0x90 ||| code ≠ 0x3a) 16 all
    (UInt8.lt_iff_toNat_lt.mp small)
  obtain ⟨group, number, plain⟩ := bits
  have means : OpcodeForm.Means
      { forceRex := lowByteNeedsRex dst, opcode := [0x0f, 0x90 ||| code] } 0 (.set ⟨code⟩)
      [.rm .byte] := by
    refine ⟨by decide, ⟨_, _, OpcodeForm.stands_two rfl (.head _) plain, ?_⟩, rfl⟩
    change (if (0x90 ||| code) &&& 0xf0 = 0x90 then _ else _) = _
    rw [if_pos group, number]
  apply decodes_register means
  · exact needGp_then valid.general
  · exact fun _ => rfl
  · exact fun _ _ => congrArg some
      (generalOperand_byte (valid.general _ (.head _)) fun needs => rexBits_present needs _ _)

theorem scan_decodes {op : ScanOp} {type : ValueType} {dst src : Register}
    (valid : (Instruction.scan op type dst src).Valid) :
    (Instruction.scan op type dst src).Decodes
      ⟨op.operation, [.reg (.ofType type) dst, .reg (.ofType type) src]⟩ := by
  have stands : OpcodeForm.Stands
      { legacy := op.info.2.1, wide := type = .i64, opcode := [0x0f, op.info.2.2] } .two
      op.info.2.2 := by
    apply OpcodeForm.stands_two rfl
    · cases op <;> simp [ScanOp.info]
    · cases op <;> decide
  apply decodes_regRm valid.general (means_width (fun width => [.reg width, .rm width]) stands rfl
    dst.bits4_lt _ (fun _ => rfl))
  · exact (needInteger_then (valid.integers _ (.head _))).trans (needGp_then valid.general)
  · intro wide
    cases op with
    | bsr => rfl
    | bsf => rfl
    | popcnt => cases wide <;> rfl

/-! ## Instructions without a ModRM byte -/

section Bare

variable {instruction : Instruction} {operation : Operation} {kinds : List Kind}
  {immediate : List UInt8} {value : Int} {operands : List Operand}

theorem decodes_bare {opcode : UInt8} {wide : Bool}
    (encoded : instruction.encode =
      .ok (OpcodeForm.rex { wide, opcode := [opcode] } 0 0 ++ [opcode] ++ immediate))
    (plain : opcode ∉ [0x66, 0xf2, 0xf3, 0x0f] ∧ opcode &&& 0xf0 ≠ 0x40)
    (found : ∀ digit, lookup {} wide .one opcode digit = some (operation, kinds))
    (uses : kinds.any Kind.usesFields = false)
    (constant : ∀ rest, readImmediates kinds (immediate ++ rest) = some (value, rest))
    (given : ∀ rex, kinds.mapM (Kind.operand rex (opcode &&& 7) ⟨0, .register 0⟩ value) =
      some operands) :
    instruction.Decodes ⟨operation, operands⟩ := by
  have stands : OpcodeForm.Stands { wide, opcode := [opcode] } .one opcode :=
    OpcodeForm.stands_one rfl (.head _) plain
  have none : (0 : UInt8).toNat < 4 := by decide
  refine ⟨_, encoded, fun rest => ?_⟩
  have decoded := OpcodeForm.decode_bare stands none found uses constant (given _) rest
  simpa using decoded

theorem short_plain {opcode low : UInt8} (known : opcode ∈ [0x50, 0x58, 0xb8])
    (small : low.toNat < 8) :
    (opcode + low ∉ ([0x66, 0xf2, 0xf3, 0x0f] : List UInt8) ∧ (opcode + low) &&& 0xf0 ≠ 0x40) ∧
      (opcode + low) &&& 7 = low := by
  have all : ∀ opcode ∈ ([0x50, 0x58, 0xb8] : List UInt8), ∀ low : Fin 8,
      (opcode + UInt8.ofNat low ∉ ([0x66, 0xf2, 0xf3, 0x0f] : List UInt8) ∧
        (opcode + UInt8.ofNat low) &&& 0xf0 ≠ 0x40) ∧
        (opcode + UInt8.ofNat low) &&& 7 = UInt8.ofNat low := by
    decide +kernel
  have found := all opcode known ⟨low.toNat, small⟩
  rwa [UInt8.ofNat_toNat] at found

theorem decodes_short {opcode : UInt8} {wide : Bool} {reg : Register} {width : Width}
    (general : reg.isGp = true) (known : opcode ∈ [0x50, 0x58, 0xb8])
    (encoded : instruction.encode = .ok (shortForm wide opcode reg ++ immediate))
    (found : ∀ low ∈ [0, 1, 2, 3, 4, 5, 6, 7], ∀ digit,
      lookup {} wide .one (opcode + low) digit = some (operation, .short width :: kinds))
    (uses : kinds.any Kind.usesFields = false)
    (constant : ∀ rest, readImmediates (.short width :: kinds) (immediate ++ rest) =
      some (value, rest))
    (given : ∀ rex low, kinds.mapM (Kind.operand rex low ⟨0, .register 0⟩ value) =
      some operands) :
    instruction.Decodes ⟨operation, .reg width reg :: operands⟩ := by
  obtain ⟨plain, bits⟩ := short_plain known reg.low_lt
  have low : reg.low ∈ [0, 1, 2, 3, 4, 5, 6, 7] :=
    byte_cases (· ∈ [0, 1, 2, 3, 4, 5, 6, 7]) 8 (by decide) reg.low_lt
  have high := RmOperand.rex_of_high reg.high
  refine ⟨_, encoded, fun rest => ?_⟩
  let form : OpcodeForm := { wide, opcode := [opcode + reg.low] }
  have stands : form.Stands .one (opcode + reg.low) :=
    OpcodeForm.stands_one rfl (.head _) plain
  have whole : Kind.operand (form.rexBits 0 (if reg.high then 1 else 0))
      ((opcode + reg.low) &&& 7) ⟨0, .register 0⟩ value (.short width) =
        some (.reg width reg) := by
    change some (Operand.reg width ⟨extendBits ((opcode + reg.low) &&& 7) _⟩) = _
    rw [bits, OpcodeForm.rexBits, high.2, reg.extendBits_low, Register.eq_of_bits4 general]
  have all : (Kind.short width :: kinds).mapM (Kind.operand
      (form.rexBits 0 (if reg.high then 1 else 0)) ((opcode + reg.low) &&& 7) ⟨0, .register 0⟩
      value) = some (.reg width reg :: operands) := by
    simp [whole, given]
  rw [shortForm_eq]
  exact OpcodeForm.decode_bare stands high.1 (found _ low) uses constant all rest

end Bare

theorem decodes_opcode (opcode : UInt8) (wide : Bool) {instruction : Instruction}
    {operation : Operation}
    (encoded : instruction.encode =
      .ok (OpcodeForm.rex { wide, opcode := [opcode] } 0 0 ++ [opcode]))
    (plain : opcode ∉ [0x66, 0xf2, 0xf3, 0x0f] ∧ opcode &&& 0xf0 ≠ 0x40)
    (found : ∀ digit, lookup {} wide .one opcode digit = some (operation, [])) :
    instruction.Decodes ⟨operation, []⟩ := by
  rw [← List.append_nil (_ ++ [opcode])] at encoded
  exact decodes_bare encoded plain found rfl (fun _ => rfl) (fun _ => rfl)

theorem cdq_decodes : Instruction.cdq.Decodes ⟨.spread .dword, []⟩ :=
  decodes_opcode 0x99 false rfl (by decide) (fun _ => rfl)

theorem cqo_decodes : Instruction.cqo.Decodes ⟨.spread .qword, []⟩ :=
  decodes_opcode 0x99 true rfl (by decide) (fun _ => rfl)

theorem ret_decodes : Instruction.ret.Decodes ⟨.ret, []⟩ :=
  decodes_opcode 0xc3 false rfl (by decide) (fun _ => rfl)

theorem int3_decodes : Instruction.int3.Decodes ⟨.int3, []⟩ :=
  decodes_opcode 0xcc false rfl (by decide) (fun _ => rfl)

theorem pushImm_decodes (imm : Int32) :
    (Instruction.pushImm imm).Decodes ⟨.push, [.imm imm.toInt]⟩ := by
  by_cases fits : fitsInt8 imm.toInt = true
  · have encoded : (Instruction.pushImm imm).encode =
        .ok (OpcodeForm.rex { opcode := [0x6a] } 0 0 ++ [0x6a] ++ [byteOf imm.toInt]) :=
      withImm_short fits _ _
    exact decodes_bare encoded (by decide) (fun _ => rfl) rfl (readImmediate_signed8 fits)
      (fun _ => rfl)
  · have encoded : (Instruction.pushImm imm).encode =
        .ok (OpcodeForm.rex { opcode := [0x68] } 0 0 ++ [0x68] ++ bytes32 (wordOf imm.toInt)) :=
      withImm_long fits _ _
    exact decodes_bare encoded (by decide) (fun _ => rfl) rfl (readImmediate_wordOf imm)
      (fun _ => rfl)

/-- The short forms are where their opcodes say. -/
theorem short_found {low : UInt8} (small : low ∈ [0, 1, 2, 3, 4, 5, 6, 7]) (digit : UInt8) :
    lookup {} false .one (0x50 + low) digit = some (.push, [.short .qword]) ∧
      lookup {} false .one (0x58 + low) digit = some (.pop, [.short .qword]) ∧
      lookup {} false .one (0xb8 + low) digit = some (.mov, [.short .dword, .signed32]) ∧
      lookup {} true .one (0xb8 + low) digit = some (.mov, [.short .qword, .signed64]) := by
  simp only [List.mem_cons, List.not_mem_nil, or_false] at small
  obtain rfl | rfl | rfl | rfl | rfl | rfl | rfl | rfl := small
  all_goals exact ⟨rfl, rfl, rfl, rfl⟩

theorem push_decodes {reg : Register} (valid : (Instruction.push reg).Valid) :
    (Instruction.push reg).Decodes ⟨.push, [.reg .qword reg]⟩ := by
  have encoded : (Instruction.push reg).encode = .ok (shortForm false 0x50 reg ++ []) := by
    rw [List.append_nil]
    exact needGp_then valid.general
  exact decodes_short (valid.general _ (.head _)) (by decide) encoded
    (fun _ low digit => (short_found low digit).1) rfl (fun _ => rfl) (fun _ _ => rfl)

theorem pop_decodes {reg : Register} (valid : (Instruction.pop reg).Valid) :
    (Instruction.pop reg).Decodes ⟨.pop, [.reg .qword reg]⟩ := by
  have encoded : (Instruction.pop reg).encode = .ok (shortForm false 0x58 reg ++ []) := by
    rw [List.append_nil]
    exact needGp_then valid.general
  exact decodes_short (valid.general _ (.head _)) (by decide) encoded
    (fun _ low digit => (short_found low digit).2.1) rfl (fun _ => rfl) (fun _ _ => rfl)

theorem movabs_decodes {dst : Register} {imm : UInt64}
    (valid : (Instruction.movabs dst imm).Valid) :
    (Instruction.movabs dst imm).Decodes ⟨.mov, [.reg .qword dst, .imm imm.toInt64.toInt]⟩ :=
  decodes_short (valid.general _ (.head _)) (by decide) (needGp_then valid.general)
    (fun _ low digit => (short_found low digit).2.2.2) rfl (readImmediate_signed64 imm)
    (fun _ _ => rfl)

/-! ## Moves of constants -/

/-- The low word of a number, read back. -/
theorem ofInt_wordOf (value : Int) :
    BitVec.ofInt 32 (wordOf value).toInt32.toInt = BitVec.ofInt 32 value := by
  have word : (wordOf value).toBitVec = BitVec.ofInt 32 value := by
    apply BitVec.eq_of_toNat_eq
    rw [BitVec.toNat_ofInt]
    change (UInt32.ofNat (value % 4294967296).toNat).toNat = _
    rw [UInt32.toNat_ofNat']
    omega
  rw [← word]
  exact BitVec.ofInt_toInt

theorem setWidth_eq_ofInt (value : Int64) :
    value.toBitVec.setWidth 32 = BitVec.ofInt 32 value.toInt := by
  have whole := BitVec.toInt_eq_toNat_cond value.toBitVec
  have same := Int64.toInt_toBitVec value
  apply BitVec.eq_of_toNat_eq
  rw [BitVec.toNat_setWidth, BitVec.toNat_ofInt]
  split at whole
  · omega
  · omega

/-- Clearing the upper half does not change a number that fits the lower one. -/
theorem setWidth_ofInt {value : Int64} (low : 0 ≤ value.toInt)
    (high : value.toInt < 4294967296) :
    (BitVec.ofInt 32 value.toInt).setWidth 64 = value.toBitVec := by
  have whole := BitVec.toInt_eq_toNat_cond value.toBitVec
  have same := Int64.toInt_toBitVec value
  have bound := value.toBitVec.isLt
  apply BitVec.eq_of_toNat_eq
  rw [BitVec.toNat_setWidth, BitVec.toNat_ofInt]
  split at whole
  · omega
  · omega

section Constant

variable {instruction : Instruction} {dst : Register}

theorem decodes_moveShort {value : Int} (general : dst.isGp = true)
    (encoded : instruction.encode = .ok (shortForm false 0xb8 dst ++ bytes32 (wordOf value))) :
    ∃ decoded, instruction.Decodes decoded ∧
      decoded.loaded? = some (dst, (BitVec.ofInt 32 value).setWidth 64) := by
  refine ⟨⟨.mov, [.reg .dword dst, .imm (wordOf value).toInt32.toInt]⟩, ?_, ?_⟩
  · exact decodes_short general (by decide) encoded
      (fun _ low digit => (short_found low digit).2.2.1) rfl
      (readImmediate_signed32 (wordOf value)) (fun _ _ => rfl)
  · rw [Decoded.loaded?, ofInt_wordOf]

theorem decodes_moveConstant {imm : Int64} (general : dst.isGp = true)
    (encoded : instruction.encode = .ok (moveConstant dst imm)) :
    ∃ decoded, instruction.Decodes decoded ∧
      decoded.loaded? = some (dst, imm.toBitVec) := by
  unfold moveConstant at encoded
  split at encoded
  · rename_i fits
    simp only [fitsInt32, Bool.and_eq_true, decide_eq_true_eq] at fits
    have value : (wordOf imm.toInt).toInt32.toInt = imm.toInt :=
      toInt_wordOf (by omega) (by omega)
    refine ⟨_, decodes_registerImm (means_moveImm .i64) encoded
      (readImmediate_signed32 (wordOf imm.toInt))
      (fun _ _ => Kind.operand_rm (by decide) general) (fun _ _ _ => rfl), ?_⟩
    rw [value]
    exact congrArg (fun bits => some (dst, bits)) BitVec.ofInt_toInt
  · split at encoded
    · rename_i unsigned
      rw [← setWidth_ofInt unsigned.1 unsigned.2]
      exact decodes_moveShort general encoded
    · refine ⟨_, decodes_short general (by decide) encoded
        (fun _ low digit => (short_found low digit).2.2.2) rfl
        (readImmediate_signed64 imm.toUInt64) (fun _ _ => rfl), ?_⟩
      exact congrArg (fun bits => some (dst, bits)) BitVec.ofInt_toInt

end Constant

theorem movImm_decodes {type : ValueType} {dst : Register} {imm : Int64}
    (valid : (Instruction.movImm type dst imm).Valid) :
    ∃ decoded, (Instruction.movImm type dst imm).Decodes decoded ∧
      decoded.loaded? = some (dst, type.constant imm) := by
  have general := valid.general dst (.head _)
  have integer := valid.integers type (.head _)
  cases type with
  | i32 =>
    rw [show ValueType.i32.constant imm = (imm.toBitVec.setWidth 32).setWidth 64 from rfl,
      setWidth_eq_ofInt]
    apply decodes_moveShort general
    exact (needInteger_then rfl).trans (needGp_then valid.general)
  | i64 =>
    apply decodes_moveConstant general
    exact (needInteger_then rfl).trans (needGp_then valid.general)
  | f32 => simp [ValueType.isInteger] at integer
  | f64 => simp [ValueType.isInteger] at integer
  | unknown code => simp [ValueType.isInteger] at integer

/-! ## Calls and jumps through operands -/

theorem callReg_decodes {reg : Register} (valid : (Instruction.callReg reg).Valid) :
    (Instruction.callReg reg).Decodes ⟨.call, [.reg .qword reg]⟩ := by
  have means : OpcodeForm.Means { opcode := [0xff] } 2 .call [.rm .qword] :=
    ⟨by decide, ⟨_, _, OpcodeForm.stands_one rfl (.head _) (by decide), rfl⟩, rfl⟩
  exact decodes_register means (needGp_then valid.general) (fun _ => rfl)
    (fun _ _ => Kind.operand_rm (by decide) (valid.general _ (.head _)))

/-- The form of a jump through an operand. -/
theorem means_jmp : OpcodeForm.Means { opcode := [0xff] } 4 .jmp [.rm .qword] :=
  ⟨by decide, ⟨_, _, OpcodeForm.stands_one rfl (.head _) (by decide), rfl⟩, rfl⟩

theorem jmpReg_decodes {reg : Register} (valid : (Instruction.jmpReg reg).Valid) :
    (Instruction.jmpReg reg).Decodes ⟨.jmp, [.reg .qword reg]⟩ :=
  decodes_register means_jmp (needGp_then valid.general) (fun _ => rfl)
    (fun _ _ => Kind.operand_rm (by decide) (valid.general _ (.head _)))

theorem jmpLoad_decodes {src : Address} (valid : (Instruction.jmpLoad src).Valid) :
    (Instruction.jmpLoad src).Decodes ⟨.jmp, [.memory .qword src.normal]⟩ :=
  decodes_address means_jmp (valid.addresses _ (.head _)) rfl (fun _ => rfl) (fun _ _ => rfl)

theorem pushLoad_decodes {src : Address} (valid : (Instruction.pushLoad src).Valid) :
    (Instruction.pushLoad src).Decodes ⟨.push, [.memory .qword src.normal]⟩ := by
  have means : OpcodeForm.Means { opcode := [0xff] } 6 .push [.rm .qword] :=
    ⟨by decide, ⟨_, _, OpcodeForm.stands_one rfl (.head _) (by decide), rfl⟩, rfl⟩
  exact decodes_address means (valid.addresses _ (.head _)) rfl (fun _ => rfl) (fun _ _ => rfl)

end Instruction

end WasmX64
