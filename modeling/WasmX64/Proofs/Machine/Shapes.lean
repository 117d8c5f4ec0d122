import WasmX64.Proofs.Machine.Fields

/-!
# What an instruction asks for

The operation and the operands that an `Instruction` names, in the terms of the decoder, and
the operands it may be given.  Neither mentions an encoding; the forms that the encodings share are
read back behind them.
-/

namespace WasmX64

open Decode

/-- The width of the integers of a type. -/
def Decode.Width.ofType (type : ValueType) : Width :=
  if type = .i64 then .qword else .dword

/-- The precision of a floating-point type. -/
def Decode.Precision.ofType (type : ValueType) : Precision :=
  if type = .f64 then .double else .single

/-- The operation of a declared code of the integer group. -/
def AluOp.operation? (op : AluOp) : Option Operation :=
  [(AluOp.add, Operation.add), (.or, .or), (.and, .and), (.sub, .sub), (.xor, .xor),
    (.cmp, .cmp)].lookup op

/-- The operation of a declared code of the shift group. -/
def ShiftOp.operation? (op : ShiftOp) : Option Operation :=
  [(ShiftOp.rol, Operation.rol), (.ror, .ror), (.shl, .shl), (.shr, .shr), (.sar, .sar)].lookup op

/-- The operation of a declared code of scalar arithmetic. -/
def SseOp.operation? (op : SseOp) : Option Arithmetic :=
  [(SseOp.sqrt, Arithmetic.sqrt), (.add, .add), (.mul, .mul), (.sub, .sub), (⟨0x5d⟩, .min),
    (.div, .div), (⟨0x5f⟩, .max)].lookup op

/-- The operation of a declared code of packed logic. -/
def LogicOp.operation? (op : LogicOp) : Option Logic :=
  [(LogicOp.and, Logic.and), (.andNot, .andNot), (.or, .or), (.xor, .xor)].lookup op

def Extension.operation? (extension : Extension) : Option (Operation × Width) :=
  [(Extension.zero8, Operation.movzx, Width.byte), (.zero16, .movzx, .word),
    (.sign8, .movsx, .byte), (.sign16, .movsx, .word), (.sign32, .movsxd, .dword)].lookup extension

/-- The width that an extension fills: that of the operand type, except that 32 bits are
always extended to 64. -/
def Extension.target (extension : Extension) (type : ValueType) : Width :=
  if extension = .sign32 then .qword else .ofType type

/-- The operation of a one-operand integer instruction. -/
def UnaryOp.operation : UnaryOp → Operation
  | .not => .not
  | .neg => .neg
  | .div => .div
  | .idiv => .idiv

def ScanOp.operation : ScanOp → Operation
  | .bsr => .bsr
  | .bsf => .bsf
  | .popcnt => .popcnt

/-- A declared rounding direction. -/
def RoundMode.isDeclared (mode : RoundMode) : Bool :=
  mode ∈ [RoundMode.nearest, .down, .up, .towardZero]

/-- What a decoded move leaves in a whole register: a move of 32 bits clears the upper
half. -/
def Decode.Decoded.loaded? : Decoded → Option (Register × BitVec 64)
  | ⟨.mov, [.reg .dword reg, .imm value]⟩ => some (reg, (BitVec.ofInt 32 value).setWidth 64)
  | ⟨.mov, [.reg .qword reg, .imm value]⟩ => some (reg, BitVec.ofInt 64 value)
  | _ => none

/-- A constant in the width of a type, as it fills a register. -/
def ValueType.constant (type : ValueType) (value : Int64) : BitVec 64 :=
  if type = .i64 then value.toBitVec else (value.toBitVec.setWidth 32).setWidth 64

namespace Instruction

/-- The operation and the operands of an instruction whose codes are declared ones. -/
def asked : Instruction → Option Decoded
  | .alu op type dst src =>
    op.operation?.map (⟨·, [.reg (.ofType type) dst, .reg (.ofType type) src]⟩)
  | .aluLoad op type dst src =>
    op.operation?.map (⟨·, [.reg (.ofType type) dst, .memory (.ofType type) src.normal]⟩)
  | .aluImm op type dst imm =>
    op.operation?.map (⟨·, [.reg (.ofType type) dst, .imm imm.toInt]⟩)
  | .aluStoreImm op type dst imm =>
    op.operation?.map (⟨·, [.memory (.ofType type) dst.normal, .imm imm.toInt]⟩)
  | .enterFrame size => some ⟨.sub, [.reg .qword .rsp, .imm size.toInt32.toInt]⟩
  | .test type left right =>
    some ⟨.test, [.reg (.ofType type) left, .reg (.ofType type) right]⟩
  | .testImm type reg imm => some ⟨.test, [.reg (.ofType type) reg, .imm imm.toInt]⟩
  | .imul type dst src => some ⟨.imul, [.reg (.ofType type) dst, .reg (.ofType type) src]⟩
  | .unary op type reg => some ⟨op.operation, [.reg (.ofType type) reg]⟩
  | .cdq => some ⟨.spread .dword, []⟩
  | .cqo => some ⟨.spread .qword, []⟩
  | .shiftCl op type reg =>
    op.operation?.map (⟨·, [.reg (.ofType type) reg, .reg .byte .rcx]⟩)
  | .shiftImm op type reg imm =>
    op.operation?.map (⟨·, [.reg (.ofType type) reg, .imm imm.toNat]⟩)
  | .lea type dst src =>
    some ⟨.lea, [.reg (.ofType type) dst, .memory (.ofType type) src.normal]⟩
  | .mov type dst src =>
    if type.isFloat then some ⟨.moveAligned (.ofType type), [.vector dst, .vector src]⟩
    else some ⟨.mov, [.reg (.ofType type) dst, .reg (.ofType type) src]⟩
  | .movImm type dst imm => some ⟨.mov, [.reg (.ofType type) dst, .imm imm.toInt]⟩
  | .movabs dst imm => some ⟨.mov, [.reg .qword dst, .imm imm.toInt64.toInt]⟩
  | .load type dst src =>
    some ⟨.mov, [.reg (.ofType type) dst, .memory (.ofType type) src.normal]⟩
  | .store type dst src =>
    some ⟨.mov, [.memory (.ofType type) dst.normal, .reg (.ofType type) src]⟩
  | .storeImm type dst imm => some ⟨.mov, [.memory (.ofType type) dst.normal, .imm imm.toInt]⟩
  | .storeByte dst src => some ⟨.mov, [.memory .byte dst.normal, .reg .byte src]⟩
  | .storeWord dst src => some ⟨.mov, [.memory .word dst.normal, .reg .word src]⟩
  | .extend extension type dst src =>
    extension.operation?.map fun named =>
      ⟨named.1, [.reg (extension.target type) dst, .reg named.2 src]⟩
  | .extendLoad extension type dst src =>
    extension.operation?.map fun named =>
      ⟨named.1, [.reg (extension.target type) dst, .memory named.2 src.normal]⟩
  | .setcc condition dst =>
    if condition.code < 16 then some ⟨.set condition, [.reg .byte dst]⟩ else none
  | .scan op type dst src =>
    some ⟨op.operation, [.reg (.ofType type) dst, .reg (.ofType type) src]⟩
  | .push reg => some ⟨.push, [.reg .qword reg]⟩
  | .pop reg => some ⟨.pop, [.reg .qword reg]⟩
  | .pushImm imm => some ⟨.push, [.imm imm.toInt]⟩
  | .pushLoad src => some ⟨.push, [.memory .qword src.normal]⟩
  | .callReg reg => some ⟨.call, [.reg .qword reg]⟩
  | .jmpReg reg => some ⟨.jmp, [.reg .qword reg]⟩
  | .jmpLoad src => some ⟨.jmp, [.memory .qword src.normal]⟩
  | .ret => some ⟨.ret, []⟩
  | .int3 => some ⟨.int3, []⟩
  | .sse op type dst src =>
    op.operation?.map (⟨.arithmetic · (.ofType type), [.vector dst, .vector src]⟩)
  | .logic op type dst src =>
    op.operation?.map (⟨.logic · (.ofType type), [.vector dst, .vector src]⟩)
  | .ucomis type left right =>
    some ⟨.compareScalar (.ofType type), [.vector left, .vector right]⟩
  | .floatLoad type dst src =>
    some ⟨.moveScalar (.ofType type),
      [.vector dst, .memory (Precision.ofType type).width src.normal]⟩
  | .floatStore type dst src =>
    some ⟨.moveScalar (.ofType type),
      [.memory (Precision.ofType type).width dst.normal, .vector src]⟩
  | .movToFp type dst src => some ⟨.movd, [.vector dst, .reg (.ofType type) src]⟩
  | .movFromFp type dst src => some ⟨.movd, [.reg (.ofType type) dst, .vector src]⟩
  | .convertInt target source dst src =>
    some ⟨.fromInteger (.ofType target), [.vector dst, .reg (.ofType source) src]⟩
  | .truncateFloat target source dst src =>
    some ⟨.truncate (.ofType source), [.reg (.ofType target) dst, .vector src]⟩
  | .singleToDouble dst src => some ⟨.widen, [.vector dst, .vector src]⟩
  | .doubleToSingle dst src => some ⟨.narrow, [.vector dst, .vector src]⟩
  | .round type dst src mode =>
    -- Bit 3 suppresses the precision exception.
    if mode.isDeclared then
      some ⟨.round (.ofType type), [.vector dst, .vector src, .imm (8 + mode.code.toNat)]⟩
    else none
  | .signBits type dst src => some ⟨.signMask (.ofType type), [.reg .dword dst, .vector src]⟩
  | .equalLanes dst src => some ⟨.equalLanes, [.vector dst, .vector src]⟩
  | .shiftLanes left type reg imm =>
    some ⟨.shiftLanes left (.ofType type), [.vector reg, .imm imm.toNat]⟩

/-- Whether the operation, extension and condition codes are declared ones. -/
def Declared (instruction : Instruction) : Prop := instruction.asked.isSome

/-- Whether a decoded instruction does what was asked.  A constant may be moved in another
width if the register ends up with the same value. -/
def Meets (instruction : Instruction) (decoded : Decoded) : Prop :=
  match instruction with
  | .movImm type dst imm => decoded.loaded? = some (dst, type.constant imm)
  | other => other.asked = some decoded

end Instruction

/-- The operands of an instruction that can be wrong, by what they have to be. -/
structure Demands where
  integers : List ValueType := []
  floats : List ValueType := []
  general : List Register := []
  vectors : List Register := []
  addresses : List Address := []

/-- Every operand is what it has to be. -/
structure Demands.Met (demands : Demands) : Prop where
  integers : ∀ type ∈ demands.integers, type.isInteger = true
  floats : ∀ type ∈ demands.floats, type.isFloat = true
  general : ∀ reg ∈ demands.general, reg.isGp = true
  vectors : ∀ reg ∈ demands.vectors, reg.isFp = true
  addresses : ∀ address ∈ demands.addresses, address.Encodable

namespace Instruction

/-- What the operands of an instruction have to be. -/
def demands : Instruction → Demands
  | .alu _ type dst src | .test type dst src | .imul type dst src | .extend _ type dst src
  | .scan _ type dst src => { integers := [type], general := [dst, src] }
  | .aluLoad _ type reg address | .lea type reg address | .load type reg address
  | .store type address reg | .extendLoad _ type reg address =>
    { integers := [type], general := [reg], addresses := [address] }
  | .aluImm _ type reg _ | .testImm type reg _ | .unary _ type reg | .shiftCl _ type reg
  | .shiftImm _ type reg _ | .movImm type reg _ => { integers := [type], general := [reg] }
  | .aluStoreImm _ type address _ | .storeImm type address _ =>
    { integers := [type], addresses := [address] }
  | .enterFrame _ | .cdq | .cqo | .pushImm _ | .ret | .int3 => {}
  | .mov type dst src =>
    if type.isFloat then { vectors := [dst, src] }
    else { integers := [type], general := [dst, src] }
  | .movabs reg _ | .setcc _ reg | .push reg | .pop reg | .callReg reg | .jmpReg reg =>
    { general := [reg] }
  | .storeByte address reg | .storeWord address reg =>
    { general := [reg], addresses := [address] }
  | .pushLoad address | .jmpLoad address => { addresses := [address] }
  | .sse _ type dst src | .logic _ type dst src | .ucomis type dst src
  | .round type dst src _ => { floats := [type], vectors := [dst, src] }
  | .floatLoad type reg address | .floatStore type address reg =>
    { floats := [type], vectors := [reg], addresses := [address] }
  | .movToFp type dst src => { integers := [type], general := [src], vectors := [dst] }
  | .movFromFp type dst src => { integers := [type], general := [dst], vectors := [src] }
  | .convertInt target source dst src =>
    { integers := [source], floats := [target], general := [src], vectors := [dst] }
  | .truncateFloat target source dst src =>
    { integers := [target], floats := [source], general := [dst], vectors := [src] }
  | .singleToDouble dst src | .doubleToSingle dst src | .equalLanes dst src =>
    { vectors := [dst, src] }
  | .signBits type dst src => { floats := [type], general := [dst], vectors := [src] }
  | .shiftLanes _ type reg _ => { floats := [type], vectors := [reg] }

/-- The operands of an instruction are of the right types and banks, and its address has an
encoding. -/
def Valid (instruction : Instruction) : Prop := instruction.demands.Met

end Instruction

end WasmX64

/-!
## Forms read back

The bytes of an instruction decoded as a whole: a form with a ModRM byte, and the short
forms that keep a register in the opcode.
-/

namespace WasmX64

open Decode

namespace OpcodeForm

/-- The leading bytes of a form as they are read. -/
def leading (form : OpcodeForm) : Leading where
  narrow := form.legacy = some 0x66
  repeats := if form.legacy = some 0x66 then none else form.legacy

/-- The REX byte of a form as it is read, given the register field and the extension bits of
the r/m operand. -/
def rexBits (form : OpcodeForm) (reg rm : UInt8) : Rex where
  present := form.wide || reg &&& 8 ≠ 0 || form.forceRex || rm ≠ 0
  wide := form.wide
  reg := reg &&& 8 ≠ 0
  index := rm &&& 2 ≠ 0
  base := rm &&& 1 ≠ 0

/-- A form that the decoder takes for an opcode: its first bytes do not run into each
other. -/
structure Stands (form : OpcodeForm) (map : OpcodeMap) (opcode : UInt8) : Prop where
  legacy : form.legacy ∈ [none, some 0x66, some 0xf2, some 0xf3]
  head : ∃ head tail, form.opcode = head :: tail ∧ head ∉ [0x66, 0xf2, 0xf3] ∧
    head &&& 0xf0 ≠ 0x40
  read : ∀ rest, readOpcode (form.opcode ++ rest) = some (map, opcode, rest)

theorem stands_one {form : OpcodeForm} {opcode : UInt8} (bytes : form.opcode = [opcode])
    (legacy : form.legacy ∈ [none, some 0x66, some 0xf2, some 0xf3])
    (plain : opcode ∉ [0x66, 0xf2, 0xf3, 0x0f] ∧ opcode &&& 0xf0 ≠ 0x40) :
    form.Stands .one opcode := by
  obtain ⟨apart, bits⟩ := plain
  simp only [List.mem_cons, List.not_mem_nil, or_false, not_or] at apart
  obtain ⟨size, double, single, escape⟩ := apart
  constructor
  · exact legacy
  · exact ⟨opcode, [], bytes, by simp [size, double, single], bits⟩
  · intro rest
    simp [bytes, readOpcode, escape]

theorem stands_two {form : OpcodeForm} {opcode : UInt8} (bytes : form.opcode = [0x0f, opcode])
    (legacy : form.legacy ∈ [none, some 0x66, some 0xf2, some 0xf3])
    (plain : opcode ≠ 0x38 ∧ opcode ≠ 0x3a) : form.Stands .two opcode := by
  constructor
  · exact legacy
  · exact ⟨0x0f, [opcode], bytes, by decide, by decide⟩
  · intro rest
    simp [bytes, readOpcode, plain]

theorem stands_three {form : OpcodeForm} {opcode : UInt8}
    (bytes : form.opcode = [0x0f, 0x3a, opcode])
    (legacy : form.legacy ∈ [none, some 0x66, some 0xf2, some 0xf3]) :
    form.Stands .three opcode := by
  constructor
  · exact legacy
  · exact ⟨0x0f, [0x3a, opcode], bytes, by decide, by decide⟩
  · intro rest
    simp [bytes, readOpcode]

theorem readLeading_legacy {form : OpcodeForm} {map : OpcodeMap} {opcode : UInt8}
    (stands : form.Stands map opcode) {head : UInt8} (plain : head ∉ [0x66, 0xf2, 0xf3])
    (rest : List UInt8) :
    readLeading {} (form.legacy.toList ++ head :: rest) = (form.leading, head :: rest) := by
  simp only [List.mem_cons, List.not_mem_nil, or_false, not_or] at plain
  obtain ⟨size, double, single⟩ := plain
  have legacy := stands.legacy
  simp only [List.mem_cons, List.not_mem_nil, or_false] at legacy
  unfold leading
  obtain none | narrow | double' | single' := legacy
  · simp [none, readLeading, size, double, single]
  · simp [narrow, readLeading, size, double, single]
  · simp [double', readLeading, size, double, single]
  · simp [single', readLeading, size, double, single]

theorem rex_fields {rm : UInt8} (small : rm.toNat < 4) (wide reg : Bool) :
    let byte := 0x40 ||| rm ||| (if wide then 0x08 else 0) ||| (if reg then 0x04 else 0)
    byte &&& 0xf0 = 0x40 ∧ byte ∉ [0x66, 0xf2, 0xf3] ∧
      Rex.ofByte byte = ⟨true, wide, reg, rm &&& 2 ≠ 0, rm &&& 1 ≠ 0⟩ := by
  have all : ∀ (wide reg : Bool) (rm : Fin 4),
      let byte := 0x40 ||| UInt8.ofNat rm ||| (if wide then 0x08 else 0) |||
        (if reg then 0x04 else 0)
      byte &&& 0xf0 = 0x40 ∧ byte ∉ [0x66, 0xf2, 0xf3] ∧
        Rex.ofByte byte =
          ⟨true, wide, reg, UInt8.ofNat rm &&& 2 ≠ 0, UInt8.ofNat rm &&& 1 ≠ 0⟩ := by
    decide +kernel
  have found := all wide reg ⟨rm.toNat, small⟩
  simpa only [UInt8.ofNat_toNat] using found

theorem readRex_rex (form : OpcodeForm) (reg : UInt8) {rm : UInt8} (small : rm.toNat < 4)
    {head : UInt8} (plain : head ∉ [0x66, 0xf2, 0xf3]) (other : head &&& 0xf0 ≠ 0x40)
    (tail : List UInt8) :
    readRex (form.rex reg rm ++ head :: tail) = (form.rexBits reg rm, head :: tail) ∧
      ∃ first rest, form.rex reg rm ++ head :: tail = first :: rest ∧
        first ∉ [0x66, 0xf2, 0xf3] := by
  obtain ⟨mark, apart, bits⟩ := rex_fields small form.wide (reg &&& 8 ≠ 0)
  unfold rex rexBits
  dsimp only
  split
  · rename_i bare
    simp only [Bool.and_eq_true, Bool.not_eq_true', decide_eq_true_eq, decide_eq_false_iff_not,
      ne_eq, Decidable.not_not] at bare
    obtain ⟨⟨⟨wide, field⟩, force⟩, none⟩ := bare
    constructor
    · simp [readRex, other, wide, field, force, none]
    · exact ⟨head, tail, rfl, plain⟩
  · rename_i bare
    have present : (form.wide || decide (reg &&& 8 ≠ 0) || form.forceRex || decide (rm ≠ 0)) =
        true := by
      simp only [Bool.and_eq_true, Bool.not_eq_true', decide_eq_true_eq,
        decide_eq_false_iff_not] at bare
      simp only [Bool.or_eq_true, decide_eq_true_eq]
      grind
    simp only [decide_eq_true_eq] at mark apart bits
    constructor
    · rw [List.cons_append, readRex, if_pos mark, bits, present]
      rfl
    · exact ⟨_, _, rfl, apart⟩

/-- Decoding gets through to the opcode. -/
theorem decode_opened {form : OpcodeForm} {map : OpcodeMap} {opcode : UInt8}
    (stands : form.Stands map opcode) (reg : UInt8) {rm : UInt8} (small : rm.toNat < 4)
    (behind : List UInt8) :
    decode (form.legacy.toList ++ form.rex reg rm ++ form.opcode ++ behind) =
      decodeOpcode form.leading (form.rexBits reg rm) (form.opcode ++ behind) := by
  obtain ⟨head, tail, split, plain, other⟩ := stands.head
  have opened : form.opcode ++ behind = head :: (tail ++ behind) := by
    rw [split, List.cons_append]
  obtain ⟨rex, first, after, joined, apart⟩ :=
    form.readRex_rex reg small plain other (tail ++ behind)
  rw [List.append_assoc, List.append_assoc, opened, decode, joined,
    readLeading_legacy stands apart, ← joined]
  dsimp only
  rw [rex]

/-- The decoded instruction of a form with a ModRM byte, from what its opcode stands for and
from its operands. -/
theorem decode_bytes {form : OpcodeForm} {map : OpcodeMap} {opcode reg : UInt8}
    {operand : RmOperand} {rm : RmField} {operation : Operation} {kinds : List Kind}
    {immediate : List UInt8} {value : Int} {operands : List Operand}
    (stands : form.Stands map opcode) (regSmall : reg.toNat < 16) (reads : operand.Reads rm)
    (found : lookup form.leading form.wide map opcode (reg &&& 7) = some (operation, kinds))
    (uses : kinds.any Kind.usesFields = true)
    (constant : ∀ rest, readImmediates kinds (immediate ++ rest) = some (value, rest))
    (given : kinds.mapM (Kind.operand (form.rexBits reg operand.rex) (opcode &&& 7) ⟨reg, rm⟩
      value) = some operands) (rest : List UInt8) :
    decode (form.bytes reg operand ++ immediate ++ rest) =
      some (⟨operation, operands⟩, rest) := by
  let behind := operand.bytes reg ++ (immediate ++ rest)
  have whole : form.bytes reg operand ++ immediate ++ rest =
      form.legacy.toList ++ form.rex reg operand.rex ++ form.opcode ++ behind := by
    simp only [OpcodeForm.bytes, behind, List.append_assoc]
  have digit : (behind.head?.getD 0 >>> 3) &&& 7 = reg &&& 7 := reads.digit reg
  have extended : extendBits (reg &&& 7) (form.rexBits reg operand.rex).reg = reg :=
    extendBits_split regSmall
  have fields := reads.fields (form.rexBits reg operand.rex) reg (immediate ++ rest) rfl rfl
  rw [extended] at fields
  rw [whole, decode_opened stands reg reads.rexSmall behind, decodeOpcode, stands.read behind]
  simp only [Option.bind_eq_bind, Option.bind_some]
  rw [digit, show (form.rexBits reg operand.rex).wide = form.wide from rfl, found]
  simp only [Option.bind_some, readFields, if_pos uses, behind, fields, constant, given]
  rfl

/-- The decoded instruction of a form without a ModRM byte. -/
theorem decode_bare {form : OpcodeForm} {opcode rm : UInt8} {operation : Operation}
    {kinds : List Kind} {immediate : List UInt8} {value : Int} {operands : List Operand}
    (stands : form.Stands .one opcode) (small : rm.toNat < 4)
    (found : ∀ digit, lookup form.leading form.wide .one opcode digit = some (operation, kinds))
    (uses : kinds.any Kind.usesFields = false)
    (constant : ∀ rest, readImmediates kinds (immediate ++ rest) = some (value, rest))
    (given : kinds.mapM (Kind.operand (form.rexBits 0 rm) (opcode &&& 7) ⟨0, .register 0⟩
      value) = some operands) (rest : List UInt8) :
    decode (form.legacy.toList ++ form.rex 0 rm ++ form.opcode ++ immediate ++ rest) =
      some (⟨operation, operands⟩, rest) := by
  rw [List.append_assoc _ immediate rest, decode_opened stands 0 small, decodeOpcode, stands.read]
  simp only [Option.bind_eq_bind, Option.bind_some]
  rw [show (form.rexBits 0 rm).wide = form.wide from rfl, found]
  simp only [Option.bind_some, readFields, uses, Bool.false_eq_true, if_false, constant, given]
  rfl

end OpcodeForm

theorem Instruction.shortForm_eq (wide : Bool) (opcode : UInt8) (reg : Register) :
    shortForm wide opcode reg =
      OpcodeForm.rex { wide, opcode := [opcode + reg.low] } 0 (if reg.high then 1 else 0) ++
        [opcode + reg.low] := by
  have same : ∀ wide high : Bool,
      (let rex : UInt8 := (if wide then 0x48 else 0) ||| (if high then 0x41 else 0)
        if rex = 0 then [] else [rex]) =
        OpcodeForm.rex { wide, opcode := [] } 0 (if high then 1 else 0) := by
    decide
  exact congrArg (· ++ [opcode + reg.low]) (same wide reg.high)

namespace Decode

/-! ## Immediates -/

theorem readImmediate_signed8 {value : Int} (fits : fitsInt8 value = true) (rest : List UInt8) :
    Kind.signed8.readImmediate ([byteOf value] ++ rest) = some (value, rest) := by
  simp only [fitsInt8, Bool.and_eq_true, decide_eq_true_eq] at fits
  change some ((byteOf value).toInt8.toInt, rest) = _
  rw [toInt_byteOf fits.1 fits.2]

theorem readImmediate_signed32 (word : UInt32) (rest : List UInt8) :
    Kind.signed32.readImmediate (bytes32 word ++ rest) = some (word.toInt32.toInt, rest) := by
  rw [Kind.readImmediate, readWord_bytes32, Option.map_some]

theorem readImmediate_wordOf (value : Int32) (rest : List UInt8) :
    Kind.signed32.readImmediate (bytes32 (wordOf value.toInt) ++ rest) =
      some (value.toInt, rest) := by
  rw [readImmediate_signed32, Address.toInt32_wordOf]

/-- The halves of a double word put together. -/
theorem join_words (word : UInt64) :
    word.toUInt32.toUInt64 ||| (word >>> 32).toUInt32.toUInt64 <<< 32 = word := by
  apply UInt64.eq_of_toBitVec_eq
  apply BitVec.eq_of_getLsbD_eq
  intro index small
  simp only [UInt64.toBitVec_or, UInt64.toBitVec_shiftLeft, UInt32.toBitVec_toUInt64,
    UInt64.toBitVec_toUInt32, UInt64.toBitVec_shiftRight, BitVec.getLsbD_or]
  simp
  by_cases low : index < 32
  · grind
  · have upper : word.toBitVec.getLsbD (32 + (index - 32)) = word.toBitVec.getLsbD index := by
      congr 1
      omega
    grind

theorem readImmediate_signed64 (word : UInt64) (rest : List UInt8) :
    Kind.signed64.readImmediate (bytes64 word ++ rest) = some (word.toInt64.toInt, rest) := by
  rw [Kind.readImmediate, bytes64, List.append_assoc, readWord_bytes32, Option.bind_some,
    readWord_bytes32, Option.map_some, join_words]

/-! ## Operands -/

theorem generalOperand_wide {width : Width} (wide : width ≠ .byte) (rex : Bool) {reg : Register}
    (general : reg.isGp = true) : generalOperand rex width reg.bits4 = .reg width reg := by
  rw [generalOperand, if_neg fun narrow => wide narrow.1, Register.eq_of_bits4 general]

theorem generalOperand_byte {rex : Bool} {reg : Register} (general : reg.isGp = true)
    (present : Instruction.lowByteNeedsRex reg = true → rex = true) :
    generalOperand rex .byte reg.bits4 = .reg .byte reg := by
  have number : reg.bits4 = reg.code := congrArg Register.code (Register.eq_of_bits4 general)
  have plain : ¬ (Width.byte = .byte ∧ rex = false ∧ 4 ≤ reg.bits4) := by
    rintro ⟨_, absent, large⟩
    rw [number] at large
    have rex := present (by simp [Instruction.lowByteNeedsRex, general, large])
    simp [rex] at absent
  rw [generalOperand, if_neg plain, Register.eq_of_bits4 general]

end Decode

/-! ## Shapes of instructions

Instructions by the kinds of their operands.  What a form means is looked up once for all
widths and precisions; then the operands are read back one by one.
-/

open Decode

namespace Decode

theorem operandWidth_integer (type : ValueType) :
    operandWidth {} (type = .i64) = .ofType type := by
  by_cases wide : type = .i64
  · simp [operandWidth, Width.ofType, wide]
  · simp [operandWidth, Width.ofType, wide]

theorem Width.ofType_ne_byte (type : ValueType) : Width.ofType type ≠ .byte := by
  unfold Width.ofType
  split
  · simp
  · simp

namespace Kind

variable {rex : Rex} {low field : UInt8} {value : Int} {reg : Register} {width : Width}

theorem operand_reg {rm : RmField} (wide : width ≠ .byte) (general : reg.isGp = true) :
    (Kind.reg width).operand rex low ⟨reg.bits4, rm⟩ value = some (.reg width reg) :=
  congrArg some (generalOperand_wide wide rex.present general)

theorem operand_rm (wide : width ≠ .byte) (general : reg.isGp = true) :
    (Kind.rm width).operand rex low ⟨field, .register reg.bits4⟩ value = some (.reg width reg) :=
  congrArg some (generalOperand_wide wide rex.present general)

theorem operand_vectorReg {rm : RmField} (vector : reg.isFp = true) :
    Kind.vectorReg.operand rex low ⟨reg.bits4, rm⟩ value = some (.vector reg) :=
  congrArg (some ∘ Operand.vector) (Register.eq_of_bits4_vector vector)

theorem operand_vectorRm (vector : reg.isFp = true) :
    (Kind.vectorRm width).operand rex low ⟨field, .register reg.bits4⟩ value =
      some (.vector reg) :=
  congrArg (some ∘ Operand.vector) (Register.eq_of_bits4_vector vector)

theorem operand_vectorOnly (vector : reg.isFp = true) :
    Kind.vectorOnly.operand rex low ⟨field, .register reg.bits4⟩ value = some (.vector reg) :=
  congrArg (some ∘ Operand.vector) (Register.eq_of_bits4_vector vector)

end Kind

end Decode

/-- A form stands for an operation on operands of some kinds, given the register field. -/
structure OpcodeForm.Means (form : OpcodeForm) (reg : UInt8) (operation : Operation)
    (kinds : List Kind) : Prop where
  small : reg.toNat < 16
  opcode : ∃ map opcode, form.Stands map opcode ∧
    lookup form.leading form.wide map opcode (reg &&& 7) = some (operation, kinds)
  uses : kinds.any Kind.usesFields = true

namespace Instruction

section Demanding

variable {what : String} {type : ValueType} {regs : List Register}
  {next : Except CodeError (List UInt8)}

theorem needInteger_then (integer : type.isInteger = true) :
    (do needInteger what type; next) = next := by
  rw [needInteger, if_pos integer]
  rfl

theorem needFloat_then (float : type.isFloat = true) :
    (do needFloat what type; next) = next := by
  rw [needFloat, if_pos float]
  rfl

theorem needGp_then (general : ∀ reg ∈ regs, reg.isGp = true) :
    (do needGp what regs; next) = next := by
  have none : regs.find? (!·.isGp) = none := by
    rw [List.find?_eq_none]
    intro reg member
    simp [general reg member]
  rw [needGp, none]
  rfl

theorem needFp_then (vectors : ∀ reg ∈ regs, reg.isFp = true) :
    (do needFp what regs; next) = next := by
  have none : regs.find? (!·.isFp) = none := by
    rw [List.find?_eq_none]
    intro reg member
    simp [vectors reg member]
  rw [needFp, none]
  rfl

end Demanding

/-- An instruction has an encoding that decodes, whatever follows it. -/
def Decodes (instruction : Instruction) (decoded : Decoded) : Prop :=
  ∃ bytes, instruction.encode = .ok bytes ∧
    ∀ rest, decode (bytes ++ rest) = some (decoded, rest)

section Shapes

variable {instruction : Instruction} {form : OpcodeForm} {reg : UInt8} {operation : Operation}
  {kind first second : Kind} {left right : Operand} {rm : Register} {address : Address}
  {immediate : List UInt8} {value : Int}

theorem decodes_of {kinds : List Kind} {operand : RmOperand} {field : RmField}
    {operands : List Operand} (means : form.Means reg operation kinds)
    (reads : operand.Reads field)
    (encoded : instruction.encode = .ok (form.bytes reg operand ++ immediate))
    (constant : ∀ rest, readImmediates kinds (immediate ++ rest) = some (value, rest))
    (given : ∀ low, kinds.mapM (Kind.operand (form.rexBits reg operand.rex) low ⟨reg, field⟩
      value) = some operands) :
    instruction.Decodes ⟨operation, operands⟩ := by
  obtain ⟨map, opcode, stands, found⟩ := means.opcode
  exact ⟨_, encoded, OpcodeForm.decode_bytes stands means.small reads found means.uses constant
    (given _)⟩

theorem decodes_ofAddress {kinds : List Kind} {operands : List Operand}
    (means : form.Means reg operation kinds) (encodable : address.Encodable)
    (encoded : instruction.encode = (form.withAddress reg address).map (· ++ immediate))
    (constant : ∀ rest, readImmediates kinds (immediate ++ rest) = some (value, rest))
    (given : ∀ extended low, kinds.mapM (Kind.operand (form.rexBits reg extended) low
      ⟨reg, .memory address.normal⟩ value) = some operands) :
    instruction.Decodes ⟨operation, operands⟩ := by
  obtain ⟨operand, found, reads⟩ := Address.encode_reads encodable
  rw [OpcodeForm.withAddress, found] at encoded
  exact decodes_of means reads encoded constant (given operand.rex)

theorem decodes_register (means : form.Means reg operation [kind])
    (encoded : instruction.encode = .ok (form.withReg reg rm))
    (bare : ∀ rest, kind.readImmediate rest = some (0, rest))
    (given : ∀ extended low, kind.operand (form.rexBits reg extended) low
      ⟨reg, .register rm.bits4⟩ 0 = some left) :
    instruction.Decodes ⟨operation, [left]⟩ := by
  rw [OpcodeForm.withReg, ← List.append_nil (form.bytes _ _)] at encoded
  apply decodes_of means (RmOperand.ofRegister_reads rm) encoded bare
  intro low
  simp [given]

theorem decodes_registers (means : form.Means reg operation [first, second])
    (encoded : instruction.encode = .ok (form.withReg reg rm))
    (bare : ∀ rest, second.readImmediate rest = some (0, rest))
    (leftGiven : ∀ extended low, first.operand (form.rexBits reg extended) low
      ⟨reg, .register rm.bits4⟩ 0 = some left)
    (rightGiven : ∀ extended low, second.operand (form.rexBits reg extended) low
      ⟨reg, .register rm.bits4⟩ 0 = some right) :
    instruction.Decodes ⟨operation, [left, right]⟩ := by
  rw [OpcodeForm.withReg, ← List.append_nil (form.bytes _ _)] at encoded
  apply decodes_of means (RmOperand.ofRegister_reads rm) encoded bare
  intro low
  simp [leftGiven, rightGiven]

theorem map_append_nil (encoded : Except CodeError (List UInt8)) :
    encoded.map (· ++ []) = encoded := by
  cases encoded with
  | error error => rfl
  | ok bytes => exact congrArg Except.ok (List.append_nil bytes)

theorem decodes_address (means : form.Means reg operation [kind])
    (encodable : address.Encodable) (encoded : instruction.encode = form.withAddress reg address)
    (bare : ∀ rest, kind.readImmediate rest = some (0, rest))
    (given : ∀ extended low, kind.operand (form.rexBits reg extended) low
      ⟨reg, .memory address.normal⟩ 0 = some left) :
    instruction.Decodes ⟨operation, [left]⟩ := by
  apply decodes_ofAddress means encodable (encoded.trans (map_append_nil _).symm) bare
  intro extended low
  simp [given]

theorem decodes_addresses (means : form.Means reg operation [first, second])
    (encodable : address.Encodable) (encoded : instruction.encode = form.withAddress reg address)
    (bare : ∀ rest, second.readImmediate rest = some (0, rest))
    (leftGiven : ∀ extended low, first.operand (form.rexBits reg extended) low
      ⟨reg, .memory address.normal⟩ 0 = some left)
    (rightGiven : ∀ extended low, second.operand (form.rexBits reg extended) low
      ⟨reg, .memory address.normal⟩ 0 = some right) :
    instruction.Decodes ⟨operation, [left, right]⟩ := by
  apply decodes_ofAddress means encodable (encoded.trans (map_append_nil _).symm) bare
  intro extended low
  simp [leftGiven, rightGiven]

theorem decodes_registerImm (means : form.Means reg operation [first, second])
    (encoded : instruction.encode = .ok (form.withReg reg rm ++ immediate))
    (constant : ∀ rest, second.readImmediate (immediate ++ rest) = some (value, rest))
    (given : ∀ extended low, first.operand (form.rexBits reg extended) low
      ⟨reg, .register rm.bits4⟩ value = some left)
    (taken : ∀ rex low fields, second.operand rex low fields value = some (.imm value)) :
    instruction.Decodes ⟨operation, [left, .imm value]⟩ := by
  apply decodes_of means (RmOperand.ofRegister_reads rm) encoded constant
  intro low
  simp [given, taken]

theorem decodes_addressImm {width : Width} (means : form.Means reg operation [.rm width, second])
    (encodable : address.Encodable)
    (encoded : instruction.encode = (form.withAddress reg address).map (· ++ immediate))
    (constant : ∀ rest, second.readImmediate (immediate ++ rest) = some (value, rest))
    (taken : ∀ rex low fields, second.operand rex low fields value = some (.imm value)) :
    instruction.Decodes ⟨operation, [.memory width address.normal, .imm value]⟩ := by
  apply decodes_ofAddress means encodable encoded constant
  intro extended low
  have memory : (Kind.rm width).operand (form.rexBits reg extended) low
      ⟨reg, .memory address.normal⟩ value = some (.memory width address.normal) := rfl
  simp [memory, taken]

end Shapes

theorem rexBits_present {form : OpcodeForm} (force : form.forceRex = true)
    (reg extended : UInt8) : (form.rexBits reg extended).present = true := by
  simp [OpcodeForm.rexBits, force]

section Meaning

variable {form : OpcodeForm} {map : OpcodeMap} {opcode reg : UInt8} {operation : Operation}

theorem means_width (kinds : Width → List Kind) {type : ValueType}
    (stands : form.Stands map opcode) (wide : form.wide = decide (type = .i64))
    (small : reg.toNat < 16)
    (found : ∀ wide, lookup form.leading wide map opcode (reg &&& 7) =
      some (operation, kinds (operandWidth {} wide)))
    (uses : ∀ width, (kinds width).any Kind.usesFields = true) :
    form.Means reg operation (kinds (.ofType type)) := by
  have looked := found form.wide
  rw [wide, operandWidth_integer, ← wide] at looked
  exact ⟨small, ⟨_, _, stands, looked⟩, uses _⟩

theorem means_integer (opcode : UInt8) (kinds : Width → List Kind) {type : ValueType}
    (plain : opcode ∉ [0x66, 0xf2, 0xf3, 0x0f] ∧ opcode &&& 0xf0 ≠ 0x40)
    (small : reg.toNat < 16)
    (found : ∀ wide, lookup {} wide .one opcode (reg &&& 7) =
      some (operation, kinds (operandWidth {} wide)))
    (uses : ∀ width, (kinds width).any Kind.usesFields = true) :
    (integerForm type [opcode]).Means reg operation (kinds (.ofType type)) :=
  means_width kinds (OpcodeForm.stands_one rfl (.head _) plain) rfl small found uses

end Meaning

end Instruction

end WasmX64
