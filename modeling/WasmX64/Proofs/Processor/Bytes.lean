import WasmX64.Proofs.Machine.Encoded
import WasmX64.Proofs.Processor.Lanes

/-!
# Running machine code

What a processor does with bytes.  It decodes what lies at an offset and runs the instruction
that it finds, or follows a jump.  An instruction that was emitted is run from its bytes as it is
run by itself.
-/

namespace WasmX64

open Decode

namespace Decode

/-- The integer type of a width. -/
def Width.type? : Width → Option ValueType
  | .dword => some .i32
  | .qword => some .i64
  | _ => none

/-- The floating-point type of a precision. -/
def Precision.type : Precision → ValueType
  | .single => .f32
  | .double => .f64

namespace Operation

/-- The code of an operation of the integer group. -/
def alu? : Operation → Option AluOp
  | .add => some .add
  | .or => some .or
  | .and => some .and
  | .sub => some .sub
  | .xor => some .xor
  | .cmp => some .cmp
  | _ => none

/-- The code of a shift or rotation. -/
def shift? : Operation → Option ShiftOp
  | .rol => some .rol
  | .ror => some .ror
  | .shl => some .shl
  | .shr => some .shr
  | .sar => some .sar
  | _ => none

/-- The code of an operation on one register. -/
def unary? : Operation → Option UnaryOp
  | .not => some .not
  | .neg => some .neg
  | .div => some .div
  | .idiv => some .idiv
  | _ => none

/-- The code of a scan. -/
def scan? : Operation → Option ScanOp
  | .bsr => some .bsr
  | .bsf => some .bsf
  | .popcnt => some .popcnt
  | _ => none

/-- The code of an extension from a width. -/
def extension? : Operation → Width → Option Extension
  | .movzx, .byte => some .zero8
  | .movzx, .word => some .zero16
  | .movsx, .byte => some .sign8
  | .movsx, .word => some .sign16
  | .movsxd, .dword => some .sign32
  | _, _ => none

def single? (operation : Operation) (width : Width) (reg : Register) : Option Instruction :=
  match operation, width with
  | .set condition, .byte => some (.setcc condition reg)
  | .push, .qword => some (.push reg)
  | .pop, .qword => some (.pop reg)
  | _, _ => do return .unary (← operation.unary?) (← width.type?) reg

/-- The instruction on two registers. -/
def registers? (operation : Operation) (width source : Width) (dst src : Register) :
    Option Instruction :=
  match operation with
  | .mov => do return .mov (← width.type?) dst src
  | .test => do return .test (← width.type?) dst src
  | .imul => do return .imul (← width.type?) dst src
  | .movzx | .movsx | .movsxd => do
    return .extend (← operation.extension? source) (← width.type?) dst src
  | .bsf | .bsr | .popcnt => do return .scan (← operation.scan?) (← width.type?) dst src
  | .rol | .ror | .shl | .shr | .sar =>
    if source = .byte ∧ src = .rcx then do
      return .shiftCl (← operation.shift?) (← width.type?) dst
    else none
  | _ => do return .alu (← operation.alu?) (← width.type?) dst src

/-- The instruction on a register and memory. -/
def load? (operation : Operation) (width source : Width) (dst : Register) (src : Address) :
    Option Instruction :=
  match operation with
  | .mov => do return .load (← width.type?) dst src
  | .lea => do return .lea (← width.type?) dst src
  | .movzx | .movsx | .movsxd => do
    return .extendLoad (← operation.extension? source) (← width.type?) dst src
  | _ => do return .aluLoad (← operation.alu?) (← width.type?) dst src

/-- The instruction on memory and a register. -/
def store? (operation : Operation) (width : Width) (dst : Address) (src : Register) :
    Option Instruction :=
  match operation, width with
  | .mov, .byte => some (.storeByte dst src)
  | .mov, .word => some (.storeWord dst src)
  | .mov, _ => do return .store (← width.type?) dst src
  | _, _ => none

/-- The instruction on a register and an immediate. -/
def registerImm? (operation : Operation) (width : Width) (reg : Register) (value : Int) :
    Option Instruction :=
  match operation with
  | .mov => do return .movImm (← width.type?) reg (.ofInt value)
  | .test => do return .testImm (← width.type?) reg (.ofInt value)
  | .rol | .ror | .shl | .shr | .sar => do
    return .shiftImm (← operation.shift?) (← width.type?) reg (.ofNat value.toNat)
  | _ => do return .aluImm (← operation.alu?) (← width.type?) reg (.ofInt value)

/-- The instruction on memory and an immediate. -/
def memoryImm? (operation : Operation) (width : Width) (dst : Address) (value : Int) :
    Option Instruction :=
  match operation with
  | .mov => do return .storeImm (← width.type?) dst (.ofInt value)
  | _ => do return .aluStoreImm (← operation.alu?) (← width.type?) dst (.ofInt value)

/-- The instruction without operands. -/
def bare? : Operation → Option Instruction
  | .spread .dword => some .cdq
  | .spread .qword => some .cqo
  | _ => none

/-- The instruction that pushes memory. -/
def pushed? (operation : Operation) (width : Width) (src : Address) : Option Instruction :=
  match operation, width with
  | .push, .qword => some (.pushLoad src)
  | _, _ => none

/-- The instruction that pushes an immediate. -/
def constant? (operation : Operation) (value : Int) : Option Instruction :=
  match operation with
  | .push => some (.pushImm (.ofInt value))
  | _ => none

def vectors? (operation : Operation) (dst src : Register) : Option Instruction :=
  match operation with
  | .moveAligned precision => some (.mov precision.type dst src)
  | .logic .xor precision => some (.logic .xor precision.type dst src)
  | .equalLanes => some (.equalLanes dst src)
  | _ => none

def vectorImm? (operation : Operation) (reg : Register) (value : Int) : Option Instruction :=
  match operation with
  | .shiftLanes left precision => some (.shiftLanes left precision.type reg (.ofNat value.toNat))
  | _ => none

/-- The precision of a move between a vector register and memory. -/
def scalar? : Operation → Option Precision
  | .moveScalar precision => some precision
  | _ => none

end Operation

/-- The instruction that a decoded one is, for those that the processor runs. -/
def Decoded.instruction? : Decoded → Option Instruction
  | ⟨operation, []⟩ => operation.bare?
  | ⟨operation, [.reg width reg]⟩ => operation.single? width reg
  | ⟨operation, [.memory width src]⟩ => operation.pushed? width src
  | ⟨operation, [.imm value]⟩ => operation.constant? value
  | ⟨operation, [.reg width dst, .reg source src]⟩ => operation.registers? width source dst src
  | ⟨operation, [.reg width dst, .memory source src]⟩ => operation.load? width source dst src
  | ⟨operation, [.memory width dst, .reg _ src]⟩ => operation.store? width dst src
  | ⟨operation, [.reg width reg, .imm value]⟩ => operation.registerImm? width reg value
  | ⟨operation, [.memory width dst, .imm value]⟩ => operation.memoryImm? width dst value
  | ⟨operation, [.vector dst, .vector src]⟩ => operation.vectors? dst src
  | ⟨operation, [.vector reg, .imm value]⟩ => operation.vectorImm? reg value
  | ⟨operation, [.vector dst, .memory _ src]⟩ => do
    return .floatLoad (← operation.scalar?).type dst src
  | ⟨operation, [.memory _ dst, .vector src]⟩ => do
    return .floatStore (← operation.scalar?).type dst src
  | ⟨.movd, [.vector dst, .reg width src]⟩ => do return .movToFp (← width.type?) dst src
  | ⟨.movd, [.reg width dst, .vector src]⟩ => do return .movFromFp (← width.type?) dst src
  | _ => none

end Decode

namespace Processor

/-- Runs a decoded instruction. -/
def obey (machine : Processor) (decoded : Decoded) : Option Processor :=
  decoded.instruction?.bind machine.operate

theorem effective_normal (machine : Processor) (address : Address) :
    machine.effective address.normal = machine.effective address := by
  unfold Address.normal
  split
  · rename_i unindexed
    have nothing : machine.addend .absent = 0#64 := if_pos rfl
    simp only [effective, Address.based, unindexed, nothing, BitVec.zero_mul]
  · split
    · rename_i unscaled
      simp only [effective, unscaled]
      rfl
    · rfl

section Obey

variable {machine next : Processor} {type : ValueType}

theorem integer_cases (integer : type.isInteger = true) : type = .i32 ∨ type = .i64 := by
  cases type with
  | i32 => exact .inl rfl
  | i64 => exact .inr rfl
  | f32 | f64 | unknown => cases integer

theorem type?_ofType (integer : type.isInteger = true) : (Width.ofType type).type? = some type := by
  cases type with
  | i32 | i64 => rfl
  | f32 | f64 | unknown => cases integer

theorem type_ofType (float : type.isFloat = true) : (Precision.ofType type).type = type := by
  cases type with
  | f32 | f64 => rfl
  | i32 | i64 | unknown => cases float

theorem operate_of_perform {instruction : Instruction}
    (runs : machine.perform instruction = some next) :
    machine.operate instruction = some next := by
  cases instruction
  case movToFp => cases runs
  case movFromFp => cases runs
  case equalLanes => cases runs
  case shiftLanes => cases runs
  all_goals exact runs

section Groups

variable {operation : Operation} {width source : Width} {reg dst src : Register}
  {address : Address} {value : Int} (wide : width.type? = some type)

theorem alu?_of_operation? {op : AluOp} (named : op.operation? = some operation) :
    operation.alu? = some op := by
  have declared := mem_of_lookup named
  simp only [List.mem_cons, Prod.mk.injEq, List.not_mem_nil, or_false] at declared
  rcases declared with ⟨rfl, rfl⟩ | ⟨rfl, rfl⟩ | ⟨rfl, rfl⟩ | ⟨rfl, rfl⟩ | ⟨rfl, rfl⟩ | ⟨rfl, rfl⟩
  all_goals rfl

theorem shift?_of_operation? {op : ShiftOp} (named : op.operation? = some operation) :
    operation.shift? = some op := by
  have declared := mem_of_lookup named
  simp only [List.mem_cons, Prod.mk.injEq, List.not_mem_nil, or_false] at declared
  rcases declared with ⟨rfl, rfl⟩ | ⟨rfl, rfl⟩ | ⟨rfl, rfl⟩ | ⟨rfl, rfl⟩ | ⟨rfl, rfl⟩
  all_goals rfl

theorem extension?_of_operation? {extension : Extension}
    (named : extension.operation? = some (operation, source)) :
    operation.extension? source = some extension := by
  have declared := mem_of_lookup named
  simp only [List.mem_cons, Prod.mk.injEq, List.not_mem_nil, or_false] at declared
  rcases declared with ⟨rfl, rfl, rfl⟩ | ⟨rfl, rfl, rfl⟩ | ⟨rfl, rfl, rfl⟩ | ⟨rfl, rfl, rfl⟩ |
    ⟨rfl, rfl, rfl⟩
  all_goals rfl

section Alu

variable {op : AluOp} (found : operation.alu? = some op)
include found wide

theorem registers?_alu : operation.registers? width source dst src =
    some (.alu op type dst src) := by
  cases operation <;> cases found <;> cases width <;> cases wide <;> rfl

theorem load?_alu : operation.load? width source dst address =
    some (.aluLoad op type dst address) := by
  cases operation <;> cases found <;> cases width <;> cases wide <;> rfl

theorem registerImm?_alu : operation.registerImm? width reg value =
    some (.aluImm op type reg (.ofInt value)) := by
  cases operation <;> cases found <;> cases width <;> cases wide <;> rfl

theorem memoryImm?_alu : operation.memoryImm? width address value =
    some (.aluStoreImm op type address (.ofInt value)) := by
  cases operation <;> cases found <;> cases width <;> cases wide <;> rfl

end Alu

section Shift

variable {op : ShiftOp} (found : operation.shift? = some op)
include found wide

theorem registers?_shift : operation.registers? width .byte reg .rcx =
    some (.shiftCl op type reg) := by
  cases operation <;> cases found <;> cases width <;> cases wide <;> rfl

theorem registerImm?_shift : operation.registerImm? width reg value =
    some (.shiftImm op type reg (.ofNat value.toNat)) := by
  cases operation <;> cases found <;> cases width <;> cases wide <;> rfl

end Shift

section Extension

variable {extension : Extension} (found : operation.extension? source = some extension)
include found wide

theorem registers?_extension : operation.registers? width source dst src =
    some (.extend extension type dst src) := by
  cases operation <;> cases source <;> cases found <;> cases width <;> cases wide <;> rfl

theorem load?_extension : operation.load? width source dst address =
    some (.extendLoad extension type dst address) := by
  cases operation <;> cases source <;> cases found <;> cases width <;> cases wide <;> rfl

end Extension

end Groups

theorem obey_of_found {instruction : Instruction} {decoded : Decoded}
    (found : decoded.instruction? = some instruction)
    (operates : machine.operate instruction = some next) : machine.obey decoded = some next := by
  rw [obey, found]
  exact operates

theorem obey_of_asked {instruction : Instruction} {decoded : Decoded}
    (valid : instruction.Valid) (asks : instruction.asked = some decoded)
    (operates : machine.operate instruction = some next) : machine.obey decoded = some next := by
  have normal := machine.effective_normal
  cases instruction with
  | alu op type dst src =>
    have wide := type?_ofType (valid.integers type (.head _))
    obtain ⟨operation, named, rfl⟩ := Option.map_eq_some_iff.mp asks
    exact obey_of_found (registers?_alu wide (alu?_of_operation? named)) operates
  | aluLoad op type dst src =>
    have wide := type?_ofType (valid.integers type (.head _))
    obtain ⟨operation, named, rfl⟩ := Option.map_eq_some_iff.mp asks
    refine obey_of_found (load?_alu wide (alu?_of_operation? named)) ?_
    simpa only [operate, act, perform, execute, normal] using operates
  | aluImm op type dst imm =>
    have wide := type?_ofType (valid.integers type (.head _))
    obtain ⟨operation, named, rfl⟩ := Option.map_eq_some_iff.mp asks
    refine obey_of_found (registerImm?_alu wide (alu?_of_operation? named)) ?_
    rwa [Int32.ofInt_toInt]
  | aluStoreImm op type dst imm =>
    have wide := type?_ofType (valid.integers type (.head _))
    obtain ⟨operation, named, rfl⟩ := Option.map_eq_some_iff.mp asks
    refine obey_of_found (memoryImm?_alu wide (alu?_of_operation? named)) ?_
    rw [Int32.ofInt_toInt]
    simpa only [operate, act, perform, normal] using operates
  | shiftCl op type reg =>
    have wide := type?_ofType (valid.integers type (.head _))
    obtain ⟨operation, named, rfl⟩ := Option.map_eq_some_iff.mp asks
    exact obey_of_found (registers?_shift wide (shift?_of_operation? named)) operates
  | shiftImm op type reg imm =>
    have wide := type?_ofType (valid.integers type (.head _))
    obtain ⟨operation, named, rfl⟩ := Option.map_eq_some_iff.mp asks
    refine obey_of_found (registerImm?_shift wide (shift?_of_operation? named)) ?_
    rwa [Int.toNat_natCast, UInt8.ofNat_toNat]
  | extend extension type dst src =>
    obtain ⟨⟨operation, source⟩, named, rfl⟩ := Option.map_eq_some_iff.mp asks
    have found := extension?_of_operation? named
    rcases integer_cases (valid.integers type (.head _)) with rfl | rfl
    · by_cases signed : extension = .sign32
      · subst signed
        cases named
        exact obey_of_found rfl operates
      · rw [Extension.target, if_neg signed]
        exact obey_of_found (registers?_extension rfl found) operates
    · have target : extension.target .i64 = .qword := ite_self _
      rw [target]
      exact obey_of_found (registers?_extension rfl found) operates
  | extendLoad extension type dst src =>
    obtain ⟨⟨operation, source⟩, named, rfl⟩ := Option.map_eq_some_iff.mp asks
    have found := extension?_of_operation? named
    simp only [operate, act, perform, execute, ← normal src] at operates
    rcases integer_cases (valid.integers type (.head _)) with rfl | rfl
    · by_cases signed : extension = .sign32
      · subst signed
        cases named
        exact obey_of_found rfl operates
      · rw [Extension.target, if_neg signed]
        exact obey_of_found (load?_extension rfl found) operates
    · have target : extension.target .i64 = .qword := ite_self _
      rw [target]
      exact obey_of_found (load?_extension rfl found) operates
  | mov type dst src =>
    rw [Instruction.asked] at asks
    rw [Instruction.Valid, Instruction.demands] at valid
    split at asks
    · rename_i float
      cases asks
      rw [← type_ofType float] at operates
      exact obey_of_found rfl operates
    · rename_i notFloat
      cases asks
      rw [if_neg notFloat] at valid
      rcases integer_cases (valid.integers type (.head _)) with rfl | rfl
      all_goals exact obey_of_found rfl operates
  | test type | imul type | movToFp type | movFromFp type =>
    cases asks
    rcases integer_cases (valid.integers type (.head _)) with rfl | rfl
    all_goals exact obey_of_found rfl operates
  | unary op type | scan op type =>
    cases asks
    rcases integer_cases (valid.integers type (.head _)) with rfl | rfl
    all_goals
      cases op
      all_goals exact obey_of_found rfl operates
  | testImm type reg imm =>
    cases asks
    rw [← @Int32.ofInt_toInt imm] at operates
    rcases integer_cases (valid.integers type (.head _)) with rfl | rfl
    all_goals exact obey_of_found rfl operates
  | movImm type dst imm =>
    cases asks
    rw [← @Int64.ofInt_toInt imm] at operates
    rcases integer_cases (valid.integers type (.head _)) with rfl | rfl
    all_goals exact obey_of_found rfl operates
  | lea type dst src | load type dst src =>
    cases asks
    simp only [operate, act, perform, execute, step, ← normal src] at operates
    rcases integer_cases (valid.integers type (.head _)) with rfl | rfl
    all_goals exact obey_of_found rfl operates
  | store type dst src =>
    cases asks
    simp only [operate, act, perform, execute, step, ← normal dst] at operates
    rcases integer_cases (valid.integers type (.head _)) with rfl | rfl
    all_goals exact obey_of_found rfl operates
  | storeImm type dst imm =>
    cases asks
    rw [← @Int32.ofInt_toInt imm] at operates
    simp only [operate, act, perform, execute, step, ← normal dst] at operates
    rcases integer_cases (valid.integers type (.head _)) with rfl | rfl
    all_goals exact obey_of_found rfl operates
  | storeByte dst src | storeWord dst src =>
    cases asks
    simp only [operate, act, perform, execute, ← normal dst] at operates
    exact obey_of_found rfl operates
  | floatLoad type dst src =>
    cases asks
    rw [← type_ofType (valid.floats type (.head _))] at operates
    simp only [operate, act, perform, execute, step, ← normal src] at operates
    exact obey_of_found rfl operates
  | floatStore type dst src =>
    cases asks
    rw [← type_ofType (valid.floats type (.head _))] at operates
    simp only [operate, act, perform, execute, step, ← normal dst] at operates
    exact obey_of_found rfl operates
  | pushLoad src =>
    cases asks
    simp only [operate, act, perform, execute, ← normal src] at operates
    exact obey_of_found rfl operates
  | pushImm imm =>
    cases asks
    rw [← @Int32.ofInt_toInt imm] at operates
    exact obey_of_found rfl operates
  | enterFrame size =>
    cases asks
    refine obey_of_found rfl ?_
    rw [Int32.ofInt_toInt]
    exact operates
  | movabs dst imm =>
    cases asks
    refine obey_of_found rfl ?_
    rw [← operates, Int64.ofInt_toInt]
    simp only [operate, act, perform, execute, step, ValueType.clip_i64]
    rfl
  | setcc condition dst =>
    by_cases small : condition.code < 16
    · rw [Instruction.asked, if_pos small] at asks
      cases asks
      exact obey_of_found rfl operates
    · rw [Instruction.asked, if_neg small] at asks
      cases asks
  | logic op type dst src =>
    obtain ⟨rfl, _⟩ := Option.ite_none_right_eq_some.mp operates
    cases asks
    rw [← type_ofType (valid.floats type (.head _))] at operates
    exact obey_of_found rfl operates
  | shiftLanes left type reg imm =>
    cases asks
    rw [← type_ofType (valid.floats type (.head _))] at operates
    refine obey_of_found rfl ?_
    rwa [Int.toNat_natCast, UInt8.ofNat_toNat]
  | cdq | cqo | push | pop | equalLanes =>
    cases asks
    exact obey_of_found rfl operates
  | callReg | jmpReg | jmpLoad | ret | int3 | sse | ucomis | convertInt | truncateFloat
  | singleToDouble | doubleToSingle | round | signBits => cases operates

theorem setWidth_ofInt64 (value : Int) :
    (BitVec.ofInt 64 value).setWidth 32 = BitVec.ofInt 32 value := by
  apply BitVec.eq_of_toNat_eq
  rw [BitVec.toNat_setWidth, BitVec.toNat_ofInt, BitVec.toNat_ofInt]
  omega

theorem obey_of_meets {instruction : Instruction} {decoded : Decoded}
    (valid : instruction.Valid) (meets : instruction.Meets decoded)
    (operates : machine.operate instruction = some next) : machine.obey decoded = some next := by
  cases instruction with
  | movImm type dst imm =>
    have constant : type.constant imm = type.clip imm.toBitVec := by
      rcases integer_cases (valid.integers type (.head _)) with rfl | rfl
      · rfl
      · exact (ValueType.clip_i64 _).symm
    cases operates
    change decoded.loaded? = some (dst, type.constant imm) at meets
    rw [constant] at meets
    change machine.obey decoded = some (machine.setReg dst (type.clip imm.toBitVec))
    unfold Decoded.loaded? at meets
    split at meets
    · obtain ⟨rfl, same⟩ := Prod.mk.inj (Option.some.inj meets)
      refine obey_of_found rfl ?_
      rw [← same]
      change some (machine.setReg _ (ValueType.i32.clip (Int64.ofInt _).toBitVec)) = _
      rw [ValueType.clip_eq, Int64.toBitVec_ofInt]
      exact congrArg (fun word : BitVec 32 => some (machine.setReg _ (word.setWidth 64)))
        (setWidth_ofInt64 _)
    · obtain ⟨rfl, same⟩ := Prod.mk.inj (Option.some.inj meets)
      refine obey_of_found rfl ?_
      rw [← same]
      change some (machine.setReg _ (ValueType.i64.clip (Int64.ofInt _).toBitVec)) = _
      rw [ValueType.clip_i64, Int64.toBitVec_ofInt]
    · cases meets
  | _ => exact obey_of_asked valid meets operates

theorem obey_of_encode {instruction : Instruction} {bytes : List UInt8}
    (declared : instruction.Declared) (encodes : instruction.encode = .ok bytes)
    (operates : machine.operate instruction = some next) :
    ∃ decoded, (∀ rest, decode (bytes ++ rest) = some (decoded, rest)) ∧
      machine.obey decoded = some next := by
  have valid := Instruction.valid_of_encode encodes
  obtain ⟨decoded, ⟨found, same, decodes⟩, meets⟩ := Instruction.decodes_asked declared valid
  cases same.symm.trans encodes
  exact ⟨decoded, decodes, obey_of_meets valid meets operates⟩

end Obey

end Processor

namespace Code

theorem Holds.drop {code : Code} {offset : Nat} {bytes : List UInt8}
    (holds : code.Holds offset bytes) :
    code.bytes.toList.drop offset = bytes ++ code.bytes.toList.drop (offset + bytes.length) := by
  apply List.ext_getElem?
  intro index
  rw [List.getElem?_drop, Array.getElem?_toList]
  by_cases inside : index < bytes.length
  · rw [List.getElem?_append_left inside, List.getElem?_eq_getElem inside]
    exact holds index _ (List.getElem?_eq_getElem inside)
  · rw [List.getElem?_append_right (by omega), List.getElem?_drop, Array.getElem?_toList]
    congr 1
    omega

theorem drop_byteAt {code : Code} {offset : Nat} (inside : offset < code.size) :
    code.bytes.toList.drop offset = code.byteAt offset :: code.bytes.toList.drop (offset + 1) := by
  have sized : offset < code.bytes.toList.length := by simpa [Code.size] using inside
  rw [List.drop_eq_getElem_cons sized]
  congr 1
  have present : (0 : Int) ≤ offset := Int.natCast_nonneg _
  rw [Code.byteAt, if_pos present, Int.toNat_natCast]
  simp [Code.size] at inside
  simp [inside]

theorem Holds.le {code : Code} {offset : Nat} {bytes : List UInt8} (holds : code.Holds offset bytes)
    (some : bytes ≠ []) : offset + bytes.length ≤ code.size := by
  have last : bytes.length - 1 < bytes.length := Nat.sub_one_lt (mt List.length_eq_zero_iff.mp some)
  have found := holds _ _ (List.getElem?_eq_getElem last)
  have inside := (Array.getElem?_eq_some_iff.mp found).1
  rw [size]
  omega

end Code

namespace Decode

/-- A displacement of one byte. -/
def readNear (condition : Option Condition) (bytes : List UInt8) :
    Option (Option Condition × Int × List UInt8) :=
  (readByte bytes).map fun read => (condition, read.1.toInt8.toInt, read.2)

/-- A displacement of four bytes. -/
def readFar (condition : Option Condition) (bytes : List UInt8) :
    Option (Option Condition × Int × List UInt8) :=
  (readWord bytes).map fun read => (condition, read.1.toInt32.toInt, read.2)

def readJump : List UInt8 → Option (Option Condition × Int × List UInt8)
  | [] => none
  | first :: rest =>
    if first = 0xeb then readNear none rest
    else if first = 0xe9 then readFar none rest
    else if first &&& 0xf0 = 0x70 then readNear (some ⟨first &&& 0x0f⟩) rest
    else if first = 0x0f then
      match rest with
      | [] => none
      | second :: rest =>
        if second &&& 0xf0 = 0x80 then readFar (some ⟨second &&& 0x0f⟩) rest else none
    else none

/-- Reads a displacement of a width. -/
def readDistance (condition : Option Condition) :
    Distance → List UInt8 → Option (Option Condition × Int × List UInt8)
  | .near => readNear condition
  | .far => readFar condition

section Jumps

variable {condition : Option Condition} {distance : Distance} {code : Code} {offset : Nat}

theorem decode_jumpOpcode (known : ∀ given, condition = some given → given.code < 16)
    (rest : List UInt8) : decode (Item.jumpOpcode condition distance ++ rest) = none := by
  cases condition with
  | none =>
    cases distance with
    | near => rfl
    | far => rfl
  | some condition =>
    obtain ⟨opcode⟩ := condition
    have small := known _ rfl
    cases distance with
    | near =>
      have listed := byte_cases (fun opcode => 0x70 ||| opcode ∈ [0x70, 0x71, 0x72, 0x73, 0x74,
        0x75, 0x76, 0x77, 0x78, 0x79, 0x7a, 0x7b, 0x7c, 0x7d, 0x7e, 0x7f]) 16 (by decide) small
      change decode ((0x70 ||| opcode) :: rest) = none
      generalize 0x70 ||| opcode = byte at listed ⊢
      simp only [List.mem_cons, List.not_mem_nil, or_false] at listed
      rcases listed with rfl | rfl | rfl | rfl | rfl | rfl | rfl | rfl | rfl | rfl | rfl | rfl |
        rfl | rfl | rfl | rfl
      all_goals rfl
    | far =>
      have listed := byte_cases (fun opcode => 0x80 ||| opcode ∈ [0x80, 0x81, 0x82, 0x83, 0x84,
        0x85, 0x86, 0x87, 0x88, 0x89, 0x8a, 0x8b, 0x8c, 0x8d, 0x8e, 0x8f]) 16 (by decide) small
      change decode (0x0f :: (0x80 ||| opcode) :: rest) = none
      generalize 0x80 ||| opcode = byte at listed ⊢
      simp only [List.mem_cons, List.not_mem_nil, or_false] at listed
      rcases listed with rfl | rfl | rfl | rfl | rfl | rfl | rfl | rfl | rfl | rfl | rfl | rfl |
        rfl | rfl | rfl | rfl
      all_goals rfl

theorem readJump_jumpOpcode (known : ∀ given, condition = some given → given.code < 16)
    (rest : List UInt8) :
    readJump (Item.jumpOpcode condition distance ++ rest) = readDistance condition distance rest := by
  cases condition with
  | none =>
    cases distance with
    | near => rfl
    | far => rfl
  | some condition =>
    obtain ⟨opcode⟩ := condition
    have small := known _ rfl
    have near := byte_cases (fun opcode => 0x70 ||| opcode ≠ 0xeb ∧ 0x70 ||| opcode ≠ 0xe9 ∧
      (0x70 ||| opcode) &&& 0xf0 = 0x70 ∧ (0x70 ||| opcode) &&& 0x0f = opcode) 16 (by decide) small
    have far := byte_cases (fun opcode => (0x80 ||| opcode) &&& 0xf0 = 0x80 ∧
      (0x80 ||| opcode) &&& 0x0f = opcode) 16 (by decide) small
    cases distance with
    | near =>
      change readJump ((0x70 ||| opcode) :: rest) = _
      rw [readJump.eq_def]
      simp only [near, if_false, if_true]
      rfl
    | far =>
      change (if (0x80 ||| opcode) &&& 0xf0 = 0x80 then
        readFar (some ⟨(0x80 ||| opcode) &&& 0x0f⟩) rest else none) = _
      rw [if_pos far.1, far.2]
      rfl

theorem readDistance_field {field : Field} (inside : field.finish ≤ code.size) :
    readDistance condition field.distance (code.bytes.toList.drop field.site) =
      some (condition, code.displacement field, code.bytes.toList.drop field.finish) := by
  obtain ⟨distance, site⟩ := field
  cases distance with
  | near =>
    rw [Code.drop_byteAt inside]
    rfl
  | far =>
    change site + 4 ≤ code.size at inside
    change readFar condition (code.bytes.toList.drop site) = _
    rw [Code.drop_byteAt (by omega), Code.drop_byteAt (by omega), Code.drop_byteAt (by omega),
      Code.drop_byteAt (by omega)]
    rfl

end Jumps

end Decode

namespace Processor

/-- Whether a jump, with or without a condition, is followed. -/
def follows (machine : Processor) (condition : Option Condition) : Bool :=
  condition.all (·.holds machine.flags)

/-- Runs the instruction at an offset or follows the jump there: where it goes on, and how. -/
def cycle (code : List UInt8) (offset : Nat) (machine : Processor) : Option (Nat × Processor) :=
  match decode (code.drop offset) with
  | some (decoded, rest) => (machine.obey decoded).map fun next => (code.length - rest.length, next)
  | none =>
    (readJump (code.drop offset)).bind fun (condition, disp, rest) =>
      let behind := code.length - rest.length
      if machine.follows condition then
        ((behind : Int) + disp).toNat?.map fun target => (target, machine)
      else some (behind, machine)

/-- Bytes are run from an offset to another one, in cycles that start inside a region. -/
inductive Proceeds (code : List UInt8) (low high : Nat) : Nat → Processor → Nat → Processor → Prop
  | done (offset : Nat) (machine : Processor) :
      Proceeds code low high offset machine offset machine
  | next {offset middle last : Nat} {machine between final : Processor}
      (inside : low ≤ offset ∧ offset < high)
      (goes : cycle code offset machine = some (middle, between))
      (rest : Proceeds code low high middle between last final) :
      Proceeds code low high offset machine last final

section Cycle

variable {code : Code} {offset : Nat} {machine next : Processor}

section Region

variable {code : List UInt8} {low high first second third : Nat}
  {start middle final other : Processor}

theorem Proceeds.trans (front : Proceeds code low high first start second middle)
    (back : Proceeds code low high second middle third final) :
    Proceeds code low high first start third final := by
  induction front with
  | done => exact back
  | next inside goes _ ih => exact .next inside goes (ih back)

end Region

theorem cycle_plain {instruction : Instruction} {bytes : List UInt8}
    (declared : instruction.Declared) (encodes : instruction.encode = .ok bytes)
    (holds : code.Holds offset bytes) (operates : machine.operate instruction = some next) :
    cycle code.bytes.toList offset machine = some (offset + bytes.length, next) := by
  obtain ⟨decoded, decodes, obeys⟩ := obey_of_encode declared encodes operates
  have some : bytes ≠ [] := fun none => instruction.encode_fills (none ▸ encodes)
  have inside := holds.le some
  rw [Code.size, ← Array.length_toList] at inside
  rw [cycle, holds.drop, decodes]
  simp only [obeys, Option.map_some, List.length_drop]
  congr 2
  omega

section Jump

variable {condition : Option Condition} {field : Field}
  (known : ∀ given, condition = some given → given.code < 16)
  (site : field.site = offset + (Item.jumpOpcode condition field.distance).length)
  (holds : code.Holds offset (Item.jumpOpcode condition field.distance))
  (inside : field.finish ≤ code.size)
include known site holds inside

theorem cycle_jump : cycle code.bytes.toList offset machine =
    if machine.follows condition then
      ((field.finish : Int) + code.displacement field).toNat?.map fun target => (target, machine)
    else some (field.finish, machine) := by
  have read := @readDistance_field condition _ _ inside
  have sized : field.finish ≤ code.bytes.toList.length := inside
  rw [site] at read
  rw [cycle, holds.drop, decode_jumpOpcode known]
  simp only [readJump_jumpOpcode known, read, Option.bind_some, List.length_drop]
  rw [Nat.sub_sub_self sized]

theorem cycle_leap {target : Nat} (taken : machine.follows condition = true)
    (leads : code.displacement field = target - field.finish) :
    cycle code.bytes.toList offset machine = some (target, machine) := by
  rw [cycle_jump known site holds inside, if_pos taken, leads,
    show (field.finish : Int) + (target - field.finish) = target by omega]
  rfl

theorem cycle_pass (passed : machine.follows condition = false) :
    cycle code.bytes.toList offset machine = some (field.finish, machine) := by
  rw [cycle_jump known site holds inside, if_neg (Bool.eq_false_iff.mp passed)]

end Jump

end Cycle

end Processor

end WasmX64
