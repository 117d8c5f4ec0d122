import WasmX64.Compile.Function
import WasmX64.Proofs.Compile.Logic
import WasmX64.Proofs.Layout.Sound
import WasmX64.Proofs.Sequence.Tame
import WasmX64.Proofs.Typing.Rules

/-!
# What plain instructions preserve

Plain instructions are lowered with a small number of operations on registers, operands,
code and labels.  An invariant that these operations preserve is a discipline, and every
plain instruction preserves it.  The invariant knows the labels that code under
construction may jump to.  `Routine` is a discipline for instructions with given faults that
says nothing about the blocks; a tame routine does without calls, and its code leaves stack and
frame pointer alone.
-/

namespace WasmX64

/-- The faults that an instruction can raise. -/
def Opcode.faults : Opcode → List TrapKind
  | .unreachable => [.unreachable]
  | .load _ | .store _ => [.outOfBounds]
  | .callIndirect => [.undefinedElement, .typeMismatch]
  | .intBinary _ .divS => [.divideByZero, .integerOverflow]
  | .intBinary _ .divU | .intBinary _ .remS | .intBinary _ .remU => [.divideByZero]
  | .convert (.truncate _ _ _) => [.invalidConversion]
  | _ => []

theorem division_faults {op : IntBinary} {part : Sequence.DivisionPart} (width : IntWidth)
    (lowering : op.lowering = .divide part) :
    .divideByZero ∈ (Opcode.intBinary width op).faults ∧
      (op.signed = true ∧ part = .quotient →
        .integerOverflow ∈ (Opcode.intBinary width op).faults) := by
  cases op with
  | divS => simp [Opcode.faults]
  | divU => simp [Opcode.faults, IntBinary.signed]
  | remS =>
    cases lowering
    simp [Opcode.faults]
  | remU => simp [Opcode.faults, IntBinary.signed]
  | _ => cases lowering

/-- Opcodes that access memory at an address. -/
def Opcode.isAccess : Opcode → Bool
  | .load _ | .store _ => true
  | _ => false

namespace Compile

/-- A register that values of a bank can be kept in. -/
def Suits (bank : RegClass) (reg : Register) : Prop :=
  reg.isAllocable = true ∧ reg.regClass = bank

theorem suits_returned (type : ValueType) : Suits type.regClass (Register.returned type) := by
  unfold Suits ValueType.regClass Register.returned
  cases type.isFloat with
  | false => decide
  | true => decide

theorem Suits.ordinary {bank : RegClass} {reg : Register} (suits : Suits bank reg) :
    reg.Ordinary := by
  refine ⟨?_, ?_⟩
  · rintro rfl
    exact absurd suits.1 (by decide)
  · rintro rfl
    exact absurd suits.1 (by decide)

theorem Suits.general {reg : Register} (suits : Suits .gp reg) : reg.General :=
  ⟨Register.isGp_of_regClass (Register.isMachine_of_isAllocable suits.1) suits.2, suits.ordinary⟩

/-- An invariant, given labels that may be jumped to, that the operations behind plain
instructions with some faults preserve, marking blocks apart.  If the routine is tame, calls are
left out as well, and code that is emitted is no more than tame. -/
structure Routine (tame : Prop) (faults : List TrapKind)
    (invariant : List Label → Subject → Compilation → Prop) : Prop where
  emit : ∀ {labels steps}, Sequence.Closed labels steps → (tame → Sequence.Tame 0 steps) →
    Keeps (invariant labels) (emit steps) anything
  record : ∀ {labels} what, Keeps (invariant labels) (record what) anything
  loadRef : ∀ {labels target}, (tame → target.General) → ∀ kind index,
    Keeps (invariant labels) (loadRef target kind index) anything
  addTrap : ∀ {labels kind}, kind ∈ faults → ∀ subject state, invariant labels subject state →
    Ensures (addTrap kind) subject state fun label after => invariant (label :: labels) subject after
  forget : ∀ {label labels subject state}, invariant (label :: labels) subject state →
    invariant labels subject state
  takeRegister : ∀ {labels} bank wishes pinned,
    Keeps (invariant labels) (takeRegister bank wishes pinned) (Suits bank)
  popRegister : ∀ {labels} pinned, Keeps (invariant labels) (popRegister pinned) anything
  dropOperand : ∀ {labels}, Keeps (invariant labels) dropOperand anything
  operandType : ∀ {labels} depth, Keeps (invariant labels) (operandType depth) anything
  pushRegister : ∀ {labels type reg}, Suits type.regClass reg →
    Keeps (invariant labels) (pushRegister type reg) anything
  pushConst : ∀ {labels} type value, Keeps (invariant labels) (pushConst type value) anything
  vacate : ∀ {labels reg}, reg.isAllocable = true →
    Keeps (invariant labels) (vacate reg) anything
  localGet : ∀ {labels} index, Keeps (invariant labels) (lowerLocalGet index) anything
  localSet : ∀ {labels} index keep, Keeps (invariant labels) (lowerLocalSet index keep) anything
  prepareCall : ¬ tame → ∀ {labels} type signature target,
    Keeps (invariant labels) (prepareCall type signature target) anything

/-- An invariant that the operations behind all plain instructions preserve. -/
structure Discipline (invariant : List Label → Subject → Compilation → Prop) : Prop where
  routine : ∀ faults, Routine False faults invariant
  demoteBlock : ∀ {labels}, Keeps (invariant labels) demoteBlock anything

section

variable {invariant : List Label → Subject → Compilation → Prop} {labels : List Label}

theorem keeps_demandMemory : Keeps (invariant labels) demandMemory anything :=
  Keeps.read.andThen fun _ => Keeps.ite (Keeps.get.andThen fun _ => .throw) .done

theorem keeps_globalAt (index : UInt32) : Keeps (invariant labels) (globalAt index) anything := by
  refine Keeps.read.andThen fun subject => ?_
  dsimp only
  split
  · exact .pure trivial
  · exact .throw

end

namespace Routine

open Sequence

section Parts

variable {tame : Prop} {faults : List TrapKind}
  {invariant : List Label → Subject → Compilation → Prop} {labels : List Label}
  {type result : ValueType} (rules : Routine tame faults invariant)

include rules

theorem trap {α : Type} {post : α → Prop} {next : Label → Compile α} {kind : TrapKind}
    (raised : kind ∈ faults)
    (rest : ∀ label, Keeps (invariant (label :: labels)) (next label) post) :
    Keeps (invariant labels) (Compile.addTrap kind >>= next) post := by
  intro subject state holds
  refine (rules.addTrap raised subject state holds).andThen ?_
  intro label middle kept
  refine (rest label subject middle kept).mono ?_
  intro value after both
  exact ⟨rules.forget both.1, both.2⟩

theorem machine {event : MachineEvent} {action : Compile Unit}
    (inside : Keeps (invariant labels) action anything) :
    Keeps (invariant labels) (Compile.machine event action) anything :=
  Keeps.machine rules.record inside

theorem emitTame {steps : List Step} (closed : Closed labels steps) (tame : Tame 0 steps) :
    Keeps (invariant labels) (Compile.emit steps) anything :=
  rules.emit closed fun _ => tame

theorem emitStraight {steps : List Step} (straight : Straight steps) (tame : Tame 0 steps) :
    Keeps (invariant labels) (Compile.emit steps) anything :=
  rules.emitTame straight.closed tame

theorem expect (depth : Nat) (type : ValueType) :
    Keeps (invariant labels) (Compile.expect depth type) anything :=
  (rules.operandType depth).andThen fun _ => Keeps.ite .throw .done

theorem popOperands (type : ValueType) :
    Keeps (invariant labels) (Compile.popOperands type) anything :=
  (rules.expect _ _).andThen fun _ => (rules.expect _ _).andThen fun _ =>
    (rules.popRegister _).andThen fun _ => (rules.popRegister _).andThen fun _ => .pure trivial

section Numeric

theorem lowerBinary {steps : Register → Register → Register → Compile (List Step)}
    (closed : ∀ {dst}, dst.Ordinary → ∀ left right, Keeps (invariant labels)
      (steps dst left right) fun steps => Closed labels steps ∧ Tame 0 steps) :
    Keeps (invariant labels) (Compile.lowerBinary type result steps) anything :=
  (rules.popOperands type).andThen fun _ => (rules.takeRegister _ _ _).bind fun _ suits =>
    (closed suits.ordinary _ _).bind fun _ emitted =>
      (rules.emitTame emitted.1 emitted.2).andThen fun _ => rules.pushRegister suits

theorem lowerUnary {steps : Register → Register → List Step}
    (closed : ∀ dst src, Closed labels (steps dst src))
    (tame : ∀ {dst}, dst.Ordinary → ∀ src, Tame 0 (steps dst src)) :
    Keeps (invariant labels) (Compile.lowerUnary type result steps) anything :=
  (rules.expect _ _).andThen fun _ => (rules.popRegister _).andThen fun _ =>
    (rules.takeRegister _ _ _).bind fun _ suits =>
      (rules.emitTame (closed _ _) (tame suits.ordinary _)).andThen fun _ => rules.pushRegister suits

theorem lowerDivision (part : DivisionPart) (integer : type.regClass = .gp) (signed : Bool)
    (zero : .divideByZero ∈ faults)
    (overflows : signed = true ∧ part = .quotient → .integerOverflow ∈ faults) :
    Keeps (invariant labels) (Compile.lowerDivision part type signed) anything := by
  have finish : ∀ {labels : List Label} (left right : Register) {zero overflow : Label},
      zero ∈ labels → overflow ∈ labels →
      Keeps (invariant labels) (do
        Compile.vacate .rax
        Compile.vacate .rdx
        let dst ← Compile.takeRegister .gp [left, right] RegSet.empty
        Compile.emit (division part type signed dst left right zero overflow)
        Compile.pushRegister type dst) anything := by
    intro labels left right zero overflow zeroKnown overflowKnown
    refine (rules.vacate rfl).andThen fun _ => (rules.vacate rfl).andThen fun _ =>
      (rules.takeRegister _ _ _).bind fun dst suits => ?_
    refine (rules.emitTame (closed_division _ _ _ _ _ _ zeroKnown overflowKnown)
      (tame_division _ _ _ suits.ordinary _ _ _ _)).andThen fun _ => ?_
    exact rules.pushRegister (integer ▸ suits)
  refine (rules.popOperands type).andThen fun operands => rules.trap zero fun zero => ?_
  dsimp only
  split
  · rename_i may
    exact rules.trap (overflows may) fun overflow => finish _ _ (by simp) (by simp)
  · exact finish _ _ (by simp) (by simp)

theorem lowerIntBinary (width : IntWidth) (op : IntBinary)
    (raised : ∀ kind ∈ (Opcode.intBinary width op).faults, kind ∈ faults) :
    Keeps (invariant labels) (Compile.lowerIntBinary width op) anything := by
  have integer : width.type.regClass = .gp := by
    cases width with
    | w32 => rfl
    | w64 => rfl
  have plain : ∀ {steps : ValueType → Register → Register → Register → List Step},
      op.lowering = .plain steps → ∀ dst left right,
        Straight (steps width.type dst left right) := by
    intro steps lowering dst left right
    cases op with
    | add => cases lowering; exact straight_addition _ _ _ _
    | sub => cases lowering; exact straight_subtraction _ _ _ _
    | mul => cases lowering; exact straight_commutative _ _ _ _ _ fun _ _ => by rfl
    | and => cases lowering; exact straight_commutative _ _ _ _ _ fun _ _ => by rfl
    | or => cases lowering; exact straight_commutative _ _ _ _ _ fun _ _ => by rfl
    | xor => cases lowering; exact straight_commutative _ _ _ _ _ fun _ _ => by rfl
    | _ => cases lowering
  unfold Compile.lowerIntBinary
  split
  · rename_i part lowering
    obtain ⟨zero, overflows⟩ := division_faults width lowering
    exact rules.lowerDivision _ integer _ (raised _ zero) fun may => raised _ (overflows may)
  · rename_i shift lowering
    have known : shift.operation?.isSome = true := by
      cases op <;> cases lowering <;> rfl
    apply rules.lowerBinary
    intro dst ordinary left right
    exact Keeps.get.andThen fun _ =>
      .pure ⟨(straight_shift known _ _ _ _ _).closed, tame_shift _ _ ordinary _ _ _⟩
  · rename_i steps lowering
    apply rules.lowerBinary
    intro dst ordinary left right
    exact .pure ⟨(plain lowering dst left right).closed, tame_intBinary lowering ordinary _ _⟩

theorem lowerConversion (op : Conversion)
    (raised : ∀ kind ∈ (Opcode.convert op).faults, kind ∈ faults) :
    Keeps (invariant labels) (Compile.lowerConversion op) anything := by
  refine (rules.expect _ _).andThen fun _ => (rules.popRegister _).andThen fun src =>
    (rules.takeRegister _ _ _).bind fun dst suits => ?_
  dsimp only
  split
  · rename_i result source signed
    rw [map_eq_pure_bind, bind_assoc]
    refine rules.trap (raised _ (by simp [Opcode.faults])) fun label => ?_
    rw [pure_bind]
    refine (rules.emitTame (closed_conversion _ _ _ ?_) (tame_conversion _ suits.ordinary _ _)).andThen
      fun _ => rules.pushRegister suits
    intro _ _ _ _
    exact ⟨label, List.mem_cons_self, rfl⟩
  · rename_i other
    rw [pure_bind]
    refine (rules.emitTame (closed_conversion _ _ _ ?_) (tame_conversion _ suits.ordinary _ _)).andThen
      fun _ => rules.pushRegister suits
    intro result source signed same
    exact absurd same (other result source signed)

theorem lowerSelect : Keeps (invariant labels) Compile.lowerSelect anything := by
  refine (rules.expect _ _).andThen fun _ => (rules.operandType _).andThen fun type =>
    (rules.expect _ _).andThen fun _ => (rules.popRegister _).andThen fun condition =>
    (rules.popRegister _).andThen fun otherwise => (rules.popRegister _).andThen fun chosen =>
    (rules.takeRegister _ _ _).bind fun dst suits => ?_
  refine (rules.emitTame ⟨[0, 1], ?_, by simp⟩ ?_).andThen fun _ => rules.pushRegister suits
  · apply resolves_append
    · apply resolves_append
      · apply resolves_append
        · apply resolves_append
          · simp +decide [Step.Resolves, Target.Known]
            rfl
          · exact (straight_move _ _ _).resolves
        · simp [Step.Resolves, Target.Known]
      · exact (straight_move _ _ _).resolves
    · simp [Step.Resolves]
  · simp [tame_move, suits.ordinary, Instruction.tame_iff]

theorem pushBits (type : ValueType) (bits : UInt64) :
    Keeps (invariant labels) (Compile.pushBits type bits) anything :=
  (rules.takeRegister _ _ _).bind fun _ suits =>
    (rules.emitStraight (straight_loadConstant _ _ _)
      (tame_loadConstant _ suits.ordinary _)).andThen fun _ => rules.pushRegister suits

theorem lowerIntConst (width : IntWidth) (bits : UInt64) :
    Keeps (invariant labels) (Compile.lowerIntConst width bits) anything := by
  cases width with
  | w32 => exact rules.pushConst _ _
  | w64 => exact Keeps.ite (rules.pushConst _ _) (rules.pushBits _ _)

theorem lowerFloatConst (width : FloatWidth) (bits : UInt64) :
    Keeps (invariant labels) (Compile.lowerFloatConst width bits) anything := by
  cases width with
  | w32 => exact rules.pushBits _ _
  | w64 => exact rules.pushBits _ _

end Numeric

section Memory

theorem lowerGlobalGet (index : UInt32) :
    Keeps (invariant labels) (Compile.lowerGlobalGet index) anything :=
  (keeps_globalAt index).andThen fun _ => rules.machine <|
    (rules.takeRegister _ _ _).bind fun _ cell => (rules.loadRef (fun _ => cell.general) _ _).andThen fun _ =>
    (rules.takeRegister _ _ _).bind fun _ suits =>
    (rules.emitStraight (straight_read _ _ _ _ _)
      (tame_read _ _ _ suits.ordinary cell.ordinary)).andThen fun _ => rules.pushRegister suits

theorem lowerGlobalSet (index : UInt32) :
    Keeps (invariant labels) (Compile.lowerGlobalSet index) anything :=
  (keeps_globalAt index).andThen fun _ => Keeps.demand <| (rules.expect _ _).andThen fun _ =>
    rules.machine <| (rules.popRegister _).andThen fun _ =>
    (rules.takeRegister _ _ _).bind fun _ cell => (rules.loadRef (fun _ => cell.general) _ _).andThen fun _ =>
    rules.emitStraight (straight_write _ _ _ _) (tame_write _ _ _ cell.ordinary)

theorem checkBounds (index : Register) (offset : UInt32) (bytes : Nat)
    (raised : .outOfBounds ∈ faults)
    (demotes : ∀ labels, Keeps (invariant labels) Compile.demoteBlock anything) :
    Keeps (invariant labels) (Compile.checkBounds index offset bytes) anything := by
  refine Keeps.read.andThen fun subject => Keeps.ite .done (Keeps.ite ?_ (Keeps.ite .done ?_))
  · refine rules.trap raised fun label =>
      (rules.emitTame ⟨[], ?_, (by simp)⟩ (by simp)).andThen fun _ => demotes _
    simp [Step.Resolves, Target.Known]
  · refine rules.trap raised fun label =>
      (rules.emitStraight (straight_two ⟨by rfl, by rfl⟩) (by simp [Instruction.tame_iff])).andThen fun _ =>
      (rules.loadRef (fun _ => (by decide : Register.General .r11)) _ _).andThen fun _ =>
      rules.emitTame ⟨[], ?_, (by simp)⟩ ?_
    · simp +decide [Step.Resolves, Target.Known]
      rfl
    · simp [Instruction.tame_iff, @outside_frame 0 (.based .r11 0) (by decide)]

theorem lowerLoad (op : LoadOp) (offset : UInt32) (raised : .outOfBounds ∈ faults)
    (demotes : ∀ labels, Keeps (invariant labels) Compile.demoteBlock anything) :
    Keeps (invariant labels) (Compile.lowerLoad op offset) anything := by
  refine keeps_demandMemory.andThen fun _ => (rules.expect _ _).andThen fun _ =>
    (rules.popRegister _).andThen fun index => (rules.checkBounds _ _ _ raised demotes).andThen
    fun _ => rules.machine <| (rules.takeRegister _ _ _).bind fun base cell =>
    (rules.loadRef (fun _ => cell.general) _ _).andThen fun _ => (rules.takeRegister _ _ _).bind fun _ suits =>
    (rules.emitStraight (straight_memoryAddress _ _ _) (tame_memoryAddress _ _ _)).andThen
    fun _ => (rules.emitStraight (straight_read _ _ _ _ _) ?_).andThen fun _ =>
    rules.pushRegister suits
  have outside : (memoryAddress base index offset).1.base.Ordinary := by
    rw [base_memoryAddress]
    exact cell.ordinary
  exact tame_read _ _ _ suits.ordinary outside

theorem lowerStore (op : StoreOp) (offset : UInt32) (raised : .outOfBounds ∈ faults)
    (demotes : ∀ labels, Keeps (invariant labels) Compile.demoteBlock anything) :
    Keeps (invariant labels) (Compile.lowerStore op offset) anything := by
  refine keeps_demandMemory.andThen fun _ => (rules.expect _ _).andThen fun _ =>
    (rules.expect _ _).andThen fun _ => (rules.popRegister _).andThen fun _ =>
    (rules.popRegister _).andThen fun index =>
    (rules.checkBounds _ _ _ raised demotes).andThen fun _ =>
    rules.machine <| (rules.takeRegister _ _ _).bind fun base cell =>
    (rules.loadRef (fun _ => cell.general) _ _).andThen fun _ =>
    (rules.emitStraight (straight_memoryAddress _ _ _) (tame_memoryAddress _ _ _)).andThen
    fun _ => rules.emitStraight (straight_write _ _ _ _) ?_
  have outside : (memoryAddress base index offset).1.base.Ordinary := by
    rw [base_memoryAddress]
    exact cell.ordinary
  exact tame_write _ _ _ outside

theorem loadPages {dst cell : Register} (ordinary : dst.Ordinary) (suits : Suits .gp cell) :
    Keeps (invariant labels) (Compile.loadPages dst cell) anything := by
  refine (rules.loadRef (fun _ => suits.general) _ _).andThen fun _ => rules.emitStraight (straight_two ⟨by rfl, by rfl⟩) ?_
  simp [Instruction.tame_iff, ordinary, @outside_frame 0 (.based cell 0) suits.ordinary]

theorem lowerMemorySize : Keeps (invariant labels) Compile.lowerMemorySize anything :=
  keeps_demandMemory.andThen fun _ => Keeps.read.andThen fun _ =>
    (rules.takeRegister _ _ _).bind fun _ suits => Keeps.ite
      ((rules.emitStraight (straight_loadConstant _ _ _)
        (tame_loadConstant _ suits.ordinary _)).andThen fun _ => rules.pushRegister suits)
      ((rules.machine (rules.loadPages suits.ordinary suits)).andThen fun _ =>
        rules.pushRegister suits)

theorem lowerMemoryGrow : Keeps (invariant labels) Compile.lowerMemoryGrow anything := by
  refine keeps_demandMemory.andThen fun _ => (rules.expect _ _).andThen fun _ =>
    Keeps.read.andThen fun subject => Keeps.ite ?_ ?_
  · exact rules.dropOperand.andThen fun _ => (rules.takeRegister _ _ _).bind fun _ suits =>
      (rules.emitStraight (straight_loadConstant _ _ _)
        (tame_loadConstant _ suits.ordinary _)).andThen fun _ => rules.pushRegister suits
  · refine (rules.popRegister _).andThen fun delta => rules.machine <|
      (rules.takeRegister _ _ _).bind fun cell held =>
      (rules.takeRegister _ _ _).bind fun dst suits =>
      (rules.loadPages suits.ordinary held).andThen fun _ =>
      (rules.emitTame ⟨[0, 1], ?_, ?_⟩ ?_).andThen fun _ => rules.pushRegister suits
    · simp +decide [growSequence, Step.Resolves, Target.Known]
      exact ⟨rfl, rfl, rfl, rfl, rfl, rfl⟩
    · simp [growSequence]
    · simp [growSequence, Instruction.tame_iff, suits.ordinary,
        @outside_frame 0 (.based cell 0) held.ordinary]

end Memory

theorem lower_plain_of_calls {op : Opcode} (plain : op.isPlain = true) (instr : Instr)
    (raised : ∀ kind ∈ op.faults, kind ∈ faults)
    (demotes : op.isAccess = true →
      ∀ labels, Keeps (invariant labels) Compile.demoteBlock anything)
    (calls : op = .call → Keeps (invariant labels) (Compile.lowerCall instr.index) anything)
    (indirect : op = .callIndirect →
      Keeps (invariant labels) (Compile.lowerCallIndirect instr.index) anything) :
    Keeps (invariant labels) (Compile.lower op instr) anything := by
  cases op
  case nop => exact .done
  case drop => exact rules.dropOperand
  case select => exact rules.lowerSelect
  case localGet => exact rules.localGet _
  case localSet => exact rules.localSet _ _
  case localTee => exact rules.localSet _ _
  case globalGet => exact rules.lowerGlobalGet _
  case globalSet => exact rules.lowerGlobalSet _
  case load op => exact rules.lowerLoad op _ (raised _ (by simp [Opcode.faults])) (demotes rfl)
  case store op => exact rules.lowerStore op _ (raised _ (by simp [Opcode.faults])) (demotes rfl)
  case memorySize => exact rules.lowerMemorySize
  case memoryGrow => exact rules.lowerMemoryGrow
  case intConst width => exact rules.lowerIntConst width _
  case floatConst width => exact rules.lowerFloatConst width _
  case eqz width =>
    apply rules.lowerUnary
    · intro dst src
      exact (straight_three ⟨by rfl, by rfl, by rfl⟩).closed
    · intro dst ordinary src
      simp [isZero, Instruction.tame_iff, ordinary]
  case intCompare width relation =>
    rw [Compile.lower]
    apply rules.lowerBinary
    intro dst ordinary left right
    have known : relation.condition.code < 16 := by cases relation <;> decide
    exact .pure ⟨(straight_setCondition _ known _ _ _).closed, tame_setCondition _ _ ordinary _ _⟩
  case floatCompare width relation =>
    rw [Compile.lower]
    apply rules.lowerBinary
    intro dst ordinary left right
    have known : relation.condition.code < 16 := by cases relation <;> decide
    exact .pure ⟨closed_floatSetCondition _ known _ _ _, tame_floatSetCondition _ _ ordinary _ _⟩
  case intUnary width op =>
    exact rules.lowerUnary (closed_intUnary op width.type) (tame_intUnary op _)
  case intBinary width op => exact rules.lowerIntBinary width op raised
  case floatUnary width op =>
    exact rules.lowerUnary (fun dst src => (straight_floatUnary op width.type dst src).closed)
      (tame_floatUnary op _)
  case floatBinary width op =>
    rw [Compile.lower]
    apply rules.lowerBinary
    intro dst ordinary left right
    exact .pure ⟨closed_floatBinary op width.type dst left right, tame_floatBinary op _ ordinary _ _⟩
  case convert op => exact rules.lowerConversion op raised
  case call => exact calls rfl
  case callIndirect => exact indirect rfl
  case unknown code => exact .throw
  all_goals cases plain

end Parts

variable {faults : List TrapKind} {invariant : List Label → Subject → Compilation → Prop}
  {labels : List Label} (rules : Routine False faults invariant)

include rules

section Calls

omit rules in
theorem calleeSignature (type : FuncType) :
    Keeps (invariant labels) (Compile.calleeSignature type)
      fun signature => signature = .ofType type :=
  Keeps.demand (.pure rfl)

theorem finishCall (type : FuncType) :
    Keeps (invariant labels) (Compile.finishCall (.ofType type)) anything := by
  have pops : ∀ (condition : Prop) [Decidable condition] (room : Int32)
      (push : Compile Unit), Keeps (invariant labels) push anything →
      Keeps (invariant labels) (do
        if condition then Compile.emit [.emit (.aluImm .add .i64 .rsp room)]
        push) anything := by
    intro condition _ room push pushes
    exact Keeps.ite ((rules.emit (straight_one (by rfl)).closed False.elim).andThen fun _ => pushes) pushes
  unfold Compile.finishCall
  apply pops
  cases results : type.results with
  | nil =>
    simp only [Signature.ofType, results]
    exact .done
  | cons result others =>
    simp only [Signature.ofType, results]
    exact rules.pushRegister (suits_returned result)

theorem lowerCall (index : UInt32) :
    Keeps (invariant labels) (Compile.lowerCall index) anything := by
  refine Keeps.read.andThen fun subject => ?_
  split
  · exact .throw
  · rename_i type found
    refine (calleeSignature type).bind ?_
    intro signature same
    subst same
    exact (rules.prepareCall id _ _ _).andThen fun _ =>
      (rules.machine <| (rules.takeRegister _ _ _).bind fun _ _ =>
        (rules.loadRef False.elim _ _).andThen fun _ => rules.emit (straight_one (by rfl)).closed False.elim).andThen
        fun _ => rules.finishCall type

theorem lowerCallIndirect (index : UInt32)
    (raised : ∀ kind ∈ Opcode.callIndirect.faults, kind ∈ faults) :
    Keeps (invariant labels) (Compile.lowerCallIndirect index) anything := by
  refine Keeps.read.andThen fun subject => ?_
  dsimp only
  split
  · exact .throw
  · rename_i type found
    refine (calleeSignature type).bind ?_
    intro signature same
    subst same
    refine (rules.expect _ _).andThen fun _ => (rules.popRegister _).andThen fun entryIndex =>
      (rules.takeRegister _ _ _).bind fun table _ =>
      (rules.takeRegister _ _ _).bind fun entry _ => rules.trap (raised _ (by simp [Opcode.faults])) fun undefined =>
      (rules.loadRef False.elim _ _).andThen fun _ => (rules.emit ⟨[], ?_, (by simp)⟩ False.elim).andThen fun _ =>
      rules.trap (raised _ (by simp [Opcode.faults])) fun mismatch => (rules.loadRef False.elim _ _).andThen fun _ =>
      (rules.emit ⟨[], ?_, (by simp)⟩ False.elim).andThen fun _ => (rules.loadRef False.elim _ _).andThen fun _ =>
      (rules.emit (straight_one (by rfl)).closed False.elim).andThen fun _ =>
      (rules.prepareCall id _ _ _).andThen fun _ =>
      (rules.machine (rules.emit (straight_one (by rfl)).closed False.elim)).andThen fun _ => rules.finishCall type
    · simp +decide [Step.Resolves, Target.Known]
      exact ⟨rfl, rfl⟩
    · simp +decide [Step.Resolves, Target.Known]
      exact ⟨rfl, rfl⟩

end Calls

theorem lower_plain {op : Opcode} (plain : op.isPlain = true) (instr : Instr)
    (raised : ∀ kind ∈ op.faults, kind ∈ faults)
    (demotes : op.isAccess = true →
      ∀ labels, Keeps (invariant labels) Compile.demoteBlock anything) :
    Keeps (invariant labels) (Compile.lower op instr) anything := by
  refine rules.lower_plain_of_calls plain instr raised demotes ?_ ?_
  · intro _
    exact rules.lowerCall _
  · rintro rfl
    exact rules.lowerCallIndirect _ raised

end Routine

theorem Discipline.lower_plain {invariant : List Label → Subject → Compilation → Prop}
    {labels : List Label} (rules : Discipline invariant) {op : Opcode}
    (plain : op.isPlain = true) (instr : Instr) :
    Keeps (invariant labels) (Compile.lower op instr) anything :=
  (rules.routine op.faults).lower_plain plain instr (fun _ => id) fun _ _ => rules.demoteBlock

end Compile

end WasmX64
