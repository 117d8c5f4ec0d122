import WasmX64.Proofs.Processor.Execute

/-!
# Following code

What a processor does with the code that the compiler has put together: sequences of steps,
whose jumps lead ahead inside the sequence or out of it to a label, and the addresses of
run-time objects, which are known once the code is loaded.
-/

namespace WasmX64

/-- How a processor leaves a piece of code: at its end, or by a jump to a label. -/
inductive Exit where
  | falls (machine : Processor)
  | leaves (label : Label) (machine : Processor)

/-- What code is put together from. -/
inductive Part where
  | steps (steps : List Step)
  /-- A register is loaded with the address of a run-time object. -/
  | address (target : Register) (kind : RefKind) (index : UInt32)
  /-- A label that is not bound yet; there is no code. -/
  | label

namespace Processor

/-- Follows a sequence of steps; how the processor runs an instruction is given.  Behind a jump to
an inner place the steps are passed over up to that place. -/
def followBy (run : Processor → Instruction → Option Processor) :
    Option Nat → Processor → List Step → Option Exit
  | none, machine, [] => some (.falls machine)
  | some _, _, [] => none
  | some place, machine, step :: rest =>
    followBy run (if step = .bind (.inner place) then none else some place) machine rest
  | none, machine, .emit instruction :: rest =>
    (run machine instruction).bind fun next => followBy run none next rest
  | none, machine, .bind _ :: rest => followBy run none machine rest
  | none, machine, .jump (.label label) _ :: _ => some (.leaves label machine)
  | none, machine, .jump (.inner place) _ :: rest => followBy run (some place) machine rest
  | none, machine, .jumpIf condition (.label label) _ :: rest =>
    if condition.holds machine.flags then some (.leaves label machine)
    else followBy run none machine rest
  | none, machine, .jumpIf condition (.inner place) _ :: rest =>
    followBy run (if condition.holds machine.flags then some place else none) machine rest
  | none, _, _ :: _ => none

/-- Follows a sequence of steps that `perform` runs. -/
def follow : Option Nat → Processor → List Step → Option Exit := followBy perform

/-- Follows the parts of a piece of code that is loaded with the addresses of its objects. -/
def followParts (addresses : RefKind → UInt32 → BitVec 64) (machine : Processor) :
    List Part → Option Exit
  | [] => some (.falls machine)
  | .steps steps :: rest =>
    match follow none machine steps with
    | some (.falls next) => followParts addresses next rest
    | other => other
  | .address target kind index :: rest =>
    followParts addresses (machine.setReg target (addresses kind index)) rest
  | .label :: rest => followParts addresses machine rest

section

variable (run : Processor → Instruction → Option Processor) (machine : Processor)
  (rest : List Step) (distance : Distance)

@[simp] theorem followBy_nil : followBy run none machine [] = some (.falls machine) := rfl

@[simp] theorem followBy_emit (instruction : Instruction) :
    followBy run none machine (.emit instruction :: rest) =
      (run machine instruction).bind fun next => followBy run none next rest := rfl

@[simp] theorem followBy_bind (target : Target) :
    followBy run none machine (.bind target :: rest) = followBy run none machine rest := rfl

@[simp] theorem followBy_jumpIf_label (condition : Condition) (label : Label) :
    followBy run none machine (.jumpIf condition (.label label) distance :: rest) =
      if condition.holds machine.flags then some (.leaves label machine)
      else followBy run none machine rest := rfl

@[simp] theorem followBy_jumpIf_inner (condition : Condition) (place : Nat) :
    followBy run none machine (.jumpIf condition (.inner place) distance :: rest) =
      followBy run (if condition.holds machine.flags then some place else none) machine rest := rfl

@[simp] theorem followBy_seek (place : Nat) (step : Step) :
    followBy run (some place) machine (step :: rest) =
      followBy run (if step = .bind (.inner place) then none else some place) machine rest := by
  cases step <;> rfl

@[simp] theorem follow_nil : follow none machine [] = some (.falls machine) := rfl

@[simp] theorem follow_emit (instruction : Instruction) :
    follow none machine (.emit instruction :: rest) =
      (machine.perform instruction).bind fun next => follow none next rest := rfl

@[simp] theorem follow_bind (target : Target) :
    follow none machine (.bind target :: rest) = follow none machine rest := rfl

@[simp] theorem follow_jump_label (label : Label) :
    follow none machine (.jump (.label label) distance :: rest) =
      some (.leaves label machine) := rfl

@[simp] theorem follow_jump_inner (place : Nat) :
    follow none machine (.jump (.inner place) distance :: rest) =
      follow (some place) machine rest := rfl

@[simp] theorem follow_jumpIf_label (condition : Condition) (label : Label) :
    follow none machine (.jumpIf condition (.label label) distance :: rest) =
      if condition.holds machine.flags then some (.leaves label machine)
      else follow none machine rest := rfl

@[simp] theorem follow_jumpIf_inner (condition : Condition) (place : Nat) :
    follow none machine (.jumpIf condition (.inner place) distance :: rest) =
      follow (if condition.holds machine.flags then some place else none) machine rest := rfl

@[simp] theorem follow_seek (place : Nat) (step : Step) :
    follow (some place) machine (step :: rest) =
      follow (if step = .bind (.inner place) then none else some place) machine rest :=
  followBy_seek perform machine rest place step

end

variable {addresses : RefKind → UInt32 → BitVec 64} {machine next : Processor}

/-- Code that has been left is not resumed. -/
theorem followParts_append (first second : List Part) :
    followParts addresses machine (first ++ second) =
      match followParts addresses machine first with
      | some (.falls next) => followParts addresses next second
      | other => other := by
  induction first generalizing machine with
  | nil => rfl
  | cons part rest ih =>
    cases part with
    | steps steps =>
      rw [List.cons_append, followParts, followParts]
      cases follow none machine steps with
      | none => rfl
      | some exit =>
        cases exit with
        | falls next => exact ih
        | leaves label next => rfl
    | address target kind index => exact ih
    | label => exact ih

theorem followParts_falls {first second : List Part}
    (falls : followParts addresses machine first = some (.falls next)) :
    followParts addresses machine (first ++ second) = followParts addresses next second := by
  rw [followParts_append, falls]

theorem follow_straight {instructions : List Instruction}
    (runs : machine.executes instructions = some next) :
    follow none machine (instructions.map Step.emit) = some (.falls next) := by
  induction instructions generalizing machine with
  | nil =>
    cases runs
    rfl
  | cons instruction rest ih =>
    rw [executes] at runs
    cases first : machine.execute instruction with
    | none =>
      rw [first] at runs
      cases runs
    | some middle =>
      rw [first] at runs
      rw [List.map_cons, follow_emit, perform_of_execute first]
      exact ih runs

end Processor

/-! ## Single instructions

What instructions on quadwords do to a processor, one law each, and what an unsigned comparison
says about its operands.
-/

theorem ValueType.clip_i64 (value : BitVec 64) : ValueType.i64.clip value = value :=
  narrow_eq_self value

theorem ValueType.word_i64 (value : BitVec 64) : ValueType.i64.word value = value :=
  BitVec.setWidth_eq value

theorem Condition.holds_above (left right : BitVec 64) :
    Condition.above.holds (AluOp.cmp.flags left right (left - right)) =
      decide (right.toNat < left.toNat) := by
  have equal : left - right = 0 ↔ left.toNat = right.toNat := by
    constructor
    · intro zero
      bv_omega
    · intro same
      bv_omega
  change ((decide (left.toNat < right.toNat) || decide (left - right = 0)) != true) = _
  simp only [equal]
  rcases Nat.lt_trichotomy left.toNat right.toNat with less | same | more
  · simp [less, Nat.lt_asymm less]
  · simp [same]
  · simp [more, Nat.lt_asymm more, Nat.ne_of_gt more]

namespace Processor

variable (machine : Processor)

/-- An operation of the integer group on quadwords. -/
theorem alu_i64 (op : AluOp) (dst : Register) (right : BitVec 64) :
    machine.alu op .i64 dst right =
      (op.result? (machine.regs dst) right).map fun result =>
        let flags := op.flags (machine.regs dst) right result
        if op = .cmp then { machine with flags }
        else { machine.setReg dst result with flags } := by
  have wide : ∀ result : BitVec 64, result.setWidth 64 = result := BitVec.setWidth_eq
  change (op.result? (ValueType.i64.word (machine.regs dst)) (ValueType.i64.word right)).map
    (fun result : BitVec 64 =>
      let flags := op.flags (ValueType.i64.word (machine.regs dst)) (ValueType.i64.word right) result
      if op = .cmp then { machine with flags }
      else { machine.setReg dst (result.setWidth 64) with flags }) = _
  simp only [ValueType.word_i64, wide]
  rfl

@[simp] theorem perform_mov_i64 (dst src : Register) :
    machine.perform (.mov .i64 dst src) = some (machine.setReg dst (machine.regs src)) := by
  change some (machine.setReg dst (ValueType.i64.clip (machine.regs src))) = _
  rw [ValueType.clip_i64]

@[simp] theorem perform_add_i64 (dst src : Register) :
    machine.perform (.alu .add .i64 dst src) =
      let result := machine.regs dst + machine.regs src
      some { machine.setReg dst result with
        flags := AluOp.add.flags (machine.regs dst) (machine.regs src) result } :=
  machine.alu_i64 .add dst (machine.regs src)

@[simp] theorem perform_cmpImm_i64 (reg : Register) (imm : Int32) :
    machine.perform (.aluImm .cmp .i64 reg imm) =
      let right := BitVec.ofInt 64 imm.toInt
      some { machine with
        flags := AluOp.cmp.flags (machine.regs reg) right (machine.regs reg - right) } :=
  machine.alu_i64 .cmp reg _

theorem perform_shift_i64 (op : ShiftOp) (reg : Register) {imm : UInt8} (few : imm.toNat < 64) :
    machine.perform (.shiftImm op .i64 reg imm) =
      (op.result? (machine.regs reg) imm.toNat).map fun result =>
        { machine.setReg reg result with
          flags := op.flags machine.flags (machine.regs reg) imm.toNat result } := by
  have wide : ∀ result : BitVec 64, result.setWidth 64 = result := BitVec.setWidth_eq
  have short : ValueType.i64.shiftCount imm.toNat = imm.toNat := Nat.mod_eq_of_lt few
  change (op.result? (ValueType.i64.word (machine.regs reg))
      (ValueType.i64.shiftCount imm.toNat)).map (fun result : BitVec 64 =>
        { machine.setReg reg (result.setWidth 64) with
          flags := op.flags machine.flags (ValueType.i64.word (machine.regs reg))
            (ValueType.i64.shiftCount imm.toNat) result }) = _
  simp only [ValueType.word_i64, wide, short]
  rfl

/-- Shifting by sixteen bits multiplies by the size of a page. -/
@[simp] theorem perform_shl16 (reg : Register) :
    machine.perform (.shiftImm .shl .i64 reg 16) =
      let result := machine.regs reg <<< 16
      some { machine.setReg reg result with
        flags := ShiftOp.shl.flags machine.flags (machine.regs reg) 16 result } :=
  machine.perform_shift_i64 .shl reg (by decide)

@[simp] theorem perform_shr16 (reg : Register) :
    machine.perform (.shiftImm .shr .i64 reg 16) =
      let result := machine.regs reg >>> 16
      some { machine.setReg reg result with
        flags := ShiftOp.shr.flags machine.flags (machine.regs reg) 16 result } :=
  machine.perform_shift_i64 .shr reg (by decide)

theorem effective_base {base : Register} (present : base ≠ .absent) :
    machine.effective (.based base 0) = machine.regs base := by
  rw [machine.effective_based 0 present]
  exact BitVec.add_zero _

@[simp] theorem perform_load (type : ValueType) (dst : Register) (address : Address) :
    machine.perform (.load type dst address) =
      some (machine.setReg dst (machine.load type (machine.effective address))) := rfl

@[simp] theorem perform_store (type : ValueType) (address : Address) (src : Register) :
    machine.perform (.store type address src) =
      some (machine.store type (machine.effective address) (machine.regs src)) := rfl

@[simp] theorem perform_movImm (type : ValueType) (dst : Register) (imm : Int64) :
    machine.perform (.movImm type dst imm) =
      some (machine.setReg dst (type.clip imm.toBitVec)) := rfl

end Processor

end WasmX64
