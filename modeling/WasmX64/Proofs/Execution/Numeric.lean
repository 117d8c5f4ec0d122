import WasmX64.Proofs.Execution.Operands

/-!
# Integer operations at work

The code of an integer operation puts the result of the operation in the place of its operands,
or leaves for the trap that the operation ends in.
-/

namespace WasmX64

theorem IntWidth.isValid_type (width : IntWidth) : width.type.isValid = true := by
  cases width <;> rfl

theorem IntWidth.isInteger_type (width : IntWidth) : width.type.isInteger = true := by
  cases width <;> rfl

/-- Only a division can fail. -/
theorem IntBinary.eval_total {width : Nat} {op : IntBinary}
    (total : ∀ part, op.lowering ≠ .divide part) :
    ∃ value : BitVec width → BitVec width → BitVec width,
      ∀ left right, op.eval left right = .ok (value left right) := by
  cases op
  case divS | divU => exact absurd rfl (total .quotient)
  case remS | remU => exact absurd rfl (total .remainder)
  all_goals exact ⟨_, fun _ _ => rfl⟩

theorem IntBinary.error_eval {width : Nat} {op : IntBinary} {part : Sequence.DivisionPart}
    {left right : BitVec width} {kind : TrapKind} (lowers : op.lowering = .divide part)
    (fails : op.eval left right = .error kind) :
    kind = .divideByZero ∨ kind = .integerOverflow ∧ op.signed = true ∧ part = .quotient := by
  cases op <;> cases lowers <;> rw [eval] at fails <;> split at fails
  case divS.refl.isFalse =>
    split at fails
    · cases fails
      exact .inr ⟨rfl, rfl, rfl⟩
    · cases fails
  all_goals cases fails
  all_goals exact .inl rfl

namespace Compile

open Layout (Persists Reshapes Denotes)

variable {subject : Subject} {origin state after : Compilation} {count : Nat}
  {first : List Part} {info : Processor → (Register → BitVec 64) → Prop}

/-- A stub changes neither layout nor blocks. -/
theorem Taking.trap (taking : Taking subject origin count info state first) (kind : TrapKind) :
    Compiles (addTrap kind) subject state fun label after second =>
      after.stubs = state.stubs.push ⟨label, kind, origin.instr⟩ ∧
        label.index = state.output.code.labels.size ∧
        after.output.code.labels.size = label.index + 1 ∧
        Taking subject origin count info after (first ++ second) := by
  have traps : Compiles (addTrap kind) subject state fun label after second =>
      ∃ output, label.index = state.output.code.labels.size ∧
        output.code.labels.size = label.index + 1 ∧ second = [.label] ∧
        after = { state with output, stubs := state.stubs.push ⟨label, kind, state.instr⟩ } :=
    .addTrap fun label output fresh more => ⟨output, fresh, more, rfl, rfl⟩
  refine traps.gained.mono ?_
  rintro label _ _ ⟨gains, output, fresh, more, rfl, rfl⟩
  refine ⟨by rw [taking.instr], fresh, more, taking.gains.append gains, taking.orderly.keep rfl rfl,
    taking.instr, taking.height, taking.fewer, ?_⟩
  intro addresses machine zeroed
  obtain ⟨next, runs, persists, known⟩ := taking.follows addresses machine zeroed
  refine ⟨next, ?_, persists, known⟩
  rw [Processor.followParts_falls runs]
  rfl

theorem Taking.vacate {reg : Register} (taking : Taking subject origin count info state first)
    (allocable : reg.isAllocable = true) :
    Compiles (vacate reg) subject state fun _ after second =>
      after.stubs = state.stubs ∧ after.layout.Loose reg ∧
        state.layout.Spills after.layout second ∧
        Taking subject origin count info after (first ++ second) := by
  refine .bind (.get ?_)
  by_cases used : state.layout.used.has reg = true
  · rw [if_pos used]
    have books := Books.keeps (stays_spillRegister allocable) subject _ taking.orderly.books
    refine ((spillRegister_compiles taking.orderly.neat allocable).and books).gained.mono ?_
    rintro _ after second ⟨gains, ⟨relaid, free, spills⟩, books, _⟩
    exact ⟨relaid.stubs, books.sound.loose_of_isFree free, spills,
      taking.spills gains (taking.orderly.spills books spills) relaid.instr spills⟩
  · rw [if_neg used]
    have machine := Register.isMachine_of_isAllocable allocable
    have free : state.layout.isFree reg = true := by
      simpa [Layout.isFree, machine] using used
    refine .pure ⟨rfl, taking.orderly.books.sound.loose_of_isFree free, .of_slots rfl, ?_⟩
    simpa using taking

/-- The code of a division, once its stubs are there. -/
theorem Taking.divide {width : IntWidth} {op : IntBinary} {part : Sequence.DivisionPart}
    {left right : Register} {zero overflow : Label} (lowers : op.lowering = .divide part)
    (leftSuits : Suits .gp left) (rightSuits : Suits .gp right)
    (taking : Taking subject origin count (fun machine regs =>
      Denotes width.type (regs left) (origin.layout.operand machine 1) ∧
        Denotes width.type (regs right) (origin.layout.operand machine 0)) state first)
    (room : count < frameLimit)
    (reports : ∀ (dividend divisor : BitVec width.type.bits) kind,
      op.eval dividend divisor = .error kind →
        Reports origin state (if kind = .divideByZero then zero else overflow) kind) :
    Compiles (do
      Compile.vacate .rax
      Compile.vacate .rdx
      let dst ← takeRegister .gp [left, right] RegSet.empty
      emit (Sequence.division part width.type op.signed dst left right zero overflow)
      pushRegister width.type dst) subject state fun _ after second =>
        Realizes subject origin (fun machine =>
          (op.eval (width.type.word (origin.layout.operand machine 1))
            (width.type.word (origin.layout.operand machine 0))).bind fun result =>
              replaced origin.layout count machine (result.setWidth 64)) after (first ++ second) := by
  obtain ⟨spare, suits, _⟩ := @exists_spare .gp [] (by decide)
  refine .bind ((taking.vacate (by decide)).mono ?_)
  rintro _ low second ⟨lowStubs, lowLoose, _, taking⟩
  refine .bind ((taking.vacate (by decide)).mono ?_)
  rintro _ both third ⟨bothStubs, highLoose, highSpills, taking⟩
  refine .bind ((taking.take suits (RegSet.has_empty spare)).mono ?_)
  rintro dst taken fourth ⟨dstSuits, _, free, spills, takenStubs, taking⟩
  have stubs : taken.stubs = state.stubs := (takenStubs.trans bothStubs).trans lowStubs
  have general : ∀ {reg}, Suits .gp reg → reg.isGp = true := fun suits =>
    Register.isGp_of_regClass (Register.isMachine_of_isAllocable suits.1) suits.2
  have bank : width.type.regClass = .gp := by
    cases width <;> rfl
  refine (taking.place (fun machine =>
    (op.eval (width.type.word (origin.layout.operand machine 1))
      (width.type.word (origin.layout.operand machine 0))).map (BitVec.setWidth 64)) room
    width.isValid_type (bank ▸ dstSuits) free ?_).mono ?_
  · intro before machine _ known
    rw [← known.1.word, ← known.2.word]
    have follows := @Processor.division_follows taken.layout.Loose width.type dst left right machine
      op part lowers width.isInteger_type ⟨general dstSuits, general leftSuits, general rightSuits⟩
      (spills.loose (highSpills.loose lowLoose)) (spills.loose highLoose)
      (taking.orderly.books.sound.loose_of_reserved (by decide) (by decide) (by decide))
      (leftSuits.ne (by decide)) zero overflow
    have traps := reports (width.type.word (machine.regs left))
      (width.type.word (machine.regs right))
    cases ends : op.eval (width.type.word (machine.regs left))
        (width.type.word (machine.regs right)) with
    | ok result =>
      rw [ends] at follows
      exact .of_yields follows
    | error kind =>
      rw [ends] at follows
      obtain ⟨next, leaves, memory⟩ := follows
      exact ⟨_, next, leaves, memory, ⟨stubs ▸ (traps kind ends).added⟩⟩
  · intro _ after fifth realizes
    simp only [List.append_assoc] at realizes
    refine ⟨realizes.orderly, fun addresses machine zeroed => ?_⟩
    have concludes := realizes.concludes addresses machine zeroed
    cases ends : op.eval (width.type.word (origin.layout.operand machine 1))
        (width.type.word (origin.layout.operand machine 0)) with
    | ok result =>
      rw [ends] at concludes
      exact concludes
    | error kind =>
      rw [ends] at concludes
      exact concludes

theorem lowerDivision_compiles {width : IntWidth} {op : IntBinary} {part : Sequence.DivisionPart}
    (lowers : op.lowering = .divide part) (ready : Ready subject state [width.type, width.type]) :
    Compiles (lowerDivision part width.type op.signed) subject state fun _ after parts =>
      Realizes subject state (fun machine =>
        (op.eval (width.type.word (state.layout.operand machine 1))
          (width.type.word (state.layout.operand machine 0))).bind fun result =>
            replaced state.layout (state.layout.height - 2) machine (result.setWidth 64))
        after parts := by
  have room := ready.room
  have bank : width.type.regClass = .gp := by
    cases width <;> rfl
  refine .bind ((popOperands_compiles ready).mono ?_)
  rintro ⟨left, right⟩ popped first ⟨leftSuits, rightSuits, stubs, taking⟩
  rw [bank] at leftSuits rightSuits
  have grown := taking.gains.extends.count
  refine .bind ((taking.trap .divideByZero).mono ?_)
  rintro zero halted second ⟨zeroStubs, zeroIndex, zeroSize, taking⟩
  rw [stubs] at zeroStubs
  by_cases overflows : op.signed = true ∧ part = .quotient
  · simp only [if_pos overflows]
    refine .bind ((taking.trap .integerOverflow).mono ?_)
    rintro overflow traps third ⟨overflowStubs, overflowIndex, overflowSize, taking⟩
    rw [zeroStubs] at overflowStubs
    refine (taking.divide lowers leftSuits rightSuits (by omega) ?_).mono ?_
    · intro dividend divisor kind fails
      refine ⟨[⟨zero, .divideByZero, state.instr⟩, ⟨overflow, .integerOverflow, state.instr⟩], ?_, ?_,
        ?_, ?_⟩
      · simp [overflowStubs]
      · rcases IntBinary.error_eval lowers fails with rfl | ⟨rfl, _⟩ <;> simp
      · have different : zero ≠ overflow := by
          rintro rfl
          omega
        simpa using different
      · simp only [List.mem_cons, List.not_mem_nil, or_false]
        rintro stub (rfl | rfl)
        · dsimp only
          omega
        · dsimp only
          omega
    · intro _ after fourth realizes
      simp only [List.append_assoc] at realizes
      exact realizes
  · simp only [if_neg overflows]
    refine .bind (.pure ((taking.divide lowers leftSuits rightSuits (by omega) ?_).mono ?_))
    · intro dividend divisor kind fails
      have only : kind = .divideByZero :=
        (IntBinary.error_eval lowers fails).resolve_right fun wide => overflows wide.2
      refine ⟨[⟨zero, .divideByZero, state.instr⟩], ?_, ?_, ?_, ?_⟩
      · simp [zeroStubs]
      · simp [only]
      · simp
      · simp only [List.mem_singleton]
        rintro stub rfl
        dsimp only
        omega
    · intro _ after third realizes
      simp only [List.append_assoc] at realizes
      exact realizes

theorem lowerIntBinary_compiles (width : IntWidth) (op : IntBinary)
    (ready : Ready subject state [width.type, width.type]) :
    Compiles (lowerIntBinary width op) subject state fun _ after parts =>
      Realizes subject state (fun machine =>
        (op.eval (width.type.word (state.layout.operand machine 1))
          (width.type.word (state.layout.operand machine 0))).bind fun result =>
            replaced state.layout (state.layout.height - 2) machine (result.setWidth 64))
        after parts := by
  unfold lowerIntBinary
  cases lowers : op.lowering with
  | divide part => exact lowerDivision_compiles lowers ready
  | shift shift =>
    obtain ⟨value, evaluates⟩ : ∃ value : BitVec width.type.bits → BitVec width.type.bits →
        BitVec width.type.bits, ∀ left right, op.eval left right = .ok (value left right) :=
      IntBinary.eval_total fun part same => by rw [lowers] at same; cases same
    simp only [evaluates]
    refine @lowerBinary_compiles _ _ width.type width.type _ (fun layout dst left right =>
      Sequence.shift shift width.type dst left right (layout.used.has .rcx)) value ready
      width.isValid_type (fun _ _ _ _ => rfl) ?_
    intro machine layout dst left right sound dstSuits leftSuits rightSuits
    refine Processor.shift_yields lowers (sound.loose_of_reserved (by decide) (by decide)
      (by decide)) (fun unused => sound.loose_of_isFree ?_) (dstSuits.ne (by decide))
      (leftSuits.ne (by decide)) (rightSuits.ne (by decide)) (evaluates _ _)
    rw [Layout.isFree, unused]
    rfl
  | plain steps =>
    obtain ⟨value, evaluates⟩ : ∃ value : BitVec width.type.bits → BitVec width.type.bits →
        BitVec width.type.bits, ∀ left right, op.eval left right = .ok (value left right) :=
      IntBinary.eval_total fun part same => by rw [lowers] at same; cases same
    simp only [evaluates]
    refine @lowerBinary_compiles _ _ width.type width.type _ (fun _ dst left right =>
      steps width.type dst left right) value ready width.isValid_type (fun _ _ _ _ => rfl) ?_
    intro machine layout dst left right _ _ leftSuits rightSuits
    exact Processor.plain_yields lowers leftSuits.present rightSuits.present (evaluates _ _)

/-- The outcome of a comparison. -/
def flagWord (holds : Bool) : BitVec ValueType.i32.bits := if holds then 1 else 0

theorem setWidth_flagWord (holds : Bool) :
    (flagWord holds).setWidth 64 = if holds then 1 else 0 := by
  cases holds <;> rfl

theorem lowerIntCompare_compiles (width : IntWidth) (relation : IntRelation)
    (ready : Ready subject state [width.type, width.type]) :
    Compiles (lowerBinary width.type .i32 fun dst left right =>
        pure (Sequence.setCondition width.type relation.condition dst left right)) subject state
      fun _ after parts => Realizes subject state (fun machine =>
        replaced state.layout (state.layout.height - 2) machine
          (if relation.holds (width.type.word (state.layout.operand machine 1))
            (width.type.word (state.layout.operand machine 0)) then 1 else 0)) after parts := by
  simp only [← setWidth_flagWord]
  refine @lowerBinary_compiles _ _ width.type .i32 _ (fun _ dst left right =>
    Sequence.setCondition width.type relation.condition dst left right)
    (fun left right => flagWord (relation.holds left right)) ready rfl (fun _ _ _ _ => rfl) ?_
  intro machine layout dst left right _ _ _ _
  rw [setWidth_flagWord]
  exact Processor.setCondition_yields relation

theorem lowerIsZero_compiles (width : IntWidth) (ready : Ready subject state [width.type]) :
    Compiles (lowerUnary width.type .i32 (isZero width.type)) subject state fun _ after parts =>
      Realizes subject state (fun machine =>
        replaced state.layout (state.layout.height - 1) machine
          (if width.type.word (state.layout.operand machine 0) = 0 then 1 else 0)) after parts := by
  have decided : ∀ word : BitVec width.type.bits,
      (if word = 0 then 1 else 0) = (flagWord (decide (word = 0))).setWidth 64 := by
    intro word
    rw [setWidth_flagWord]
    simp only [decide_eq_true_eq]
  simp only [decided]
  refine @lowerUnary_compiles _ _ width.type .i32 _ (fun word => flagWord (decide (word = 0))) ready
    rfl fun machine loose dst src => ?_
  rw [← decided]
  exact Processor.isZero_yields

theorem lowerConversion_compiles {op : Conversion}
    {value : BitVec op.operand.bits → BitVec op.result.bits} (ready : Ready subject state [op.operand])
    (valid : op.result.isValid = true) (total : ∀ result source signed,
      op ≠ .truncate result source signed)
    (yields : ∀ (machine : Processor) (loose : Register → Prop) dst src,
      machine.Yields loose (Sequence.conversion op dst src .missing) dst
        ((value (op.operand.word (machine.regs src))).setWidth 64)) :
    Compiles (lowerConversion op) subject state fun _ after parts =>
      Realizes subject state (fun machine =>
        replaced state.layout (state.layout.height - 1) machine
          ((value (op.operand.word (state.layout.operand machine 0))).setWidth 64)) after parts := by
  obtain ⟨other, fits, _⟩ := @exists_spare op.result.regClass [] (by decide)
  have room := ready.room
  refine ready.operand fun src popped first _ taking => ?_
  refine .bind ((taking.take fits (RegSet.has_empty other)).mono ?_)
  rintro dst taken second ⟨suits, _, free, _, _, taking⟩
  have placed := taking.place (fun machine => .ok ((value (op.operand.word
    (state.layout.operand machine 0))).setWidth 64)) (by omega) valid suits free
      fun before machine _ known => by
        rw [← known.word]
        exact .of_yields (yields machine _ dst src)
  simp only [List.append_assoc] at placed
  cases op
  case truncate => exact absurd rfl (total _ _ _)
  all_goals exact .bind (.pure placed)

/-- One of two operands takes the place of both and the condition. -/
theorem lowerSelect_compiles {type : ValueType} (valid : type.isValid = true)
    (ready : Ready subject state [.i32, type, type]) :
    Compiles lowerSelect subject state fun _ after parts =>
      Realizes subject state (fun machine =>
        replaced state.layout (state.layout.height - 3) machine
          (if ValueType.i32.word (state.layout.operand machine 0) = 0
            then state.layout.operand machine 1 else state.layout.operand machine 2)) after parts := by
  have enough := ready.enough
  have room := ready.room
  have books := ready.orderly.books
  simp only [List.length_cons, List.length_nil] at enough
  obtain ⟨first, firstSuits, _⟩ := @exists_spare (ValueType.regClass .i32) [] (by decide)
  have taking := ready.orderly.taking (show _ = state.layout.height - 3 + 1 + 1 + 1 by omega)
  refine .bind (ready.offers.expect books rfl (.bind (ready.offers.operandType books rfl
    (.bind (ready.offers.expect books rfl (.bind ((taking.pop (show _ + 1 + 0 = _ by omega)
      ready.offers firstSuits (RegSet.has_empty first) fun _ _ _ _ => id).mono ?_)))))))
  rintro condition popped start ⟨conditionSuits, offers, _, taking⟩
  have conditionMachine := Register.isMachine_of_isAllocable conditionSuits.1
  obtain ⟨second, secondSuits, secondApart⟩ := @exists_spare type.regClass [condition] (by simp)
  have secondLoose : (RegSet.single condition).has second = false := by
    simpa [RegSet.has_single] using fun _ => secondApart condition
  refine .bind ((taking.pop (show _ + 1 + 1 = _ by omega) offers secondSuits secondLoose ?_).mono ?_)
  · intro machine before after kept known
    rw [kept condition (by simp [RegSet.has_single, conditionMachine])]
    exact known
  rintro otherwise below middle ⟨otherwiseSuits, offers, _, taking⟩
  have otherwiseMachine := Register.isMachine_of_isAllocable otherwiseSuits.1
  obtain ⟨third, thirdSuits, thirdApart⟩ :=
    @exists_spare type.regClass [condition, otherwise] (by simp)
  have thirdLoose : ((RegSet.single condition).insert otherwise).has third = false := by
    have apart := thirdApart
    simp only [List.mem_cons, List.not_mem_nil, or_false, forall_eq_or_imp, forall_eq] at apart
    simp [RegSet.has_insert, RegSet.has_single, apart]
  refine .bind ((taking.pop (show _ + 1 + 2 = _ by omega) offers thirdSuits thirdLoose ?_).mono ?_)
  · intro machine before after kept known
    rw [kept condition (by simp [RegSet.has_insert, RegSet.has_single, conditionMachine]),
      kept otherwise (by simp [RegSet.has_insert, otherwiseMachine])]
    exact known
  rintro chosen bottom finish ⟨_, _, _, taking⟩
  refine .bind ((taking.take secondSuits secondLoose).mono ?_)
  rintro dst taken last ⟨suits, _, free, _, _, taking⟩
  refine (taking.place (fun machine => .ok (if ValueType.i32.word (state.layout.operand machine 0) = 0
    then state.layout.operand machine 1 else state.layout.operand machine 2)) (by omega) valid suits
      free ?_).mono ?_
  · rintro before machine _ ⟨⟨⟨_, conditionKnown⟩, otherwiseKnown⟩, chosenKnown⟩
    obtain ⟨word, yields, copies⟩ := @Processor.selection_copies taken.layout.Loose type dst machine
      condition chosen otherwise
    refine ⟨word, yields, ?_⟩
    rw [conditionKnown.word] at copies
    split at copies
    · rename_i zero
      rw [if_pos zero]
      exact otherwiseKnown.copy copies
    · rename_i nonzero
      rw [if_neg nonzero]
      exact chosenKnown.copy copies
  · intro _ after steps realizes
    simp only [List.append_assoc] at realizes
    exact realizes

end Compile

end WasmX64
