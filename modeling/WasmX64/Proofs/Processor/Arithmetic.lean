import WasmX64.Proofs.Processor.Division
import WasmX64.Proofs.Processor.Placed

/-!
# Arithmetic and constants as machine code

The bytes that a division or a shift is placed as compute what WebAssembly says, and those that
load or spill a constant leave its bits, whatever registers are given and whatever the code
before and behind them is.
-/

namespace WasmX64

namespace Sequence

variable {type : ValueType} {dst src left right divisor amount : Register}

theorem fits_mov (integer : type.isInteger = true) (target : dst.isGp = true)
    (source : src.isGp = true) : Fits 10 [.emit (.mov type dst src)] := by
  have bank : type.isFloat = false := by cases type <;> first | rfl | cases integer
  refine fits_emit ?_ ?_
  · constructor <;> simp [Instruction.demands, bank, integer, target, source]
  · simp [Instruction.demands, bank]

theorem fits_move (integer : type.isInteger = true) (target : dst.isGp = true)
    (source : src.isGp = true) : Fits 10 (move type dst src) :=
  (fits_nil.mono (Nat.zero_le 10)).ite (fits_mov integer target source)

theorem fits_registers {instruction : Instruction} (integer : type.isInteger = true)
    (target : dst.isGp = true) (source : src.isGp = true)
    (demands : instruction.demands = { integers := [type], general := [dst, src] }) :
    Fits 10 [.emit instruction] := by
  refine fits_emit ?_ ?_
  · rw [Instruction.Valid, demands]
    constructor <;> simp [integer, target, source]
  · rw [demands]

theorem fits_register {instruction : Instruction} (integer : type.isInteger = true) (target : dst.isGp = true)
    (demands : instruction.demands = { integers := [type], general := [dst] }) :
    Fits 10 [.emit instruction] := by
  refine fits_emit ?_ ?_
  · rw [Instruction.Valid, demands]
    constructor <;> simp [integer, target]
  · rw [demands]

theorem fits_signFill (type : ValueType) :
    Fits 10 [.emit (if type = .i32 then .cdq else .cqo)] := by
  split
  · exact fits_emit ⟨nofun, nofun, nofun, nofun, nofun⟩ rfl
  · exact fits_emit ⟨nofun, nofun, nofun, nofun, nofun⟩ rfl

theorem fits_hardwareDivision (integer : type.isInteger = true) (signed : Bool)
    (general : divisor.isGp = true) : Fits 20 (hardwareDivision type signed divisor) := by
  unfold hardwareDivision
  cases signed with
  | true =>
    have divides : Fits 10 [.emit (.unary .idiv type divisor)] :=
      fits_register integer general rfl
    exact (fits_signFill type).append divides
  | false =>
    have clears : Fits 10 [.emit (.alu .xor .i32 .rdx .rdx)] :=
      fits_registers rfl rfl rfl rfl
    have divides : Fits 10 [.emit (.unary .div type divisor)] :=
      fits_register integer general rfl
    exact clears.append divides

theorem fits_signedDivisionChecks (integer : type.isInteger = true) (part : DivisionPart)
    (target : dst.isGp = true) (source : left.isGp = true) (general : divisor.isGp = true)
    (overflow : Target) :
    Fits 32 (signedDivisionChecks part type dst left divisor overflow) := by
  have compares : Fits 10 [.emit (.aluImm .cmp type divisor (-1))] :=
    fits_register integer general rfl
  have skips : Fits 6 [.jumpIf .notEqual (.inner 1) .near] := fits_jumpIf _ _ _
  have opens := compares.append skips
  cases part with
  | quotient =>
    have tests : Fits 10 [.emit (.aluImm .cmp type left 1)] :=
      fits_register integer source rfl
    have leaves : Fits 6 [.jumpIf .overflow overflow .far] := fits_jumpIf _ _ _
    exact (opens.append (tests.append leaves)).append (fits_bind _)
  | remainder =>
    have clears : Fits 10 [.emit (.alu .xor .i32 dst dst)] :=
      fits_registers rfl target target rfl
    exact (opens.append (clears.append (fits_jump _ _))).append (fits_bind _)

theorem fits_division (integer : type.isInteger = true) (part : DivisionPart) (signed : Bool)
    (target : dst.isGp = true) (first : left.isGp = true) (second : right.isGp = true)
    (divideByZero overflow : Target) :
    Fits 127 (division part type signed dst left right divideByZero overflow) := by
  have wellFormed : [dst, left, right].find? (!·.isGp) = none := by simp [target, first, second]
  unfold division
  simp only [integer, wellFormed, Bool.not_true, Bool.false_eq_true, if_false]
  have general : (if right = .rax ∨ right = .rdx then Register.r10 else right).isGp = true := by
    split
    · rfl
    · exact second
  generalize (if right = .rax ∨ right = .rdx then Register.r10 else right) = divisor at general
  have saves : Fits 10 (if right = .rax ∨ right = .rdx then [.emit (.mov type .r10 right)]
      else []) := (fits_mov integer rfl second).ite (fits_nil.mono (Nat.zero_le 10))
  have tests : Fits 10 [.emit (.test type divisor divisor)] :=
    fits_registers integer general general rfl
  have leaves : Fits 6 [.jumpIf .equal divideByZero .far] := fits_jumpIf _ _ _
  have opens : Fits 16 [.emit (.test type divisor divisor), .jumpIf .equal divideByZero .far] :=
    tests.append leaves
  have checks : Fits 32 (if signed = true then
      signedDivisionChecks part type dst left divisor overflow else []) :=
    (fits_signedDivisionChecks integer part target first general overflow).ite
      (fits_nil.mono (Nat.zero_le 32))
  have moves : Fits 10 (move type .rax left) := fits_move integer rfl first
  have divides := moves.append (fits_hardwareDivision integer signed general)
  have ends : Fits 0 (if signed = true ∧ part = .remainder then [.bind (.inner 0)] else []) :=
    (fits_bind _).ite fits_nil
  have whole (source : Register) (general : source.isGp = true) :=
    (((saves.append opens).append checks).append divides).append
      ((fits_move integer target general : Fits 10 (move type dst source)).append ends)
  simp only [List.append_assoc] at whole ⊢
  cases part with
  | quotient => exact (whole .rax rfl).mono (by decide)
  | remainder => exact (whole .rdx rfl).mono (by decide)

theorem once_division (part : DivisionPart) (type : ValueType) (signed : Bool)
    (dst left right : Register) (divideByZero overflow : Target) :
    ((division part type signed dst left right divideByZero overflow).filterMap
      Step.place?).Nodup := by
  have moves (dst src : Register) : (move type dst src).filterMap Step.place? = [] := by
    unfold move
    split
    · rfl
    · rfl
  unfold division
  split
  · exact .nil
  split
  · exact .nil
  have saves (condition : Prop) [Decidable condition] (instruction : Instruction) :
      (if condition then [Step.emit instruction] else []).filterMap Step.place? = [] := by
    split
    · rfl
    · rfl
  dsimp only
  simp only [List.filterMap_append, moves, saves, hardwareDivision, signedDivisionChecks]
  cases signed with
  | false => cases part <;> simp [List.filterMap_cons, Step.place?, moves]
  | true => cases part <;> simp [List.filterMap_cons, Step.place?, moves]

theorem fits_shift (op : ShiftOp) (integer : type.isInteger = true) (target : dst.isGp = true) (source : src.isGp = true)
    (count : amount.isGp = true) (live : Bool) :
    Fits 127 (shift op type dst src amount live) := by
  have wide {dst src : Register} (target : dst.isGp = true) (source : src.isGp = true) :
      Fits 10 [.emit (.mov .i64 dst src)] := fits_mov rfl target source
  have fetches : Fits 10 (if amount = .rcx then [] else [.emit (.mov .i64 .rcx amount)]) :=
    (fits_nil.mono (Nat.zero_le 10)).ite (wide rfl count)
  have shifts {reg : Register} (general : reg.isGp = true) :
      Fits 10 [.emit (.shiftCl op type reg)] := fits_register integer general rfl
  unfold shift
  dsimp only
  split
  · have back : Fits 20 [.emit (.shiftCl op type .r10), .emit (.mov type .rcx .r10)] :=
      (shifts rfl).append (fits_mov integer rfl rfl)
    have opens : Fits 10 (move type .r10 src) := fits_move integer rfl source
    exact ((opens.append fetches).append back).mono (by decide)
  · have saves (condition : Prop) [Decidable condition] {dst src : Register}
        (target : dst.isGp = true) (source : src.isGp = true) :
        Fits 10 (if condition then [.emit (.mov .i64 dst src)] else []) :=
      (wide target source).ite (fits_nil.mono (Nat.zero_le 10))
    have held : (if (amount ≠ .rcx ∧ (src = .rcx ∨ live = true)) ∧ src = .rcx then Register.r10
        else src).isGp = true := by
      split
      · rfl
      · exact source
    exact ((((saves _ rfl rfl).append fetches).append (fits_move integer target held)).append
      (shifts target)).append (saves _ rfl rfl) |>.mono (by decide)

/-- The operation whose result a division leaves. -/
def DivisionPart.operation : DivisionPart → Bool → IntBinary
  | .quotient, true => .divS
  | .quotient, false => .divU
  | .remainder, true => .remS
  | .remainder, false => .remU

theorem DivisionPart.lowering_operation (part : DivisionPart) (signed : Bool) :
    (part.operation signed).lowering = .divide part := by
  cases part <;> cases signed <;> rfl

theorem DivisionPart.signed_operation (part : DivisionPart) (signed : Bool) :
    (part.operation signed).signed = signed := by
  cases part <;> cases signed <;> rfl

theorem DivisionPart.eval_operation {width : Nat} (part : DivisionPart) (signed : Bool)
    (left right : BitVec width) :
    if right = 0 then (part.operation signed).eval left right = .error .divideByZero
    else if signed = true ∧ part = .quotient ∧ left = BitVec.intMin width ∧ right = -1 then
      (part.operation signed).eval left right = .error .integerOverflow
    else ∃ result, (part.operation signed).eval left right = .ok result := by
  by_cases zero : right = 0
  · rw [if_pos zero]
    cases part <;> cases signed <;> exact if_pos zero
  · rw [if_neg zero]
    split
    · rename_i overflows
      obtain ⟨rfl, rfl, extreme⟩ := overflows
      exact (if_neg zero).trans (if_pos extreme)
    · rename_i fits
      cases signed with
      | false => cases part <;> exact ⟨_, if_neg zero⟩
      | true =>
        cases part with
        | remainder => exact ⟨_, if_neg zero⟩
        | quotient =>
          refine ⟨_, (if_neg zero).trans (if_neg fun extreme => ?_)⟩
          exact fits ⟨rfl, rfl, extreme⟩

end Sequence

section Division

variable {code : Code} {listing : List Placed} {pending : List Use} {settled : List Landing}
  {part : Sequence.DivisionPart} {type : ValueType} {signed : Bool}
  {dst left right : Register} {zero overflow : Label}

/-- The code of a division goes to one label exactly when the divisor is zero and to the other
exactly when the signed quotient does not fit.  Else it comes to its end, without a fault of the
processor, with the result in the destination; other registers than the destination, `rax`, `rdx`
and `r10` keep their values. -/
theorem division_correct (assembled : Code.Assembled code listing pending settled)
    (integer : type.isInteger = true)
    (general : dst.isGp = true ∧ left.isGp = true ∧ right.isGp = true) (apart : left ≠ .r10)
    (known : zero.index < code.labels.size ∧ overflow.index < code.labels.size)
    (small : code.size + 127 < 2147483648) (entry : Processor) :
    ∃ after, code.Executes (Sequence.division part type signed dst left right (.label zero)
        (.label overflow)) entry
        (if type.word (entry.regs right) = 0 then .leaves zero after
        else if signed = true ∧ part = .quotient ∧
            type.word (entry.regs left) = BitVec.intMin type.bits ∧
            type.word (entry.regs right) = -1 then .leaves overflow after
        else .falls after) ∧
      after.memory = entry.memory ∧
      ∀ result, (part.operation signed).eval (type.word (entry.regs left))
          (type.word (entry.regs right)) = .ok result →
        after.regs dst = result.setWidth 64 ∧
        ∀ other, other ≠ dst → other ∉ [Register.rax, .rdx, .r10] →
          after.regs other = entry.regs other := by
  have closed : Sequence.Closed [zero, overflow] (Sequence.division part type signed dst left
      right (.label zero) (.label overflow)) :=
    Sequence.closed_division part type signed dst left right (by simp) (by simp)
  have executes (exit : Exit) (follows : Processor.follow none entry (Sequence.division part type
      signed dst left right (.label zero) (.label overflow)) = some exit) :=
    assembled.executes closed (by simpa using known)
      (Sequence.fits_division integer part signed general.1 general.2.1 general.2.2 _ _)
      (Sequence.once_division part type signed dst left right _ _) small follows
  have follows := @Processor.division_follows (· ∈ [Register.rax, .rdx, .r10]) type dst left right
    entry _ part (part.lowering_operation signed) integer general (by decide) (by decide)
    (by decide) apart zero overflow
  have evaluates := part.eval_operation signed (type.word (entry.regs left))
    (type.word (entry.regs right))
  rw [part.signed_operation signed] at follows
  generalize (part.operation signed).eval (type.word (entry.regs left))
    (type.word (entry.regs right)) = outcome at follows evaluates ⊢
  split
  · rename_i none
    rw [if_pos none] at evaluates
    subst evaluates
    obtain ⟨after, leaves, memory⟩ := follows
    exact ⟨after, executes _ leaves, memory, nofun⟩
  · rename_i some
    rw [if_neg some] at evaluates
    split
    · rename_i overflows
      rw [if_pos overflows] at evaluates
      subst evaluates
      obtain ⟨after, leaves, memory⟩ := follows
      exact ⟨after, executes _ leaves, memory, nofun⟩
    · rename_i fits
      rw [if_neg fits] at evaluates
      obtain ⟨result, rfl⟩ := evaluates
      obtain ⟨after, falls, memory, value, others⟩ := follows
      refine ⟨after, executes _ falls, memory, fun same equal => ?_⟩
      cases equal
      exact ⟨value, others⟩

/-- The operands of a remainder are where the hardware divides, and their quotient is too
large. -/
theorem division_correct_extreme :
    ∃ after, (({} : Code).reserve 2).Executes (Sequence.division .remainder .i32 true .rdx .rdx
        .rax (.label ⟨0⟩) (.label ⟨1⟩))
        { regs := fun reg => if reg = .rax then 0xffffffff else 0x80000000, memory := fun _ => 0 }
        (.falls after) ∧
      after.regs .rdx = 0 := by
  obtain ⟨after, executes, _, outcome⟩ := @division_correct (({} : Code).reserve 2) [] [] []
    .remainder .i32 true .rdx .rdx .rax ⟨0⟩ ⟨1⟩ (Code.assembled_empty.reserve 2) rfl
    ⟨rfl, rfl, rfl⟩ (by decide) (by decide) (by decide)
    { regs := fun reg => if reg = .rax then 0xffffffff else 0x80000000, memory := fun _ => 0 }
  exact ⟨after, executes, (outcome _ rfl).1⟩

end Division

section Shift

variable {code : Code} {listing : List Placed} {pending : List Use} {settled : List Landing}
  {op : IntBinary} {shift : ShiftOp} {type : ValueType} {dst src amount : Register} {live : Bool}

theorem Sequence.shift_counter (shift : ShiftOp) (type : ValueType) (dst amount : Register)
    (live : Bool) : Sequence.shift shift type dst .rcx amount live =
      Sequence.shift shift type dst .rcx amount true := by
  simp [Sequence.shift]

/-- The code of a shift or rotation leaves its result in the destination.  Other registers keep
their values, but `r10`, and `rcx` if it holds neither the source nor another live value. -/
theorem shift_correct (lowers : op.lowering = .shift shift)
    (assembled : Code.Assembled code listing pending settled) (integer : type.isInteger = true)
    (general : dst.isGp = true ∧ src.isGp = true ∧ amount.isGp = true)
    (apart : dst ≠ .r10 ∧ src ≠ .r10 ∧ amount ≠ .r10) (small : code.size + 127 < 2147483648)
    (entry : Processor) :
    ∃ result after, op.eval (type.word (entry.regs src)) (type.word (entry.regs amount)) =
        .ok result ∧
      code.Executes (Sequence.shift shift type dst src amount live) entry (.falls after) ∧
      after.memory = entry.memory ∧ after.regs dst = result.setWidth 64 ∧
      ∀ other, other ≠ dst → other ≠ .r10 → (other = .rcx → live = true ∨ src = .rcx) →
        after.regs other = entry.regs other := by
  obtain ⟨result, evaluates⟩ : ∃ result,
      op.eval (type.word (entry.regs src)) (type.word (entry.regs amount)) = .ok result := by
    cases op <;> cases lowers <;> exact ⟨_, rfl⟩
  have declared : shift.operation?.isSome = true := by
    cases op <;> cases lowers <;> rfl
  have executes (after : Processor) := @Code.Assembled.executes_straight _ _ _ _ _ entry
    (.falls after) assembled (Sequence.straight_shift declared type dst src amount live)
    (Sequence.fits_shift shift integer general.1 general.2.1 general.2.2 live) small
  have yields : entry.Yields (fun other => other = .r10 ∨ other = .rcx ∧ live = false ∧ src ≠ .rcx)
      (Sequence.shift shift type dst src amount live) dst (result.setWidth 64) := by
    by_cases counter : src = .rcx
    · subst counter
      rw [Sequence.shift_counter]
      exact Processor.shift_yields lowers (.inl rfl) nofun apart.1 apart.2.1 apart.2.2 evaluates
    · exact Processor.shift_yields lowers (.inl rfl) (fun idle => .inr ⟨rfl, idle, counter⟩) apart.1
        apart.2.1 apart.2.2 evaluates
  obtain ⟨after, falls, memory, value, others⟩ := yields
  refine ⟨result, after, evaluates, executes after falls, memory, value, ?_⟩
  intro other different scratch kept
  apply others other different
  rintro (rfl | ⟨rfl, idle, counter⟩)
  · exact scratch rfl
  · cases kept rfl with
    | inl busy => exact absurd (idle.symm.trans busy) Bool.false_ne_true
    | inr same => exact counter same

/-- The source of a rotation is in `rcx`, and its amount has to come there. -/
theorem shift_correct_counter :
    ∃ after, ({} : Code).Executes (Sequence.shift .rol .i32 .rax .rcx .rdx false)
        { regs := fun reg => if reg = .rcx then 0x80000001 else 33, memory := fun _ => 0 }
        (.falls after) ∧
      after.regs .rax = 3 ∧ after.regs .rcx = 0x80000001 := by
  obtain ⟨result, after, evaluates, executes, _, value, others⟩ := @shift_correct {} [] [] []
    .rotl .rol .i32 .rax .rcx .rdx false rfl Code.assembled_empty rfl ⟨rfl, rfl, rfl⟩ (by decide)
    (by decide)
    { regs := fun reg => if reg = .rcx then 0x80000001 else 33, memory := fun _ => 0 }
  cases evaluates
  exact ⟨after, executes, value, others .rcx (by decide) (by decide) fun _ => .inr rfl⟩

end Shift

end WasmX64

/-!
## Constants as machine code

The bytes that loading or spilling a constant is placed as leave its bits, in whichever form they
are loaded: cleared, extended with a sign or with zeros, whole, or as a run of ones.
-/

namespace WasmX64

variable {code : Code} {listing : List Placed} {pending : List Use} {settled : List Landing}

/-- The code that loads a constant leaves its bits in the destination, in the width of its type,
and alone there if it is an integer.  Memory and other registers than the destination and `r10`
keep their values.  The code that spills an integer constant leaves its bits in the frame slot;
other bytes of memory and other registers than `r10` keep their values. -/
theorem constants_correct (assembled : Code.Assembled code listing pending settled)
    (entry : Processor) (bits : UInt64) :
    (∀ type dst, Suits type dst → ∃ after,
      code.Executes (Sequence.loadConstant type dst bits) entry (.falls after) ∧
      type.clip (after.regs dst) = type.clip bits.toBitVec ∧
      (type.isInteger = true → after.regs dst = type.clip bits.toBitVec) ∧
      after.memory = entry.memory ∧
      ∀ other, other ≠ dst → other ≠ .r10 → after.regs other = entry.regs other) ∧
    (∀ (type : ValueType) (index : Nat), type.isInteger = true → index < frameLimit → ∃ after,
      code.Executes (Sequence.spillConstant type index bits) entry (.falls after) ∧
      type.clip (after.slotWord index) = type.clip bits.toBitVec ∧
      after.memory = entry.memory.write (entry.slotAt index) type.size bits.toBitVec ∧
      ∀ other, other ≠ .r10 → after.regs other = entry.regs other) := by
  constructor
  · intro type dst suits
    obtain ⟨instructions, after, operates, loaded⟩ :=
      Sequence.loadConstant_operates suits bits entry
    exact ⟨after, assembled.executes_operates operates (Sequence.straight_loadConstant _ _ _),
      loaded.value, loaded.whole, loaded.memory,
      fun other different apart => loaded.others other different fun _ => apart⟩
  · intro type index integer small
    obtain ⟨instructions, after, operates, memory, others⟩ :=
      Sequence.spillConstant_operates integer small bits entry
    refine ⟨after, assembled.executes_operates operates (Sequence.straight_spillConstant _ _ _),
      ?_, memory, others⟩
    have frame : after.slotAt index = entry.slotAt index := by
      rw [Processor.slotAt, Processor.slotAt, others .rbp (by decide)]
    rw [← entry.clip_slotWord_store type index bits.toBitVec, Processor.slotWord, frame, memory]
    rfl

/-- The smallest positive single, a run of one bit at the low end, and a word that no immediate of
32 bits holds. -/
theorem constants_correct_forms :
    let entry : Processor := { regs := fun _ => 0, memory := fun _ => 0 }
    (∃ after, ({} : Code).Executes (Sequence.loadConstant .f32 (.xmm 0) 1) entry (.falls after) ∧
      ValueType.f32.clip (after.regs (.xmm 0)) = 1) ∧
    ∃ after, ({} : Code).Executes (Sequence.spillConstant .i64 0 0x123456789abcdef) entry
        (.falls after) ∧
      ValueType.i64.clip (after.slotWord 0) = 0x123456789abcdef := by
  intro entry
  obtain ⟨after, executes, value, _⟩ := (constants_correct Code.assembled_empty entry 1).1 .f32
    (.xmm 0) (by decide)
  obtain ⟨final, stores, stored, _⟩ := (constants_correct Code.assembled_empty entry
    0x123456789abcdef).2 .i64 0 rfl (by decide)
  exact ⟨⟨after, executes, value⟩, final, stores, stored⟩

end WasmX64
