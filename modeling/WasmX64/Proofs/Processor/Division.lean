import WasmX64.Proofs.Processor.Integers

/-!
# Divisions

The hardware divides `rdx:rax`, so a division moves its operands about, and the tests before it
send control to a trap where the hardware would fault.
-/

namespace WasmX64

namespace Processor

section Division

variable {loose : Register → Prop} {type : ValueType} {dst left right divisor : Register}
  {machine : Processor}

theorem perform_signFill (integer : type.isInteger = true) (machine : Processor) :
    ∃ value, machine.perform (if type = .i32 then .cdq else .cqo) =
        some (machine.setReg .rdx value) ∧
      type.word value = if (type.word (machine.regs .rax)).msb then BitVec.allOnes _ else 0 := by
  cases type with
  | i32 =>
    refine ⟨_, rfl, ?_⟩
    split
    · rfl
    · rfl
  | i64 =>
    have sign : (ValueType.i64.word (machine.regs .rax)).msb = (machine.regs .rax).msb :=
      congrArg BitVec.msb (ValueType.word_i64 (machine.regs .rax))
    refine ⟨_, rfl, ?_⟩
    rw [sign]
    cases (machine.regs .rax).msb with
    | true => rfl
    | false => rfl
  | f32 | f64 | unknown => cases integer

theorem toInt_signFill {width : Nat} (value : BitVec width) :
    ((if value.msb then BitVec.allOnes width else 0) ++ value).toInt = value.toInt := by
  rw [BitVec.toInt_append]
  by_cases none : width = 0
  · simp [none]
  · rw [if_neg (by simpa using none)]
    cases sign : value.msb with
    | true =>
      rw [if_pos rfl, BitVec.toInt_allOnes, if_pos (Nat.pos_of_ne_zero none),
        BitVec.toInt_eq_msb_cond, if_pos sign]
      simp
      omega
    | false =>
      rw [if_neg (by decide), @BitVec.toInt_eq_msb_cond _ value, sign]
      simp

theorem regs_divided (quotient remainder : BitVec type.bits) :
    (machine.divided type quotient remainder).regs .rax = quotient.setWidth 64 ∧
      (machine.divided type quotient remainder).regs .rdx = remainder.setWidth 64 ∧
      ∀ other, other ≠ .rax → other ≠ .rdx →
        (machine.divided type quotient remainder).regs other = machine.regs other := by
  simp +contextual [divided, show Register.rax ≠ .rdx by decide]

theorem divideUnsigned_eq {value : BitVec 64} (high : type.word (machine.regs .rdx) = 0)
    (nonzero : type.word value ≠ 0) :
    machine.divideUnsigned type value = some (machine.divided type
      (type.word (machine.regs .rax) / type.word value)
      (type.word (machine.regs .rax) % type.word value)) := by
  have total : (machine.dividend type).toNat = (type.word (machine.regs .rax)).toNat := by
    rw [dividend, BitVec.toNat_append, high]
    simp
  have number : (type.word value).toNat ≠ 0 := fun zero => nonzero (BitVec.eq_of_toNat_eq zero)
  have room : (type.word (machine.regs .rax)).toNat / (type.word value).toNat < 2 ^ type.bits :=
    Nat.lt_of_le_of_lt (Nat.div_le_self _ _) (BitVec.isLt _)
  unfold divideUnsigned
  rw [total, if_neg (by omega)]
  congr 2
  · apply BitVec.eq_of_toNat_eq
    rw [BitVec.toNat_ofNat, BitVec.toNat_udiv, Nat.mod_eq_of_lt room]
  · apply BitVec.eq_of_toNat_eq
    rw [BitVec.toNat_ofNat, BitVec.toNat_umod, Nat.mod_eq_of_lt]
    exact Nat.lt_of_le_of_lt (Nat.mod_le _ _) (BitVec.isLt _)

theorem divideSigned_eq {value : BitVec 64}
    (high : type.word (machine.regs .rdx) =
      if (type.word (machine.regs .rax)).msb then BitVec.allOnes _ else 0)
    (nonzero : type.word value ≠ 0)
    (fits : type.word (machine.regs .rax) ≠ BitVec.intMin type.bits ∨
      type.word value ≠ -BitVec.ofNat type.bits 1) :
    machine.divideSigned type value = some (machine.divided type
      ((type.word (machine.regs .rax)).sdiv (type.word value))
      ((type.word (machine.regs .rax)).srem (type.word value))) := by
  have total : (machine.dividend type).toInt = (type.word (machine.regs .rax)).toInt := by
    rw [dividend, high, toInt_signFill]
  have number : (type.word value).toInt ≠ 0 := by
    intro zero
    apply nonzero
    rw [← BitVec.toInt_inj, zero]
    simp
  have quotient := BitVec.toInt_sdiv_of_ne_or_ne _ _ fits
  have above := @BitVec.two_mul_toInt_lt _
    ((type.word (machine.regs .rax)).sdiv (type.word value))
  have below := @BitVec.le_two_mul_toInt _
    ((type.word (machine.regs .rax)).sdiv (type.word value))
  have bits : type.bits = type.bits - 1 + 1 := by
    unfold ValueType.bits
    split <;> rfl
  have double : (2 : Int) ^ type.bits = 2 * 2 ^ (type.bits - 1) := by
    rw [← pow_succ', ← bits]
  rw [double] at above below
  unfold divideSigned
  dsimp only
  rw [total, ← quotient, if_neg (by omega)]
  congr 2
  · exact BitVec.ofInt_toInt
  · rw [← BitVec.toInt_srem, BitVec.ofInt_toInt]

theorem follow_hardwareDivision (integer : type.isInteger = true) (signed : Bool)
    (notHigh : divisor ≠ .rdx) (nonzero : type.word (machine.regs divisor) ≠ 0)
    (fits : signed = true → type.word (machine.regs .rax) ≠ BitVec.intMin type.bits ∨
      type.word (machine.regs divisor) ≠ -BitVec.ofNat type.bits 1) :
    let first := type.word (machine.regs .rax)
    let second := type.word (machine.regs divisor)
    ∃ next, follow none machine (Sequence.hardwareDivision type signed divisor) =
        some (.falls next) ∧ next.memory = machine.memory ∧
      next.regs .rax = (if signed then first.sdiv second else first / second).setWidth 64 ∧
      next.regs .rdx = (if signed then first.srem second else first % second).setWidth 64 ∧
      ∀ other, other ≠ .rax → other ≠ .rdx → next.regs other = machine.regs other := by
  intro first second
  cases signed with
  | false =>
    let cleared : Processor := { machine.setReg .rdx 0 with flags := logicFlags .i32 0 }
    have clears : machine.perform (.alu .xor .i32 .rdx .rdx) = some cleared :=
      machine.perform_clear .rdx
    have low : cleared.regs .rax = machine.regs .rax := rfl
    have same : cleared.regs divisor = machine.regs divisor := if_neg notHigh
    have high : type.word (cleared.regs .rdx) = 0 := by
      change type.word 0 = 0
      simp [ValueType.word]
    have divides := @divideUnsigned_eq type cleared (cleared.regs divisor) high (same ▸ nonzero)
    rw [low, same] at divides
    obtain ⟨quotient, remainder, others⟩ :=
      @regs_divided type cleared (first / second) (first % second)
    refine ⟨cleared.divided type (first / second) (first % second), ?_, rfl, quotient,
      remainder, ?_⟩
    · simp only [Sequence.hardwareDivision, Bool.false_eq_true, if_false, follow_emit, clears,
        Option.bind_some]
      change (cleared.divideUnsigned type (cleared.regs divisor)).bind _ = _
      rw [same, divides]
      rfl
    · intro other notRax notRdx
      rw [others other notRax notRdx]
      exact if_neg notRdx
  | true =>
    obtain ⟨sign, fills, filled⟩ := perform_signFill integer machine
    let extended := machine.setReg .rdx sign
    have low : extended.regs .rax = machine.regs .rax := rfl
    have same : extended.regs divisor = machine.regs divisor := if_neg notHigh
    have divides := @divideSigned_eq type extended (extended.regs divisor) filled
      (same ▸ nonzero) (same ▸ fits rfl)
    rw [low, same] at divides
    obtain ⟨quotient, remainder, others⟩ :=
      @regs_divided type extended (first.sdiv second) (first.srem second)
    refine ⟨extended.divided type (first.sdiv second) (first.srem second), ?_, rfl, quotient,
      remainder, ?_⟩
    · simp only [Sequence.hardwareDivision, if_true, follow_emit, fills, Option.bind_some]
      change (extended.divideSigned type (extended.regs divisor)).bind _ = _
      rw [same, divides]
      rfl
    · intro other notRax notRdx
      rw [others other notRax notRdx]
      exact if_neg notRdx

/-- A number that fills its register goes to the destination. -/
theorem move_yields {src : Register} {value : BitVec type.bits}
    (holds : machine.regs src = value.setWidth 64) :
    machine.Yields loose (Sequence.move type dst src) dst (value.setWidth 64) := by
  unfold Sequence.move
  by_cases same : dst = src
  · rw [if_pos same, same]
    exact ⟨machine, rfl, rfl, holds, fun _ _ _ => rfl⟩
  · rw [if_neg same]
    refine .emit (perform_mov ..) rfl ?_ fun other apart => if_neg apart
    rw [regs_setReg, if_pos rfl, holds, copied_setWidth]

/-- Where the hardware leaves a part of a division. -/
def partPlace : Sequence.DivisionPart → Register
  | .quotient => .rax
  | .remainder => .rdx

/-- The division itself, once nothing can go wrong. -/
theorem divides_yields {op : IntBinary} {part : Sequence.DivisionPart}
    (lowers : op.lowering = .divide part) (integer : type.isInteger = true) (low : loose .rax)
    (high : loose .rdx) (notLow : divisor ≠ .rax) (notHigh : divisor ≠ .rdx)
    (nonzero : type.word (machine.regs divisor) ≠ 0)
    (fits : op.signed = true → type.word (machine.regs left) ≠ BitVec.intMin type.bits ∨
      type.word (machine.regs divisor) ≠ -BitVec.ofNat type.bits 1)
    {result : BitVec type.bits}
    (evaluates : op.eval (type.word (machine.regs left)) (type.word (machine.regs divisor)) =
      .ok result) :
    machine.Yields loose (Sequence.move type .rax left ++
      Sequence.hardwareDivision type op.signed divisor ++
        Sequence.move type dst (partPlace part)) dst (result.setWidth 64) := by
  obtain ⟨moved, moves, movedMemory, numerator, movedOthers⟩ := machine.follow_move type .rax left
  have same := movedOthers divisor notLow
  rw [← ValueType.word_congr numerator, ← same] at fits evaluates
  rw [← same] at nonzero
  obtain ⟨next, divides, memory, quotient, remainder, others⟩ :=
    follow_hardwareDivision integer op.signed notHigh nonzero fits
  have movedKept : ∀ other, other ≠ dst → ¬ loose other → moved.regs other = machine.regs other :=
    fun other _ tight => movedOthers other fun same => tight (same ▸ low)
  have kept : ∀ other, other ≠ dst → ¬ loose other → next.regs other = moved.regs other :=
    fun other _ tight => others other (fun same => tight (same ▸ low)) fun same => tight (same ▸ high)
  rw [List.append_assoc]
  refine .after moves movedMemory movedKept (.after divides memory kept ?_)
  cases op <;> cases lowers
  case divS =>
    have safe : ¬ (type.word (moved.regs .rax) = BitVec.intMin type.bits ∧
        type.word (moved.regs divisor) = -1) :=
      fun both => (fits rfl).elim (fun apart => apart both.1) fun apart => apart both.2
    rw [IntBinary.eval, if_neg nonzero, if_neg safe] at evaluates
    cases evaluates
    exact move_yields quotient
  case divU =>
    rw [IntBinary.eval, if_neg nonzero] at evaluates
    cases evaluates
    exact move_yields quotient
  case remS =>
    rw [IntBinary.eval, if_neg nonzero] at evaluates
    cases evaluates
    exact move_yields remainder
  case remU =>
    rw [IntBinary.eval, if_neg nonzero] at evaluates
    cases evaluates
    exact move_yields remainder

/-- One less overflows for the least number only. -/
theorem holds_overflow_one (integer : type.isInteger = true) (value : BitVec type.bits) :
    Condition.overflow.holds (AluOp.cmp.flags value (type.word (BitVec.ofInt 64 1))
      (value - type.word (BitVec.ofInt 64 1))) = decide (value = BitVec.intMin type.bits) := by
  change (decide ((value - type.word (BitVec.ofInt 64 1)).toInt ≠
    value.toInt - (type.word (BitVec.ofInt 64 1)).toInt) != false) = _
  have above := @BitVec.two_mul_toInt_lt _ value
  have below := @BitVec.le_two_mul_toInt _ value
  rw [Bool.bne_false, decide_eq_decide, ← @BitVec.toInt_inj _ value, BitVec.toInt_sub,
    BitVec.toInt_intMin]
  cases type with
  | i32 =>
    have one : (ValueType.i32.word (BitVec.ofInt 64 1)).toInt = 1 := rfl
    rw [one]
    change _ ↔ value.toInt = -2147483648
    change 2 * value.toInt < 4294967296 at above
    change -4294967296 ≤ 2 * value.toInt at below
    change (value.toInt - 1).bmod 4294967296 ≠ value.toInt - 1 ↔ _
    rw [Int.bmod_def]
    omega
  | i64 =>
    have one : (ValueType.i64.word (BitVec.ofInt 64 1)).toInt = 1 := rfl
    rw [one]
    change _ ↔ value.toInt = -9223372036854775808
    change 2 * value.toInt < 18446744073709551616 at above
    change -18446744073709551616 ≤ 2 * value.toInt at below
    change (value.toInt - 1).bmod 18446744073709551616 ≠ value.toInt - 1 ↔ _
    rw [Int.bmod_def]
    omega
  | f32 | f64 | unknown => cases integer

theorem word_minusOne (type : ValueType) :
    type.word (BitVec.ofInt 64 (-1)) = -BitVec.ofNat type.bits 1 := by
  have whole : BitVec.ofInt 64 (-1) = BitVec.allOnes 64 := rfl
  have bits := type.bits_le
  rw [ValueType.word, whole, BitVec.neg_one_eq_allOnes]
  apply BitVec.eq_of_getLsbD_eq
  intro index small
  rw [BitVec.getLsbD_setWidth, BitVec.getLsbD_allOnes, BitVec.getLsbD_allOnes]
  have inside : index < 64 := by omega
  rw [decide_eq_true small, decide_eq_true inside]
  rfl

/-- A comparison with -1 tells whether a number is another one. -/
theorem holds_notMinusOne (value : BitVec type.bits) :
    Condition.notEqual.holds (AluOp.cmp.flags value (type.word (BitVec.ofInt 64 (-1)))
      (value - type.word (BitVec.ofInt 64 (-1)))) = decide (value ≠ -BitVec.ofNat type.bits 1) := by
  rw [(Condition.holds_others _).1, Condition.holds_cmp_equal, word_minusOne]
  simp

theorem follow_quotientChecks (integer : type.isInteger = true) (overflow : Label) :
    ∃ flags, ∀ tail, follow none machine
        (Sequence.signedDivisionChecks .quotient type dst left divisor (.label overflow) ++ tail) =
      if type.word (machine.regs left) = BitVec.intMin type.bits ∧
          type.word (machine.regs divisor) = -BitVec.ofNat type.bits 1 then
        some (.leaves overflow { machine with flags })
      else follow none { machine with flags } tail := by
  let first := AluOp.cmp.flags (type.word (machine.regs divisor))
    (type.word (BitVec.ofInt 64 (-1)))
    (type.word (machine.regs divisor) - type.word (BitVec.ofInt 64 (-1)))
  let second := AluOp.cmp.flags (type.word (machine.regs left)) (type.word (BitVec.ofInt 64 1))
    (type.word (machine.regs left) - type.word (BitVec.ofInt 64 1))
  have compares : machine.perform (.aluImm .cmp type divisor (-1)) =
      some { machine with flags := first } := rfl
  have again : { machine with flags := first }.perform (.aluImm .cmp type left 1) =
      some { machine with flags := second } := rfl
  by_cases minusOne : type.word (machine.regs divisor) = -BitVec.ofNat type.bits 1
  · refine ⟨second, fun tail => ?_⟩
    have stays : Condition.notEqual.holds first = false := by
      rw [holds_notMinusOne, minusOne]
      simp
    have overflows : Condition.overflow.holds second =
        decide (type.word (machine.regs left) = BitVec.intMin type.bits) :=
      holds_overflow_one integer _
    simp only [Sequence.signedDivisionChecks, List.cons_append, List.nil_append, follow_emit,
      compares, Option.bind_some, follow_jumpIf_inner, stays, Bool.false_eq_true, if_false, again,
      follow_jumpIf_label, overflows, decide_eq_true_eq, follow_bind, minusOne, and_true]
  · refine ⟨first, fun tail => ?_⟩
    have goes : Condition.notEqual.holds first = true := by
      rw [holds_notMinusOne]
      exact decide_eq_true minusOne
    rw [if_neg fun both => minusOne both.2]
    simp [Sequence.signedDivisionChecks, compares, goes]

theorem follow_remainderChecks {overflow : Target} {body : List Step}
    (absent : .bind (.inner 0) ∉ body) :
    ∃ flags, follow none machine
        (Sequence.signedDivisionChecks .remainder type dst left divisor overflow ++
          (body ++ [.bind (.inner 0)])) =
      if type.word (machine.regs divisor) = -BitVec.ofNat type.bits 1 then
        some (.falls { machine.setReg dst 0 with flags })
      else follow none { machine with flags } (body ++ [.bind (.inner 0)]) := by
  let first := AluOp.cmp.flags (type.word (machine.regs divisor))
    (type.word (BitVec.ofInt 64 (-1)))
    (type.word (machine.regs divisor) - type.word (BitVec.ofInt 64 (-1)))
  have compares : machine.perform (.aluImm .cmp type divisor (-1)) =
      some { machine with flags := first } := rfl
  by_cases minusOne : type.word (machine.regs divisor) = -BitVec.ofNat type.bits 1
  · have stays : Condition.notEqual.holds first = false := by
      rw [holds_notMinusOne, minusOne]
      simp
    have clears : { machine with flags := first }.perform (.alu .xor .i32 dst dst) =
        some { machine.setReg dst 0 with flags := logicFlags .i32 0 } := perform_clear _ dst
    have skips : .bind (.inner 0) ∉ .bind (.inner 1) :: body := by simpa using absent
    refine ⟨logicFlags .i32 0, ?_⟩
    rw [if_pos minusOne]
    simp only [Sequence.signedDivisionChecks, List.cons_append, List.nil_append, follow_emit,
      compares, Option.bind_some, follow_jumpIf_inner, stays, Bool.false_eq_true, if_false, clears,
      follow_jump_inner]
    have behind := @follow_skip 0 { machine.setReg dst 0 with flags := logicFlags .i32 0 } _ [] skips
    exact behind
  · refine ⟨first, ?_⟩
    have goes : Condition.notEqual.holds first = true := by
      rw [holds_notMinusOne]
      exact decide_eq_true minusOne
    rw [if_neg minusOne]
    simp [Sequence.signedDivisionChecks, compares, goes]

theorem srem_minusOne {width : Nat} (value : BitVec width) :
    value.srem (-BitVec.ofNat width 1) = 0 := by
  rw [← BitVec.toInt_inj, BitVec.toInt_srem]
  have minusOne : (-BitVec.ofNat width 1).toInt = -1 ∨ width = 0 := by
    rcases Nat.eq_zero_or_pos width with none | some
    · exact .inr none
    · rw [BitVec.neg_one_eq_allOnes, BitVec.toInt_allOnes, if_pos some]
      exact .inl rfl
  rcases minusOne with minusOne | none
  · rw [minusOne]
    simp
  · subst none
    rw [BitVec.of_length_zero (x := value)]
    rfl

/-- The steps of a division behind the test for zero. -/
def checkedDivision (part : Sequence.DivisionPart) (type : ValueType) (signed : Bool)
    (dst left divisor : Register) (overflow : Target) : List Step :=
  (if signed then Sequence.signedDivisionChecks part type dst left divisor overflow else []) ++
    (Sequence.move type .rax left ++ Sequence.hardwareDivision type signed divisor ++
      Sequence.move type dst (partPlace part)) ++
    (if signed ∧ part = .remainder then [.bind (.inner 0)] else [])

/-- Nothing but an overflow can go wrong with a divisor other than zero. -/
theorem checkedDivision_follows {op : IntBinary} {part : Sequence.DivisionPart}
    (lowers : op.lowering = .divide part) (integer : type.isInteger = true) (low : loose .rax)
    (high : loose .rdx) (notLow : divisor ≠ .rax) (notHigh : divisor ≠ .rdx)
    (nonzero : type.word (machine.regs divisor) ≠ 0) (overflow : Label) :
    match op.eval (type.word (machine.regs left)) (type.word (machine.regs divisor)) with
    | .ok result => machine.Yields loose
        (checkedDivision part type op.signed dst left divisor (.label overflow)) dst
        (result.setWidth 64)
    | .error kind => kind = .integerOverflow ∧ ∃ next, follow none machine
          (checkedDivision part type op.signed dst left divisor (.label overflow)) =
        some (.leaves overflow next) ∧ next.memory = machine.memory := by
  have plain : op.signed = false → ∀ {result},
      op.eval (type.word (machine.regs left)) (type.word (machine.regs divisor)) = .ok result →
      machine.Yields loose (checkedDivision part type op.signed dst left divisor (.label overflow))
        dst (result.setWidth 64) := by
    intro unsigned result evaluates
    have divides := @divides_yields loose type dst left divisor machine op part lowers integer low
      high notLow notHigh nonzero (fun signed => by rw [unsigned] at signed; cases signed) result
      evaluates
    simpa [checkedDivision, unsigned] using divides
  cases op <;> cases lowers
  case divU =>
    rw [IntBinary.eval, if_neg nonzero]
    exact plain rfl (if_neg nonzero)
  case remU =>
    rw [IntBinary.eval, if_neg nonzero]
    exact plain rfl (if_neg nonzero)
  case divS =>
    obtain ⟨flags, checks⟩ := @follow_quotientChecks type dst left divisor machine integer overflow
    have steps := checks (Sequence.move type .rax left ++
      Sequence.hardwareDivision type true divisor ++ Sequence.move type dst .rax)
    by_cases least : type.word (machine.regs left) = BitVec.intMin type.bits ∧
        type.word (machine.regs divisor) = -BitVec.ofNat type.bits 1
    · have error : IntBinary.divS.eval (type.word (machine.regs left))
          (type.word (machine.regs divisor)) = .error .integerOverflow := by
        rw [IntBinary.eval, if_neg nonzero]
        exact if_pos least
      rw [if_pos least] at steps
      rw [error]
      refine ⟨rfl, { machine with flags }, ?_, rfl⟩
      simpa [checkedDivision, partPlace, IntBinary.signed] using steps
    · have ok : IntBinary.divS.eval (type.word (machine.regs left))
          (type.word (machine.regs divisor)) = .ok ((type.word (machine.regs left)).sdiv
            (type.word (machine.regs divisor))) := by
        rw [IntBinary.eval, if_neg nonzero]
        exact if_neg least
      rw [if_neg least] at steps
      rw [ok]
      obtain ⟨next, runs, memory, holds, others⟩ :=
        @divides_yields loose type dst left divisor { machine with flags } .divS .quotient rfl
          integer low high notLow notHigh nonzero (fun _ => not_and_or.mp least) _ ok
      refine ⟨next, ?_, memory, holds, others⟩
      rw [← runs]
      simpa [checkedDivision, partPlace, IntBinary.signed] using steps
  case remS =>
    have absent : .bind (.inner 0) ∉ Sequence.move type .rax left ++
        Sequence.hardwareDivision type true divisor ++ Sequence.move type dst .rdx := by
      simp only [List.mem_append, not_or]
      refine ⟨⟨?_, ?_⟩, ?_⟩
      · unfold Sequence.move
        split <;> simp
      · simp [Sequence.hardwareDivision]
      · unfold Sequence.move
        split <;> simp
    obtain ⟨flags, steps⟩ := @follow_remainderChecks type dst left divisor machine
      (.label overflow) _ absent
    have ok : IntBinary.remS.eval (type.word (machine.regs left))
        (type.word (machine.regs divisor)) = .ok ((type.word (machine.regs left)).srem
          (type.word (machine.regs divisor))) := by
      rw [IntBinary.eval, if_neg nonzero]
    rw [ok]
    by_cases minusOne : type.word (machine.regs divisor) = -BitVec.ofNat type.bits 1
    · rw [if_pos minusOne] at steps
      refine ⟨{ machine.setReg dst 0 with flags }, ?_, rfl, ?_, fun other apart _ => if_neg apart⟩
      · simpa [checkedDivision, partPlace, IntBinary.signed] using steps
      · rw [minusOne, srem_minusOne]
        exact (if_pos rfl).trans (by simp)
    · rw [if_neg minusOne] at steps
      obtain ⟨next, runs, memory, holds, others⟩ :=
        @divides_yields loose type dst left divisor { machine with flags } .remS .remainder rfl
          integer low high notLow notHigh nonzero (fun _ => .inr minusOne) _ ok
      refine ⟨next, ?_, memory, holds, others⟩
      have ends := (follow_append [.bind (.inner 0)] runs)
      rw [partPlace] at ends
      change _ = some (Exit.falls next) at ends
      rw [← ends]
      simpa [checkedDivision, partPlace, IntBinary.signed] using steps

theorem follow_zeroTest (type : ValueType) (src : Register) (machine : Processor) (label : Label)
    (rest : List Step) :
    ∃ flags, follow none machine (.emit (.test type src src) :: .jumpIf .equal (.label label) .far ::
        rest) =
      if type.word (machine.regs src) = 0 then some (.leaves label { machine with flags })
      else follow none { machine with flags } rest := by
  let flags := testFlags type (machine.regs src) (machine.regs src)
  refine ⟨flags, ?_⟩
  have tests : machine.perform (.test type src src) = some { machine with flags } := rfl
  rw [follow_emit, tests, Option.bind_some, follow_jumpIf_label, holds_equal_test]
  simp only [decide_eq_true_eq]

theorem follow_divisor (type : ValueType) (right : Register) (machine : Processor) :
    let moved := right = .rax ∨ right = .rdx
    let divisor : Register := if moved then .r10 else right
    divisor ≠ .rax ∧ divisor ≠ .rdx ∧
      ∃ next, follow none machine (if moved then [.emit (.mov type .r10 right)] else []) =
          some (.falls next) ∧
        next.memory = machine.memory ∧
        type.word (next.regs divisor) = type.word (machine.regs right) ∧
        ∀ other, other ≠ .r10 → next.regs other = machine.regs other := by
  intro moved divisor
  by_cases taken : moved
  · have divisorEq : divisor = .r10 := if_pos taken
    rw [divisorEq, if_pos taken, follow_emit, perform_mov]
    refine ⟨by decide, by decide, _, rfl, rfl, ?_, fun other apart => if_neg apart⟩
    rw [regs_setReg, if_pos rfl]
    exact ValueType.word_congr (Sequence.clip_copied ..)
  · have divisorEq : divisor = right := if_neg taken
    rw [divisorEq, if_neg taken]
    exact ⟨fun same => taken (.inl same), fun same => taken (.inr same), machine, rfl, rfl, rfl,
      fun _ _ => rfl⟩

theorem division_follows {op : IntBinary} {part : Sequence.DivisionPart}
    (lowers : op.lowering = .divide part) (integer : type.isInteger = true)
    (general : dst.isGp = true ∧ left.isGp = true ∧ right.isGp = true)
    (low : loose .rax) (high : loose .rdx) (scratch : loose .r10) (leftApart : left ≠ .r10)
    (zero overflow : Label) :
    match op.eval (type.word (machine.regs left)) (type.word (machine.regs right)) with
    | .ok result => machine.Yields loose (Sequence.division part type op.signed dst left right
        (.label zero) (.label overflow)) dst (result.setWidth 64)
    | .error kind => ∃ next, follow none machine (Sequence.division part type op.signed dst left
        right (.label zero) (.label overflow)) =
          some (.leaves (if kind = .divideByZero then zero else overflow) next) ∧
        next.memory = machine.memory := by
  obtain ⟨notLow, notHigh, moved, moves, movedMemory, sameWord, movedOthers⟩ :=
    follow_divisor type right machine
  generalize divisorEq : (if right = .rax ∨ right = .rdx then Register.r10 else right) = divisor
    at notLow notHigh sameWord
  generalize prepareEq : (if right = .rax ∨ right = .rdx then
    [Step.emit (.mov type .r10 right)] else []) = prepare at moves
  have shape : Sequence.division part type op.signed dst left right (.label zero)
      (.label overflow) = prepare ++ (.emit (.test type divisor divisor) ::
        .jumpIf .equal (.label zero) .far ::
          checkedDivision part type op.signed dst left divisor (.label overflow)) := by
    have wellFormed : [dst, left, right].find? (!·.isGp) = none := by
      simp [general]
    unfold Sequence.division
    simp only [integer, wellFormed, Bool.not_true, Bool.false_eq_true, if_false, divisorEq,
      prepareEq]
    cases part <;> simp [checkedDivision, partPlace, List.append_assoc]
  obtain ⟨flags, tests⟩ := follow_zeroTest type divisor moved zero
    (checkedDivision part type op.signed dst left divisor (.label overflow))
  rw [← follow_append _ moves, ← shape, sameWord] at tests
  by_cases none : type.word (machine.regs right) = 0
  · have error : op.eval (type.word (machine.regs left)) (type.word (machine.regs right)) =
        .error .divideByZero := by
      cases op <;> cases lowers <;> exact if_pos none
    rw [if_pos none] at tests
    rw [error]
    exact ⟨_, tests, movedMemory⟩
  · rw [if_neg none] at tests
    rw [← sameWord] at none
    have sameLeft : moved.regs left = machine.regs left := movedOthers left leftApart
    have follows := @checkedDivision_follows loose type dst left divisor { moved with flags } op part
      lowers integer low high notLow notHigh none overflow
    change (match op.eval (type.word (moved.regs left)) (type.word (moved.regs divisor)) with
      | .ok result => _
      | .error kind => _) at follows
    rw [sameLeft, sameWord] at follows
    cases evaluates : op.eval (type.word (machine.regs left)) (type.word (machine.regs right)) with
    | ok result =>
      rw [evaluates] at follows
      obtain ⟨next, runs, memory, holds, others⟩ := follows
      refine ⟨next, tests.trans runs, memory.trans movedMemory, holds, fun other apart tight => ?_⟩
      exact (others other apart tight).trans
        (movedOthers other fun same => tight (same ▸ scratch))
    | error kind =>
      rw [evaluates] at follows
      obtain ⟨rfl, next, runs, memory⟩ := follows
      exact ⟨next, tests.trans runs, memory.trans movedMemory⟩

end Division

end Processor

end WasmX64
