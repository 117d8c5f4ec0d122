import WasmX64.Compile.Numeric
import WasmX64.Proofs.Processor.Follow
import WasmX64.Proofs.Sequence.Moves
import WasmX64.Semantics.Numeric

/-!
# Integer sequences

What the sequences for integer opcodes leave in their destination, whichever of the registers
they work on are the same.  `Yields` says so: a value is in the destination, and no other
register has changed but those that were free for it.
-/

namespace WasmX64

/-! ## Conditions after a comparison -/

namespace Condition

variable {width : Nat}

theorem holds_cmp_equal (left right : BitVec width) :
    equal.holds (AluOp.cmp.flags left right (left - right)) = decide (left = right) := by
  have zero : left - right = BitVec.ofNat width 0 ↔ left = right := by
    rw [BitVec.sub_eq_iff_eq_add, BitVec.zero_add]
  change (decide (left - right = BitVec.ofNat width 0) != false) = _
  simp [zero]

theorem holds_cmp_below (left right : BitVec width) :
    below.holds (AluOp.cmp.flags left right (left - right)) = left.ult right := by
  change (decide (left.toNat < right.toNat) != false) = _
  simp [BitVec.ult]

/-- The sign of a difference tells the order of two numbers, unless it overflows. -/
theorem holds_cmp_less (left right : BitVec width) :
    less.holds (AluOp.cmp.flags left right (left - right)) = left.slt right := by
  have above := @BitVec.two_mul_toInt_lt width left
  have below := @BitVec.le_two_mul_toInt width left
  have otherAbove := @BitVec.two_mul_toInt_lt width right
  have otherBelow := @BitVec.le_two_mul_toInt width right
  change (((left - right).msb != decide ((left - right).toInt ≠ left.toInt - right.toInt)) !=
    false) = _
  rw [BitVec.msb_eq_toInt, BitVec.toInt_sub, BitVec.slt_eq_decide, Int.bmod_def]
  have cast : ((2 ^ width : Nat) : Int) = 2 ^ width := by simp
  rw [cast]
  generalize (2 : Int) ^ width = size at *
  generalize left.toInt = first at *
  generalize right.toInt = second at *
  by_cases order : first < second
  · have wrapped : (first - second) % size = first - second + size := by
      rw [← Int.add_emod_right, Int.emod_eq_of_lt (by omega) (by omega)]
    rw [wrapped, decide_eq_true order]
    split
    · rw [decide_eq_false (by omega), decide_eq_true (by omega)]
      rfl
    · rw [decide_eq_true (by omega), decide_eq_false (by omega)]
      rfl
  · have plain : (first - second) % size = first - second :=
      Int.emod_eq_of_lt (by omega) (by omega)
    rw [plain, decide_eq_false order]
    split
    · rw [decide_eq_false (by omega), decide_eq_false (by omega)]
      rfl
    · rw [decide_eq_true (by omega), decide_eq_true (by omega)]
      rfl

/-- The other conditions by these three. -/
theorem holds_others (flags : Flags) :
    notEqual.holds flags = !equal.holds flags ∧ aboveEqual.holds flags = !below.holds flags ∧
      belowEqual.holds flags = (below.holds flags || equal.holds flags) ∧
      above.holds flags = !(below.holds flags || equal.holds flags) ∧
      greaterEqual.holds flags = !less.holds flags ∧
      lessEqual.holds flags = (equal.holds flags || less.holds flags) ∧
      greater.holds flags = !(equal.holds flags || less.holds flags) := by
  obtain ⟨carry, zero, sign, overflow, parity⟩ := flags
  cases carry <;> cases zero <;> cases sign <;> cases overflow <;>
    exact ⟨rfl, rfl, rfl, rfl, rfl, rfl, rfl⟩

end Condition

theorem IntRelation.holds_condition {width : Nat} (relation : IntRelation)
    (left right : BitVec width) :
    relation.condition.holds (AluOp.cmp.flags left right (left - right)) =
      relation.holds left right := by
  obtain ⟨notEqual, aboveEqual, belowEqual, above, greaterEqual, lessEqual, greater⟩ :=
    Condition.holds_others (AluOp.cmp.flags left right (left - right))
  simp only [Condition.holds_cmp_equal, Condition.holds_cmp_below, Condition.holds_cmp_less] at *
  have toNat : left = right ↔ left.toNat = right.toNat := BitVec.toNat_inj.symm
  have toInt : left = right ↔ left.toInt = right.toInt := BitVec.toInt_inj.symm
  cases relation
  case eq => exact Condition.holds_cmp_equal left right
  case ne => exact notEqual.trans (by simp [holds])
  case ltS => exact Condition.holds_cmp_less left right
  case ltU => exact Condition.holds_cmp_below left right
  case gtS =>
    refine greater.trans ?_
    rw [Bool.eq_iff_iff]
    simp [holds, toInt, BitVec.slt_eq_decide]
    omega
  case gtU =>
    refine above.trans ?_
    rw [Bool.eq_iff_iff]
    simp [holds, toNat, BitVec.ult_eq_decide]
    omega
  case leS =>
    refine lessEqual.trans ?_
    rw [Bool.eq_iff_iff]
    simp [holds, toInt, BitVec.slt_eq_decide, BitVec.sle_eq_decide]
    omega
  case leU =>
    refine belowEqual.trans ?_
    rw [Bool.eq_iff_iff]
    simp [holds, toNat, BitVec.ult_eq_decide, BitVec.ule_eq_decide]
    omega
  case geS =>
    refine greaterEqual.trans ?_
    rw [Bool.eq_iff_iff]
    simp [holds, BitVec.slt_eq_decide, BitVec.sle_eq_decide]
  case geU =>
    refine aboveEqual.trans ?_
    rw [Bool.eq_iff_iff]
    simp [holds, BitVec.ult_eq_decide, BitVec.ule_eq_decide]

/-! ## Values in a destination -/

theorem ValueType.word_setWidth (type : ValueType) (value : BitVec type.bits) :
    type.word (value.setWidth 64) = value := by
  rw [word, BitVec.setWidth_setWidth_of_le _ type.bits_le]
  exact BitVec.setWidth_eq _

theorem ValueType.word_clip (type : ValueType) (value : BitVec 64) :
    type.word (type.clip value) = type.word value := by
  rw [clip_eq, word_setWidth]

theorem ValueType.word_congr {type : ValueType} {left right : BitVec 64}
    (same : type.clip left = type.clip right) : type.word left = type.word right := by
  rw [← word_clip, same, word_clip]

theorem Extension.fill_zero8 (type : ValueType) (word : BitVec 64) :
    Extension.zero8.fill type word = narrow 1 word := by
  apply BitVec.eq_of_toNat_eq
  change word.toNat &&& 2 ^ 8 - 1 = _
  rw [Nat.and_two_pow_sub_one_eq_mod]
  simp [narrow]
  omega

namespace Processor

/-- A sequence of steps leaves a value in a register.  Of the others only loose ones change. -/
def Yields (machine : Processor) (loose : Register → Prop) (steps : List Step) (dst : Register)
    (value : BitVec 64) : Prop :=
  ∃ next, follow none machine steps = some (.falls next) ∧ next.memory = machine.memory ∧
    next.regs dst = value ∧
    ∀ other, other ≠ dst → ¬ loose other → next.regs other = machine.regs other

/-- Steps that have been followed to their end are left behind. -/
theorem follow_append {place : Option Nat} {machine next : Processor} {first : List Step}
    (second : List Step) (falls : follow place machine first = some (.falls next)) :
    follow place machine (first ++ second) = follow none next second := by
  induction first generalizing place machine with
  | nil =>
    cases place with
    | none =>
      cases falls
      rfl
    | some place => cases falls
  | cons step rest ih =>
    cases place with
    | some place =>
      rw [List.cons_append, follow_seek]
      rw [follow_seek] at falls
      exact ih falls
    | none =>
      cases step with
      | emit instruction =>
        rw [List.cons_append, follow_emit]
        rw [follow_emit] at falls
        cases performed : machine.perform instruction with
        | none =>
          rw [performed] at falls
          cases falls
        | some middle =>
          rw [performed] at falls
          exact ih falls
      | bind target => exact ih falls
      | fail cause => cases falls
      | jump target distance =>
        cases target with
        | label label => cases falls
        | inner place => exact ih falls
        | missing => cases falls
      | jumpIf condition target distance =>
        cases target with
        | label label =>
          rw [List.cons_append, follow_jumpIf_label]
          rw [follow_jumpIf_label] at falls
          split at falls
          · cases falls
          · rename_i stays
            rw [if_neg stays]
            exact ih falls
        | inner place => exact ih falls
        | missing => cases falls

theorem follow_skip {place : Nat} {machine : Processor} {steps : List Step} (rest : List Step)
    (absent : .bind (.inner place) ∉ steps) :
    follow (some place) machine (steps ++ .bind (.inner place) :: rest) =
      follow none machine rest := by
  induction steps with
  | nil => simp
  | cons step steps ih =>
    rw [List.mem_cons, not_or] at absent
    rw [List.cons_append, follow_seek, if_neg (Ne.symm absent.1)]
    exact ih absent.2

namespace Yields

variable {machine middle next : Processor} {loose : Register → Prop} {steps first second : List Step}
  {dst : Register} {value : BitVec 64}

theorem emit {instruction : Instruction} (performs : machine.perform instruction = some next)
    (memory : next.memory = machine.memory) (holds : next.regs dst = value)
    (others : ∀ other, other ≠ dst → next.regs other = machine.regs other) :
    machine.Yields loose [.emit instruction] dst value := by
  refine ⟨next, ?_, memory, holds, fun other apart _ => others other apart⟩
  rw [follow_emit, performs]
  rfl

/-- Steps that change the destination and loose registers only come first. -/
theorem after (falls : follow none machine first = some (.falls middle))
    (memory : middle.memory = machine.memory)
    (others : ∀ other, other ≠ dst → ¬ loose other → middle.regs other = machine.regs other)
    (rest : middle.Yields loose second dst value) :
    machine.Yields loose (first ++ second) dst value := by
  obtain ⟨next, runs, same, holds, kept⟩ := rest
  refine ⟨next, ?_, same.trans memory, holds, ?_⟩
  · rw [follow_append second falls]
    exact runs
  · intro other apart tight
    rw [kept other apart tight, others other apart tight]

/-- An instruction that changes the destination and loose registers only comes first. -/
theorem cons {instruction : Instruction} (performs : machine.perform instruction = some middle)
    (memory : middle.memory = machine.memory)
    (others : ∀ other, other ≠ dst → ¬ loose other → middle.regs other = machine.regs other)
    (rest : middle.Yields loose steps dst value) :
    machine.Yields loose (.emit instruction :: steps) dst value := by
  have falls : follow none machine [.emit instruction] = some (.falls middle) := by
    rw [follow_emit, performs]
    rfl
  exact after falls memory others rest

end Yields

theorem perform_mov (machine : Processor) (type : ValueType) (dst src : Register) :
    machine.perform (.mov type dst src) =
      some (machine.setReg dst (Sequence.copied type (machine.regs src))) := by
  change (if type.isFloat then _ else _) = _
  unfold Sequence.copied
  cases type.isFloat with
  | true => rfl
  | false => rfl

theorem perform_clear (machine : Processor) (dst : Register) :
    machine.perform (.alu .xor .i32 dst dst) =
      some { machine.setReg dst 0 with flags := logicFlags .i32 0 } := by
  change machine.alu .xor .i32 dst _ = _
  rw [alu_xor, BitVec.xor_self]
  rfl

theorem copied_setWidth (type : ValueType) (value : BitVec type.bits) :
    Sequence.copied type (value.setWidth 64) = value.setWidth 64 := by
  unfold Sequence.copied
  split
  · rfl
  · rw [ValueType.clip_eq, ValueType.word_setWidth]

/-- A copy to the destination, unless the value is there. -/
theorem follow_move (type : ValueType) (dst src : Register) (machine : Processor) :
    ∃ next, follow none machine (Sequence.move type dst src) = some (.falls next) ∧
      next.memory = machine.memory ∧ type.clip (next.regs dst) = type.clip (machine.regs src) ∧
      ∀ other, other ≠ dst → next.regs other = machine.regs other := by
  unfold Sequence.move
  by_cases same : dst = src
  · rw [if_pos same]
    exact ⟨machine, rfl, rfl, by rw [same], fun _ _ => rfl⟩
  · rw [if_neg same, follow_emit, perform_mov]
    refine ⟨_, rfl, rfl, ?_, fun other apart => ?_⟩
    · rw [regs_setReg, if_pos rfl, Sequence.clip_copied]
    · rw [regs_setReg, if_neg apart]

section Binary

variable {loose : Register → Prop} {type : ValueType} {dst left right : Register}
  {machine : Processor}

theorem perform_alu {op : AluOp} (writes : op ≠ .cmp) {right : BitVec 64}
    {result : BitVec type.bits}
    (known : op.result? (type.word (machine.regs dst)) (type.word right) = some result) :
    ∃ flags, machine.alu op type dst right =
      some { machine.setReg dst (result.setWidth 64) with flags } := by
  unfold alu
  simp only [known, Option.map_some, if_neg writes]
  exact ⟨_, rfl⟩

theorem Yields.alu {op : AluOp} (writes : op ≠ .cmp) {src : Register} {result : BitVec type.bits}
    (known : op.result? (type.word (machine.regs dst)) (type.word (machine.regs src)) =
      some result) :
    machine.Yields loose [.emit (.alu op type dst src)] dst (result.setWidth 64) := by
  obtain ⟨flags, performs⟩ := perform_alu writes known
  refine .emit performs rfl (if_pos rfl) fun _ apart => if_neg apart

theorem addition_yields (leftPresent : left ≠ .absent) (rightPresent : right ≠ .absent) :
    machine.Yields loose (Sequence.addition type dst left right) dst
      ((type.word (machine.regs left) + type.word (machine.regs right)).setWidth 64) := by
  unfold Sequence.addition
  by_cases first : dst = left
  · subst first
    rw [if_pos rfl]
    exact .alu (by decide) rfl
  · rw [if_neg first]
    by_cases second : dst = right
    · subst second
      rw [if_pos rfl, BitVec.add_comm]
      exact .alu (by decide) rfl
    · rw [if_neg second]
      have place : machine.effective ⟨left, right, 1, 0⟩ =
          machine.regs left + machine.regs right := by
        simp [effective, addend, leftPresent, rightPresent]
      have performs : machine.perform (.lea type dst ⟨left, right, 1, 0⟩) =
          some (machine.setReg dst (type.clip (machine.regs left + machine.regs right))) := by
        rw [← place]
        rfl
      refine .emit performs rfl ?_ fun other apart => if_neg apart
      rw [regs_setReg, if_pos rfl, ValueType.clip_eq, ValueType.word,
        BitVec.setWidth_add _ _ type.bits_le]
      rfl

theorem subtraction_yields :
    machine.Yields loose (Sequence.subtraction type dst left right) dst
      ((type.word (machine.regs left) - type.word (machine.regs right)).setWidth 64) := by
  unfold Sequence.subtraction
  by_cases swapped : dst = right ∧ dst ≠ left
  · obtain ⟨rfl, apart⟩ := swapped
    rw [if_pos ⟨rfl, apart⟩]
    let negative := (-type.word (machine.regs dst)).setWidth 64
    let flags := AluOp.flags .sub 0 (type.word (machine.regs dst)) (-type.word (machine.regs dst))
    have negates : machine.perform (.unary .neg type dst) =
        some { machine.setReg dst negative with flags } := rfl
    refine .cons negates rfl (fun other apart _ => if_neg apart) ?_
    have sum : -type.word (machine.regs dst) + type.word (machine.regs left) =
        type.word (machine.regs left) - type.word (machine.regs dst) := by
      rw [BitVec.add_comm, BitVec.sub_eq_add_neg]
    have known : AluOp.add.result?
        (type.word ({ machine.setReg dst negative with flags }.regs dst))
        (type.word ({ machine.setReg dst negative with flags }.regs left)) =
        some (type.word (machine.regs left) - type.word (machine.regs dst)) := by
      rw [← sum]
      simp [AluOp.result?, negative, apart.symm, type.word_setWidth]
    exact .alu (by decide) known
  · rw [if_neg swapped]
    obtain ⟨middle, moves, memory, moved, others⟩ := machine.follow_move type dst left
    refine .after moves memory (fun other apart _ => others other apart) ?_
    have same : type.word (middle.regs right) = type.word (machine.regs right) := by
      by_cases here : right = dst
      · have both : dst = left := by
          by_contra apart
          exact swapped ⟨here.symm, apart⟩
        rw [here, ValueType.word_congr moved, both]
      · rw [others right here]
    rw [← ValueType.word_congr moved, ← same]
    exact .alu (by decide) rfl

/-- An operation on two registers that writes a function of their words. -/
def Combines (op : Register → Register → Instruction) (type : ValueType)
    (function : BitVec type.bits → BitVec type.bits → BitVec type.bits) : Prop :=
  ∀ (machine : Processor) (dst src : Register), ∃ flags, machine.perform (op dst src) =
    some { machine.setReg dst ((function (type.word (machine.regs dst))
      (type.word (machine.regs src))).setWidth 64) with flags }

theorem Yields.combine {op : Register → Register → Instruction}
    {function : BitVec type.bits → BitVec type.bits → BitVec type.bits}
    (combines : Combines op type function) {src : Register} :
    machine.Yields loose [.emit (op dst src)] dst
      ((function (type.word (machine.regs dst)) (type.word (machine.regs src))).setWidth 64) := by
  obtain ⟨flags, performs⟩ := combines machine dst src
  exact .emit performs rfl (if_pos rfl) fun _ apart => if_neg apart

theorem commutative_yields {op : Register → Register → Instruction}
    {function : BitVec type.bits → BitVec type.bits → BitVec type.bits}
    (combines : Combines op type function) (swaps : ∀ first second, function first second = function second first) :
    machine.Yields loose (Sequence.commutative op type dst left right) dst
      ((function (type.word (machine.regs left)) (type.word (machine.regs right))).setWidth 64) := by
  unfold Sequence.commutative
  by_cases same : dst = right
  · rw [if_pos same, ← same, swaps]
    exact .combine combines
  · rw [if_neg same]
    obtain ⟨middle, moves, memory, moved, others⟩ := machine.follow_move type dst left
    refine .after moves memory (fun other apart _ => others other apart) ?_
    rw [← ValueType.word_congr moved, ← others right (Ne.symm same)]
    exact .combine combines

theorem combines_alu {op : AluOp} (writes : op ≠ .cmp)
    {function : BitVec type.bits → BitVec type.bits → BitVec type.bits}
    (known : ∀ left right, op.result? left right = some (function left right)) :
    Combines (.alu op type) type function :=
  fun machine dst src => @perform_alu type dst machine op writes (machine.regs src) _ (known _ _)

theorem combines_imul : Combines (.imul type) type (· * ·) := fun _ _ _ => ⟨_, rfl⟩

theorem plain_yields {op : IntBinary} {steps : ValueType → Register → Register → Register → List Step}
    (plain : op.lowering = .plain steps) (leftPresent : left ≠ .absent)
    (rightPresent : right ≠ .absent) {result : BitVec type.bits}
    (evaluates : op.eval (type.word (machine.regs left)) (type.word (machine.regs right)) =
      .ok result) :
    machine.Yields loose (steps type dst left right) dst (result.setWidth 64) := by
  cases op <;> cases plain <;> cases evaluates
  case add => exact addition_yields leftPresent rightPresent
  case sub => exact subtraction_yields
  case mul => exact commutative_yields combines_imul BitVec.mul_comm
  case and => exact commutative_yields (combines_alu (by decide) fun _ _ => rfl) BitVec.and_comm
  case or => exact commutative_yields (combines_alu (by decide) fun _ _ => rfl) BitVec.or_comm
  case xor => exact commutative_yields (combines_alu (by decide) fun _ _ => rfl) BitVec.xor_comm

/-- The low byte of a register is replaced and the rest cut off. -/
theorem narrow_setcc (value : BitVec 64) (holds : Bool) :
    narrow 1 ((value >>> 8) <<< 8 ||| if holds then 1 else 0) = if holds then 1 else 0 := by
  have low : ((value >>> 8) <<< 8).setWidth 8 = 0#8 := by
    apply BitVec.eq_of_getLsbD_eq
    intro index small
    simp [small]
  have split : ∀ byte : BitVec 64, narrow 1 ((value >>> 8) <<< 8 ||| byte) = narrow 1 byte := by
    intro byte
    change (((value >>> 8) <<< 8 ||| byte).setWidth 8).setWidth 64 = _
    rw [BitVec.setWidth_or, low, BitVec.zero_or]
    rfl
  rw [split]
  cases holds with
  | true => rfl
  | false => rfl

theorem outcome_yields (condition : Condition) :
    machine.Yields loose [.emit (.setcc condition dst), .emit (.extend .zero8 .i32 dst dst)] dst
      (if condition.holds machine.flags then 1 else 0) := by
  let byte : BitVec 64 := if condition.holds machine.flags then 1 else 0
  let set := machine.setReg dst ((machine.regs dst >>> 8) <<< 8 ||| byte)
  have sets : machine.perform (.setcc condition dst) = some set := rfl
  have widens : set.perform (.extend .zero8 .i32 dst dst) =
      some (set.setReg dst (Extension.zero8.fill .i32 (set.regs dst))) := rfl
  refine .cons sets rfl (fun other apart _ => if_neg apart)
    (.emit widens rfl ?_ fun other apart => if_neg apart)
  rw [regs_setReg, if_pos rfl, Extension.fill_zero8, regs_setReg, if_pos rfl]
  exact narrow_setcc _ _

/-- A comparison leaves its outcome as a number. -/
theorem setCondition_yields (relation : IntRelation) :
    machine.Yields loose (Sequence.setCondition type relation.condition dst left right) dst
      (if relation.holds (type.word (machine.regs left)) (type.word (machine.regs right)) then 1
        else 0) := by
  rw [← IntRelation.holds_condition]
  refine .cons (show machine.perform (.alu .cmp type left right) = some _ from rfl) rfl
    (fun _ _ _ => rfl) (outcome_yields _)

theorem holds_equal_test (type : ValueType) (value : BitVec 64) :
    Condition.equal.holds (testFlags type value value) = decide (type.word value = 0) := by
  change (decide (type.word value &&& type.word value = 0) != false) = _
  simp

theorem isZero_yields {src : Register} :
    machine.Yields loose (Compile.isZero type dst src) dst
      (if type.word (machine.regs src) = 0 then 1 else 0) := by
  let flags := testFlags type (machine.regs src) (machine.regs src)
  have tests : machine.perform (.test type src src) = some { machine with flags } := rfl
  have tested := @outcome_yields loose dst { machine with flags } .equal
  refine .cons tests rfl (fun _ _ _ => rfl) ?_
  simpa only [flags, holds_equal_test, decide_eq_true_eq] using tested

end Binary

section Unary

variable {loose : Register → Prop} {type : ValueType} {dst src : Register} {machine : Processor}

theorem scanOr_yields {width : Int64} {op : ScanOp} {adjust : List Step} {value : BitVec 64}
    (last : .bind (.inner 1) ∉ adjust)
    (zero : type.word (machine.regs src) = 0 → ValueType.i32.clip width.toBitVec = value)
    (scans : type.word (machine.regs src) ≠ 0 → ∀ flags,
      { machine with flags }.Yields loose (.emit (.scan op type dst src) :: adjust) dst value) :
    machine.Yields loose (Sequence.scanOr width op type dst src adjust) dst value := by
  let flags := testFlags type (machine.regs src) (machine.regs src)
  have tests : machine.perform (.test type src src) = some { machine with flags } := rfl
  have nonzero : Condition.notEqual.holds flags = decide (type.word (machine.regs src) ≠ 0) := by
    change (decide (type.word (machine.regs src) &&& type.word (machine.regs src) = 0) != true) = _
    simp
  change machine.Yields loose (.emit (.test type src src) :: .jumpIf .notEqual (.inner 0) .near ::
    .emit (.movImm .i32 dst width) :: .jump (.inner 1) .near ::
      ([.bind (.inner 0), .emit (.scan op type dst src)] ++ adjust ++ [.bind (.inner 1)])) dst value
  refine .cons tests rfl (fun _ _ _ => rfl) ?_
  by_cases empty : type.word (machine.regs src) = 0
  · have skips : .bind (.inner 1) ∉ [.bind (.inner 0), .emit (.scan op type dst src)] ++ adjust := by
      simpa using last
    refine ⟨{ machine with flags }.setReg dst value, ?_, rfl, if_pos rfl,
      fun _ apart _ => if_neg apart⟩
    rw [follow_jumpIf_inner, nonzero, decide_eq_false (not_not.mpr empty), if_neg (by decide),
      follow_emit, perform_movImm, zero empty, Option.bind_some, follow_jump_inner,
      follow_skip _ skips]
    rfl
  · obtain ⟨next, runs, memory, holds, kept⟩ := scans empty flags
    refine ⟨next, ?_, memory, holds, kept⟩
    rw [follow_jumpIf_inner, nonzero, decide_eq_true empty, if_pos rfl]
    exact follow_append [.bind (.inner 1)] runs

theorem setWidth_count {type : ValueType} {count : Nat} (few : count ≤ type.bits) :
    (BitVec.ofNat type.bits count).setWidth 64 = BitVec.ofNat 64 count := by
  have bits := type.bits_le
  have small : type.bits < 2 ^ type.bits := Nat.lt_two_pow_self
  apply BitVec.eq_of_toNat_eq
  rw [BitVec.toNat_setWidth_of_le bits, BitVec.toNat_ofNat, BitVec.toNat_ofNat,
    Nat.mod_eq_of_lt (by omega), Nat.mod_eq_of_lt (by omega)]

theorem trailingZeros_lowest {fuel bits : Nat} (some : bits ≠ 0) (small : bits < 2 ^ fuel) :
    bits.testBit (Sequence.trailingZeros fuel bits) = true ∧
      ∀ index < Sequence.trailingZeros fuel bits, bits.testBit index = false := by
  induction fuel generalizing bits with
  | zero => omega
  | succ fuel ih =>
    rw [Sequence.trailingZeros]
    by_cases odd : bits % 2 = 1
    · rw [if_pos odd, Nat.testBit_zero]
      exact ⟨decide_eq_true odd, by omega⟩
    · rw [if_neg odd]
      obtain ⟨one, zeros⟩ := @ih (bits / 2) (by omega) (by omega)
      refine ⟨by rwa [Nat.testBit_succ], fun index below => ?_⟩
      cases index with
      | zero => simpa [Nat.testBit_zero] using odd
      | succ index =>
        rw [Nat.testBit_succ]
        exact zeros index (by omega)

/-- Scanning upwards finds the lowest one. -/
theorem trailingZeros_eq {width : Nat} {word : BitVec width} (some : word ≠ 0)
    (few : width ≤ 64) :
    Sequence.trailingZeros 64 word.toNat = WasmX64.trailingZeros word := by
  have nonzero : word.toNat ≠ 0 := fun zero => some (BitVec.eq_of_toNat_eq zero)
  have small : word.toNat < 2 ^ 64 :=
    Nat.lt_of_lt_of_le word.isLt (Nat.pow_le_pow_right (by decide) few)
  obtain ⟨one, zeros⟩ := trailingZeros_lowest nonzero small
  have inside : Sequence.trailingZeros 64 word.toNat < width := by
    by_contra beyond
    rw [Nat.testBit_lt_two_pow] at one
    · cases one
    · exact Nat.lt_of_lt_of_le word.isLt (Nat.pow_le_pow_right (by decide) (by omega))
  have found : (List.range width).find? word.getLsbD =
      .some (Sequence.trailingZeros 64 word.toNat) := by
    rw [List.find?_range_eq_some]
    refine ⟨one, List.mem_range.mpr inside, fun index below => ?_⟩
    rw [Bool.not_eq_true']
    exact zeros index below
  rw [WasmX64.trailingZeros, found]
  rfl

theorem trailingZeros_zero (width : Nat) : WasmX64.trailingZeros (0 : BitVec width) = width := by
  have none : (List.range width).find? (0 : BitVec width).getLsbD = .none :=
    List.find?_eq_none.mpr fun _ _ => by simp
  rw [WasmX64.trailingZeros, none]
  rfl

theorem trailingZeros_le {width : Nat} (word : BitVec width) :
    WasmX64.trailingZeros word ≤ width := by
  unfold WasmX64.trailingZeros
  cases found : (List.range width).find? word.getLsbD with
  | none => exact Nat.le_refl _
  | some index => exact Nat.le_of_lt (List.mem_range.mp (List.mem_of_find?_eq_some found))

/-- A small number is the same in either width. -/
theorem clip_count (type : ValueType) {count : Nat} (few : count < 2 ^ 32) :
    type.clip (.ofNat 64 count) = .ofNat 64 count := by
  have bits : 32 ≤ type.bits := by
    unfold ValueType.bits
    split <;> omega
  have size : 2 ^ 32 ≤ 2 ^ type.bits := Nat.pow_le_pow_right (by decide) bits
  rw [ValueType.clip_eq, ValueType.word]
  apply BitVec.eq_of_toNat_eq
  simp only [BitVec.toNat_setWidth, BitVec.toNat_ofNat]
  rw [Nat.mod_eq_of_lt (show count < 2 ^ 64 by omega), Nat.mod_eq_of_lt (show count < 2 ^ type.bits by omega),
    Nat.mod_eq_of_lt (by omega)]

/-- Scanning downwards, and the distance of what was found from the highest bit. -/
theorem scanDown_yields {top : Nat} {imm : Int32} (bits : type.bits = top + 1)
    (mirrors : ∀ index < type.bits,
      BitVec.ofNat 64 index ^^^ BitVec.ofInt 64 imm.toInt = BitVec.ofNat 64 (top - index))
    (some : type.word (machine.regs src) ≠ 0) (flags : Flags) :
    { machine with flags }.Yields loose
      [.emit (.scan .bsr type dst src), .emit (.aluImm .xor type dst imm)] dst
      (.ofNat 64 (leadingZeros (type.word (machine.regs src)))) := by
  have nonzero : (type.word (machine.regs src)).toNat ≠ 0 :=
    fun zero => some (BitVec.eq_of_toNat_eq zero)
  have inside : (type.word (machine.regs src)).toNat.log2 < type.bits :=
    (Nat.log2_lt nonzero).mpr (BitVec.isLt _)
  have limit := type.bits_le
  let found := { machine.setReg dst (.ofNat 64 (type.word (machine.regs src)).toNat.log2) with
    flags := { zero := type.word (machine.regs src) = 0 } }
  have scans : { machine with flags }.perform (.scan .bsr type dst src) = .some found := by
    change Option.some (if type.word (machine.regs src) = 0 then _ else _) = _
    rw [if_neg some]
    rfl
  have turns : found.perform (.aluImm .xor type dst imm) =
      found.alu .xor type dst (BitVec.ofInt 64 imm.toInt) := rfl
  have held : found.regs dst = .ofNat 64 (type.word (machine.regs src)).toNat.log2 := if_pos rfl
  rw [alu_xor, held, mirrors _ inside, clip_count _ (by omega)] at turns
  refine .cons scans rfl (fun other apart _ => if_neg apart)
    (.emit turns rfl ?_ fun other apart => if_neg apart)
  rw [leadingZeros, if_neg nonzero, regs_setReg, if_pos rfl]
  congr 1
  omega

/-- Counting bits leaves the count. -/
theorem unary_yields (integer : type.isInteger = true) (op : IntUnary) :
    machine.Yields loose (op.steps type dst src) dst
      ((op.eval (type.word (machine.regs src))).setWidth 64) := by
  have limit := type.bits_le
  have empty : ∀ {width : Int64}, width.toBitVec = .ofNat 64 type.bits →
      ValueType.i32.clip width.toBitVec = .ofNat 64 type.bits := by
    intro width same
    rw [same, clip_count _ (by omega)]
  cases op with
  | clz =>
    have counts : leadingZeros (type.word (machine.regs src)) ≤ type.bits := by
      unfold leadingZeros
      split <;> omega
    have none : type.word (machine.regs src) = 0 →
        BitVec.ofNat 64 (leadingZeros (type.word (machine.regs src))) = .ofNat 64 type.bits := by
      intro zero
      rw [zero]
      rfl
    change machine.Yields loose (Sequence.leadingZeros type dst src) dst
      ((BitVec.ofNat type.bits _).setWidth 64)
    rw [setWidth_count counts]
    cases type with
    | i32 =>
      refine scanOr_yields (by simp) (fun zero => (empty rfl).trans (none zero).symm) ?_
      exact scanDown_yields rfl (by decide)
    | i64 =>
      refine scanOr_yields (by simp) (fun zero => (empty rfl).trans (none zero).symm) ?_
      exact scanDown_yields rfl (by decide)
    | f32 | f64 | unknown => cases integer
  | ctz =>
    have scans : type.word (machine.regs src) ≠ 0 → ∀ flags,
        { machine with flags }.Yields loose [.emit (.scan .bsf type dst src)] dst
          (.ofNat 64 (trailingZeros (type.word (machine.regs src)))) := by
      intro some flags
      have performs : { machine with flags }.perform (.scan .bsf type dst src) = .some
          { machine.setReg dst (.ofNat 64 (trailingZeros (type.word (machine.regs src)))) with
            flags := { zero := type.word (machine.regs src) = 0 } } := by
        change Option.some (if type.word (machine.regs src) = 0 then _ else _) = _
        rw [if_neg some, ← trailingZeros_eq some limit]
        rfl
      exact .emit performs rfl (if_pos rfl) fun _ apart => if_neg apart
    have none : type.word (machine.regs src) = 0 →
        BitVec.ofNat 64 (trailingZeros (type.word (machine.regs src))) = .ofNat 64 type.bits := by
      intro zero
      rw [zero, trailingZeros_zero]
    have counts := trailingZeros_le (type.word (machine.regs src))
    change machine.Yields loose (Sequence.trailingZeroCount type dst src) dst
      ((BitVec.ofNat type.bits _).setWidth 64)
    rw [setWidth_count counts]
    cases type with
    | i32 | i64 =>
      exact scanOr_yields (by simp) (fun zero => (empty rfl).trans (none zero).symm) scans
    | f32 | f64 | unknown => cases integer
  | popcnt =>
    have ones : onesCount (type.word (machine.regs src)) ≤ type.bits := by
      refine Nat.le_trans List.countP_le_length ?_
      rw [List.length_range]
    change machine.Yields loose _ dst ((BitVec.ofNat type.bits _).setWidth 64)
    rw [setWidth_count ones]
    exact .emit rfl rfl (if_pos rfl) fun _ apart => if_neg apart

end Unary

section Shift

variable {loose : Register → Prop} {type : ValueType} {dst src amount reg : Register}
  {machine : Processor} {op : IntBinary} {shift : ShiftOp}

theorem shiftCount_word (type : ValueType) (value : BitVec 64) :
    type.shiftCount (value.setWidth 8).toNat = (type.word value).toNat % type.bits := by
  have bits : type.bits = 32 ∨ type.bits = 64 := by
    unfold ValueType.bits
    split
    · exact .inr rfl
    · exact .inl rfl
  rw [ValueType.shiftCount, ValueType.word, BitVec.toNat_setWidth, BitVec.toNat_setWidth]
  rcases bits with bits | bits
  · rw [bits]
    omega
  · rw [bits]
    omega

theorem perform_shiftCl (lowers : op.lowering = .shift shift) {result : BitVec type.bits}
    (evaluates : op.eval (type.word (machine.regs reg)) (type.word (machine.regs .rcx)) =
      .ok result) :
    ∃ flags, machine.perform (.shiftCl shift type reg) =
      some { machine.setReg reg (result.setWidth 64) with flags } := by
  have known : shift.result? (type.word (machine.regs reg))
      (type.shiftCount ((machine.regs .rcx).setWidth 8).toNat) = some result := by
    rw [shiftCount_word]
    cases op <;> cases lowers <;> cases evaluates <;> rfl
  change ∃ flags, machine.shift shift type reg _ = _
  simp only [Processor.shift, known, Option.map_some]
  exact ⟨_, rfl⟩

theorem follow_fetch (amount : Register) (machine : Processor) :
    ∃ next, follow none machine (if amount = .rcx then [] else [.emit (.mov .i64 .rcx amount)]) =
        some (.falls next) ∧
      next.memory = machine.memory ∧ next.regs .rcx = machine.regs amount ∧
      ∀ other, other ≠ .rcx → next.regs other = machine.regs other := by
  by_cases here : amount = .rcx
  · rw [if_pos here, here]
    exact ⟨machine, rfl, rfl, rfl, fun _ _ => rfl⟩
  · rw [if_neg here, follow_emit, perform_mov_i64]
    refine ⟨_, rfl, rfl, ?_, fun other apart => ?_⟩
    · rw [regs_setReg, if_pos rfl]
    · rw [regs_setReg, if_neg apart]

theorem shift_yields {live : Bool} (lowers : op.lowering = .shift shift) (scratch : loose .r10)
    (free : live = false → loose .rcx) (dstApart : dst ≠ .r10) (srcApart : src ≠ .r10)
    (amountApart : amount ≠ .r10) {result : BitVec type.bits}
    (evaluates : op.eval (type.word (machine.regs src)) (type.word (machine.regs amount)) =
      .ok result) :
    machine.Yields loose (Sequence.shift shift type dst src amount live) dst
      (result.setWidth 64) := by
  unfold Sequence.shift
  dsimp only
  by_cases counter : dst = .rcx
  · subst counter
    rw [if_pos rfl, List.append_assoc]
    obtain ⟨held, moves, movedMemory, moved, movedOthers⟩ := machine.follow_move type .r10 src
    obtain ⟨fetched, fetches, memory, count, others⟩ := held.follow_fetch amount
    rw [← ValueType.word_congr moved, ← movedOthers amount amountApart, ← count,
      ← others .r10 (by decide)] at evaluates
    obtain ⟨flags, shifts⟩ := perform_shiftCl lowers evaluates
    have spares : ∀ other, ¬ loose other → other ≠ .r10 := by
      rintro other tight rfl
      exact tight scratch
    refine .after moves movedMemory (fun other _ tight => movedOthers other (spares other tight))
      (.after fetches memory (fun other apart _ => others other apart)
        (.cons shifts rfl (fun other _ tight => if_neg (spares other tight))
          (.emit (perform_mov ..) rfl ?_ fun other apart => if_neg apart)))
    have last : ({ fetched.setReg .r10 (result.setWidth 64) with flags } : Processor).regs .r10 =
        result.setWidth 64 := by simp
    rw [regs_setReg, if_pos rfl, last, copied_setWidth]
  · rw [if_neg counter]
    by_cases saved : amount ≠ .rcx ∧ (src = .rcx ∨ live = true)
    · -- `rcx` waits in the scratch register and comes back.
      let parked := machine.setReg .r10 (machine.regs .rcx)
      let counted := parked.setReg .rcx (machine.regs amount)
      have parks : machine.perform (.mov .i64 .r10 .rcx) = some parked := perform_mov_i64 ..
      have counts : parked.perform (.mov .i64 .rcx amount) = some counted := by
        have same : parked.regs amount = machine.regs amount := if_neg amountApart
        rw [perform_mov_i64, same]
      have source : counted.regs (if src = .rcx then .r10 else src) = machine.regs src := by
        by_cases here : src = .rcx
        · rw [if_pos here, here]
          rfl
        · rw [if_neg here]
          simp [counted, parked, here, srcApart]
      obtain ⟨held, moves, memory, moved, others⟩ :=
        counted.follow_move type dst (if src = .rcx then .r10 else src)
      have amountHeld : held.regs .rcx = machine.regs amount := others .rcx (Ne.symm counter)
      rw [← source, ← ValueType.word_congr moved, ← amountHeld] at evaluates
      obtain ⟨flags, shifts⟩ := perform_shiftCl lowers evaluates
      let shifted : Processor := { held.setReg dst (result.setWidth 64) with flags }
      have parkedHeld : shifted.regs .r10 = machine.regs .rcx := by
        change (if Register.r10 = dst then _ else held.regs .r10) = _
        rw [if_neg (Ne.symm dstApart), others .r10 (Ne.symm dstApart)]
        rfl
      refine ⟨shifted.setReg .rcx (shifted.regs .r10), ?_, memory, ?_, fun other apart tight => ?_⟩
      · rw [if_pos saved, if_neg saved.1, if_pos saved]
        simp only [eq_true saved, true_and, List.cons_append, List.nil_append, List.append_assoc]
        rw [follow_emit, parks, Option.bind_some, follow_emit, counts, Option.bind_some,
          follow_append _ moves, follow_emit, shifts, Option.bind_some, follow_emit,
          perform_mov_i64]
        rfl
      · rw [regs_setReg, if_neg counter]
        exact if_pos rfl
      · rw [regs_setReg]
        split
        · rename_i place
          rw [parkedHeld, place]
        · rename_i place
          have spare : other ≠ .r10 := fun same => tight (same ▸ scratch)
          change (if other = dst then _ else held.regs other) = _
          rw [if_neg apart, others other apart]
          simp [counted, parked, place, spare]
    · simp only [saved, false_and, if_false, List.nil_append, List.append_nil]
      obtain ⟨fetched, fetches, fetchedMemory, count, fetchedOthers⟩ := machine.follow_fetch amount
      have untouched : ∀ other, other = src ∨ ¬ loose other →
          fetched.regs other = machine.regs other := by
        intro other kept
        by_cases place : other = .rcx
        · subst place
          by_cases here : amount = .rcx
          · rw [count, here]
          · rcases kept with same | tight
            · exact absurd ⟨here, .inl same.symm⟩ saved
            · refine absurd (free ?_) tight
              exact Bool.eq_false_iff.mpr fun held => saved ⟨here, .inr held⟩
        · exact fetchedOthers other place
      obtain ⟨held, moves, memory, moved, others⟩ := fetched.follow_move type dst src
      rw [← untouched src (.inl rfl), ← ValueType.word_congr moved, ← count,
        ← others .rcx (Ne.symm counter)] at evaluates
      obtain ⟨flags, shifts⟩ := perform_shiftCl lowers evaluates
      rw [List.append_assoc]
      exact .after fetches fetchedMemory (fun other _ tight => untouched other (.inr tight))
        (.after moves memory (fun other apart _ => others other apart)
          (.emit shifts rfl (if_pos rfl) fun _ apart => if_neg apart))

end Shift

section Choice

variable {loose : Register → Prop} {type : ValueType} {dst src : Register} {machine : Processor}

/-- Integers are widened and narrowed. -/
theorem wrap_yields (trap : Target) :
    machine.Yields loose (Sequence.conversion .wrap dst src trap) dst
      (((ValueType.i64.word (machine.regs src)).setWidth 32).setWidth 64) := by
  refine .emit (perform_mov machine .i32 dst src) rfl ?_ fun other apart => if_neg apart
  rw [regs_setReg, if_pos rfl, ValueType.word_i64]
  rfl

theorem extendSigned_yields (trap : Target) :
    machine.Yields loose (Sequence.conversion (.extend true) dst src trap) dst
      ((ValueType.i32.word (machine.regs src)).signExtend 64) :=
  .emit (show machine.perform (.extend .sign32 .i64 dst src) = some (machine.setReg dst _) from rfl)
    rfl (if_pos rfl) fun _ apart => if_neg apart

theorem extendUnsigned_yields (trap : Target) :
    machine.Yields loose (Sequence.conversion (.extend false) dst src trap) dst
      ((ValueType.i32.word (machine.regs src)).setWidth 64) :=
  .emit (perform_mov machine .i32 dst src) rfl (if_pos rfl) fun _ apart => if_neg apart

/-- A register has come by the value of another one. -/
structure Copies (type : ValueType) (source value : BitVec 64) : Prop where
  clip : type.clip value = type.clip source
  clean : type.clip source = source → type.clip value = value

/-- A move leaves a copy in the destination. -/
theorem move_copies :
    ∃ value, machine.Yields loose (Sequence.move type dst src) dst value ∧
      Copies type (machine.regs src) value := by
  unfold Sequence.move
  by_cases same : dst = src
  · rw [if_pos same, same]
    exact ⟨_, ⟨machine, rfl, rfl, rfl, fun _ _ _ => rfl⟩, rfl, id⟩
  · rw [if_neg same]
    refine ⟨_, .emit (perform_mov ..) rfl (if_pos rfl) fun _ apart => if_neg apart,
      Sequence.clip_copied .., fun clean => ?_⟩
    rw [Sequence.clip_copied, clean]
    unfold Sequence.copied
    split
    · rfl
    · rw [clean]

theorem bind_not_mem_move (place : Nat) :
    .bind (.inner place) ∉ Sequence.move type dst src := by
  unfold Sequence.move
  split <;> simp

/-- One of two moves is made: the second one if the condition is zero. -/
theorem selection_copies {condition chosen otherwise : Register} :
    ∃ value, machine.Yields loose
        ([.emit (.test .i32 condition condition), .jumpIf .equal (.inner 0) .near] ++
          Sequence.move type dst chosen ++ [.jump (.inner 1) .near, .bind (.inner 0)] ++
            Sequence.move type dst otherwise ++ [.bind (.inner 1)]) dst value ∧
      Copies type (if ValueType.i32.word (machine.regs condition) = 0 then machine.regs otherwise
        else machine.regs chosen) value := by
  let flags := testFlags .i32 (machine.regs condition) (machine.regs condition)
  have tests : machine.perform (.test .i32 condition condition) = some { machine with flags } := rfl
  by_cases zero : ValueType.i32.word (machine.regs condition) = 0
  · have equal : Condition.equal.holds flags = true := by
      rw [holds_equal_test, decide_eq_true zero]
    rw [if_pos zero]
    obtain ⟨value, ⟨next, moves, memory, holds, others⟩, copies⟩ :=
      @move_copies loose type dst otherwise { machine with flags }
    refine ⟨value, ⟨next, ?_, memory, holds, others⟩, copies⟩
    have absent : .bind (.inner 0) ∉ Sequence.move type dst chosen ++ [.jump (.inner 1) .near] := by
      simp [bind_not_mem_move]
    have skips := @follow_skip 0 { machine with flags } _
      (Sequence.move type dst otherwise ++ [.bind (.inner 1)]) absent
    rw [follow_append _ moves] at skips
    change _ = some (Exit.falls next) at skips
    rw [← skips]
    simp only [List.append_assoc, List.cons_append, List.nil_append, follow_emit, tests,
      Option.bind_some, follow_jumpIf_inner, equal, if_true]
  · have unequal : Condition.equal.holds flags = false := by
      rw [holds_equal_test, decide_eq_false zero]
    rw [if_neg zero]
    obtain ⟨value, ⟨next, moves, memory, holds, others⟩, copies⟩ :=
      @move_copies loose type dst chosen { machine with flags }
    refine ⟨value, ⟨next, ?_, memory, holds, others⟩, copies⟩
    have absent : .bind (.inner 1) ∉ .bind (.inner 0) :: Sequence.move type dst otherwise := by
      simp [bind_not_mem_move]
    have skips := @follow_skip 1 next _ [] absent
    rw [← @follow_jump_inner next _ .near, ← follow_append _ moves, follow_nil] at skips
    rw [← skips]
    simp only [List.append_assoc, List.cons_append, List.nil_append, follow_emit, tests,
      Option.bind_some, follow_jumpIf_inner, unequal, Bool.false_eq_true, if_false]

end Choice

end Processor

end WasmX64
