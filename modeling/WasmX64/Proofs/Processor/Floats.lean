import WasmX64.Proofs.Float.Rounding
import WasmX64.Proofs.Processor.Lanes
import WasmX64.Semantics.Numeric
import WasmX64.Sequence.Floats

/-!
# Conversions between integers and floats

What the sequences that convert between integers and floats do on a processor that knows scalar
floats.  Unsigned integers of 64 bits are rounded once though they may be halved first, and a
float is refused exactly if its whole part is out of range.
-/

namespace WasmX64

namespace FloatFormat

/-- A NaN as the processor answers it, with its quiet bit set. -/
def quieted (format : FloatFormat) (bits : Nat) : Nat := bits ||| format.hiddenBit / 2

/-- The sum of two patterns as the processor forms it: the first operand that is no number, or else
the sum, with the sign set if that is no number. -/
def sumOf (format : FloatFormat) (left right : Nat) : Nat :=
  if format.view left = .notANumber then format.quieted left
  else if format.view right = .notANumber then format.quieted right
  else
    let sum := format.add left right
    if format.view sum = .notANumber then format.signBit + sum else sum

/-- A pattern rounded toward zero as the processor does. -/
def cutOff (format : FloatFormat) (bits : Nat) : Nat :=
  if format.view bits = .notANumber then format.quieted bits
  else format.roundWhole .towardZero bits

/-- The whole part as a word of a width; what does not fit becomes the least integer. -/
def toWord (format : FloatFormat) (width : Nat) (bits : Nat) : BitVec width :=
  match format.wholePart? bits with
  | some whole =>
    if -2 ^ (width - 1) ≤ whole ∧ whole < 2 ^ (width - 1) then .ofInt width whole
    else .intMin width
  | none => .intMin width

end FloatFormat

/-- A quadword with the low lane of a type replaced. -/
def ValueType.withLane (type : ValueType) (word : BitVec 64) (value : Nat) : BitVec 64 :=
  if type = .f64 then .ofNat 64 value else word.extractLsb' 32 32 ++ BitVec.ofNat 32 value

/-- The flags after a comparison of floats. -/
def comparisonFlags : Option Ordering → Flags
  | none => { carry := true, zero := true, parity := true }
  | some .lt => { carry := true }
  | some .eq => { zero := true }
  | some .gt => {}

namespace Processor

/-- The float in the low lane of a vector register. -/
def lane (machine : Processor) (type : ValueType) (reg : Register) : Nat :=
  (type.word (machine.regs reg)).toNat

/-- The processor with the low lane of a vector register replaced. -/
def setLane (machine : Processor) (type : ValueType) (reg : Register) (value : Nat) : Processor :=
  machine.setReg reg (type.withLane (machine.regs reg) value)

/-- Runs one instruction; floats are added, compared, rounded toward zero and converted. -/
def compute (machine : Processor) : Instruction → Option Processor
  | .sse op type dst src =>
    if op = .add then type.format?.map fun format =>
      machine.setLane type dst (format.sumOf (machine.lane type dst) (machine.lane type src))
    else none
  | .ucomis type left right => type.format?.map fun format =>
    { machine with
      flags := comparisonFlags (format.compare? (machine.lane type left) (machine.lane type right)) }
  | .convertInt type word dst src => type.format?.map fun format =>
    machine.setLane type dst (format.ofInt (word.word (machine.regs src)).toInt)
  | .truncateFloat word type dst src => type.format?.map fun format =>
    machine.setReg dst ((format.toWord word.bits (machine.lane type src)).setWidth 64)
  | .round type dst src mode =>
    if mode = .towardZero then type.format?.map fun format =>
      machine.setLane type dst (format.cutOff (machine.lane type src))
    else none
  | instruction => machine.operate instruction

theorem compute_of_operate {machine next : Processor} {instruction : Instruction}
    (runs : machine.operate instruction = some next) :
    machine.compute instruction = some next := by
  cases instruction
  all_goals first
    | exact runs
    | cases runs

/-- Straight-line code is followed to its end. -/
theorem followBy_operates {machine next : Processor} {instructions : List Instruction}
    (runs : machine.operates instructions = some next) (rest : List Step) :
    followBy compute none machine (instructions.map Step.emit ++ rest) =
      followBy compute none next rest := by
  induction instructions generalizing machine with
  | nil =>
    cases runs
    rfl
  | cons instruction others ih =>
    obtain ⟨middle, first, runs⟩ := Option.bind_eq_some_iff.mp runs
    rw [List.map_cons, List.cons_append, followBy_emit, compute_of_operate first]
    exact ih runs

end Processor

variable {type : ValueType} {format : FloatFormat} {dst src : Register} {machine : Processor}

theorem ValueType.format_proper (float : type.format? = some format) : format.Proper := by
  rcases ValueType.format?_eq float with ⟨_, rfl⟩ | ⟨_, rfl⟩
  · exact ⟨by decide, by decide⟩
  · exact ⟨by decide, by decide⟩

theorem ValueType.bits_format (float : type.format? = some format) : type.bits = format.width := by
  rcases ValueType.format?_eq float with ⟨rfl, rfl⟩ | ⟨rfl, rfl⟩ <;> rfl

theorem ValueType.word_withLane (float : type.format? = some format) (word : BitVec 64)
    (value : Nat) : type.word (type.withLane word value) = BitVec.ofNat type.bits value := by
  rcases ValueType.format?_eq float with ⟨rfl, _⟩ | ⟨rfl, _⟩
  · exact BitVec.setWidth_append_eq_right
  · exact BitVec.setWidth_eq _

theorem Processor.lane_setLane (float : type.format? = some format) {value : Nat}
    (small : value < 2 ^ format.width) :
    (machine.setLane type dst value).lane type dst = value := by
  rw [lane, setLane, regs_setReg, if_pos rfl, ValueType.word_withLane float, BitVec.toNat_ofNat,
    ValueType.bits_format float, Nat.mod_eq_of_lt small]

namespace FloatFormat

/-- The pattern denotes a natural number. -/
def Denotes (format : FloatFormat) (bits number : Nat) : Prop :=
  ∃ part exponent, format.view bits = .finite false part exponent ∧
    (part : ℚ) * 2 ^ exponent = number

theorem Proper.denotes (proper : format.Proper) {bits number : Nat} (finite : format.IsFinite bits)
    (positive : format.isNegative bits = false)
    (units : format.units bits = (number : Int) * (2 ^ format.depth : Nat)) :
    format.Denotes bits number := by
  obtain ⟨part, above, views, denotes, _⟩ := proper.view_finite finite
  rw [FloatFormat.units, positive, if_neg Bool.false_ne_true, ← denotes, ← Int.natCast_mul,
    Int.natCast_inj] at units
  refine ⟨part, _, by rw [views, positive], ?_⟩
  have two : (2 : ℚ) ≠ 0 := two_ne_zero
  rw [zpow_sub₀ two, zpow_natCast, zpow_natCast, ← mul_div_assoc, div_eq_iff (pow_ne_zero _ two)]
  exact_mod_cast units

theorem Proper.withSign_lt (proper : format.Proper) (negative : Bool) {magnitude : Nat}
    (small : magnitude ≤ format.infinity) :
    format.withSign negative magnitude < 2 ^ format.width := by
  have signs := proper.signBit
  have positive := format.hiddenBit_pos
  have double : 2 ^ format.width = format.signBit + format.signBit := by
    have precise := proper.precise
    change _ = 2 ^ (format.width - 1) + 2 ^ (format.width - 1)
    rw [← Nat.two_mul, Nat.mul_comm, ← Nat.pow_succ, Nat.succ_eq_add_one, Nat.sub_add_cancel]
    unfold width
    omega
  unfold withSign
  split <;> omega

theorem Proper.ofInt_lt (proper : format.Proper) (value : Int) :
    format.ofInt value < 2 ^ format.width := by
  obtain ⟨pattern, nearest, _⟩ :=
    @Proper.nearest_pow format proper value.natAbs 0 (Nat.zero_le _)
  refine proper.withSign_lt _ ?_
  rw [show format.nearest value.natAbs 1 = min format.infinity pattern from nearest]
  exact Nat.min_le_left _ _

/-- Two numbers are added as they are; only infinity could come of it besides. -/
theorem Proper.sumOf_eq (proper : format.Proper) {left right : Nat} (first : format.IsFinite left)
    (second : format.IsFinite right) : format.sumOf left right = format.add left right := by
  obtain ⟨negative, pattern, adds, _⟩ := proper.add_eq first second
  have within := Nat.min_le_left format.infinity pattern
  rw [sumOf, if_neg (view_ne_nan (Nat.le_of_lt first)), if_neg (view_ne_nan (Nat.le_of_lt second))]
  dsimp only
  rw [adds, if_neg (view_ne_nan ((proper.withSign_fields negative within).2.trans_le within))]

theorem Proper.sumOf_lt (proper : format.Proper) {left right : Nat} (first : format.IsFinite left)
    (second : format.IsFinite right) : format.sumOf left right < 2 ^ format.width := by
  obtain ⟨negative, pattern, adds, _⟩ := proper.add_eq first second
  rw [proper.sumOf_eq first second, adds]
  exact proper.withSign_lt negative (Nat.min_le_left _ _)

theorem Proper.sumOf_self (proper : format.Proper) {bits number : Nat}
    (finite : format.IsFinite bits)
    (units : format.units bits = (number : Int) * (2 ^ format.depth : Nat)) (some : number ≠ 0)
    (exact : rounded format.precision number = number) (small : number ≤ 2 ^ 63) :
    format.IsFinite (format.sumOf bits bits) ∧
      format.isNegative (format.sumOf bits bits) = false ∧
      format.units (format.sumOf bits bits) = (number * 2 : Nat) * (2 ^ format.depth : Nat) := by
  obtain ⟨negative, pattern, adds, scaled, sign⟩ := proper.add_eq finite finite
  have total : format.units bits + format.units bits = (number * 2 ^ 1 * 2 ^ format.depth : Nat) := by
    rw [units]
    push_cast
    ring
  have positive : 0 < number * 2 ^ 1 * 2 ^ format.depth :=
    Nat.mul_pos (by omega) (Nat.two_pow_pos _)
  rw [total, Int.natAbs_natCast, rounded_mul_pow, rounded_mul_pow, exact] at scaled
  rw [total] at sign
  have below : pattern < format.infinity := by
    refine proper.finite_of_scaled ?_
    rw [scaled, Nat.pow_add]
    exact Nat.mul_le_mul_right _ (by omega)
  have plain : negative = false := by
    rw [sign (by omega)]
    exact decide_eq_false (by omega)
  rw [proper.sumOf_eq finite finite, adds, Nat.min_eq_right (Nat.le_of_lt below), plain, IsFinite]
  have fields := proper.withSign_fields false (Nat.le_of_lt below)
  rw [proper.units_withSign _ (Nat.le_of_lt below), scaled, fields.1, fields.2]
  exact ⟨below, rfl, rfl⟩

end FloatFormat

namespace Processor

theorem compute_convertInt (float : type.format? = some format) (dst src : Register)
    (machine : Processor) :
    machine.compute (.convertInt type .i64 dst src) =
      some (machine.setLane type dst (format.ofInt (machine.regs src).toInt)) := by
  rw [compute, float, ValueType.word_i64]
  rfl

theorem testFlags_self (value : BitVec 64) : (testFlags .i64 value value).sign = value.msb := by
  change (ValueType.i64.word value &&& ValueType.i64.word value).msb = _
  rw [BitVec.and_self, ValueType.word_i64]
  rfl

/-- A number is halved in the scratch register; a bit that is lost is kept in the lowest place. -/
theorem follow_halve (src : Register) (machine : Processor) (rest : List Step) :
    ∃ halved, followBy compute none machine
        (.emit (.mov .i64 .r10 src) :: .emit (.shiftImm .shr .i64 .r10 1) ::
          .jumpIf .aboveEqual (.inner 0) .near :: .emit (.aluImm .or .i64 .r10 1) ::
          .bind (.inner 0) :: rest) = followBy compute none halved rest ∧
      (halved.regs .r10).toNat = (machine.regs src).toNat / 2 ||| (machine.regs src).toNat % 2 ∧
      halved.memory = machine.memory ∧
      ∀ other, other ≠ .r10 → halved.regs other = machine.regs other := by
  let value := machine.regs src
  let moved := machine.setReg .r10 value
  have moves : machine.compute (.mov .i64 .r10 src) = some moved := perform_mov_i64 ..
  let shifted : Processor := { moved.setReg .r10 (value >>> 1) with
    flags := ShiftOp.shr.flags moved.flags value 1 (value >>> 1) }
  have shifts : moved.compute (.shiftImm .shr .i64 .r10 1) = some shifted :=
    (moved.perform_shift_i64 .shr .r10 (by decide)).trans rfl
  have above : Condition.aboveEqual.holds shifted.flags = decide (value.toNat % 2 = 0) := by
    change (value.getLsbD 0 != true) = _
    rw [BitVec.getLsbD, Nat.testBit_zero]
    rcases Nat.mod_two_eq_zero_or_one value.toNat with even | odd
    · rw [even]
      rfl
    · rw [odd]
      rfl
  have half : (value >>> 1).toNat = value.toNat / 2 := by
    rw [BitVec.toNat_ushiftRight, Nat.shiftRight_eq_div_pow, Nat.pow_one]
  have others : ∀ other, other ≠ .r10 → shifted.regs other = machine.regs other :=
    fun other apart => (if_neg apart).trans (if_neg apart)
  rw [followBy_emit, moves, Option.bind_some, followBy_emit, shifts, Option.bind_some,
    followBy_jumpIf_inner, above]
  rcases Nat.mod_two_eq_zero_or_one value.toNat with even | odd
  · refine ⟨shifted, by simp [even], ?_, rfl, others⟩
    change (value >>> 1).toNat = value.toNat / 2 ||| value.toNat % 2
    rw [even, Nat.or_zero, half]
  · let marked : Processor := { shifted.setReg .r10 (value >>> 1 ||| 1) with
      flags := AluOp.or.flags (value >>> 1) 1 (value >>> 1 ||| 1) }
    have marks : shifted.compute (.aluImm .or .i64 .r10 1) = some marked := shifted.alu_i64 .or .r10 _
    refine ⟨marked, by simp [odd, marks], ?_, rfl, fun other apart => (if_neg apart).trans (others other apart)⟩
    change (value >>> 1 ||| 1).toNat = value.toNat / 2 ||| value.toNat % 2
    rw [odd, BitVec.toNat_or, half]
    rfl

/-- The steps of a conversion of an unsigned integer of 64 bits. -/
theorem follow_convertUnsigned64 (float : type.format? = some format) (vector : dst.isFp = true)
    (general : src.isGp = true) (machine : Processor) :
    ∃ after, followBy compute none machine (Sequence.convertUnsigned64 type dst src) =
        some (.falls after) ∧
      after.lane type dst =
        (if (machine.regs src).msb then
          let half := format.ofInt ((machine.regs src).toNat / 2 ||| (machine.regs src).toNat % 2 : Nat)
          format.sumOf half half
        else format.ofInt (machine.regs src).toNat) ∧
      after.memory = machine.memory ∧
      ∀ other, other ≠ dst → other ≠ .r10 → after.regs other = machine.regs other := by
  have proper := ValueType.format_proper float
  have bank : src ≠ dst := by
    rintro rfl
    simp only [Register.isFp, Register.isGp, Bool.and_eq_true, decide_eq_true_eq,
      UInt8.le_iff_toNat_le, UInt8.lt_iff_toNat_lt] at vector general
    exact absurd general (Nat.not_lt.mpr vector.1)
  have scratch : Register.r10 ≠ dst := by
    rintro rfl
    cases vector
  let first := machine.setLane type dst (format.ofInt (machine.regs src).toInt)
  let tested : Processor :=
    { first with flags := testFlags .i64 (machine.regs src) (machine.regs src) }
  have kept : first.regs src = machine.regs src := if_neg bank
  have tests : first.compute (.test .i64 src src) = some tested := by
    change some { first with flags := testFlags .i64 (first.regs src) (first.regs src) } = _
    rw [kept]
  have positive : Condition.positive.holds tested.flags = !(machine.regs src).msb := by
    rw [← testFlags_self]
    change ((testFlags .i64 (machine.regs src) (machine.regs src)).sign != true) = _
    cases (testFlags .i64 (machine.regs src) (machine.regs src)).sign <;> rfl
  unfold Sequence.convertUnsigned64
  rw [followBy_emit, compute_convertInt float, Option.bind_some, followBy_emit, tests,
    Option.bind_some, followBy_jumpIf_inner, positive]
  cases top : (machine.regs src).msb with
  | false =>
    refine ⟨tested, by simp, ?_, rfl, fun other apart _ => if_neg apart⟩
    rw [if_neg Bool.false_ne_true, ← BitVec.toInt_eq_toNat_of_msb top]
    exact lane_setLane float (proper.ofInt_lt _)
  | true =>
    let half := (machine.regs src).toNat / 2 ||| (machine.regs src).toNat % 2
    obtain ⟨halved, halves, isHalf, memory, others⟩ := follow_halve src tested
      [.emit (.convertInt type .i64 dst .r10), .emit (.sse .add type dst dst), .bind (.inner 1)]
    have small : half < 2 ^ 63 := by
      have bound := (machine.regs src).isLt
      exact Nat.or_lt_two_pow (by omega) (by omega)
    have isHalf : (halved.regs .r10).toNat = half := by
      rw [isHalf, show tested.regs src = machine.regs src from kept]
    have isInt : (halved.regs .r10).toInt = half := by
      rw [BitVec.toInt_eq_toNat_of_lt (by omega), isHalf]
    let pattern := format.ofInt half
    let converted := halved.setLane type dst pattern
    have lane : converted.lane type dst = pattern := lane_setLane float (proper.ofInt_lt _)
    refine ⟨converted.setLane type dst (format.sumOf pattern pattern), ?_, ?_, memory, ?_⟩
    · rw [if_neg (by simp), halves, followBy_emit, compute_convertInt float, Option.bind_some, isInt,
        followBy_emit]
      have adds : converted.compute (.sse .add type dst dst) =
          some (converted.setLane type dst (format.sumOf pattern pattern)) := by
        rw [compute, if_pos rfl, float, lane]
        rfl
      rw [adds, Option.bind_some, followBy_bind, followBy_nil]
    · rw [if_pos rfl]
      have finite := (proper.ofInt_eq (show (half : Int).natAbs ≤ 2 ^ 64 by omega)).1
      exact lane_setLane float (proper.sumOf_lt finite finite)
    · intro other apart free
      exact (if_neg apart).trans ((if_neg apart).trans ((others other free).trans (if_neg apart)))

end Processor

/-- An unsigned integer of 64 bits is converted to the float that it is rounded to once, to
nearest with ties to even. -/
theorem Sequence.convertUnsigned64_rounds (float : type.format? = some format)
    (vector : dst.isFp = true) (general : src.isGp = true) (machine : Processor) :
    ∃ after, Processor.followBy Processor.compute none machine (convertUnsigned64 type dst src) =
        some (.falls after) ∧
      format.Denotes (after.lane type dst)
        (FloatFormat.rounded format.precision (machine.regs src).toNat) ∧
      after.memory = machine.memory ∧
      ∀ other, other ≠ dst → other ≠ .r10 → after.regs other = machine.regs other := by
  have proper := ValueType.format_proper float
  have positive : 0 < format.precision := Nat.lt_of_succ_lt proper.precise
  have few : format.precision + 3 ≤ 64 := by
    rcases ValueType.format?_eq float with ⟨_, rfl⟩ | ⟨_, rfl⟩ <;> decide
  obtain ⟨after, follows, lane, kept⟩ :=
    Processor.follow_convertUnsigned64 float vector general machine
  refine ⟨after, follows, ?_, kept⟩
  have bound := (machine.regs src).isLt
  rw [lane]
  cases top : (machine.regs src).msb with
  | true =>
    rw [if_pos rfl]
    have large := BitVec.le_toNat_of_msb_true top
    generalize (machine.regs src).toNat = number at bound large ⊢
    let half := number / 2 ||| number % 2
    have least : 2 ^ 62 ≤ half := Nat.le_trans (by omega) Nat.left_le_or
    have most : half < 2 ^ 63 := Nat.or_lt_two_pow (by omega) (by omega)
    have log : 63 ≤ number.log2 := (Nat.le_log2 (by omega)).mpr large
    have sticky := FloatFormat.rounded_sticky (show format.precision + 3 ≤ number.log2 + 1 by omega)
    have some := FloatFormat.le_rounded positive least
    obtain ⟨finite, _, units⟩ := proper.ofInt_eq (show (half : Int).natAbs ≤ 2 ^ 64 by omega)
    rw [Int.sign_eq_one_of_pos (by omega), Int.one_mul, Int.natAbs_natCast] at units
    obtain ⟨finite, sign, units⟩ := proper.sumOf_self finite units (by omega)
      (FloatFormat.rounded_rounded positive half)
      (FloatFormat.rounded_le positive (Nat.le_of_lt most))
    rw [sticky] at units
    exact proper.denotes finite sign units
  | false =>
    rw [if_neg Bool.false_ne_true]
    obtain ⟨finite, sign, units⟩ :=
      proper.ofInt_eq (show ((machine.regs src).toNat : Int).natAbs ≤ 2 ^ 64 by omega)
    refine proper.denotes finite (sign.trans (decide_eq_false (by omega))) (units.trans ?_)
    rcases Nat.eq_zero_or_pos (machine.regs src).toNat with zero | some
    · rw [zero]
      simp [FloatFormat.rounded_zero]
    · rw [Int.sign_eq_one_of_pos (by omega), Int.one_mul, Int.natAbs_natCast]

/-- Just above the middle of two doubles the larger one is taken. -/
theorem Sequence.convertUnsigned64_rounds_aboveTie :
    let machine : Processor := { regs := fun _ => 0x8000000000000401, memory := fun _ => 0 }
    ∃ after, Processor.followBy Processor.compute none machine (convertUnsigned64 .f64 (.xmm 0) .rax) =
        some (.falls after) ∧
      FloatFormat.double.Denotes (after.lane .f64 (.xmm 0)) 0x8000000000000800 := by
  intro machine
  have float : ValueType.f64.format? = some .double := rfl
  obtain ⟨after, follows, denotes, _⟩ :=
    @convertUnsigned64_rounds _ _ (.xmm 0) .rax float rfl rfl machine
  have rounds : FloatFormat.rounded FloatFormat.double.precision 0x8000000000000401 =
      0x8000000000000800 := by decide
  exact ⟨after, follows, rounds ▸ denotes⟩

end WasmX64
