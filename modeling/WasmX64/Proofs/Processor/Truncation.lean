import WasmX64.Proofs.Processor.Floats
import WasmX64.Proofs.Processor.Integers

/-!
# Truncating floats

A float is truncated to an integer by cutting it off, converting it there and back and comparing,
or, to an unsigned integer of 64 bits, by converting it as it is and again with `2 ^ 63` less.  It
is refused exactly if its whole part is out of range.
-/

namespace WasmX64

namespace FloatFormat

variable {format : FloatFormat} {bits : Nat} {whole : Int}

/-- A pattern denotes a number, or it is infinite, or it is no number. -/
theorem pattern_cases (format : FloatFormat) (bits : Nat) :
    format.IsFinite bits ∨ format.magnitude bits = format.infinity ∨
      format.infinity < format.magnitude bits := by
  unfold IsFinite
  omega

theorem quieted_nan (nan : format.infinity < format.magnitude bits) :
    format.infinity < format.magnitude (format.quieted bits) := by
  have split : format.magnitude (format.quieted bits) =
      format.magnitude bits ||| format.hiddenBit / 2 % format.signBit := Nat.or_mod_two_pow
  exact split ▸ Nat.lt_of_lt_of_le nan Nat.left_le_or

theorem Proper.wholePart?_cutOff (proper : format.Proper) (bits : Nat) :
    format.wholePart? (format.cutOff bits) = format.wholePart? bits := by
  rcases format.pattern_cases bits with finite | infinite | nan
  · obtain ⟨cut, units⟩ := proper.roundWhole_eq finite
    rw [cutOff, if_neg (view_ne_nan (Nat.le_of_lt finite)), proper.wholePart?_eq cut, units,
      proper.wholePart?_eq finite,
      Int.mul_tdiv_cancel _ (Int.natCast_ne_zero.mpr (Nat.ne_of_gt (Nat.two_pow_pos _)))]
  · rw [cutOff, if_neg (view_ne_nan (Nat.le_of_eq infinite)), roundWhole, view_infinite infinite]
  · rw [cutOff, if_pos (view_nan nan), wholePart?_none (Nat.le_of_lt nan),
      wholePart?_none (Nat.le_of_lt (quieted_nan nan))]

theorem Proper.quieted_lt (proper : format.Proper) (small : bits < 2 ^ format.width) :
    format.quieted bits < 2 ^ format.width := by
  refine Nat.or_lt_two_pow small (Nat.lt_of_le_of_lt (Nat.div_le_self _ _) ?_)
  refine Nat.pow_lt_pow_right (by decide) ?_
  have precise := proper.precise
  unfold width
  omega

theorem nearest_le (format : FloatFormat) (numerator denominator : Nat) :
    format.nearest numerator denominator ≤ format.infinity := by
  unfold nearest
  split
  · exact Nat.zero_le _
  · exact Nat.min_le_left _ _

theorem Proper.cutOff_lt (proper : format.Proper) (small : bits < 2 ^ format.width) :
    format.cutOff bits < 2 ^ format.width := by
  unfold cutOff
  split
  · exact proper.quieted_lt small
  · rename_i number
    unfold roundWhole
    split
    · rename_i nan
      exact absurd nan number
    · exact small
    · split
      · exact small
      · exact proper.withSign_lt _ (format.nearest_le _ _)

theorem finite_of_wholePart? (is : format.wholePart? bits = some whole) : format.IsFinite bits := by
  by_contra large
  rw [wholePart?_none (Nat.le_of_not_lt large)] at is
  cases is

theorem Proper.rounded_whole (proper : format.Proper) (is : format.wholePart? bits = some whole) :
    rounded format.precision whole.natAbs = whole.natAbs := by
  have finite := finite_of_wholePart? is
  obtain ⟨part, above, _, denotes, small⟩ := proper.view_finite finite
  have amount : whole.natAbs = part * 2 ^ above / 2 ^ format.depth := by
    rw [proper.wholePart?_eq finite, Option.some.injEq] at is
    rw [← is, Int.natAbs_tdiv, Int.natAbs_natCast, denotes, units]
    split
    · rw [Int.natAbs_neg]
      rfl
    · rfl
  rw [amount]
  rcases Nat.le_total format.depth above with deep | shallow
  · have split : 2 ^ above = 2 ^ (above - format.depth) * 2 ^ format.depth := by
      rw [← Nat.pow_add, Nat.sub_add_cancel deep]
    rw [split, ← Nat.mul_assoc, Nat.mul_div_cancel _ (Nat.two_pow_pos _)]
    exact rounded_exact small _
  · have split : 2 ^ format.depth = 2 ^ (format.depth - above) * 2 ^ above := by
      rw [← Nat.pow_add, Nat.sub_add_cancel shallow]
    rw [split, Nat.mul_div_mul_right _ _ (Nat.two_pow_pos above)]
    exact rounded_small (Nat.lt_of_le_of_lt (Nat.div_le_self _ _) small)

theorem Proper.compare_back (proper : format.Proper) (bits : Nat) {value : Int}
    (small : value.natAbs ≤ 2 ^ 64) :
    format.compare? (format.ofInt value) (format.cutOff bits) = some .eq ↔
      format.wholePart? bits = some (value.sign * rounded format.precision value.natAbs) := by
  obtain ⟨back, _, backUnits⟩ := proper.ofInt_eq small
  have scale : ((2 ^ format.depth : Nat) : Int) ≠ 0 :=
    Int.natCast_ne_zero.mpr (Nat.ne_of_gt (Nat.two_pow_pos _))
  rcases format.pattern_cases bits with finite | infinite | nan
  · obtain ⟨cut, cutUnits⟩ := proper.roundWhole_eq finite
    obtain ⟨order, compares, equal⟩ := compare?_eq_iff (Nat.le_of_lt back) (Nat.le_of_lt cut)
    rw [cutOff, if_neg (view_ne_nan (Nat.le_of_lt finite)), compares, Option.some.injEq, equal,
      backUnits, cutUnits, proper.wholePart?_eq finite, Option.some.injEq,
      Int.mul_eq_mul_right_iff scale]
    exact eq_comm
  · -- infinity is beyond every integer
    have cut : format.cutOff bits = bits := by
      rw [cutOff, if_neg (view_ne_nan (Nat.le_of_eq infinite)), roundWhole, view_infinite infinite]
    obtain ⟨order, compares, equal⟩ := compare?_eq_iff (Nat.le_of_lt back) (Nat.le_of_eq infinite)
    rw [cut, compares, Option.some.injEq, equal, wholePart?_none (Nat.le_of_eq infinite.symm)]
    refine iff_of_false (fun same => ?_) fun same => Option.some_ne_none _ same.symm
    have less := scaled_strictMono format back
    have amounts := congrArg Int.natAbs same
    unfold units at amounts
    rw [infinite] at amounts
    split at amounts <;> split at amounts <;> omega
  · have cut : format.cutOff bits = format.quieted bits := if_pos (view_nan nan)
    rw [cut, compare?_nan (quieted_nan nan), wholePart?_none (Nat.le_of_lt nan)]
    exact iff_of_false (fun same => Option.some_ne_none _ same.symm)
      fun same => Option.some_ne_none _ same.symm

theorem toWord_of_mem {width : Nat} (is : format.wholePart? bits = some whole)
    (least : -2 ^ (width - 1) ≤ whole) (most : whole < 2 ^ (width - 1)) :
    format.toWord width bits = .ofInt width whole := by
  rw [toWord, is]
  exact if_pos ⟨least, most⟩

theorem toWord_of_not_mem {width : Nat}
    (outside : ∀ whole, format.wholePart? bits = some whole →
      ¬ (-2 ^ (width - 1) ≤ whole ∧ whole < 2 ^ (width - 1))) :
    format.toWord width bits = .intMin width := by
  unfold toWord
  split
  · rename_i whole is
    exact if_neg (outside whole is)
  · rfl

theorem toWord_msb (format : FloatFormat) (bits : Nat) :
    (format.toWord 64 bits).msb = false ↔
      ∃ whole, format.wholePart? bits = some whole ∧ 0 ≤ whole ∧ whole < 2 ^ 63 := by
  by_cases inside : ∃ whole, format.wholePart? bits = some whole ∧ -2 ^ 63 ≤ whole ∧ whole < 2 ^ 63
  · obtain ⟨whole, is, least, most⟩ := inside
    rw [toWord_of_mem is least most, BitVec.msb_eq_toInt, decide_eq_false_iff_not,
      BitVec.toInt_ofInt, Int.bmod_eq_of_le (by omega) (by omega), is]
    constructor
    · exact fun positive => ⟨whole, rfl, by omega, most⟩
    · rintro ⟨other, same, positive, _⟩
      cases same
      omega
  · have outside : ∀ whole, format.wholePart? bits = some whole →
        ¬ (-2 ^ (64 - 1) ≤ whole ∧ whole < 2 ^ (64 - 1)) :=
      fun whole is within => inside ⟨whole, is, within⟩
    rw [toWord_of_not_mem outside]
    refine iff_of_false (by decide) ?_
    rintro ⟨whole, is, positive, most⟩
    exact inside ⟨whole, is, by omega, most⟩

theorem Proper.toWord_cutOff (proper : format.Proper) (width bits : Nat) :
    format.toWord width (format.cutOff bits) = format.toWord width bits := by
  rw [toWord, proper.wholePart?_cutOff, toWord]

/-- The whole part of a pattern is in a range. -/
def WholeIn (format : FloatFormat) (bits : Nat) (least bound : Int) : Prop :=
  ∃ whole, format.wholePart? bits = some whole ∧ least ≤ whole ∧ whole < bound

instance (format : FloatFormat) (bits : Nat) (least bound : Int) :
    Decidable (format.WholeIn bits least bound) :=
  decidable_of_iff ((format.wholePart? bits).any fun whole => least ≤ whole ∧ whole < bound) (by
    unfold WholeIn
    cases format.wholePart? bits <;> simp)

theorem Proper.signed_back (proper : format.Proper) (width : IntWidth) (bits : Nat) :
    let value := (format.toWord width.bits bits).toInt
    format.wholePart? bits = some (value.sign * rounded format.precision value.natAbs) ↔
      format.WholeIn bits (-2 ^ (width.bits - 1)) (2 ^ (width.bits - 1)) := by
  have precise := proper.precise
  constructor
  · intro is
    by_contra outside
    have missed : format.toWord width.bits bits = .intMin width.bits :=
      toWord_of_not_mem fun whole is within => outside ⟨whole, is, within⟩
    rw [missed] at is
    refine outside ⟨_, is, ?_⟩
    have power : rounded format.precision (2 ^ (width.bits - 1)) = 2 ^ (width.bits - 1) := by
      have whole := rounded_exact (Nat.one_lt_two_pow (show format.precision ≠ 0 by omega))
        (width.bits - 1)
      rwa [Nat.one_mul] at whole
    cases width with
    | w32 =>
      rw [show (BitVec.intMin (IntWidth.bits .w32)).toInt.natAbs = 2 ^ (IntWidth.bits .w32 - 1) from rfl,
        power]
      decide
    | w64 =>
      rw [show (BitVec.intMin (IntWidth.bits .w64)).toInt.natAbs = 2 ^ (IntWidth.bits .w64 - 1) from rfl,
        power]
      decide
  · rintro ⟨whole, is, least, most⟩
    have fits : (BitVec.ofInt width.bits whole).toInt = whole := by
      rw [BitVec.toInt_ofInt]
      cases width with
      | w32 => exact Int.bmod_eq_of_le least most
      | w64 => exact Int.bmod_eq_of_le least most
    rw [toWord_of_mem is least most, fits, proper.rounded_whole is, Int.sign_mul_natAbs, is]

/-- The low half of a converted number is what was cut off exactly if the whole part has no more
than 32 bits. -/
theorem Proper.unsigned_back (proper : format.Proper) (bits : Nat) :
    let value : Int := ((format.toWord 64 bits).toNat % 2 ^ 32 : Nat)
    format.wholePart? bits = some (value.sign * rounded format.precision value.natAbs) ↔
      format.WholeIn bits 0 (2 ^ 32) := by
  have positive : 0 < format.precision := Nat.lt_of_succ_lt proper.precise
  dsimp only
  rw [Int.natAbs_natCast]
  have low {whole : Int} (is : format.wholePart? bits = some whole) (least : 0 ≤ whole)
      (most : whole < 2 ^ 63) :
      (format.toWord 64 bits).toNat % 2 ^ 32 = whole.toNat % 2 ^ 32 := by
    rw [toWord_of_mem is (by omega) (by omega), BitVec.toNat_ofInt]
    omega
  constructor
  · intro is
    have small : (format.toWord 64 bits).toNat % 2 ^ 32 < 2 ^ 32 := Nat.mod_lt _ (by decide)
    generalize amount : (format.toWord 64 bits).toNat % 2 ^ 32 = value at is small
    have most := rounded_le positive (Nat.le_of_lt small)
    rcases Nat.eq_zero_or_pos value with rfl | some
    · rw [rounded_zero] at is
      exact ⟨0, is, by decide⟩
    · rw [Int.sign_eq_one_of_pos (by omega), Int.one_mul] at is
      refine ⟨_, is, by omega, ?_⟩
      -- what is rounded up to `2 ^ 32` is none of its multiples
      by_contra large
      have all : rounded format.precision value = 2 ^ 32 := by omega
      rw [low is (by omega) (by omega), all] at amount
      omega
  · rintro ⟨whole, is, least, most⟩
    have exact := proper.rounded_whole is
    rw [low is least (by omega), Nat.mod_eq_of_lt (by omega), is,
      show whole.toNat = whole.natAbs by omega, exact,
      show (whole.natAbs : Int) = whole by omega, Option.some.injEq]
    exact (Int.sign_mul_natAbs whole).symm.trans (by rw [show (whole.natAbs : Int) = whole by omega])

/-! ## Unsigned integers of 64 bits -/

section Lowered

variable {number : Nat} (proper : format.Proper) (finite : format.IsFinite number)
  (units : format.units number = -((2 ^ (63 + format.depth) : Nat) : Int))

include proper finite

theorem Proper.sumOf_infinite (infinite : format.magnitude bits = format.infinity) :
    format.sumOf number bits = bits := by
  obtain ⟨part, above, views, _⟩ := proper.view_finite finite
  have adds : format.add number bits = bits := by
    rw [add, views, view_infinite infinite]
  have some := view_ne_nan (Nat.le_of_eq infinite)
  rw [sumOf, if_neg (view_ne_nan (Nat.le_of_lt finite)), if_neg some]
  dsimp only
  rw [adds, if_neg some]

theorem Proper.lowered_none (no : format.wholePart? bits = none) :
    format.wholePart? (format.sumOf number bits) = none := by
  rcases format.pattern_cases bits with large | infinite | nan
  · rw [proper.wholePart?_eq large] at no
    cases no
  · rwa [proper.sumOf_infinite finite infinite]
  · rw [sumOf, if_neg (view_ne_nan (Nat.le_of_lt finite)), if_pos (view_nan nan)]
    exact wholePart?_none (Nat.le_of_lt (quieted_nan nan))

theorem Proper.sumOf_bounded (small : bits < 2 ^ format.width) :
    format.sumOf number bits < 2 ^ format.width := by
  rcases format.pattern_cases bits with large | infinite | nan
  · exact proper.sumOf_lt finite large
  · rwa [proper.sumOf_infinite finite infinite]
  · rw [sumOf, if_neg (view_ne_nan (Nat.le_of_lt finite)), if_pos (view_nan nan)]
    exact proper.quieted_lt small

include units

/-- From `2 ^ 63` up to `2 ^ 64` the difference is exact. -/
theorem Proper.lowered_mem (is : format.wholePart? bits = some whole) (least : 2 ^ 63 ≤ whole)
    (most : whole < 2 ^ 64) (few : format.precision ≤ 63) :
    format.wholePart? (format.sumOf number bits) = some (whole - 2 ^ 63) := by
  have large := finite_of_wholePart? is
  have scale : (0 : Int) < (2 ^ format.depth : Nat) := Int.natCast_pos.mpr (Nat.two_pow_pos _)
  obtain ⟨part, above, _, denotes, small⟩ := proper.view_finite large
  rw [proper.wholePart?_eq large, Option.some.injEq] at is
  have positive : format.units bits = (part * 2 ^ above : Nat) := by
    rw [denotes, FloatFormat.units, if_neg]
    intro negative
    rw [FloatFormat.units, if_pos negative, Int.neg_tdiv] at is
    have quotient := Int.tdiv_nonneg (Int.natCast_nonneg (format.scaled (format.magnitude bits)))
      (Int.le_of_lt scale)
    omega
  generalize amount : part * 2 ^ above = value at positive
  rw [positive] at is
  have isWhole : ((value / 2 ^ format.depth : Nat) : Int) = whole := is
  have low : 2 ^ 63 * 2 ^ format.depth ≤ value :=
    (Nat.le_div_iff_mul_le (Nat.two_pow_pos _)).mp (by omega)
  have high : value < 2 ^ 64 * 2 ^ format.depth :=
    (Nat.div_lt_iff_lt_mul (Nat.two_pow_pos _)).mp (by omega)
  -- the number is a multiple of the last place of `2 ^ 63`
  obtain ⟨grain, isGrain⟩ : ∃ grain, format.precision + grain = 64 + format.depth :=
    ⟨64 + format.depth - format.precision, by omega⟩
  have fine : grain ≤ above := by
    by_contra coarse
    have less : value < 2 ^ (63 + format.depth) := by
      calc
        value < 2 ^ format.precision * 2 ^ above :=
          amount ▸ Nat.mul_lt_mul_of_pos_right small (Nat.two_pow_pos above)
        _ = 2 ^ (format.precision + above) := (Nat.pow_add ..).symm
        _ ≤ 2 ^ (63 + format.depth) := Nat.pow_le_pow_right (by decide) (by omega)
    rw [Nat.pow_add] at less
    omega
  have split : value = part * 2 ^ (above - grain) * 2 ^ grain := by
    rw [Nat.mul_assoc, ← Nat.pow_add, Nat.sub_add_cancel fine, amount]
  have exact : rounded format.precision (value - 2 ^ (63 + format.depth)) =
      value - 2 ^ (63 + format.depth) := by
    have half : 2 ^ (63 + format.depth) = 2 ^ (format.precision - 1) * 2 ^ grain := by
      have precise := proper.precise
      rw [← Nat.pow_add]
      congr 1
      omega
    have fits : part * 2 ^ (above - grain) < 2 ^ format.precision := by
      rw [← Nat.pow_add, ← isGrain, Nat.pow_add, split] at high
      exact Nat.lt_of_mul_lt_mul_right high
    rw [half, split, ← Nat.sub_mul]
    exact rounded_exact (Nat.lt_of_le_of_lt (Nat.sub_le _ _) fits) _
  obtain ⟨negative, pattern, adds, scaled, sign⟩ := proper.add_eq finite large
  have total : format.units number + format.units bits =
      (value - 2 ^ (63 + format.depth) : Nat) := by
    rw [units, positive, Nat.pow_add]
    omega
  rw [total, Int.natAbs_natCast, exact] at scaled
  rw [total] at sign
  have below : pattern < format.infinity := by
    refine proper.finite_of_scaled ?_
    rw [scaled, Nat.pow_add 2 64]
    exact Nat.le_trans (Nat.sub_le _ _) (Nat.le_of_lt high)
  have sumUnits : format.units (format.sumOf number bits) =
      (value - 2 ^ (63 + format.depth) : Nat) := by
    rw [proper.sumOf_eq finite large, adds, Nat.min_eq_right (Nat.le_of_lt below),
      proper.units_withSign _ (Nat.le_of_lt below), scaled]
    rcases Nat.eq_zero_or_pos (value - 2 ^ (63 + format.depth)) with zero | some
    · rw [zero]
      split <;> rfl
    · rw [sign (by omega), if_neg (by simp)]
  have sumFinite : format.IsFinite (format.sumOf number bits) := by
    rw [proper.sumOf_eq finite large, adds, Nat.min_eq_right (Nat.le_of_lt below), IsFinite,
      (proper.withSign_fields _ (Nat.le_of_lt below)).2]
    exact below
  rw [proper.wholePart?_eq sumFinite, sumUnits, Option.some.injEq, ← isWhole]
  change (((value - 2 ^ (63 + format.depth)) / 2 ^ format.depth : Nat) : Int) = _
  rw [Nat.pow_add, Nat.mul_comm, Nat.sub_mul_div]
  omega

/-- Below zero and from `2 ^ 64` on the difference is too large. -/
theorem Proper.lowered_not_mem (is : format.wholePart? bits = some whole)
    (outside : whole < 0 ∨ 2 ^ 64 ≤ whole) :
    ¬ format.WholeIn (format.sumOf number bits) 0 (2 ^ 63) := by
  have large : format.IsFinite bits := finite_of_wholePart? is
  have scale : (0 : Int) < (2 ^ format.depth : Nat) := Int.natCast_pos.mpr (Nat.two_pow_pos _)
  have top : ((2 ^ (63 + format.depth) : Nat) : Int) = 2 ^ 63 * (2 ^ format.depth : Nat) := by
    rw [Nat.pow_add]
    push_cast
    rfl
  rw [proper.wholePart?_eq large, Option.some.injEq] at is
  obtain ⟨negative, pattern, adds, scaled, _⟩ := proper.add_eq finite large
  have far : 2 ^ (63 + format.depth) ≤ (format.units number + format.units bits).natAbs := by
    rw [units]
    generalize format.units bits = amount at is ⊢
    rcases lt_or_ge amount 0 with less | more
    · omega
    · rw [Int.tdiv_eq_ediv_of_nonneg more] at is
      have quotient := Int.ediv_nonneg more (Int.le_of_lt scale)
      have bound := (Int.le_ediv_iff_mul_le scale).mp (show 2 ^ 64 ≤ amount / _ by omega)
      omega
  have beyond := le_rounded (Nat.lt_of_succ_lt proper.precise) far
  rw [← scaled, Nat.pow_add] at beyond
  have many := (Nat.le_div_iff_mul_le (Nat.two_pow_pos format.depth)).mpr beyond
  rintro ⟨other, isOther, positive, small⟩
  have sumFinite := finite_of_wholePart? isOther
  have below := Nat.min_le_left format.infinity pattern
  rw [proper.sumOf_eq finite large, adds] at isOther sumFinite
  have fields := proper.withSign_fields negative below
  have plain : min format.infinity pattern = pattern := by
    unfold IsFinite at sumFinite
    omega
  rw [proper.wholePart?_eq sumFinite, FloatFormat.units, fields.2, plain, Option.some.injEq] at isOther
  have amount : other.natAbs = format.scaled pattern / 2 ^ format.depth := by
    rw [← isOther, Int.natAbs_tdiv, Int.natAbs_natCast]
    split
    · rw [Int.natAbs_neg]
      rfl
    · rfl
  omega

end Lowered

end FloatFormat

theorem Sequence.minusTwo63_units {type : ValueType} {format : FloatFormat}
    (float : type.format? = some format) :
    format.IsFinite (minusTwo63 type).toNat ∧
      format.units (minusTwo63 type).toNat = -((2 ^ (63 + format.depth) : Nat) : Int) := by
  have proper := ValueType.format_proper float
  obtain ⟨place, isPlace, small, pattern⟩ : ∃ place,
      format.precision - 1 + place = 63 + format.depth ∧
      place * format.hiddenBit + format.hiddenBit < format.infinity ∧
      (minusTwo63 type).toNat =
        format.withSign true (place * format.hiddenBit + format.hiddenBit) := by
    rcases ValueType.format?_eq float with ⟨rfl, rfl⟩ | ⟨rfl, rfl⟩
    · exact ⟨189, by decide, by decide, by decide⟩
    · exact ⟨1085, by decide, by decide, by decide⟩
  rw [pattern, FloatFormat.IsFinite, (proper.withSign_fields true (Nat.le_of_lt small)).2,
    proper.units_withSign true (Nat.le_of_lt small), if_pos rfl,
    FloatFormat.scaled_line (Nat.le_refl _) (by omega), ← isPlace, Nat.pow_add]
  exact ⟨small, rfl⟩

namespace Processor

variable {type : ValueType} {format : FloatFormat} {dst src : Register} {machine : Processor}

theorem compute_truncateFloat (float : type.format? = some format) (word : ValueType)
    (dst src : Register) (machine : Processor) :
    machine.compute (.truncateFloat word type dst src) =
      some (machine.setReg dst ((format.toWord word.bits (machine.lane type src)).setWidth 64)) := by
  rw [compute, float]
  rfl

/-- The steps that compare what was converted back with what was cut off. -/
def checkBack (type : ValueType) (trap : Label) : List Step :=
  [.emit (.ucomis type .xmm14 .xmm15), .jumpIf .unordered (.label trap) .far,
    .jumpIf .notEqual (.label trap) .far]

theorem follow_checkBack (float : type.format? = some format) (trap : Label)
    (machine : Processor) :
    ∃ after, followBy compute none machine (checkBack type trap) =
        some (if format.compare? (machine.lane type .xmm14) (machine.lane type .xmm15) = some .eq
          then .falls after else .leaves trap after) ∧
      after.regs = machine.regs ∧ after.memory = machine.memory := by
  let order := format.compare? (machine.lane type .xmm14) (machine.lane type .xmm15)
  let compared : Processor := { machine with flags := comparisonFlags order }
  have compares : machine.compute (.ucomis type .xmm14 .xmm15) = some compared := by
    rw [compute, float]
    rfl
  refine ⟨compared, ?_, rfl, rfl⟩
  rw [checkBack, followBy_emit, compares, Option.bind_some, followBy_jumpIf_label,
    followBy_jumpIf_label, followBy_nil]
  change (if Condition.unordered.holds (comparisonFlags order) then _ else
    if Condition.notEqual.holds (comparisonFlags order) then _ else _) =
      some (if order = some .eq then _ else _)
  cases order with
  | none => rfl
  | some order => cases order <;> rfl

/-- Steps that put what was cut off into an integer register and back into a vector register. -/
def Returns (type : ValueType) (format : FloatFormat) (steps : List Step) (dst : Register)
    (bits : Nat) (word : BitVec 64) (value : Int) : Prop :=
  ∀ (machine : Processor) (rest : List Step), machine.lane type .xmm15 = format.cutOff bits →
    ∃ after, followBy compute none machine (steps ++ rest) = followBy compute none after rest ∧
      after.lane type .xmm15 = format.cutOff bits ∧ after.lane type .xmm14 = format.ofInt value ∧
      after.regs dst = word ∧ after.memory = machine.memory

theorem follow_back (float : type.format? = some format) {steps : List Step} {word : BitVec 64}
    {value : Int} (returns : Returns type format steps dst (machine.lane type src) word value)
    (small : value.natAbs ≤ 2 ^ 64) (trap : Label) :
    ∃ after, followBy compute none machine
          (.emit (.round type .xmm15 src .towardZero) :: steps ++ checkBack type trap) =
        some (if format.wholePart? (machine.lane type src) =
            some (value.sign * FloatFormat.rounded format.precision value.natAbs)
          then .falls after else .leaves trap after) ∧
      after.regs dst = word ∧ after.memory = machine.memory := by
  have proper := ValueType.format_proper float
  let cut := machine.setLane type .xmm15 (format.cutOff (machine.lane type src))
  have cuts : machine.compute (.round type .xmm15 src .towardZero) = some cut := by
    rw [compute, if_pos rfl, float]
    rfl
  have bound : machine.lane type src < 2 ^ format.width :=
    ValueType.bits_format float ▸ BitVec.isLt _
  obtain ⟨returned, follows, isCut, isBack, isWord, memory⟩ :=
    returns cut (checkBack type trap) (lane_setLane float (proper.cutOff_lt bound))
  obtain ⟨after, checks, same, kept⟩ := follow_checkBack float trap returned
  rw [isBack, isCut] at checks
  refine ⟨after, ?_, same ▸ isWord, kept.trans memory⟩
  rw [List.cons_append, followBy_emit, cuts, Option.bind_some, follows, checks]
  simp only [proper.compare_back _ small]

theorem apart_of_banks {vector : Register} (general : dst.isGp = true) (fp : vector.isFp = true) :
    vector ≠ dst := by
  rintro rfl
  simp only [Register.isFp, Register.isGp, Bool.and_eq_true, decide_eq_true_eq,
    UInt8.le_iff_toNat_le, UInt8.lt_iff_toNat_lt] at fp general
  omega

theorem follow_convertBack (float : type.format? = some format) (general : dst.isGp = true)
    (word : ValueType) {machine : Processor} {bits : Nat} {value : Int}
    (cut : machine.lane type .xmm15 = bits) (held : (word.word (machine.regs dst)).toInt = value)
    (rest : List Step) :
    ∃ after, followBy compute none machine (.emit (.convertInt type word .xmm14 dst) :: rest) =
        followBy compute none after rest ∧
      after.lane type .xmm15 = bits ∧ after.lane type .xmm14 = format.ofInt value ∧
      after.regs dst = machine.regs dst ∧ after.memory = machine.memory := by
  have proper := ValueType.format_proper float
  refine ⟨machine.setLane type .xmm14 (format.ofInt value), ?_, ?_,
    lane_setLane float (proper.ofInt_lt _), if_neg (apart_of_banks general rfl).symm, rfl⟩
  · rw [followBy_emit, compute, float, held]
    rfl
  · exact (congrArg (fun word => (type.word word).toNat) (if_neg (by decide))).trans cut

/-- What is put into the destination leaves what was cut off. -/
theorem lane_setReg (general : dst.isGp = true) {machine : Processor} {bits : Nat}
    (cut : machine.lane type .xmm15 = bits) (word : BitVec 64) :
    (machine.setReg dst word).lane type .xmm15 = bits :=
  (congrArg (fun word => (type.word word).toNat) (if_neg (apart_of_banks general rfl))).trans cut

theorem returns_signed (float : type.format? = some format) (general : dst.isGp = true)
    (width : IntWidth) (bits : Nat) :
    Returns type format [.emit (.truncateFloat width.type type dst .xmm15),
        .emit (.convertInt type width.type .xmm14 dst)] dst bits
      ((format.toWord width.bits bits).setWidth 64) (format.toWord width.bits bits).toInt := by
  intro machine rest cut
  have proper := ValueType.format_proper float
  have same : width.type.bits = width.bits := by cases width <;> rfl
  let truncated := machine.setReg dst ((format.toWord width.bits bits).setWidth 64)
  have held : truncated.regs dst = (format.toWord width.bits bits).setWidth 64 := if_pos rfl
  have value : (width.type.word (truncated.regs dst)).toInt =
      (format.toWord width.bits bits).toInt := by
    rw [held]
    cases width with
    | w32 => exact congrArg BitVec.toInt (ValueType.word_setWidth .i32 _)
    | w64 => exact congrArg BitVec.toInt (ValueType.word_setWidth .i64 _)
  have truncates : machine.compute (.truncateFloat width.type type dst .xmm15) = some truncated := by
    rw [compute_truncateFloat float, cut, proper.toWord_cutOff, same]
  obtain ⟨after, follows, back⟩ := follow_convertBack float general width.type
    (lane_setReg general cut _) value rest
  rw [held] at back
  refine ⟨after, ?_, back⟩
  rw [List.cons_append, followBy_emit, truncates, Option.bind_some]
  exact follows

theorem returns_unsigned (float : type.format? = some format) (general : dst.isGp = true)
    (bits : Nat) :
    Returns type format [.emit (.truncateFloat .i64 type dst .xmm15), .emit (.mov .i32 dst dst),
        .emit (.convertInt type .i64 .xmm14 dst)] dst bits
      (.ofNat 64 ((format.toWord 64 bits).toNat % 2 ^ 32))
      ((format.toWord 64 bits).toNat % 2 ^ 32 : Nat) := by
  intro machine rest cut
  have proper := ValueType.format_proper float
  let word := format.toWord 64 bits
  let truncated := machine.setReg dst word
  have truncates : machine.compute (.truncateFloat .i64 type dst .xmm15) = some truncated := by
    rw [compute_truncateFloat float, cut]
    change some (machine.setReg dst ((format.toWord 64 (format.cutOff bits)).setWidth 64)) = _
    rw [proper.toWord_cutOff, BitVec.setWidth_eq]
  let narrowed := truncated.setReg dst (ValueType.i32.clip word)
  have narrows : truncated.compute (.mov .i32 dst dst) = some narrowed := by
    have held : truncated.regs dst = word := if_pos rfl
    change some (truncated.setReg dst (ValueType.i32.clip (truncated.regs dst))) = _
    rw [held]
  have low : ValueType.i32.clip word = .ofNat 64 (word.toNat % 2 ^ 32) := by
    apply BitVec.eq_of_toNat_eq
    change ((word.setWidth 32).setWidth 64).toNat = _
    simp
  have held : narrowed.regs dst = .ofNat 64 (word.toNat % 2 ^ 32) := (if_pos rfl).trans low
  have value : (ValueType.i64.word (narrowed.regs dst)).toInt = (word.toNat % 2 ^ 32 : Nat) := by
    have small : word.toNat % 2 ^ 32 < 2 ^ 32 := Nat.mod_lt _ (by decide)
    have same : (BitVec.ofNat 64 (word.toNat % 2 ^ 32)).toNat = word.toNat % 2 ^ 32 := by
      rw [BitVec.toNat_ofNat, Nat.mod_eq_of_lt (by omega)]
    rw [held, ValueType.word_i64]
    exact (@BitVec.toInt_eq_toNat_of_lt 64 _ (by omega)).trans (congrArg Int.ofNat same)
  obtain ⟨after, follows, back⟩ := follow_convertBack float general .i64
    (lane_setReg general (lane_setReg general cut word) (ValueType.i32.clip word)) value rest
  rw [held] at back
  refine ⟨after, ?_, back⟩
  rw [List.cons_append, List.cons_append, followBy_emit, truncates, Option.bind_some,
    followBy_emit, narrows, Option.bind_some]
  exact follows

theorem followBy_pass (run : Processor → Instruction → Option Processor) (place : Nat)
    (machine : Processor) (instructions : List Instruction) (rest : List Step) :
    followBy run (some place) machine (instructions.map Step.emit ++ rest) =
      followBy run (some place) machine rest := by
  induction instructions with
  | nil => rfl
  | cons instruction others ih =>
    rw [List.map_cons, List.cons_append, followBy_seek, if_neg nofun]
    exact ih

theorem holds_negative (word : BitVec 64) :
    Condition.negative.holds (testFlags .i64 word word) = word.msb ∧
      Condition.positive.holds (testFlags .i64 word word) = !word.msb := by
  rw [← testFlags_self]
  change ((testFlags .i64 word word).sign != false) = _ ∧
    ((testFlags .i64 word word).sign != true) = _
  cases (testFlags .i64 word word).sign <;> exact ⟨rfl, rfl⟩

theorem follow_tested (float : type.format? = some format) (machine : Processor) (dst src : Register)
    (rest : List Step) :
    ∃ tested, followBy compute none machine (.emit (.truncateFloat .i64 type dst src) ::
          .emit (.test .i64 dst dst) :: rest) = followBy compute none tested rest ∧
      tested.regs = (machine.setReg dst (format.toWord 64 (machine.lane type src))).regs ∧
      tested.memory = machine.memory ∧
      Condition.negative.holds tested.flags = (format.toWord 64 (machine.lane type src)).msb ∧
      Condition.positive.holds tested.flags = !(format.toWord 64 (machine.lane type src)).msb := by
  let word := format.toWord 64 (machine.lane type src)
  let moved := machine.setReg dst word
  have held : moved.regs dst = word := if_pos rfl
  have truncates : machine.compute (.truncateFloat .i64 type dst src) = some moved := by
    rw [compute_truncateFloat float]
    exact congrArg (fun word => some (machine.setReg dst word)) (BitVec.setWidth_eq _)
  have tests : moved.compute (.test .i64 dst dst) =
      some { moved with flags := testFlags .i64 word word } := by
    change some { moved with flags := testFlags .i64 (moved.regs dst) (moved.regs dst) } = _
    rw [held]
  refine ⟨{ moved with flags := testFlags .i64 word word }, ?_, rfl, rfl,
    (holds_negative word).1, (holds_negative word).2⟩
  rw [followBy_emit, truncates, Option.bind_some, followBy_emit, tests, Option.bind_some]

theorem follow_truncateUnsigned64 (float : type.format? = some format) (general : dst.isGp = true)
    (vector : src.isFp = true) (apart : src ≠ .xmm15) (scratch : dst ≠ .r10) (trap : Label)
    (machine : Processor) :
    let first := format.toWord 64 (machine.lane type src)
    let second := format.toWord 64
      (format.sumOf (Sequence.minusTwo63 type).toNat (machine.lane type src))
    ∃ after, followBy compute none machine
          (Sequence.truncateUnsigned64 type dst src (.label trap)) =
        some (if first.msb = true ∧ second.msb = true then .leaves trap after else .falls after) ∧
      after.regs dst =
        (if first.msb = true then if second.msb = true then second else second ||| .intMin 64
          else first) ∧
      after.memory = machine.memory := by
  have proper := ValueType.format_proper float
  have suits : Suits type .xmm15 := by
    rcases ValueType.format?_eq float with ⟨rfl, _⟩ | ⟨rfl, _⟩ <;> exact ⟨rfl, rfl, rfl⟩
  intro first second
  let large : List Step :=
    [.emit (.sse .add type .xmm15 src), .emit (.truncateFloat .i64 type dst .xmm15),
      .emit (.test .i64 dst dst), .jumpIf .negative (.label trap) .far,
      .emit (.movImm .i64 .r10 (-9223372036854775808)), .emit (.alu .or .i64 dst .r10),
      .bind (.inner 0)]
  obtain ⟨tested, tests, testedRegs, testedMemory, _, positive⟩ := follow_tested float machine dst src
    (.jumpIf .positive (.inner 0) .far :: (Sequence.loadConstant type .xmm15
      (Sequence.minusTwo63 type) ++ large))
  obtain ⟨instructions, loaded, operates, loads⟩ :=
    Sequence.loadConstant_operates suits (Sequence.minusTwo63 type) tested
  have opened : Sequence.truncateUnsigned64 type dst src (.label trap) =
      .emit (.truncateFloat .i64 type dst src) :: .emit (.test .i64 dst dst) ::
        .jumpIf .positive (.inner 0) .far ::
        (Sequence.loadConstant type .xmm15 (Sequence.minusTwo63 type) ++ large) := rfl
  rw [opened, tests, followBy_jumpIf_inner, positive, operates.steps]
  cases top : first.msb with
  | false =>
    refine ⟨tested, ?_, ?_, testedMemory⟩
    · rw [Bool.not_false, if_pos rfl, followBy_pass]
      simp [large]
    · rw [testedRegs]
      exact if_pos rfl
  | true =>
    let number := (Sequence.minusTwo63 type).toNat
    let bits := machine.lane type src
    have bound : bits < 2 ^ format.width := ValueType.bits_format float ▸ BitVec.isLt _
    have constant : loaded.lane type .xmm15 = number := by
      have same := congrArg BitVec.toNat (ValueType.word_congr loads.value)
      refine same.trans ?_
      rcases ValueType.format?_eq float with ⟨rfl, _⟩ | ⟨rfl, _⟩ <;> rfl
    have source : loaded.lane type src = bits := by
      have kept : loaded.regs src = machine.regs src := by
        rw [loads.others src apart fun _ => apart_of_banks rfl vector, testedRegs]
        exact if_neg (apart_of_banks general vector)
      rw [lane, kept]
      rfl
    let lowered := loaded.setLane type .xmm15 (format.sumOf number bits)
    have adds : loaded.compute (.sse .add type .xmm15 src) = some lowered := by
      rw [compute, if_pos rfl, float, constant, source]
      rfl
    have sum : lowered.lane type .xmm15 = format.sumOf number bits :=
      lane_setLane float (proper.sumOf_bounded (Sequence.minusTwo63_units float).1 bound)
    obtain ⟨again, tests, againRegs, againMemory, negative, _⟩ := follow_tested float lowered dst .xmm15
      (large.drop 3)
    rw [sum] at againRegs negative
    have memory : again.memory = machine.memory :=
      againMemory.trans (loads.memory.trans testedMemory)
    rw [Bool.not_true, if_neg Bool.false_ne_true, followBy_operates operates.operates]
    change ∃ after, followBy compute none loaded (.emit (.sse .add type .xmm15 src) ::
      .emit (.truncateFloat .i64 type dst .xmm15) :: .emit (.test .i64 dst dst) :: large.drop 3) = _ ∧ _
    rw [followBy_emit, adds, Option.bind_some, tests]
    change ∃ after, followBy compute none again (.jumpIf .negative (.label trap) .far :: _) = _ ∧ _
    rw [followBy_jumpIf_label, negative]
    cases sign : second.msb with
    | true =>
      refine ⟨again, ?_, ?_, memory⟩
      · rw [if_pos rfl, if_pos ⟨rfl, rfl⟩]
      · rw [againRegs]
        exact if_pos rfl
    | false =>
      let marked := again.setReg .r10 (.intMin 64)
      have held : marked.regs dst = second := by
        refine (if_neg scratch).trans ?_
        rw [againRegs]
        exact if_pos rfl
      have marks : marked.compute (.alu .or .i64 dst .r10) =
          some { marked.setReg dst (second ||| .intMin 64) with
            flags := AluOp.or.flags second (.intMin 64) (second ||| .intMin 64) } := by
        refine (marked.alu_i64 .or dst (marked.regs .r10)).trans ?_
        rw [held]
        rfl
      refine ⟨{ marked.setReg dst (second ||| .intMin 64) with
          flags := AluOp.or.flags second (.intMin 64) (second ||| .intMin 64) }, ?_, ?_, memory⟩
      · rw [if_neg Bool.false_ne_true, if_neg (by simp)]
        have moves : again.compute (.movImm .i64 .r10 (-9223372036854775808)) = some marked := rfl
        rw [followBy_emit, moves, Option.bind_some, followBy_emit, marks, Option.bind_some,
          followBy_bind, followBy_nil]
      · rw [if_pos rfl, if_neg Bool.false_ne_true]
        exact if_pos rfl

end Processor

namespace Sequence

variable {dst src : Register}

theorem format?_of_width (source : FloatWidth) : source.type.format? = some source.format := by
  cases source <;> rfl

/-- The word of a whole part that fits. -/
theorem setWidth_whole (result : IntWidth) (whole : Int) :
    (BitVec.ofInt result.bits whole).setWidth 64 = .ofNat 64 (result.wrap whole) := by
  apply BitVec.eq_of_toNat_eq
  rw [BitVec.toNat_setWidth, BitVec.toNat_ofInt, BitVec.toNat_ofNat]
  rfl

theorem unsigned64_cases {type : ValueType} {format : FloatFormat}
    (float : type.format? = some format) (bits : Nat) :
    let first := format.toWord 64 bits
    let second := format.toWord 64 (format.sumOf (minusTwo63 type).toNat bits)
    (first.msb = true ∧ second.msb = true ↔ ¬ format.WholeIn bits 0 (2 ^ 64)) ∧
      ∀ whole, format.wholePart? bits = some whole → 0 ≤ whole → whole < 2 ^ 64 →
        (if first.msb = true then if second.msb = true then second else second ||| .intMin 64
          else first) = .ofInt 64 whole := by
  have proper := ValueType.format_proper float
  have few : format.precision ≤ 63 := by
    rcases ValueType.format?_eq float with ⟨_, rfl⟩ | ⟨_, rfl⟩ <;> decide
  obtain ⟨finite, units⟩ := minusTwo63_units float
  intro first second
  have negative (pattern : Nat) : (format.toWord 64 pattern).msb = true ↔
      ¬ format.WholeIn pattern 0 (2 ^ 63) := by
    rw [← Bool.not_eq_false, format.toWord_msb pattern]
    rfl
  have firstNegative := negative bits
  have secondNegative := negative (format.sumOf (minusTwo63 type).toNat bits)
  cases is : format.wholePart? bits with
  | none =>
    have gone := proper.lowered_none finite is
    refine ⟨iff_of_true ⟨firstNegative.mpr ?_, secondNegative.mpr ?_⟩ ?_, nofun⟩
    · rintro ⟨whole, some, _⟩
      rw [is] at some
      cases some
    · rintro ⟨whole, some, _⟩
      rw [gone] at some
      cases some
    · rintro ⟨whole, some, _⟩
      rw [is] at some
      cases some
  | some whole =>
    have only (least bound : Int) : format.WholeIn bits least bound ↔ least ≤ whole ∧ whole < bound := by
      unfold FloatFormat.WholeIn
      rw [is]
      simp
    rw [only] at firstNegative ⊢
    by_cases small : 0 ≤ whole ∧ whole < 2 ^ 63
    · have plain : ¬ first.msb = true := fun msb => firstNegative.mp msb small
      refine ⟨iff_of_false (fun both => plain both.1) (by omega), fun other same _ _ => ?_⟩
      cases same
      rw [if_neg plain]
      exact FloatFormat.toWord_of_mem is (by omega) (by omega)
    · have large : first.msb = true := firstNegative.mpr small
      by_cases fits : 2 ^ 63 ≤ whole ∧ whole < 2 ^ 64
      · have lowered := proper.lowered_mem finite units is fits.1 fits.2 few
        have plain : ¬ second.msb = true :=
          fun msb => secondNegative.mp msb ⟨_, lowered, by omega, by omega⟩
        refine ⟨iff_of_false (fun both => plain both.2) (by omega), fun other same _ _ => ?_⟩
        cases same
        have isSecond : second = .ofInt 64 (whole - 2 ^ 63) :=
          FloatFormat.toWord_of_mem lowered (by omega) (by omega)
        rw [if_pos large, if_neg plain, isSecond]
        apply BitVec.eq_of_toNat_eq
        rw [BitVec.toNat_or, BitVec.toNat_ofInt, BitVec.toNat_ofInt, Nat.or_comm]
        change 2 ^ 63 ||| _ = _
        rw [← Nat.mul_one (2 ^ 63), ← Nat.two_pow_add_eq_or_of_lt (by omega)]
        omega
      · have outside := proper.lowered_not_mem finite units is (by omega)
        exact ⟨iff_of_true ⟨large, secondNegative.mpr outside⟩ (by omega),
          fun other same positive bound => by cases same; omega⟩

/-- A truncation goes to the trap exactly if the float is no number or its whole part is out of
range, and leaves the whole part in the destination else. -/
theorem truncation_correct (result : IntWidth) (source : FloatWidth) (signed : Bool)
    (general : dst.isGp = true) (vector : src.isFp = true) (apart : src ≠ .xmm15)
    (scratch : dst ≠ .r10) (trap : Label) (machine : Processor) :
    let bits := machine.lane source.type src
    ∃ after, Processor.followBy Processor.compute none machine
          (conversion (.truncate result source signed) dst src (.label trap)) =
        some (if source.format.WholeIn bits (result.range signed).1 (result.range signed).2
          then .falls after else .leaves trap after) ∧
      (∀ whole, source.format.wholePart? bits = some whole → (result.range signed).1 ≤ whole →
        whole < (result.range signed).2 → after.regs dst = .ofNat 64 (result.wrap whole)) ∧
      after.memory = machine.memory := by
  have float := format?_of_width source
  have proper := ValueType.format_proper float
  intro bits
  cases signed with
  | true =>
    have steps : conversion (.truncate result source true) dst src (.label trap) =
        .emit (.round source.type .xmm15 src .towardZero) ::
          [.emit (.truncateFloat result.type source.type dst .xmm15),
            .emit (.convertInt source.type result.type .xmm14 dst)] ++
          Processor.checkBack source.type trap := by
      cases result <;> rfl
    have range : result.range true = (-2 ^ (result.bits - 1), 2 ^ (result.bits - 1)) := by
      cases result <;> rfl
    have small : (source.format.toWord result.bits bits).toInt.natAbs ≤ 2 ^ 64 := by
      generalize source.format.toWord result.bits bits = word
      have least := BitVec.le_toInt word
      have most := @BitVec.toInt_lt _ word
      cases result with
      | w32 => change -2 ^ 31 ≤ _ at least; change _ < 2 ^ 31 at most; omega
      | w64 => change -2 ^ 63 ≤ _ at least; change _ < 2 ^ 63 at most; omega
    obtain ⟨after, follows, word, memory⟩ := Processor.follow_back float
      (Processor.returns_signed float general result bits) small trap
    refine ⟨after, ?_, fun whole is least most => ?_, memory⟩
    · rw [steps, follows, range]
      exact congrArg some (if_congr (proper.signed_back result bits) rfl rfl)
    · rw [range] at least most
      rw [word, FloatFormat.toWord_of_mem is least most, setWidth_whole]
  | false =>
    cases result with
    | w32 =>
      have steps : conversion (.truncate .w32 source false) dst src (.label trap) =
          .emit (.round source.type .xmm15 src .towardZero) ::
            [.emit (.truncateFloat .i64 source.type dst .xmm15), .emit (.mov .i32 dst dst),
              .emit (.convertInt source.type .i64 .xmm14 dst)] ++
            Processor.checkBack source.type trap := rfl
      have small : (source.format.toWord 64 bits).toNat % 2 ^ 32 < 2 ^ 32 := Nat.mod_lt _ (by decide)
      obtain ⟨after, follows, word, memory⟩ := Processor.follow_back float
        (Processor.returns_unsigned float general bits) (by omega) trap
      refine ⟨after, ?_, fun whole is least most => ?_, memory⟩
      · rw [steps, follows]
        exact congrArg some (if_congr (proper.unsigned_back bits) rfl rfl)
      · change 0 ≤ whole at least
        change whole < 2 ^ 32 at most
        rw [word, FloatFormat.toWord_of_mem is (by omega) (by omega), ← setWidth_whole]
        apply BitVec.eq_of_toNat_eq
        rw [BitVec.toNat_setWidth, BitVec.toNat_ofNat, BitVec.toNat_ofInt, BitVec.toNat_ofInt]
        change _ = (whole % (2 ^ 32 : Nat)).toNat % 2 ^ 64
        omega
    | w64 =>
      obtain ⟨after, follows, word, memory⟩ := Processor.follow_truncateUnsigned64 float general
        vector apart scratch trap machine
      obtain ⟨refuses, values⟩ := unsigned64_cases float bits
      refine ⟨after, follows.trans ?_, fun whole is least most => ?_, memory⟩
      · change _ = some (if source.format.WholeIn bits 0 (2 ^ 64) then _ else _)
        exact congrArg some ((if_congr refuses rfl rfl).trans (ite_not _ _ _))
      · rw [word, values whole is least most, ← setWidth_whole]
        exact (BitVec.setWidth_eq _).symm

/-- The largest double below `2 ^ 64` is not refused. -/
theorem truncation_correct_largest :
    let machine : Processor := { regs := fun _ => 0x43efffffffffffff, memory := fun _ => 0 }
    ∃ after, Processor.followBy Processor.compute none machine
          (conversion (.truncate .w64 .w64 false) .rax (.xmm 0) (.label ⟨0⟩)) = some (.falls after) ∧
      after.regs .rax = 18446744073709549568 := by
  intro machine
  obtain ⟨after, follows, value, _⟩ := @truncation_correct .rax (.xmm 0) .w64 .w64 false
    rfl rfl (by decide) (by decide) ⟨0⟩ machine
  have is : FloatFormat.double.wholePart? 0x43efffffffffffff = some 18446744073709549568 := by
    decide
  refine ⟨after, follows.trans (congrArg some (if_pos ?_)), ?_⟩
  · exact ⟨_, is, by decide, by decide⟩
  · exact value _ is (by decide) (by decide)

end Sequence

end WasmX64
