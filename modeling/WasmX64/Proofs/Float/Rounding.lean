import Mathlib.Order.Monotone.Basic
import Mathlib.Tactic.Ring
import WasmX64.Float.Arithmetic
import WasmX64.Machine.Instruction

/-!
# Rounding to a precision

A finite pattern denotes a multiple of the smallest positive number of its format.  Counted in
these units, the nearest pattern to a number is the number rounded to the precision of the format,
and patterns are ordered as what they denote.
-/

namespace WasmX64

def ValueType.format? : ValueType → Option FloatFormat
  | .f32 => some .single
  | .f64 => some .double
  | _ => none

theorem ValueType.format?_eq {type : ValueType} {format : FloatFormat}
    (float : type.format? = some format) :
    (type = .f32 ∧ format = .single) ∨ (type = .f64 ∧ format = .double) := by
  cases type with
  | f32 => exact .inl ⟨rfl, (Option.some.inj float).symm⟩
  | f64 => exact .inr ⟨rfl, (Option.some.inj float).symm⟩
  | i32 | i64 | unknown => cases float

namespace FloatFormat

/-- A number rounded to a number of significant bits, to nearest with ties to even. -/
def rounded (precision value : Nat) : Nat :=
  let unit := 2 ^ (value.log2 + 1 - precision)
  roundQuotient value unit * unit

/-! ## Rounded quotients -/

theorem roundQuotient_mul_right (numerator denominator : Nat) {factor : Nat}
    (positive : 0 < factor) :
    roundQuotient (numerator * factor) (denominator * factor) =
      roundQuotient numerator denominator := by
  have scaled (left right : Nat) : left * factor < 2 * (right * factor) ↔ left < 2 * right := by
    rw [← Nat.mul_assoc]
    exact Nat.mul_lt_mul_right positive
  have same (left right : Nat) : 2 * (left * factor) = right * factor ↔ 2 * left = right := by
    rw [← Nat.mul_assoc]
    exact Nat.mul_left_inj (Nat.ne_of_gt positive)
  unfold roundQuotient
  rw [Nat.mul_div_mul_right _ _ positive, Nat.mul_mod_mul_right]
  simp only [scaled, same]

theorem roundQuotient_mul (quotient : Nat) {denominator : Nat} (positive : 0 < denominator) :
    roundQuotient (quotient * denominator) denominator = quotient := by
  unfold roundQuotient
  rw [Nat.mul_mod_left, Nat.mul_div_cancel _ positive, if_neg (by omega)]

theorem roundQuotient_one (numerator : Nat) : roundQuotient numerator 1 = numerator := by
  rw [← Nat.mul_one numerator, roundQuotient_mul _ Nat.one_pos, Nat.mul_one]

theorem le_roundQuotient {numerator denominator quotient : Nat} (positive : 0 < denominator)
    (least : quotient * denominator ≤ numerator) :
    quotient ≤ roundQuotient numerator denominator := by
  have below := (Nat.le_div_iff_mul_le positive).mpr least
  unfold roundQuotient
  dsimp only
  split <;> omega

theorem roundQuotient_le {numerator denominator quotient : Nat} (positive : 0 < denominator)
    (most : numerator ≤ quotient * denominator) :
    roundQuotient numerator denominator ≤ quotient := by
  rcases Nat.eq_or_lt_of_le most with rfl | less
  · exact Nat.le_of_eq (roundQuotient_mul quotient positive)
  · have below := (Nat.div_lt_iff_lt_mul positive).mpr less
    unfold roundQuotient
    dsimp only
    split <;> omega

/-! ## Rounded numbers -/

variable {precision value : Nat}

theorem log2_mul_pow {value : Nat} (positive : 0 < value) (shift : Nat) :
    (value * 2 ^ shift).log2 = value.log2 + shift := by
  have some := Nat.ne_of_gt positive
  have least := Nat.mul_le_mul_right (2 ^ shift) (Nat.log2_self_le some)
  have most := Nat.mul_lt_mul_of_pos_right (@Nat.lt_log2_self value) (Nat.two_pow_pos shift)
  rw [← Nat.pow_add] at least most
  rw [Nat.log2_eq_iff (Nat.mul_ne_zero some (Nat.ne_of_gt (Nat.two_pow_pos shift)))]
  exact ⟨least, by rwa [Nat.add_right_comm]⟩

theorem rounded_zero : rounded precision 0 = 0 := by
  rw [rounded, Nat.log2_zero]
  simp [roundQuotient]

theorem rounded_small (small : value < 2 ^ precision) : rounded precision value = value := by
  rcases Nat.eq_zero_or_pos value with rfl | positive
  · exact rounded_zero
  · have few := (Nat.log2_lt (Nat.ne_of_gt positive)).mpr small
    rw [rounded, show value.log2 + 1 - precision = 0 by omega, Nat.pow_zero, roundQuotient_one,
      Nat.mul_one]

/-- Rounding does not depend on the scale. -/
theorem rounded_mul_pow (precision value shift : Nat) :
    rounded precision (value * 2 ^ shift) = rounded precision value * 2 ^ shift := by
  rcases Nat.eq_zero_or_pos value with rfl | positive
  · rw [Nat.zero_mul, rounded_zero, Nat.zero_mul]
  have top := log2_mul_pow positive shift
  rcases Nat.lt_or_ge value.log2 precision with few | many
  · rw [rounded_small ((Nat.log2_lt (Nat.ne_of_gt positive)).mp few), rounded, top]
    -- the unit in the last place divides the scale
    have split : 2 ^ shift = 2 ^ (shift - (value.log2 + shift + 1 - precision)) *
        2 ^ (value.log2 + shift + 1 - precision) := by
      rw [← Nat.pow_add]
      congr 1
      omega
    rw [split, ← Nat.mul_assoc]
    exact congrArg (· * _) (roundQuotient_mul _ (Nat.two_pow_pos _))
  · rw [rounded, rounded, top,
      show value.log2 + shift + 1 - precision = value.log2 + 1 - precision + shift by omega,
      Nat.pow_add, roundQuotient_mul_right _ _ (Nat.two_pow_pos _), Nat.mul_assoc]

theorem rounded_exact (small : value < 2 ^ precision) (shift : Nat) :
    rounded precision (value * 2 ^ shift) = value * 2 ^ shift := by
  rw [rounded_mul_pow, rounded_small small]

/-- A number up to a power of two is rounded to a number up to it. -/
theorem rounded_le {bits : Nat} (positive : 0 < precision) (most : value ≤ 2 ^ bits) :
    rounded precision value ≤ 2 ^ bits := by
  rcases Nat.eq_or_lt_of_le most with rfl | less
  · have whole := rounded_exact (Nat.one_lt_two_pow (Nat.ne_of_gt positive)) bits
    rw [Nat.one_mul] at whole
    exact Nat.le_of_eq whole
  rcases Nat.eq_zero_or_pos value with rfl | some
  · rw [rounded_zero]
    exact Nat.zero_le _
  have few : value.log2 < bits := (Nat.log2_lt (Nat.ne_of_gt some)).mpr less
  have split : 2 ^ bits =
      2 ^ (bits - (value.log2 + 1 - precision)) * 2 ^ (value.log2 + 1 - precision) := by
    rw [← Nat.pow_add]
    congr 1
    omega
  rw [split] at most ⊢
  exact Nat.mul_le_mul_right _ (roundQuotient_le (Nat.two_pow_pos _) most)

/-- A number from a power of two on is rounded to a number from it on. -/
theorem le_rounded {bits : Nat} (positive : 0 < precision) (least : 2 ^ bits ≤ value) :
    2 ^ bits ≤ rounded precision value := by
  have some : value ≠ 0 := Nat.ne_of_gt (Nat.lt_of_lt_of_le (Nat.two_pow_pos bits) least)
  have many : bits ≤ value.log2 := (Nat.le_log2 some).mpr least
  have split : 2 ^ value.log2 =
      2 ^ (value.log2 - (value.log2 + 1 - precision)) * 2 ^ (value.log2 + 1 - precision) := by
    rw [← Nat.pow_add]
    congr 1
    omega
  have top : 2 ^ value.log2 ≤ value := Nat.log2_self_le some
  calc
    2 ^ bits ≤ 2 ^ value.log2 := Nat.pow_le_pow_right (by decide) many
    _ ≤ rounded precision value := by
      rw [split] at top ⊢
      exact Nat.mul_le_mul_right _ (le_roundQuotient (Nat.two_pow_pos _) top)

theorem rounded_rounded (positive : 0 < precision) (value : Nat) :
    rounded precision (rounded precision value) = rounded precision value := by
  have most : value ≤ 2 ^ precision * 2 ^ (value.log2 + 1 - precision) := by
    rw [← Nat.pow_add]
    exact Nat.le_of_lt (Nat.lt_of_lt_of_le Nat.lt_log2_self
      (Nat.pow_le_pow_right (by decide) (by omega)))
  have few := roundQuotient_le (Nat.two_pow_pos _) most
  rw [rounded.eq_1 precision value]
  rcases Nat.eq_or_lt_of_le few with all | less
  · have whole := rounded_exact (Nat.one_lt_two_pow (Nat.ne_of_gt positive))
      (precision + (value.log2 + 1 - precision))
    rwa [Nat.one_mul, Nat.pow_add, ← all] at whole
  · exact rounded_exact less _

/-- Half of a number, with the bit that is lost kept in the lowest place, has the same rounded
quotient by a unit that is a multiple of four. -/
theorem roundQuotient_sticky {value half grain : Nat} (positive : 0 < grain)
    (halved : half / 2 = value / 4)
    (lowest : half % 2 = 1 ↔ value / 2 % 2 = 1 ∨ value % 2 = 1) :
    roundQuotient half (4 * grain) = roundQuotient value (8 * grain) := by
  have same : half / (4 * grain) = value / (8 * grain) := by
    rw [show 4 * grain = 2 * (2 * grain) by omega, show 8 * grain = 4 * (2 * grain) by omega,
      ← Nat.div_div_eq_div_mul half, ← Nat.div_div_eq_div_mul value, halved]
  have rest := Nat.div_add_mod value (8 * grain)
  have halfRest := Nat.div_add_mod half (4 * grain)
  have bound := Nat.mod_lt value (show 0 < 8 * grain by omega)
  rw [same] at halfRest
  unfold roundQuotient
  rw [same]
  generalize value / (8 * grain) = quotient at rest halfRest ⊢
  generalize value % (8 * grain) = remainder at rest bound ⊢
  generalize half % (4 * grain) = halfRemainder at halfRest ⊢
  rw [Nat.mul_assoc] at rest halfRest
  generalize grain * quotient = whole at rest halfRest
  have up : 4 * grain < 2 * halfRemainder ↔ 8 * grain < 2 * remainder := by omega
  have tie : 2 * halfRemainder = 4 * grain ↔ 2 * remainder = 8 * grain := by omega
  simp only [up, tie]

/-- Half of a number, with the bit that is lost kept in the lowest place, is rounded like the
number as long as at least three bits are dropped. -/
theorem rounded_sticky (dropped : precision + 3 ≤ value.log2 + 1) :
    rounded precision (value / 2 ||| value % 2) * 2 = rounded precision value := by
  have some : value ≠ 0 := by
    rintro rfl
    rw [Nat.log2_zero] at dropped
    omega
  have large : 2 ^ 2 ≤ value := (Nat.le_log2 some).mp (by omega)
  have halved : (value / 2 ||| value % 2) / 2 = value / 4 := by
    rw [Nat.or_div_two, Nat.div_div_eq_div_mul, show value % 2 / 2 = 0 by omega, Nat.or_zero]
  have lowest : (value / 2 ||| value % 2) % 2 = 1 ↔ value / 2 % 2 = 1 ∨ value % 2 = 1 := by
    rw [Nat.or_mod_two_eq_one, Nat.mod_mod]
  generalize value / 2 ||| value % 2 = half at halved lowest ⊢
  have top : value.log2 = half.log2 + 1 := by
    rw [Nat.log2_def value, if_pos (by omega), Nat.log2_def (value / 2), if_pos (by omega),
      Nat.log2_def half, if_pos (by omega), halved, Nat.div_div_eq_div_mul]
  obtain ⟨extra, many⟩ : ∃ extra, value.log2 + 1 - precision = 3 + extra :=
    ⟨value.log2 + 1 - precision - 3, by omega⟩
  rw [rounded, rounded, many, show half.log2 + 1 - precision = 2 + extra by omega, Nat.pow_add,
    Nat.pow_add, roundQuotient_sticky (Nat.two_pow_pos extra) halved lowest, Nat.mul_assoc]
  congr 1
  omega

/-! ## Patterns -/

/-- A format whose numbers reach far above one and below it. -/
structure Proper (format : FloatFormat) : Prop where
  precise : 1 < format.precision
  wide : 64 < 2 ^ (format.exponentBits - 1)

/-- The smallest positive number is one divided by this power of two. -/
def depth (format : FloatFormat) : Nat := 2 ^ (format.exponentBits - 1) + format.precision - 3

/-- What a finite magnitude denotes, in units of the smallest positive number. -/
def scaled (format : FloatFormat) (magnitude : Nat) : Nat :=
  if magnitude < format.hiddenBit then magnitude
  else (format.hiddenBit + magnitude % format.hiddenBit) * 2 ^ (magnitude / format.hiddenBit - 1)

/-- What a finite pattern denotes, in units of the smallest positive number. -/
def units (format : FloatFormat) (bits : Nat) : Int :=
  if format.isNegative bits then -(format.scaled (format.magnitude bits) : Int)
  else format.scaled (format.magnitude bits)

/-- The pattern denotes a number. -/
def IsFinite (format : FloatFormat) (bits : Nat) : Prop := format.magnitude bits < format.infinity

variable {format : FloatFormat} {bits magnitude : Nat}

theorem hiddenBit_pos (format : FloatFormat) : 0 < format.hiddenBit := Nat.two_pow_pos _

theorem Proper.two_hiddenBit (proper : format.Proper) :
    2 * format.hiddenBit = 2 ^ format.precision := by
  have precise := proper.precise
  rw [hiddenBit, Nat.mul_comm]
  change 2 ^ (format.precision - 1 + 1) = _
  rw [Nat.sub_add_cancel (by omega)]

theorem Proper.leastExponent (proper : format.Proper) :
    format.leastExponent = -(format.depth : Int) := by
  have wide := proper.wide
  unfold FloatFormat.leastExponent depth
  change 3 - ((2 ^ (format.exponentBits - 1) : Nat) : Int) - _ = _
  omega

theorem Proper.signBit (proper : format.Proper) :
    format.signBit = format.infinity + format.hiddenBit := by
  have wide := proper.wide
  have precise := proper.precise
  have top := Nat.two_pow_pos format.exponentBits
  have split : format.width - 1 = format.exponentBits + (format.precision - 1) := by
    unfold width
    omega
  rw [FloatFormat.signBit, infinity, hiddenBit, split]
  change 2 ^ (format.exponentBits + (format.precision - 1)) =
    (2 ^ format.exponentBits - 1) * 2 ^ (format.precision - 1) + 2 ^ (format.precision - 1)
  rw [Nat.pow_add, ← Nat.succ_mul, Nat.succ_eq_add_one, Nat.sub_add_cancel top]

/-- Between two powers of two the patterns denote numbers at equal distances. -/
theorem scaled_line {place significand : Nat} (least : format.hiddenBit ≤ significand)
    (most : significand ≤ 2 * format.hiddenBit) :
    format.scaled (place * format.hiddenBit + significand) = significand * 2 ^ place := by
  have positive := format.hiddenBit_pos
  unfold scaled
  rw [if_neg (by omega)]
  rcases Nat.eq_or_lt_of_le most with rfl | less
  · rw [← Nat.add_mul, Nat.mul_mod_left, Nat.mul_div_cancel _ positive,
      show place + 2 - 1 = place + 1 by omega, Nat.pow_succ, Nat.add_zero,
      Nat.mul_comm (2 ^ place), ← Nat.mul_assoc, Nat.mul_comm format.hiddenBit]
  · have split : place * format.hiddenBit + significand =
        significand - format.hiddenBit + (place + 1) * format.hiddenBit := by
      rw [Nat.succ_mul]
      omega
    rw [split, Nat.add_mul_mod_self_right, Nat.mod_eq_of_lt (by omega),
      Nat.add_mul_div_right _ _ positive, Nat.div_eq_of_lt (by omega), Nat.zero_add,
      Nat.add_sub_cancel, Nat.add_sub_cancel' least]

theorem scaled_small (small : magnitude ≤ format.hiddenBit) : format.scaled magnitude = magnitude := by
  rcases Nat.eq_or_lt_of_le small with rfl | less
  · have line := @scaled_line format 0 format.hiddenBit (Nat.le_refl _) (by omega)
    rwa [Nat.zero_mul, Nat.zero_add, Nat.pow_zero, Nat.mul_one] at line
  · exact if_pos less

/-- Patterns are ordered as what they denote. -/
theorem scaled_strictMono (format : FloatFormat) : StrictMono format.scaled := by
  refine strictMono_nat_of_lt_succ fun magnitude => ?_
  have positive := format.hiddenBit_pos
  rcases Nat.lt_or_ge magnitude format.hiddenBit with small | large
  · rw [scaled_small small, scaled_small (Nat.le_of_lt small)]
    exact Nat.lt_succ_self magnitude
  · -- the pattern and the next one lie on one line
    have rest := Nat.mod_lt magnitude positive
    obtain ⟨place, isPlace⟩ : ∃ place, magnitude / format.hiddenBit = place + 1 :=
      Nat.exists_eq_succ_of_ne_zero (Nat.ne_of_gt (Nat.div_pos large positive))
    have split : magnitude = place * format.hiddenBit +
        (format.hiddenBit + magnitude % format.hiddenBit) := by
      have whole := Nat.div_add_mod magnitude format.hiddenBit
      rw [isPlace, Nat.mul_succ, Nat.mul_comm] at whole
      omega
    generalize magnitude % format.hiddenBit = fraction at rest split
    rw [split, Nat.add_assoc, scaled_line (by omega) (by omega), scaled_line (by omega) (by omega)]
    exact Nat.mul_lt_mul_of_pos_right (by omega) (Nat.two_pow_pos place)

/-- A finite pattern denotes its units. -/
theorem Proper.view_finite (proper : format.Proper) (finite : format.IsFinite bits) :
    ∃ part above : Nat, format.view bits =
        .finite (format.isNegative bits) part (above - format.depth) ∧
      part * 2 ^ above = format.scaled (format.magnitude bits) ∧ part < 2 ^ format.precision := by
  have top := proper.two_hiddenBit
  have whole := Nat.div_add_mod (format.magnitude bits) format.hiddenBit
  have rest := Nat.mod_lt (format.magnitude bits) format.hiddenBit_pos
  unfold IsFinite at finite
  unfold view scaled
  dsimp only
  rw [proper.leastExponent, ← magnitude, if_neg (Nat.not_lt.mpr (Nat.le_of_lt finite)),
    if_neg (Nat.ne_of_lt finite)]
  by_cases small : format.magnitude bits < format.hiddenBit
  · rw [if_pos (Nat.div_eq_of_lt small), if_pos small, Nat.mod_eq_of_lt small]
    exact ⟨_, 0, by simp, Nat.mul_one _, by omega⟩
  · have normal := Nat.div_pos (Nat.le_of_not_lt small) format.hiddenBit_pos
    rw [if_neg (Nat.ne_of_gt normal), if_neg small]
    refine ⟨_, format.magnitude bits / format.hiddenBit - 1, ?_, rfl, by omega⟩
    congr 1
    omega

theorem Proper.wholePart?_eq (proper : format.Proper) (finite : format.IsFinite bits) :
    format.wholePart? bits = some ((format.units bits).tdiv (2 ^ format.depth : Nat)) := by
  obtain ⟨part, above, views, denotes, _⟩ := proper.view_finite finite
  have whole : (if 0 ≤ (above - format.depth : Int) then
        part * Nat.pow 2 (above - format.depth : Int).toNat
      else part / Nat.pow 2 (-(above - format.depth : Int)).toNat) =
      format.scaled (format.magnitude bits) / 2 ^ format.depth := by
    rw [← denotes]
    split
    · rename_i large
      have split : above = (above - format.depth : Int).toNat + format.depth := by omega
      rw [split, Nat.pow_add, ← Nat.mul_assoc, Nat.mul_div_cancel _ (Nat.two_pow_pos _), ← split]
      rfl
    · have split : format.depth = (-(above - format.depth : Int)).toNat + above := by omega
      rw [split, Nat.pow_add, Nat.mul_div_mul_right _ _ (Nat.two_pow_pos above), ← split]
      rfl
  rw [wholePart?, views]
  dsimp only
  rw [whole, units]
  cases format.isNegative bits with
  | true => simp [Int.neg_tdiv]
  | false => simp

theorem view_infinite (infinite : format.magnitude bits = format.infinity) :
    format.view bits = .infinite (format.isNegative bits) := by
  unfold view
  dsimp only
  rw [← magnitude, infinite, if_neg (Nat.lt_irrefl _), if_pos rfl]

theorem view_nan (nan : format.infinity < format.magnitude bits) :
    format.view bits = .notANumber := by
  unfold view
  dsimp only
  rw [← magnitude, if_pos nan]

theorem view_ne_nan (number : format.magnitude bits ≤ format.infinity) :
    format.view bits ≠ .notANumber := by
  unfold view
  dsimp only
  rw [← magnitude, if_neg (Nat.not_lt.mpr number)]
  split
  · exact nofun
  · split <;> exact nofun

theorem wholePart?_none (infinite : format.infinity ≤ format.magnitude bits) :
    format.wholePart? bits = none := by
  rcases Nat.eq_or_lt_of_le infinite with same | nan
  · rw [wholePart?, view_infinite same.symm]
  · rw [wholePart?, view_nan nan]

theorem binaryLog_pow {numerator : Nat} (positive : numerator ≠ 0) (places : Nat) :
    binaryLog numerator (2 ^ places) = numerator.log2 - places := by
  have least := Nat.log2_self_le positive
  have most := @Nat.lt_log2_self numerator
  unfold binaryLog
  rw [Nat.log2_two_pow]
  dsimp only
  refine if_neg ?_
  split
  · change ¬ numerator < 2 ^ places * 2 ^ _
    rwa [← Nat.pow_add, Nat.not_lt,
      show places + (numerator.log2 - places : Int).toNat = numerator.log2 by omega]
  · change ¬ numerator * 2 ^ _ < _
    rw [Nat.not_lt]
    calc
      2 ^ places = 2 ^ numerator.log2 * 2 ^ (-(numerator.log2 - places : Int)).toNat := by
        rw [← Nat.pow_add]
        congr 1
        omega
      _ ≤ _ := Nat.mul_le_mul_right _ least

theorem Proper.nearest_pow (proper : format.Proper) {numerator places : Nat}
    (few : places ≤ format.depth) :
    ∃ pattern, format.nearest numerator (2 ^ places) = min format.infinity pattern ∧
      format.scaled pattern =
        rounded format.precision (numerator * 2 ^ (format.depth - places)) := by
  have precise := proper.precise
  have wide := proper.wide
  have top := proper.two_hiddenBit
  rcases Nat.eq_zero_or_pos numerator with rfl | positive
  · refine ⟨0, by simp [nearest], ?_⟩
    rw [Nat.zero_mul, rounded_zero, scaled_small (Nat.zero_le _)]
  let amount := numerator * 2 ^ (format.depth - places)
  have log : amount.log2 = numerator.log2 + (format.depth - places) :=
    log2_mul_pow positive _
  let drop := amount.log2 + 1 - format.precision
  let exponent : Int := drop - format.depth
  have isExponent : max (-(format.depth : Int))
      (numerator.log2 - places - (format.precision - 1 : Nat)) = exponent := by
    omega
  have isSignificand : (if 0 ≤ exponent then
        roundQuotient numerator (2 ^ places * Nat.pow 2 exponent.toNat)
      else roundQuotient (numerator * Nat.pow 2 (-exponent).toNat) (2 ^ places)) =
      roundQuotient amount (2 ^ drop) := by
    split
    · rw [← roundQuotient_mul_right _ _ (Nat.two_pow_pos (format.depth - places))]
      change roundQuotient amount (2 ^ places * 2 ^ _ * _) = _
      rw [← Nat.pow_add, ← Nat.pow_add]
      congr 2
      omega
    · rw [← roundQuotient_mul_right _ _ (Nat.two_pow_pos drop),
        ← roundQuotient_mul_right amount _ (Nat.two_pow_pos places)]
      change roundQuotient (numerator * 2 ^ _ * _) _ = roundQuotient (numerator * 2 ^ _ * _) _
      rw [Nat.mul_assoc, Nat.mul_assoc, ← Nat.pow_add, ← Nat.pow_add, ← Nat.pow_add, ← Nat.pow_add,
        show (-exponent).toNat + drop = format.depth - places + places by omega,
        Nat.add_comm places]
  refine ⟨drop * format.hiddenBit + roundQuotient amount (2 ^ drop), ?_, ?_⟩
  · unfold nearest
    rw [if_neg (Nat.ne_of_gt positive), proper.leastExponent, binaryLog_pow (Nat.ne_of_gt positive)]
    dsimp only
    rw [isExponent, isSignificand]
    congr 3
    omega
  · change _ = roundQuotient amount (2 ^ drop) * 2 ^ drop
    have some : amount ≠ 0 := by
      have bound := Nat.mul_pos positive (Nat.two_pow_pos (format.depth - places))
      omega
    have least := Nat.log2_self_le some
    have most := @Nat.lt_log2_self amount
    rcases Nat.eq_zero_or_pos drop with none | dropped
    · have small : amount < 2 ^ format.precision := (Nat.log2_lt some).mp (by omega)
      rw [none, Nat.pow_zero, roundQuotient_one, Nat.mul_one, Nat.zero_mul, Nat.zero_add]
      rcases Nat.le_total amount format.hiddenBit with low | high
      · exact scaled_small low
      · have line := @scaled_line format 0 amount high (by omega)
        rwa [Nat.zero_mul, Nat.zero_add, Nat.pow_zero, Nat.mul_one] at line
    · refine scaled_line (le_roundQuotient (Nat.two_pow_pos _) ?_)
        (roundQuotient_le (Nat.two_pow_pos _) ?_)
      · change 2 ^ (format.precision - 1) * 2 ^ drop ≤ amount
        rwa [← Nat.pow_add, show format.precision - 1 + drop = amount.log2 by omega]
      · rw [top, ← Nat.pow_add, show format.precision + drop = amount.log2 + 1 by omega]
        exact Nat.le_of_lt most

theorem Proper.nearestScaled_eq (proper : format.Proper) (significand above : Nat) :
    ∃ pattern, format.nearestScaled significand (above - format.depth) =
        min format.infinity pattern ∧
      format.scaled pattern = rounded format.precision (significand * 2 ^ above) := by
  unfold nearestScaled
  split
  · rename_i large
    obtain ⟨pattern, nearest, scaled⟩ := @Proper.nearest_pow format proper
      (significand * 2 ^ (above - format.depth : Int).toNat) 0 (Nat.zero_le _)
    refine ⟨pattern, nearest, scaled.trans ?_⟩
    rw [Nat.mul_assoc, ← Nat.pow_add,
      show (above - format.depth : Int).toNat + (format.depth - 0) = above by omega]
  · obtain ⟨pattern, nearest, scaled⟩ := @Proper.nearest_pow format proper significand
      (-(above - format.depth : Int)).toNat (by omega)
    refine ⟨pattern, nearest, scaled.trans ?_⟩
    rw [show format.depth - (-(above - format.depth : Int)).toNat = above by omega]

/-- Numbers up to `2 ^ 64` are far from infinity. -/
theorem Proper.finite_of_scaled (proper : format.Proper)
    (small : format.scaled magnitude ≤ 2 ^ (64 + format.depth)) : magnitude < format.infinity := by
  have precise := proper.precise
  have wide := proper.wide
  have double : 2 ^ format.exponentBits = 2 * 2 ^ (format.exponentBits - 1) := by
    have some : format.exponentBits ≠ 0 := by
      intro none
      rw [none] at wide
      omega
    rw [Nat.mul_comm, ← Nat.pow_succ, Nat.succ_eq_add_one, Nat.sub_add_cancel (by omega)]
  have top : format.infinity = (2 ^ format.exponentBits - 2) * format.hiddenBit + format.hiddenBit := by
    rw [← Nat.succ_mul, infinity]
    congr 1
    change 2 ^ format.exponentBits - 1 = _
    omega
  refine (scaled_strictMono format).lt_iff_lt.mp (Nat.lt_of_le_of_lt small ?_)
  rw [top, scaled_line (Nat.le_refl _) (by omega)]
  change _ < 2 ^ (format.precision - 1) * 2 ^ _
  rw [← Nat.pow_add]
  refine Nat.pow_lt_pow_right (by decide) ?_
  unfold depth
  omega

theorem Proper.withSign_fields (proper : format.Proper) (negative : Bool)
    (small : magnitude ≤ format.infinity) :
    format.isNegative (format.withSign negative magnitude) = negative ∧
      format.magnitude (format.withSign negative magnitude) = magnitude := by
  have below : magnitude < format.signBit := by
    have positive := format.hiddenBit_pos
    rw [proper.signBit]
    omega
  unfold isNegative FloatFormat.magnitude withSign
  cases negative with
  | true =>
    rw [if_pos rfl, Nat.add_mod_left, Nat.mod_eq_of_lt below, Nat.add_div_left _ (by omega),
      Nat.div_eq_of_lt below]
    exact ⟨rfl, rfl⟩
  | false =>
    rw [if_neg Bool.false_ne_true, Nat.mod_eq_of_lt below, Nat.div_eq_of_lt below]
    exact ⟨rfl, rfl⟩

/-- A pattern put together from a sign and what it denotes. -/
theorem Proper.units_withSign (proper : format.Proper) (negative : Bool)
    (small : magnitude ≤ format.infinity) :
    format.units (format.withSign negative magnitude) =
      if negative then -(format.scaled magnitude : Int) else format.scaled magnitude := by
  obtain ⟨sign, same⟩ := proper.withSign_fields negative small
  rw [units, sign, same]

/-! ## Operations -/

/-- The nearest pattern to an integer. -/
theorem Proper.ofInt_eq (proper : format.Proper) {value : Int} (small : value.natAbs ≤ 2 ^ 64) :
    format.IsFinite (format.ofInt value) ∧
      format.isNegative (format.ofInt value) = decide (value < 0) ∧
      format.units (format.ofInt value) =
        value.sign * rounded format.precision value.natAbs * (2 ^ format.depth : Nat) := by
  obtain ⟨pattern, nearest, scaled⟩ := @Proper.nearest_pow format proper value.natAbs 0 (Nat.zero_le _)
  rw [Nat.sub_zero, rounded_mul_pow] at scaled
  have positive : 0 < format.precision := Nat.lt_of_succ_lt proper.precise
  have finite : pattern < format.infinity := by
    refine proper.finite_of_scaled ?_
    rw [scaled, Nat.pow_add]
    exact Nat.mul_le_mul_right _ (rounded_le positive small)
  rw [Nat.pow_zero, Nat.min_eq_right (Nat.le_of_lt finite)] at nearest
  rw [IsFinite, ofInt, nearest, (proper.withSign_fields _ (Nat.le_of_lt finite)).2,
    (proper.withSign_fields _ (Nat.le_of_lt finite)).1,
    proper.units_withSign _ (Nat.le_of_lt finite), scaled]
  refine ⟨finite, rfl, ?_⟩
  rcases Int.lt_trichotomy value 0 with less | rfl | more
  · rw [if_pos (decide_eq_true less), Int.sign_eq_neg_one_of_neg less]
    push_cast
    ring
  · simp [rounded_zero]
  · rw [if_neg (by simpa using Int.le_of_lt more), Int.sign_eq_one_of_pos more]
    push_cast
    ring

theorem Proper.roundWhole_eq (proper : format.Proper) (finite : format.IsFinite bits) :
    format.IsFinite (format.roundWhole .towardZero bits) ∧
      format.units (format.roundWhole .towardZero bits) =
        (format.units bits).tdiv (2 ^ format.depth : Nat) * (2 ^ format.depth : Nat) := by
  have signed (negative : Bool) (amount : Nat) :
      (if negative then -(amount : Int) else amount).tdiv (2 ^ format.depth : Nat) *
          (2 ^ format.depth : Nat) =
        if negative then -((amount / 2 ^ format.depth * 2 ^ format.depth : Nat) : Int)
        else (amount / 2 ^ format.depth * 2 ^ format.depth : Nat) := by
    cases negative with
    | true => simp [Int.neg_tdiv]
    | false => simp
  obtain ⟨part, above, views, denotes, small⟩ := proper.view_finite finite
  rw [roundWhole, views]
  dsimp only
  split
  · rename_i large
    refine ⟨finite, ?_⟩
    rw [units, signed, ← denotes, Nat.div_mul_cancel]
    exact Nat.dvd_mul_left_of_dvd (Nat.pow_dvd_pow 2 (by omega)) part
  · have isWhole : part / 2 ^ (format.depth - above) =
        format.scaled (format.magnitude bits) / 2 ^ format.depth := by
      have split : 2 ^ format.depth = 2 ^ (format.depth - above) * 2 ^ above := by
        rw [← Nat.pow_add, Nat.sub_add_cancel (by omega)]
      rw [← denotes, split, Nat.mul_div_mul_right _ _ (Nat.two_pow_pos above)]
    obtain ⟨pattern, nearest, scaled⟩ := @Proper.nearest_pow format proper
      (part / 2 ^ (format.depth - above)) 0 (Nat.zero_le _)
    rw [Nat.sub_zero, rounded_exact (Nat.lt_of_le_of_lt (Nat.div_le_self _ _) small),
      isWhole] at scaled
    have within : pattern ≤ format.magnitude bits := by
      refine (scaled_strictMono format).le_iff_le.mp ?_
      rw [scaled]
      exact Nat.div_mul_le_self _ _
    have below : pattern ≤ format.infinity := Nat.le_trans within (Nat.le_of_lt finite)
    have rounds : format.nearest (Rounding.towardZero.quotient (format.isNegative bits) part
        (Nat.pow 2 (-(above - format.depth : Int)).toNat)) 1 = pattern := by
      rw [Nat.pow_zero, Nat.min_eq_right below] at nearest
      rw [← nearest, show (-(above - format.depth : Int)).toNat = format.depth - above by omega]
      rfl
    rw [rounds, IsFinite, (proper.withSign_fields _ below).2, proper.units_withSign _ below,
      scaled, units, signed]
    exact ⟨Nat.lt_of_le_of_lt within finite, rfl⟩

/-- Numbers compare equal if they denote the same. -/
theorem compare?_eq_iff {left right : Nat} (first : format.magnitude left ≤ format.infinity)
    (second : format.magnitude right ≤ format.infinity) :
    ∃ order, format.compare? left right = some order ∧
      (order = .eq ↔ format.units left = format.units right) := by
  let value (bits : Nat) : Int :=
    if format.isNegative bits then -(format.magnitude bits : Int) else format.magnitude bits
  refine ⟨compare (value left) (value right), ?_, ?_⟩
  · rw [compare?]
    cases isLeft : format.view left with
    | notANumber => exact absurd isLeft (view_ne_nan first)
    | _ =>
      cases isRight : format.view right with
      | notANumber => exact absurd isRight (view_ne_nan second)
      | _ => rfl
  · have same (a b : Nat) : format.scaled a = format.scaled b ↔ a = b :=
      (scaled_strictMono format).injective.eq_iff
    have zero (a : Nat) : format.scaled a = 0 ↔ a = 0 := by
      rw [← same a 0, scaled_small (Nat.zero_le _)]
    have sameParts := same (format.magnitude left) (format.magnitude right)
    have noLeft := zero (format.magnitude left)
    have noRight := zero (format.magnitude right)
    rw [compare_eq_iff_eq]
    unfold value units
    split <;> split <;> omega

theorem compare?_nan {left right : Nat} (nan : format.infinity < format.magnitude right) :
    format.compare? left right = none := by
  unfold compare?
  rw [view_nan nan]
  cases format.view left <;> rfl

/-- The sum of two numbers is rounded once. -/
theorem Proper.add_eq (proper : format.Proper) {left right : Nat} (first : format.IsFinite left)
    (second : format.IsFinite right) :
    ∃ negative pattern,
      format.add left right = format.withSign negative (min format.infinity pattern) ∧
      format.scaled pattern =
        rounded format.precision (format.units left + format.units right).natAbs ∧
      (format.units left + format.units right ≠ 0 →
        negative = decide (format.units left + format.units right < 0)) := by
  obtain ⟨firstPart, firstAbove, firstView, firstIs, _⟩ := proper.view_finite first
  obtain ⟨secondPart, secondAbove, secondView, secondIs, _⟩ := proper.view_finite second
  let above := min firstAbove secondAbove
  let sum := signedScaled (format.isNegative left) firstPart (firstAbove - above) +
    signedScaled (format.isNegative right) secondPart (secondAbove - above)
  -- what the parts denote, in units
  have counts {negative : Bool} {part place amount : Nat} (least : above ≤ place)
      (is : part * 2 ^ place = amount) :
      signedScaled negative part (place - above) * (2 ^ above : Nat) =
        if negative then -(amount : Int) else amount := by
    have whole : ((part * 2 ^ (place - above) : Nat) : Int) * (2 ^ above : Nat) = amount := by
      rw [← is, ← Int.natCast_mul, Nat.mul_assoc, ← Nat.pow_add, Nat.sub_add_cancel least]
    unfold signedScaled
    change (if negative then -((part * 2 ^ (place - above) : Nat) : Int)
      else ((part * 2 ^ (place - above) : Nat) : Int)) * _ = _
    cases negative with
    | true =>
      rw [if_pos rfl, if_pos rfl, Int.neg_mul, whole]
    | false => exact whole
  have total : sum * (2 ^ above : Nat) = format.units left + format.units right := by
    rw [Int.add_mul, counts (Nat.min_le_left _ _) firstIs, counts (Nat.min_le_right _ _) secondIs]
    rfl
  have exponent : min (firstAbove - format.depth : Int) (secondAbove - format.depth) =
      above - format.depth := by
    omega
  obtain ⟨pattern, nearest, scaled⟩ := proper.nearestScaled_eq sum.natAbs above
  have same : sum.natAbs * 2 ^ above = (format.units left + format.units right).natAbs := by
    rw [← total, Int.natAbs_mul, Int.natAbs_natCast]
  have scale : (0 : Int) < (2 ^ above : Nat) := Int.natCast_pos.mpr (Nat.two_pow_pos above)
  have adds : format.add left right =
      if sum = 0 then format.withSign (format.isNegative left && format.isNegative right) 0
      else format.withSign (sum < 0) (format.nearestScaled sum.natAbs (above - format.depth)) := by
    rw [add, firstView, secondView]
    dsimp only
    rw [exponent, show (firstAbove - format.depth - (above - format.depth) : Int).toNat =
        firstAbove - above by omega,
      show (secondAbove - format.depth - (above - format.depth) : Int).toNat =
        secondAbove - above by omega]
  rw [adds, ← total]
  by_cases none : sum = 0
  · rw [if_pos none, none, Int.zero_mul]
    refine ⟨_, 0, by rw [Nat.min_zero], ?_, fun some => absurd rfl some⟩
    rw [Int.natAbs_zero, rounded_zero, scaled_small (Nat.zero_le _)]
  · rw [if_neg none]
    refine ⟨_, pattern, by rw [nearest], ?_, fun _ => ?_⟩
    · rw [scaled, same, total]
    · congr 1
      rw [eq_iff_iff]
      constructor
      · exact fun less => Int.mul_neg_of_neg_of_pos less scale
      · intro less
        rw [← Int.zero_mul (2 ^ above : Nat)] at less
        exact Int.lt_of_mul_lt_mul_right less (Int.le_of_lt scale)

end FloatFormat

end WasmX64
