import WasmX64.Proofs.Float.Rounding
import WasmX64.Proofs.Number.Numeral
import WasmX64.Wasm.Value

/-!
# Literals of a type

A text is read as an integer type exactly if what is left of it without blanks around it and
without underscores is a numeral of an integer the type holds, signed or unsigned.  The NaN literals
of a float type set the exponent field and a payload.
-/

theorem WasmX64.ValueType.bits_eq (type : ValueType) : type.bits = 32 ∨ type.bits = 64 := by
  unfold bits
  split
  · exact .inr rfl
  · exact .inl rfl

namespace WasmX64.Value

open WasmX64.Number

def literal (text : String) : List Char :=
  (Text.trim text.toList).filter (· ≠ '_')

variable {text : String} {chars : List Char} {type : ValueType} {width bits : Nat}

theorem literal_plain (text : String) : '_' ∉ literal text := by
  simp [literal]

theorem parse_integer (isInteger : type.isInteger = true) (text : String) :
    parse type text =
      (readInteger type.bits (literal text)).map fun bits => ⟨type, UInt64.ofNat bits⟩ := by
  cases type with
  | i32 => rfl
  | i64 => rfl
  | f32 | f64 | unknown => cases isInteger

/-- A minus sign asks for the signed range. -/
theorem readInteger_minus {width bits : Nat} (plain : '_' ∉ chars) (positive : 0 < width) :
    readInteger width ('-' :: chars) = .ok bits ↔
      ∃ number, Numeral chars number ∧ number ≤ 2 ^ (width - 1) ∧
        bits = (-(number : Int) % 2 ^ width).toNat := by
  have signed := readSigned_negative_iff plain positive
  simp only [readInteger, parseSigned, String.toList_ofList]
  cases read : readSigned width ('-' :: chars) with
  | error flaw =>
    refine ⟨nofun, ?_⟩
    rintro ⟨number, numeral, small, rfl⟩
    have never := (signed _).mpr ⟨number, numeral, rfl, small⟩
    rw [read] at never
    cases never
  | ok integer =>
    obtain ⟨number, numeral, rfl, small⟩ := (signed _).mp read
    constructor
    · rintro ⟨⟩
      exact ⟨number, numeral, small, rfl⟩
    · rintro ⟨other, another, _, rfl⟩
      rw [numeral.unique plain another]
      rfl

theorem readInteger_unsigned {width bits : Nat} (plain : '_' ∉ chars)
    (sign : chars.head? ≠ some '-') :
    readInteger width chars = .ok bits ↔
      Numeral (if chars.head? = some '+' then chars.drop 1 else chars) bits ∧ bits < 2 ^ width := by
  have body : '_' ∉ (if chars.head? = some '+' then chars.drop 1 else chars) := by
    split
    · exact fun mark => plain (List.mem_of_mem_drop mark)
    · exact plain
  rw [← readUnsigned_iff body, readInteger.eq_2 _ _ (by rintro rest rfl; exact sign rfl)]
  simp only [parseUnsigned, String.toList_ofList]
  cases readUnsigned width (if chars.head? = some '+' then chars.drop 1 else chars) with
  | error flaw => exact ⟨nofun, nofun⟩
  | ok value => simp only [Except.mapError, Except.ok.injEq]

/-- An integer literal of a width is a numeral of an integer that the width holds in its signed
or its unsigned range, and it is read as the integer modulo the width. -/
theorem readInteger_iff (plain : '_' ∉ chars) (positive : 0 < width) :
    readInteger width chars = .ok bits ↔
      ∃ integer : Int, SignedNumeral chars integer ∧ -2 ^ (width - 1) ≤ integer ∧
        integer < 2 ^ width ∧ bits = (integer % 2 ^ width).toNat := by
  have range : (0 : Int) < 2 ^ (width - 1) := by positivity
  have room : (0 : Int) < 2 ^ width := by positivity
  by_cases sign : chars.head? = some '-'
  · obtain ⟨rest, rfl⟩ := List.head?_eq_some_iff.mp sign
    have plainRest : '_' ∉ rest := fun mark => plain (List.mem_cons_of_mem _ mark)
    rw [readInteger_minus plainRest positive]
    simp only [signedNumeral_minus]
    constructor
    · rintro ⟨number, numeral, small, rfl⟩
      have bound : (number : Int) ≤ 2 ^ (width - 1) := by exact_mod_cast small
      exact ⟨_, ⟨number, numeral, rfl⟩, by omega, by omega, rfl⟩
    · rintro ⟨_, ⟨number, numeral, rfl⟩, least, _, rfl⟩
      refine ⟨number, numeral, ?_, rfl⟩
      have bound : (number : Int) ≤ 2 ^ (width - 1) := by omega
      exact_mod_cast bound
  · rw [readInteger_unsigned plain sign]
    simp only [signedNumeral_of_not_minus sign]
    constructor
    · rintro ⟨numeral, small⟩
      have bound : (bits : Int) < 2 ^ width := by exact_mod_cast small
      refine ⟨bits, ⟨bits, numeral, rfl⟩, by omega, bound, ?_⟩
      rw [Int.emod_eq_of_lt (by omega) bound, Int.toNat_natCast]
    · rintro ⟨_, ⟨number, numeral, rfl⟩, _, bound, rfl⟩
      rw [Int.emod_eq_of_lt (by omega) bound, Int.toNat_natCast]
      exact ⟨numeral, by exact_mod_cast bound⟩

/-! ## Values -/

theorem type_of_parse {value : Value} (read : parse type text = .ok value) : value.type = type := by
  have typed : ∀ bits : Except ValueError Nat,
      (bits.map fun bits => (⟨type, UInt64.ofNat bits⟩ : Value)) = .ok value →
        value.type = type := by
    rintro (cause | number) ⟨⟩
    rfl
  cases type with
  | i32 | i64 | f32 | f64 => exact typed _ read
  | unknown => cases read

/-- A literal denotes a value: it is a numeral of an integer that the type holds in its signed or
its unsigned range, and the value is that integer modulo the width. -/
def Denotes (chars : List Char) (value : Value) : Prop :=
  ∃ integer : Int, SignedNumeral chars integer ∧
    -2 ^ (value.type.bits - 1) ≤ integer ∧ integer < 2 ^ value.type.bits ∧
    value.bits.toNat = (integer % 2 ^ value.type.bits).toNat

theorem Denotes.inWidth {value : Value} (denotes : Denotes chars value) :
    value.bits.toNat < 2 ^ value.type.bits := by
  obtain ⟨integer, _, _, _, same⟩ := denotes
  rw [same]
  rcases value.type.bits_eq with width | width <;> rw [width] <;> omega

theorem parse_integer_iff {value : Value} (isInteger : type.isInteger = true) :
    parse type text = .ok value ↔ value.type = type ∧ Denotes (literal text) value := by
  have positive : 0 < type.bits := by
    rcases type.bits_eq with same | same <;> rw [same] <;> decide
  have inRegister : ∀ integer : Int,
      (UInt64.ofNat (integer % 2 ^ type.bits).toNat).toNat = (integer % 2 ^ type.bits).toNat := by
    intro integer
    rw [UInt64.toNat_ofNat', Nat.mod_eq_of_lt]
    rcases type.bits_eq with same | same <;> rw [same] <;> omega
  rw [parse_integer isInteger]
  constructor
  · intro read
    cases bits : readInteger type.bits (literal text) with
    | error cause =>
      rw [bits] at read
      cases read
    | ok number =>
      rw [bits] at read
      cases read
      obtain ⟨integer, numeral, least, greatest, rfl⟩ :=
        (readInteger_iff (literal_plain text) positive).mp bits
      exact ⟨rfl, integer, numeral, least, greatest, inRegister integer⟩
  · rintro ⟨rfl, integer, numeral, least, greatest, same⟩
    rw [(readInteger_iff (literal_plain text) positive).mpr
      ⟨integer, numeral, least, greatest, rfl⟩, ← same]
    change Except.ok (⟨value.type, UInt64.ofNat value.bits.toNat⟩ : Value) = _
    rw [UInt64.ofNat_toNat]

/-- What the text of a value says behind its type. -/
def digits (value : Value) : List Char :=
  value.text.toList.drop (value.type.name.length + 1)

/-- An integer is printed in its signed reading. -/
theorem digits_integer {value : Value} (isInteger : value.type.isInteger = true) :
    value.digits = (toString (BitVec.ofNat value.type.bits value.bits.toNat).toInt).toList := by
  obtain ⟨type, bits⟩ := value
  cases type with
  | i32 =>
    have text : Value.text ⟨.i32, bits⟩ =
        "i32:" ++ toString (BitVec.ofNat 32 bits.toNat).toInt := rfl
    have length : "i32:".toList.length = "i32".length + 1 := by decide
    rw [digits, text, String.toList_append]
    exact List.drop_left' length
  | i64 =>
    have text : Value.text ⟨.i64, bits⟩ =
        "i64:" ++ toString (BitVec.ofNat 64 bits.toNat).toInt := rfl
    have length : "i64:".toList.length = "i64".length + 1 := by decide
    rw [digits, text, String.toList_append]
    exact List.drop_left' length
  | f32 | f64 | unknown => cases isInteger

theorem denotes_digits {value : Value} (isInteger : value.type.isInteger = true)
    (inWidth : value.bits.toNat < 2 ^ value.type.bits) : Denotes value.digits value := by
  have least := BitVec.le_toInt (BitVec.ofNat value.type.bits value.bits.toNat)
  have greatest := BitVec.toInt_lt (x := BitVec.ofNat value.type.bits value.bits.toNat)
  have power : (2 : Int) ^ (value.type.bits - 1) ≤ 2 ^ value.type.bits := by
    rcases value.type.bits_eq with same | same <;> rw [same] <;> decide
  rw [digits_integer isInteger]
  refine ⟨_, signedNumeral_toString _, least, greatest.trans_le power, ?_⟩
  have wraps := @Int.bmod_emod value.bits.toNat (2 ^ value.type.bits)
  rw [BitVec.toInt_eq_toNat_bmod, BitVec.toNat_ofNat, Nat.mod_eq_of_lt inWidth]
  rw [Nat.cast_pow, Nat.cast_ofNat] at wraps
  have small : (value.bits.toNat : Int) < 2 ^ value.type.bits := by exact_mod_cast inWidth
  rw [wraps, Int.emod_eq_of_lt (Int.natCast_nonneg _) small, Int.toNat_natCast]

end WasmX64.Value

/-!
## Literals that are not numbers

`nan` and `nan:` with a payload are read by setting bits: the whole exponent field, the payload, and
behind a minus sign the sign bit.  The payload is read at the full width of the type, so only a
payload below the hidden bit stays in the fraction field, and only such a literal is the NaN it
writes.
-/

namespace WasmX64

open WasmX64.Number

namespace FloatFormat

/-- The exponent field with every bit set. -/
def topExponent (format : FloatFormat) : Nat :=
  2 ^ format.exponentBits - 1

/-- The fields of a pattern. -/
structure Fields (format : FloatFormat) (bits : Nat) (negative : Bool)
    (exponent fraction : Nat) : Prop where
  inWidth : bits < 2 ^ format.width
  sign : format.isNegative bits = negative
  exponent : bits / format.hiddenBit % 2 ^ format.exponentBits = exponent
  fraction : bits % format.hiddenBit = fraction

/-- A pattern that is not a number, with its sign and its payload. -/
structure IsNaN (format : FloatFormat) (bits : Nat) (negative : Bool) (payload : Nat) : Prop where
  fields : format.Fields bits negative format.topExponent payload
  notInfinite : payload ≠ 0

end FloatFormat

/-- A literal of a NaN and the payload it writes.  Any number of signs may lead. -/
inductive NaNLiteral (format : FloatFormat) : List Char → Nat → Prop where
  | plain : NaNLiteral format ['n', 'a', 'n'] (format.hiddenBit / 2)
  | payload {digits : List Char} {number : Nat} (numeral : Numeral digits number)
      (positive : 0 < number) (inWidth : number < 2 ^ format.width) :
      NaNLiteral format ('n' :: 'a' :: 'n' :: ':' :: digits) number
  | signed {sign : Char} {chars : List Char} {number : Nat} (isSign : sign = '+' ∨ sign = '-')
      (literal : NaNLiteral format chars number) : NaNLiteral format (sign :: chars) number

variable {format : FloatFormat} {chars : List Char} {payload bits : Nat} {type : ValueType}

/-! ## Setting the bits of a field -/

namespace FloatFormat

theorem isNegative_iff :
    format.isNegative bits = true ↔ bits / 2 ^ (format.width - 1) % 2 = 1 := by
  rw [isNegative, decide_eq_true_iff]
  rfl

theorem Fields.intro (inWidth : bits < 2 ^ format.width) :
    format.Fields bits (format.isNegative bits)
      (bits / format.hiddenBit % 2 ^ format.exponentBits) (bits % format.hiddenBit) :=
  ⟨inWidth, rfl, rfl, rfl⟩

theorem Fields.or {other exponent fraction exponent' fraction' : Nat} {negative negative' : Bool}
    (left : format.Fields bits negative exponent fraction)
    (right : format.Fields other negative' exponent' fraction') :
    format.Fields (bits ||| other) (negative || negative') (exponent ||| exponent')
      (fraction ||| fraction') where
  inWidth := Nat.or_lt_two_pow left.inWidth right.inWidth
  sign := by
    rw [← left.sign, ← right.sign]
    rw [Bool.eq_iff_iff, Bool.or_eq_true]
    simp only [isNegative_iff, Nat.or_div_two_pow, Nat.or_mod_two_eq_one]
  exponent := by
    rw [← left.exponent, ← right.exponent, hiddenBit, Nat.pow_eq, Nat.or_div_two_pow,
      Nat.or_mod_two_pow]
  fraction := by
    rw [← left.fraction, ← right.fraction, hiddenBit, Nat.pow_eq, Nat.or_mod_two_pow]

/-- A field with every bit set stays so whatever is set besides. -/
theorem topExponent_or {field : Nat} (small : field < 2 ^ format.exponentBits) :
    format.topExponent ||| field = format.topExponent := by
  apply Nat.eq_of_testBit_eq
  intro place
  rw [Nat.testBit_or, topExponent, Nat.testBit_two_pow_sub_one]
  by_cases inside : place < format.exponentBits
  · simp [inside]
  · have above : field < 2 ^ place :=
      Nat.lt_of_lt_of_le small (Nat.pow_le_pow_right (by decide) (Nat.le_of_not_lt inside))
    simp [inside, Nat.testBit_lt_two_pow above]

end FloatFormat

theorem infinity_fields (float : type.format? = some format) :
    format.Fields format.infinity false format.topExponent 0 := by
  rcases ValueType.format?_eq float with ⟨_, rfl⟩ | ⟨_, rfl⟩ <;> constructor <;> decide

theorem signBit_fields (float : type.format? = some format) :
    format.Fields format.signBit true 0 0 := by
  rcases ValueType.format?_eq float with ⟨_, rfl⟩ | ⟨_, rfl⟩ <;> constructor <;> decide

/-! ## Reading -/

theorem readPayload?_digits {digits : List Char} (plain : '_' ∉ digits) :
    Value.readPayload? format ('n' :: 'a' :: 'n' :: ':' :: digits) = some payload ↔
      Numeral digits payload ∧ 0 < payload ∧ payload < 2 ^ format.width := by
  have numeral : ∀ number, readUnsigned format.width digits = .ok number ↔ _ := fun number =>
    readUnsigned_iff plain
  rw [Value.readPayload?]
  constructor
  · intro read
    split at read
    · cases read
    · rename_i value notZero found
      cases read
      obtain ⟨written, small⟩ := (numeral payload).mp found
      exact ⟨written, Nat.pos_of_ne_zero notZero, small⟩
    · cases read
  · rintro ⟨written, positive, small⟩
    rw [(numeral payload).mpr ⟨written, small⟩]
    cases payload with
    | zero => cases positive
    | succ payload => rfl

theorem readPayload?_iff (plain : '_' ∉ chars)
    (unsigned : ∀ sign rest, chars = sign :: rest → ¬ (sign = '+' ∨ sign = '-')) :
    Value.readPayload? format chars = some payload ↔ NaNLiteral format chars payload := by
  constructor
  · intro read
    have opened := read
    rw [Value.readPayload?.eq_def] at opened
    split at opened
    · cases read
      exact .plain
    · rename_i digits
      have plainDigits : '_' ∉ digits := fun mark => plain (by simp [mark])
      obtain ⟨numeral, positive, inWidth⟩ := (readPayload?_digits plainDigits).mp read
      exact .payload numeral positive inWidth
    · cases opened
  · intro literal
    cases literal with
    | plain => rfl
    | payload numeral positive inWidth =>
      rename_i digits
      have plainDigits : '_' ∉ digits := fun mark => plain (by simp [mark])
      exact (readPayload?_digits plainDigits).mpr ⟨numeral, positive, inWidth⟩
    | signed isSign _ => exact absurd isSign (unsigned _ _ rfl)

theorem nanLiteral_dropSigns (chars : List Char) :
    NaNLiteral format (chars.dropWhile fun char => char = '+' || char = '-') payload ↔
      NaNLiteral format chars payload := by
  induction chars with
  | nil => rfl
  | cons sign rest ih =>
    by_cases isSign : sign = '+' ∨ sign = '-'
    · rw [List.dropWhile_cons_of_pos (by simpa using isSign), ih]
      constructor
      · exact .signed isSign
      · intro literal
        cases literal with
        | plain => simp at isSign
        | payload => simp at isSign
        | signed _ literal => exact literal
    · rw [List.dropWhile_cons_of_neg (by simpa using isSign)]

/-- The bits set for a payload behind a sign. -/
def nanPattern (format : FloatFormat) (negative : Bool) (payload : Nat) : Nat :=
  if negative then format.infinity ||| payload ||| format.signBit else format.infinity ||| payload

theorem readNaN?_iff (plain : '_' ∉ chars) :
    Value.readNaN? format chars = some bits ↔
      ∃ payload, NaNLiteral format chars payload ∧
        bits = nanPattern format (chars.head? = some '-') payload := by
  have behind : '_' ∉ chars.dropWhile fun char => char = '+' || char = '-' := fun mark =>
    plain ((List.dropWhile_suffix _).mem mark)
  have unsigned : ∀ sign rest, (chars.dropWhile fun char => char = '+' || char = '-') =
      sign :: rest → ¬ (sign = '+' ∨ sign = '-') := by
    intro sign rest same
    have first := List.head?_dropWhile_not (fun char => char = '+' || char = '-') chars
    rw [same] at first
    simpa using first
  rw [Value.readNaN?, Option.map_eq_some_iff]
  simp only [readPayload?_iff behind unsigned, nanLiteral_dropSigns, nanPattern, decide_eq_true_eq]
  exact exists_congr fun payload => and_congr_right fun _ => eq_comm

theorem NaNLiteral.unique {other : Nat} (plain : '_' ∉ chars)
    (left : NaNLiteral format chars payload) (right : NaNLiteral format chars other) :
    payload = other := by
  induction left with
  | plain =>
    cases right with
    | plain => rfl
    | signed isSign _ => simp at isSign
  | payload numeral _ _ =>
    cases right with
    | payload another _ _ =>
      exact numeral.unique (fun mark => plain (by simp [mark])) another
    | signed isSign _ => simp at isSign
  | signed isSign _ ih =>
    cases right with
    | plain => simp at isSign
    | payload => simp at isSign
    | signed _ literal => exact ih (fun mark => plain (List.mem_cons_of_mem _ mark)) literal

theorem NaNLiteral.range (float : type.format? = some format)
    (literal : NaNLiteral format chars payload) : 0 < payload ∧ payload < 2 ^ format.width := by
  induction literal with
  | plain => rcases ValueType.format?_eq float with ⟨_, rfl⟩ | ⟨_, rfl⟩ <;> decide
  | payload _ positive inWidth => exact ⟨positive, inWidth⟩
  | signed _ _ ih => exact ih

/-! ## What the literals denote -/

/-- A type of floats takes the NaN form before it looks for a number. -/
theorem parse_of_readNaN? {text : String} (float : type.format? = some format)
    (accepted : Value.readNaN? format (Value.literal text) = some bits) :
    Value.parse type text = .ok ⟨type, UInt64.ofNat bits⟩ := by
  have found : Value.readFloat format (Value.literal text) = .ok bits := by
    rw [Value.readFloat, accepted]
  rcases ValueType.format?_eq float with ⟨rfl, rfl⟩ | ⟨rfl, rfl⟩
  · change (Value.readFloat .single (Value.literal text)).map _ = _
    rw [found]
    rfl
  · change (Value.readFloat .double (Value.literal text)).map _ = _
    rw [found]
    rfl

/-- The exponent field is full, the fraction is what fits of the payload, and the sign is set by
a minus sign or by the top bit of the payload. -/
theorem nanPattern_fields (float : type.format? = some format) (negative : Bool)
    (small : payload < 2 ^ format.width) :
    format.Fields (nanPattern format negative payload) (format.isNegative payload || negative)
      format.topExponent (payload % format.hiddenBit) := by
  have exponentBelow : payload / format.hiddenBit % 2 ^ format.exponentBits <
      2 ^ format.exponentBits := Nat.mod_lt _ (Nat.two_pow_pos _)
  have positive := (infinity_fields float).or (.intro small)
  rw [FloatFormat.topExponent_or exponentBelow, Bool.false_or, Nat.zero_or] at positive
  cases negative with
  | false => simpa [nanPattern] using positive
  | true => simpa [nanPattern] using positive.or (signBit_fields float)

theorem isNegative_of_lt_hiddenBit (float : type.format? = some format)
    (small : payload < format.hiddenBit) : format.isNegative payload = false := by
  have below : format.hiddenBit ≤ format.signBit := by
    rcases ValueType.format?_eq float with ⟨_, rfl⟩ | ⟨_, rfl⟩ <;> decide
  rw [FloatFormat.isNegative, Nat.div_eq_of_lt (Nat.lt_of_lt_of_le small below)]
  rfl

theorem nanPattern_isNaN_iff (float : type.format? = some format) (negative : Bool)
    (positive : 0 < payload) (small : payload < 2 ^ format.width) :
    format.IsNaN (nanPattern format negative payload) negative payload ↔
      payload < format.hiddenBit := by
  have fields := nanPattern_fields float negative small
  constructor
  · intro isNaN
    rw [← isNaN.fields.fraction]
    exact Nat.mod_lt _ (Nat.two_pow_pos _)
  · intro inField
    rw [isNegative_of_lt_hiddenBit float inField, Bool.false_or, Nat.mod_eq_of_lt inField] at fields
    exact ⟨fields, Nat.ne_of_gt positive⟩

/-- A text that a float type accepts as a NaN literal gets a full exponent field, the sign of the
literal and the payload it writes as its fraction exactly if the payload is below the hidden bit.
Any other payload loses the bits above the fraction field, and its top bit sets the sign. -/
theorem nanLiteral_denotes_iff {text : String} (float : type.format? = some format)
    (accepted : Value.readNaN? format (Value.literal text) = some bits) :
    ∃ value payload, Value.parse type text = .ok value ∧ value.type = type ∧
      value.bits.toNat = bits ∧
      (∀ other, NaNLiteral format (Value.literal text) other ↔ other = payload) ∧
      format.Fields value.bits.toNat
        (format.isNegative payload || (Value.literal text).head? = some '-') format.topExponent
        (payload % format.hiddenBit) ∧
      (format.IsNaN value.bits.toNat ((Value.literal text).head? = some '-') payload ↔
        payload < format.hiddenBit) := by
  have plain := Value.literal_plain text
  have read := parse_of_readNaN? float accepted
  obtain ⟨payload, literal, same⟩ := (readNaN?_iff plain).mp accepted
  obtain ⟨positive, small⟩ := literal.range float
  have fields := nanPattern_fields float ((Value.literal text).head? = some '-') small
  have isNaN := nanPattern_isNaN_iff float ((Value.literal text).head? = some '-') positive small
  rw [← same] at fields isNaN
  have inRegister : (UInt64.ofNat bits).toNat = bits := by
    have width : 2 ^ format.width ≤ 2 ^ 64 := by
      rcases ValueType.format?_eq float with ⟨_, rfl⟩ | ⟨_, rfl⟩ <;> decide
    rw [UInt64.toNat_ofNat', Nat.mod_eq_of_lt (Nat.lt_of_lt_of_le fields.inWidth width)]
  refine ⟨_, payload, read, rfl, inRegister, fun other => ⟨fun another => ?_, ?_⟩, ?_, ?_⟩
  · exact another.unique plain literal
  · rintro rfl
    exact literal
  · rwa [inRegister]
  · rwa [inRegister]

theorem nanLiteral_denotes_signalling :
    Value.readNaN? .single (Value.literal " -nan:0x_1 ") = some 0xff800001 ∧
      FloatFormat.single.IsNaN 0xff800001 true 1 := by
  have accepted : Value.readNaN? .single (Value.literal " -nan:0x_1 ") = some 0xff800001 := by
    decide
  have float : ValueType.f32.format? = some .single := rfl
  obtain ⟨value, payload, _, _, same, writes, _, isNaN⟩ := nanLiteral_denotes_iff float accepted
  have announced : ('x', 16) ∈ marks := by decide
  have numeral : Numeral ['0', 'x', '1'] 1 :=
    .marked announced (by decide) ⟨[1], rfl, by decide, rfl⟩
  obtain rfl : 1 = payload :=
    (writes 1).mp (.signed (.inr rfl) (.payload numeral (by decide) (by decide)))
  rw [same] at isNaN
  exact ⟨accepted, isNaN.mpr (by decide)⟩

/-- The payload one past the fraction field reads as infinity. -/
theorem nanLiteral_infinite :
    Value.parse .f32 "nan:0x800000" = .ok ⟨.f32, 0x7f800000⟩ ∧
      Value.readNaN? .single (Value.literal "nan:0x800000") = some 0x7f800000 ∧
      ¬ ∃ negative payload, FloatFormat.single.IsNaN 0x7f800000 negative payload := by
  refine ⟨by decide, by decide, ?_⟩
  rintro ⟨negative, payload, fields, notInfinite⟩
  exact notInfinite fields.fraction.symm

end WasmX64
