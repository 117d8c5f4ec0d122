import Mathlib.Data.Nat.Digits.Defs
import Mathlib.Tactic.IntervalCases
import Mathlib.Tactic.Ring
import WasmX64.Number.Literal

/-!
# Numerals and the numbers they denote

`Numeral` says which number a text without underscores denotes: digits of base ten, of base eight
behind a zero, or of the base that a mark announces.  Reading succeeds exactly for the numerals of
numbers within the range of the width, and decimal digits denote the number they were written for.
-/

namespace WasmX64.Number

/-- Digits of a base, the most significant one first, with the number they write. -/
def WrittenIn (base : Nat) (chars : List Char) (number : Nat) : Prop :=
  ∃ digits : List Nat, chars.map digitValue? = digits.map some ∧ (∀ digit ∈ digits, digit < base) ∧
    Nat.ofDigits base digits.reverse = number

/-- The marks that announce a base behind a leading zero. -/
def marks : List (Char × Nat) :=
  [('b', 2), ('B', 2), ('o', 8), ('O', 8), ('x', 16), ('X', 16)]

/-- An unsigned numeral and the number it denotes. -/
inductive Numeral : List Char → Nat → Prop where
  | decimal {chars : List Char} {number : Nat} (nonempty : chars ≠ [])
      (significant : chars.head? ≠ some '0') (written : WrittenIn 10 chars number) :
      Numeral chars number
  | octal {chars : List Char} {number : Nat} (written : WrittenIn 8 chars number) :
      Numeral ('0' :: chars) number
  | marked {mark : Char} {base : Nat} {chars : List Char} {number : Nat}
      (announced : (mark, base) ∈ marks) (nonempty : chars ≠ [])
      (written : WrittenIn base chars number) : Numeral ('0' :: mark :: chars) number

/-- A numeral with an optional sign and the integer it denotes. -/
inductive SignedNumeral : List Char → Int → Prop where
  | unsigned {chars : List Char} {number : Nat} (numeral : Numeral chars number) :
      SignedNumeral chars number
  | positive {chars : List Char} {number : Nat} (numeral : Numeral chars number) :
      SignedNumeral ('+' :: chars) number
  | negative {chars : List Char} {number : Nat} (numeral : Numeral chars number) :
      SignedNumeral ('-' :: chars) (-(number : Int))

variable {base limit value number : Nat} {chars : List Char}

theorem ofDigits_reverse_cons (base digit : Nat) (digits : List Nat) :
    Nat.ofDigits base (digit :: digits).reverse =
      digit * base ^ digits.length + Nat.ofDigits base digits.reverse := by
  rw [List.reverse_cons, Nat.ofDigits_append, Nat.ofDigits_singleton, List.length_reverse]
  ring

theorem readDigits_iff (plain : '_' ∉ chars) (positive : 0 < base) (start : value ≤ limit) :
    readDigits base limit value chars = .ok number ↔
      ∃ digits : List Nat, chars.map digitValue? = digits.map some ∧
        (∀ digit ∈ digits, digit < base) ∧
        value * base ^ digits.length + Nat.ofDigits base digits.reverse = number ∧
        number ≤ limit := by
  induction chars generalizing value with
  | nil =>
    rw [readDigits]
    constructor
    · intro same
      cases same
      exact ⟨[], rfl, by simp, by simp, start⟩
    · rintro ⟨digits, same, _, total, _⟩
      cases digits with
      | nil => simpa using total
      | cons digit digits => cases same
  | cons char rest ih =>
    obtain ⟨notMark, plainRest⟩ := not_or.mp (List.mem_cons.not.mp plain)
    rw [readDigits, if_neg (Ne.symm notMark)]
    cases digitOf : digitValue? char with
    | none =>
      constructor
      · intro never
        cases never
      · rintro ⟨digits, same, _⟩
        cases digits with
        | nil => cases same
        | cons digit digits =>
          rw [List.map_cons, List.map_cons, digitOf] at same
          cases List.head_eq_of_cons_eq same
    | some digit =>
      -- The value never falls, so a digit that passes the limit is fatal at once.
      have grows : ∀ more : List Nat, value * base + digit ≤
          value * base ^ (digit :: more).length +
            Nat.ofDigits base (digit :: more).reverse := by
        intro more
        have power : 1 ≤ base ^ more.length := Nat.one_le_pow _ _ positive
        rw [ofDigits_reverse_cons, List.length_cons, pow_succ]
        calc value * base + digit
            ≤ (value * base + digit) * base ^ more.length := Nat.le_mul_of_pos_right _ power
          _ ≤ _ := by
            rw [Nat.add_mul]
            have same : value * base * base ^ more.length =
                value * (base ^ more.length * base) := by ring
            omega
      have heads : ∀ digits : List Nat,
          (char :: rest).map digitValue? = digits.map some ↔
            ∃ more, digits = digit :: more ∧ rest.map digitValue? = more.map some := by
        intro digits
        cases digits with
        | nil => simp
        | cons first more => simp [digitOf, eq_comm]
      dsimp only
      by_cases wide : base ≤ digit
      · rw [if_pos wide]
        constructor
        · intro never
          cases never
        · rintro ⟨digits, same, small, _⟩
          obtain ⟨more, rfl, _⟩ := (heads digits).mp same
          exact absurd (small digit List.mem_cons_self) (by omega)
      · rw [if_neg wide]
        by_cases above : limit < value * base + digit
        · rw [if_pos above]
          constructor
          · intro never
            cases never
          · rintro ⟨digits, same, _, total, small⟩
            obtain ⟨more, rfl, _⟩ := (heads digits).mp same
            have least := grows more
            omega
        · rw [if_neg above, ih plainRest (Nat.le_of_not_lt above)]
          have totals : ∀ more : List Nat,
              value * base ^ (digit :: more).length +
                  Nat.ofDigits base (digit :: more).reverse =
                (value * base + digit) * base ^ more.length +
                  Nat.ofDigits base more.reverse := by
            intro more
            rw [ofDigits_reverse_cons, List.length_cons, pow_succ]
            ring
          constructor
          · rintro ⟨more, same, small, total, bounded⟩
            exact ⟨digit :: more, (heads _).mpr ⟨more, rfl, same⟩,
              List.forall_mem_cons.mpr ⟨Nat.lt_of_not_le wide, small⟩,
              (totals more).trans total, bounded⟩
          · rintro ⟨digits, same, small, total, bounded⟩
            obtain ⟨more, rfl, behind⟩ := (heads digits).mp same
            exact ⟨more, behind, (List.forall_mem_cons.mp small).2,
              (totals more).symm.trans total, bounded⟩

theorem readDigits_zero_iff (plain : '_' ∉ chars) (positive : 0 < base) :
    readDigits base limit 0 chars = .ok number ↔ WrittenIn base chars number ∧ number ≤ limit := by
  rw [readDigits_iff plain positive (Nat.zero_le _)]
  simp only [Nat.zero_mul, Nat.zero_add, WrittenIn]
  constructor
  · rintro ⟨digits, same, small, total, bounded⟩
    exact ⟨⟨digits, same, small, total⟩, bounded⟩
  · rintro ⟨⟨digits, same, small, total⟩, bounded⟩
    exact ⟨digits, same, small, total, bounded⟩

/-! ## Base marks -/

theorem toNat_toLower (char : Char) :
    char.toLower.toNat =
      if 65 ≤ char.toNat ∧ char.toNat ≤ 90 then char.toNat + 32 else char.toNat := by
  have bounds : char.val ≥ 'A'.val ∧ char.val ≤ 'Z'.val ↔ 65 ≤ char.toNat ∧ char.toNat ≤ 90 := by
    simp only [ge_iff_le, UInt32.le_iff_toNat_le]
    rfl
  unfold Char.toLower
  split
  · rename_i upper
    have small := bounds.mp upper
    rw [if_pos small]
    change (char.val + ('a'.val - 'A'.val)).toNat = char.val.toNat + 32
    rw [UInt32.toNat_add]
    change (char.toNat + 32) % 4294967296 = char.toNat + 32
    omega
  · rename_i other
    rw [if_neg fun small => other (bounds.mpr small)]

theorem toLower_eq_iff {char lower : Char} (upper : Char)
    (letter : (lower, upper) ∈ [('b', 'B'), ('o', 'O'), ('x', 'X')]) :
    char.toLower = lower ↔ char = lower ∨ char = upper := by
  rw [← Char.toNat_inj, ← Char.toNat_inj, ← Char.toNat_inj, toNat_toLower]
  simp only [List.mem_cons, Prod.mk.injEq, List.not_mem_nil, or_false] at letter
  rcases letter with ⟨rfl, rfl⟩ | ⟨rfl, rfl⟩ | ⟨rfl, rfl⟩
  · change (if 65 ≤ char.toNat ∧ char.toNat ≤ 90 then char.toNat + 32 else char.toNat) = 98 ↔
      char.toNat = 98 ∨ char.toNat = 66
    split <;> omega
  · change (if 65 ≤ char.toNat ∧ char.toNat ≤ 90 then char.toNat + 32 else char.toNat) = 111 ↔
      char.toNat = 111 ∨ char.toNat = 79
    split <;> omega
  · change (if 65 ≤ char.toNat ∧ char.toNat ≤ 90 then char.toNat + 32 else char.toNat) = 120 ↔
      char.toNat = 120 ∨ char.toNat = 88
    split <;> omega

/-- A text that no zero leads is decimal. -/
theorem baseMark_decimal (significant : chars.head? ≠ some '0') : baseMark chars = (10, chars) := by
  cases chars with
  | nil => rfl
  | cons first rest =>
    have notZero : first ≠ '0' := by simpa using significant
    rw [baseMark.eq_3 _ (by simp [notZero]) (by simp [notZero])]

theorem baseMark_marked {mark : Char} {base : Nat} (announced : (mark, base) ∈ marks)
    (nonempty : chars ≠ []) : baseMark ('0' :: mark :: chars) = (base, chars) := by
  cases chars with
  | nil => exact absurd rfl nonempty
  | cons digit rest =>
    rw [baseMark]
    simp only [marks, List.mem_cons, Prod.mk.injEq, List.not_mem_nil, or_false] at announced
    rcases announced with ⟨rfl, rfl⟩ | ⟨rfl, rfl⟩ | ⟨rfl, rfl⟩ | ⟨rfl, rfl⟩ | ⟨rfl, rfl⟩ | ⟨rfl, rfl⟩
    all_goals rfl

/-- A mark that is none leaves the text behind the zero to base eight. -/
theorem baseMark_octal (unmarked : ∀ mark digit rest, chars = mark :: digit :: rest →
    ∀ base, (mark, base) ∉ marks) : baseMark ('0' :: chars) = (8, chars) := by
  match chars with
  | [] => rfl
  | [mark] => rfl
  | mark :: digit :: rest =>
    have none := unmarked mark digit rest rfl
    have notBinary : ¬ mark.toLower = 'b' := by
      rw [toLower_eq_iff 'B' (by decide)]
      rintro (rfl | rfl) <;> exact none 2 (by decide)
    have notOctal : ¬ mark.toLower = 'o' := by
      rw [toLower_eq_iff 'O' (by decide)]
      rintro (rfl | rfl) <;> exact none 8 (by decide)
    have notHexadecimal : ¬ mark.toLower = 'x' := by
      rw [toLower_eq_iff 'X' (by decide)]
      rintro (rfl | rfl) <;> exact none 16 (by decide)
    rw [baseMark, if_neg notBinary, if_neg notOctal, if_neg notHexadecimal]

/-- What is left behind a mark ends the text. -/
theorem baseMark_suffix (chars : List Char) : (baseMark chars).2 <:+ chars := by
  unfold baseMark
  split
  · rename_i mark digit rest
    have behind : digit :: rest <:+ '0' :: mark :: digit :: rest := ⟨['0', mark], rfl⟩
    split
    · exact behind
    · split
      · exact behind
      · split
        · exact behind
        · exact ⟨['0'], rfl⟩
  · exact ⟨['0'], rfl⟩
  · exact List.suffix_rfl

theorem baseMark_positive (chars : List Char) : 0 < (baseMark chars).1 := by
  unfold baseMark
  repeat' split
  all_goals simp

theorem WrittenIn.unmarked {mark : Char} {rest : List Char} (written : WrittenIn 8 (mark :: rest) number)
    (base : Nat) : (mark, base) ∉ marks := by
  intro announced
  obtain ⟨digits, same, small, _⟩ := written
  cases digits with
  | nil => cases same
  | cons digit digits =>
    have first : digitValue? mark = some digit := List.head_eq_of_cons_eq same
    have below := small digit List.mem_cons_self
    simp only [marks, List.mem_cons, Prod.mk.injEq, List.not_mem_nil, or_false] at announced
    rcases announced with ⟨rfl, rfl⟩ | ⟨rfl, rfl⟩ | ⟨rfl, rfl⟩ | ⟨rfl, rfl⟩ | ⟨rfl, rfl⟩ | ⟨rfl, rfl⟩
    all_goals
      cases first
      revert below
      decide

theorem numeral_iff : Numeral chars number ↔
    chars ≠ [] ∧ WrittenIn (baseMark chars).1 (baseMark chars).2 number := by
  constructor
  · intro numeral
    cases numeral with
    | decimal nonempty significant written =>
      refine ⟨nonempty, ?_⟩
      rw [baseMark_decimal significant]
      exact written
    | octal written =>
      refine ⟨List.cons_ne_nil _ _, ?_⟩
      rw [baseMark_octal fun mark digit rest same => (same ▸ written).unmarked]
      exact written
    | marked announced nonempty written =>
      refine ⟨List.cons_ne_nil _ _, ?_⟩
      rw [baseMark_marked announced nonempty]
      exact written
  · rintro ⟨nonempty, written⟩
    by_cases significant : chars.head? = some '0'
    · obtain ⟨rest, rfl⟩ : ∃ rest, chars = '0' :: rest := by
        cases chars with
        | nil => exact absurd rfl nonempty
        | cons first rest => exact ⟨rest, by rw [Option.some.inj significant]⟩
      by_cases marked : ∃ mark digit more base, rest = mark :: digit :: more ∧ (mark, base) ∈ marks
      · obtain ⟨mark, digit, more, base, rfl, announced⟩ := marked
        rw [baseMark_marked announced (List.cons_ne_nil _ _)] at written
        exact .marked announced (List.cons_ne_nil _ _) written
      · rw [baseMark_octal fun mark digit more same base announced =>
          marked ⟨mark, digit, more, base, same, announced⟩] at written
        exact .octal written
    · rw [baseMark_decimal significant] at written
      exact .decimal nonempty significant written

/-! ## Reading -/

variable {bits : Nat}

theorem readUnsigned_iff (plain : '_' ∉ chars) :
    readUnsigned bits chars = .ok number ↔ Numeral chars number ∧ number < 2 ^ bits := by
  have kept : '_' ∉ (baseMark chars).2 := fun mark => plain ((baseMark_suffix chars).mem mark)
  have range : number ≤ Nat.pow 2 bits - 1 ↔ number < 2 ^ bits := by
    have positive : 0 < 2 ^ bits := Nat.two_pow_pos bits
    rw [Nat.pow_eq]
    omega
  have noMark : (chars.contains '_' && !underscoresPlaced chars) = false := by
    rw [Bool.and_eq_false_iff]
    exact .inl (by simpa using plain)
  rw [numeral_iff, ← range, readUnsigned]
  cases chars with
  | nil => simp
  | cons first rest =>
    rw [if_neg (by simp)]
    have digits : readDigits (baseMark (first :: rest)).1 (Nat.pow 2 bits - 1) 0
        (baseMark (first :: rest)).2 = .ok number ↔ _ :=
      readDigits_zero_iff kept (baseMark_positive (first :: rest))
    dsimp only
    rw [and_iff_right (List.cons_ne_nil first rest), ← digits]
    cases readDigits (baseMark (first :: rest)).1 (Nat.pow 2 bits - 1) 0
        (baseMark (first :: rest)).2 with
    | error flaw => exact ⟨nofun, nofun⟩
    | ok value => simp only [noMark, Bool.false_eq_true, if_false]

theorem Numeral.unique {other : Nat} (plain : '_' ∉ chars) (left : Numeral chars number)
    (right : Numeral chars other) : number = other := by
  have wide : ∀ value ≤ number + other, value < 2 ^ (number + other) := fun value below =>
    Nat.lt_of_le_of_lt below Nat.lt_two_pow_self
  have first := (readUnsigned_iff plain).mpr ⟨left, wide number (by omega)⟩
  have second := (readUnsigned_iff plain).mpr ⟨right, wide other (by omega)⟩
  exact Except.ok.inj (first.symm.trans second)

theorem Numeral.head_digit (numeral : Numeral chars number) :
    ∃ first rest digit, chars = first :: rest ∧ digitValue? first = some digit := by
  cases numeral with
  | decimal nonempty _ written =>
    obtain ⟨digits, same, _⟩ := written
    cases chars with
    | nil => exact absurd rfl nonempty
    | cons first rest =>
      cases digits with
      | nil => cases same
      | cons digit digits => exact ⟨first, rest, digit, rfl, List.head_eq_of_cons_eq same⟩
  | octal _ => exact ⟨'0', _, 0, rfl, by decide⟩
  | marked _ _ _ => exact ⟨'0', _, 0, rfl, by decide⟩

theorem SignedNumeral.ne_nil {integer : Int} (numeral : SignedNumeral chars integer) :
    chars ≠ [] := by
  cases numeral with
  | unsigned numeral =>
    obtain ⟨first, rest, _, rfl, _⟩ := numeral.head_digit
    exact List.cons_ne_nil _ _
  | positive | negative => exact List.cons_ne_nil _ _

theorem Numeral.unsigned (numeral : Numeral chars number) (sign : Char)
    (isSign : sign = '+' ∨ sign = '-') : chars.head? ≠ some sign := by
  obtain ⟨first, rest, digit, rfl, isDigit⟩ := numeral.head_digit
  rintro same
  cases same
  rcases isSign with rfl | rfl
  · cases (isDigit : none = some digit)
  · cases (isDigit : none = some digit)

theorem signedNumeral_minus {integer : Int} :
    SignedNumeral ('-' :: chars) integer ↔
      ∃ number, Numeral chars number ∧ integer = -(number : Int) := by
  constructor
  · intro numeral
    cases numeral with
    | unsigned numeral => exact absurd rfl (numeral.unsigned '-' (.inr rfl))
    | negative numeral => exact ⟨_, numeral, rfl⟩
  · rintro ⟨number, numeral, rfl⟩
    exact .negative numeral

theorem signedNumeral_of_not_minus {integer : Int} (sign : chars.head? ≠ some '-') :
    SignedNumeral chars integer ↔
      ∃ number, Numeral (if chars.head? = some '+' then chars.drop 1 else chars) number ∧
        integer = number := by
  constructor
  · intro numeral
    cases numeral with
    | unsigned numeral =>
      rw [if_neg (numeral.unsigned '+' (.inl rfl))]
      exact ⟨_, numeral, rfl⟩
    | positive numeral => exact ⟨_, numeral, rfl⟩
    | negative numeral => exact absurd rfl sign
  · rintro ⟨number, numeral, rfl⟩
    split at numeral
    · rename_i plus
      obtain ⟨rest, rfl⟩ := List.head?_eq_some_iff.mp plus
      exact .positive numeral
    · exact .unsigned numeral

theorem readSigned_negative_iff (plain : '_' ∉ chars) (positive : 0 < bits) (integer : Int) :
    readSigned bits ('-' :: chars) = .ok integer ↔
      ∃ number, Numeral chars number ∧ integer = -(number : Int) ∧ number ≤ 2 ^ (bits - 1) := by
  have wider : 2 ^ (bits - 1) < 2 ^ bits := Nat.pow_lt_pow_right (by omega) (by omega)
  simp only [readSigned, dropSign, List.head?_cons, if_true]
  constructor
  · intro read
    cases magnitude : readUnsigned bits chars with
    | error flaw => simp [magnitude] at read
    | ok number =>
      simp only [magnitude] at read
      split at read
      · cases read
      · rename_i small
        cases read
        exact ⟨number, ((readUnsigned_iff plain).mp magnitude).1, rfl, Nat.le_of_not_lt small⟩
  · rintro ⟨number, numeral, rfl, small⟩
    have read : readUnsigned bits chars = .ok number :=
      (readUnsigned_iff plain).mpr ⟨numeral, by omega⟩
    simp only [read, Nat.pow_eq, if_neg (Nat.not_lt.mpr small)]

/-! ## Printed numbers -/

theorem digitValue?_digitChar {digit : Nat} (small : digit < 10) :
    digitValue? digit.digitChar = some digit := by
  interval_cases digit <;> rfl

theorem writtenIn_toDigits (number : Nat) : WrittenIn 10 (Nat.toDigits 10 number) number := by
  induction number using Nat.strongRecOn with
  | ind number ih =>
    by_cases small : number < 10
    · rw [Nat.toDigits_of_lt_base small]
      refine ⟨[number], ?_, by simpa using small, by simp⟩
      rw [List.map_singleton, List.map_singleton, digitValue?_digitChar small]
    · obtain ⟨digits, same, below, total⟩ := ih (number / 10) (by omega)
      have last : number % 10 < 10 := Nat.mod_lt _ (by omega)
      rw [Nat.toDigits_of_base_le (by omega) (by omega)]
      refine ⟨digits ++ [number % 10], ?_, ?_, ?_⟩
      · rw [List.map_append, List.map_append, same, List.map_singleton, List.map_singleton,
          digitValue?_digitChar last]
      · intro digit member
        rcases List.mem_append.mp member with member | member
        · exact below digit member
        · rwa [List.mem_singleton.mp member]
      · rw [List.reverse_append, List.reverse_singleton, List.singleton_append, Nat.ofDigits_cons,
          total]
        omega

theorem head_toDigits {number : Nat} (positive : 0 < number) :
    (Nat.toDigits 10 number).head? ≠ some '0' := by
  induction number using Nat.strongRecOn with
  | ind number ih =>
    by_cases small : number < 10
    · rw [Nat.toDigits_of_lt_base small]
      interval_cases number <;> decide
    · have shorter := ih (number / 10) (by omega) (by omega)
      rw [Nat.toDigits_of_base_le (by omega) (by omega)]
      obtain ⟨first, rest, same⟩ := List.exists_cons_of_ne_nil (Nat.toDigits_ne_nil (n := number / 10))
      rwa [same] at shorter ⊢

theorem numeral_toDigits (number : Nat) : Numeral (Nat.toDigits 10 number) number := by
  rcases Nat.eq_zero_or_pos number with rfl | positive
  · exact .octal ⟨[], rfl, by simp, rfl⟩
  · exact .decimal Nat.toDigits_ne_nil (head_toDigits positive) (writtenIn_toDigits number)

theorem signedNumeral_toString (integer : Int) : SignedNumeral (toString integer).toList integer := by
  cases integer with
  | ofNat number =>
    change SignedNumeral (Nat.repr number).toList number
    rw [Nat.toList_repr]
    exact .unsigned (numeral_toDigits number)
  | negSucc number =>
    change SignedNumeral ("-" ++ Nat.repr (number + 1)).toList (-((number + 1 : Nat) : Int))
    rw [String.toList_append, Nat.toList_repr]
    exact .negative (numeral_toDigits (number + 1))

theorem mem_toString {integer : Int} {char : Char} (member : char ∈ (toString integer).toList) :
    char = '-' ∨ char.isDigit = true := by
  cases integer with
  | ofNat number =>
    change char ∈ (Nat.repr number).toList at member
    rw [Nat.toList_repr] at member
    exact .inr (Nat.isDigit_of_mem_toDigits (by decide) (by decide) member)
  | negSucc number =>
    change char ∈ ("-" ++ Nat.repr (number + 1)).toList at member
    rw [String.toList_append, Nat.toList_repr] at member
    rcases List.mem_append.mp member with member | member
    · exact .inl (List.mem_singleton.mp member)
    · exact .inr (Nat.isDigit_of_mem_toDigits (by decide) (by decide) member)

end WasmX64.Number
