import Mathlib.Data.List.Forall2
import WasmX64.Instance.Call
import WasmX64.Proofs.Text.Lines
import WasmX64.Proofs.Wasm.Literal

/-!
# Arguments of a call as text

The text of arguments is cut at commas and each piece is read as the type of its parameter.  Values
of integer types that are printed and joined by commas are read back, and whatever is read for an
integer parameter is denoted by its piece.
-/

namespace WasmX64

/-! ## Pieces -/

theorem isBlank_comma {char : Char} (blank : Text.isBlank char = true) : (char == ',') = false := by
  rw [beq_eq_false_iff_ne]
  rintro rfl
  exact absurd blank (by decide)

namespace FuncType

variable {type : FuncType} {values : List Value} {params : List ValueType}
  {pieces : List (List Char)} {text : String}

theorem splitCommas_eq (current chars : List Char) :
    splitCommas current chars = chars.splitOnPPrepend (· == ',') current := by
  induction chars generalizing current with
  | nil => rfl
  | cons char rest ih =>
    rw [List.splitOnPPrepend_cons_eq_if]
    by_cases comma : char = ','
    · subst comma
      rw [splitCommas, ih, List.splitOnPPrepend_nil_right]
      rfl
    · rw [splitCommas.eq_3 _ _ _ (by simpa using comma), ih, if_neg (by simpa using comma)]

def argumentPieces (text : String) : List (List Char) :=
  let chars := Text.trim text.toList
  if chars.isEmpty then [] else chars.splitOn ','

theorem readArgs_cons {param : ValueType} {piece : List Char} (index : Nat) :
    readArgs index (param :: params) (piece :: pieces) = .ok values ↔
      ∃ value rest, Value.parse param (String.ofList piece) = .ok value ∧
        readArgs (index + 1) params pieces = .ok rest ∧ values = value :: rest := by
  rw [readArgs]
  cases Value.parse param (String.ofList piece) with
  | error cause => simp [Except.mapError, bind, Except.bind]
  | ok value =>
    cases readArgs (index + 1) params pieces with
    | error cause => simp [Except.mapError, bind, Except.bind]
    | ok rest => simp [Except.mapError, bind, Except.bind, pure, Except.pure, eq_comm]

theorem readArgs_iff (index : Nat) :
    readArgs index params pieces = .ok values ↔
      List.Forall₂ (fun argument value =>
        Value.parse argument.1 (String.ofList argument.2) = .ok value)
        (params.zip pieces) values := by
  induction params generalizing index pieces values with
  | nil => simp [readArgs, eq_comm]
  | cons param params ih =>
    cases pieces with
    | nil => simp [readArgs, eq_comm]
    | cons piece pieces =>
      rw [readArgs_cons, List.zip_cons_cons, List.forall₂_cons_left_iff]
      constructor
      · rintro ⟨value, rest, read, later, rfl⟩
        exact ⟨value, rest, read, (ih (index + 1)).mp later, rfl⟩
      · rintro ⟨value, rest, read, later, rfl⟩
        exact ⟨value, rest, read, (ih (index + 1)).mpr later, rfl⟩

theorem parseArgs_iff :
    type.parseArgs text = .ok values ↔
      (argumentPieces text).length = type.params.length ∧
      List.Forall₂ (fun argument value =>
        Value.parse argument.1 (String.ofList argument.2) = .ok value)
        (type.params.zip (argumentPieces text)) values := by
  have cut : (if (Text.trim text.toList).isEmpty then [] else
      splitCommas [] (Text.trim text.toList)) = argumentPieces text := by
    rw [splitCommas_eq, List.splitOnPPrepend_nil_right]
    rfl
  rw [parseArgs]
  simp only [cut]
  by_cases count : (argumentPieces text).length = type.params.length
  · rw [if_neg (by simpa using count), readArgs_iff, and_iff_right count]
  · rw [if_pos count]
    exact ⟨nofun, fun counted => absurd counted.1 count⟩

theorem checkTypes_iff (index : Nat) (count : values.length = params.length) :
    checkTypes index params values = .ok () ↔ values.map Value.type = params := by
  induction params generalizing index values with
  | nil => simp [checkTypes, List.length_eq_zero_iff.mp count]
  | cons param params ih =>
    cases values with
    | nil => cases count
    | cons value values =>
      rw [checkTypes, List.map_cons, List.cons_eq_cons]
      by_cases same : value.type = param
      · rw [if_neg (by simpa using same), ih (index + 1) (Nat.succ.inj count),
          and_iff_right same]
      · rw [if_pos same]
        exact ⟨nofun, fun typed => absurd typed.1 same⟩

/-- Arguments are accepted exactly if they have the types of the parameters. -/
theorem checkArgs_iff : type.checkArgs values = .ok () ↔ values.map Value.type = type.params := by
  rw [checkArgs]
  by_cases count : values.length = type.params.length
  · rw [if_neg (by simpa using count), checkTypes_iff 0 count]
  · rw [if_pos count]
    refine ⟨nofun, fun typed => absurd ?_ count⟩
    rw [← typed, List.length_map]

/-! ## Printed arguments -/

/-- A piece of text that shows an integer with blanks around it. -/
def Shows (value : Value) (piece : String) : Prop :=
  ∃ before after, Text.Blank before ∧ Text.Blank after ∧
    piece.toList = before ++ value.digits ++ after

/-- The printed form of an integer has neither blanks nor commas nor underscores. -/
theorem digits_solid {value : Value} (isInteger : value.type.isInteger = true) :
    ∀ char ∈ value.digits, Text.isBlank char = false ∧ char ≠ ',' ∧ char ≠ '_' := by
  intro char member
  rw [Value.digits_integer isInteger] at member
  rcases Number.mem_toString member with rfl | digit
  · decide
  · have range : 48 ≤ char.toNat ∧ char.toNat ≤ 57 := by
      simpa [Char.isDigit, UInt32.le_iff_toNat_le] using digit
    refine ⟨?_, ?_, ?_⟩
    · simp only [Text.isBlank, Bool.or_eq_false_iff, Bool.and_eq_false_iff, decide_eq_false_iff_not,
        beq_eq_false_iff_ne]
      omega
    · rintro rfl
      exact absurd range (by decide)
    · rintro rfl
      exact absurd range (by decide)

theorem trim_digits {value : Value} (isInteger : value.type.isInteger = true) :
    Text.trim value.digits = value.digits :=
  Text.trim_of_solid fun char member => (digits_solid isInteger char member).1

theorem parse_shown {value : Value} {piece : List Char} (isInteger : value.type.isInteger = true)
    (inWidth : value.bits.toNat < 2 ^ value.type.bits) (shown : Text.trim piece = value.digits) :
    Value.parse value.type (String.ofList piece) = .ok value := by
  have literal : Value.literal (String.ofList piece) = value.digits := by
    rw [Value.literal, String.toList_ofList, shown, List.filter_eq_self]
    intro char member
    simpa using (digits_solid isInteger char member).2.2
  rw [Value.parse_integer_iff isInteger, literal]
  exact ⟨rfl, Value.denotes_digits isInteger inWidth⟩

theorem reads_shown (integers : ∀ value ∈ values, value.type.isInteger = true)
    (inWidth : ∀ value ∈ values, value.bits.toNat < 2 ^ value.type.bits)
    (shown : pieces.map Text.trim = values.map Value.digits) :
    List.Forall₂ (fun argument value =>
      Value.parse argument.1 (String.ofList argument.2) = .ok value)
      ((values.map Value.type).zip pieces) values := by
  induction values generalizing pieces with
  | nil => simp
  | cons value values ih =>
    cases pieces with
    | nil => cases shown
    | cons piece pieces =>
      obtain ⟨first, rest⟩ := List.cons_eq_cons.mp shown
      rw [List.map_cons, List.zip_cons_cons]
      exact .cons
        (parse_shown (integers value List.mem_cons_self) (inWidth value List.mem_cons_self) first)
        (ih (fun other member => integers other (List.mem_cons_of_mem _ member))
          (fun other member => inWidth other (List.mem_cons_of_mem _ member)) rest)

theorem digits_ne_nil {value : Value} (isInteger : value.type.isInteger = true) :
    value.digits ≠ [] := by
  rw [Value.digits_integer isInteger]
  exact (Number.signedNumeral_toString _).ne_nil

theorem Shows.trim {value : Value} {piece : String} (isInteger : value.type.isInteger = true)
    (shown : Shows value piece) : Text.trim piece.toList = value.digits := by
  obtain ⟨before, after, blankBefore, blankAfter, same⟩ := shown
  rw [same, Text.trim_padded blankBefore blankAfter, trim_digits isInteger]

theorem Shows.no_comma {value : Value} {piece : String} (isInteger : value.type.isInteger = true)
    (shown : Shows value piece) : ',' ∉ piece.toList := by
  obtain ⟨before, after, blankBefore, blankAfter, same⟩ := shown
  have notBlank : Text.isBlank ',' ≠ true := by decide
  rw [same, List.mem_append, List.mem_append]
  rintro ((member | member) | member)
  · exact notBlank (blankBefore _ member)
  · exact (digits_solid isInteger _ member).2.1 rfl
  · exact notBlank (blankAfter _ member)

theorem shows_pieces {shows : List String}
    (integers : ∀ value ∈ values, value.type.isInteger = true)
    (shown : List.Forall₂ Shows values shows) :
    (shows.map String.toList).map Text.trim = values.map Value.digits ∧
      ∀ piece ∈ shows.map String.toList, ',' ∉ piece := by
  induction shown with
  | nil => simp
  | @cons value piece values shows first _ ih =>
    obtain ⟨isInteger, others⟩ := List.forall_mem_cons.mp integers
    obtain ⟨trimmed, plain⟩ := ih others
    refine ⟨?_, List.forall_mem_cons.mpr ⟨first.no_comma isInteger, plain⟩⟩
    rw [List.map_cons, List.map_cons, List.map_cons, first.trim isInteger, trimmed]

theorem argumentPieces_shown {shows : List String}
    (integers : ∀ value ∈ values, value.type.isInteger = true)
    (shown : List.Forall₂ Shows values shows) :
    (argumentPieces (",".intercalate shows)).map Text.trim = values.map Value.digits := by
  obtain ⟨trimmed, plain⟩ := shows_pieces integers shown
  cases shown with
  | nil => rfl
  | @cons value piece values shows first rest =>
    have joined : (",".intercalate (piece :: shows)).toList.splitOn ',' =
        (piece :: shows).map String.toList := by
      rw [String.toList_intercalate]
      exact List.splitOn_intercalate ',' plain (List.cons_ne_nil _ _)
    have pieces : ((Text.trim (",".intercalate (piece :: shows)).toList).splitOn ',').map
        Text.trim = (value :: values).map Value.digits := by
      rw [← trimmed, ← joined]
      exact Text.splitOnP_trim (fun char => isBlank_comma) _
    have solid : ¬ (Text.trim (",".intercalate (piece :: shows)).toList).isEmpty = true := by
      intro empty
      -- A blank text has one blank piece, which shows no integer.
      rw [List.isEmpty_iff.mp empty] at pieces
      have none : [] = value.digits := (List.cons_eq_cons.mp pieces).1
      exact digits_ne_nil (integers value List.mem_cons_self) none.symm
    simp only [argumentPieces, if_neg solid]
    exact pieces

/-- Integers survive printing and reading.  Values of the parameter types of a function of integers
that are printed behind their type, with blanks around each, and joined by commas are read back and
accepted.  Whatever text is read as arguments, the piece of an integer parameter denotes the integer
that is read, and the bits of that integer stay within the width of the type. -/
theorem integers_roundTrip (type : FuncType) :
    (∀ (values : List Value) (shows : List String), (∀ param ∈ type.params, param.isInteger = true) →
      values.map Value.type = type.params →
      (∀ value ∈ values, value.bits.toNat < 2 ^ value.type.bits) →
      List.Forall₂ Shows values shows →
        type.parseArgs (",".intercalate shows) = .ok values ∧
          type.checkArgs values = .ok ()) ∧
    ∀ (text : String) (values : List Value), type.parseArgs text = .ok values →
      values.map Value.type = type.params ∧
      ∀ (index : Nat) (value : Value), values[index]? = some value → value.type.isInteger = true →
        ∃ piece, (argumentPieces text)[index]? = some piece ∧
          Value.Denotes (Value.literal (String.ofList piece)) value ∧
          value.bits.toNat < 2 ^ value.type.bits := by
  constructor
  · intro values shows integers typed inWidth shown
    have integral : ∀ value ∈ values, value.type.isInteger = true := by
      intro value member
      apply integers
      rw [← typed]
      exact List.mem_map_of_mem member
    have trimmed := argumentPieces_shown integral shown
    have count : (argumentPieces (",".intercalate shows)).length = type.params.length := by
      rw [← typed, List.length_map, ← List.length_map Value.digits, ← trimmed, List.length_map]
    refine ⟨parseArgs_iff.mpr ⟨count, ?_⟩, checkArgs_iff.mpr typed⟩
    rw [← typed]
    exact reads_shown integral inWidth trimmed
  · intro text values read
    obtain ⟨count, reads⟩ := parseArgs_iff.mp read
    have typed : values.map Value.type = type.params := by
      have types : List.Forall₂ (fun argument value => argument.1 = Value.type value)
          (type.params.zip (argumentPieces text)) values :=
        reads.imp fun argument value parsed => (Value.type_of_parse parsed).symm
      have same : List.Forall₂ (· = ·) ((type.params.zip (argumentPieces text)).map Prod.fst)
          (values.map Value.type) :=
        List.forall₂_map_left_iff.mpr (List.forall₂_map_right_iff.mpr types)
      rw [List.forall₂_eq_eq_eq, List.map_fst_zip (Nat.le_of_eq count.symm)] at same
      exact same.symm
    refine ⟨typed, fun index value found isInteger => ?_⟩
    obtain ⟨inValues, rfl⟩ := List.getElem?_eq_some_iff.mp found
    have inZip : index < (type.params.zip (argumentPieces text)).length := by
      rwa [reads.length_eq]
    have inPieces : index < (argumentPieces text).length := by
      rw [List.length_zip] at inZip
      omega
    have parsed := reads.get inZip inValues
    rw [List.get_eq_getElem, List.get_eq_getElem, List.getElem_zip] at parsed
    have sameType := Value.type_of_parse parsed
    have denotes := ((Value.parse_integer_iff (sameType ▸ isInteger)).mp parsed).2
    exact ⟨_, List.getElem?_eq_getElem inPieces, denotes, denotes.inWidth⟩

theorem integers_roundTrip_mixed :
    (⟨[.i32, .i64], []⟩ : FuncType).parseArgs " -1 ,9223372036854775807\t" =
        .ok [⟨.i32, 4294967295⟩, ⟨.i64, 9223372036854775807⟩] ∧
      Value.Denotes ['0', 'x', 'F'] ⟨.i32, 15⟩ := by
  obtain ⟨printed, _⟩ := integers_roundTrip ⟨[.i32, .i64], []⟩
  obtain ⟨_, denoted⟩ := integers_roundTrip ⟨[.i32], []⟩
  constructor
  · have shown : List.Forall₂ Shows [⟨.i32, 4294967295⟩, ⟨.i64, 9223372036854775807⟩]
        [" -1 ", "9223372036854775807\t"] :=
      .cons ⟨[' '], [' '], by decide, by decide, by decide⟩
        (.cons ⟨[], ['\t'], by decide, by decide, by decide⟩ .nil)
    exact (printed _ _ (by decide) rfl (by decide) shown).1
  · obtain ⟨_, pieces⟩ := denoted " 0x_F" [⟨.i32, 15⟩] (by decide)
    obtain ⟨piece, found, denotes, _⟩ := pieces 0 _ rfl rfl
    have same : some ['0', 'x', '_', 'F'] = some piece := by
      rw [← found]
      decide
    cases same
    have literal : Value.literal (String.ofList ['0', 'x', '_', 'F']) = ['0', 'x', 'F'] := by
      decide
    rwa [literal] at denotes

end FuncType

end WasmX64
