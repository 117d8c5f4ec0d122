import WasmX64.Code.Step

/-!
# Straight-line code

Sequences without jumps.  Placing one appends the bytes of its instructions and
touches nothing else in the buffer.
-/

namespace WasmX64

namespace Instruction

/-- The bytes of instructions one after the other. -/
def encodeAll : List Instruction → Except CodeError (List UInt8)
  | [] => .ok []
  | instruction :: rest =>
    match instruction.encode, encodeAll rest with
    | .ok bytes, .ok more => .ok (bytes ++ more)
    | .error error, _ => .error error
    | .ok _, .error error => .error error

theorem encodeAll_cons {instruction : Instruction} {rest : List Instruction}
    {bytes more : List UInt8} (first : instruction.encode = .ok bytes)
    (others : encodeAll rest = .ok more) :
    encodeAll (instruction :: rest) = .ok (bytes ++ more) := by
  simp [encodeAll, first, others]

theorem encodeAll_append {first second : List Instruction} {bytes more : List UInt8}
    (front : encodeAll first = .ok bytes) (back : encodeAll second = .ok more) :
    encodeAll (first ++ second) = .ok (bytes ++ more) := by
  induction first generalizing bytes with
  | nil =>
    cases front
    exact back
  | cons instruction rest ih =>
    rw [encodeAll] at front
    split at front
    case h_1 head tail headBytes tailBytes =>
      cases front
      rw [List.cons_append, encodeAll_cons headBytes (ih tailBytes), List.append_assoc]
    case h_2 => cases front
    case h_3 => cases front

end Instruction

namespace Code

theorem append_nil (code : Code) : code.append [] = code := by
  unfold append
  split
  · rfl
  · cases code
    simp

theorem append_append (code : Code) (first second : List UInt8) :
    (code.append first).append second = code.append (first ++ second) := by
  unfold append
  cases failed : code.error.isSome
  · have together : code.bytes ++ first ++ second = code.bytes ++ (first ++ second) :=
      Array.ext' (by simp)
    simp [failed, together]
  · simp [failed]

/-- The buffer has grown by the bytes of instructions. -/
def Grows (before : Code) (instructions : List Instruction) (after : Code) : Prop :=
  ∃ bytes, Instruction.encodeAll instructions = .ok bytes ∧ after = before.append bytes

namespace Grows

theorem refl (code : Code) : Grows code [] code :=
  ⟨[], rfl, (append_nil code).symm⟩

theorem trans {before middle after : Code} {first second : List Instruction}
    (front : Grows before first middle) (back : Grows middle second after) :
    Grows before (first ++ second) after := by
  obtain ⟨bytes, encodes, rfl⟩ := front
  obtain ⟨more, alsoEncodes, rfl⟩ := back
  exact ⟨bytes ++ more, Instruction.encodeAll_append encodes alsoEncodes,
    append_append before bytes more⟩

end Grows

theorem foldl_placeStep_emit {base : Nat} {instructions : List Instruction}
    {bytes : List UInt8} (code : Code)
    (encodes : Instruction.encodeAll instructions = .ok bytes) :
    (instructions.map Step.emit).foldl (placeStep base) code = code.append bytes := by
  induction instructions generalizing code bytes with
  | nil =>
    cases encodes
    exact (append_nil code).symm
  | cons instruction rest ih =>
    rw [Instruction.encodeAll] at encodes
    split at encodes
    case h_1 head tail headBytes tailBytes =>
      cases encodes
      simp only [List.map_cons, List.foldl_cons, placeStep, emit, headBytes]
      rw [ih (code.append head) tailBytes, append_append]
    case h_2 => cases encodes
    case h_3 => cases encodes

theorem labels_append (code : Code) (bytes : List UInt8) :
    (code.append bytes).labels = code.labels := by
  unfold append
  split <;> rfl

theorem innerPlaces_emit (instructions : List Instruction) (count : Nat) :
    (instructions.map Step.emit).foldl (fun count step => max count step.innerPlaces) count =
      count := by
  induction instructions with
  | nil => rfl
  | cons instruction rest ih =>
    simpa [Step.innerPlaces, Step.target?] using ih

theorem place_emit {instructions : List Instruction} {bytes : List UInt8} (code : Code)
    (encodes : Instruction.encodeAll instructions = .ok bytes) :
    code.place (instructions.map Step.emit) = code.append bytes := by
  have complete : (instructions.map Step.emit).takeWhile Step.isComplete =
      instructions.map Step.emit := by
    have all : ∀ step ∈ instructions.map Step.emit, step.isComplete = true := by
      intro step member
      obtain ⟨instruction, _, rfl⟩ := List.mem_map.mp member
      rfl
    have kept : (instructions.map Step.emit ++ []).takeWhile Step.isComplete =
        instructions.map Step.emit ++ [].takeWhile Step.isComplete :=
      List.takeWhile_append_of_pos all
    simpa using kept
  unfold place
  simp only [complete, innerPlaces_emit, Array.replicate_zero, Array.append_empty]
  rw [foldl_placeStep_emit code encodes]
  have labels := labels_append code bytes
  cases grown : code.append bytes
  rw [grown] at labels
  subst labels
  simp

theorem grows_place {instructions : List Instruction} {bytes : List UInt8} (code : Code)
    (encodes : Instruction.encodeAll instructions = .ok bytes) :
    code.Grows instructions (code.place (instructions.map Step.emit)) :=
  ⟨bytes, encodes, place_emit code encodes⟩

end Code

/-! ## Displacement fields

The fields of the code that hold the displacements of jumps, four bytes or one byte
wide.  A field reads as a signed number.  A number that fits reads back from the field
it was written to, and no byte outside that field changes.
-/

theorem toInt_byteOf {value : Int} (low : -128 ≤ value) (high : value ≤ 127) :
    (byteOf value).toInt8.toInt = value := by
  change (BitVec.ofNat 8 (value % 256).toNat).toInt = value
  have wrapped : ((value % 256).toNat : Int) = value % (256 : Nat) := by omega
  rw [BitVec.toInt_ofNat', wrapped]
  exact (Int.emod_bmod value 256).trans (Int.bmod_eq_of_le (by omega) (by omega))

theorem toInt_wordOf {value : Int} (low : -2147483648 ≤ value) (high : value ≤ 2147483647) :
    (wordOf value).toInt32.toInt = value := by
  change (BitVec.ofNat 32 (value % 4294967296).toNat).toInt = value
  have wrapped : ((value % 4294967296).toNat : Int) = value % (4294967296 : Nat) := by omega
  rw [BitVec.toInt_ofNat', wrapped]
  exact (Int.emod_bmod value 4294967296).trans (Int.bmod_eq_of_le (by omega) (by omega))

theorem length_bytes32 (word : UInt32) : (bytes32 word).length = 4 := rfl

theorem length_bytes64 (word : UInt64) : (bytes64 word).length = 8 := rfl

theorem join_bytes32 (word : UInt32) :
    word.toUInt8.toUInt32 ||| (word >>> 8).toUInt8.toUInt32 <<< 8 |||
      (word >>> 16).toUInt8.toUInt32 <<< 16 ||| (word >>> 24).toUInt8.toUInt32 <<< 24 =
        word := by
  apply UInt32.eq_of_toBitVec_eq
  apply BitVec.eq_of_getLsbD_eq
  intro index small
  have byte : ∀ start, start ≤ index →
      word.toBitVec.getLsbD (start + (index - start)) = word.toBitVec.getLsbD index := by
    intro start reached
    congr 1
    omega
  simp only [UInt32.toBitVec_or, UInt32.toBitVec_shiftLeft, UInt8.toBitVec_toUInt32,
    UInt32.toBitVec_toUInt8, UInt32.toBitVec_shiftRight, BitVec.getLsbD_or]
  simp
  by_cases first : index < 8
  · grind
  · by_cases second : index < 16
    · grind
    · by_cases third : index < 24
      · grind
      · grind

namespace Distance

/-- The number of bytes of a displacement. -/
def width : Distance → Nat
  | .far => 4
  | .near => 1

/-- The bytes of a displacement. -/
def bytes : Distance → Int → List UInt8
  | .far, value => bytes32 (wordOf value)
  | .near, value => [byteOf value]

/-- The displacements that a field can hold. -/
def Fits : Distance → Int → Prop
  | .far, value => -2147483648 ≤ value ∧ value ≤ 2147483647
  | .near, value => -128 ≤ value ∧ value ≤ 127

@[simp] theorem length_bytes (distance : Distance) (value : Int) :
    (distance.bytes value).length = distance.width := by
  cases distance <;> rfl

theorem width_pos (distance : Distance) : 0 < distance.width := by
  cases distance <;> decide

end Distance

/-- A displacement in the code, by its width and its first byte. -/
structure Field where
  distance : Distance
  site : Nat
deriving DecidableEq, Repr

namespace Field

/-- The offset behind a field, from which its displacement counts. -/
def finish (field : Field) : Nat := field.site + field.distance.width

/-- An offset inside a field. -/
def Covers (field : Field) (offset : Nat) : Prop :=
  field.site ≤ offset ∧ offset < field.finish

/-- Two fields without a byte in common. -/
def Apart (left right : Field) : Prop :=
  left.finish ≤ right.site ∨ right.finish ≤ left.site

theorem Apart.symm {left right : Field} (apart : left.Apart right) : right.Apart left :=
  Or.symm apart

theorem site_lt_finish (field : Field) : field.site < field.finish := by
  have positive := field.distance.width_pos
  unfold finish
  omega

theorem Apart.not_covers {left right : Field} (apart : left.Apart right) {offset : Nat}
    (inside : left.Covers offset) : ¬ right.Covers offset := by
  unfold Apart Covers at *
  omega

end Field

namespace Code

/-- The number in a field, as the processor reads it. -/
def displacement (code : Code) (field : Field) : Int :=
  match field.distance with
  | .far => (code.wordAt field.site).toInt32.toInt
  | .near => (code.byteAt field.site).toInt8.toInt

def Holds (code : Code) (offset : Nat) (bytes : List UInt8) : Prop :=
  ∀ index byte, bytes[index]? = some byte → code.bytes[offset + index]? = some byte

/-- Two buffers agree but for the bytes at some offsets. -/
structure SameBut (touched : Nat → Prop) (before after : Code) : Prop where
  labels : after.labels = before.labels
  size : after.size = before.size
  bytes : ∀ offset, ¬ touched offset → after.bytes[offset]? = before.bytes[offset]?

section Holds

variable {code : Code} {offset : Nat} {first second bytes : List UInt8}

theorem Holds.byteAt {index : Nat} {byte : UInt8} (holds : code.Holds offset bytes)
    (found : bytes[index]? = some byte) : code.byteAt (offset + index : Nat) = byte := by
  have here := holds index byte found
  simp only [Code.byteAt, Int.toNat_natCast, here, Option.getD_some]
  exact if_pos (Int.natCast_nonneg _)

theorem holds_append_iff :
    code.Holds offset (first ++ second) ↔
      code.Holds offset first ∧ code.Holds (offset + first.length) second := by
  constructor
  · intro holds
    constructor
    · intro index byte found
      apply holds index byte
      rw [List.getElem?_append_left (List.getElem?_eq_some_iff.mp found).1]
      exact found
    · intro index byte found
      rw [Nat.add_assoc]
      apply holds (first.length + index) byte
      rw [List.getElem?_append_right (by omega), Nat.add_sub_cancel_left]
      exact found
  · intro parts index byte found
    by_cases left : index < first.length
    · rw [List.getElem?_append_left left] at found
      exact parts.1 index byte found
    · rw [List.getElem?_append_right (by omega)] at found
      have here := parts.2 (index - first.length) byte found
      have place : offset + first.length + (index - first.length) = offset + index := by omega
      rw [place] at here
      exact here

theorem Holds.displacement {field : Field} {value : Int} (fits : field.distance.Fits value)
    (holds : code.Holds field.site (field.distance.bytes value)) :
    code.displacement field = value := by
  cases field with
  | mk distance site =>
    cases distance with
    | near =>
      have byte : code.byteAt (site + 0 : Nat) = byteOf value := holds.byteAt rfl
      change (code.byteAt site).toInt8.toInt = value
      rw [Nat.add_zero] at byte
      rw [byte]
      exact toInt_byteOf fits.1 fits.2
    | far =>
      have zero : code.byteAt (site + 0 : Nat) = (wordOf value).toUInt8 := holds.byteAt rfl
      have one : code.byteAt (site + 1 : Nat) = (wordOf value >>> 8).toUInt8 :=
        holds.byteAt rfl
      have two : code.byteAt (site + 2 : Nat) = (wordOf value >>> 16).toUInt8 :=
        holds.byteAt rfl
      have three : code.byteAt (site + 3 : Nat) = (wordOf value >>> 24).toUInt8 :=
        holds.byteAt rfl
      change (code.wordAt site).toInt32.toInt = value
      simp only [Int.natCast_add] at zero one two three
      simp only [Code.wordAt, zero, one, two, three]
      rw [join_bytes32]
      exact toInt_wordOf fits.1 fits.2

end Holds

namespace SameBut

variable {touched wider : Nat → Prop} {first second third : Code}

theorem refl (code : Code) : SameBut touched code code := by
  constructor
  · rfl
  · rfl
  · intro offset outside
    rfl

theorem trans (left : SameBut touched first second) (right : SameBut touched second third) :
    SameBut touched first third := by
  constructor
  · exact right.labels.trans left.labels
  · exact right.size.trans left.size
  · intro offset outside
    exact (right.bytes offset outside).trans (left.bytes offset outside)

theorem mono (same : SameBut touched first second)
    (within : ∀ offset, touched offset → wider offset) : SameBut wider first second := by
  constructor
  · exact same.labels
  · exact same.size
  · intro offset outside
    exact same.bytes offset fun inside => outside (within offset inside)

theorem holds (same : SameBut touched first second) {offset : Nat} {bytes : List UInt8}
    (outside : ∀ index < bytes.length, ¬ touched (offset + index))
    (holds : first.Holds offset bytes) : second.Holds offset bytes := by
  intro index byte found
  rw [same.bytes _ (outside index (List.getElem?_eq_some_iff.mp found).1)]
  exact holds index byte found

end SameBut

/-- Fields read alike in buffers that agree on their bytes. -/
theorem displacement_congr {before after : Code} {field : Field}
    (same : ∀ offset, field.Covers offset → after.bytes[offset]? = before.bytes[offset]?) :
    after.displacement field = before.displacement field := by
  cases field with
  | mk distance site =>
    have bytes : ∀ index < distance.width,
        after.byteAt (site + index : Nat) = before.byteAt (site + index : Nat) := by
      intro index inside
      have here := same (site + index) ⟨Nat.le_add_right _ _, Nat.add_lt_add_left inside _⟩
      simp only [Code.byteAt, Int.toNat_natCast, here]
    cases distance with
    | near =>
      have byte := bytes 0 (by decide)
      simp only [Int.natCast_add] at byte
      simpa [displacement] using congrArg (fun byte => byte.toInt8.toInt) byte
    | far =>
      have zero := bytes 0 (by decide)
      have one := bytes 1 (by decide)
      have two := bytes 2 (by decide)
      have three := bytes 3 (by decide)
      simp only [Int.natCast_add] at zero one two three
      simp only [displacement, Code.wordAt, zero, one, two, three]

theorem SameBut.displacement {touched : Nat → Prop} {before after : Code}
    (same : SameBut touched before after) {field : Field}
    (outside : ∀ offset, field.Covers offset → ¬ touched offset) :
    after.displacement field = before.displacement field :=
  displacement_congr fun offset inside => same.bytes offset (outside offset inside)

section Append

variable {code : Code} {bytes : List UInt8}

theorem bytes_append (sound : code.error = none) :
    (code.append bytes).bytes = code.bytes ++ bytes.toArray := by
  apply Array.ext'
  simp [append, sound]

@[simp] theorem error_append : (code.append bytes).error = code.error := by
  unfold append
  split
  · rfl
  · rfl

theorem size_append (sound : code.error = none) :
    (code.append bytes).size = code.size + bytes.length := by
  simp [size, bytes_append sound]

theorem getElem?_append_left {offset : Nat} (inside : offset < code.size) :
    (code.append bytes).bytes[offset]? = code.bytes[offset]? := by
  cases failed : code.error with
  | some error => simp [append, failed]
  | none =>
    rw [bytes_append failed]
    exact Array.getElem?_append_left inside

theorem holds_append (sound : code.error = none) : (code.append bytes).Holds code.size bytes := by
  intro index byte found
  rw [bytes_append sound, ← found]
  simp [size, Array.getElem?_append_right]

theorem displacement_append {field : Field} (inside : field.finish ≤ code.size) :
    (code.append bytes).displacement field = code.displacement field := by
  apply displacement_congr
  intro offset covered
  exact getElem?_append_left (Nat.lt_of_lt_of_le covered.2 inside)

end Append

section Patch

theorem size_overwrite (bytes : Array UInt8) (index : Nat) (list : List UInt8) :
    (overwrite bytes index list).size = bytes.size := by
  induction list generalizing bytes index with
  | nil => rfl
  | cons byte rest ih => simp [overwrite, ih]

theorem getElem?_overwrite (bytes : Array UInt8) (index : Nat) (list : List UInt8)
    {offset : Nat} (outside : ¬ (index ≤ offset ∧ offset < index + list.length)) :
    (overwrite bytes index list)[offset]? = bytes[offset]? := by
  induction list generalizing bytes index with
  | nil => rfl
  | cons byte rest ih =>
    rw [List.length_cons] at outside
    rw [overwrite, ih _ _ (by omega), Array.getElem?_setIfInBounds]
    rw [if_neg (by omega)]

theorem getElem?_overwrite_inside (bytes : Array UInt8) (index : Nat) (list : List UInt8)
    (room : index + list.length ≤ bytes.size) {place : Nat} {byte : UInt8}
    (found : list[place]? = some byte) :
    (overwrite bytes index list)[index + place]? = some byte := by
  induction list generalizing bytes index place with
  | nil => simp at found
  | cons head rest ih =>
    rw [List.length_cons] at room
    cases place with
    | zero =>
      have same : head = byte := by simpa using found
      rw [overwrite, getElem?_overwrite _ _ _ (by omega)]
      simp only [Nat.add_zero, Array.getElem?_setIfInBounds, if_true]
      rw [if_pos (by omega), same]
    | succ place =>
      have shifted : index + (place + 1) = index + 1 + place := by omega
      rw [overwrite, shifted]
      apply ih _ _ (by simpa using by omega)
      simpa using found

theorem patch_same {code : Code} {offset : Nat} {bytes : List UInt8}
    (inside : offset + bytes.length ≤ code.size) :
    SameBut (fun place => offset ≤ place ∧ place < offset + bytes.length) code
      (code.patch offset bytes) ∧ (code.patch offset bytes).Holds offset bytes ∧
      (code.patch offset bytes).error = code.error := by
  have covered : code.covers offset bytes.length = true := by
    simp only [covers, Bool.and_eq_true, decide_eq_true_eq]
    omega
  unfold patch
  rw [if_pos covered]
  refine ⟨?_, ?_, rfl⟩
  · constructor
    · rfl
    · exact size_overwrite _ _ _
    · intro place outside
      exact getElem?_overwrite _ _ _ outside
  · intro index byte found
    exact getElem?_overwrite_inside _ _ _ inside found

theorem patch_field {code : Code} (field : Field) {value : Int}
    (inside : field.finish ≤ code.size) (fits : field.distance.Fits value) :
    SameBut field.Covers code (code.patch field.site (field.distance.bytes value)) ∧
      (code.patch field.site (field.distance.bytes value)).displacement field = value ∧
      (code.patch field.site (field.distance.bytes value)).error = code.error := by
  have room : field.site + (field.distance.bytes value).length ≤ code.size := by
    simpa [Field.finish] using inside
  obtain ⟨same, holds, error⟩ := patch_same room
  refine ⟨?_, holds.displacement fits, error⟩
  apply same.mono
  intro offset covered
  simpa [Field.Covers, Field.finish] using covered

end Patch

end Code

end WasmX64
