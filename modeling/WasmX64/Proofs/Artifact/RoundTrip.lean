import Mathlib.Algebra.Ring.Int.Defs
import Mathlib.Algebra.Ring.Nat
import WasmX64.Proofs.Artifact.Reading

/-!
# Artifacts written and read back

An artifact comes back from its bytes exactly when the format can represent it: its lists are
short enough, its types are numeric and its numbers are words.  What is read is always of this
kind.  Writing it again gives the bytes it was read from, unless a kind or an opcode was
narrowed.
-/

/-!
## The format of artifacts

Which bytes stand for which artifact.  A reader reads a form if it succeeds on bytes exactly when
they begin with bytes of that form.  The form of a record is given by its words: each number is
read as 32 bits and then narrowed to what it stands for.
-/

namespace WasmX64

theorem ValueType.code_ofCode (code : UInt8) : (ofCode code).code = code := by
  unfold ofCode
  grind [ValueType.code]

structure ReferenceWords where
  offset : UInt32
  kind : UInt32
  index : UInt32
deriving DecidableEq, Repr

namespace ReferenceWords

def bytes (words : ReferenceWords) : List UInt8 :=
  bytes32 words.offset ++ bytes32 words.kind ++ bytes32 words.index

/-- The reference that is read; a kind is a byte. -/
def reference (words : ReferenceWords) : Reference :=
  ⟨(words.offset.toNat : Int), .ofCode words.kind.toUInt8, words.index⟩

end ReferenceWords

/-- The words of a trap site. -/
structure TrapWords where
  kind : UInt32
  instr : UInt32
  offset : UInt32
deriving DecidableEq, Repr

namespace TrapWords

def bytes (words : TrapWords) : List UInt8 :=
  bytes32 words.kind ++ bytes32 words.instr ++ bytes32 words.offset

/-- The site that is read. -/
def site (words : TrapWords) : TrapSite :=
  ⟨.ofCode words.kind, (words.instr.toNat : Int), (words.offset.toNat : Int)⟩

end TrapWords

/-- The words of an entry of a source map. -/
structure SourceWords where
  offset : UInt32
  instr : UInt32
  op : UInt32
deriving DecidableEq, Repr

namespace SourceWords

def bytes (words : SourceWords) : List UInt8 :=
  bytes32 words.offset ++ bytes32 words.instr ++ bytes32 words.op

/-- The entry that is read; an opcode has sixteen bits. -/
def entry (words : SourceWords) : SourceEntry :=
  ⟨(words.offset.toNat : Int), (words.instr.toNat : Int), .ofCode words.op.toUInt16⟩

end SourceWords

/-- The words of a function record. -/
structure FunctionWords where
  index : UInt32
  type : FuncType
  frameSlots : UInt32
  code : List UInt8
  refs : List ReferenceWords
  traps : List TrapWords
  sources : List SourceWords
deriving DecidableEq, Repr

namespace FunctionWords

def bytes (words : FunctionWords) : List UInt8 :=
  bytes32 words.index ++ Artifact.encodeTypes words.type.params ++
    Artifact.encodeTypes words.type.results ++ bytes32 words.frameSlots ++
    Artifact.encodeList (fun byte => [byte]) words.code ++
    Artifact.encodeList ReferenceWords.bytes words.refs ++
    Artifact.encodeList TrapWords.bytes words.traps ++
    Artifact.encodeList SourceWords.bytes words.sources

/-- The function that is read. -/
def stored (words : FunctionWords) : StoredFunction where
  index := words.index
  type := words.type
  code := words.code
  refs := words.refs.map ReferenceWords.reference
  frameSlots := (words.frameSlots.toNat : Int)
  traps := words.traps.map TrapWords.site
  sources := words.sources.map SourceWords.entry

end FunctionWords

/-- A function type whose lists are not too long and whose types are numeric. -/
structure FuncType.Storable (type : FuncType) : Prop where
  params : type.params.length ≤ 2 ^ 26
  results : type.results.length ≤ 2 ^ 26
  valid : ∀ value ∈ type.params ++ type.results, value.isValid = true

/-- A record whose lists are not too long. -/
structure FunctionWords.Bounded (words : FunctionWords) : Prop where
  type : words.type.Storable
  code : words.code.length ≤ 2 ^ 26
  refs : words.refs.length ≤ 2 ^ 26
  traps : words.traps.length ≤ 2 ^ 26
  sources : words.sources.length ≤ 2 ^ 26

def FunctionWords.payload (records : List FunctionWords) : List UInt8 :=
  Artifact.encodeList FunctionWords.bytes records

namespace Artifact

variable {α β γ : Type}

/-- Reads the records of an artifact and leaves what follows them. -/
def readArtifact : ByteReader Artifact := do
  return ⟨← readItems readFunction (← readWord).toNat⟩

theorem decode_eq (payload : List UInt8) :
    decode payload = (readArtifact payload).map Prod.fst := by
  unfold decode readArtifact
  change (readWord payload >>= fun count => readItems readFunction count.1.toNat count.2 >>=
    fun found => pure (Artifact.mk found.1)) =
    (readWord payload >>= fun count => readItems readFunction count.1.toNat count.2 >>=
      fun found => pure (Artifact.mk found.1, found.2)).map Prod.fst
  cases readWord payload with
  | error cause => rfl
  | ok count =>
    change (readItems readFunction count.1.toNat count.2 >>= fun found =>
      pure (Artifact.mk found.1)) = (readItems readFunction count.1.toNat count.2 >>=
        fun found => pure (Artifact.mk found.1, found.2)).map Prod.fst
    cases readItems readFunction count.1.toNat count.2 with
    | error cause => rfl
    | ok found => rfl

/-- A reader succeeds on bytes exactly when they begin with bytes of a form. -/
def Reads (reader : ByteReader α) (form : α → List UInt8 → Prop) : Prop :=
  ∀ input value left, reader input = .ok (value, left) ↔
    ∃ taken, form value taken ∧ input = taken ++ left

theorem bytes32_wordOfBytes {bytes : List UInt8} (four : bytes.length = 4) :
    bytes32 (wordOfBytes bytes) = bytes := by
  obtain ⟨first, second, third, fourth, rfl⟩ :
      ∃ first second third fourth, bytes = [first, second, third, fourth] := by
    match bytes, four with
    | [first, second, third, fourth], _ => exact ⟨first, second, third, fourth, rfl⟩
  have byte : ∀ (left right : UInt8), (∀ index < 8,
      left.toBitVec.getLsbD index = right.toBitVec.getLsbD index) → left = right := by
    intro left right same
    exact UInt8.eq_of_toBitVec_eq (BitVec.eq_of_getLsbD_eq same)
  simp only [bytes32, wordOfBytes, List.foldr_cons, List.foldr_nil, List.cons.injEq, and_true]
  refine ⟨byte _ _ ?_, byte _ _ ?_, byte _ _ ?_, byte _ _ ?_⟩
  · intro index small
    simp
  · intro index small
    simp
    grind
  · intro index small
    simp
    grind
  · intro index small
    simp
    grind

namespace Reads

variable {reader : ByteReader α} {form : α → List UInt8 → Prop}

theorem congr {other : α → List UInt8 → Prop} (reads : Reads reader form)
    (same : ∀ value taken, form value taken ↔ other value taken) : Reads reader other := by
  intro input value left
  simp only [reads input value left, same]

theorem pure (value : α) :
    Reads (Pure.pure value) fun result taken => result = value ∧ taken = [] := by
  intro input result left
  constructor
  · intro reads
    cases reads
    exact ⟨[], ⟨rfl, rfl⟩, rfl⟩
  · rintro ⟨taken, ⟨rfl, rfl⟩, rfl⟩
    rfl

theorem throw (cause : ReadError) : Reads (throw cause : ByteReader α) fun _ _ => False := by
  intro input result left
  constructor
  · intro reads
    cases reads
  · rintro ⟨_, impossible, _⟩
    exact impossible.elim

theorem bind {next : α → ByteReader β} {after : α → β → List UInt8 → Prop}
    (first : Reads reader form) (second : ∀ value, Reads (next value) (after value)) :
    Reads (reader >>= next) fun result taken =>
      ∃ value front back, form value front ∧ after value result back ∧ taken = front ++ back := by
  intro input result left
  change (reader input >>= fun found => next found.1 found.2) = _ ↔ _
  constructor
  · intro reads
    cases begins : reader input with
    | error cause =>
      rw [begins] at reads
      cases reads
    | ok found =>
      obtain ⟨value, middle⟩ := found
      rw [begins] at reads
      obtain ⟨front, here, rfl⟩ := (first input value middle).mp begins
      obtain ⟨back, there, rfl⟩ := (second value middle result left).mp reads
      exact ⟨front ++ back, ⟨value, front, back, here, there, rfl⟩, (List.append_assoc ..).symm⟩
  · rintro ⟨taken, ⟨value, front, back, here, there, rfl⟩, rfl⟩
    rw [List.append_assoc, (first _ value (back ++ left)).mpr ⟨front, here, rfl⟩]
    exact (second value _ result left).mpr ⟨back, there, rfl⟩

/-- A last action that takes nothing. -/
theorem map (change : α → β) (reads : Reads reader form) :
    Reads (reader >>= fun value => Pure.pure (change value)) fun result taken =>
      ∃ value, form value taken ∧ result = change value := by
  refine (reads.bind fun value => pure (change value)).congr fun result taken => ?_
  constructor
  · rintro ⟨value, front, back, here, ⟨rfl, rfl⟩, rfl⟩
    exact ⟨value, by rwa [List.append_nil], rfl⟩
  · rintro ⟨value, here, rfl⟩
    exact ⟨value, taken, [], here, ⟨rfl, rfl⟩, (List.append_nil _).symm⟩

theorem iteThrow (condition : Prop) [Decidable condition] (cause : ReadError)
    (reads : Reads reader form) :
    Reads (if condition then MonadExcept.throw cause >>= fun (_ : PUnit) => reader else reader)
      fun value taken => ¬ condition ∧ form value taken := by
  by_cases fails : condition
  · rw [if_pos fails]
    refine ((throw cause).bind fun _ => reads).congr fun value taken => ?_
    simp [fails]
  · rw [if_neg fails]
    refine reads.congr fun value taken => ?_
    simp [fails]

theorem takeBytes (count : Nat) :
    Reads (takeBytes count) fun bytes taken => bytes.length = count ∧ taken = bytes := by
  intro input bytes left
  change (if (input.take count).length < count then _ else _ : ByteReader (List UInt8)) input =
    _ ↔ _
  by_cases short : (input.take count).length < count
  · rw [if_pos short]
    constructor
    · intro reads
      cases reads
    · rintro ⟨taken, ⟨length, rfl⟩, rfl⟩
      simp [length] at short
  · rw [if_neg short]
    constructor
    · intro reads
      cases reads
      refine ⟨input.take count, ⟨?_, rfl⟩, (List.take_append_drop count input).symm⟩
      rw [List.length_take] at short ⊢
      omega
    · rintro ⟨taken, ⟨length, rfl⟩, rfl⟩
      subst length
      change Except.ok _ = _
      simp

theorem readWord : Reads readWord fun word taken => taken = bytes32 word := by
  refine ((takeBytes 4).map wordOfBytes).congr fun word taken => ?_
  constructor
  · rintro ⟨bytes, ⟨four, rfl⟩, rfl⟩
    exact (bytes32_wordOfBytes four).symm
  · rintro rfl
    exact ⟨bytes32 word, ⟨rfl, rfl⟩, (wordOfBytes_bytes32 word).symm⟩

theorem readNumber :
    Reads readNumber fun number taken =>
      ∃ word, taken = bytes32 word ∧ number = (word.toNat : Int) :=
  map (fun word : UInt32 => (word.toNat : Int)) readWord

theorem readLength : Reads readLength fun length taken =>
    length ≤ 2 ^ 26 ∧ taken = bytes32 (UInt32.ofNat length) := by
  refine (readWord.bind fun count =>
    (iteThrow (maxLength < count) (ReadError.length count) (pure count.toNat))).congr
    fun length taken => ?_
  have limit (count : UInt32) : ¬ maxLength < count ↔ count.toNat ≤ 2 ^ 26 := by
    rw [UInt32.lt_iff_toNat_lt]
    exact Nat.not_lt
  constructor
  · rintro ⟨count, front, back, rfl, ⟨few, rfl, rfl⟩, rfl⟩
    rw [UInt32.ofNat_toNat, List.append_nil]
    exact ⟨(limit count).mp few, rfl⟩
  · rintro ⟨few, rfl⟩
    have same : (UInt32.ofNat length).toNat = length :=
      UInt32.toNat_ofNat_of_lt' (show length < 2 ^ 32 by omega)
    exact ⟨_, _, [], rfl, ⟨(limit _).mpr (by rwa [same]), same.symm, rfl⟩, (List.append_nil _).symm⟩

theorem readItems {item : ByteReader α} {fits : γ → Prop} {made : γ → α} {bytes : γ → List UInt8}
    (each : Reads item fun value taken => ∃ source, fits source ∧ value = made source ∧
      taken = bytes source) (count : Nat) :
    Reads (readItems item count) fun values taken => ∃ sources : List γ, sources.length = count ∧
      (∀ source ∈ sources, fits source) ∧ values = sources.map made ∧
      taken = sources.flatMap bytes := by
  induction count with
  | zero =>
    refine (pure []).congr fun values taken => ?_
    constructor
    · rintro ⟨rfl, rfl⟩
      exact ⟨[], rfl, by simp, rfl, rfl⟩
    · rintro ⟨sources, none, _, rfl, rfl⟩
      rw [List.eq_nil_of_length_eq_zero none]
      exact ⟨rfl, rfl⟩
  | succ count ih =>
    refine (each.bind fun value => ih.map (value :: ·)).congr fun values taken => ?_
    constructor
    · rintro ⟨_, _, _, ⟨source, here, rfl, rfl⟩,
        ⟨_, ⟨sources, length, others, rfl, rfl⟩, rfl⟩, rfl⟩
      refine ⟨source :: sources, by rw [List.length_cons, length], ?_, rfl, rfl⟩
      exact List.forall_mem_cons.mpr ⟨here, others⟩
    · rintro ⟨sources, length, fit, rfl, rfl⟩
      cases sources with
      | nil => cases length
      | cons source sources =>
        obtain ⟨here, others⟩ := List.forall_mem_cons.mp fit
        exact ⟨_, _, _, ⟨source, here, rfl, rfl⟩,
          ⟨_, ⟨sources, Nat.succ.inj length, others, rfl, rfl⟩, rfl⟩, rfl⟩

theorem readList {item : ByteReader α} {fits : γ → Prop} {made : γ → α} {bytes : γ → List UInt8}
    (each : Reads item fun value taken => ∃ source, fits source ∧ value = made source ∧
      taken = bytes source) :
    Reads (readList item) fun values taken => ∃ sources : List γ, sources.length ≤ 2 ^ 26 ∧
      (∀ source ∈ sources, fits source) ∧ values = sources.map made ∧
      taken = encodeList bytes sources := by
  refine (readLength.bind fun count => readItems each count).congr fun values taken => ?_
  constructor
  · rintro ⟨count, _, _, ⟨few, rfl⟩, ⟨sources, rfl, fit, rfl, rfl⟩, rfl⟩
    exact ⟨sources, few, fit, rfl, rfl⟩
  · rintro ⟨sources, few, fit, rfl, rfl⟩
    exact ⟨_, _, _, ⟨few, rfl⟩, ⟨sources, rfl, fit, rfl, rfl⟩, rfl⟩

theorem mapM_check {item : α → ByteReader β} {fits : α → Prop} {change : α → β}
    (checks : ∀ value, Reads (item value) fun result taken =>
      fits value ∧ result = change value ∧ taken = []) (items : List α) :
    Reads (items.mapM item) fun results taken =>
      (∀ value ∈ items, fits value) ∧ results = items.map change ∧ taken = [] := by
  induction items with
  | nil =>
    refine (pure []).congr fun results taken => ?_
    simp
  | cons value rest ih =>
    rw [List.mapM_cons]
    refine ((checks value).bind fun first => ih.map (first :: ·)).congr fun results taken => ?_
    constructor
    · rintro ⟨_, _, _, ⟨here, rfl, rfl⟩, ⟨_, ⟨others, rfl, rfl⟩, rfl⟩, rfl⟩
      exact ⟨List.forall_mem_cons.mpr ⟨here, others⟩, rfl, rfl⟩
    · rintro ⟨fit, rfl, rfl⟩
      obtain ⟨here, others⟩ := List.forall_mem_cons.mp fit
      exact ⟨_, _, _, ⟨here, rfl, rfl⟩, ⟨_, ⟨others, rfl, rfl⟩, rfl⟩, rfl⟩

theorem readTypes : Reads readTypes fun types taken =>
    types.length ≤ 2 ^ 26 ∧ (∀ type ∈ types, type.isValid = true) ∧ taken = encodeTypes types := by
  have check (code : UInt8) :
      Reads (if (!(ValueType.ofCode code).isValid) = true then
          MonadExcept.throw (ReadError.valueType code) >>= fun (_ : PUnit) =>
            Pure.pure (ValueType.ofCode code)
        else Pure.pure (ValueType.ofCode code)) fun type taken =>
        (ValueType.ofCode code).isValid = true ∧ type = .ofCode code ∧ taken = [] :=
    (iteThrow _ (ReadError.valueType code) (pure (ValueType.ofCode code))).congr
      fun type taken => by simp
  refine (readLength.bind fun count => (takeBytes count).bind (mapM_check check)).congr
    fun types taken => ?_
  constructor
  · rintro ⟨_, _, _, ⟨few, rfl⟩, ⟨bytes, _, _, ⟨rfl, rfl⟩, ⟨valid, rfl, rfl⟩, rfl⟩, rfl⟩
    refine ⟨by rwa [List.length_map], by simpa using valid, ?_⟩
    rw [encodeTypes, encodeList, encodeLength, List.length_map, List.flatMap_map]
    simp only [ValueType.code_ofCode, List.flatMap_singleton']
    rw [List.append_nil]
  · rintro ⟨few, valid, rfl⟩
    have codes : types.map ValueType.code = types.flatMap fun type => [type.code] :=
      List.map_eq_flatMap
    have back : types = (types.map ValueType.code).map ValueType.ofCode := by
      rw [List.map_map]
      refine (List.map_id types).symm.trans (List.map_congr_left fun type member => ?_)
      exact (ValueType.ofCode_code type (valid type member)).symm
    refine ⟨_, _, _, ⟨few, rfl⟩, ⟨types.map ValueType.code, _, _, ⟨List.length_map .., rfl⟩,
      ⟨?_, back, rfl⟩, rfl⟩, ?_⟩
    · intro code member
      obtain ⟨type, among, rfl⟩ := List.mem_map.mp member
      rw [ValueType.ofCode_code type (valid type among)]
      exact valid type among
    · rw [List.append_nil, codes]
      rfl

theorem readReference : Reads readReference fun ref taken =>
    ∃ words : ReferenceWords, True ∧ ref = words.reference ∧ taken = words.bytes := by
  refine (readNumber.bind fun offset => readWord.bind fun kind =>
    readWord.map fun index => Reference.mk offset (.ofCode kind.toUInt8) index).congr
    fun ref taken => ?_
  constructor
  · rintro ⟨_, _, _, ⟨offset, rfl, rfl⟩, ⟨kind, _, _, rfl, ⟨index, rfl, rfl⟩, rfl⟩, rfl⟩
    exact ⟨⟨offset, kind, index⟩, trivial, rfl, (List.append_assoc ..).symm⟩
  · rintro ⟨words, _, rfl, rfl⟩
    exact ⟨_, _, _, ⟨words.offset, rfl, rfl⟩,
      ⟨words.kind, _, _, rfl, ⟨words.index, rfl, rfl⟩, rfl⟩, List.append_assoc ..⟩

theorem readTrap : Reads readTrap fun site taken =>
    ∃ words : TrapWords, True ∧ site = words.site ∧ taken = words.bytes := by
  refine (readWord.bind fun kind => readNumber.bind fun instr =>
    readNumber.map fun offset => TrapSite.mk (.ofCode kind) instr offset).congr
    fun site taken => ?_
  constructor
  · rintro ⟨kind, _, _, rfl, ⟨_, _, _, ⟨instr, rfl, rfl⟩, ⟨_, ⟨offset, rfl, rfl⟩, rfl⟩, rfl⟩, rfl⟩
    exact ⟨⟨kind, instr, offset⟩, trivial, rfl, (List.append_assoc ..).symm⟩
  · rintro ⟨words, _, rfl, rfl⟩
    exact ⟨words.kind, _, _, rfl, ⟨_, _, _, ⟨words.instr, rfl, rfl⟩,
      ⟨_, ⟨words.offset, rfl, rfl⟩, rfl⟩, rfl⟩, List.append_assoc ..⟩

theorem readSource : Reads readSource fun entry taken =>
    ∃ words : SourceWords, True ∧ entry = words.entry ∧ taken = words.bytes := by
  have last (offset instr : Int) := readWord.map fun op =>
    SourceEntry.mk offset instr (.ofCode op.toUInt16)
  have reads := readNumber.bind fun offset => readNumber.bind fun instr => last offset instr
  refine reads.congr fun entry taken => ?_
  constructor
  · rintro ⟨_, _, _, ⟨offset, rfl, rfl⟩, ⟨_, _, _, ⟨instr, rfl, rfl⟩, ⟨op, rfl, made⟩, rfl⟩, rfl⟩
    exact ⟨⟨offset, instr, op⟩, trivial, made, (List.append_assoc ..).symm⟩
  · rintro ⟨words, _, made, rfl⟩
    exact ⟨_, _, _, ⟨words.offset, rfl, rfl⟩,
      ⟨_, _, _, ⟨words.instr, rfl, rfl⟩, ⟨words.op, rfl, made⟩, rfl⟩, List.append_assoc ..⟩

theorem readFunction : Reads readFunction fun stored taken =>
    ∃ words : FunctionWords, words.Bounded ∧ stored = words.stored ∧ taken = words.bytes := by
  refine (readWord.bind fun index => readTypes.bind fun params => readTypes.bind fun results =>
    readNumber.bind fun frameSlots => readLength.bind fun count =>
    (takeBytes count).bind fun code => (readList readReference).bind fun refs =>
    (readList readTrap).bind fun traps =>
    (readList readSource).map fun sources =>
      (⟨index, ⟨params, results⟩, code, refs, frameSlots, traps, sources⟩ : StoredFunction)).congr
    fun stored taken => ?_
  have codes (code : List UInt8) : encodeList (fun byte => [byte]) code =
      bytes32 (UInt32.ofNat code.length) ++ code := by simp [encodeList, encodeLength]
  constructor
  · rintro ⟨index, _, _, rfl, ⟨params, _, _, ⟨fewParams, validParams, rfl⟩,
      ⟨results, _, _, ⟨fewResults, validResults, rfl⟩, ⟨_, _, _, ⟨frameSlots, rfl, rfl⟩,
      ⟨_, _, _, ⟨fewCode, rfl⟩, ⟨_, code, _, ⟨length, rfl⟩,
      ⟨_, _, _, ⟨refs, fewRefs, _, rfl, rfl⟩, ⟨_, _, _, ⟨traps, fewTraps, _, rfl, rfl⟩,
      ⟨_, ⟨sources, fewSources, _, rfl, rfl⟩, rfl⟩, rfl⟩, rfl⟩, rfl⟩, rfl⟩, rfl⟩, rfl⟩, rfl⟩, rfl⟩
    subst length
    have valid : ∀ value ∈ params ++ results, value.isValid = true :=
      List.forall_mem_append.mpr ⟨validParams, validResults⟩
    refine ⟨⟨index, ⟨params, results⟩, frameSlots, code, refs, traps, sources⟩,
      ⟨⟨fewParams, fewResults, valid⟩, fewCode, fewRefs, fewTraps, fewSources⟩, rfl, ?_⟩
    simp only [FunctionWords.bytes, codes, List.append_assoc]
  · rintro ⟨words, ⟨⟨fewParams, fewResults, valid⟩, fewCode, fewRefs, fewTraps, fewSources⟩,
      rfl, rfl⟩
    obtain ⟨validParams, validResults⟩ := List.forall_mem_append.mp valid
    refine ⟨words.index, _, _, rfl, ⟨words.type.params, _, _, ⟨fewParams, validParams, rfl⟩,
      ⟨words.type.results, _, _, ⟨fewResults, validResults, rfl⟩,
      ⟨_, _, _, ⟨words.frameSlots, rfl, rfl⟩, ⟨_, _, _, ⟨fewCode, rfl⟩,
      ⟨words.code, _, _, ⟨rfl, rfl⟩, ⟨_, _, _, ⟨words.refs, fewRefs, by simp, rfl, rfl⟩,
      ⟨_, _, _, ⟨words.traps, fewTraps, by simp, rfl, rfl⟩,
      ⟨_, ⟨words.sources, fewSources, by simp, rfl, rfl⟩, rfl⟩, rfl⟩, rfl⟩, rfl⟩, rfl⟩, rfl⟩, rfl⟩,
      rfl⟩, ?_⟩
    simp only [FunctionWords.bytes, codes, List.append_assoc]

theorem readArtifact : Reads readArtifact fun artifact taken =>
    ∃ records : List FunctionWords, records.length < 2 ^ 32 ∧
      (∀ record ∈ records, record.Bounded) ∧ artifact = ⟨records.map FunctionWords.stored⟩ ∧
      taken = FunctionWords.payload records := by
  refine (readWord.bind fun count => (readItems readFunction count.toNat).map Artifact.mk).congr
    fun artifact taken => ?_
  constructor
  · rintro ⟨count, _, _, rfl, ⟨_, ⟨records, length, bounded, rfl, rfl⟩, rfl⟩, rfl⟩
    refine ⟨records, length ▸ count.toNat_lt, bounded, rfl, ?_⟩
    rw [FunctionWords.payload, encodeList, encodeLength, length, UInt32.ofNat_toNat]
  · rintro ⟨records, few, bounded, rfl, rfl⟩
    exact ⟨UInt32.ofNat records.length, _, _, rfl, ⟨_, ⟨records,
      (UInt32.toNat_ofNat_of_lt' few).symm, bounded, rfl, rfl⟩, rfl⟩, rfl⟩

end Reads

end Artifact

end WasmX64

/-! ## Writing and reading -/

namespace WasmX64

section Codes

/-- Kinds are known by their numbers. -/
theorem RefKind.ofCode_code : ∀ kind ∈ list, ofCode kind.code = kind := by decide

theorem code_of_numbered {list : List α} {code : α → β} {ofNat : Nat → β}
    (numbered : list.map code = (List.range list.length).map ofNat) {place : Nat} {entry : α}
    (found : list[place]? = some entry) : code entry = ofNat place := by
  obtain ⟨inside, rfl⟩ := List.getElem?_eq_some_iff.mp found
  simpa [inside] using congrArg (·[place]?) numbered

theorem RefKind.code_ofCode (code : UInt8) : (ofCode code).code = code := by
  have numbered : list.map RefKind.code = (List.range list.length).map UInt8.ofNat := by decide
  cases found : list[code.toNat]? with
  | none =>
    rw [ofCode, found]
    rfl
  | some entry =>
    rw [ofCode, found, Option.getD_some, code_of_numbered numbered found, UInt8.ofNat_toNat]

theorem TrapKind.code_ofCode (code : UInt32) : (ofCode code).code = code := by
  have numbered : list.map TrapKind.code = (List.range list.length).map UInt32.ofNat := by decide
  cases found : list[code.toNat]? with
  | none =>
    rw [ofCode, found]
    rfl
  | some entry =>
    rw [ofCode, found, Option.getD_some, code_of_numbered numbered found, UInt32.ofNat_toNat]

theorem Opcode.code_ofCode (code : UInt16) : (ofCode code).code = code := by
  have numbered : list.map Opcode.code = (List.range list.length).map UInt16.ofNat := by
    decide +kernel
  cases found : list[code.toNat]? with
  | none =>
    rw [ofCode, table, List.getElem?_toArray, found]
    rfl
  | some entry =>
    rw [ofCode, table, List.getElem?_toArray, found, Option.getD_some, code_of_numbered numbered found, UInt16.ofNat_toNat]

end Codes

/-- A number that a word of the format holds. -/
def IsWord (value : Int) : Prop := 0 ≤ value ∧ value < 2 ^ 32

instance (value : Int) : Decidable (IsWord value) := inferInstanceAs (Decidable (_ ∧ _))

theorem isWord_toNat (word : UInt32) : IsWord (word.toNat : Int) := by
  have below := word.toNat_lt
  exact ⟨by omega, by omega⟩

theorem wordOf_toNat (word : UInt32) : wordOf (word.toNat : Int) = word := by
  have below := word.toNat_lt
  have same : ((word.toNat : Int) % 4294967296).toNat = word.toNat := by omega
  rw [wordOf, same, UInt32.ofNat_toNat]

theorem toNat_wordOf {value : Int} (fits : IsWord value) : ((wordOf value).toNat : Int) = value :=
  wrapped_eq fits.1 fits.2

/-- A function that the format can represent. -/
structure StoredFunction.Representable (stored : StoredFunction) : Prop where
  type : stored.type.Storable
  code : stored.code.length ≤ 2 ^ 26
  refs : stored.refs.length ≤ 2 ^ 26
  traps : stored.traps.length ≤ 2 ^ 26
  sources : stored.sources.length ≤ 2 ^ 26
  frameSlots : IsWord stored.frameSlots
  refWords : ∀ ref ∈ stored.refs, IsWord ref.offset
  trapWords : ∀ site ∈ stored.traps, IsWord site.instr ∧ IsWord site.offset
  sourceWords : ∀ entry ∈ stored.sources, IsWord entry.offset ∧ IsWord entry.instr

/-- Kinds, faults and opcodes are those that their codes name. -/
structure StoredFunction.Named (stored : StoredFunction) : Prop where
  refs : ∀ ref ∈ stored.refs, RefKind.ofCode ref.kind.code = ref.kind
  traps : ∀ site ∈ stored.traps, TrapKind.ofCode site.kind.code = site.kind
  sources : ∀ entry ∈ stored.sources, Opcode.ofCode entry.op.code = entry.op

/-- An artifact that the format can represent. -/
structure Artifact.Representable (artifact : Artifact) : Prop where
  functions : artifact.functions.length < 2 ^ 32
  each : ∀ stored ∈ artifact.functions, stored.Representable

/-- No unknown kind, fault or opcode has the code of a known one. -/
def Artifact.Named (artifact : Artifact) : Prop := ∀ stored ∈ artifact.functions, stored.Named

section Words

/-- The words that are written for a reference. -/
def Reference.words (ref : Reference) : ReferenceWords :=
  ⟨wordOf ref.offset, ref.kind.code.toUInt32, ref.index⟩

def TrapSite.words (site : TrapSite) : TrapWords :=
  ⟨site.kind.code, wordOf site.instr, wordOf site.offset⟩

/-- The words that are written for an entry of a source map. -/
def SourceEntry.words (entry : SourceEntry) : SourceWords :=
  ⟨wordOf entry.offset, wordOf entry.instr, entry.op.code.toUInt32⟩

/-- The words that are written for a function. -/
def StoredFunction.words (stored : StoredFunction) : FunctionWords where
  index := stored.index
  type := stored.type
  frameSlots := wordOf stored.frameSlots
  code := stored.code
  refs := stored.refs.map Reference.words
  traps := stored.traps.map TrapSite.words
  sources := stored.sources.map SourceEntry.words

theorem encodeLength_map {α β : Type} (change : α → β) (items : List α) :
    Artifact.encodeLength (items.map change) = Artifact.encodeLength items := by
  rw [Artifact.encodeLength, Artifact.encodeLength, List.length_map]

theorem encodeList_map {α β : Type} (encode : β → List UInt8) (change : α → β) (items : List α) :
    Artifact.encodeList encode (items.map change) =
      Artifact.encodeList (fun item => encode (change item)) items := by
  rw [Artifact.encodeList, Artifact.encodeList, encodeLength_map, List.flatMap_map]

theorem bytes_words (stored : StoredFunction) :
    stored.words.bytes = Artifact.encodeFunction stored := by
  simp only [FunctionWords.bytes, StoredFunction.words, encodeList_map]
  rfl

theorem payload_words (artifact : Artifact) :
    FunctionWords.payload (artifact.functions.map StoredFunction.words) = artifact.encode := by
  rw [FunctionWords.payload, encodeList_map]
  simp only [bytes_words]
  rfl

theorem stored_words {stored : StoredFunction} (fits : stored.Representable)
    (named : stored.Named) : stored.words.stored = stored := by
  have refs : stored.refs.map (fun ref => ref.words.reference) = stored.refs := by
    refine (List.map_congr_left fun ref member => ?_).trans (List.map_id _)
    rw [Reference.words, ReferenceWords.reference, toNat_wordOf (fits.refWords ref member),
      UInt8.toUInt8_toUInt32, named.refs ref member]
    rfl
  have traps : stored.traps.map (fun site => site.words.site) = stored.traps := by
    refine (List.map_congr_left fun site member => ?_).trans (List.map_id _)
    obtain ⟨instr, offset⟩ := fits.trapWords site member
    rw [TrapSite.words, TrapWords.site, toNat_wordOf instr, toNat_wordOf offset,
      named.traps site member]
    rfl
  have sources : stored.sources.map (fun entry => entry.words.entry) = stored.sources := by
    refine (List.map_congr_left fun entry member => ?_).trans (List.map_id _)
    obtain ⟨offset, instr⟩ := fits.sourceWords entry member
    rw [SourceEntry.words, SourceWords.entry, toNat_wordOf offset, toNat_wordOf instr,
      UInt16.toUInt16_toUInt32, named.sources entry member]
    rfl
  change StoredFunction.mk stored.index stored.type stored.code
    ((stored.refs.map Reference.words).map ReferenceWords.reference)
    ((wordOf stored.frameSlots).toNat : Int) ((stored.traps.map TrapSite.words).map TrapWords.site)
    ((stored.sources.map SourceEntry.words).map SourceWords.entry) = stored
  rw [List.map_map, List.map_map, List.map_map, toNat_wordOf fits.frameSlots]
  exact congr (congr (congrArg (fun refs traps sources => StoredFunction.mk stored.index
    stored.type stored.code refs stored.frameSlots traps sources) refs) traps) sources

/-- What is written is a record that can be read. -/
theorem bounded_words {stored : StoredFunction} (fits : stored.Representable) :
    stored.words.Bounded where
  type := fits.type
  code := fits.code
  refs := Nat.le_trans (Nat.le_of_eq (List.length_map _)) fits.refs
  traps := Nat.le_trans (Nat.le_of_eq (List.length_map _)) fits.traps
  sources := Nat.le_trans (Nat.le_of_eq (List.length_map _)) fits.sources

/-- What is read can be represented. -/
theorem representable_stored {words : FunctionWords} (bounded : words.Bounded) :
    words.stored.Representable where
  type := bounded.type
  code := bounded.code
  refs := Nat.le_trans (Nat.le_of_eq (List.length_map _)) bounded.refs
  traps := Nat.le_trans (Nat.le_of_eq (List.length_map _)) bounded.traps
  sources := Nat.le_trans (Nat.le_of_eq (List.length_map _)) bounded.sources
  frameSlots := isWord_toNat words.frameSlots
  refWords := List.forall_mem_map.mpr fun ref _ => isWord_toNat ref.offset
  trapWords := List.forall_mem_map.mpr fun site _ =>
    ⟨isWord_toNat site.instr, isWord_toNat site.offset⟩
  sourceWords := List.forall_mem_map.mpr fun entry _ =>
    ⟨isWord_toNat entry.offset, isWord_toNat entry.instr⟩

theorem named_stored (words : FunctionWords) : words.stored.Named where
  refs := List.forall_mem_map.mpr fun ref _ => by
    rw [ReferenceWords.reference, RefKind.code_ofCode]
  traps := List.forall_mem_map.mpr fun site _ => by rw [TrapWords.site, TrapKind.code_ofCode]
  sources := List.forall_mem_map.mpr fun entry _ => by
    rw [SourceWords.entry, Opcode.code_ofCode]

end Words

section Widths

/-- A record none of whose words is wider than what it stands for. -/
structure FunctionWords.Narrow (words : FunctionWords) : Prop where
  refs : ∀ ref ∈ words.refs, ref.kind < 256
  sources : ∀ source ∈ words.sources, source.op < 65536

theorem bytes32_inj {left right : UInt32} : bytes32 left = bytes32 right ↔ left = right := by
  constructor
  · intro same
    rw [← Artifact.wordOfBytes_bytes32 left, same, Artifact.wordOfBytes_bytes32]
  · rintro rfl
    rfl

theorem encodeReference_reference (words : ReferenceWords) :
    Artifact.encodeReference words.reference = words.bytes ↔ words.kind < 256 := by
  rw [Artifact.encodeReference, ReferenceWords.reference, ReferenceWords.bytes, wordOf_toNat,
    RefKind.code_ofCode]
  simp only [List.append_cancel_left_eq, List.append_cancel_right_eq, bytes32_inj]
  rw [← UInt32.toNat_inj, UInt32.lt_iff_toNat_lt]
  simp

theorem encodeTrap_site (words : TrapWords) : Artifact.encodeTrap words.site = words.bytes := by
  rw [Artifact.encodeTrap, TrapWords.site, TrapWords.bytes, wordOf_toNat, wordOf_toNat,
    TrapKind.code_ofCode]

theorem encodeSource_entry (words : SourceWords) :
    Artifact.encodeSource words.entry = words.bytes ↔ words.op < 65536 := by
  rw [Artifact.encodeSource, SourceWords.entry, SourceWords.bytes, wordOf_toNat, wordOf_toNat,
    Opcode.code_ofCode]
  simp only [List.append_cancel_left_eq, bytes32_inj]
  rw [← UInt32.toNat_inj, UInt32.lt_iff_toNat_lt]
  simp

section Rows

variable {α : Type} {first second : α → List UInt8} {items : List α}

theorem length_flatMap_congr
    (lengths : ∀ item ∈ items, (first item).length = (second item).length) :
    (items.flatMap first).length = (items.flatMap second).length := by
  rw [List.length_flatMap, List.length_flatMap, List.map_congr_left lengths]

/-- Rows of parts that are as long as each other are equal when the parts are. -/
theorem flatMap_inj (lengths : ∀ item ∈ items, (first item).length = (second item).length) :
    items.flatMap first = items.flatMap second ↔ ∀ item ∈ items, first item = second item := by
  induction items with
  | nil => simp
  | cons item rest ih =>
    obtain ⟨here, others⟩ := List.forall_mem_cons.mp lengths
    rw [List.flatMap_cons, List.flatMap_cons, List.forall_mem_cons, ← ih others]
    constructor
    · exact fun same => List.append_inj same here
    · rintro ⟨first, rest⟩
      rw [first, rest]

end Rows

theorem length_encodeReference (words : ReferenceWords) :
    (Artifact.encodeReference words.reference).length = words.bytes.length := rfl

theorem length_encodeSource (words : SourceWords) :
    (Artifact.encodeSource words.entry).length = words.bytes.length := by
  have four (word : UInt32) : (bytes32 word).length = 4 := rfl
  simp only [Artifact.encodeSource, SourceWords.bytes, List.length_append, four]

theorem length_encodeFunction (words : FunctionWords) :
    (Artifact.encodeFunction words.stored).length = words.bytes.length := by
  have four (word : UInt32) : (bytes32 word).length = 4 := rfl
  have refs := @length_flatMap_congr _ _ _ words.refs fun ref _ => length_encodeReference ref
  have sources := @length_flatMap_congr _ _ _ words.sources fun entry _ => length_encodeSource entry
  simp only [Artifact.encodeFunction, FunctionWords.stored, FunctionWords.bytes,
    Artifact.encodeList, encodeLength_map, List.flatMap_map, encodeTrap_site, List.length_append,
    four, refs, sources]

theorem encodeFunction_stored (words : FunctionWords) :
    Artifact.encodeFunction words.stored = words.bytes ↔ words.Narrow := by
  have refs := @flatMap_inj _ _ _ words.refs fun ref _ => length_encodeReference ref
  have sources := @flatMap_inj _ _ _ words.sources fun entry _ => length_encodeSource entry
  have lengths := @length_flatMap_congr _ _ _ words.refs fun ref _ => length_encodeReference ref
  simp only [encodeReference_reference, encodeSource_entry] at refs sources
  simp only [Artifact.encodeFunction, FunctionWords.stored, FunctionWords.bytes,
    Artifact.encodeList, encodeLength_map, List.flatMap_map, wordOf_toNat, encodeTrap_site,
    List.append_assoc, List.append_cancel_left_eq]
  constructor
  · intro same
    obtain ⟨first, second⟩ := List.append_inj same lengths
    exact ⟨refs.mp first, sources.mp (by simpa using second)⟩
  · rintro ⟨first, second⟩
    rw [refs.mpr first, sources.mpr second]

end Widths

theorem written_bounded {artifact : Artifact} (fits : artifact.Representable) :
    (artifact.functions.map StoredFunction.words).length < 2 ^ 32 ∧
      ∀ record ∈ artifact.functions.map StoredFunction.words, record.Bounded :=
  ⟨Nat.lt_of_le_of_lt (Nat.le_of_eq (List.length_map _)) fits.functions,
    List.forall_mem_map.mpr fun stored member => bounded_words (fits.each stored member)⟩

theorem readArtifact_encode {artifact : Artifact} (fits : artifact.Representable)
    (named : artifact.Named) (rest : List UInt8) :
    Artifact.readArtifact (artifact.encode ++ rest) = .ok (artifact, rest) := by
  obtain ⟨few, bounded⟩ := written_bounded fits
  have same : artifact.functions.map (fun stored => stored.words.stored) =
      artifact.functions := by
    refine (List.map_congr_left fun stored member => ?_).trans (List.map_id _)
    exact stored_words (fits.each stored member) (named stored member)
  refine (Artifact.Reads.readArtifact _ _ _).mpr
    ⟨artifact.encode, ⟨_, few, bounded, ?_, (payload_words artifact).symm⟩, rfl⟩
  rw [List.map_map]
  exact congrArg Artifact.mk same.symm

/-- Decoding what is written for an artifact gives the artifact back, and leaves exactly what
follows, if and only if the format can represent it: fewer than `2 ^ 32` functions, lists of at
most `2 ^ 26` items, numeric types, and frame slots, offsets and instructions that are words.
(An artifact has a name for every code that has one; `Named` says so.)  No shorter part of what
is written for such an artifact can be decoded. -/
theorem artifact_roundTrips (artifact : Artifact) :
    (∀ rest, Artifact.readArtifact (artifact.encode ++ rest) = .ok (artifact, rest) ↔
      artifact.Representable ∧ artifact.Named) ∧
    (artifact.Representable → ∀ front, front <+: artifact.encode → front ≠ artifact.encode →
      ∃ cause, Artifact.decode front = .error cause) := by
  constructor
  · intro rest
    refine ⟨fun reads => ?_, fun ⟨fits, named⟩ => readArtifact_encode fits named rest⟩
    obtain ⟨_, ⟨records, few, bounded, rfl, rfl⟩, _⟩ :=
      (Artifact.Reads.readArtifact _ _ _).mp reads
    refine ⟨⟨Nat.lt_of_le_of_lt (Nat.le_of_eq (List.length_map _)) few, ?_⟩, ?_⟩
    · exact List.forall_mem_map.mpr fun record member =>
        representable_stored (bounded record member)
    · exact List.forall_mem_map.mpr fun record _ => named_stored record
  · rintro fits front ⟨cut, whole⟩ proper
    rw [Artifact.decode_eq]
    cases reads : Artifact.readArtifact front with
    | error cause => exact ⟨cause, rfl⟩
    | ok found =>
      exfalso
      obtain ⟨short, left⟩ := found
      -- The same records are read from all of the bytes, which are those of the artifact.
      obtain ⟨taken, form, rfl⟩ := (Artifact.Reads.readArtifact _ _ _).mp reads
      have longer := (Artifact.Reads.readArtifact artifact.encode short (left ++ cut)).mpr
        ⟨taken, form, by rw [← whole, List.append_assoc]⟩
      obtain ⟨few, bounded⟩ := written_bounded fits
      have exact := (Artifact.Reads.readArtifact artifact.encode _ []).mpr
        ⟨artifact.encode, ⟨_, few, bounded, rfl, (payload_words artifact).symm⟩,
          (List.append_nil _).symm⟩
      rw [longer] at exact
      obtain ⟨_, none⟩ := Prod.mk.inj (Except.ok.inj exact)
      obtain ⟨_, rfl⟩ := List.append_eq_nil_iff.mp none
      exact proper (by rw [← whole, List.append_nil])

def entryInEveryList : Artifact :=
  ⟨[{ index := 1, type := ⟨[.i32, .f64], [.i64]⟩, code := [0xc3], refs := [⟨4294967295, .trap, 0⟩]
      frameSlots := 3, traps := [⟨.outOfBounds, 2, 67108864⟩]
      sources := [⟨0, 0, .nop⟩, ⟨1, 1, .convert .wrap⟩] }]⟩

theorem artifact_roundTrips_entryInEveryList :
    entryInEveryList.Representable ∧
      Artifact.readArtifact (entryInEveryList.encode ++ [7]) = .ok (entryInEveryList, [7]) ∧
      ∃ cause, Artifact.decode (entryInEveryList.encode.take 87) = .error cause := by
  have fits : entryInEveryList.Representable := by
    refine ⟨by decide, List.forall_mem_singleton.mpr ?_⟩
    exact ⟨⟨by decide, by decide, by decide⟩, by decide, by decide, by decide, by decide, by decide,
      by decide, by decide, by decide⟩
  have named : entryInEveryList.Named :=
    List.forall_mem_singleton.mpr ⟨by decide, by decide, by decide +kernel⟩
  obtain ⟨back, rejects⟩ := artifact_roundTrips entryInEveryList
  refine ⟨fits, (back [7]).mpr ⟨fits, named⟩, rejects fits _ (List.take_prefix ..) ?_⟩
  decide +kernel

/-- Writing again what was read gives the bytes that were read, if and only if no kind of a
reference among them is above 255 and no opcode above 65535. -/
theorem reencoded_iff {payload rest : List UInt8} {artifact : Artifact}
    (reads : Artifact.readArtifact payload = .ok (artifact, rest)) :
    ∃ records : List FunctionWords, payload = FunctionWords.payload records ++ rest ∧
      artifact = ⟨records.map FunctionWords.stored⟩ ∧
      (payload = artifact.encode ++ rest ↔ ∀ record ∈ records, record.Narrow) := by
  obtain ⟨_, ⟨records, _, _, rfl, rfl⟩, rfl⟩ := (Artifact.Reads.readArtifact _ _ _).mp reads
  refine ⟨records, rfl, rfl, ?_⟩
  have rows := @flatMap_inj _ _ _ records fun record _ => length_encodeFunction record
  simp only [encodeFunction_stored] at rows
  rw [List.append_cancel_right_eq, ← rows, FunctionWords.payload, Artifact.encode,
    Artifact.encodeList, Artifact.encodeList, encodeLength_map, List.append_cancel_left_eq,
    List.flatMap_map]
  exact eq_comm

/-- A record with a reference of kind 256, which is read as a global. -/
def wideKind : List FunctionWords :=
  [{ index := 0, type := ⟨[], []⟩, frameSlots := 0, code := [], refs := [⟨0, 256, 0⟩], traps := []
     sources := [] }]

/-- A broken kind is read as another, valid one: writing it again gives other bytes, from which
the same artifact is read. -/
theorem wideKind_reencoded :
    ∃ artifact, Artifact.readArtifact (FunctionWords.payload wideKind) = .ok (artifact, []) ∧
      artifact.encode ≠ FunctionWords.payload wideKind ∧
      Artifact.readArtifact artifact.encode = .ok (artifact, []) :=
  ⟨⟨wideKind.map FunctionWords.stored⟩, rfl, by decide +kernel, rfl⟩

theorem reencoded_iff_wideKind :
    ∃ records : List FunctionWords,
      FunctionWords.payload wideKind ++ [7] = FunctionWords.payload records ++ [7] ∧
      Artifact.mk (wideKind.map FunctionWords.stored) =
        ⟨records.map FunctionWords.stored⟩ ∧
      (FunctionWords.payload wideKind ++ [7] =
          (Artifact.mk (wideKind.map FunctionWords.stored)).encode ++ [7] ↔
        ∀ record ∈ records, record.Narrow) :=
  reencoded_iff rfl

end WasmX64
