import WasmX64.Artifact.Decode
import WasmX64.Proofs.Code.Field

/-!
# Artifacts read back

A reader that gets through the bytes of an artifact gives back what was stored, up to what the
format keeps: numbers come back modulo `2 ^ 32`, and kinds and opcodes as the ones that have
their codes.
-/

namespace WasmX64

/-- The instruction set is listed completely. -/
theorem Opcode.mem_list {op : Opcode} (valid : op.isValid = true) : op ∈ list := by
  unfold list
  simp only [List.mem_append]
  cases op
  case load op =>
    have listed : op ∈ loads := by cases op <;> decide
    simp [listed]
  case store op =>
    have listed : op ∈ stores := by cases op <;> decide
    simp [listed]
  case intConst width => cases width <;> simp [constants]
  case floatConst width => cases width <;> simp [constants]
  case eqz width => cases width <;> simp [intTests]
  case intCompare width relation =>
    have listed : relation ∈ intRelations := by cases relation <;> decide
    cases width <;> simp [intTests, listed]
  case floatCompare width relation =>
    have listed : relation ∈ floatRelations := by cases relation <;> decide
    cases width <;> simp [listed]
  case intUnary width op =>
    have listed : op ∈ intUnaries := by cases op <;> decide
    cases width <;> simp [intOperations, listed]
  case intBinary width op =>
    have listed : op ∈ intBinaries := by cases op <;> decide
    cases width <;> simp [intOperations, listed]
  case floatUnary width op =>
    have listed : op ∈ floatUnaries := by cases op <;> decide
    cases width <;> simp [floatOperations, listed]
  case floatBinary width op =>
    have listed : op ∈ floatBinaries := by cases op <;> decide
    cases width <;> simp [floatOperations, listed]
  case convert op =>
    have listed : op ∈ conversions := by
      cases op with
      | truncate result source signed =>
        cases result <;> cases source <;> cases signed <;> decide
      | convert result source signed =>
        cases result <;> cases source <;> cases signed <;> decide
      | extend signed => cases signed <;> decide
      | reinterpretFloat source => cases source <;> decide
      | reinterpretInt source => cases source <;> decide
      | _ => decide
    simp [listed]
  case unknown => cases valid
  all_goals simp [controls, constants]

/-- Instructions are known by their numbers. -/
theorem Opcode.ofCode_code {op : Opcode} (valid : op.isValid = true) : ofCode op.code = op := by
  have listed := mem_list valid
  have below := List.idxOf_lt_length_of_mem listed
  have number : op.code = UInt16.ofNat (list.idxOf op) := by
    cases op with
    | unknown code => cases valid
    | _ => rfl
  have small : list.idxOf op < 2 ^ 16 := Nat.lt_trans (length_list ▸ below) (by decide)
  rw [ofCode, number, UInt16.toNat_ofNat_of_lt' small, table, List.getElem?_toArray,
    List.getElem?_eq_getElem below, List.getElem_idxOf below]
  rfl

/-- A number as a word of the format keeps it. -/
def wrapped (value : Int) : Int := ((wordOf value).toNat : Int)

theorem wrapped_eq {value : Int} (positive : 0 ≤ value) (small : value < 4294967296) :
    wrapped value = value := by
  have inside : (value % 4294967296).toNat < 2 ^ 32 := by omega
  rw [wrapped, wordOf, UInt32.toNat_ofNat_of_lt' inside]
  omega

def Reference.restored (ref : Reference) : Reference :=
  ⟨wrapped ref.offset, .ofCode ref.kind.code, ref.index⟩

def TrapSite.restored (site : TrapSite) : TrapSite :=
  ⟨.ofCode site.kind.code, wrapped site.instr, wrapped site.offset⟩

def SourceEntry.restored (entry : SourceEntry) : SourceEntry :=
  ⟨wrapped entry.offset, wrapped entry.instr, .ofCode entry.op.code⟩

/-- A function as it comes back. -/
def StoredFunction.restored (stored : StoredFunction) : StoredFunction where
  index := stored.index
  type := ⟨stored.type.params.map fun type => .ofCode type.code,
    stored.type.results.map fun type => .ofCode type.code⟩
  code := stored.code
  refs := stored.refs.map Reference.restored
  frameSlots := wrapped stored.frameSlots
  traps := stored.traps.map TrapSite.restored
  sources := stored.sources.map SourceEntry.restored

/-- Lengths that a word of the format can tell. -/
structure StoredFunction.Measured (stored : StoredFunction) : Prop where
  params : stored.type.params.length < 4294967296
  results : stored.type.results.length < 4294967296
  code : stored.code.length < 4294967296
  refs : stored.refs.length < 4294967296
  traps : stored.traps.length < 4294967296
  sources : stored.sources.length < 4294967296

instance (stored : StoredFunction) : Decidable stored.Measured :=
  decidable_of_iff
    (stored.type.params.length < 4294967296 ∧ stored.type.results.length < 4294967296 ∧
      stored.code.length < 4294967296 ∧ stored.refs.length < 4294967296 ∧
      stored.traps.length < 4294967296 ∧ stored.sources.length < 4294967296)
    ⟨fun ⟨params, results, code, refs, traps, sources⟩ =>
      ⟨params, results, code, refs, traps, sources⟩,
    fun ⟨params, results, code, refs, traps, sources⟩ =>
      ⟨params, results, code, refs, traps, sources⟩⟩

namespace Artifact

variable {α β : Type}

theorem wordOfBytes_bytes32 (word : UInt32) : wordOfBytes (bytes32 word) = word := by
  have folded : ∀ first second third fourth : UInt32,
      ((((0 : UInt32) <<< 8 ||| fourth) <<< 8 ||| third) <<< 8 ||| second) <<< 8 ||| first =
        first ||| second <<< 8 ||| third <<< 16 ||| fourth <<< 24 := by
    intro first second third fourth
    apply UInt32.eq_of_toBitVec_eq
    apply BitVec.eq_of_getLsbD_eq
    intro index small
    simp
    grind
  exact (folded _ _ _ _).trans (join_bytes32 word)

/-- A reader that gets through bytes takes exactly these and gives a value. -/
def Restores (reader : ByteReader α) (bytes : List UInt8) (value : α) : Prop :=
  ∀ rest result left, reader (bytes ++ rest) = .ok (result, left) → result = value ∧ left = rest

namespace Restores

theorem pure (value : α) : Restores (Pure.pure value) [] value := by
  intro rest result left reads
  cases reads
  exact ⟨rfl, rfl⟩

theorem bind {reader : ByteReader α} {next : α → ByteReader β} {bytes others : List UInt8}
    {value : α} {final : β} (first : Restores reader bytes value)
    (second : Restores (next value) others final) :
    Restores (reader >>= next) (bytes ++ others) final := by
  intro rest result left reads
  rw [List.append_assoc] at reads
  change (reader (bytes ++ (others ++ rest)) >>= fun found => next found.1 found.2) = _ at reads
  cases begins : reader (bytes ++ (others ++ rest)) with
  | error cause =>
    rw [begins] at reads
    cases reads
  | ok found =>
    obtain ⟨middle, state⟩ := found
    obtain ⟨rfl, rfl⟩ := first _ _ _ begins
    rw [begins] at reads
    exact second _ _ _ reads

/-- A last action that takes nothing. -/
theorem map {reader : ByteReader α} {bytes : List UInt8} {value : α} (change : α → β)
    (first : Restores reader bytes value) :
    Restores (reader >>= fun found => Pure.pure (change found)) bytes (change value) := by
  have both := @bind _ _ reader (fun found => Pure.pure (change found)) _ _ _ _ first
    (pure (change value))
  rw [List.append_nil] at both
  exact both

theorem takeBytes {count : Nat} {bytes : List UInt8} (exactly : bytes.length = count) :
    Restores (takeBytes count) bytes bytes := by
  subst exactly
  intro rest result left reads
  have enough : ¬ ((bytes ++ rest).take bytes.length).length < bytes.length := by simp
  change (if ((bytes ++ rest).take bytes.length).length < bytes.length then _ else _ :
    ByteReader (List UInt8)) (bytes ++ rest) = _ at reads
  rw [if_neg enough] at reads
  cases reads
  simp

theorem readWord (word : UInt32) : Restores readWord (bytes32 word) word := by
  have taken := (takeBytes (show (bytes32 word).length = 4 from rfl)).map wordOfBytes
  rw [wordOfBytes_bytes32] at taken
  exact taken

theorem readNumber (value : Int) : Restores readNumber (bytes32 (wordOf value)) (wrapped value) :=
  map (fun word : UInt32 => (word.toNat : Int)) (readWord (wordOf value))

theorem readLength {items : List α} (measured : items.length < 4294967296) :
    Restores readLength (encodeLength items) items.length := by
  have length : (UInt32.ofNat items.length).toNat = items.length :=
    UInt32.toNat_ofNat_of_lt' measured
  have both : Restores Artifact.readLength (encodeLength items ++ []) items.length := by
    apply bind (readWord (UInt32.ofNat items.length))
    intro rest result left reads
    dsimp only at reads
    split at reads
    · cases reads
    · cases reads
      exact ⟨length, rfl⟩
  rw [List.append_nil] at both
  exact both

theorem readItems {item : ByteReader β} {encode : α → List UInt8} {restored : α → β}
    {items : List α} (each : ∀ value ∈ items, Restores item (encode value) (restored value)) :
    Restores (readItems item items.length) (items.flatMap encode) (items.map restored) := by
  induction items with
  | nil => exact pure []
  | cons value rest ih =>
    apply (each value List.mem_cons_self).bind
    exact (ih fun other member => each other (List.mem_cons_of_mem _ member)).map
      (restored value :: ·)

theorem readList {item : ByteReader β} {encode : α → List UInt8} {restored : α → β}
    (each : ∀ value, Restores item (encode value) (restored value)) {items : List α}
    (measured : items.length < 4294967296) :
    Restores (readList item) (encodeList encode items) (items.map restored) :=
  (readLength measured).bind (readItems fun value _ => each value)

theorem mapM_check {item : α → ByteReader β} {change : α → β}
    (checks : ∀ value, Restores (item value) [] (change value)) (items : List α) :
    Restores (items.mapM item) [] (items.map change) := by
  induction items with
  | nil => exact pure []
  | cons value rest ih =>
    rw [List.mapM_cons]
    exact (checks value).bind (ih.map (change value :: ·))

theorem readTypes {types : List ValueType} (measured : types.length < 4294967296) :
    Restores readTypes (encodeTypes types) (types.map fun type => .ofCode type.code) := by
  have codes : types.flatMap (fun type => [type.code]) = types.map ValueType.code ++ [] := by
    induction types with
    | nil => rfl
    | cons type rest ih =>
      rw [List.flatMap_cons, ih (Nat.lt_of_succ_lt measured)]
      rfl
  have values : types.map (fun type => ValueType.ofCode type.code) =
      (types.map ValueType.code).map ValueType.ofCode := by simp
  rw [encodeTypes, encodeList, codes, values]
  apply (readLength measured).bind
  apply (takeBytes (List.length_map ValueType.code)).bind
  apply mapM_check
  intro code rest result left reads
  dsimp only at reads
  split at reads
  · cases reads
  · cases reads
    exact ⟨rfl, rfl⟩

theorem readReference (ref : Reference) :
    Restores readReference (encodeReference ref) ref.restored := by
  have kept : ref.restored =
      ⟨wrapped ref.offset, .ofCode ref.kind.code.toUInt32.toUInt8, ref.index⟩ := by
    rw [UInt8.toUInt8_toUInt32, Reference.restored]
  rw [encodeReference, List.append_assoc, kept]
  apply (readNumber ref.offset).bind
  apply (readWord ref.kind.code.toUInt32).bind
  exact (readWord ref.index).map fun index => Reference.mk _ _ index

theorem readTrap (site : TrapSite) : Restores readTrap (encodeTrap site) site.restored := by
  rw [encodeTrap, List.append_assoc]
  apply (readWord site.kind.code).bind
  apply (readNumber site.instr).bind
  exact (readNumber site.offset).map fun offset => TrapSite.mk _ _ offset

theorem readSource (entry : SourceEntry) :
    Restores readSource (encodeSource entry) entry.restored := by
  have kept : entry.restored =
      ⟨wrapped entry.offset, wrapped entry.instr, .ofCode entry.op.code.toUInt32.toUInt16⟩ := by
    rw [UInt16.toUInt16_toUInt32, SourceEntry.restored]
  rw [encodeSource, List.append_assoc, kept]
  apply (readNumber entry.offset).bind
  apply (readNumber entry.instr).bind
  have last := (readWord entry.op.code.toUInt32).map fun word =>
    SourceEntry.mk (wrapped entry.offset) (wrapped entry.instr) (.ofCode word.toUInt16)
  exact last

theorem readFunction {stored : StoredFunction} (measured : stored.Measured) :
    Restores readFunction (encodeFunction stored) stored.restored := by
  have code : encodeList (fun byte => [byte]) stored.code =
      encodeLength stored.code ++ stored.code := by simp [encodeList]
  unfold encodeFunction
  rw [code]
  simp only [List.append_assoc]
  apply (readWord stored.index).bind
  apply (readTypes measured.params).bind
  apply (readTypes measured.results).bind
  apply (readNumber stored.frameSlots).bind
  apply (readLength measured.code).bind
  apply (takeBytes rfl).bind
  apply (readList readReference measured.refs).bind
  apply (readList readTrap measured.traps).bind
  exact (readList readSource measured.sources).map fun sources =>
    StoredFunction.mk _ _ _ _ _ _ sources

end Restores

theorem mapM_at {ε : Type} {change : α → Except ε β} {items : List α} {changed : List β}
    {place : Nat} {item : α} (changes : items.mapM change = .ok changed)
    (here : items[place]? = some item) :
    ∃ value, change item = .ok value ∧ changed[place]? = some value := by
  induction items generalizing changed place with
  | nil => cases here
  | cons first rest ih =>
    rw [List.mapM_cons] at changes
    cases head : change first with
    | error cause =>
      rw [head] at changes
      cases changes
    | ok value =>
      rw [head] at changes
      cases tail : rest.mapM change with
      | error cause =>
        rw [tail] at changes
        cases changes
      | ok values =>
        rw [tail] at changes
        cases changes
        cases place with
        | zero =>
          cases here
          exact ⟨value, head, rfl⟩
        | succ place => exact @ih values place tail here

theorem ofCompiled_at {module : Module} {functions : List Compiled} {artifact : Artifact}
    {place : Nat} {compiled : Compiled} (stores : ofCompiled module functions = .ok artifact)
    (here : functions[place]? = some compiled) :
    ∃ type, artifact.functions[place]? = some (StoredFunction.ofCompiled type compiled) := by
  let store (compiled : Compiled) : Except ModuleError StoredFunction := do
    return StoredFunction.ofCompiled (← module.functionType compiled.index) compiled
  change (functions.mapM store >>= fun stored => pure (Artifact.mk stored)) = _ at stores
  cases all : functions.mapM store with
  | error cause =>
    rw [all] at stores
    cases stores
  | ok stored =>
    rw [all] at stores
    cases stores
    obtain ⟨value, made, found⟩ := mapM_at all here
    change (module.functionType compiled.index >>= fun type =>
      pure (StoredFunction.ofCompiled type compiled)) = _ at made
    cases typed : module.functionType compiled.index with
    | error cause =>
      rw [typed] at made
      cases made
    | ok type =>
      rw [typed] at made
      cases made
      exact ⟨type, found⟩

theorem decode_restores {artifact loaded : Artifact}
    (count : artifact.functions.length < 4294967296)
    (measured : ∀ stored ∈ artifact.functions, stored.Measured)
    (decodes : decode artifact.encode = .ok loaded) :
    loaded.functions = artifact.functions.map StoredFunction.restored := by
  have length : (UInt32.ofNat artifact.functions.length).toNat = artifact.functions.length :=
    UInt32.toNat_ofNat_of_lt' count
  have items := Restores.readItems fun stored member =>
    Restores.readFunction (measured stored member)
  unfold decode at decodes
  cases begins : readWord artifact.encode with
  | error cause =>
    rw [begins] at decodes
    cases decodes
  | ok found =>
    obtain ⟨word, rest⟩ := Restores.readWord (UInt32.ofNat artifact.functions.length) _ _ _ begins
    rw [begins] at decodes
    change (readItems readFunction found.1.toNat found.2 >>=
      fun read => pure (Artifact.mk read.1)) = _ at decodes
    rw [word, length, rest] at decodes
    cases goes : readItems readFunction artifact.functions.length
        (artifact.functions.flatMap encodeFunction) with
    | error cause =>
      rw [goes] at decodes
      cases decodes
    | ok read =>
      rw [goes] at decodes
      cases decodes
      rw [← List.append_nil (artifact.functions.flatMap encodeFunction)] at goes
      exact (items _ _ _ goes).1

end Artifact

end WasmX64
