import WasmX64.Proofs.Compile.Frames
import WasmX64.Proofs.Stack.Program

/-!
# The frame of a function

Compiled code reaches the slots of its frame relative to the frame pointer.  Each slot that it
names is one of those that the frame is opened with room for, whatever the code is made of:
spilled values, filled registers, constants, words that a transfer puts aside, arguments that are
pushed and values that are reset behind code that is not reached.
-/

/-!
## References of programs

Every reference of a compiled function stands for the address that one instruction loads, and
there is one for every such instruction.  Their bytes lie apart, inside the code, and hold the
placeholder.  So all references can be resolved, and nothing but their bytes changes.
-/

namespace WasmX64

/-- A place in the code that belongs to a reference. -/
def Reference.Covers (ref : Reference) (place : Nat) : Prop :=
  ref.offset ≤ place ∧ (place : Int) < ref.offset + 8

def Reference.Holds (ref : Reference) (code : Array UInt8) (word : UInt64) : Prop :=
  0 ≤ ref.offset ∧ Code.Holds { bytes := code } ref.offset.toNat (bytes64 word)

/-- The references of a program are those of a listing of its code. -/
structure Program.Referenced (program : Program) (listing : List Placed) : Prop where
  listed : Code.Listed { bytes := program.code } listing program.code.size
  apart : program.refs.Pairwise fun first second => first.offset + 8 ≤ second.offset
  inside : ∀ ref ∈ program.refs, 0 ≤ ref.offset ∧ ref.offset + 8 ≤ program.code.size
  waits : ∀ ref ∈ program.refs, ref.Holds program.code placeholder
  loads : ∀ ref ∈ program.refs, ∃ offset target,
    (⟨offset, .plain (.movabs target placeholder)⟩ : Placed) ∈ listing ∧ ref.offset = offset + 2
  recorded : ∀ offset target word, (⟨offset, .plain (.movabs target word)⟩ : Placed) ∈ listing →
    word = placeholder ∧ ∃ ref ∈ program.refs, ref.offset = offset + 2

structure Program.Relocated (program : Program) (address : Reference → UInt64)
    (code : Array UInt8) : Prop where
  size : code.size = program.code.size
  keeps : ∀ place, (∀ ref ∈ program.refs, ¬ ref.Covers place) →
    code[place]? = program.code[place]?
  fills : ∀ ref ∈ program.refs, ref.Holds code (address ref)

section Resolve

variable {ε : Type} {lookup : Reference → Except ε UInt64} {address : Reference → UInt64}
  {code : Array UInt8} {ref other : Reference} {word : UInt64}

theorem Reference.Holds.inside (holds : ref.Holds code word) : ref.offset + 8 ≤ code.size := by
  obtain ⟨positive, holds⟩ := holds
  have last : (bytes64 word)[7]? = some ((bytes64 word).get ⟨7, by rw [length_bytes64]; decide⟩) :=
    List.getElem?_eq_getElem _
  have below := (Array.getElem?_eq_some_iff.mp (holds 7 _ last)).1
  change ref.offset.toNat + 7 < code.size at below
  omega

theorem byte_placeholder {place : Nat} (inside : place < 8) :
    (bytes64 placeholder)[place]? = some 0xff := by
  have bytes : bytes64 placeholder = List.replicate 8 0xff := by decide
  rw [bytes, List.getElem?_replicate, if_pos inside]

/-- The placeholder reads back from its bytes. -/
theorem Reference.Holds.placeholder (holds : ref.Holds code placeholder) :
    Program.wordAt code ref.offset.toNat = WasmX64.placeholder := by
  have bytes : ∀ place ∈ List.range 8, code[ref.offset.toNat + place]?.getD 0 = 0xff := by
    intro place member
    rw [holds.2 place 0xff (byte_placeholder (List.mem_range.mp member))]
    rfl
  calc Program.wordAt code ref.offset.toNat
      = (List.range 8).foldr (fun _ (word : UInt64) => word <<< 8 ||| (0xff : UInt8).toUInt64) 0 :=
        List.foldr_ext _ _ _ fun place member word => by rw [bytes place member]
    _ = WasmX64.placeholder := by decide

theorem Reference.Holds.stay {bytes : Array UInt8} (holds : ref.Holds code word)
    (same : ∀ place, ref.Covers place → bytes[place]? = code[place]?) : ref.Holds bytes word := by
  refine ⟨holds.1, fun index byte found => ?_⟩
  have below : index < 8 := (List.getElem?_eq_some_iff.mp found).1
  have positive := holds.1
  refine (same _ ?_).trans (holds.2 index byte found)
  exact ⟨by omega, by omega⟩

theorem Code.holds_overwrite {bytes : Array UInt8} {index : Nat} {row : List UInt8}
    (room : index + row.length ≤ bytes.size) :
    Code.Holds { bytes := overwrite bytes index row } index row :=
  fun _ _ found => getElem?_overwrite_inside bytes index row room found

theorem Program.resolveOne_ok (holds : ref.Holds code placeholder)
    (found : lookup ref = .ok word) : ∃ bytes, resolveOne lookup code ref = .ok bytes ∧
      bytes.size = code.size ∧ ref.Holds bytes word ∧
      ∀ place, ¬ ref.Covers place → bytes[place]? = code[place]? := by
  have positive := holds.1
  have inside := holds.inside
  refine ⟨Code.overwrite code ref.offset.toNat (bytes64 word), ?_, ?_, ⟨positive, ?_⟩, ?_⟩
  · have room : ¬ (ref.offset < 0 ∨ (code.size : Int) < ref.offset + 8) := by omega
    unfold resolveOne
    rw [if_neg room]
    dsimp only
    rw [holds.placeholder, if_neg (not_not_intro rfl), found]
  · exact Code.size_overwrite _ _ _
  · apply Code.holds_overwrite
    rw [length_bytes64]
    omega
  · intro place outside
    apply Code.getElem?_overwrite
    rw [length_bytes64]
    rintro ⟨low, high⟩
    exact outside ⟨by omega, by omega⟩

theorem Reference.Covers.not_of_apart {place : Nat} (covers : ref.Covers place)
    (apart : ref.offset + 8 ≤ other.offset ∨ other.offset + 8 ≤ ref.offset) :
    ¬ other.Covers place := by
  rintro ⟨low, high⟩
  obtain ⟨above, below⟩ := covers
  omega

/-- References that lie apart and hold the placeholder are all filled in, and nothing else
changes. -/
theorem Program.resolveAll_ok {refs : List Reference}
    (apart : refs.Pairwise fun first second => first.offset + 8 ≤ second.offset)
    (waits : ∀ ref ∈ refs, ref.Holds code placeholder)
    (found : ∀ ref ∈ refs, lookup ref = .ok (address ref)) :
    ∃ bytes, refs.foldlM (resolveOne lookup) code = .ok bytes ∧ bytes.size = code.size ∧
      (∀ place, (∀ ref ∈ refs, ¬ ref.Covers place) → bytes[place]? = code[place]?) ∧
      ∀ ref ∈ refs, ref.Holds bytes (address ref) := by
  induction refs generalizing code with
  | nil => exact ⟨code, rfl, rfl, fun _ _ => rfl, by simp⟩
  | cons ref rest ih =>
    obtain ⟨first, later⟩ := List.pairwise_cons.mp apart
    obtain ⟨here, others⟩ := List.forall_mem_cons.mp waits
    obtain ⟨known, further⟩ := List.forall_mem_cons.mp found
    obtain ⟨middle, goes, size, filled, kept⟩ := resolveOne_ok here known
    have still : ∀ other ∈ rest, other.Holds middle placeholder := fun other member =>
      (others other member).stay fun place covers =>
        kept place (covers.not_of_apart (.inr (first other member)))
    obtain ⟨bytes, ends, same, keeps, fills⟩ := ih later still further
    refine ⟨bytes, ?_, same.trans size, ?_, List.forall_mem_cons.mpr ⟨?_, fills⟩⟩
    · rw [List.foldlM_cons, goes]
      exact ends
    · intro place outside
      obtain ⟨here, others⟩ := List.forall_mem_cons.mp outside
      exact (keeps place others).trans (kept place here)
    · refine filled.stay fun place covers => keeps place fun other member => ?_
      exact covers.not_of_apart (.inl (first other member))

/-- A program whose references are those of its code is relocated by every lookup that knows
their addresses. -/
theorem Program.Referenced.resolves {program : Program} {listing : List Placed}
    (referenced : program.Referenced listing)
    (found : ∀ ref ∈ program.refs, lookup ref = .ok (address ref)) :
    ∃ code, program.resolve lookup = .ok code ∧ program.Relocated address code := by
  obtain ⟨code, ends, size, keeps, fills⟩ :=
    resolveAll_ok referenced.apart referenced.waits found
  exact ⟨code, ends, size, keeps, fills⟩

end Resolve

section Wides

variable {code : Code} {listing : List Placed} {finish : Nat}

/-- An instruction that loads an address has it behind the two bytes of its opcode. -/
theorem Placed.stands_movabs {offset : Nat} {target : Register} {word : UInt64} {last : Nat}
    (stands : Placed.Stands code ⟨offset, .plain (.movabs target word)⟩ last) :
    last = offset + 10 ∧ code.Holds (offset + 2) (bytes64 word) := by
  cases stands with
  | plain _ encodes holds =>
    cases general : target.isGp with
    | false =>
      simp [Instruction.encode, Instruction.needGp, general] at encodes
    | true =>
      rw [Code.encode_movabs general] at encodes
      cases encodes
      have within := (Code.holds_append_iff.mp holds).2
      rw [Code.length_wideForm] at within
      refine ⟨?_, within⟩
      rw [List.length_append, Code.length_wideForm, length_bytes64]

theorem Placed.wide?_eq_some {placed : Placed} {wide : Int} :
    placed.wide? = some wide ↔ ∃ offset target word,
      placed = ⟨offset, .plain (.movabs target word)⟩ ∧ wide = offset + 2 := by
  obtain ⟨offset, item⟩ := placed
  constructor
  · intro found
    cases item with
    | jump condition distance => cases found
    | plain instruction =>
      cases instruction
      case movabs target word =>
        cases found
        exact ⟨offset, target, word, rfl, rfl⟩
      all_goals cases found
  · rintro ⟨_, target, word, same, rfl⟩
    cases same
    rfl

/-- The addresses that a listing loads lie apart, latest first. -/
theorem Code.Listed.wides_apart (listed : code.Listed listing finish) :
    (Placed.wides listing).Pairwise (fun later earlier => earlier + 8 ≤ later) ∧
      ∀ wide ∈ Placed.wides listing, 0 ≤ wide ∧ wide + 8 ≤ finish := by
  induction listed with
  | nil => exact ⟨.nil, by simp [Placed.wides]⟩
  | @cons placed rest finish before stands ih =>
    have starts := Placed.offset_lt stands
    obtain ⟨descends, below⟩ := ih
    have within : ∀ wide ∈ Placed.wides rest, 0 ≤ wide ∧ wide + 8 ≤ finish :=
      fun wide member => ⟨(below wide member).1, by have := (below wide member).2; omega⟩
    cases found : placed.wide? with
    | none =>
      rw [Placed.wides, List.filterMap_cons_none found]
      exact ⟨descends, within⟩
    | some wide =>
      obtain ⟨offset, target, word, rfl, rfl⟩ := Placed.wide?_eq_some.mp found
      obtain ⟨rfl, _⟩ := Placed.stands_movabs stands
      rw [Placed.wides, List.filterMap_cons_some found]
      refine ⟨List.pairwise_cons.mpr ⟨?_, descends⟩, List.forall_mem_cons.mpr ⟨?_, within⟩⟩
      · intro earlier member
        have last := (below earlier member).2
        dsimp only at last
        omega
      · omega

end Wides

theorem Program.Mapped.referenced {program : Program} {listing : List Placed}
    (mapped : program.Mapped listing) : program.Referenced listing := by
  obtain ⟨descends, within⟩ := mapped.listed.wides_apart
  rw [mapped.refs] at descends within
  have inside : ∀ ref ∈ program.refs, 0 ≤ ref.offset ∧ ref.offset + 8 ≤ program.code.size :=
    fun ref member => within ref.offset (List.mem_reverse.mpr (List.mem_map_of_mem member))
  have loads : ∀ ref ∈ program.refs, ∃ offset target,
      (⟨offset, .plain (.movabs target placeholder)⟩ : Placed) ∈ listing ∧
        ref.offset = offset + 2 := by
    intro ref member
    have among : ref.offset ∈ Placed.wides listing := by
      rw [mapped.refs]
      exact List.mem_reverse.mpr (List.mem_map_of_mem member)
    obtain ⟨placed, listed, found⟩ := List.mem_filterMap.mp among
    obtain ⟨offset, target, word, rfl, same⟩ := Placed.wide?_eq_some.mp found
    obtain ⟨_, _, whole⟩ := (mapped.inside _ listed).2 rfl
    cases whole
    exact ⟨offset, target, listed, same⟩
  constructor
  · exact mapped.listed
  · exact List.pairwise_map.mp (List.pairwise_reverse.mp descends)
  · exact inside
  · intro ref member
    obtain ⟨offset, target, listed, same⟩ := loads ref member
    obtain ⟨last, stands, _⟩ := mapped.listed.mem_stands listed
    refine ⟨(inside ref member).1, ?_⟩
    have position : ref.offset.toNat = offset + 2 := by omega
    rw [position]
    exact (Placed.stands_movabs stands).2
  · exact loads
  · intro offset target word listed
    obtain ⟨_, _, whole⟩ := (mapped.inside _ listed).2 rfl
    cases whole
    refine ⟨rfl, ?_⟩
    have among : (offset + 2 : Int) ∈ Placed.wides listing :=
      List.mem_filterMap.mpr ⟨_, listed, rfl⟩
    rw [mapped.refs] at among
    obtain ⟨ref, member, same⟩ := List.mem_map.mp (List.mem_reverse.mp among)
    exact ⟨ref, member, same⟩

/-- Relocation is complete and disjoint.  The references of a compiled function lie apart from
one another and inside the code; each is the address that one instruction loads and holds the
placeholder, and every instruction that loads an address has its reference.  So whenever the
addresses of all references are known, whatever they are, resolving them gives code of the same
length that has the address of each reference at its place and the bytes of before elsewhere. -/
theorem relocation_complete {module : Option Module} {host : Host} {index : UInt32}
    {compiled : Compiled} (compiles : (compileFunction module host index).outcome = .ok compiled)
    (small : compiled.program.code.size < 2147483648) :
    (∃ listing, compiled.program.Referenced listing) ∧
      ∀ (ε : Type) (lookup : Reference → Except ε UInt64) (address : Reference → UInt64),
        (∀ ref ∈ compiled.program.refs, lookup ref = .ok (address ref)) →
        ∃ code, compiled.program.resolve lookup = .ok code ∧
          compiled.program.Relocated address code := by
  obtain ⟨listing, mapped, _⟩ := compileFunction_mapped compiles small
  exact ⟨⟨listing, mapped.referenced⟩, fun _ _ _ found => mapped.referenced.resolves found⟩

/-- The two references of a division in a loop, both resolved to the placeholder itself. -/
theorem relocation_complete_loopingDivision :
    ∃ compiled code, (compileFunction (some loopingDivision) {} 0).outcome = .ok compiled ∧
      compiled.program.refs.length = 2 ∧
      compiled.program.resolve (fun _ => (.ok placeholder : Except Unit UInt64)) = .ok code ∧
      compiled.program.Relocated (fun _ => placeholder) code := by
  have fine : (compileFunction (some loopingDivision) {} 0).outcome.toOption.any
      (fun compiled => compiled.program.refs.length = 2 ∧
        compiled.program.code.size < 2147483648) = true := by decide +kernel
  obtain ⟨compiled, compiles, refs, small⟩ := Except.exists_of_any fine
  obtain ⟨code, resolves, relocated⟩ := (relocation_complete compiles small).2 Unit
    (fun _ => .ok placeholder) (fun _ => placeholder) fun _ _ => rfl
  exact ⟨compiled, code, compiles, refs, resolves, relocated⟩

end WasmX64

/-! ## Slots that code names -/

namespace WasmX64

/-- Relative to the frame pointer an instruction reads and writes slots of a frame only, or what
lies above the return address. -/
def Instruction.Framed (slots : Int) (instruction : Instruction) : Prop :=
  ∀ address, instruction.operand? = some address → address.base = .rbp →
    address.index = .absent ∧
      ((∃ index : Nat, (index : Int) < slots ∧ address.disp.toInt = -8 * index - 8) ∨
        16 ≤ address.disp.toInt)

theorem Instruction.Inside.framed {slots : Int} {instruction : Instruction}
    (inside : instruction.Inside slots) (few : slots < 134217728) : instruction.Framed slots := by
  intro address names based
  obtain ⟨index, below, rfl⟩ | ⟨index, below, rfl⟩ := inside address names based
  · refine ⟨rfl, .inl ⟨index, below, ?_⟩⟩
    exact Int32.toInt_ofInt_of_le (by omega) (by omega)
  · refine ⟨rfl, .inr ?_⟩
    have disp : (Int32.ofInt (16 + 8 * index)).toInt = 16 + 8 * index :=
      Int32.toInt_ofInt_of_le (by omega) (by omega)
    change 16 ≤ (Int32.ofInt (16 + 8 * index)).toInt
    rw [disp]
    omega

section Size

/-- The low four bits of a word are cleared. -/
theorem toNat_and_not_fifteen (word : UInt32) :
    (word &&& ~~~15).toNat = word.toNat / 16 * 16 := by
  have mask : ∀ index < 32, (15#32).getLsbD index = decide (index < 4) := by decide
  have shifted : word.toBitVec &&& ~~~15#32 = word.toBitVec >>> 4 <<< 4 := by
    ext index below
    have bit := mask index below
    simp only [BitVec.getLsbD_eq_getElem below] at bit
    rw [BitVec.getElem_and, BitVec.getElem_not, bit, BitVec.getElem_shiftLeft,
      BitVec.getElem_ushiftRight]
    by_cases low : index < 4
    · simp [low]
    · have place : 4 + (index - 4) = index := by omega
      simp [low, place, below]
  have small := word.toBitVec.isLt
  calc (word &&& ~~~15).toNat
      = (word.toBitVec >>> 4 <<< 4).toNat := congrArg BitVec.toNat shifted
    _ = word.toNat / 16 * 16 := by
        rw [BitVec.toNat_shiftLeft, BitVec.toNat_ushiftRight, Nat.shiftLeft_eq,
          Nat.shiftRight_eq_div_pow]
        exact Nat.mod_eq_of_lt (by omega)

/-- The space of a frame is a multiple of sixteen bytes with room for every slot, and hardly
more. -/
theorem Program.frameSize_spec {slots : Int} (positive : 0 ≤ slots) (few : slots < 134217728) :
    16 ∣ (frameSize slots).toNat ∧ 8 * slots < (frameSize slots).toNat ∧
      (frameSize slots).toNat ≤ 8 * slots + 23 := by
  have word : (wordOf ((slots + 1) * 8) + 15).toNat = ((slots + 1) * 8).toNat + 15 := by
    have small : ((slots + 1) * 8 % 4294967296).toNat = ((slots + 1) * 8).toNat := by
      rw [Int.emod_eq_of_lt (by omega) (by omega)]
    have fifteen : (15 : UInt32).toNat = 15 := rfl
    rw [UInt32.toNat_add, wordOf, UInt32.toNat_ofNat', small, fifteen]
    omega
  rw [frameSize, toNat_and_not_fifteen, word]
  omega

end Size

section Emitted

/-- The instructions that a step emits. -/
def Step.instruction? : Step → Option Instruction
  | .emit instruction => some instruction
  | _ => none

/-- The instructions of parts of code, latest part first. -/
def Part.instructions : List Part → List Instruction
  | [] => []
  | .steps sequence :: log => instructions log ++ sequence.filterMap Step.instruction?
  | .address target _ _ :: log => instructions log ++ [.movabs target placeholder]
  | .label :: log => instructions log

theorem Step.inside_instructions {slots : Int} {steps : List Step}
    (inside : ∀ step ∈ steps, step.Inside slots) {instruction : Instruction}
    (member : instruction ∈ steps.filterMap instruction?) : instruction.Inside slots := by
  obtain ⟨step, among, emits⟩ := List.mem_filterMap.mp member
  cases step with
  | emit other =>
    cases emits
    exact (inside _ among).1
  | jump _ _ | jumpIf _ _ _ | bind _ | fail _ => cases emits

theorem Draft.inside {slots : Int} {log : List Part} {stage : Stage}
    (draft : Draft slots log stage) :
    ∀ instruction ∈ Part.instructions log, instruction.Inside slots := by
  induction draft with
  | nil => exact fun _ member => absurd member List.not_mem_nil
  | steps _ _ _ inside _ ih =>
    intro instruction member
    cases List.mem_append.mp member with
    | inl earlier => exact ih instruction earlier
    | inr here => exact Step.inside_instructions inside here
  | bind _ _ ih =>
    intro instruction member
    exact ih instruction (by simpa [Part.instructions, Step.instruction?] using member)
  | address _ _ _ _ ih =>
    intro instruction member
    cases List.mem_append.mp member with
    | inl earlier => exact ih instruction earlier
    | inr here =>
      obtain rfl := List.mem_singleton.mp here
      exact fun _ names => absurd names (by simp)
  | label _ ih => exact ih

end Emitted

theorem Compiled.Composed.frame_holds {compiled : Compiled} {code : Code} {log : List Part}
    (composed : compiled.Composed code log) :
    Code.Holds { bytes := compiled.program.code } 7
      (bytes32 (Program.frameSize compiled.program.frameSlots)) := by
  have opened : (Part.text [.steps Sequence.prologue]).1.size = 11 := by decide
  have room := (Part.extends_text composed.opens).size
  rw [opened] at room
  obtain ⟨_, written, _⟩ :=
    @Code.patch_same _ 7 (bytes32 (Program.frameSize compiled.program.frameSlots)) room
  rw [composed.bytes, composed.text]
  exact written

theorem frameSlots_positive {module : Option Module} {host : Host} {index : UInt32}
    {compiled : Compiled} (compiles : (compileFunction module host index).outcome = .ok compiled) :
    0 ≤ compiled.program.frameSlots := by
  obtain ⟨subject, final, _, _, made, ran, _⟩ := compileFunction_ok compiles
  exact (Compile.function_bounded (Subject.of_proper made) compiled final ran).frame.1

/-- Frame accesses stay inside the frame.  Relative to the frame pointer the emitted code of a
function with fewer than 2 ^ 27 slots names slots of its frame only, or what lies above the return
address.  The code holds the space that the frame is opened with: a multiple of sixteen bytes
that has room for all slots.  The same is true of the instructions of the final code as long as
its labels reach their targets. -/
theorem frame_accesses_inside {module : Option Module} {host : Host} {index : UInt32}
    {compiled : Compiled} (compiles : (compileFunction module host index).outcome = .ok compiled)
    (few : compiled.program.frameSlots < 134217728) :
    (∃ code log, compiled.Composed code log ∧
      ∀ instruction ∈ Part.instructions log, instruction.Framed compiled.program.frameSlots) ∧
    Code.Holds { bytes := compiled.program.code } 7
      (bytes32 (Program.frameSize compiled.program.frameSlots)) ∧
    16 ∣ (Program.frameSize compiled.program.frameSlots).toNat ∧
    8 * compiled.program.frameSlots ≤ (Program.frameSize compiled.program.frameSlots).toNat ∧
    (compiled.program.code.size < 2147483648 → ∃ listing,
      Code.Listed { bytes := compiled.program.code } listing compiled.program.code.size ∧
      (∃ front, listing = front ++
        frameOpened (Program.frameSize compiled.program.frameSlots)) ∧
      ∀ placed ∈ listing, ∀ instruction, placed.item = .plain instruction →
        instruction.Framed compiled.program.frameSlots) := by
  obtain ⟨code, log, composed, _, _⟩ := compileFunction_composed compiles
  obtain ⟨aligned, room, _⟩ := Program.frameSize_spec (frameSlots_positive compiles) few
  refine ⟨⟨code, log, composed, ?_⟩, composed.frame_holds, aligned, Int.le_of_lt room, ?_⟩
  · exact fun instruction member => (composed.draft.inside instruction member).framed few
  · intro small
    obtain ⟨listing, mapped, _⟩ := compileFunction_mapped compiles small
    obtain ⟨front, opens, _⟩ := mapped.opens
    refine ⟨listing, mapped.listed, ⟨front, opens⟩, ?_⟩
    intro placed member instruction same
    have inside := mapped.inside placed member
    rw [same] at inside
    exact inside.1.framed few

/-- A function that calls itself with its arguments turned by one place, the last two of them on
the stack. -/
def turningArguments : Module where
  types := #[⟨List.replicate 8 .i32, [.i32]⟩]
  functions := #[
    { name := "turn", type := 0, locals := []
      body := [7, 0, 1, 2, 3, 4, 5, 6].map (fun index => { op := .localGet, index }) ++
        [{ op := .call }] }]

/-- Eight parameters are spilled in front of the call, into a frame of eighty bytes. -/
theorem frame_accesses_inside_turningArguments :
    ∃ compiled listing, (compileFunction (some turningArguments) {} 0).outcome = .ok compiled ∧
      compiled.program.frameSlots = 8 ∧
      Code.Holds { bytes := compiled.program.code } 7 (bytes32 80) ∧
      Code.Listed { bytes := compiled.program.code } listing compiled.program.code.size ∧
      ∀ placed ∈ listing, ∀ instruction, placed.item = .plain instruction →
        instruction.Framed 8 := by
  have fine : (compileFunction (some turningArguments) {} 0).outcome.toOption.any
      (fun compiled => compiled.program.frameSlots = 8 ∧
        compiled.program.code.size < 2147483648) = true := by decide +kernel
  obtain ⟨compiled, compiles, slots, small⟩ := Except.exists_of_any fine
  obtain ⟨_, held, _, _, listings⟩ := frame_accesses_inside compiles (by omega)
  obtain ⟨listing, listed, _, framed⟩ := listings small
  rw [slots] at held framed
  exact ⟨compiled, listing, compiles, slots, held, listed, framed⟩

end WasmX64
