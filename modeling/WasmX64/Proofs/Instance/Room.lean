import WasmX64.Proofs.Artifact.Stored
import WasmX64.Proofs.Compile.Declarations
import WasmX64.Proofs.Instance.Arena
import WasmX64.Proofs.Stack.Frame

/-!
# Room for code

An arena that is fitted to the code has room for every function and for a thunk of 256 bytes
each.  A thunk takes more than that when it passes many arguments, so that the arena is
exhausted once the whole pages that it is rounded up to do not make up for it.
-/

namespace WasmX64

section Width

/-- The bytes of a signed immediate. -/
def Instruction.immediateWidth (imm : Int32) : Nat := if fitsInt8 imm.toInt then 1 else 4

/-- The bytes of a distance from `rbx`. -/
def Address.distanceWidth (disp : Int32) : Nat :=
  if disp = 0 then 0 else Instruction.immediateWidth disp

theorem Address.length_displacement (disp : Int32) :
    (displacement .rbx disp).2.length = distanceWidth disp := by
  have low : Register.rbx.low ≠ 5 := by decide
  unfold displacement distanceWidth Instruction.immediateWidth
  by_cases zero : disp = 0
  · rw [if_pos ⟨zero, low⟩, if_pos zero]
    rfl
  · rw [if_neg (fun both => zero both.1), if_neg zero]
    split
    · rfl
    · rfl

/-- The code of the instructions takes a number of bytes. -/
def Instruction.Takes (instructions : List Instruction) (count : Nat) : Prop :=
  ∀ bytes, encodeAll instructions = .ok bytes → bytes.length = count

namespace Instruction.Takes

variable {first second : List Instruction} {count more : Nat}

theorem append (front : Takes first count) (back : Takes second more) :
    Takes (first ++ second) (count + more) := by
  intro bytes encodes
  obtain ⟨left, right, encoded, others, rfl⟩ := encodeAll_append_ok encodes
  rw [List.length_append, front left encoded, back right others]

theorem one {instruction : Instruction}
    (row : ∀ bytes, instruction.encode = .ok bytes → bytes.length = count) :
    Takes [instruction] count := by
  intro bytes encodes
  obtain ⟨first, rest, encoded, others, rfl⟩ := encodeAll_cons_ok encodes
  cases others
  rw [List.append_nil, row first encoded]

theorem nil : Takes [] 0 := by
  intro bytes encodes
  cases encodes
  rfl

theorem ite {condition : Prop} [Decidable condition] (yes : Takes first count)
    (no : Takes second more) :
    Takes (if condition then first else second) (if condition then count else more) := by
  split
  · exact yes
  · exact no

theorem flatMap {α : Type} {pieces : α → List Instruction} {sizes : α → Nat}
    (each : ∀ item, Takes (pieces item) (sizes item)) (list : List α) :
    Takes (list.flatMap pieces) (list.map sizes).sum := by
  induction list with
  | nil => exact nil
  | cons item rest ih =>
    rw [List.flatMap_cons, List.map_cons, List.sum_cons]
    exact (each item).append ih

end Instruction.Takes

/-- An instruction with an operand at a distance from `rbx`. -/
theorem OpcodeForm.length_withAddress {form : OpcodeForm} {bits : UInt8} {index : Nat}
    {bytes : List UInt8} (encodes : form.withAddress bits (Thunk.argument index) = .ok bytes) :
    bytes.length = form.legacy.toList.length + (form.rex bits 0).length + form.opcode.length + 1 +
      Address.distanceWidth (Int32.ofNat (8 * index)) := by
  unfold withAddress Thunk.argument at encodes
  rw [Address.encode_based (by decide)] at encodes
  cases encodes
  have extension : (Address.encodeBase .rbx (Int32.ofNat (8 * index))).rex = 0 := rfl
  have index? : (Address.encodeBase .rbx (Int32.ofNat (8 * index))).sib = none := rfl
  have distance : (Address.encodeBase .rbx (Int32.ofNat (8 * index))).disp.length =
      Address.distanceWidth (Int32.ofNat (8 * index)) := Address.length_displacement _
  rw [bytes, RmOperand.bytes, extension, index?]
  simp only [List.length_append, List.length_cons, Option.toList_none, List.length_nil, distance]
  omega

theorem OpcodeForm.length_rex {form : OpcodeForm} (plain : form.forceRex = false)
    (reg : Register) :
    (form.rex reg.bits4 0).length = if form.wide ∨ reg.high = true then 1 else 0 := by
  have bits : reg.bits4 &&& 0x08 = reg.code &&& 0x08 := by
    rw [Register.bits4, UInt8.and_assoc]
    rfl
  unfold rex Register.high
  rw [bits, plain]
  cases form.wide with
  | true => simp
  | false =>
    by_cases high : reg.code &&& 0x08 = 0
    · simp [high]
    · simp [high]

end Width

namespace Thunk

/-- The bytes that pass one argument. -/
def passingSize : Passing × Nat → Nat
  | (.stack _ _, index) => 2 + Address.distanceWidth (Int32.ofNat (8 * index))
  | (.reg type reg, index) =>
    (if type.isFloat then 4 else 2) + (if type = .i64 ∨ reg.high = true then 1 else 0) +
      Address.distanceWidth (Int32.ofNat (8 * index))

/-- The bytes that bring a float result into `rax`. -/
def resultSize (signature : Signature) : Nat :=
  match signature.result with
  | some (.f32, _) => 4
  | some (.f64, _) => 5
  | _ => 0

/-- The bytes of a thunk. -/
def size (signature : Signature) : Nat :=
  72 + (if signature.needsPadding then 2 else 0) +
    (signature.params.zipIdx.map passingSize).sum +
    (if signature.words = 0 then 0
      else 3 + Instruction.immediateWidth (Int32.ofNat (8 * signature.words))) +
    resultSize signature

/-- The bytes of a push, and of a load into a register. -/
def pushSize : Passing × Nat → Nat
  | (.stack type offset, index) => passingSize (.stack type offset, index)
  | (.reg _ _, _) => 0

def loadSize : Passing × Nat → Nat
  | (.stack _ _, _) => 0
  | (.reg type reg, index) => passingSize (.reg type reg, index)

open Instruction (Takes)

theorem pushing_takes (params : List (Passing × Nat)) :
    Takes (pushing params) (params.map pushSize).sum := by
  have reversed : (params.map pushSize).sum = (params.reverse.map pushSize).sum := by
    rw [List.map_reverse, List.sum_reverse]
  rw [reversed]
  refine Takes.flatMap (fun param => ?_) params.reverse
  obtain ⟨passing, index⟩ := param
  cases passing with
  | reg type reg => exact Takes.nil
  | stack type offset =>
    refine Takes.one fun bytes encodes => ?_
    rw [OpcodeForm.length_withAddress encodes]
    rfl

theorem loading_takes (params : List (Passing × Nat)) :
    Takes (loading params) (params.map loadSize).sum := by
  refine Takes.flatMap (fun param => ?_) params
  obtain ⟨passing, index⟩ := param
  cases passing with
  | stack type offset => exact Takes.nil
  | reg type reg =>
    dsimp only
    cases float : type.isFloat with
    | true =>
      refine Takes.one fun bytes encodes => ?_
      obtain ⟨_, _, encodes⟩ := Except.bind_inv encodes
      obtain ⟨_, _, encodes⟩ := Except.bind_inv encodes
      have narrow : type ≠ .i64 := by
        rintro rfl
        cases float
      rw [OpcodeForm.length_withAddress encodes, OpcodeForm.length_rex rfl]
      simp only [loadSize, passingSize, float, narrow, if_true, Bool.false_eq_true, false_or,
        Option.toList_some, List.length_cons, List.length_nil]
      omega
    | false =>
      refine Takes.one fun bytes encodes => ?_
      obtain ⟨_, _, encodes⟩ := Except.bind_inv encodes
      obtain ⟨_, _, encodes⟩ := Except.bind_inv encodes
      rw [OpcodeForm.length_withAddress encodes, OpcodeForm.length_rex rfl]
      simp only [loadSize, passingSize, float, Instruction.integerForm, Bool.false_eq_true,
        if_false, decide_eq_true_eq, Option.toList_none, List.length_cons, List.length_nil]
      omega

theorem placing_takes (signature : Signature) :
    Takes (placing signature) ((if signature.needsPadding then 2 else 0) +
      (signature.params.zipIdx.map passingSize).sum) := by
  have parts : (signature.params.zipIdx.map passingSize).sum =
      (signature.params.zipIdx.map pushSize).sum + (signature.params.zipIdx.map loadSize).sum := by
    induction signature.params.zipIdx with
    | nil => rfl
    | cons param rest ih =>
      obtain ⟨passing, index⟩ := param
      cases passing with
      | reg type reg => simp [pushSize, loadSize, ih]; omega
      | stack type offset => simp [pushSize, loadSize, ih]; omega
  rw [parts, ← Nat.add_assoc]
  refine Takes.append (Takes.append ?_ (pushing_takes _)) (loading_takes _)
  refine Takes.ite (Takes.one fun bytes encodes => ?_) Takes.nil
  cases encodes
  rfl

theorem dropping_takes (signature : Signature) :
    Takes (dropping signature) (if signature.words = 0 then 0
      else 3 + Instruction.immediateWidth (Int32.ofNat (8 * signature.words))) := by
  refine Takes.ite Takes.nil (Takes.one ?_)
  generalize Int32.ofNat (8 * signature.words) = imm
  intro bytes encodes
  change Instruction.withImm imm (.ok _) (.ok _) = .ok bytes at encodes
  unfold Instruction.withImm at encodes
  unfold Instruction.immediateWidth
  split at encodes
  · next short =>
    cases encodes
    rw [if_pos short]
    rfl
  · next long =>
    cases encodes
    rw [if_neg long]
    rfl

theorem returning_takes (signature : Signature) :
    Takes (returning signature) (resultSize signature) := by
  have four : Takes [.movFromFp .i32 .rax (.xmm 0)] 4 := by
    intro bytes encodes
    cases encodes
    rfl
  have five : Takes [.movFromFp .i64 .rax (.xmm 0)] 5 := by
    intro bytes encodes
    cases encodes
    rfl
  unfold returning resultSize
  cases signature.result with
  | none => exact Takes.nil
  | some result =>
    obtain ⟨type, reg⟩ := result
    cases type with
    | f32 => exact four
    | f64 => exact five
    | i32 => exact Takes.nil
    | i64 => exact Takes.nil
    | unknown code => exact Takes.nil

theorem build_size {signature : Signature} {target cell : UInt64} {thunk : Thunk}
    (built : build signature target cell = .ok thunk) : thunk.code.length = size signature := by
  obtain ⟨_, _, _, ⟨kept, saves, rfl⟩, ⟨more, goesOn, rfl⟩, ⟨last, leaves, rfl⟩, rfl⟩ :=
    build_grows built
  have saved : kept.length = 31 := by
    cases saves
    rfl
  have left : last.length = 15 := by
    cases leaves
    rfl
  have marks : Takes (marking placeholder) 14 := by
    intro bytes encodes
    cases encodes
    rfl
  have aims : Takes [.movabs .rax target] 10 := by
    intro bytes encodes
    cases encodes
    rfl
  have calls : Takes [.callReg .rax] 2 := by
    intro bytes encodes
    cases encodes
    rfl
  have middle := ((marks.append (placing_takes signature)).append aims).append
    (calls.append ((dropping_takes signature).append (returning_takes signature))) more goesOn
  have whole : ∀ first second third : List UInt8,
      (((Code.append {} first).append second).append third).bytes.toList.length =
        first.length + second.length + third.length := by
    intro first second third
    simp [Code.append, Nat.add_assoc]
  rw [whole, saved, middle, left, size]
  omega

theorem loading_passable {params : List (Passing × Nat)} {bytes : List UInt8}
    (encodes : Instruction.encodeAll (loading params) = .ok bytes) :
    ∀ param ∈ params, param.1.isPassable = true := by
  unfold loading at encodes
  induction params generalizing bytes with
  | nil => simp
  | cons param rest ih =>
    rw [List.flatMap_cons] at encodes
    obtain ⟨row, others, loads, further, rfl⟩ := Instruction.encodeAll_append_ok encodes
    refine List.forall_mem_cons.mpr ⟨?_, ih further⟩
    obtain ⟨passing, index⟩ := param
    cases passing with
    | stack type offset => rfl
    | reg type reg =>
      cases type with
      | unknown code =>
        obtain ⟨_, _, encoded, _⟩ := Instruction.encodeAll_cons_ok loads
        cases encoded
      | _ => rfl

theorem build_passable {signature : Signature} {target cell : UInt64} {thunk : Thunk}
    (built : build signature target cell = .ok thunk) : signature.isPassable = true := by
  obtain ⟨opened, called, code, _, ⟨more, goesOn, _⟩, _⟩ := build_grows built
  obtain ⟨opening, _, opens, _⟩ := Instruction.encodeAll_append_ok goesOn
  obtain ⟨placing, _, places, _⟩ := Instruction.encodeAll_append_ok opens
  obtain ⟨_, placed, _, passes, _⟩ := Instruction.encodeAll_append_ok places
  obtain ⟨_, loaded, _, loads, _⟩ := Instruction.encodeAll_append_ok passes
  refine List.all_eq_true.mpr fun passing member => ?_
  obtain ⟨index, inside, here⟩ := List.mem_iff_getElem.mp member
  refine loading_passable loads (passing, index) ?_
  exact List.mk_mem_zipIdx_iff_getElem?.mpr (List.getElem?_eq_some_iff.mpr ⟨inside, here⟩)

theorem size_positive (signature : Signature) : 0 < size signature := by
  unfold size
  omega

theorem passingSize_le (param : Passing × Nat) : passingSize param ≤ 9 := by
  obtain ⟨passing, index⟩ := param
  have distance : Address.distanceWidth (Int32.ofNat (8 * index)) ≤ 4 := by
    unfold Address.distanceWidth Instruction.immediateWidth
    split
    · omega
    · split <;> omega
  cases passing with
  | stack type offset =>
    change 2 + _ ≤ 9
    omega
  | reg type reg =>
    change (if type.isFloat then 4 else 2) + (if type = .i64 ∨ reg.high = true then 1 else 0) +
      _ ≤ 9
    split <;> split <;> omega

/-- A thunk is as long as its arguments are many. -/
theorem size_le (signature : Signature) : size signature ≤ 86 + 9 * signature.params.length := by
  have passes : (signature.params.zipIdx.map passingSize).sum ≤ signature.params.length * 9 := by
    have count : signature.params.zipIdx.length = signature.params.length := List.length_zipIdx
    rw [← count]
    induction signature.params.zipIdx with
    | nil => exact Nat.zero_le _
    | cons param rest ih =>
      have one := passingSize_le param
      rw [List.map_cons, List.sum_cons, List.length_cons]
      omega
  have drops : Instruction.immediateWidth (Int32.ofNat (8 * signature.words)) ≤ 4 := by
    unfold Instruction.immediateWidth
    split <;> omega
  have result : resultSize signature ≤ 5 := by
    unfold resultSize
    split <;> omega
  unfold size
  split <;> split <;> omega

end Thunk

namespace Arena

/-- Where pieces of given sizes end that are placed one after the other. -/
def extent (used : Nat) : List Nat → Nat
  | [] => used
  | size :: rest => extent (align used + size) rest

theorem le_extent (used : Nat) (sizes : List Nat) : used ≤ extent used sizes := by
  induction sizes generalizing used with
  | nil => exact Nat.le_refl _
  | cons size rest ih =>
    calc
      used ≤ align used := le_align used
      _ ≤ align used + size := Nat.le_add_right _ _
      _ ≤ extent used (size :: rest) := ih _

/-- Each piece takes no more than the next multiple of sixteen. -/
theorem align_extent_le (used : Nat) (sizes : List Nat) :
    align (extent used sizes) ≤ align used + (sizes.map align).sum := by
  induction sizes generalizing used with
  | nil => exact Nat.le_refl _
  | cons size rest ih =>
    have further := ih (align used + size)
    have apart : align (align used + size) = align used + align size := by
      unfold align
      omega
    rw [extent, List.map_cons, List.sum_cons]
    omega

theorem extent_append (used : Nat) (first second : List Nat) :
    extent used (first ++ second) = extent (extent used first) second := by
  induction first generalizing used with
  | nil => rfl
  | cons size rest ih => exact ih _

/-- Writing leaves the places as they are. -/
theorem Taken.fill {arena : Arena} {used size : Nat} (taken : arena.Taken used size)
    (region : Region) (code : List UInt8) :
    ∃ after, Arena.fill region code arena = .ok () after ∧ after.Taken used size :=
  ⟨_, rfl, taken.used, taken.size, taken.isOpen⟩

/-- Whole pages for a number of bytes. -/
def whole (bytes : Nat) : Nat := (bytes + 4095) / 4096 * 4096

theorem create_taken {bytes : Nat} (positive : 0 < bytes) (small : bytes + 4096 < 2 ^ 63) :
    ∃ arena, create (.ofNat bytes) = .ok arena ∧ arena.Taken 0 (whole bytes) := by
  have counted {count : Nat} (some : 0 < count) (few : count < 2 ^ 63) :
      ¬ Int64.ofNat count ≤ 0 := by
    rw [Int64.le_iff_toInt_le, Int64.toInt_ofNat_of_lt few, Int64.toInt_zero]
    omega
  have rounded : roundUp (.ofNat bytes) = .ofNat (whole bytes) := by
    have less : (Int64.ofNat bytes + page - 1) = Int64.ofNat (bytes + 4095) := by
      rw [Int64.ofNat_add, Int64.sub_eq_add_neg, Int64.add_assoc]
      rfl
    rw [roundUp, less, whole, Int64.ofNat_mul, Int64.ofNat_div (by omega) (by decide)]
    rfl
  have pages : 0 < whole bytes ∧ whole bytes < 2 ^ 63 := by
    unfold whole
    omega
  refine ⟨{ size := roundUp (.ofNat bytes) }, ?_, rfl, rounded, rfl⟩
  rw [create, if_neg (counted positive (by omega)), if_neg]
  rw [rounded]
  exact counted pages.1 pages.2

end Arena

/-- The arena has no place left. -/
def ArenaError.isExhausted : ArenaError → Bool
  | .exhausted _ _ _ => true
  | _ => false

/-- Loading failed because the arena has no place left. -/
def LoadError.isExhausted : LoadError → Bool
  | .arena cause | .place _ cause | .placeThunk _ cause => cause.isExhausted
  | _ => false

namespace Instance

variable {α β : Type} {arena after : Arena} {used size : Nat}

/-- A step of loading is told that the arena is exhausted. -/
def Exhausts (action : LoadM α) (arena : Arena) : Prop :=
  ∃ error after, action arena = .error error after ∧ error.isExhausted = true

/-- What comes behind a step that succeeds decides. -/
theorem exhausts_bind {action : LoadM α} {next : α → LoadM β} {value : α}
    (runs : action arena = .ok value after) :
    Exhausts (action >>= next) arena ↔ Exhausts (next value) after := by
  unfold Exhausts
  rw [EStateM.bind_ok runs]

theorem Exhausts.bind {action : LoadM α} {next : α → LoadM β} (exhausts : Exhausts action arena) :
    Exhausts (action >>= next) arena := by
  obtain ⟨error, after, runs, told⟩ := exhausts
  refine ⟨error, after, ?_, told⟩
  change EStateM.bind action next arena = _
  rw [EStateM.bind, runs]

theorem exhausts_last {action : LoadM α} {change : α → β} :
    Exhausts (action >>= fun value => pure (change value)) arena ↔ Exhausts action arena := by
  refine ⟨fun exhausts => ?_, Exhausts.bind⟩
  obtain ⟨error, after, runs, told⟩ := exhausts
  rw [EStateM.bind_run] at runs
  cases ran : action arena with
  | ok value middle =>
    rw [ran] at runs
    cases runs
  | error other middle =>
    rw [ran] at runs
    cases runs
    exact ⟨error, after, ran, told⟩

/-- Reserving a place goes through as long as the place lies inside. -/
theorem reserve_onArena (taken : arena.Taken used size) {count : Nat} (positive : 0 < count)
    (large : size < 2 ^ 63) (room : Arena.align used + count < 2 ^ 63)
    (cause : ArenaError → LoadError)
    (tells : ∀ error, (cause error).isExhausted = error.isExhausted) :
    (Arena.align used + count ≤ size ∧ ∃ region after,
        onArena cause (Arena.reserve (.ofNat count)) arena = .ok region after ∧
          after.Taken (Arena.align used + count) size) ∨
      (size < Arena.align used + count ∧
        Exhausts (onArena cause (Arena.reserve (.ofNat count))) arena) := by
  have runs := taken.reserve positive large room
  unfold Exhausts onArena
  rcases Nat.lt_or_ge size (Arena.align used + count) with less | fits
  · rw [if_pos less] at runs
    exact .inr ⟨less, _, arena, by rw [runs], by rw [tells]; rfl⟩
  · rw [if_neg (Nat.not_lt.mpr fits)] at runs
    refine .inl ⟨fits, ⟨.ofNat (Arena.align used), .ofNat count⟩,
      { arena with used := .ofNat (Arena.align used + count) }, ?_, rfl, taken.size, taken.isOpen⟩
    rw [runs]

/-- Sizes that are counted in machine words without wrapping around. -/
structure Moderate (functions : List Compiled) : Prop where
  few : functions.length < 2 ^ 31
  short : ∀ compiled ∈ functions, compiled.program.code.size < 2 ^ 31
  narrow : ∀ compiled ∈ functions, compiled.signature.params.length < 2 ^ 31

theorem placeFunctions_run {functions : List Compiled} (index : Nat)
    (taken : arena.Taken used size) (large : size < 2 ^ 62 + 2 ^ 61) (within : used ≤ size)
    (positive : ∀ compiled ∈ functions, 0 < compiled.program.code.size)
    (short : ∀ compiled ∈ functions, compiled.program.code.size < 2 ^ 31) :
    (Arena.extent used (functions.map (·.program.code.size)) ≤ size ∧ ∃ regions after,
        placeFunctions index functions arena = .ok regions after ∧
          regions.length = functions.length ∧
          after.Taken (Arena.extent used (functions.map (·.program.code.size))) size) ∨
      (size < Arena.extent used (functions.map (·.program.code.size)) ∧
        Exhausts (placeFunctions index functions) arena) := by
  induction functions generalizing index arena used with
  | nil => exact .inl ⟨within, [], arena, rfl, rfl, taken⟩
  | cons compiled rest ih =>
    obtain ⟨here, others⟩ := List.forall_mem_cons.mp positive
    obtain ⟨small, smaller⟩ := List.forall_mem_cons.mp short
    have room : Arena.align used + compiled.program.code.size < 2 ^ 63 := by
      unfold Arena.align
      omega
    rw [List.map_cons, Arena.extent, placeFunctions]
    rcases reserve_onArena taken here (by omega) room (.place index) (fun _ => rfl) with
      ⟨fits, region, middle, runs, further⟩ | ⟨less, exhausts⟩
    · rw [exhausts_bind runs, EStateM.bind_ok runs]
      rcases ih (index + 1) further fits others smaller with
        ⟨whole, regions, last, placed, count, done⟩ | ⟨less, exhausts⟩
      · refine .inl ⟨whole, region :: regions, last, ?_, congrArg Nat.succ count, done⟩
        rw [EStateM.bind_ok placed]
        rfl
      · exact .inr ⟨less, exhausts.bind⟩
    · exact .inr ⟨Nat.lt_of_lt_of_le less (Arena.le_extent _ _), exhausts.bind⟩

theorem writeFunctions_run {lookup : Reference → Except LookupError UInt64} (index : Nat)
    {placed : List (Compiled × Region)} (taken : arena.Taken used size)
    (resolves : ∀ item ∈ placed, ∃ code, item.1.program.resolve lookup = .ok code) :
    ∃ after, writeFunctions lookup index placed arena = .ok () after ∧ after.Taken used size := by
  induction placed generalizing index arena with
  | nil => exact ⟨arena, rfl, taken⟩
  | cons item rest ih =>
    obtain ⟨compiled, region⟩ := item
    obtain ⟨⟨code, resolved⟩, others⟩ := List.forall_mem_cons.mp resolves
    obtain ⟨middle, fills, further⟩ := taken.fill region code.toList
    obtain ⟨last, writes, done⟩ := ih (index + 1) further others
    refine ⟨last, ?_, done⟩
    have written : onArena (.place index) (Arena.fill region code.toList) arena =
        .ok () middle := by
      rw [onArena, fills]
    rw [writeFunctions]
    dsimp only at resolved
    simp only [resolved]
    rw [EStateM.bind_ok written, writes]

/-- The sizes of the thunks that can be built, up to the first that cannot. -/
def thunkSizes (functions : List Compiled) : List Nat :=
  (functions.takeWhile (·.signature.isPassable)).map (Thunk.size ·.signature)

section Thunks

-- a thunk is taken by what is known of it, never evaluated
seal Thunk.build

theorem writeThunks_cons (bases : Bases) (index : Nat) (compiled : Compiled) (entry : Region)
    (rest : List (Compiled × Region)) :
    writeThunks bases index ((compiled, entry) :: rest) =
      match Thunk.build compiled.signature (bases.code + entry.start.toUInt64)
        (bases.data + UInt64.ofNat DataRegion.trapCellAt) with
      | .error cause => throw (.thunk index cause)
      | .ok thunk => do
        let region ←
          onArena (.placeThunk index) (Arena.reserve (Int64.ofNat thunk.code.length))
        onArena (.placeThunk index)
          (Arena.fill region (thunk.link (bases.code + region.start.toUInt64)))
        return region.start :: (← writeThunks bases (index + 1) rest) := by
  rfl

theorem writeThunks_exhausts {functions : List Compiled} {regions : List Region} (bases : Bases)
    (index : Nat) (taken : arena.Taken used size) (large : size < 2 ^ 62 + 2 ^ 61)
    (within : used ≤ size) (count : regions.length = functions.length)
    (builds : ∀ compiled ∈ functions, compiled.signature.isPassable = true → ∀ target cell,
      ∃ thunk, Thunk.build compiled.signature target cell = .ok thunk)
    (narrow : ∀ compiled ∈ functions, compiled.signature.params.length < 2 ^ 31) :
    Exhausts (writeThunks bases index (functions.zip regions)) arena ↔
      size < Arena.extent used (thunkSizes functions) := by
  induction functions generalizing index arena used regions with
  | nil =>
    have done : ¬ Exhausts (writeThunks bases index []) arena := by
      rintro ⟨_, _, impossible, _⟩
      cases impossible
    rw [List.zip_nil_left, thunkSizes, List.takeWhile_nil, List.map_nil, Arena.extent]
    exact iff_of_false done (Nat.not_lt.mpr within)
  | cons compiled rest ih =>
    cases regions with
    | nil => exact absurd count (by simp)
    | cons entry entries =>
      obtain ⟨first, others⟩ := List.forall_mem_cons.mp builds
      obtain ⟨small, smaller⟩ := List.forall_mem_cons.mp narrow
      rw [List.zip_cons_cons, writeThunks_cons]
      cases built : Thunk.build compiled.signature (bases.code + entry.start.toUInt64)
          (bases.data + UInt64.ofNat DataRegion.trapCellAt) with
      | error cause =>
        have stuck : compiled.signature.isPassable = false := by
          rw [Bool.eq_false_iff]
          intro passable
          obtain ⟨thunk, succeeds⟩ := first passable _ _
          cases succeeds.symm.trans built
        rw [thunkSizes, List.takeWhile_cons_of_neg (by simp [stuck])]
        rw [List.map_nil, Arena.extent]
        refine iff_of_false ?_ (Nat.not_lt.mpr within)
        rintro ⟨error, after, runs, told⟩
        cases runs
        cases told
      | ok thunk =>
        have passable := Thunk.build_passable built
        have length := Thunk.build_size built
        have narrowed := Thunk.size_le compiled.signature
        have room : Arena.align used + thunk.code.length < 2 ^ 63 := by
          rw [length]
          unfold Arena.align
          omega
        simp only [thunkSizes, List.takeWhile_cons, passable, if_true, List.map_cons,
          Arena.extent, ← length]
        rcases reserve_onArena taken (length ▸ Thunk.size_positive _) (by omega) room
          (.placeThunk index) (fun _ => rfl) with
          ⟨fits, region, middle, runs, further⟩ | ⟨less, exhausts⟩
        · obtain ⟨last, fills, done⟩ := further.fill region
            (thunk.link (bases.code + region.start.toUInt64))
          have written : onArena (.placeThunk index) (Arena.fill region
              (thunk.link (bases.code + region.start.toUInt64))) middle = .ok () last := by
            rw [onArena, fills]
          rw [exhausts_bind runs, exhausts_bind written]
          rw [exhausts_last]
          exact ih (index + 1) done fits (Nat.succ.inj count) others smaller
        · exact iff_of_true exhausts.bind
            (Nat.lt_of_lt_of_le less (Arena.le_extent _ _))

end Thunks

/-- The bytes that an arena fitted to the code is asked for. -/
def room (functions : List Compiled) : Nat :=
  functions.foldl (fun total compiled => total + compiled.program.code.size + 16) 0 +
    256 * functions.length

/-- The sizes of all that is placed in an arena, in order. -/
def pieces (functions : List Compiled) : List Nat :=
  functions.map (·.program.code.size) ++ thunkSizes functions

/-- Functions that go through every step of loading but for the room they need. -/
structure Loadable (module : Module) (functions : List Compiled) : Prop where
  nonempty : functions ≠ []
  count : functions.length = module.functions.size
  positive : ∀ compiled ∈ functions, 0 < compiled.program.code.size
  builds : ∀ compiled ∈ functions, compiled.signature.isPassable = true → ∀ target cell,
    ∃ thunk, Thunk.build compiled.signature target cell = .ok thunk
  resolves : ∀ compiled ∈ functions, ∀ bases entries, entries.size = functions.length →
    ∃ code, compiled.program.resolve (lookup module bases entries) = .ok code

theorem room_eq (functions : List Compiled) :
    room functions = (functions.map (·.program.code.size + 272)).sum := by
  have total : ∀ start, functions.foldl
      (fun total compiled => total + compiled.program.code.size + 16) start +
        256 * functions.length = start + (functions.map (·.program.code.size + 272)).sum := by
    induction functions with
    | nil => exact fun start => rfl
    | cons compiled rest ih =>
      intro start
      rw [List.foldl_cons, List.map_cons, List.sum_cons, List.length_cons]
      have further := ih (start + compiled.program.code.size + 16)
      omega
  rw [room, total 0, Nat.zero_add]

theorem room_lt {functions : List Compiled} (moderate : Moderate functions) :
    room functions < 2 ^ 62 + 2 ^ 60 := by
  have each : ∀ list : List Compiled, (∀ compiled ∈ list, compiled.program.code.size < 2 ^ 31) →
      (list.map (·.program.code.size + 272)).sum ≤ list.length * (2 ^ 31 + 272) := by
    intro list short
    induction list with
    | nil => exact Nat.zero_le _
    | cons compiled rest ih =>
      obtain ⟨here, others⟩ := List.forall_mem_cons.mp short
      have further := ih others
      rw [List.map_cons, List.sum_cons, List.length_cons]
      omega
  have bound := each functions moderate.short
  have few := moderate.few
  rw [room_eq]
  omega

/-- Fills an arena with functions and their thunks. -/
def fill (module : Module) (functions : List Compiled) (bases : Bases) :
    LoadM (List Region × List Int64) := do
  let regions ← placeFunctions 0 functions
  let entries := (regions.map Region.start).toArray
  let placed := functions.zip regions
  writeFunctions (lookup module bases entries) 0 placed
  let thunks ← writeThunks bases 0 placed
  onArena .arena Arena.freeze
  return (regions, thunks)

/-- Sealing an arena needs no place. -/
theorem freeze_spares : ¬ Exhausts (onArena .arena Arena.freeze) arena := by
  rintro ⟨error, after, runs, told⟩
  unfold onArena at runs
  rw [Arena.freeze_run] at runs
  by_cases closed : arena.isSealed = true
  · rw [if_pos closed] at runs
    cases runs
  · by_cases empty : arena.size = 0
    · rw [if_neg closed, if_pos empty] at runs
      cases runs
      cases told
    · rw [if_neg closed, if_neg empty] at runs
      cases runs

section Load

variable {module : Module} {functions : List Compiled} {host : Host} {bases : Bases}

theorem Loadable.fill_exhausts (loadable : Loadable module functions) (bases : Bases)
    (moderate : Moderate functions) (taken : arena.Taken 0 size) (large : size < 2 ^ 62 + 2 ^ 61) :
    Exhausts (fill module functions bases) arena ↔ size < Arena.extent 0 (pieces functions) := by
  rw [pieces, Arena.extent_append, fill]
  rcases placeFunctions_run 0 taken large (Nat.zero_le _) loadable.positive
      moderate.short with ⟨fits, regions, placed, runs, count, further⟩ | ⟨less, exhausts⟩
  · have entries : (regions.map Region.start).toArray.size = functions.length := by
      simp [count]
    have resolves : ∀ item ∈ functions.zip regions, ∃ code,
        item.1.program.resolve (lookup module bases (regions.map Region.start).toArray) =
          .ok code := fun item member =>
      loadable.resolves _ (List.of_mem_zip member).1 bases _ entries
    obtain ⟨written, writes, ready⟩ := writeFunctions_run 0 further resolves
    rw [exhausts_bind runs, exhausts_bind writes, ← writeThunks_exhausts bases 0 ready large fits
      count loadable.builds moderate.narrow]
    refine ⟨fun exhausts => ?_, Exhausts.bind⟩
    cases thunks : writeThunks bases 0 (functions.zip regions) written with
    | ok starts after =>
      rw [exhausts_bind thunks] at exhausts
      exact absurd (exhausts_last.mp exhausts) freeze_spares
    | error error after =>
      obtain ⟨other, last, fails, told⟩ := exhausts
      rw [EStateM.bind_run, thunks] at fails
      cases fails
      exact ⟨error, after, thunks, told⟩
  · exact iff_of_true exhausts.bind (Nat.lt_of_lt_of_le less (Arena.le_extent _ _))

theorem Loadable.exhausts (loadable : Loadable module functions) (moderate : Moderate functions) :
    (∃ error, load module functions host 0 bases = .error error ∧ error.isExhausted = true) ↔
      Arena.whole (room functions) < Arena.extent 0 (pieces functions) := by
  have small := room_lt moderate
  have positive : 0 < room functions := by
    obtain ⟨first, rest, rfl⟩ := List.exists_cons_of_ne_nil loadable.nonempty
    rw [room_eq, List.map_cons, List.sum_cons]
    omega
  obtain ⟨arena, creates, taken⟩ := Arena.create_taken positive (by omega)
  have large : Arena.whole (room functions) < 2 ^ 62 + 2 ^ 61 := by
    unfold Arena.whole
    omega
  have sized : Arena.create (if (0 : Int64) = 0 then sufficientArena functions else 0) =
      .ok arena := creates
  rw [← loadable.fill_exhausts bases moderate taken large]
  unfold load
  rw [if_neg (not_not.mpr loadable.count)]
  dsimp only
  rw [sized]
  have created : ∀ next : Arena → Except LoadError Instance,
      ((Except.ok arena).mapError LoadError.arena >>= next) = next arena := fun _ => rfl
  rw [created]
  unfold Exhausts
  cases filled : fill module functions bases arena with
  | ok value after =>
    unfold fill at filled
    dsimp only at filled
    rw [filled]
    refine iff_of_false ?_ ?_
    · rintro ⟨error, impossible, _⟩
      cases impossible
    · rintro ⟨error, last, impossible, _⟩
      cases impossible
  | error cause after =>
    unfold fill at filled
    dsimp only at filled
    rw [filled]
    refine ⟨?_, ?_⟩
    · rintro ⟨error, same, told⟩
      cases same
      exact ⟨_, _, rfl, told⟩
    · rintro ⟨error, last, same, told⟩
      cases same
      exact ⟨_, rfl, told⟩

theorem extent_le_room (few : ∀ compiled ∈ functions, Thunk.size compiled.signature ≤ 256) :
    Arena.extent 0 (pieces functions) ≤ room functions := by
  have codes : ∀ list : List Compiled,
      ((list.map (·.program.code.size)).map Arena.align).sum + 256 * list.length ≤
        (list.map (·.program.code.size + 272)).sum := by
    intro list
    induction list with
    | nil => exact Nat.zero_le _
    | cons compiled rest ih =>
      simp only [List.map_cons, List.sum_cons, List.length_cons]
      have aligned : Arena.align compiled.program.code.size ≤
          compiled.program.code.size + 16 := by
        unfold Arena.align
        omega
      omega
  have thunks : ∀ list : List Compiled,
      (∀ compiled ∈ list, Thunk.size compiled.signature ≤ 256) →
        ((thunkSizes list).map Arena.align).sum ≤ 256 * list.length := by
    intro list small
    induction list with
    | nil => exact Nat.zero_le _
    | cons compiled rest ih =>
      obtain ⟨here, others⟩ := List.forall_mem_cons.mp small
      have further := ih others
      have aligned : Arena.align (Thunk.size compiled.signature) ≤ 256 := by
        unfold Arena.align
        omega
      unfold thunkSizes at further ⊢
      rw [List.takeWhile_cons]
      split
      · simp only [List.map_cons, List.sum_cons, List.length_cons]
        omega
      · exact Nat.zero_le _
  calc
    Arena.extent 0 (pieces functions) ≤ Arena.align (Arena.extent 0 (pieces functions)) :=
      Arena.le_align _
    _ ≤ Arena.align 0 + ((pieces functions).map Arena.align).sum := Arena.align_extent_le _ _
    _ ≤ room functions := by
      rw [pieces, List.map_append, List.sum_append, room_eq]
      have first := codes functions
      have second := thunks functions few
      have start : Arena.align 0 = 0 := rfl
      omega

theorem lookup_names {entries : Array Int64} {ref : Reference}
    (placed : entries.size = module.functions.size) (named : module.Names ref.kind ref.index) :
    ∃ address, lookup module bases entries ref = .ok address := by
  obtain ⟨offset, kind, index⟩ := ref
  unfold lookup
  cases kind with
  | global =>
    exact ⟨_, if_neg (Nat.not_le.mpr named)⟩
  | func =>
    have inside : index.toNat < entries.size := placed ▸ named
    dsimp only
    rw [Array.getElem?_eq_getElem inside]
    exact ⟨_, rfl⟩
  | unknown code => cases named
  | _ => exact ⟨_, rfl⟩

theorem compiled_loadable {target : Host}
    (compiles : (compileModule (some module) target).1 = .ok functions) (nonempty : functions ≠ [])
    (moderate : Moderate functions) : Loadable module.tabulate functions := by
  obtain ⟨count, each⟩ := compileModule_at compiles
  have made : ∀ compiled ∈ functions, ∃ index,
      (compileFunction (some module.tabulate) target index).outcome = .ok compiled := by
    intro compiled member
    obtain ⟨place, here⟩ := List.mem_iff_getElem?.mp member
    exact ⟨_, each place compiled here⟩
  refine ⟨nonempty, count, ?_, ?_, ?_⟩
  · intro compiled member
    obtain ⟨index, compiles⟩ := made compiled member
    obtain ⟨code, log, composed, _⟩ := compileFunction_composed compiles
    obtain ⟨within, _⟩ := Array.getElem?_eq_some_iff.mp (composed.frame_holds 0 _ rfl)
    exact Nat.zero_lt_of_lt within
  · intro compiled member passable target cell
    obtain ⟨index, compiles⟩ := made compiled member
    obtain ⟨subject, final, _, _, found, ran, _⟩ := compileFunction_ok compiles
    have proper := Subject.of_proper found
    have same := (Compile.function_bounded proper compiled final ran).signature.trans
      proper.signature
    rw [same] at passable ⊢
    exact Thunk.build_of_passable passable target cell
  · intro compiled member bases entries placed
    obtain ⟨index, compiles⟩ := made compiled member
    have known : ∀ ref ∈ compiled.program.refs, ∃ address,
        lookup module.tabulate bases entries ref = .ok address := fun ref member =>
      lookup_names (placed.trans count) (compileFunction_names compiles ref member)
    obtain ⟨listing, mapped, _⟩ := compileFunction_mapped compiles (moderate.short compiled member)
    let address (ref : Reference) : UInt64 :=
      ((lookup module.tabulate bases entries ref).toOption).getD 0
    have found : ∀ ref ∈ compiled.program.refs,
        lookup module.tabulate bases entries ref = .ok (address ref) := by
      intro ref member
      obtain ⟨value, is⟩ := known ref member
      simp [address, is, Except.toOption]
    obtain ⟨code, resolves, _⟩ := mapped.referenced.resolves found
    exact ⟨code, resolves⟩

end Load

end Instance

section Load

variable {module : Module} {functions : List Compiled} {target : Host}

/-- An arena of size zero is fitted to the code with 256 bytes for each thunk.  It is exhausted
if and only if the functions and thunks, each at the next multiple of sixteen, extend beyond the
whole pages that are asked for; this does not happen as long as no thunk is longer than 256
bytes. -/
theorem load_exhausted_iff (compiles : (compileModule (some module) target).1 = .ok functions)
    (nonempty : functions ≠ []) (moderate : Instance.Moderate functions) (host : Host)
    (bases : Bases) :
    ((∃ error, Instance.load module.tabulate functions host 0 bases = .error error ∧
        error.isExhausted = true) ↔
      Arena.whole (Instance.room functions) < Arena.extent 0 (Instance.pieces functions)) ∧
    ((∀ compiled ∈ functions, Thunk.size compiled.signature ≤ 256) →
      Arena.extent 0 (Instance.pieces functions) ≤ Arena.whole (Instance.room functions)) := by
  have loadable := Instance.compiled_loadable compiles nonempty moderate
  refine ⟨loadable.exhausts moderate, fun few => ?_⟩
  have within : Instance.room functions ≤ Arena.whole (Instance.room functions) := by
    unfold Arena.whole
    omega
  exact Nat.le_trans (Instance.extent_le_room few) within

end Load

/-- Empty functions of one type with 29 integer and 15 float parameters.  A thunk for it takes
312 bytes. -/
def wideModule (count : Nat) : Module where
  types := #[⟨List.replicate 29 .i32 ++ List.replicate 15 .f64, []⟩]
  functions := Array.replicate count { name := "wide", type := 0, locals := [], body := [] }

/-- One such function fits into the page that is asked for. -/
theorem load_exhausted_iff_oneWide :
    ∃ functions, (compileModule (some (wideModule 1)) {}).1 = .ok functions ∧
      functions ≠ [] ∧ Instance.Moderate functions ∧
      Arena.extent 0 (Instance.pieces functions) ≤ Arena.whole (Instance.room functions) ∧
      ¬ ∃ error, Instance.load (wideModule 1).tabulate functions {} 0 {} = .error error ∧
        error.isExhausted = true := by
  have fine : (compileModule (some (wideModule 1)) {}).1.toOption.any (fun functions =>
      functions ≠ [] ∧ functions.length < 2 ^ 31 ∧
      (∀ compiled ∈ functions, compiled.program.code.size < 2 ^ 31) ∧
      (∀ compiled ∈ functions, compiled.signature.params.length < 2 ^ 31) ∧
      Arena.extent 0 (Instance.pieces functions) ≤
        Arena.whole (Instance.room functions)) = true := by
    decide +kernel
  obtain ⟨functions, compiles, nonempty, few, short, narrow, fits⟩ := Except.exists_of_any fine
  have moderate : Instance.Moderate functions := ⟨few, short, narrow⟩
  have outcome := (load_exhausted_iff compiles nonempty moderate {} {}).1
  exact ⟨functions, compiles, nonempty, moderate, fits,
    fun exhausted => absurd (outcome.mp exhausted) (Nat.not_lt.mpr fits)⟩

/-- Seven of them do not, though the arena is fitted to them. -/
theorem sevenWide_exhausts :
    (wideModule 7).validate = .ok () ∧
      ∃ functions, (compileModule (some (wideModule 7)) {}).1 = .ok functions ∧
        functions.length = 7 ∧
        ∃ error, Instance.load (wideModule 7).tabulate functions {} 0 {} = .error error ∧
          error.isExhausted = true := by
  have wide : (compileModule (some (wideModule 7)) {}).1.toOption.any (fun functions =>
      functions.length = 7 ∧
      (∀ compiled ∈ functions, compiled.program.code.size < 2 ^ 31) ∧
      (∀ compiled ∈ functions, compiled.signature.params.length < 2 ^ 31) ∧
      Arena.whole (Instance.room functions) <
        Arena.extent 0 (Instance.pieces functions)) = true := by
    decide +kernel
  refine ⟨by decide +kernel, ?_⟩
  obtain ⟨functions, compiles, count, short, narrow, beyond⟩ := Except.exists_of_any wide
  have nonempty : functions ≠ [] := List.ne_nil_of_length_eq_add_one count
  have moderate : Instance.Moderate functions := ⟨by omega, short, narrow⟩
  have loadable := Instance.compiled_loadable compiles nonempty moderate
  exact ⟨functions, compiles, count, (loadable.exhausts moderate).mpr beyond⟩

end WasmX64
