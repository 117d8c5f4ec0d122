import WasmX64.Proofs.Instance.Room
import WasmX64.Proofs.LinearMemory.Limits
import WasmX64.Proofs.Machine.Shapes

/-!
# The layout of the data region

The pieces of a data region stand in zones behind each other: the cells, the globals, the
signatures and the entries of the table, and the arguments.  So they lie apart, aligned and inside
the region, whatever their numbers are.  References lead to the starts of pieces, and preparing a
call writes to the arguments and the trap cell only.
-/

namespace WasmX64

namespace DataRegion

/-- A piece of a data region; the arguments are one. -/
inductive Piece where
  | trapCell
  | memorySize
  | tableSize
  | global (index : Nat)
  | signature (index : Nat)
  | entry (index : Nat)
  | arguments
deriving DecidableEq

variable {region : DataRegion} {piece first second : Piece}

def Has (region : DataRegion) : Piece → Prop
  | .global index => index < region.globals
  | .signature index => index < region.tableSlots
  | .entry index => index < region.tableSlots
  | _ => True

def start (region : DataRegion) : Piece → Nat
  | .trapCell => trapCellAt
  | .memorySize => memorySizeAt
  | .tableSize => tableSizeAt
  | .global index => globalAt index
  | .signature index => region.signatureAt index
  | .entry index => region.entryAt index
  | .arguments => region.argumentsAt

def length (region : DataRegion) : Piece → Nat
  | .trapCell => trapCellSize
  | .signature _ => 4
  | .arguments => 8 * region.arguments
  | _ => 8

def finish (region : DataRegion) (piece : Piece) : Nat := region.start piece + region.length piece

/-- The start of a piece is a multiple of this. -/
def Piece.alignment : Piece → Nat
  | .signature _ => 4
  | _ => 8

def Apart (region : DataRegion) (first second : Piece) : Prop :=
  region.finish first ≤ region.start second ∨ region.finish second ≤ region.start first

def Covers (region : DataRegion) (piece : Piece) (place : Nat) : Prop :=
  region.start piece ≤ place ∧ place < region.finish piece

/-! ## Zones -/

/-- The number of the zone that a piece stands in. -/
def Piece.zone : Piece → Nat
  | .trapCell => 0
  | .memorySize => 1
  | .tableSize => 2
  | .global _ => 3
  | .signature _ => 4
  | .entry _ => 5
  | .arguments => 6

/-- Where a zone starts. -/
def border (region : DataRegion) : Nat → Nat
  | 0 => trapCellAt
  | 1 => memorySizeAt
  | 2 => tableSizeAt
  | 3 => globalsAt
  | 4 => region.signaturesAt
  | 5 => region.entriesAt
  | 6 => region.argumentsAt
  | _ => region.size

theorem border_mono (region : DataRegion) : Monotone region.border := by
  apply monotone_nat_of_le_succ
  intro zone
  rcases zone with _ | _ | _ | _ | _ | _ | _ | zone
  all_goals
    simp only [border, Nat.zero_add, Nat.reduceAdd, trapCellAt, memorySizeAt, tableSizeAt, globalsAt,
      signaturesAt, entriesAt, argumentsAt, size]
    omega

theorem Has.between (has : region.Has piece) :
    region.border piece.zone ≤ region.start piece ∧
      region.finish piece ≤ region.border (piece.zone + 1) := by
  cases piece
  all_goals
    simp only [Has] at has
    simp only [Piece.zone, border, start, finish, length, trapCellAt, memorySizeAt, tableSizeAt,
      globalsAt, globalAt, signatureAt, signaturesAt, entryAt, entriesAt, argumentsAt, size]
    omega

theorem Has.inside (has : region.Has piece) : region.finish piece ≤ region.size := by
  have last : piece.zone + 1 ≤ 7 := by
    cases piece <;> simp [Piece.zone]
  exact Nat.le_trans has.between.2 (border_mono region last)

theorem aligned (region : DataRegion) (piece : Piece) :
    piece.alignment ∣ region.start piece := by
  cases piece
  all_goals
    simp only [Piece.alignment, start, trapCellAt, memorySizeAt, tableSizeAt, globalsAt, globalAt,
      signatureAt, signaturesAt, entryAt, entriesAt, argumentsAt, trapCellSize]
    omega

/-- Pieces of different zones lie apart, and so do pieces of one zone with different numbers. -/
theorem Has.apart (one : region.Has first) (other : region.Has second) (differ : first ≠ second) :
    region.Apart first second := by
  rcases Nat.lt_trichotomy first.zone second.zone with below | same | above
  · have mono := border_mono region (Nat.succ_le_of_lt below)
    exact .inl (one.between.2.trans (mono.trans other.between.1))
  · unfold Apart finish
    cases first <;> cases second <;> cases same <;>
      simp only [start, length, globalAt, signatureAt, entryAt, ne_eq, Piece.global.injEq,
        Piece.signature.injEq, Piece.entry.injEq, not_true_eq_false] at differ ⊢ <;> omega
  · have mono := border_mono region (Nat.succ_le_of_lt above)
    exact .inr (other.between.2.trans (mono.trans one.between.1))

/-! ## Writing -/

section Write

variable {α : Type} {place : Nat → Nat} {bytes : α → List UInt8} {width : Nat}

theorem size_write (index : Nat) (items : List α) (data : Array UInt8) :
    (write place bytes index items data).size = data.size := by
  induction items generalizing index data with
  | nil => rfl
  | cons item rest ih => rw [write, ih, Code.size_overwrite]

theorem getElem?_write (behind : ∀ index, place (index + 1) = place index + width)
    (wide : ∀ item, (bytes item).length = width) (index : Nat) (items : List α)
    (data : Array UInt8) {offset : Nat}
    (outside : offset < place index ∨ place (index + items.length) ≤ offset) :
    (write place bytes index items data)[offset]? = data[offset]? := by
  have mono : Monotone place := monotone_nat_of_le_succ fun index => by rw [behind]; omega
  induction items generalizing index data with
  | nil => rfl
  | cons item rest ih =>
    have last : index + (item :: rest).length = index + 1 + rest.length := by
      rw [List.length_cons]
      omega
    have next := behind index
    have above := mono (Nat.le_add_right (index + 1) rest.length)
    rw [last] at outside
    rw [write, ih _ _ (by omega), Code.getElem?_overwrite _ _ _ (by rw [wide]; omega)]

/-- Items behind each other stand at their places. -/
theorem getElem?_write_inside (behind : ∀ index, place (index + 1) = place index + width)
    (wide : ∀ item, (bytes item).length = width) (index : Nat) {items : List α}
    {data : Array UInt8} (room : place (index + items.length) ≤ data.size) {number : Nat} {item : α}
    (found : items[number]? = some item) {offset : Nat} {byte : UInt8}
    (within : (bytes item)[offset]? = some byte) :
    (write place bytes index items data)[place (index + number) + offset]? = some byte := by
  have mono : Monotone place := monotone_nat_of_le_succ fun index => by rw [behind]; omega
  induction items generalizing index data number with
  | nil => simp at found
  | cons head rest ih =>
    have last : index + (head :: rest).length = index + 1 + rest.length := by
      rw [List.length_cons]
      omega
    rw [last] at room
    rw [write]
    cases number with
    | zero =>
      obtain rfl : head = item := by simpa using found
      have next := behind index
      have above := mono (Nat.le_add_right (index + 1) rest.length)
      have small := (List.getElem?_eq_some_iff.mp within).1
      rw [wide] at small
      have before : place index + offset < place (index + 1) := by omega
      have room : place index + (bytes head).length ≤ data.size := by
        rw [wide]
        omega
      exact (getElem?_write behind wide _ _ _ (.inl before)).trans
        (Code.getElem?_overwrite_inside _ _ _ room within)
    | succ number =>
      have shifted : index + (number + 1) = index + 1 + number := by omega
      rw [shifted]
      exact ih (index + 1) (by rwa [Code.size_overwrite]) (by simpa using found)

end Write

/-- What preparing a call does to the bytes of a data region: every argument is written inside the
arguments, the trap cell is cleared, and all other bytes stay. -/
structure Prepared (region : DataRegion) (args : List Value) (before after : Array UInt8) :
    Prop where
  size : after.size = before.size
  room : args.length ≤ region.arguments
  arguments : ∀ (index : Nat) arg, args[index]? = some arg →
    Code.Holds { bytes := after } (region.argumentAt index) (bytes64 arg.bits)
  passes : region.argumentsIn args.length after = args.map Value.bits
  trapCell : ∀ place, region.Covers .trapCell place → after[place]? = some 0
  kept : ∀ place, ¬ region.Covers .arguments place → ¬ region.Covers .trapCell place →
    after[place]? = before[place]?

/-! ## Reading back -/

theorem foldr_bytes (low high : UInt32) :
    (bytes32 low ++ bytes32 high).foldr
        (fun byte (word : UInt64) => word <<< 8 ||| byte.toUInt64) 0 =
      low.toUInt64 ||| high.toUInt64 <<< 32 := by
  apply UInt64.eq_of_toBitVec_eq
  apply BitVec.eq_of_getLsbD_eq
  intro index small
  simp only [bytes32, List.cons_append, List.nil_append, List.foldr_cons, List.foldr_nil,
    UInt64.toBitVec_or, UInt64.toBitVec_shiftLeft, UInt8.toBitVec_toUInt64,
    UInt32.toBitVec_toUInt64, UInt32.toBitVec_toUInt8, UInt32.toBitVec_shiftRight,
    BitVec.getLsbD_or]
  simp
  grind

/-- A word that was written is read. -/
theorem wordAt_of_holds {data : Array UInt8} {offset : Nat} {word : UInt64}
    (holds : Code.Holds { bytes := data } offset (bytes64 word)) :
    Program.wordAt data offset = word := by
  have bytes : (List.range 8).map (fun place => data[offset + place]?.getD 0) = bytes64 word := by
    refine List.ext_getElem rfl fun place inside within => ?_
    rw [List.getElem_map, List.getElem_range, holds place _ (List.getElem?_eq_getElem within),
      Option.getD_some]
  calc Program.wordAt data offset
      = ((List.range 8).map fun place => data[offset + place]?.getD 0).foldr
          (fun byte (word : UInt64) => word <<< 8 ||| byte.toUInt64) 0 := by
        rw [List.foldr_map, Program.wordAt]
    _ = word := by rw [bytes, bytes64, foldr_bytes, Decode.join_words]

theorem prepared {args : List Value} (room : args.length ≤ region.arguments) {data : Array UInt8}
    (whole : data.size = region.size) : region.Prepared args data (region.prepare args data) := by
  have behind (index : Nat) : region.argumentAt (index + 1) = region.argumentAt index + 8 := by
    unfold argumentAt
    omega
  have wide (arg : Value) : (bytes64 arg.bits).length = 8 := rfl
  have begins : region.argumentAt 0 = region.start .arguments := rfl
  have extent : region.finish .arguments = region.argumentsAt + 8 * region.arguments := rfl
  have ends : region.argumentAt args.length ≤ region.finish .arguments := by
    unfold argumentAt
    omega
  have has : region.Has .arguments := trivial
  have fits : region.finish .arguments ≤ data.size := whole ▸ has.inside
  have behindCell : trapCellAt + trapCellSize ≤ region.argumentsAt :=
    border_mono region (by decide : 1 ≤ 6)
  have cell : (List.replicate trapCellSize (0 : UInt8)).length = trapCellSize := List.length_replicate
  let written := write region.argumentAt (fun arg : Value => bytes64 arg.bits) 0 args data
  have size : written.size = data.size := size_write _ _ _
  have other (place : Nat) (outside : ¬ region.Covers .trapCell place) :
      (region.prepare args data)[place]? = written[place]? := by
    refine Code.getElem?_overwrite _ _ _ fun inside => outside ⟨inside.1, ?_⟩
    have below := inside.2
    rwa [cell] at below
  have holds (index : Nat) (arg : Value) (found : args[index]? = some arg) :
      Code.Holds { bytes := region.prepare args data } (region.argumentAt index)
        (bytes64 arg.bits) := by
    intro offset byte within
    have room : region.argumentAt (0 + args.length) ≤ data.size := by
      rw [Nat.zero_add]
      omega
    have inside := getElem?_write_inside behind wide 0 room found within
    rw [Nat.zero_add] at inside
    have later : region.argumentsAt ≤ region.argumentAt index := Nat.le_add_right _ (8 * index)
    have outside : ¬ region.Covers .trapCell (region.argumentAt index + offset) := by
      rintro ⟨_, below⟩
      change region.argumentAt index + offset < trapCellAt + trapCellSize at below
      omega
    dsimp only
    exact (other _ outside).trans inside
  refine ⟨?_, room, holds, ?_, ?_, ?_⟩
  · exact (Code.size_overwrite _ _ _).trans size
  · refine List.ext_getElem (by simp [argumentsIn]) fun index inside _ => ?_
    have small : index < args.length := by simpa [argumentsIn] using inside
    rw [List.getElem_map]
    simp only [argumentsIn, List.getElem_map, List.getElem_range]
    exact wordAt_of_holds (holds index _ (List.getElem?_eq_getElem small))
  · rintro place ⟨_, below⟩
    have small : place < trapCellSize := by
      change place < 0 + trapCellSize at below
      omega
    have found : (List.replicate trapCellSize (0 : UInt8))[place]? = some 0 := by
      rw [List.getElem?_replicate, if_pos small]
    have clears := Code.getElem?_overwrite_inside written trapCellAt _
      (by rw [cell, size]; omega) found
    rwa [trapCellAt, Nat.zero_add] at clears
  · intro place outside beside
    refine (other place beside).trans (getElem?_write behind wide 0 args data ?_)
    rw [Nat.zero_add, begins]
    by_cases before : place < region.start .arguments
    · exact .inl before
    · exact .inr (Nat.le_trans ends (Nat.le_of_not_lt fun below => outside ⟨by omega, below⟩))

end DataRegion

namespace Instance

/-- Where the object that a reference names starts. -/
inductive Locates (inst : Instance) (bases : Bases) : Reference → UInt64 → Prop
  | global (offset : Int) (index : UInt32) (has : inst.data.Has (.global index.toNat)) :
    Locates inst bases ⟨offset, .global, index⟩
      (bases.data + .ofNat (inst.data.start (.global index.toNat)))
  | memory (offset : Int) (index : UInt32) :
    Locates inst bases ⟨offset, .memory, index⟩ bases.memory
  | memorySize (offset : Int) (index : UInt32) :
    Locates inst bases ⟨offset, .memorySize, index⟩
      (bases.data + .ofNat (inst.data.start .memorySize))
  | func (offset : Int) (index : UInt32) (entry : Int64)
      (placed : inst.entries[index.toNat]? = some entry) :
    Locates inst bases ⟨offset, .func, index⟩ (bases.code + entry.toUInt64)
  | table (offset : Int) (index : UInt32) :
    Locates inst bases ⟨offset, .table, index⟩ (bases.data + .ofNat (inst.data.start (.entry 0)))
  | tableSize (offset : Int) (index : UInt32) :
    Locates inst bases ⟨offset, .tableSize, index⟩
      (bases.data + .ofNat (inst.data.start .tableSize))
  | tableSigs (offset : Int) (index : UInt32) :
    Locates inst bases ⟨offset, .tableSigs, index⟩
      (bases.data + .ofNat (inst.data.start (.signature 0)))
  | trap (offset : Int) (index : UInt32) :
    Locates inst bases ⟨offset, .trap, index⟩ (bases.data + .ofNat (inst.data.start .trapCell))

variable {module : Module} {functions : List Compiled} {host : Host} {arenaSize : Int64}
  {bases : Bases} {inst : Instance}

theorem lookup_eq_ok_iff (data : inst.data = DataRegion.ofModule module) (ref : Reference)
    (address : UInt64) :
    lookup module bases inst.entries ref = .ok address ↔ inst.Locates bases ref address := by
  obtain ⟨offset, kind, index⟩ := ref
  constructor
  · intro found
    cases kind
    all_goals simp only [lookup] at found
    case global =>
      split at found
      · cases found
      · cases found
        exact .global offset index (by rw [data]; exact Nat.lt_of_not_le ‹_›)
    case func =>
      split at found
      · cases found
      · cases found
        exact .func offset index _ ‹_›
    case unknown => cases found
    case memory => cases found; exact .memory offset index
    case memorySize => cases found; exact .memorySize offset index
    case table => cases found; rw [← data]; exact .table offset index
    case tableSize => cases found; exact .tableSize offset index
    case tableSigs => cases found; rw [← data]; exact .tableSigs offset index
    case trap => cases found; exact .trap offset index
  · intro locates
    cases locates with
    | global _ _ has =>
      have below : ¬ module.globals.size ≤ index.toNat := Nat.not_le.mpr (by rwa [data] at has)
      exact if_neg below
    | func _ _ entry placed => simp only [lookup, placed]
    | table | tableSigs =>
      rw [data]
      rfl
    | _ => rfl

theorem placeFunctions_length {functions : List Compiled} {index : Nat} {arena after : Arena}
    {regions : List Region}
    (places : placeFunctions index functions arena = .ok regions after) :
    regions.length = functions.length := by
  induction functions generalizing index arena regions with
  | nil => cases places; rfl
  | cons compiled rest ih =>
    obtain ⟨_, _, _, places⟩ := EStateM.bind_inv places
    obtain ⟨_, _, others, places⟩ := EStateM.bind_inv places
    cases places
    exact congrArg (· + 1) (ih others)

theorem load_data (loads : load module functions host arenaSize bases = .ok inst) :
    inst.data = .ofModule module ∧ inst.entries.size = module.functions.size := by
  unfold load at loads
  dsimp only at loads
  by_cases differs : functions.length ≠ module.functions.size
  · rw [if_pos differs] at loads
    cases loads
  · rw [if_neg differs] at loads
    obtain ⟨arena, _, fills⟩ := Except.bind_inv loads
    split at fills
    · cases fills
    · rename_i regions thunks after filled
      obtain ⟨placed, _, places, filled⟩ := EStateM.bind_inv filled
      obtain ⟨_, _, _, filled⟩ := EStateM.bind_inv filled
      obtain ⟨_, _, _, filled⟩ := EStateM.bind_inv filled
      obtain ⟨_, _, _, filled⟩ := EStateM.bind_inv filled
      cases filled
      cases fills
      refine ⟨rfl, ?_⟩
      simpa using (placeFunctions_length places).trans (not_not.mp differs)

theorem le_foldl_max {α : Type} (measure : α → Nat) (items : List α)
    (least bound : Nat) (reached : bound ≤ least ∨ ∃ item ∈ items, bound ≤ measure item) :
    bound ≤ items.foldl (fun count item => max count (measure item)) least := by
  induction items generalizing least with
  | nil => simpa using reached
  | cons head rest ih =>
    apply ih
    simp only [List.mem_cons, exists_eq_or_imp] at reached
    rw [le_max_iff, or_assoc]
    exact reached

theorem accept_room (data : inst.data = .ofModule inst.module) {index : UInt32} {args : List Value}
    {type : FuncType} (accepts : inst.accept index args = .ok type) :
    args.length ≤ inst.data.arguments := by
  unfold accept at accepts
  dsimp only at accepts
  split at accepts
  · cases accepts
  obtain ⟨found, types, accepts⟩ := Except.bind_inv accepts
  obtain ⟨_, checks, _⟩ := Except.bind_inv accepts
  have declared := Except.mapError_inv types
  have checked := Except.mapError_inv checks
  have count : args.length = found.params.length := by
    unfold FuncType.checkArgs at checked
    split at checked
    · cases checked
    · exact not_not.mp ‹_›
  have member : found ∈ inst.module.types.toList := by
    unfold Module.functionType at declared
    split at declared
    · unfold Module.typeAt at declared
      split at declared
      · cases declared
        exact Array.mem_toList_iff.mpr (Array.mem_of_getElem? ‹_›)
      · cases declared
    · cases declared
  rw [data, count]
  change _ ≤ inst.module.types.foldl _ 1
  rw [← Array.foldl_toList]
  exact le_foldl_max _ _ _ _ (.inr ⟨found, member, Nat.le_refl _⟩)

theorem contents_size (inst : Instance) : inst.contents.size = inst.data.size := by
  simp only [contents, DataRegion.size_write, Code.size_overwrite, Array.size_replicate]

theorem Locates.names {ref : Reference} {address : UInt64}
    (data : inst.data = .ofModule module) (placed : inst.entries.size = module.functions.size)
    (locates : inst.Locates bases ref address) : module.Names ref.kind ref.index := by
  cases locates with
  | global _ _ has => rwa [data] at has
  | func _ _ entry found =>
    have inside := (Array.getElem?_eq_some_iff.mp found).1
    rwa [placed] at inside
  | _ => trivial

end Instance

/-- However many globals, table entries and types a module has, the pieces of its data region lie
apart, aligned and inside.  References lead to the starts of objects and fail exactly where the
module does not have the object, and preparing an accepted call writes to the arguments and the
trap cell only. -/
theorem dataRegion_laid_out {module : Module} {functions : List Compiled} {host : Host}
    {arenaSize : Int64} {bases : Bases} {inst : Instance}
    (loads : Instance.load module functions host arenaSize bases = .ok inst) :
    (inst.data.globals = module.globals.size ∧ inst.data.tableSlots = module.table.size) ∧
    (∀ first second, inst.data.Has first → inst.data.Has second → first ≠ second →
      inst.data.Apart first second) ∧
    (∀ piece, inst.data.Has piece → piece.alignment ∣ inst.data.start piece ∧
      inst.data.finish piece ≤ inst.data.size) ∧
    (∀ ref address, Instance.lookup module bases inst.entries ref = .ok address ↔
      inst.Locates bases ref address) ∧
    (∀ ref, (∃ cause, Instance.lookup module bases inst.entries ref = .error cause) ↔
      ¬ module.Names ref.kind ref.index) ∧
    inst.contents.size = inst.data.size ∧
    ∀ index args type, inst.accept index args = .ok type → ∀ data, data.size = inst.data.size →
      inst.data.Prepared args data (inst.data.prepare args data) := by
  obtain ⟨made, placed⟩ := Instance.load_data loads
  obtain ⟨same, _⟩ := Instance.load_host loads
  refine ⟨by rw [made]; exact ⟨rfl, rfl⟩, fun _ _ one other => one.apart other,
    fun piece has => ⟨inst.data.aligned piece, has.inside⟩, Instance.lookup_eq_ok_iff made, ?_,
    inst.contents_size, ?_⟩
  · intro ref
    constructor
    · rintro ⟨cause, fails⟩ named
      obtain ⟨address, found⟩ := Instance.lookup_names placed named
      rw [fails] at found
      cases found
    · intro unnamed
      cases found : Instance.lookup module bases inst.entries ref with
      | error cause => exact ⟨cause, rfl⟩
      | ok address =>
        exact absurd (((Instance.lookup_eq_ok_iff made ref address).mp found).names made placed)
          unnamed
  · intro index args type accepts data whole
    exact DataRegion.prepared (Instance.accept_room (by rw [same, made]) accepts) whole

/-- Two globals, three table entries and a function with two parameters. -/
def mixedModule : Module where
  types := #[⟨[.i32, .i64], []⟩]
  functions := #[{ name := "mixed", type := 0, locals := [], body := [] }]
  globals := #[⟨.i64, true, ⟨.i64, 1⟩⟩, ⟨.i32, true, ⟨.i32, 2⟩⟩]
  table := #[0, 0, 0]

theorem dataRegion_laid_out_mixed :
    ∃ functions inst type, (compileModule (some mixedModule) {}).1 = .ok functions ∧
      Instance.load mixedModule functions {} 0 {} = .ok inst ∧
      inst.data.Apart (.signature 2) (.entry 0) ∧
      inst.accept 0 [⟨.i32, 7⟩, ⟨.i64, 9⟩] = .ok type ∧
      inst.data.Prepared [⟨.i32, 7⟩, ⟨.i64, 9⟩] inst.contents
        (inst.data.prepare [⟨.i32, 7⟩, ⟨.i64, 9⟩] inst.contents) := by
  have fine : (compileModule (some mixedModule) {}).1.toOption.any (fun functions =>
      (Instance.load mixedModule functions {} 0 {}).toOption.any fun inst =>
        (inst.accept 0 [⟨.i32, 7⟩, ⟨.i64, 9⟩]).toOption.any fun _ => true) = true := by
    decide +kernel
  obtain ⟨functions, compiles, fine⟩ := Except.any_inv fine
  obtain ⟨inst, loads, fine⟩ := Except.any_inv fine
  obtain ⟨type, accepts, _⟩ := Except.any_inv fine
  obtain ⟨⟨_, slots⟩, apart, _, _, _, size, prepares⟩ := dataRegion_laid_out loads
  have three : inst.data.tableSlots = 3 := slots
  refine ⟨functions, inst, type, compiles, loads, ?_, accepts,
    prepares 0 _ type accepts _ size⟩
  refine apart _ _ ?_ ?_ (by decide)
  · change 2 < inst.data.tableSlots
    omega
  · change 0 < inst.data.tableSlots
    omega

end WasmX64
