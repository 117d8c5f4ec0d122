import WasmX64.Proofs.Execution.Compiles
import WasmX64.Proofs.Processor.Follow
import WasmX64.Proofs.Transfer.Merge

/-!
# Handing out a register

A register that is free, or one that is made free.  The books alone decide which: a wish that is
available comes first, then any available register, and only a bank without one has something
stored.  What is stored then is one register, in the frame slots of all its slots, so the slots
keep their values.
-/

/-!
## Values persist

Code that makes room moves values from registers to the frame.  `Layout.Persists` relates a
layout and a processor to a later layout and a later processor: the slots below some height have
the values they had, and memory outside their frame slots is untouched.
-/

namespace WasmX64

namespace Processor

theorem executes_of_run {machine next : Processor} {instructions : List Instruction}
    (runs : machine.run instructions = some next) : machine.executes instructions = some next := by
  induction instructions generalizing machine with
  | nil => exact runs
  | cons instruction rest ih =>
    rw [run] at runs
    cases first : machine.step instruction with
    | none =>
      rw [first] at runs
      cases runs
    | some middle =>
      rw [first] at runs
      rw [executes, execute_of_step first]
      exact ih runs

theorem follow_runs {steps : List Step} {machine next : Processor}
    {instructions : List Instruction} (runs : Runs steps machine next instructions) :
    follow none machine steps = some (.falls next) := by
  rw [runs.steps]
  exact follow_straight (executes_of_run runs.runs)

theorem followParts_steps {addresses : RefKind → UInt32 → BitVec 64} {machine next : Processor}
    {steps : List Step} (falls : follow none machine steps = some (.falls next)) :
    followParts addresses machine [.steps steps] = some (.falls next) := by
  rw [followParts, falls]
  rfl

theorem slotValue_congr {old new : Processor} {slot : Slot} {index : Nat}
    (word : slot.place = .frame → new.slotWord index = old.slotWord index)
    (held : ∀ reg, slot.place = .reg reg → new.regs reg = old.regs reg) :
    new.slotValue slot index = old.slotValue slot index := by
  unfold slotValue
  cases place : slot.place with
  | frame => simp only [word place]
  | reg reg => simp only [held reg place]
  | const value => rfl
  | unknown code => rfl

/-- A register holds nothing above the width of the slot it is for. -/
def Clean (machine : Processor) (slot : Slot) : Prop :=
  ∀ reg, slot.place = .reg reg → machine.regs reg = slot.type.clip (machine.regs reg)

end Processor

def within (address : BitVec 64) (bytes : Nat) (place : BitVec 64) : Prop :=
  (place - address).toNat < bytes

/-- No place in memory. -/
def nowhere (_ : BitVec 64) : Prop := False

/-- The bytes from an address on lie outside the frame slots below `count`. -/
def Processor.Aside (machine : Processor) (count : Nat) (address : BitVec 64) (bytes : Nat) :
    Prop :=
  ∀ offset < bytes, ∀ index < count,
    8 ≤ (address + BitVec.ofNat 64 offset - machine.slotAt index).toNat

theorem Processor.Aside.slot {machine : Processor} {count : Nat} {address : BitVec 64}
    {bytes : Nat} (aside : machine.Aside count address bytes) {index offset : Nat}
    (below : index < count) (inside : offset < 8) :
    bytes ≤ (machine.slotAt index + BitVec.ofNat 64 offset - address).toNat := by
  by_contra overlap
  have place := aside _ (Nat.lt_of_not_le overlap) index below
  have back : address + BitVec.ofNat 64
        (machine.slotAt index + BitVec.ofNat 64 offset - address).toNat -
      machine.slotAt index = BitVec.ofNat 64 offset := by
    rw [BitVec.ofNat_toNat, BitVec.setWidth_eq]
    generalize machine.slotAt index = slot
    grind
  rw [back, BitVec.toNat_ofNat] at place
  omega

namespace Layout

/-- A register that code may overwrite: no slot is there, and the frame does not need it. -/
structure Loose (layout : Layout) (reg : Register) : Prop where
  pointer : reg ≠ .rbp
  stack : reg ≠ .rsp
  unheld : ∀ slot ∈ layout.slots, slot.place ≠ .reg reg

/-- The value of the operand `depth` places below the top. -/
def operand (layout : Layout) (machine : Processor) (depth : Nat) : BitVec 64 :=
  match layout.slots[layout.height - 1 - depth]? with
  | some slot => machine.slotValue slot (layout.height - 1 - depth)
  | none => 0

theorem operand_top {layout : Layout} {slot : Slot} (top : layout.top? = some slot)
    (machine : Processor) :
    layout.operand machine 0 = machine.slotValue slot (layout.height - 1) := by
  rw [Layout.top?, Array.back?_eq_getElem?] at top
  simp [operand, height, top]

/-- The slots of a layout below `count` have the values that those of an earlier one had.  They
are where they were or have gone to the frame.  Other memory has changed in some places only. -/
structure Persists (changed : BitVec 64 → Prop) (count : Nat) (before after : Layout)
    (old new : Processor) : Prop where
  slots : ∀ index slot, index < count → after.slots[index]? = some slot →
    ∃ former, before.slots[index]? = some former ∧ former.type = slot.type ∧
      (slot.place = former.place ∨ slot.place = .frame) ∧
      new.slotValue slot index = old.slotValue former index
  held : ∀ index slot reg, index < count → after.slots[index]? = some slot →
    slot.place = .reg reg → new.regs reg = old.regs reg
  pointer : new.regs .rbp = old.regs .rbp
  stack : new.regs .rsp = old.regs .rsp
  outside : ∀ address, ¬ changed address →
    (∀ index < count, 8 ≤ (address - old.slotAt index).toNat) →
    new.memory address = old.memory address

namespace Persists

variable {changed : BitVec 64 → Prop} {count : Nat} {before middle after layout : Layout}
  {old machine new : Processor}

theorem slotAt (persists : Persists changed count before after old new) (index : Nat) :
    new.slotAt index = old.slotAt index := by
  simp [Processor.slotAt, persists.pointer]

theorem of_below (machine : Processor)
    (same : ∀ index < count, after.slots[index]? = before.slots[index]?) :
    Persists changed count before after machine machine where
  slots index slot below found := ⟨slot, same index below ▸ found, rfl, .inl rfl, rfl⟩
  held _ _ _ _ _ _ := rfl
  pointer := rfl
  stack := rfl
  outside _ _ _ := rfl

theorem trans (first : Persists changed count before middle old machine)
    (second : Persists changed count middle after machine new) :
    Persists changed count before after old new := by
  constructor
  case slots =>
    intro index slot below found
    obtain ⟨between, foundBetween, sameType, place, value⟩ := second.slots index slot below found
    obtain ⟨former, foundFormer, formerType, formerPlace, formerValue⟩ :=
      first.slots index between below foundBetween
    refine ⟨former, foundFormer, formerType.trans sameType, ?_, value.trans formerValue⟩
    rcases place with same | moved
    · rw [same]
      exact formerPlace
    · exact .inr moved
  case held =>
    intro index slot reg below found place
    obtain ⟨between, foundBetween, _, same, _⟩ := second.slots index slot below found
    have kept : between.place = .reg reg := by
      rcases same with same | moved
      · rw [← same, place]
      · rw [moved] at place
        cases place
    rw [second.held index slot reg below found place]
    exact first.held index between reg below foundBetween kept
  case pointer => rw [second.pointer, first.pointer]
  case stack => rw [second.stack, first.stack]
  case outside =>
    intro address unchanged apart
    have still : ∀ index < count, 8 ≤ (address - machine.slotAt index).toNat := by
      intro index below
      rw [first.slotAt]
      exact apart index below
    rw [second.outside address unchanged still, first.outside address unchanged apart]

/-- The frame may have been larger. -/
theorem raise (persists : Persists changed count before after old new) {more : Nat}
    (all : after.height ≤ count) (below : count ≤ more) :
    Persists changed more before after old new := by
  have short : ∀ {index slot}, after.slots[index]? = some slot → index < count := by
    intro index slot found
    exact Nat.lt_of_lt_of_le (Array.getElem?_eq_some_iff.mp found).1 all
  constructor
  case slots => exact fun index slot _ found => persists.slots index slot (short found) found
  case held => exact fun index slot reg _ found => persists.held index slot reg (short found) found
  case pointer => exact persists.pointer
  case stack => exact persists.stack
  case outside =>
    intro address unchanged apart
    exact persists.outside address unchanged fun index small =>
      apart index (Nat.lt_of_lt_of_le small below)

theorem mono {more : BitVec 64 → Prop} (persists : Persists changed count before after old new)
    (fewer : ∀ address, changed address → more address) :
    Persists more count before after old new where
  slots := persists.slots
  held := persists.held
  pointer := persists.pointer
  stack := persists.stack
  outside address unchanged := persists.outside address fun here => unchanged (fewer address here)

theorem isWellTyped (persists : Persists changed count before after old new)
    (typed : ∀ slot ∈ before.slots, slot.isWellTyped = true) {index : Nat} {slot : Slot}
    (below : index < count) (found : after.slots[index]? = some slot) :
    slot.isWellTyped = true := by
  obtain ⟨former, foundFormer, sameType, place, _⟩ := persists.slots index slot below found
  have wellTyped := typed former (Array.mem_of_getElem? foundFormer)
  unfold Slot.isWellTyped at wellTyped ⊢
  rw [sameType] at wellTyped
  rcases place with same | moved
  · rw [same]
    exact wellTyped
  · rw [moved]
    simpa using (Bool.and_eq_true_iff.mp wellTyped).1

theorem clean (persists : Persists changed count before after old new) {index : Nat} {slot : Slot}
    (below : index < count) (found : after.slots[index]? = some slot)
    (clean : ∀ former, before.slots[index]? = some former → old.Clean former) :
    new.Clean slot := by
  intro reg held
  obtain ⟨former, foundFormer, sameType, place, _⟩ := persists.slots index slot below found
  have kept : former.place = .reg reg := by
    rcases place with same | moved
    · rw [← same, held]
    · rw [moved] at held
      cases held
  rw [persists.held index slot reg below found held, ← sameType]
  exact clean former foundFormer reg kept

/-- Operands have the values they had. -/
theorem operand (persists : Persists changed after.height before after old new) {depth taken : Nat}
    (height : after.height + taken = before.height) (below : depth < after.height) :
    after.operand new depth = before.operand old (depth + taken) := by
  have place : before.height - 1 - (depth + taken) = after.height - 1 - depth := by omega
  have inside : after.height - 1 - depth < after.height := by omega
  have here : after.slots[after.height - 1 - depth]? = some after.slots[after.height - 1 - depth] :=
    Array.getElem?_eq_getElem inside
  obtain ⟨former, found, _, _, value⟩ := persists.slots _ _ inside here
  rw [Layout.operand, Layout.operand, place, found, here]
  exact value

theorem read (persists : Persists changed count before after old new) {address : BitVec 64}
    {bytes : Nat} (unchanged : ∀ offset < bytes, ¬ changed (address + BitVec.ofNat 64 offset))
    (aside : old.Aside count address bytes) :
    new.memory.read address bytes = old.memory.read address bytes :=
  ByteMemory.read_congr fun offset inside =>
    persists.outside _ (unchanged offset inside) (aside offset inside)

theorem slotWord (persists : Persists nowhere count before after old new) {index : Nat}
    (above : count ≤ index) (small : index < frameLimit) :
    new.slotWord index = old.slotWord index := by
  unfold Processor.slotWord
  rw [persists.slotAt]
  refine persists.read (fun _ _ => id) fun offset inside other below => ?_
  exact old.slotAt_apart (by omega) small (by omega) inside

theorem aside (persists : Persists changed count before after old new) {address : BitVec 64}
    {bytes : Nat} (aside : old.Aside count address bytes) : new.Aside count address bytes := by
  intro offset inside index below
  rw [persists.slotAt]
  exact aside offset inside index below

theorem spill {index : Nat} {slot : Slot} {reg : Register} (machine : Processor)
    (found : layout.slots[index]? = some slot) (place : slot.place = .reg reg)
    (below : index < count) (room : count ≤ frameLimit) :
    Persists changed count layout (layout.setSlot index (.inFrame slot.type)) machine
      (machine.store slot.type (machine.slotAt index) (machine.regs reg)) where
  slots other placed otherBelow otherFound := by
    rw [getElem?_setSlot] at otherFound
    split at otherFound
    · rename_i here
      obtain ⟨rfl, _⟩ := here
      cases otherFound
      refine ⟨slot, found, rfl, .inr rfl, ?_⟩
      simp only [Processor.slotValue, Slot.inFrame, place]
      exact machine.clip_slotWord_store slot.type index (machine.regs reg)
    · rename_i elsewhere
      have different : other ≠ index := by
        intro same
        have inside := (Array.getElem?_eq_some_iff.mp found).1
        exact elsewhere ⟨same.symm, inside⟩
      refine ⟨placed, otherFound, rfl, .inl rfl, ?_⟩
      apply Processor.slotValue_congr
      · intro _
        exact machine.slotWord_store_of_ne slot.type _ (by omega) (by omega) different
      · intro _ _
        rfl
  held _ _ _ _ _ _ := rfl
  pointer := rfl
  stack := rfl
  outside _ _ apart := machine.store_memory_of_apart slot.type _ (apart index below)

theorem of_loose (memory : new.memory = old.memory)
    (regs : ∀ reg, ¬ layout.Loose reg → new.regs reg = old.regs reg) :
    Persists changed count layout layout old new where
  slots index slot below found := by
    refine ⟨slot, found, rfl, .inl rfl, Processor.slotValue_congr ?_ ?_⟩
    · intro _
      have pointer := regs .rbp fun loose => loose.pointer rfl
      simp [Processor.slotWord, Processor.slotAt, memory, pointer]
    · intro reg place
      exact regs reg fun loose => loose.unheld slot (Array.mem_of_getElem? found) place
  held index slot reg below found place :=
    regs reg fun loose => loose.unheld slot (Array.mem_of_getElem? found) place
  pointer := regs .rbp fun loose => loose.pointer rfl
  stack := regs .rsp fun loose => loose.stack rfl
  outside _ _ _ := by rw [memory]

/-- Memory outside the frame slots is written. -/
theorem write {address value : BitVec 64} {bytes : Nat} (machine : Processor)
    (aside : machine.Aside count address bytes) :
    Persists (within address bytes) count layout layout machine
      { machine with memory := machine.memory.write address bytes value } where
  slots index slot below found := by
    refine ⟨slot, found, rfl, .inl rfl, Processor.slotValue_congr (fun _ => ?_) fun _ _ => rfl⟩
    apply ByteMemory.read_write_of_apart
    intro offset inside
    exact aside.slot below inside
  held _ _ _ _ _ _ := rfl
  pointer := rfl
  stack := rfl
  outside _ unchanged _ := if_neg unchanged

theorem setReg {reg : Register} {value : BitVec 64} (loose : layout.Loose reg) :
    Persists changed count layout layout machine (machine.setReg reg value) := by
  refine of_loose (Processor.memory_setReg machine reg value) ?_
  intro other tight
  rw [Processor.regs_setReg, if_neg]
  rintro rfl
  exact tight loose

end Persists

end Layout

end WasmX64

/-! ## Making a register free -/

namespace WasmX64

/-- A compilation that has gone on with its code and its layout alone. -/
def Compilation.Relaid (before after : Compilation) : Prop :=
  after = { before with output := after.output, layout := after.layout }

namespace Compilation.Relaid

variable {before middle after : Compilation}

theorem trans (first : before.Relaid middle) (second : middle.Relaid after) :
    before.Relaid after := by
  unfold Relaid at first second ⊢
  rw [second, first]

theorem blocks (relaid : before.Relaid after) : after.blocks = before.blocks := by
  unfold Relaid at relaid
  rw [relaid]

theorem stubs (relaid : before.Relaid after) : after.stubs = before.stubs := by
  unfold Relaid at relaid
  rw [relaid]

theorem instr (relaid : before.Relaid after) : after.instr = before.instr := by
  unfold Relaid at relaid
  rw [relaid]

end Compilation.Relaid

/-- Instructions one after the other that all have an encoding. -/
def Part.IsStraight : Part → Prop
  | .steps sequence => ∃ instructions, sequence = instructions.map Step.emit ∧
      ∃ bytes, Instruction.encodeAll instructions = .ok bytes
  | _ => False

namespace Layout

/-- Code that stores values in the frame: every slot keeps its value, no register changes. -/
structure Spills (before after : Layout) (parts : List Part) : Prop where
  height : after.height = before.height
  straight : ∀ part ∈ parts, part.IsStraight
  follows : ∀ addresses (machine : Processor), ∃ next,
    machine.followParts addresses parts = some (.falls next) ∧ next.regs = machine.regs ∧
      Persists nowhere before.height before after machine next

namespace Spills

variable {before middle after : Layout} {first second : List Part}

theorem of_slots (same : after.slots = before.slots) : Spills before after [] where
  height := by simp [Layout.height, same]
  straight _ member := absurd member List.not_mem_nil
  follows _ machine := ⟨machine, rfl, rfl, Persists.of_below machine fun _ _ => by rw [same]⟩

theorem trans (left : Spills before middle first) (right : Spills middle after second) :
    Spills before after (first ++ second) where
  height := right.height.trans left.height
  straight part member := (List.mem_append.mp member).elim (left.straight part) (right.straight part)
  follows addresses machine := by
    obtain ⟨between, runsFirst, regsFirst, persistsFirst⟩ := left.follows addresses machine
    obtain ⟨next, runsSecond, regsSecond, persistsSecond⟩ := right.follows addresses between
    refine ⟨next, ?_, regsSecond.trans regsFirst, ?_⟩
    · rw [Processor.followParts_falls runsFirst]
      exact runsSecond
    · rw [left.height] at persistsSecond
      exact persistsFirst.trans persistsSecond

theorem one {layout : Layout} {index : Nat} {slot : Slot} {reg : Register}
    (found : layout.slots[index]? = some slot) (suits : Suits slot.type reg)
    (place : slot.place = .reg reg) (room : layout.height ≤ frameLimit) :
    Spills layout (layout.setSlot index (.inFrame slot.type))
      [.steps (Sequence.spill slot.type index reg)] := by
  have below : index < layout.height := (Array.getElem?_eq_some_iff.mp found).1
  have stores := Sequence.spill_runs suits (Nat.lt_of_lt_of_le below room)
  refine ⟨height_setSlot index _, ?_, fun addresses machine => ?_⟩
  · intro part member
    obtain ⟨instructions, runs⟩ := stores ⟨fun _ => 0, fun _ => 0, {}⟩
    rw [List.mem_singleton.mp member]
    exact ⟨instructions, runs.steps, runs.encodes⟩
  · obtain ⟨instructions, runs⟩ := stores machine
    exact ⟨_, Processor.followParts_steps (Processor.follow_runs runs), rfl,
      Persists.spill machine found place below room⟩

end Spills

end Layout

/-- A slot after a register was stored. -/
def Slot.evict (reg : Register) (slot : Slot) : Slot :=
  if slot.place = .reg reg then .inFrame slot.type else slot

/-- Stores a register in frame slots. -/
def Output.storeAll (reg : Register) (output : Output) (places : List (Nat × ValueType)) : Output :=
  places.foldl
    (fun output place => (output.emit (Sequence.spill place.2 place.1 reg)).needSlot place.1) output

namespace Layout

/-- The type of the slot at an index, if a register holds it. -/
def heldType? (layout : Layout) (reg : Register) (index : Nat) : Option ValueType :=
  (layout.slots[index]?.filter fun slot => slot.place = .reg reg).map Slot.type

/-- The slots below a height that a register holds, topmost first. -/
def heldBelow (layout : Layout) (reg : Register) (height : Nat) : List (Nat × ValueType) :=
  (List.range height).reverse.filterMap fun index =>
    (layout.heldType? reg index).map fun type => (index, type)

/-- The layout after the slots below a height that a register holds went to the frame. -/
def evictBelow (layout : Layout) (reg : Register) (height : Nat) : Layout :=
  { layout with
    slots := layout.slots.mapIdx fun index slot => if index < height then slot.evict reg else slot }

/-- The layout after everything in a register went to the frame. -/
def evict (layout : Layout) (reg : Register) : Layout :=
  { layout.forget reg with slots := layout.slots.map (Slot.evict reg) }

/-- A register of a bank that can be handed out as it is. -/
structure Available (layout : Layout) (bank : RegClass) (pinned : RegSet) (reg : Register) :
    Prop where
  suits : Compile.Suits bank reg
  loose : pinned.has reg = false
  free : layout.used.has reg = false

end Layout

/-- The compilation after a register was stored and given up. -/
def Compilation.evict (state : Compilation) (reg : Register) : Compilation :=
  { state with
    output := state.output.storeAll reg (state.layout.heldBelow reg state.layout.height)
    layout := state.layout.evict reg }

namespace Layout

variable {layout : Layout} {reg : Register} {index : Nat} {slot : Slot}

instance (layout : Layout) (bank : RegClass) (pinned : RegSet) (reg : Register) :
    Decidable (layout.Available bank pinned reg) :=
  decidable_of_iff ((reg.isAllocable = true ∧ reg.regClass = bank) ∧ pinned.has reg = false ∧
      layout.used.has reg = false)
    ⟨fun ⟨suits, loose, free⟩ => ⟨suits, loose, free⟩, fun ⟨suits, loose, free⟩ => ⟨suits, loose, free⟩⟩

theorem holders_take_succ {slots : List Slot} {index : Nat} {slot : Slot} (reg : Register)
    (found : slots[index]? = some slot) :
    holders (slots.take (index + 1)) reg =
      holders (slots.take index) reg + if slot.place = .reg reg then 1 else 0 := by
  rw [List.take_add_one, found, holders, List.countP_append]
  simp [holders]

theorem heldType?_of_held (found : layout.slots[index]? = some slot)
    (held : slot.place = .reg reg) : layout.heldType? reg index = some slot.type := by
  rw [heldType?, found, Option.filter_some, if_pos (decide_eq_true held)]
  rfl

theorem heldType?_of_unheld (found : layout.slots[index]? = some slot)
    (unheld : slot.place ≠ .reg reg) : layout.heldType? reg index = none := by
  rw [heldType?, found, Option.filter_some, if_neg (by simpa using unheld)]
  rfl

theorem heldBelow_succ (layout : Layout) (reg : Register) (height : Nat) :
    layout.heldBelow reg (height + 1) =
      ((layout.heldType? reg height).map fun type => (height, type)).toList ++
        layout.heldBelow reg height := by
  unfold heldBelow
  rw [List.range_succ, List.reverse_append, List.reverse_singleton, List.singleton_append,
    List.filterMap_cons]
  cases layout.heldType? reg height <;> rfl

theorem heldType?_setSlot_of_ne {other : Nat} (different : other ≠ index) (placed : Slot) :
    (layout.setSlot index placed).heldType? reg other = layout.heldType? reg other := by
  unfold heldType?
  rw [getElem?_setSlot, if_neg fun here => different here.1.symm]

theorem heldBelow_setSlot (layout : Layout) (reg : Register) (index : Nat) (placed : Slot) :
    (layout.setSlot index placed).heldBelow reg index = layout.heldBelow reg index := by
  unfold heldBelow
  apply List.filterMap_congr
  intro other member
  have below : other < index := by simpa using member
  rw [heldType?_setSlot_of_ne (Nat.ne_of_lt below)]

theorem getElem?_evictBelow (layout : Layout) (reg : Register) (height index : Nat) :
    (layout.evictBelow reg height).slots[index]? =
      layout.slots[index]?.map fun slot => if index < height then slot.evict reg else slot :=
  Array.getElem?_mapIdx

theorem ext_slots {left right : Layout}
    (slots : ∀ index : Nat, left.slots[index]? = right.slots[index]?)
    (rest : { left with slots := right.slots } = right) : left = right := by
  have same : left.slots = right.slots := Array.ext_getElem? slots
  rw [← rest, ← same]

theorem evictBelow_of_unheld {height : Nat}
    (unheld : holders (layout.slots.toList.take height) reg = 0) :
    layout.evictBelow reg height = layout ∧ layout.heldBelow reg height = [] := by
  have apart : ∀ index slot, index < height → layout.slots[index]? = some slot →
      slot.place ≠ .reg reg := by
    intro index slot below found held
    have member : slot ∈ layout.slots.toList.take height := by
      apply List.mem_of_getElem? (i := index)
      rw [List.getElem?_take_of_lt below, Array.getElem?_toList]
      exact found
    have counted := List.countP_eq_zero.mp unheld slot member
    exact counted (decide_eq_true held)
  constructor
  · refine ext_slots (fun index => ?_) rfl
    rw [getElem?_evictBelow]
    cases found : layout.slots[index]? with
    | none => rfl
    | some slot =>
      rw [Option.map_some]
      split
      · rename_i below
        rw [Slot.evict, if_neg (apart index slot below found)]
      · rfl
  · unfold heldBelow
    apply List.filterMap_eq_nil_iff.mpr
    intro index member
    have below : index < height := by simpa using member
    cases found : layout.slots[index]? with
    | none => simp [heldType?, found]
    | some slot => rw [heldType?_of_unheld found (apart index slot below found), Option.map_none]

theorem evictBelow_succ_of_held (found : layout.slots[index]? = some slot)
    (held : slot.place = .reg reg) :
    layout.evictBelow reg (index + 1) =
      (layout.setSlot index (.inFrame slot.type)).evictBelow reg index := by
  refine ext_slots (fun other => ?_) rfl
  have inside := (Array.getElem?_eq_some_iff.mp found).1
  rw [getElem?_evictBelow, getElem?_evictBelow, getElem?_setSlot]
  by_cases same : index = other
  · subst same
    have here : index < layout.height := inside
    simp [found, here, Slot.evict, held]
  · have next : other < index + 1 ↔ other < index := by omega
    simp [same, next]

theorem evictBelow_succ_of_unheld (found : layout.slots[index]? = some slot)
    (unheld : slot.place ≠ .reg reg) :
    layout.evictBelow reg (index + 1) = layout.evictBelow reg index := by
  refine ext_slots (fun other => ?_) rfl
  rw [getElem?_evictBelow, getElem?_evictBelow]
  by_cases same : index = other
  · subst same
    simp [found, Slot.evict, unheld]
  · have next : other < index + 1 ↔ other < index := by omega
    simp [next]

theorem evictBelow_height (layout : Layout) (reg : Register) :
    (layout.evictBelow reg layout.height).forget reg = layout.evict reg := by
  have slots : (layout.evictBelow reg layout.height).slots = layout.slots.map (Slot.evict reg) := by
    apply Array.ext_getElem?
    intro index
    rw [getElem?_evictBelow, Array.getElem?_map]
    cases found : layout.slots[index]? with
    | none => rfl
    | some slot =>
      have inside : index < layout.height := (Array.getElem?_eq_some_iff.mp found).1
      simp [inside]
  unfold evict
  rw [← slots]
  rfl

theorem registers_evict (layout : Layout) (reg : Register) :
    (layout.evict reg).registers = layout.registers.filter (· ≠ reg) := by
  unfold registers evict
  rw [Array.toList_map]
  induction layout.slots.toList with
  | nil => rfl
  | cons slot rest ih =>
    rw [List.map_cons, List.filterMap_cons, List.filterMap_cons, ih, Slot.evict]
    by_cases held : slot.place = .reg reg
    · rw [if_pos held, Slot.reg?_eq_some_iff.mpr held]
      simp [Slot.reg?, Slot.inFrame]
    · rw [if_neg held]
      cases own : slot.reg? with
      | none => rfl
      | some other =>
        have different : other ≠ reg := by
          rintro rfl
          exact held (Slot.reg?_eq_some_iff.mp own)
        simp [different]

/-- Everything in a register went to the frame and the register was given up. -/
theorem Sound.evict (sound : layout.Sound) (allocable : reg.isAllocable = true) :
    (layout.evict reg).Sound := by
  constructor
  · intro slot member
    obtain ⟨former, listed, rfl⟩ := Array.mem_map.mp member
    unfold Slot.evict
    split
    · exact fits_inFrame former.type
    · exact sound.fits former listed
  · rw [registers_evict]
    exact (sound.balanced.forget allocable).congr rfl rfl

/-- The code that stores a register in the frame slots of the slots it holds. -/
def storing (layout : Layout) (reg : Register) (height : Nat) : List Part :=
  (layout.heldBelow reg height).map fun place => .steps (Sequence.spill place.2 place.1 reg)

theorem Spills.below {layout : Layout} {index : Nat} (inside : index ≤ layout.height)
    (suits : ∀ slot ∈ layout.slots, slot.place = .reg reg → Suits slot.type reg)
    (room : layout.height ≤ frameLimit) :
    Spills layout (layout.evictBelow reg index) (layout.storing reg index) := by
  induction index generalizing layout with
  | zero =>
    have unheld : holders (layout.slots.toList.take 0) reg = 0 := rfl
    obtain ⟨same, nothing⟩ := evictBelow_of_unheld unheld
    rw [same, storing, nothing]
    exact .of_slots rfl
  | succ index ih =>
    have found : layout.slots[index]? = some layout.slots[index] :=
      Array.getElem?_eq_getElem inside
    generalize layout.slots[index] = slot at found
    rw [storing, heldBelow_succ, List.map_append]
    by_cases held : slot.place = .reg reg
    · have member := Array.mem_of_getElem? found
      have first := Spills.one found (suits slot member held) held room
      rw [heldType?_of_held found held, evictBelow_succ_of_held found held]
      refine first.trans ?_
      rw [← heldBelow_setSlot layout reg index (.inFrame slot.type)]
      apply ih
      · rw [height_setSlot]
        omega
      · intro other otherMember otherHeld
        rcases Array.mem_or_eq_of_mem_setIfInBounds otherMember with old | rfl
        · exact suits other old otherHeld
        · cases otherHeld
      · rw [height_setSlot]
        exact room
    · rw [heldType?_of_unheld found held, evictBelow_succ_of_unheld found held]
      exact ih (by omega) suits room

theorem Spills.evict {layout : Layout}
    (suits : ∀ slot ∈ layout.slots, slot.place = .reg reg → Suits slot.type reg)
    (room : layout.height ≤ frameLimit) :
    Spills layout (layout.evict reg) (layout.storing reg layout.height) := by
  have stores := Spills.below (Nat.le_refl layout.height) suits room
  rw [← evictBelow_height, ← List.append_nil (layout.storing reg layout.height)]
  exact stores.trans (.of_slots rfl)

end Layout

theorem Output.code_storeAll (reg : Register) (output : Output) (refs : Array Reference)
    (places : List (Nat × ValueType)) :
    ((output.storeAll reg places).code, refs) =
      (places.map fun place => Part.steps (Sequence.spill place.2 place.1 reg)).foldl Part.place
        (output.code, refs) := by
  induction places generalizing output with
  | nil => rfl
  | cons place rest ih =>
    have rounds : output.storeAll reg (place :: rest) =
        ((output.emit (Sequence.spill place.2 place.1 reg)).needSlot place.1).storeAll reg rest :=
      rfl
    rw [rounds, ih, Output.code_needSlot]
    rfl

theorem Compilation.gains_evict (state : Compilation) (reg : Register) :
    state.Gains (state.layout.storing reg state.layout.height) (state.evict reg) :=
  Output.code_storeAll reg state.output state.refs _

namespace Compile

variable {subject : Subject} {state : Compilation} {reg : Register}

theorem spillHolders_evicts_all {index remaining : Nat} {state : Compilation}
    (counted : Layout.holders (state.layout.slots.toList.take index) reg = remaining)
    (inside : index ≤ state.layout.height) :
    Succeeds (spillHolders reg index remaining) subject state fun left after =>
      left = 0 ∧ after = { state with
        output := state.output.storeAll reg (state.layout.heldBelow reg index)
        layout := state.layout.evictBelow reg index } := by
  induction index generalizing remaining state with
  | zero =>
    have none : remaining = 0 := by simpa [Layout.holders] using counted.symm
    obtain ⟨same, nothing⟩ := Layout.evictBelow_of_unheld (counted.trans none)
    refine succeeds_pure.mpr ⟨none, ?_⟩
    rw [same, nothing]
    rfl
  | succ index ih =>
    have below : index < state.layout.slots.size := inside
    have found : state.layout.slots[index]? = some state.layout.slots[index] :=
      Array.getElem?_eq_getElem below
    generalize state.layout.slots[index] = slot at found
    have listed : state.layout.slots.toList[index]? = some slot := by
      rw [Array.getElem?_toList]
      exact found
    rw [spillHolders]
    by_cases none : remaining = 0
    · obtain ⟨same, nothing⟩ := Layout.evictBelow_of_unheld (counted.trans none)
      rw [if_pos none]
      refine succeeds_pure.mpr ⟨rfl, ?_⟩
      rw [same, nothing]
      rfl
    · rw [Layout.holders_take_succ reg listed] at counted
      rw [if_neg none, Layout.heldBelow_succ]
      simp only [succeeds_bind, succeeds_get, Layout.slot?_natCast, found]
      by_cases held : slot.place = .reg reg
      · rw [if_pos held] at counted ⊢
        simp only [succeeds_bind, succeeds_emit, succeeds_needSlot, succeeds_modifyLayout]
        have fewer : Layout.holders
            ((state.layout.setSlot index (.inFrame slot.type)).slots.toList.take index) reg =
              remaining - 1 := by
          rw [Layout.setSlot, Array.toList_setIfInBounds, List.take_set_of_le (Nat.le_refl _)]
          omega
        refine (@ih (remaining - 1) { state with
            output := (state.output.emit (Sequence.spill slot.type index reg)).needSlot index
            layout := state.layout.setSlot index (.inFrame slot.type) } fewer ?_).mono ?_
        · rw [Layout.height_setSlot]
          omega
        · rintro left after ⟨nothing, rfl⟩
          refine ⟨nothing, ?_⟩
          rw [Layout.evictBelow_succ_of_held found held, Layout.heldBelow_setSlot,
            Layout.heldType?_of_held found held]
          rfl
      · rw [if_neg held] at counted ⊢
        refine (ih counted (by omega)).mono ?_
        rintro left after ⟨nothing, rfl⟩
        refine ⟨nothing, ?_⟩
        rw [Layout.evictBelow_succ_of_unheld found held, Layout.heldType?_of_unheld found held]
        rfl

/-- A register that values can be kept in is stored and given up. -/
theorem spillRegister_evicts (sound : state.layout.Sound) (allocable : reg.isAllocable = true) :
    Succeeds (spillRegister reg) subject state fun _ after => after = state.evict reg := by
  have machine := Register.isMachine_of_isAllocable allocable
  have counted : Layout.holders (state.layout.slots.toList.take state.layout.height) reg =
      state.layout.count reg := by
    rw [Layout.height, ← Array.length_toList, List.take_length, Layout.holders_eq_count]
    exact (sound.balanced.counted reg allocable).symm
  unfold spillRegister
  simp only [succeeds_bind, succeeds_ite, succeeds_get, machine, Bool.not_true, Bool.false_eq_true,
    false_implies, not_false_eq_true, forall_const, true_and]
  refine (spillHolders_evicts_all counted (Nat.le_refl _)).mono ?_
  rintro left after ⟨rfl, rfl⟩
  simp only [ne_eq, not_true_eq_false, false_implies, not_false_eq_true,
    forall_const, true_and, succeeds_modifyLayout, Layout.evictBelow_height]
  rfl

theorem has_candidates_iff {used pinned : RegSet} {bank : RegClass} {reg : Register} :
    (((used.inter (RegSet.ofClass bank)).diff pinned).diff RegSet.reserved).has reg = true ↔
      used.has reg = true ∧ Suits bank reg ∧ pinned.has reg = false := by
  simp only [RegSet.has_diff, RegSet.has_inter, RegSet.has_ofClass, Suits, Register.isAllocable,
    Bool.and_eq_true, Bool.not_eq_true', decide_eq_true_eq]
  constructor
  · rintro ⟨⟨⟨held, machine, bank⟩, unpinned⟩, unreserved⟩
    exact ⟨held, ⟨⟨machine, unreserved⟩, bank⟩, unpinned⟩
  · rintro ⟨held, ⟨⟨machine, unreserved⟩, bank⟩, unpinned⟩
    exact ⟨⟨⟨held, machine, bank⟩, unpinned⟩, unreserved⟩

/-- Some member is chosen, one outside another set if there is one. -/
theorem has_preferred {set : RegSet} (nonempty : set.isEmpty = false) (spared : RegSet) :
    set.has (if (set.diff spared).isEmpty then set else set.diff spared).first = true := by
  cases empty : (set.diff spared).isEmpty with
  | true => exact RegSet.has_first nonempty
  | false =>
    have first := RegSet.has_first empty
    rw [RegSet.has_diff, Bool.and_eq_true] at first
    exact first.1

theorem spillOne_evicts {bank : RegClass} {pinned : RegSet} (sound : state.layout.Sound)
    {spare : Register} (suits : Suits bank spare) (loose : pinned.has spare = false)
    (used : state.layout.used.has spare = true) :
    Succeeds (spillOne bank pinned) subject state fun reg after =>
      Suits bank reg ∧ pinned.has reg = false ∧
        after = { state.evict reg with
          layout := { state.layout.evict reg with lastSpilled := after.layout.lastSpilled } } := by
  unfold spillOne
  rw [succeeds_bind, succeeds_get]
  dsimp only
  generalize candidates : ((state.layout.used.inter (RegSet.ofClass bank)).diff pinned).diff
    RegSet.reserved = suitable
  have suitable_iff : ∀ reg, suitable.has reg = true ↔
      state.layout.used.has reg = true ∧ Suits bank reg ∧ pinned.has reg = false := by
    intro reg
    rw [← candidates]
    exact has_candidates_iff
  have nonempty : suitable.isEmpty = false := by
    apply Bool.eq_false_iff.mpr
    intro empty
    have member := (suitable_iff spare).mpr ⟨used, suits, loose⟩
    rw [RegSet.isEmpty_iff.mp empty spare] at member
    cases member
  have chosen := has_preferred nonempty state.layout.lastSpilled
  generalize (if (suitable.diff state.layout.lastSpilled).isEmpty then suitable
    else suitable.diff state.layout.lastSpilled).first = reg at chosen ⊢
  generalize (if (suitable.diff state.layout.lastSpilled).isEmpty then RegSet.empty
    else state.layout.lastSpilled).insert reg = last
  obtain ⟨_, fits, unpinned⟩ := (suitable_iff reg).mp chosen
  simp only [nonempty, Bool.false_eq_true, succeeds_ite, false_implies, not_false_eq_true,
    forall_const, true_and, succeeds_bind, succeeds_modifyLayout]
  have noted : ({ state.layout with lastSpilled := last } : Layout).Sound :=
    sound.congr rfl rfl rfl
  refine Succeeds.mono (@spillRegister_evicts subject
    { state with layout := { state.layout with lastSpilled := last } } reg noted fits.1) ?_
  rintro _ after rfl
  exact succeeds_pure.mpr ⟨fits, unpinned, rfl⟩

/-- What it means that a register of a bank was handed out. -/
structure Allotted (bank : RegClass) (wishes : List Register) (pinned : RegSet)
    (before : Compilation) (reg : Register) (after : Compilation) : Prop where
  suits : Suits bank reg
  loose : pinned.has reg = false
  free : after.layout.used.has reg = false
  /-- The first wish that is available is granted. -/
  wished : ∀ wish, wishes.find? (before.layout.Available bank pinned ·) = some wish → reg = wish
  /-- Nothing is stored while some register is available. -/
  spared : (∃ other, before.layout.Available bank pinned other) → after = before
  /-- Otherwise the register is stored in the frame slots of all slots it holds, and nothing else
  happens but for the note of what was spilled last. -/
  evicted : (¬ ∃ other, before.layout.Available bank pinned other) →
    after = { before.evict reg with
      layout := { before.layout.evict reg with lastSpilled := after.layout.lastSpilled } }
  checked : after.layout.problem? = none
  /-- The code that was added leaves every slot with its value, where the frame has a place for
  each slot and what is stored is of a value type. -/
  values : before.layout.height ≤ frameLimit →
    (∀ slot ∈ before.layout.slots, slot.place = .reg reg → slot.type.isValid = true) →
    ∃ parts, before.Gains parts after ∧ before.layout.Spills after.layout parts

theorem Allotted.of_available {bank : RegClass} {wishes : List Register} {pinned : RegSet}
    (sound : state.layout.Sound) (available : state.layout.Available bank pinned reg)
    (wished : ∀ wish, wishes.find? (state.layout.Available bank pinned ·) = some wish →
      reg = wish) : Allotted bank wishes pinned state reg state where
  suits := available.suits
  loose := available.loose
  free := available.free
  wished := wished
  spared _ := rfl
  evicted none := absurd ⟨reg, available⟩ none
  checked := Layout.problem?_eq_none_iff.mpr sound
  values _ _ := ⟨[], .of_text rfl, .of_slots rfl⟩

theorem Allotted.of_evicted {bank : RegClass} {wishes : List Register} {pinned : RegSet}
    {after : Compilation} (sound : state.layout.Sound)
    (none : ¬ ∃ other, state.layout.Available bank pinned other)
    (suits : Suits bank reg) (loose : pinned.has reg = false)
    (evicted : after = { state.evict reg with
      layout := { state.layout.evict reg with lastSpilled := after.layout.lastSpilled } }) :
    Allotted bank wishes pinned state reg after := by
  have layout : after.layout =
      { state.layout.evict reg with lastSpilled := after.layout.lastSpilled } :=
    congrArg Compilation.layout evicted
  constructor
  case suits => exact suits
  case loose => exact loose
  case free =>
    rw [layout]
    simp [Layout.evict, Layout.forget]
  case wished =>
    intro wish found
    exact absurd ⟨wish, by simpa using List.find?_some found⟩ none
  case spared => exact fun some => absurd some none
  case evicted => exact fun _ => evicted
  case checked =>
    rw [layout]
    exact Layout.problem?_eq_none_iff.mpr ((sound.evict suits.1).congr rfl rfl rfl)
  case values =>
    intro room valid
    have fits : ∀ slot ∈ state.layout.slots, slot.place = .reg reg → WasmX64.Suits slot.type reg :=
      fun slot member held => ⟨valid slot member held, Register.isMachine_of_isAllocable suits.1,
        (sound.fits slot member reg held).2⟩
    refine ⟨_, ?_, (Layout.Spills.evict fits room).trans (.of_slots ?_)⟩
    · rw [List.append_nil, evicted]
      exact state.gains_evict reg
    · rw [layout]

theorem Allotted.relaid {bank : RegClass} {wishes : List Register} {pinned : RegSet}
    {after : Compilation} (allotted : Allotted bank wishes pinned state reg after) :
    state.Relaid after := by
  by_cases some : ∃ other, state.layout.Available bank pinned other
  · rw [allotted.spared some]
    rfl
  · rw [allotted.evicted some]
    rfl

/-- What the search among the wishes asks is whether a register is available. -/
theorem available_iff {bank : RegClass} {pinned : RegSet} (sound : state.layout.Sound) :
    (reg.isMachine && decide (reg.regClass = bank) && state.layout.isFree reg && !pinned.has reg) =
      decide (state.layout.Available bank pinned reg) := by
  apply Bool.eq_iff_iff.mpr
  simp only [Bool.and_eq_true, decide_eq_true_eq, Bool.not_eq_true']
  constructor
  · rintro ⟨⟨⟨_, bank⟩, free⟩, loose⟩
    have allocable := sound.balanced.isAllocable_of_isFree free
    simp only [Layout.isFree, Bool.and_eq_true, Bool.not_eq_true'] at free
    exact ⟨⟨allocable, bank⟩, loose, free.2⟩
  · rintro ⟨⟨allocable, bank⟩, loose, free⟩
    have machine := Register.isMachine_of_isAllocable allocable
    exact ⟨⟨⟨machine, bank⟩, by simp [Layout.isFree, machine, free]⟩, loose⟩

theorem has_unused_iff {bank : RegClass} {pinned : RegSet} (sound : state.layout.Sound) :
    (state.layout.unused bank pinned).has reg = true ↔ state.layout.Available bank pinned reg := by
  rw [← decide_eq_true_iff (p := state.layout.Available bank pinned reg), ← available_iff sound]
  simp only [Layout.unused, RegSet.has_diff, RegSet.has_ofClass, Layout.isFree, Bool.and_eq_true]
  grind

theorem takeRegister_allots {bank : RegClass} {wishes : List Register} {pinned : RegSet}
    (sound : state.layout.Sound) {spare : Register} (suits : Suits bank spare)
    (loose : pinned.has spare = false) :
    Succeeds (takeRegister bank wishes pinned) subject state
      (Allotted bank wishes pinned state) := by
  unfold takeRegister
  rw [succeeds_bind, succeeds_get]
  simp only [available_iff sound]
  split
  · rename_i reg found
    have available : state.layout.Available bank pinned reg := by
      simpa using List.find?_some found
    refine succeeds_pure.mpr (.of_available sound available ?_)
    intro wish other
    rw [found] at other
    exact Option.some.inj other
  · rename_i nothing
    split
    · rename_i reg first
      have available := (has_unused_iff sound).mp (RegSet.has_of_first? first)
      refine succeeds_pure.mpr (.of_available sound available ?_)
      intro wish other
      rw [nothing] at other
      cases other
    · rename_i first
      have none : ¬ ∃ other, state.layout.Available bank pinned other := by
        rintro ⟨other, available⟩
        have member := (has_unused_iff sound).mpr available
        rw [RegSet.first?_eq_none_iff.mp first other] at member
        cases member
      have used : state.layout.used.has spare = true := by
        by_contra free
        exact none ⟨spare, suits, loose, Bool.eq_false_iff.mpr free⟩
      refine (spillOne_evicts sound suits loose used).mono ?_
      rintro reg after ⟨suits, loose, evicted⟩
      exact .of_evicted sound none suits loose evicted

/-- With books that check and a register of the bank that is not pinned, a register is handed out;
what is stored for it keeps the books and the values of all slots. -/
theorem allocation_honours {bank : RegClass} {wishes : List Register} {pinned : RegSet}
    (checked : state.layout.problem? = none)
    (spare : ∃ reg, Suits bank reg ∧ pinned.has reg = false) :
    Succeeds (takeRegister bank wishes pinned) subject state
      (Allotted bank wishes pinned state) := by
  obtain ⟨reg, suits, loose⟩ := spare
  exact takeRegister_allots (Layout.problem?_eq_none_iff.mp checked) suits loose

/-- All registers that values can be kept in are in use, one of them twice. -/
def crowded : Compilation where
  layout := ((RegSet.ofClass .gp).diff RegSet.reserved).toList.foldl
    (fun layout reg => layout.push (.inReg .i64 reg)) (Layout.push {} (.inReg .i32 .rcx))

/-- The first candidate is pinned, a wish is in use, and two slots hold what is stored. -/
theorem allocation_honours_crowded :
    ∃ reg after, takeRegister .gp [.rsi, .rax] (.single .rax) default crowded = .ok reg after ∧
      Allotted .gp [.rsi, .rax] (.single .rax) crowded reg after :=
  allocation_honours (by decide +kernel)
    ⟨.rcx, by unfold Suits; decide, by decide +kernel⟩

end Compile

end WasmX64
