import Mathlib.Data.List.Perm.Subperm
import WasmX64.Proofs.Execution.Eviction

/-!
# Allocation at work

Taking a register never fails as long as some register of the bank is not pinned, and the code
that makes room for it keeps every value.  Popping an operand leaves its value in the register
that is handed out.
-/

namespace WasmX64

namespace Layout

theorem Sound.loose_of_isFree {layout : Layout} (sound : layout.Sound) {reg : Register}
    (free : layout.isFree reg = true) : layout.Loose reg := by
  have allocable := sound.balanced.isAllocable_of_isFree free
  have kept := Register.not_reserved_of_isAllocable allocable
  constructor
  · rintro rfl
    cases kept
  · rintro rfl
    cases kept
  · intro slot member place
    apply (sound.balanced.isFree_iff allocable).mp free
    exact List.mem_filterMap.mpr
      ⟨slot, Array.mem_toList_iff.mpr member, Slot.reg?_eq_some_iff.mpr place⟩

theorem Sound.loose_of_reserved {layout : Layout} (sound : layout.Sound) {reg : Register}
    (reserved : RegSet.reserved.has reg = true) (pointer : reg ≠ .rbp) (stack : reg ≠ .rsp) :
    layout.Loose reg := by
  refine ⟨pointer, stack, ?_⟩
  intro slot member place
  have allocable := (sound.fits slot member reg place).1
  rw [Register.not_reserved_of_isAllocable allocable] at reserved
  cases reserved

theorem Spills.loose {before after : Layout} {parts : List Part} (spills : Spills before after parts)
    {reg : Register} (loose : before.Loose reg) : after.Loose reg := by
  refine ⟨loose.pointer, loose.stack, ?_⟩
  intro slot member held
  obtain ⟨_, _, _, persists⟩ := spills.follows (fun _ _ => 0) ⟨fun _ => 0, fun _ => 0, {}⟩
  obtain ⟨index, found⟩ := Array.mem_iff_getElem?.mp member
  have below : index < after.height := (Array.getElem?_eq_some_iff.mp found).1
  rw [spills.height] at below
  obtain ⟨former, foundFormer, _, place, _⟩ := persists.slots index slot below found
  rcases place with same | moved
  · exact loose.unheld former (Array.mem_of_getElem? foundFormer) (same ▸ held)
  · rw [moved] at held
    cases held

end Layout

namespace Compile

/-- The books are in order, the slots are of value types and the frame is not too large. -/
structure Orderly (subject : Subject) (state : Compilation) : Prop where
  books : Books subject state
  typed : ∀ slot ∈ state.layout.slots, slot.isWellTyped = true
  room : state.layout.height ≤ frameLimit

/-- What order means for the layout alone. -/
structure Neat (layout : Layout) : Prop where
  sound : layout.Sound
  typed : ∀ slot ∈ layout.slots, slot.isWellTyped = true
  room : layout.height ≤ frameLimit

variable {subject : Subject} {state after : Compilation}

theorem Neat.proper {layout : Layout} (neat : Neat layout) : ∀ slot ∈ layout.slots, slot.Proper :=
  fun slot member => Slot.proper_of_isWellTyped (neat.typed slot member) (neat.sound.fits slot member)

theorem Neat.spills {before layout : Layout} {parts : List Part} (neat : Neat before)
    (sound : layout.Sound) (spills : before.Spills layout parts) : Neat layout := by
  refine ⟨sound, fun slot member => ?_, spills.height ▸ neat.room⟩
  obtain ⟨_, _, _, persists⟩ := spills.follows (fun _ _ => 0) ⟨fun _ => 0, fun _ => 0, {}⟩
  obtain ⟨index, found⟩ := Array.mem_iff_getElem?.mp member
  have below : index < layout.height := (Array.getElem?_eq_some_iff.mp found).1
  rw [spills.height] at below
  exact persists.isWellTyped neat.typed below found

theorem Orderly.neat (orderly : Orderly subject state) : Neat state.layout :=
  ⟨orderly.books.sound, orderly.typed, orderly.room⟩

theorem Orderly.proper (orderly : Orderly subject state) :
    ∀ slot ∈ state.layout.slots, slot.Proper := orderly.neat.proper

theorem Orderly.replace (orderly : Orderly subject state) (books : Books subject after)
    (layout : after.layout = state.layout) : Orderly subject after := by
  constructor
  · exact books
  · rw [layout]
    exact orderly.typed
  · rw [layout]
    exact orderly.room

theorem Orderly.keep (orderly : Orderly subject state) (blocks : after.blocks = state.blocks)
    (layout : after.layout = state.layout) : Orderly subject after := by
  refine orderly.replace (orderly.books.replace blocks ?_ ?_) layout
  · rw [layout]
    exact orderly.books.sound
  · rw [layout]
    exact orderly.books.tall

theorem Orderly.spills {parts : List Part} (orderly : Orderly subject state)
    (books : Books subject after) (spills : state.layout.Spills after.layout parts) :
    Orderly subject after := by
  have neat := orderly.neat.spills books.sound spills
  exact ⟨books, neat.typed, neat.room⟩

/-- A register is stored and given up. -/
theorem spillRegister_compiles {reg : Register} (neat : Neat state.layout)
    (allocable : reg.isAllocable = true) :
    Compiles (spillRegister reg) subject state fun _ after parts =>
      state.Relaid after ∧ after.layout.isFree reg = true ∧
        state.layout.Spills after.layout parts := by
  refine (spillRegister_evicts neat.sound allocable).mono ?_
  rintro _ after rfl
  refine ⟨_, state.gains_evict reg, rfl, ?_, .evict ?_ neat.room⟩
  · have machine := Register.isMachine_of_isAllocable allocable
    simp [Compilation.evict, Layout.evict, Layout.isFree, Layout.forget, machine]
  · exact fun slot member place => (neat.proper slot member).suits place

theorem exists_spare (bank : RegClass) {pinned : List Register} (few : pinned.length < 4) :
    ∃ reg, Suits bank reg ∧ ∀ other ∈ pinned, reg ≠ other := by
  have search : ∀ choices : List Register, choices.Nodup → 4 ≤ choices.length →
      (∀ reg ∈ choices, Suits bank reg) →
      ∃ reg, Suits bank reg ∧ ∀ other ∈ pinned, reg ≠ other := by
    intro choices distinct many suits
    by_contra none
    have all : choices ⊆ pinned := by
      intro reg member
      by_contra free
      exact none ⟨reg, suits reg member, fun other held same => free (same ▸ held)⟩
    have length := (distinct.subperm all).length_le
    omega
  cases bank with
  | gp =>
    apply search [.rax, .rcx, .rdx, .rsi] (by decide) (by decide)
    simp only [Suits]
    decide
  | fp =>
    apply search [.xmm 0, .xmm 1, .xmm 2, .xmm 3] (by decide) (by decide)
    simp only [Suits]
    decide

theorem Suits.ne {bank : RegClass} {reg other : Register} (suits : Suits bank reg)
    (reserved : RegSet.reserved.has other = true) : reg ≠ other := by
  rintro rfl
  rw [Register.not_reserved_of_isAllocable suits.1] at reserved
  cases reserved

theorem Suits.present {bank : RegClass} {reg : Register} (suits : Suits bank reg) :
    reg ≠ .absent := by
  rintro rfl
  have machine := Register.isMachine_of_isAllocable suits.1
  cases machine

/-- A register of a bank that is not pinned has been freed by storing what was in it. -/
structure Freed (bank : RegClass) (pinned : RegSet) (before : Compilation) (reg : Register)
    (after : Compilation) (parts : List Part) : Prop where
  neat : Neat after.layout
  relaid : before.Relaid after
  suits : Suits bank reg
  loose : pinned.has reg = false
  free : after.layout.isFree reg = true
  spills : before.layout.Spills after.layout parts

structure Taken (bank : RegClass) (pinned : RegSet) (subject : Subject) (before : Compilation)
    (reg : Register) (after : Compilation) (parts : List Part) : Prop
    extends Freed bank pinned before reg after parts where
  orderly : Orderly subject after

theorem takeRegister_freed {bank : RegClass} {wishes : List Register} {pinned : RegSet}
    (neat : Neat state.layout) {spare : Register} (suits : Suits bank spare)
    (loose : pinned.has spare = false) :
    Compiles (takeRegister bank wishes pinned) subject state (Freed bank pinned state) := by
  refine (takeRegister_allots neat.sound suits loose).mono ?_
  intro reg after allotted
  obtain ⟨parts, gains, spills⟩ :=
    allotted.values neat.room fun slot member _ => (neat.proper slot member).valid
  have sound := Layout.problem?_eq_none_iff.mp allotted.checked
  have machine := Register.isMachine_of_isAllocable allotted.suits.1
  have free : after.layout.isFree reg = true := by
    simp [Layout.isFree, machine, allotted.free]
  exact ⟨parts, gains, neat.spills sound spills, allotted.relaid, allotted.suits, allotted.loose,
    free, spills⟩

theorem takeRegister_compiles {bank : RegClass} {wishes : List Register} {pinned : RegSet}
    (orderly : Orderly subject state) {spare : Register} (suits : Suits bank spare)
    (loose : pinned.has spare = false) :
    Compiles (takeRegister bank wishes pinned) subject state (Taken bank pinned subject state) := by
  have kept := Books.keeps (stays_takeRegister bank wishes pinned) subject state orderly.books
  refine ((takeRegister_freed orderly.neat suits loose).and kept).mono ?_
  rintro reg after parts ⟨freed, books, _⟩
  exact ⟨freed, orderly.spills books freed.spills⟩

/-- Operands of some types, topmost first, can be taken off. -/
structure Offers (state : Compilation) (types : List ValueType) : Prop where
  opened : ∃ block outer, state.blocks = block :: outer ∧
    block.base + types.length ≤ state.layout.height
  slots : ∀ depth type, types[depth]? = some type →
    ∃ slot, state.layout.slots[state.layout.height - 1 - depth]? = some slot ∧ slot.type = type

theorem Offers.operandType {types : List ValueType} (offers : Offers state types)
    (books : Books subject state) {depth : Nat} {type : ValueType}
    (found : types[depth]? = some type)
    {post : ValueType → Compilation → List Part → Prop} (holds : post type state []) :
    Compiles (operandType depth) subject state post := by
  obtain ⟨block, outer, blocks, above⟩ := offers.opened
  obtain ⟨slot, here, same⟩ := offers.slots depth type found
  have shallow : depth < types.length := (List.getElem?_eq_some_iff.mp found).1
  have inside : state.layout.height - 1 - depth < state.layout.height :=
    (Array.getElem?_eq_some_iff.mp here).1
  have floor := (books.blocks block (blocks ▸ List.mem_cons_self)).floor
  have covered : ¬ (state.layout.height : Int) - depth ≤ block.base := by omega
  have peeked : state.layout.peek? depth = some slot := by
    have place : (state.layout.height : Int) - 1 - depth =
        ((state.layout.height - 1 - depth : Nat) : Int) := by omega
    have nonnegative : (0 : Int) ≤ ((state.layout.height - 1 - depth : Nat) : Int) := by omega
    rw [Layout.peek?, place, if_pos nonnegative, Int.toNat_natCast]
    exact here
  apply Compiles.silent
  unfold Compile.operandType innermost
  simp only [succeeds_bind, succeeds_get, blocks, succeeds_pure, succeeds_ite, peeked, covered,
    false_implies, not_false_eq_true, forall_const, true_and, same]
  exact holds

theorem Offers.expect {types : List ValueType} (offers : Offers state types)
    (books : Books subject state) {depth : Nat} {type : ValueType}
    (found : types[depth]? = some type)
    {post : Unit → Compilation → List Part → Prop} (holds : post () state []) :
    Compiles (expect depth type) subject state post :=
  .bind (offers.operandType books found (.demand (not_not_intro rfl) (.pure holds)))

theorem popSlot_compiles {types : List ValueType} {type : ValueType}
    (offers : Offers state (type :: types)) {post : Slot → Compilation → List Part → Prop}
    (holds : ∀ slot, state.layout.top? = some slot → slot.type = type →
      post slot { state with layout := state.layout.pop } []) :
    Compiles popSlot subject state post := by
  obtain ⟨block, outer, blocks, above⟩ := offers.opened
  obtain ⟨slot, here, same⟩ := offers.slots 0 type rfl
  have top : state.layout.top? = some slot := by
    rw [Layout.top?, Array.back?_eq_getElem?]
    exact here
  rw [List.length_cons] at above
  have covered : ¬ (state.layout.height : Int) ≤ block.base := by omega
  apply Compiles.silent
  unfold popSlot innermost
  simp only [succeeds_bind, succeeds_get, blocks, succeeds_pure, succeeds_ite, top, covered,
    false_implies, not_false_eq_true, forall_const, true_and, succeeds_modifyLayout]
  exact ⟨rfl, by simpa only [blocks] using holds slot top same⟩

theorem materialize_compiles {slot : Slot} {reg : Register} {index : Nat} (proper : slot.Proper)
    (plain : ∀ source, slot.place ≠ .reg source) (suits : Suits slot.type.regClass reg)
    (small : index < frameLimit) :
    Compiles (materialize reg slot index) subject state fun _ after parts =>
      state.Relaid after ∧ after.layout = state.layout ∧
        ∀ addresses (machine : Processor), ∃ next,
          machine.followParts addresses parts = some (.falls next) ∧
            next.memory = machine.memory ∧
            next.regs = (machine.setReg reg (machine.slotValue slot index)).regs := by
  have fits : WasmX64.Suits slot.type reg :=
    ⟨proper.valid, Register.isMachine_of_isAllocable suits.1, suits.2⟩
  unfold materialize
  cases place : slot.place with
  | frame =>
    refine .emit ⟨rfl, rfl, fun addresses machine => ?_⟩
    obtain ⟨instructions, runs⟩ := Sequence.fill_runs fits small machine
    refine ⟨_, Processor.followParts_steps (Processor.follow_runs runs), rfl, ?_⟩
    simp [Processor.slotValue, place]
  | const value =>
    refine .emit ⟨rfl, rfl, fun addresses machine => ?_⟩
    obtain ⟨instructions, next, runs, memory, regs⟩ :=
      Sequence.loadConstant_runs fits (proper.integer value place) value machine
    refine ⟨next, Processor.followParts_steps (Processor.follow_runs runs), memory, ?_⟩
    simp [Processor.slotValue, place, regs]
  | reg source => exact absurd place (plain source)
  | unknown code => exact absurd place (proper.known code)

structure Popped (pinned : RegSet) (subject : Subject) (before : Compilation) (slot : Slot)
    (reg : Register) (after : Compilation) (parts : List Part) : Prop where
  orderly : Orderly subject after
  relaid : before.Relaid after
  height : after.layout.height + 1 = before.layout.height
  suits : Suits slot.type.regClass reg
  follows : ∀ addresses (machine : Processor), ∃ next,
    machine.followParts addresses parts = some (.falls next) ∧
      Layout.Persists nowhere after.layout.height before.layout after.layout machine next ∧
      (∀ other, other ≠ reg ∨ pinned.has other = true → next.regs other = machine.regs other) ∧
      slot.type.clip (next.regs reg) = machine.slotValue slot after.layout.height ∧
      (machine.Clean slot → next.regs reg = machine.slotValue slot after.layout.height)

theorem Orderly.popped (orderly : Orderly subject state) {layout : Layout}
    (slots : layout.slots = state.layout.slots.pop) (sound : layout.Sound)
    (tall : subject.locals ≤ layout.height) : Orderly subject { state with layout } := by
  constructor
  · exact orderly.books.relayout sound tall
  · intro slot member
    have listed : slot ∈ state.layout.slots.toList.dropLast := by
      simpa [slots] using Array.mem_toList_iff.mpr member
    exact orderly.typed slot (Array.mem_toList_iff.mp (List.dropLast_subset _ listed))
  · have fewer : layout.height ≤ state.layout.height := by
      simp [Layout.height, slots]
    exact Nat.le_trans fewer orderly.room

theorem top?_push (layout : Layout) (slot : Slot) : (layout.push slot).top? = some slot := by
  rw [Layout.top?, Layout.slots_push, Array.back?_push]

theorem getElem?_push_of_lt {layout : Layout} (slot : Slot) {index : Nat}
    (below : index < layout.height) : (layout.push slot).slots[index]? = layout.slots[index]? := by
  rw [Layout.slots_push, Array.getElem?_push_lt below]
  exact (Array.getElem?_eq_getElem below).symm

theorem height_pop {layout : Layout} {slot : Slot} (top : layout.top? = some slot) :
    layout.pop.height + 1 = layout.height := by
  have inside : 0 < layout.slots.size := by
    rw [Layout.top?, Array.back?_eq_getElem?] at top
    have := (Array.getElem?_eq_some_iff.mp top).1
    omega
  simp only [Layout.height, Layout.pop, Array.size_pop]
  omega

/-- Taking off the top slot keeps the others. -/
theorem persists_pop {before after : Layout} (slots : after.slots = before.slots.pop)
    (machine : Processor) : Layout.Persists nowhere after.height before after machine machine := by
  apply Layout.Persists.of_below
  intro index below
  have small : index < before.slots.size - 1 := by
    simpa [Layout.height, slots] using below
  rw [slots, Array.getElem?_pop, if_pos small]

/-- An operand that is in a register is handed out there. -/
theorem popped_held {pinned : RegSet} {slot : Slot} {reg : Register} (orderly : Orderly subject state)
    (top : state.layout.top? = some slot) (place : slot.place = .reg reg) (proper : slot.Proper)
    (tall : subject.locals ≤ state.layout.pop.height) :
    Popped pinned subject state slot reg
      { state with layout := state.layout.pop.release reg } [] := by
  have slots : (state.layout.pop.release reg).slots = state.layout.slots.pop :=
    Layout.slots_release
  have height : (state.layout.pop.release reg).height = state.layout.pop.height :=
    congrArg Array.size slots
  constructor
  case orderly =>
    refine orderly.popped slots (orderly.books.sound.pop_release top place) ?_
    rw [height]
    exact tall
  case relaid => rfl
  case height =>
    rw [height]
    exact height_pop top
  case suits => exact proper.fits reg place
  case follows =>
    intro addresses machine
    have value : machine.slotValue slot (state.layout.pop.release reg).height =
        slot.type.clip (machine.regs reg) := by
      simp [Processor.slotValue, place]
    refine ⟨machine, rfl, persists_pop slots machine, fun _ _ => rfl, value.symm, ?_⟩
    intro clean
    rw [value]
    exact clean reg place

/-- Dropping an operand needs no code. -/
theorem dropOperand_compiles {types : List ValueType} {type : ValueType}
    (orderly : Orderly subject state) (offers : Offers state (type :: types)) :
    Compiles dropOperand subject state fun _ after parts =>
      Orderly subject after ∧ after.layout.slots = state.layout.slots.pop ∧ parts = [] := by
  obtain ⟨block, outer, blocks, above⟩ := offers.opened
  have floor := (orderly.books.blocks block (blocks ▸ List.mem_cons_self)).floor
  rw [List.length_cons] at above
  refine .bind (popSlot_compiles offers ?_)
  rintro slot top rfl
  have lowered := height_pop top
  have tall : subject.locals ≤ state.layout.pop.height := by omega
  split
  · rename_i reg place
    have slots : (state.layout.pop.release reg).slots = state.layout.slots.pop :=
      Layout.slots_release
    refine .modifyLayout ⟨?_, slots, rfl⟩
    refine orderly.popped slots (orderly.books.sound.pop_release top place) ?_
    rw [Layout.height, slots]
    exact tall
  · rename_i plain
    exact .pure ⟨orderly.popped rfl (orderly.books.sound.pop_plain top plain) tall, rfl, rfl⟩

theorem popRegister_compiles {pinned : RegSet} {types : List ValueType} {type : ValueType}
    (orderly : Orderly subject state) (offers : Offers state (type :: types)) {spare : Register}
    (suits : Suits type.regClass spare) (loose : pinned.has spare = false) :
    Compiles (popRegister pinned) subject state fun reg after parts =>
      ∃ slot, state.layout.top? = some slot ∧ slot.type = type ∧
        Popped pinned subject state slot reg after parts := by
  obtain ⟨block, outer, blocks, above⟩ := offers.opened
  have floor := (orderly.books.blocks block (blocks ▸ List.mem_cons_self)).floor
  rw [List.length_cons] at above
  refine .bind (popSlot_compiles offers ?_)
  rintro slot top rfl
  have lowered := height_pop top
  have tall : subject.locals ≤ state.layout.pop.height := by omega
  have proper : slot.Proper := by
    rw [Layout.top?, Array.back?_eq_getElem?] at top
    exact orderly.proper slot (Array.mem_of_getElem? top)
  split
  · rename_i reg place
    exact .bind (.modifyLayout (.pure ⟨slot, top, rfl, popped_held orderly top place proper tall⟩))
  · rename_i plain
    have rest := @Orderly.popped subject state orderly state.layout.pop rfl
      (orderly.books.sound.pop_plain top plain) tall
    refine .bind ((takeRegister_compiles rest suits loose).mono fun reg middle first taken => ?_)
    have same : middle.layout.height = state.layout.pop.height := taken.spills.height
    have small : middle.layout.height < frameLimit := by
      have room := orderly.room
      omega
    refine .bind (.get (.bind ((materialize_compiles proper plain taken.suits small).mono ?_)))
    rintro _ after second ⟨relaid, layout, follows⟩
    refine .pure ⟨slot, top, rfl, ?_⟩
    constructor
    case orderly =>
      constructor
      · refine taken.orderly.books.replace relaid.blocks ?_ ?_
        · rw [layout]
          exact taken.orderly.books.sound
        · rw [layout]
          exact taken.orderly.books.tall
      · rw [layout]
        exact taken.orderly.typed
      · rw [layout]
        exact taken.orderly.room
    case relaid => exact taken.relaid.trans relaid
    case height =>
      rw [layout, same]
      exact lowered
    case suits => exact taken.suits
    case follows =>
      intro addresses machine
      obtain ⟨between, runsFirst, regsFirst, persistsFirst⟩ := taken.spills.follows addresses machine
      obtain ⟨next, runsSecond, memory, regs⟩ := follows addresses between
      have word : between.slotWord middle.layout.height = machine.slotWord middle.layout.height :=
        persistsFirst.slotWord (Nat.le_of_eq same.symm) small
      have value : between.slotValue slot middle.layout.height =
          machine.slotValue slot middle.layout.height := by
        apply Processor.slotValue_congr
        · intro _
          exact word
        · intro source place
          exact absurd place (plain source)
      have loaded : next.regs reg = machine.slotValue slot middle.layout.height := by
        rw [regs, Processor.regs_setReg, if_pos rfl, value]
      have loose := taken.orderly.books.sound.loose_of_isFree taken.free
      have persistsSecond : Layout.Persists nowhere middle.layout.height middle.layout
          middle.layout between next := by
        apply Layout.Persists.of_loose memory
        intro other tight
        rw [regs, Processor.regs_setReg, if_neg]
        rintro rfl
        exact tight loose
      rw [layout]
      refine ⟨next, ?_, ?_, ?_, ?_, fun _ => loaded⟩
      · simp only [List.nil_append, List.append_nil]
        rw [Processor.followParts_falls runsFirst]
        exact runsSecond
      · rw [same] at persistsSecond ⊢
        exact (persists_pop rfl machine).trans (persistsFirst.trans persistsSecond)
      · intro other apart
        have different : other ≠ reg := by
          rintro rfl
          rcases apart with different | kept
          · exact different rfl
          · rw [taken.loose] at kept
            cases kept
        rw [regs, Processor.regs_setReg, if_neg different, regsFirst]
      · rw [loaded]
        exact machine.clip_slotValue slot _

theorem Taken.addressed {bank : RegClass} {pinned : RegSet} {reg : Register} {parts : List Part}
    (taken : Taken bank pinned subject state reg after parts)
    (addresses : RefKind → UInt32 → BitVec 64) (machine : Processor) (kind : RefKind)
    (index : UInt32) :
    ∃ next, machine.followParts addresses (parts ++ [.address reg kind index]) =
        some (.falls next) ∧
      next.regs reg = addresses kind index ∧
      (∀ other, other ≠ reg → next.regs other = machine.regs other) ∧
      Layout.Persists nowhere state.layout.height state.layout after.layout machine next := by
  obtain ⟨spilled, runs, regs, persists⟩ := taken.spills.follows addresses machine
  have loose := taken.orderly.books.sound.loose_of_isFree taken.free
  refine ⟨_, Processor.followParts_falls runs, if_pos rfl, ?_, persists.trans (.setReg loose)⟩
  intro other different
  rw [Processor.regs_setReg, if_neg different, regs]

/-- The operands below the one that was popped are still there. -/
theorem Popped.offers {pinned : RegSet} {slot : Slot} {reg : Register} {parts : List Part}
    {type : ValueType} {types : List ValueType} (pops : Popped pinned subject state slot reg after parts)
    (offers : Offers state (type :: types)) : Offers after types := by
  obtain ⟨block, outer, blocks, above⟩ := offers.opened
  have height := pops.height
  rw [List.length_cons] at above
  refine ⟨⟨block, outer, pops.relaid.blocks.trans blocks, by omega⟩, ?_⟩
  intro depth type found
  obtain ⟨former, foundFormer, same⟩ := offers.slots (depth + 1) type found
  obtain ⟨_, _, persists, _⟩ := pops.follows (fun _ _ => 0) ⟨fun _ => 0, fun _ => 0, {}⟩
  have place : state.layout.height - 1 - (depth + 1) = after.layout.height - 1 - depth := by omega
  have listed : block ∈ after.blocks := by
    rw [pops.relaid.blocks, blocks]
    exact List.mem_cons_self
  have floor := (pops.orderly.books.blocks block listed).floor
  have shallow : depth < types.length := (List.getElem?_eq_some_iff.mp found).1
  have inside : after.layout.height - 1 - depth < after.layout.height := by omega
  have here : after.layout.slots[after.layout.height - 1 - depth]? =
      some after.layout.slots[after.layout.height - 1 - depth] := Array.getElem?_eq_getElem inside
  obtain ⟨old, foundOld, sameType, _⟩ := persists.slots _ _ inside here
  rw [place, foundOld] at foundFormer
  cases foundFormer
  exact ⟨_, here, sameType.symm.trans same⟩

end Compile

end WasmX64
