import WasmX64.Proofs.Execution.Operands

/-!
# Variables at work

Reading a local shares its register, and writing one moves the claim of the operand on a register
over to the local.  Globals live in cells of memory, constants in no place at all.
-/

namespace WasmX64

theorem Processor.slotValue_of_plain (machine : Processor) {slot : Slot}
    (plain : slot.place ≠ .frame) (index other : Nat) :
    machine.slotValue slot index = machine.slotValue slot other := by
  unfold slotValue
  cases place : slot.place with
  | frame => exact absurd place plain
  | _ => rfl

namespace Layout

variable {changed : BitVec 64 → Prop} {before after layout : Layout} {machine old new : Processor}
  {values : List (BitVec 64)}

theorem values_congr (same : after.slots = before.slots) (machine : Processor) :
    after.values machine = before.values machine := by
  rw [Layout.values, same]
  rfl

theorem values_setSlot {index : Nat} (slot : Slot) (machine : Processor) :
    (layout.setSlot index slot).values machine =
      (layout.values machine).set index (machine.slotValue slot index) := by
  apply List.ext_getElem?
  intro other
  rw [getElem?_values, List.getElem?_set, getElem?_values, length_values, getElem?_setSlot]
  by_cases here : index = other
  · subst here
    by_cases inside : index < layout.height
    · simp [inside]
    · have beyond : layout.slots[index]? = none := Array.getElem?_eq_none (Nat.le_of_not_lt inside)
      simp [inside, beyond]
  · simp [here]

/-- The operand on top is gone. -/
theorem Reshapes.pop (reshapes : Reshapes changed before after old new values) :
    Reshapes changed before after.pop old new values.dropLast where
  values := by
    rw [← reshapes.values]
    apply List.ext_getElem?
    intro index
    rw [getElem?_values, List.getElem?_dropLast, getElem?_values, length_values, Layout.pop,
      Array.getElem?_pop]
    unfold height
    split <;> rfl
  zeroed slot member := by
    have listed : slot ∈ after.slots.toList.dropLast := by
      simpa [Layout.pop] using Array.mem_toList_iff.mpr member
    exact reshapes.zeroed slot (Array.mem_toList_iff.mp (List.dropLast_subset _ listed))
  pointer := reshapes.pointer
  stack := reshapes.stack
  outside := reshapes.outside

theorem reshapes_moved {index : Nat} {top : Slot} (zeroed : layout.Zeroed machine)
    (isTop : layout.top? = some top) (plain : top.place ≠ .frame)
    (slots : after.slots = layout.slots.setIfInBounds index top) :
    Reshapes nowhere layout after machine machine
      ((layout.values machine).set index (layout.operand machine 0)) where
  values := by
    have same : after.slots = (layout.setSlot index top).slots := slots
    rw [values_congr same, values_setSlot, operand_top isTop,
      machine.slotValue_of_plain plain index (layout.height - 1)]
  zeroed slot member := by
    rw [slots] at member
    rcases Array.mem_or_eq_of_mem_setIfInBounds member with old | rfl
    · exact zeroed slot old
    · exact zeroed slot (Array.mem_of_back? isTop)
  pointer := rfl
  stack := rfl
  outside _ _ _ := rfl

theorem Persists.clip_slotWord {count index : Nat} {slot : Slot}
    (persists : Persists changed count before after old new)
    (found : before.slots[index]? = some slot) (framed : slot.place = .frame)
    (below : index < count) (inside : index < after.height) :
    slot.type.clip (new.slotWord index) = old.slotValue slot index := by
  have listed : after.slots[index]? = some after.slots[index] := Array.getElem?_eq_getElem inside
  generalize after.slots[index] = placed at listed
  obtain ⟨former, foundFormer, sameType, kept, value⟩ := persists.slots index placed below listed
  rw [found] at foundFormer
  cases foundFormer
  have still : placed.place = .frame := by
    rcases kept with same | moved
    · rw [same, framed]
    · exact moved
  rw [← value, Processor.slotValue, still, sameType]

/-- A local that was emptied first is filled. -/
theorem Persists.refill {index : Nat} {type : ValueType} {reg : Register} {value : BitVec 64}
    {middle : Layout}
    (persists : Persists changed layout.height (layout.setSlot index (.inFrame type)) middle old new)
    (zeroed : layout.Zeroed old) (height : middle.height = layout.height)
    (denotes : Denotes type (new.regs reg) value)
    (slots : after.slots = middle.slots.setIfInBounds index (.inReg type reg)) :
    Reshapes changed layout after old new ((layout.values old).set index value) := by
  have emptied : (layout.setSlot index (.inFrame type)).Zeroed old := by
    intro slot member
    rcases Array.mem_or_eq_of_mem_setIfInBounds member with former | rfl
    · exact zeroed slot former
    · intro _ own held
      cases held
  have same : after.slots = (middle.setSlot index (.inReg type reg)).slots := slots
  constructor
  case values =>
    have whole : (layout.setSlot index (.inFrame type)).height = layout.height :=
      height_setSlot index _
    rw [values_congr same, values_setSlot, persists.values (Nat.le_of_eq height), height,
      values_setSlot, List.take_of_length_le (by simp), List.set_set]
    exact congrArg (List.set _ index) denotes.clip
  case zeroed =>
    intro slot member narrow
    rw [same] at member
    rcases Array.mem_or_eq_of_mem_setIfInBounds member with former | rfl
    · exact persists.zeroed (Nat.le_of_eq height) emptied slot former narrow
    · intro own held
      cases held
      exact (denotes.clean narrow).trans denotes.clip.symm
  case pointer => exact persists.pointer
  case stack => exact persists.stack
  case outside => exact persists.outside

end Layout

theorem Processor.fill_yields {loose : Register → Prop} {type : ValueType} {reg : Register}
    {index : Nat} (suits : Suits type reg) (small : index < frameLimit) (machine : Processor) :
    machine.Yields loose (Sequence.fill type reg index) reg (type.clip (machine.slotWord index)) := by
  obtain ⟨instructions, runs⟩ := Sequence.fill_runs suits small machine
  exact ⟨_, follow_runs runs, rfl, if_pos rfl, fun other apart _ => if_neg apart⟩

namespace Compile

open Layout (Persists Reshapes Denotes)

variable {subject : Subject} {state after : Compilation}

theorem denotes_clip (type : ValueType) (value : BitVec 64) :
    Denotes type (type.clip value) (type.clip value) where
  clip := type.clip_clip value
  clean _ := rfl

theorem dropOperand_realizes {types : List ValueType} {type : ValueType}
    (orderly : Orderly subject state) (offers : Offers state (type :: types)) :
    Compiles dropOperand subject state fun _ after parts =>
      Realizes subject state (fun machine => .ok (state.layout.values machine).dropLast)
        after parts := by
  refine (dropOperand_compiles orderly offers).mono ?_
  rintro _ after _ ⟨orderly, slots, rfl⟩
  refine ⟨orderly, fun addresses machine zeroed => ⟨machine, rfl, ?_⟩⟩
  have start : Persists nowhere state.layout.height state.layout state.layout machine machine :=
    .of_below machine fun _ _ => rfl
  have popped := (start.reshapes (Nat.le_refl _) zeroed).pop
  rw [List.take_of_length_le (by simp)] at popped
  have same : after.layout.slots = state.layout.pop.slots := slots
  refine ⟨(Layout.values_congr same machine).trans popped.values, ?_, rfl, rfl, fun _ _ _ => rfl⟩
  intro slot member
  rw [same] at member
  exact popped.zeroed slot member

theorem localSlot_compiles {index : UInt32} {slot : Slot} (inside : index.toNat < subject.locals)
    (found : state.layout.slots[index.toNat]? = some slot)
    {post : Slot → Compilation → List Part → Prop} (holds : post slot state []) :
    Compiles (localSlot index) subject state post := by
  refine .bind (.read (.demand (by omega) (.bind (.get ?_))))
  rw [Layout.slot?_natCast, found]
  exact .pure holds

/-- The code of a slot that is put on top without a move. -/
theorem push_realizes {slot : Slot} {value : Processor → BitVec 64} (orderly : Orderly subject state)
    (room : state.layout.height < frameLimit) (typed : slot.isWellTyped = true) (fits : slot.Fits)
    (clean : ∀ machine : Processor, state.layout.Zeroed machine → slot.type = .i32 →
      machine.Clean slot)
    (holds : ∀ machine : Processor, machine.slotValue slot state.layout.height = value machine) :
    Realizes subject state
      (fun machine => replaced state.layout state.layout.height machine (value machine))
      { state with layout := state.layout.push slot } [] := by
  refine ⟨orderly.pushSlot room typed fits, fun addresses machine zeroed => ⟨machine, rfl, ?_⟩⟩
  have start : Persists nowhere state.layout.height state.layout state.layout machine machine :=
    .of_below machine fun _ _ => rfl
  rw [← holds machine]
  exact (start.reshapes (Nat.le_refl _) zeroed).pushSlot (clean machine zeroed)

theorem lowerLocalGet_compiles {index : UInt32} {slot : Slot} (orderly : Orderly subject state)
    (room : state.layout.height < frameLimit) (inside : index.toNat < subject.locals)
    (found : state.layout.slots[index.toNat]? = some slot) :
    Compiles (lowerLocalGet index) subject state fun _ after parts =>
      Realizes subject state (fun machine => replaced state.layout state.layout.height machine
        (machine.slotValue slot index.toNat)) after parts := by
  have member := Array.mem_of_getElem? found
  have typed := orderly.typed slot member
  have proper := orderly.proper slot member
  refine .bind (localSlot_compiles inside found ?_)
  have shared : slot.place ≠ .frame → Realizes subject state
      (fun machine => replaced state.layout state.layout.height machine
        (machine.slotValue slot index.toNat))
      { state with layout := state.layout.push slot } [] := fun plain =>
    push_realizes orderly room typed proper.fits (fun machine zeroed => zeroed _ member)
      fun machine => machine.slotValue_of_plain plain _ _
  split
  · rename_i reg place
    have same : Slot.inReg slot.type reg = slot := by
      rw [Slot.inReg, ← place]
    rw [pushRegister, same]
    exact .modifyLayout (shared (by simp [place]))
  · rename_i value place
    have same : Slot.ofConst slot.type value = slot := by
      rw [Slot.ofConst, ← place]
    rw [pushConst, same]
    exact .modifyLayout (shared (by simp [place]))
  · rename_i place
    obtain ⟨spare, suits, _⟩ := @exists_spare slot.type.regClass [] (by decide)
    refine .bind (((orderly.taking rfl).take suits (RegSet.has_empty spare)).mono ?_)
    rintro reg taken first ⟨suits, _, free, _, _, taking⟩
    refine (taking.place (fun machine => .ok (machine.slotValue slot index.toNat)) room proper.valid
      suits free ?_).mono ?_
    · intro before machine persists _
      have below := (Array.getElem?_eq_some_iff.mp found).1
      have height := taking.height
      have yields := @Processor.fill_yields taken.layout.Loose slot.type reg index.toNat
        ⟨proper.valid, Register.isMachine_of_isAllocable suits.1, suits.2⟩
        (Nat.lt_trans below room) machine
      refine ⟨_, yields, ?_⟩
      rw [← persists.clip_slotWord found place below (height.symm ▸ below)]
      exact denotes_clip _ _
    · intro _ after second realizes
      simp only [List.append_assoc] at realizes
      exact realizes
  · rename_i code place
    exact absurd place (proper.known code)

theorem releaseLocal_compiles {index : Nat} {slot : Slot} (sound : state.layout.Sound)
    (found : state.layout.slots[index]? = some slot) :
    Compiles (releaseLocal index) subject state fun _ after parts =>
      [] = parts ∧ after = { state with layout := after.layout } ∧
        after.layout.slots = state.layout.slots ∧
        after.layout.Balanced (state.layout.setSlot index (.inFrame slot.type)).registers := by
  have silent : Compiles (releaseLocal index) subject state fun _ after parts =>
      [] = parts ∧ after = { state with layout := after.layout } := .modifyLayout ⟨rfl, rfl⟩
  refine (silent.and (releaseLocal_balanced sound found)).mono ?_
  rintro _ after parts ⟨⟨none, same⟩, _, slots, balanced⟩
  exact ⟨none, same, slots, balanced⟩

theorem loose_of_count_one {layout : Layout} {index : Nat} {slot : Slot} {reg : Register}
    (sound : layout.Sound) (found : layout.slots[index]? = some slot)
    (held : slot.place = .reg reg) (alone : layout.count reg = 1) :
    (layout.setSlot index (.inFrame slot.type)).Loose reg := by
  have allocable := (sound.fits slot (Array.mem_of_getElem? found) reg held).1
  have kept := Register.not_reserved_of_isAllocable allocable
  refine ⟨?_, ?_, ?_⟩
  · rintro rfl
    cases kept
  · rintro rfl
    cases kept
  · intro other member place
    have exchanged := Layout.registers_setSlot (.inFrame slot.type) found
    have plain : (Slot.inFrame slot.type).reg? = none := rfl
    rw [plain, Slot.reg?_eq_some_iff.mpr held, Option.toList_none, Option.toList_some,
      List.append_nil] at exchanged
    have counts := exchanged.count_eq reg
    have counted := sound.balanced.counted reg allocable
    have listed : reg ∈ (layout.setSlot index (.inFrame slot.type)).registers :=
      List.mem_filterMap.mpr ⟨other, Array.mem_toList_iff.mpr member,
        Slot.reg?_eq_some_iff.mpr place⟩
    have positive := List.count_pos_iff.mpr listed
    rw [List.count_append, List.count_singleton_self] at counts
    omega

theorem setLocalFromFrame_compiles {index : Nat} {slot top : Slot} (orderly : Orderly subject state)
    (found : state.layout.slots[index]? = some slot) (isTop : state.layout.top? = some top)
    (type : top.type = slot.type) (framed : top.place = .frame)
    (below : index + 1 < state.layout.height) :
    Compiles (setLocalFromFrame index slot) subject state fun _ after parts =>
      after.layout.height = state.layout.height ∧
        (∀ slot ∈ after.layout.slots, slot.isWellTyped = true) ∧
        ∀ addresses machine, state.layout.Zeroed machine → ∃ next,
          machine.followParts addresses parts = some (.falls next) ∧
            Reshapes nowhere state.layout after.layout machine next
              ((state.layout.values machine).set index (state.layout.operand machine 0)) := by
  have room := orderly.room
  have proper := orderly.proper slot (Array.mem_of_getElem? found)
  have operand : ∀ machine, state.layout.operand machine 0 =
      slot.type.clip (machine.slotWord (state.layout.height - 1)) := by
    intro machine
    rw [Layout.operand_top isTop, Processor.slotValue, framed, ← type]
  refine .bind (.get ?_)
  dsimp only
  split
  · rename_i reg only
    obtain ⟨isReg, alone⟩ := Option.filter_eq_some_iff.mp only
    have held := Slot.reg?_eq_some_iff.mp isReg
    have loose := loose_of_count_one orderly.books.sound found held (by simpa using alone)
    refine .emit ⟨rfl, orderly.typed, fun addresses machine zeroed => ?_⟩
    obtain ⟨next, falls, memory, holds, others⟩ :=
      @Processor.fill_yields (state.layout.setSlot index (.inFrame slot.type)).Loose slot.type reg
        (state.layout.height - 1) (proper.suits held) (by omega) machine
    have persists : Persists nowhere state.layout.height
        (state.layout.setSlot index (.inFrame slot.type))
        (state.layout.setSlot index (.inFrame slot.type)) machine next := by
      apply Persists.of_loose memory
      intro other tight
      exact others other (fun same => tight (same ▸ loose)) tight
    have denotes : Denotes slot.type (next.regs reg) (state.layout.operand machine 0) := by
      rw [holds, operand]
      exact denotes_clip _ _
    refine ⟨next, Processor.followParts_steps falls,
      persists.refill zeroed (Layout.height_setSlot index _) denotes ?_⟩
    have back : Slot.inReg slot.type reg = slot := by
      rw [Slot.inReg, ← held]
    rw [back]
    change state.layout.slots =
      (state.layout.slots.setIfInBounds index (.inFrame slot.type)).setIfInBounds index slot
    apply Array.ext_getElem?
    intro other
    rw [Array.getElem?_setIfInBounds, Array.getElem?_setIfInBounds, Array.size_setIfInBounds]
    by_cases here : index = other
    · subst here
      rw [if_pos rfl, if_pos (Array.getElem?_eq_some_iff.mp found).1, found]
    · rw [if_neg here, if_neg here]
  · rename_i shared
    refine .bind ((releaseLocal_compiles orderly.books.sound found).mono ?_)
    rintro _ released _ ⟨rfl, same, slots, balanced⟩
    have height : (released.layout.setSlot index (.inFrame slot.type)).height =
        state.layout.height := by
      rw [Layout.height_setSlot, Layout.height, slots]
      rfl
    have emptied : Orderly subject
        { released with layout := released.layout.setSlot index (.inFrame slot.type) } := by
      have blocks : released.blocks = state.blocks := by
        rw [same]
      constructor
      · refine orderly.books.replace blocks
          (orderly.books.sound.replace_plain found slots balanced (Layout.plain_inFrame _)) ?_
        rw [height]
        exact orderly.books.tall
      · intro other member
        rcases Array.mem_or_eq_of_mem_setIfInBounds member with old | rfl
        · exact orderly.typed other (slots ▸ old)
        · simpa [Slot.isWellTyped, Slot.inFrame] using proper.valid
      · rw [height]
        exact room
    obtain ⟨spare, suits, _⟩ := @exists_spare slot.type.regClass [] (by decide)
    refine .bind (.modifyLayout (.bind ((takeRegister_compiles emptied suits
      (RegSet.has_empty spare)).mono ?_)))
    rintro reg taken first free
    have taller := free.spills.height
    have slots' : ((taken.layout.setSlot index (.inReg slot.type reg)).retain reg).slots =
        taken.layout.slots.setIfInBounds index (.inReg slot.type reg) := Layout.slots_retain
    refine .bind (.emit (.modifyLayout ⟨?_, ?_, ?_⟩))
    · change ((taken.layout.setSlot index (.inReg slot.type reg)).retain reg).height = _
      rw [Layout.height, slots', Array.size_setIfInBounds]
      exact taller.trans height
    · intro other member
      change other ∈ ((taken.layout.setSlot index (.inReg slot.type reg)).retain reg).slots at member
      rw [slots'] at member
      rcases Array.mem_or_eq_of_mem_setIfInBounds member with old | rfl
      · exact free.orderly.typed other old
      · simpa [Slot.isWellTyped, Slot.inReg] using proper.valid
    · intro addresses machine zeroed
      obtain ⟨middle, runs, regs, spilled⟩ := free.spills.follows addresses machine
      dsimp only at spilled taller
      rw [height] at spilled taller
      have start : Persists nowhere state.layout.height
          (state.layout.setSlot index (.inFrame slot.type))
          (released.layout.setSlot index (.inFrame slot.type)) machine machine := by
        apply Persists.of_below
        intro other _
        simp only [Layout.setSlot, slots]
      have persists := start.trans spilled
      have untouched : (state.layout.setSlot index (.inFrame slot.type)).slots[
          state.layout.height - 1]? = some top := by
        rw [Layout.getElem?_setSlot, if_neg (by omega), ← isTop, Layout.top?,
          Array.back?_eq_getElem?]
        rfl
      have word := persists.clip_slotWord untouched framed (by omega) (by omega)
      obtain ⟨next, falls, memory, holds, others⟩ :=
        @Processor.fill_yields taken.layout.Loose slot.type reg (state.layout.height - 1)
          ⟨proper.valid, Register.isMachine_of_isAllocable free.suits.1, free.suits.2⟩ (by omega)
          middle
      have loose := free.orderly.books.sound.loose_of_isFree free.free
      have filled : Persists nowhere state.layout.height taken.layout taken.layout middle next := by
        apply Persists.of_loose memory
        intro other tight
        exact others other (fun same => tight (same ▸ loose)) tight
      have denotes : Denotes slot.type (next.regs reg) (state.layout.operand machine 0) := by
        rw [holds, Layout.operand_top isTop, ← word, type]
        exact denotes_clip _ _
      refine ⟨next, ?_, (persists.trans filled).refill zeroed taller denotes slots'⟩
      simp only [List.nil_append, List.append_nil]
      rw [Processor.followParts_falls runs]
      exact Processor.followParts_steps falls

/-- The values after a local has been set from the operand on top, which is kept or not. -/
def assigned (layout : Layout) (index : Nat) (keep : Bool) (machine : Processor) :
    List (BitVec 64) :=
  let moved := (layout.values machine).set index (layout.operand machine 0)
  if keep then moved else moved.dropLast

/-- A local has been set; the books are not looked at. -/
structure Assigns (origin : Layout) (index : Nat) (keep : Bool) (after : Layout)
    (parts : List Part) : Prop where
  height : after.height ≤ origin.height
  typed : ∀ slot ∈ after.slots, slot.isWellTyped = true
  follows : ∀ addresses machine, origin.Zeroed machine → ∃ next,
    machine.followParts addresses parts = some (.falls next) ∧
      Reshapes nowhere origin after machine next (assigned origin index keep machine)

theorem Assigns.finish {origin : Layout} {index : Nat} {parts : List Part}
    (assigns : Assigns origin index true state.layout parts) (keep : Bool) :
    Compiles (if !keep then modifyLayout Layout.pop else pure ()) subject state
      fun _ after more => Assigns origin index keep after.layout (parts ++ more) := by
  cases keep with
  | true =>
    refine .pure ?_
    rw [List.append_nil]
    exact assigns
  | false =>
    refine .modifyLayout ?_
    rw [List.append_nil]
    constructor
    · have height := assigns.height
      simp only [Layout.height, Layout.pop, Array.size_pop] at height ⊢
      omega
    · intro slot member
      have listed : slot ∈ state.layout.slots.toList.dropLast := by
        simpa [Layout.pop] using Array.mem_toList_iff.mpr member
      exact assigns.typed slot (Array.mem_toList_iff.mp (List.dropLast_subset _ listed))
    · intro addresses machine zeroed
      obtain ⟨next, falls, reshapes⟩ := assigns.follows addresses machine zeroed
      exact ⟨next, falls, reshapes.pop⟩

/-- The operand on top moves over to a local. -/
theorem Assigns.of_slots {origin after : Layout} {index : Nat} {top : Slot}
    (typed : ∀ slot ∈ origin.slots, slot.isWellTyped = true) (isTop : origin.top? = some top)
    (plain : top.place ≠ .frame) (slots : after.slots = origin.slots.setIfInBounds index top) :
    Assigns origin index true after [] where
  height := by simp [Layout.height, slots]
  typed slot member := by
    rw [slots] at member
    rcases Array.mem_or_eq_of_mem_setIfInBounds member with old | rfl
    · exact typed slot old
    · exact typed slot (Array.mem_of_back? isTop)
  follows _ machine zeroed := ⟨machine, rfl, Layout.reshapes_moved zeroed isTop plain slots⟩

theorem lowerLocalSet_compiles {index : UInt32} {slot : Slot} {types : List ValueType} (keep : Bool)
    (orderly : Orderly subject state) (offers : Offers state (slot.type :: types))
    (inside : index.toNat < subject.locals)
    (found : state.layout.slots[index.toNat]? = some slot) :
    Compiles (lowerLocalSet index keep) subject state fun _ after parts =>
      Realizes subject state
        (fun machine => .ok (assigned state.layout index.toNat keep machine)) after parts := by
  have assigns : Compiles (lowerLocalSet index keep) subject state fun _ after parts =>
      Assigns state.layout index.toNat keep after.layout parts := by
    obtain ⟨block, outer, blocks, above⟩ := offers.opened
    have floor := (orderly.books.blocks block (blocks ▸ List.mem_cons_self)).floor
    rw [List.length_cons] at above
    obtain ⟨top, here, type⟩ := offers.slots 0 slot.type rfl
    have isTop : state.layout.top? = some top := by
      rw [Layout.top?, Array.back?_eq_getElem?]
      exact here
    have proper := orderly.proper top (Array.mem_of_getElem? here)
    refine .bind (localSlot_compiles inside found (.bind (offers.expect orderly.books rfl
      (.bind (.get ?_)))))
    rw [isTop]
    dsimp only
    have moves : top.place ≠ .frame → ∀ released : Layout, released.slots = state.layout.slots →
        Assigns state.layout index.toNat true (released.setSlot index.toNat top) [] :=
      fun plain released slots => .of_slots orderly.typed isTop plain (by rw [Layout.setSlot, slots])
    cases place : top.place with
    | reg reg =>
      have plain : top.place ≠ .frame := by simp [place]
      refine .bind ((releaseLocal_compiles orderly.books.sound found).mono ?_)
      rintro _ released _ ⟨rfl, _, slots, _⟩
      refine .bind (.modifyLayout ?_)
      cases keep with
      | true =>
        refine .bind (.modifyLayout (.pure (.of_slots orderly.typed isTop plain ?_)))
        rw [Layout.slots_retain, Layout.setSlot, slots]
      | false => exact (moves plain released.layout slots).finish false
    | const value =>
      refine .bind ((releaseLocal_compiles orderly.books.sound found).mono ?_)
      rintro _ released _ ⟨rfl, _, slots, _⟩
      exact .bind (.modifyLayout ((moves (by simp [place]) released.layout slots).finish keep))
    | frame =>
      refine .bind ((setLocalFromFrame_compiles orderly found isTop type place (by omega)).mono ?_)
      rintro _ middle first ⟨height, typed, follows⟩
      have filled : Assigns state.layout index.toNat true middle.layout first :=
        ⟨Nat.le_of_eq height, typed, follows⟩
      exact filled.finish keep
    | unknown code => exact absurd place (proper.known code)
  refine (assigns.and (keeps_localSet index keep subject state orderly.books)).mono ?_
  rintro _ after parts ⟨assigns, books, _⟩
  refine ⟨⟨books, assigns.typed, Nat.le_trans assigns.height orderly.room⟩, ?_⟩
  exact fun addresses machine zeroed => assigns.follows addresses machine zeroed

theorem signExtend_low {bits : UInt64} (fits : fitsInt32 bits.toInt64.toInt = true) :
    (bits.toBitVec.setWidth 32).signExtend 64 = bits.toBitVec := by
  simp only [fitsInt32, Bool.and_eq_true, decide_eq_true_eq] at fits
  have value : bits.toInt64.toInt = bits.toBitVec.toInt := rfl
  rw [value] at fits
  apply BitVec.eq_of_toInt_eq
  rw [BitVec.toInt_signExtend_of_le (by decide), BitVec.toInt_setWidth]
  have number := @BitVec.toInt_eq_toNat_bmod 64 bits.toBitVec
  generalize bits.toBitVec = word at *
  simp only [Int.bmod_def] at *
  omega

theorem loadWide_yields {loose : Register → Prop} {dst : Register} (bits : UInt64)
    (machine : Processor) :
    machine.Yields loose (Sequence.loadConstant .i64 dst bits) dst bits.toBitVec := by
  change machine.Yields loose (Sequence.loadInteger .i64 dst bits) dst bits.toBitVec
  unfold Sequence.loadInteger
  by_cases zero : bits = 0
  · rw [if_pos zero, zero]
    exact .emit (machine.perform_clear dst) rfl (if_pos rfl) fun other apart => if_neg apart
  · rw [if_neg zero, if_neg (by decide)]
    refine .emit (machine.perform_movImm .i64 dst bits.toInt64) rfl ?_ fun other apart => if_neg apart
    rw [Processor.regs_setReg, if_pos rfl, ValueType.clip_i64]
    rfl

/-- A constant comes on top. -/
theorem lowerIntConst_compiles (width : IntWidth) (bits : UInt64) (orderly : Orderly subject state)
    (room : state.layout.height < frameLimit) :
    Compiles (lowerIntConst width bits) subject state fun _ after parts =>
      Realizes subject state (fun machine => replaced state.layout state.layout.height machine
        (width.type.clip bits.toBitVec)) after parts := by
  have constant : ∀ {type : ValueType} {value : Int32}, type.isInteger = true →
      type.clip (Slot.constBits type value).toBitVec = type.clip bits.toBitVec →
      Compiles (pushConst type value) subject state fun _ after parts =>
        Realizes subject state (fun machine => replaced state.layout state.layout.height machine
          (type.clip bits.toBitVec)) after parts := by
    intro type value integer same
    refine .modifyLayout (push_realizes orderly room ?_ (Layout.fits_plain ?_) ?_ fun _ => same)
    · cases type <;> cases integer <;> rfl
    · rintro reg ⟨⟩
    · rintro machine _ _ own ⟨⟩
  cases width with
  | w32 =>
    refine constant rfl ?_
    rw [Sequence.constBits_i32]
    change ((((bits.toBitVec.setWidth 32).setWidth 64).setWidth 32).setWidth 64) =
      (bits.toBitVec.setWidth 32).setWidth 64
    simp
  | w64 =>
    unfold lowerIntConst
    dsimp only
    split
    · rename_i fits
      refine constant rfl (congrArg _ ?_)
      rw [Sequence.constBits_i64]
      exact signExtend_low fits
    · obtain ⟨spare, suits, _⟩ := @exists_spare (ValueType.regClass .i64) [] (by decide)
      refine .bind (((orderly.taking rfl).take suits (RegSet.has_empty spare)).mono ?_)
      rintro reg taken first ⟨suits, _, free, _, _, taking⟩
      refine (taking.place (fun machine => .ok (ValueType.i64.clip bits.toBitVec)) room rfl suits
        free ?_).mono ?_
      · intro before machine _ _
        refine ⟨_, loadWide_yields bits machine, rfl, fun narrow => by cases narrow⟩
      · intro _ after second realizes
        simp only [List.append_assoc] at realizes
        exact realizes

/-! ## Globals -/

theorem read_yields {loose : Register → Prop} {type : ValueType} (valid : type.isValid = true)
    (dst : Register) (address : Address) (machine : Processor) :
    machine.Yields loose (Sequence.read type (UInt8.ofNat type.size) false dst address) dst
      (machine.load type (machine.effective address)) := by
  have loads : machine.perform (.load type dst address) =
      some (machine.setReg dst (machine.load type (machine.effective address))) := rfl
  cases type with
  | unknown code => cases valid
  | _ => exact .emit loads rfl (if_pos rfl) fun other apart => if_neg apart

theorem follow_writeValue {type : ValueType} (valid : type.isValid = true) (src : Register)
    (address : Address) (machine : Processor) :
    Processor.follow none machine (Sequence.write type (UInt8.ofNat type.size) address src) =
      some (.falls (machine.store type (machine.effective address) (machine.regs src))) := by
  cases type with
  | unknown code => cases valid
  | _ => rfl

theorem denotes_load (type : ValueType) (machine : Processor) (address : BitVec 64) :
    Denotes type (machine.load type address) (machine.load type address) where
  clip := ByteMemory.read_narrow _ _ (Nat.le_refl _)
  clean _ := rfl

theorem globalAt_compiles {index : UInt32} {global : Global}
    (found : subject.module.globals[index.toNat]? = some global)
    {post : Global → Compilation → List Part → Prop} (holds : post global state []) :
    Compiles (globalAt index) subject state post := by
  refine .bind (.read ?_)
  dsimp only
  rw [found]
  exact .pure holds

/-- The value of a global comes on top. -/
theorem lowerGlobalGet_compiles {index : UInt32} {global : Global} (orderly : Orderly subject state)
    (room : state.layout.height < frameLimit)
    (found : subject.module.globals[index.toNat]? = some global)
    (valid : global.type.isValid = true) :
    Compiles (lowerGlobalGet index) subject state fun _ after parts =>
      Orderly subject after ∧ ∀ addresses (machine : Processor), state.layout.Zeroed machine →
        machine.Aside state.layout.height (addresses .global index) global.type.size →
        Concludes nowhere state after parts addresses machine
          (replaced state.layout state.layout.height machine
            (machine.load global.type (addresses .global index))) := by
  obtain ⟨spare, suits, _⟩ := @exists_spare .gp [] (by decide)
  refine .bind (globalAt_compiles found (.machine fun events => ?_))
  have recorded : Orderly subject { state with events } := orderly.keep rfl rfl
  refine .bind ((takeRegister_compiles recorded suits (RegSet.has_empty spare)).mono ?_)
  intro cell celled first cellTaken
  obtain ⟨other, fits, apart⟩ := @exists_spare global.type.regClass [cell] (by simp)
  have loose : (RegSet.single cell).has other = false := by
    simpa [RegSet.has_single] using fun _ => apart cell
  refine .bind (.loadRef fun output refs => ?_)
  have linked : Orderly subject { celled with output, refs } := cellTaken.orderly.keep rfl rfl
  refine .bind ((takeRegister_compiles linked fits loose).mono ?_)
  intro dst taken second dstTaken
  have height : taken.layout.height = state.layout.height :=
    dstTaken.spills.height.trans cellTaken.spills.height
  refine .bind (.emit (.modifyLayout fun last => ⟨?_, ?_⟩))
  · have emitted : Orderly subject
        { taken with output := taken.output.emit (Sequence.read global.type
          (UInt8.ofNat global.type.size) false dst (.based cell 0)), events := last } :=
      dstTaken.orderly.keep rfl rfl
    exact emitted.push (height.symm ▸ room) valid dstTaken.suits
  · intro addresses machine zeroed aside
    obtain ⟨addressed, runsFirst, holds, _, persistsFirst⟩ :=
      cellTaken.addressed addresses machine .global index
    obtain ⟨ready, runsSecond, regs, persistsSecond⟩ := dstTaken.spills.follows addresses addressed
    obtain ⟨next, reads, memory, result, others⟩ :=
      @read_yields taken.layout.Loose global.type valid dst (.based cell 0) ready
    have free := dstTaken.orderly.books.sound.loose_of_isFree dstTaken.free
    have loaded : Persists nowhere state.layout.height taken.layout taken.layout ready next := by
      apply Persists.of_loose memory
      intro other tight
      exact others other (fun same => tight (same ▸ free)) tight
    have persists : Persists nowhere state.layout.height state.layout taken.layout machine ready := by
      rw [cellTaken.spills.height] at persistsSecond
      exact persistsFirst.trans persistsSecond
    have value : next.regs dst = machine.load global.type (addresses .global index) := by
      have address : ready.effective (.based cell 0) = addresses .global index := by
        rw [ready.effective_base cellTaken.suits.present, regs, holds]
      rw [result, address]
      exact persists.read (fun _ _ => id) aside
    have reshapes := (persists.trans loaded).reshapes (Nat.le_of_eq height) zeroed
    rw [height] at reshapes
    have denotes : Denotes global.type (next.regs dst)
        (machine.load global.type (addresses .global index)) := by
      rw [value]
      exact denotes_load _ _ _
    refine ⟨next, ?_, reshapes.push denotes⟩
    simp only [List.nil_append, List.append_nil]
    rw [← List.append_assoc, Processor.followParts_falls runsFirst,
      Processor.followParts_falls runsSecond]
    exact Processor.followParts_steps reads

theorem lowerGlobalSet_compiles {index : UInt32} {global : Global} {types : List ValueType}
    (orderly : Orderly subject state) (offers : Offers state (global.type :: types))
    (found : subject.module.globals[index.toNat]? = some global) (mutable : global.isMutable = true)
    (valid : global.type.isValid = true) :
    Compiles (lowerGlobalSet index) subject state fun _ after parts =>
      Orderly subject after ∧ ∀ addresses (machine : Processor), state.layout.Zeroed machine →
        machine.Aside state.layout.height (addresses .global index) global.type.size →
        ∃ next, machine.followParts addresses parts = some (.falls next) ∧
          Reshapes (within (addresses .global index) global.type.size) state.layout after.layout
            machine next (state.layout.values machine).dropLast ∧
          next.load global.type (addresses .global index) = state.layout.operand machine 0 := by
  obtain ⟨block, outer, blocks, above⟩ := offers.opened
  have floor := (orderly.books.blocks block (blocks ▸ List.mem_cons_self)).floor
  rw [List.length_cons] at above
  obtain ⟨spare, suits, _⟩ := @exists_spare global.type.regClass [] (by decide)
  have passes : ¬ (!global.isMutable) = true := by simp [mutable]
  refine .bind (globalAt_compiles found (.demand passes (.bind (offers.expect orderly.books rfl
    (.machine fun events => ?_)))))
  have recorded : Orderly subject { state with events } := orderly.keep rfl rfl
  have offered : Offers { state with events } (global.type :: types) := ⟨offers.opened, offers.slots⟩
  have taking := recorded.taking (show _ = state.layout.height - 1 + 1 by dsimp only; omega)
  refine .bind ((taking.pop (show _ + 1 + 0 = _ by dsimp only; omega) offered suits
    (RegSet.has_empty spare) fun _ _ _ _ => id).mono ?_)
  rintro value popped first ⟨valueSuits, _, _, taking⟩
  obtain ⟨other, fits, apart⟩ := @exists_spare .gp [value] (by simp)
  have loose : (RegSet.single value).has other = false := by
    simpa [RegSet.has_single] using fun _ => apart value
  refine .bind ((takeRegister_compiles taking.orderly fits loose).mono ?_)
  intro cell celled second cellTaken
  refine .bind (.loadRef fun output refs => .emit fun last => ⟨?_, ?_⟩)
  · exact cellTaken.orderly.keep rfl rfl
  · intro addresses machine zeroed aside
    obtain ⟨middle, runsFirst, persistsFirst, _, denotes⟩ :=
      taking.follows addresses machine zeroed
    obtain ⟨addressed, runsSecond, holds, others, persistsSecond⟩ :=
      cellTaken.addressed addresses middle .global index
    have lowered : popped.layout.height = state.layout.height - 1 := taking.height
    have height : celled.layout.height = popped.layout.height := cellTaken.spills.height
    have fewer : popped.layout.height ≤ state.layout.height := by omega
    have persists : Persists nowhere state.layout.height state.layout celled.layout machine
        addressed := persistsFirst.trans (persistsSecond.raise (Nat.le_of_eq height) fewer)
    have address : addressed.effective (.based cell 0) = addresses .global index := by
      rw [addressed.effective_base cellTaken.suits.present, holds]
    have valueMachine := Register.isMachine_of_isAllocable valueSuits.1
    have different : value ≠ cell := by
      have unpinned := cellTaken.loose
      simp only [RegSet.has_single, valueMachine, Bool.true_and, decide_eq_false_iff_not] at unpinned
      exact Ne.symm unpinned
    have writes := follow_writeValue valid value (.based cell 0) addressed
    rw [address, others value different] at writes
    have stored : Persists (within (addresses .global index) global.type.size) state.layout.height
        celled.layout celled.layout addressed
        (addressed.store global.type (addresses .global index) (middle.regs value)) :=
      .write addressed (persists.aside aside)
    have total := (persists.mono fun _ => False.elim).trans stored
    have reshapes := total.reshapes (by omega) zeroed
    have below : celled.layout.height = (state.layout.values machine).length - 1 := by
      rw [Layout.length_values]
      omega
    rw [below, ← List.dropLast_eq_take] at reshapes
    refine ⟨_, ?_, reshapes, ?_⟩
    · rw [List.nil_append] at runsFirst
      simp only [List.nil_append]
      rw [Processor.followParts_falls runsFirst, ← List.append_assoc,
        Processor.followParts_falls runsSecond]
      exact Processor.followParts_steps writes
    · exact (ByteMemory.read_write _ _ _ (ValueType.size_le _)).trans denotes.clip

end Compile

end WasmX64
