import WasmX64.Proofs.Execution.Registers
import WasmX64.Proofs.Processor.Division

/-!
# Operands and results

A layout assigns values to locals and operands.  Code that takes operands into registers keeps the
values below them; code that puts a result into a free register adds its value on top.
-/

namespace WasmX64

namespace Layout

variable {changed : BitVec 64 → Prop} {count : Nat} {before middle after layout : Layout}
  {machine old new : Processor}

/-- The values of the slots of a layout, bottom first. -/
def values (layout : Layout) (machine : Processor) : List (BitVec 64) :=
  layout.slots.toList.mapIdx fun index slot => machine.slotValue slot index

theorem getElem?_values (layout : Layout) (machine : Processor) (index : Nat) :
    (layout.values machine)[index]? =
      layout.slots[index]?.map fun slot => machine.slotValue slot index := by
  simp [values]

@[simp] theorem length_values (layout : Layout) (machine : Processor) :
    (layout.values machine).length = layout.height := by
  simp [values, height]

theorem values_push (layout : Layout) (slot : Slot) (machine : Processor) :
    (layout.push slot).values machine =
      layout.values machine ++ [machine.slotValue slot layout.height] := by
  simp [values, slots_push, height]

theorem operand_eq {depth : Nat} (inside : depth < layout.height) :
    (layout.values machine)[layout.height - 1 - depth]? = some (layout.operand machine depth) := by
  have below : layout.height - 1 - depth < layout.slots.size := by
    unfold height at inside ⊢
    omega
  rw [getElem?_values, operand, Array.getElem?_eq_getElem below]
  rfl

/-- The registers of 32-bit integers are zero above them. -/
def Zeroed (layout : Layout) (machine : Processor) : Prop :=
  ∀ slot ∈ layout.slots, slot.type = .i32 → machine.Clean slot

/-- A processor has come from a layout to another one, whose slots have some values. -/
structure Reshapes (changed : BitVec 64 → Prop) (before after : Layout) (old new : Processor)
    (values : List (BitVec 64)) : Prop where
  values : after.values new = values
  zeroed : after.Zeroed new
  pointer : new.regs .rbp = old.regs .rbp
  stack : new.regs .rsp = old.regs .rsp
  outside : ∀ address, ¬ changed address →
    (∀ index < before.height, 8 ≤ (address - old.slotAt index).toNat) →
    new.memory address = old.memory address

namespace Persists

theorem values (persists : Persists changed count before after old new)
    (low : after.height ≤ count) :
    after.values new = (before.values old).take after.height := by
  apply List.ext_getElem?
  intro index
  rw [getElem?_values, List.getElem?_take, getElem?_values]
  by_cases below : index < after.height
  · have found : after.slots[index]? = some after.slots[index] := Array.getElem?_eq_getElem below
    obtain ⟨former, foundFormer, _, _, value⟩ := persists.slots index _ (by omega) found
    rw [if_pos below, found, foundFormer]
    exact congrArg some value
  · have beyond : after.slots[index]? = none := Array.getElem?_eq_none (Nat.le_of_not_lt below)
    rw [if_neg below, beyond]
    rfl

theorem zeroed (persists : Persists changed count before after old new)
    (low : after.height ≤ count) (zeroed : before.Zeroed old) : after.Zeroed new := by
  intro slot member type
  obtain ⟨index, found⟩ := Array.mem_iff_getElem?.mp member
  have below : index < count :=
    Nat.lt_of_lt_of_le (Array.getElem?_eq_some_iff.mp found).1 low
  obtain ⟨former, foundFormer, sameType, _⟩ := persists.slots index slot below found
  refine persists.clean below found fun other foundOther => ?_
  rw [foundFormer] at foundOther
  cases foundOther
  exact zeroed former (Array.mem_of_getElem? foundFormer) (sameType.trans type)

/-- Nothing but operands on top is gone. -/
theorem reshapes (persists : Persists changed before.height before after old new)
    (fewer : after.height ≤ before.height) (zeroed : before.Zeroed old) :
    Reshapes changed before after old new ((before.values old).take after.height) where
  values := persists.values fewer
  zeroed := persists.zeroed fewer zeroed
  pointer := persists.pointer
  stack := persists.stack
  outside := persists.outside

end Persists

/-- The word in a register stands for a value of a type. -/
structure Denotes (type : ValueType) (word value : BitVec 64) : Prop where
  clip : type.clip word = value
  clean : type = .i32 → word = value

theorem Denotes.word {type : ValueType} {word value : BitVec 64}
    (denotes : Denotes type word value) : type.word word = type.word value := by
  rw [← denotes.clip, ValueType.word_clip]

theorem Denotes.copy {type : ValueType} {source word value : BitVec 64}
    (denotes : Denotes type source value) (copies : Processor.Copies type source word) :
    Denotes type word value where
  clip := copies.clip.trans denotes.clip
  clean narrow := by
    have same := denotes.clean narrow
    have clipped : type.clip source = source := denotes.clip.trans same.symm
    rw [← copies.clean clipped, copies.clip, denotes.clip]

theorem denotes_setWidth {type : ValueType} (value : BitVec type.bits) :
    Denotes type (value.setWidth 64) (value.setWidth 64) where
  clip := by rw [ValueType.clip_eq, ValueType.word_setWidth]
  clean _ := rfl

theorem Reshapes.pushSlot {values : List (BitVec 64)} {slot : Slot}
    (reshapes : Reshapes changed before after old new values)
    (clean : slot.type = .i32 → new.Clean slot) :
    Reshapes changed before (after.push slot) old new
      (values ++ [new.slotValue slot after.height]) where
  values := by
    rw [values_push, reshapes.values]
  zeroed := by
    intro other member narrow
    rw [slots_push, Array.mem_push] at member
    rcases member with old | rfl
    · exact reshapes.zeroed other old narrow
    · exact clean narrow
  pointer := reshapes.pointer
  stack := reshapes.stack
  outside := reshapes.outside

theorem Reshapes.push {values : List (BitVec 64)} {type : ValueType} {reg : Register}
    {value : BitVec 64} (reshapes : Reshapes changed before after old new values)
    (denotes : Denotes type (new.regs reg) value) :
    Reshapes changed before (after.push (.inReg type reg)) old new (values ++ [value]) := by
  rw [← denotes.clip]
  refine reshapes.pushSlot fun narrow own held => ?_
  cases held
  exact (denotes.clean narrow).trans denotes.clip.symm

end Layout

namespace Compile

open Layout (Persists Reshapes Denotes)

variable {subject : Subject} {origin state after : Compilation} {count : Nat}
  {first : List Part}

theorem Compiles.gained {α : Type} {action : Compile α} {post : α → Compilation → List Part → Prop}
    (compiles : Compiles action subject state post) :
    Compiles action subject state fun value after parts =>
      state.Gains parts after ∧ post value after parts := by
  refine Succeeds.mono compiles ?_
  rintro value after ⟨parts, gains, holds⟩
  exact ⟨parts, gains, gains, holds⟩

/-- A slot that suits its type comes on top. -/
theorem Orderly.pushSlot {slot : Slot} (orderly : Orderly subject state)
    (room : state.layout.height < frameLimit) (typed : slot.isWellTyped = true)
    (fits : slot.Fits) : Orderly subject { state with layout := state.layout.push slot } := by
  have taller : (state.layout.push slot).height = state.layout.height + 1 := by
    simp [Layout.height, Layout.slots_push]
  constructor
  · refine orderly.books.relayout (orderly.books.sound.push fits) ?_
    have tall := orderly.books.tall
    omega
  · intro other member
    change other ∈ (state.layout.push slot).slots at member
    rw [Layout.slots_push, Array.mem_push] at member
    rcases member with old | rfl
    · exact orderly.typed other old
    · exact typed
  · change (state.layout.push slot).height ≤ frameLimit
    omega

theorem Orderly.push {type : ValueType} {reg : Register} (orderly : Orderly subject state)
    (room : state.layout.height < frameLimit) (valid : type.isValid = true)
    (suits : Suits type.regClass reg) :
    Orderly subject { state with layout := state.layout.push (.inReg type reg) } := by
  refine orderly.pushSlot room (by simpa [Slot.isWellTyped, Slot.inReg] using valid) ?_
  rintro _ ⟨⟩
  exact suits

/-- Since `origin`, operands have been taken into registers and `count` slots are left. -/
structure Taking (subject : Subject) (origin : Compilation) (count : Nat)
    (info : Processor → (Register → BitVec 64) → Prop) (state : Compilation) (parts : List Part) :
    Prop where
  gains : origin.Gains parts state
  orderly : Orderly subject state
  instr : state.instr = origin.instr
  height : state.layout.height = count
  fewer : count ≤ origin.layout.height
  follows : ∀ addresses (machine : Processor), origin.layout.Zeroed machine → ∃ next,
    machine.followParts addresses parts = some (.falls next) ∧
      Persists nowhere origin.layout.height origin.layout state.layout machine next ∧
      info machine next.regs

/-- Stubs were added, with labels of their own; one of them reports a trap of the current
instruction. -/
structure Reports (origin after : Compilation) (label : Label) (kind : TrapKind) : Prop where
  added : ∃ stubs, after.stubs.toList = origin.stubs.toList ++ stubs ∧
    ⟨label, kind, origin.instr⟩ ∈ stubs ∧ (stubs.map TrapStub.label).Nodup ∧
    ∀ stub ∈ stubs, origin.output.code.labels.size ≤ stub.label.index

/-- Code ends with values in the slots, or leaves for a trap and has changed no memory but that
of frame slots. -/
def Concludes (changed : BitVec 64 → Prop) (origin after : Compilation) (parts : List Part)
    (addresses : RefKind → UInt32 → BitVec 64) (machine : Processor) :
    Except TrapKind (List (BitVec 64)) → Prop
  | .ok values => ∃ next, machine.followParts addresses parts = some (.falls next) ∧
      Reshapes changed origin.layout after.layout machine next values
  | .error kind => ∃ label next, machine.followParts addresses parts = some (.leaves label next) ∧
      Reports origin after label kind ∧
      ∀ address, (∀ index < origin.layout.height, 8 ≤ (address - machine.slotAt index).toNat) →
        next.memory address = machine.memory address

/-- The compiler keeps its books, and the code it has added has an outcome. -/
structure Realizes (subject : Subject) (origin : Compilation)
    (outcome : Processor → Except TrapKind (List (BitVec 64))) (after : Compilation)
    (parts : List Part) : Prop where
  orderly : Orderly subject after
  concludes : ∀ addresses (machine : Processor), origin.layout.Zeroed machine →
    Concludes nowhere origin after parts addresses machine (outcome machine)

/-- Some slots are left, and a value has come on top. -/
def replaced (layout : Layout) (count : Nat) (machine : Processor) (value : BitVec 64) :
    Except TrapKind (List (BitVec 64)) :=
  .ok ((layout.values machine).take count ++ [value])

/-- Steps bring a value into a register, or leave for a trap. -/
def Delivers (origin state : Compilation) (type : ValueType) (dst : Register) (steps : List Step)
    (machine : Processor) : Except TrapKind (BitVec 64) → Prop
  | .ok value => ∃ word, machine.Yields state.layout.Loose steps dst word ∧ Denotes type word value
  | .error kind => ∃ label next, Processor.follow none machine steps = some (.leaves label next) ∧
      next.memory = machine.memory ∧ Reports origin state label kind

variable {info : Processor → (Register → BitVec 64) → Prop}

theorem Orderly.taking (orderly : Orderly subject state) (height : state.layout.height = count) :
    Taking subject state count (fun _ _ => True) state [] where
  gains := .of_text rfl
  orderly := orderly
  instr := rfl
  height := height
  fewer := Nat.le_of_eq height.symm
  follows _ machine _ := ⟨machine, rfl, .of_below machine fun _ _ => rfl, trivial⟩

namespace Taking

theorem pop {pinned : RegSet} {type : ValueType} {types : List ValueType} {depth : Nat}
    (taking : Taking subject origin (count + 1) info state first)
    (above : count + 1 + depth = origin.layout.height)
    (offers : Offers state (type :: types)) {spare : Register} (suits : Suits type.regClass spare)
    (loose : pinned.has spare = false)
    (kept : ∀ machine before after, (∀ other, pinned.has other = true → after other = before other) →
      info machine before → info machine after) :
    Compiles (popRegister pinned) subject state fun reg after second =>
      Suits type.regClass reg ∧ Offers after types ∧ after.stubs = state.stubs ∧
        Taking subject origin count (fun machine regs => info machine regs ∧
          Denotes type (regs reg) (origin.layout.operand machine depth))
          after (first ++ second) := by
  refine (popRegister_compiles taking.orderly offers suits loose).gained.mono ?_
  rintro reg after second ⟨gains, slot, top, rfl, pops⟩
  have height := pops.height
  have before := taking.height
  refine ⟨pops.suits, pops.offers offers, pops.relaid.stubs, taking.gains.append gains, pops.orderly,
    pops.relaid.instr.trans taking.instr, by omega, by omega, ?_⟩
  intro addresses machine zeroed
  obtain ⟨middle, runsFirst, persistsFirst, known⟩ := taking.follows addresses machine zeroed
  obtain ⟨next, runsSecond, persistsSecond, others, carried, clean⟩ :=
    pops.follows addresses middle
  have here : state.layout.slots[after.layout.height]? = some slot := by
    rw [Layout.top?, Array.back?_eq_getElem?] at top
    rw [← top]
    congr 1
    exact (Nat.sub_eq_of_eq_add height.symm).symm
  have value : middle.slotValue slot after.layout.height =
      origin.layout.operand machine depth := by
    obtain ⟨former, found, _, _, same⟩ :=
      persistsFirst.slots after.layout.height slot (by omega) here
    have place : origin.layout.height - 1 - depth = after.layout.height := by omega
    rw [same, Layout.operand, place, found]
  refine ⟨next, ?_, ?_, ?_, ?_⟩
  · rw [Processor.followParts_falls runsFirst]
    exact runsSecond
  · exact persistsFirst.trans (persistsSecond.raise (Nat.le_refl _) (by omega))
  · exact kept machine middle.regs next.regs (fun other pinned => others other (.inr pinned)) known
  · refine ⟨carried.trans value, fun narrow => (clean ?_).trans value⟩
    exact persistsFirst.zeroed (by omega) zeroed slot (Array.mem_of_getElem? here) narrow

/-- Code that stores values in the frame comes next. -/
theorem spills {second : List Part} (taking : Taking subject origin count info state first)
    (gains : state.Gains second after) (orderly : Orderly subject after)
    (instr : after.instr = state.instr) (spills : state.layout.Spills after.layout second) :
    Taking subject origin count info after (first ++ second) where
  gains := taking.gains.append gains
  orderly := orderly
  instr := instr.trans taking.instr
  height := spills.height.trans taking.height
  fewer := taking.fewer
  follows addresses machine zeroed := by
    obtain ⟨middle, runsFirst, persistsFirst, known⟩ := taking.follows addresses machine zeroed
    obtain ⟨next, runsSecond, regs, persistsSecond⟩ := spills.follows addresses middle
    have height := taking.height
    have fewer := taking.fewer
    refine ⟨next, ?_, ?_, ?_⟩
    · rw [Processor.followParts_falls runsFirst]
      exact runsSecond
    · exact persistsFirst.trans
        (persistsSecond.raise (Nat.le_of_eq spills.height) (by omega))
    · rw [regs]
      exact known

theorem take {bank : RegClass} {wishes : List Register} {pinned : RegSet}
    (taking : Taking subject origin count info state first) {spare : Register}
    (suits : Suits bank spare) (loose : pinned.has spare = false) :
    Compiles (takeRegister bank wishes pinned) subject state fun dst after second =>
      Suits bank dst ∧ pinned.has dst = false ∧ after.layout.isFree dst = true ∧
        state.layout.Spills after.layout second ∧ after.stubs = state.stubs ∧
        Taking subject origin count info after (first ++ second) := by
  refine (takeRegister_compiles taking.orderly suits loose).gained.mono ?_
  rintro dst after second ⟨gains, taken⟩
  exact ⟨taken.suits, taken.loose, taken.free, taken.spills, taken.relaid.stubs,
    taking.spills gains taken.orderly taken.relaid.instr taken.spills⟩

theorem place {type : ValueType} {dst : Register} {steps : List Step}
    (taking : Taking subject origin count info state first)
    (outcome : Processor → Except TrapKind (BitVec 64)) (room : count < frameLimit)
    (valid : type.isValid = true) (suits : Suits type.regClass dst)
    (free : state.layout.isFree dst = true)
    (delivers : ∀ before machine,
      Persists nowhere origin.layout.height origin.layout state.layout before machine →
      info before machine.regs →
      Delivers origin state type dst steps machine (outcome before)) :
    Compiles (do
      emit steps
      pushRegister type dst) subject state fun _ after second =>
        Realizes subject origin
          (fun machine => (outcome machine).bind (replaced origin.layout count machine))
          after (first ++ second) := by
  have height := taking.height
  have fewer := taking.fewer
  have emitted : Orderly subject { state with output := state.output.emit steps } :=
    taking.orderly.keep rfl rfl
  refine .bind (.emit (.modifyLayout ⟨emitted.push (by dsimp only; omega) valid suits, ?_⟩))
  intro addresses machine zeroed
  obtain ⟨middle, runs, persists, known⟩ := taking.follows addresses machine zeroed
  have delivered := delivers machine middle persists known
  cases ends : outcome machine with
  | ok value =>
    rw [ends] at delivered
    obtain ⟨word, ⟨next, falls, memory, holds, others⟩, denotes⟩ := delivered
    have loose := taking.orderly.books.sound.loose_of_isFree free
    have kept : Persists nowhere origin.layout.height state.layout state.layout middle next := by
      apply Persists.of_loose memory
      intro other tight
      exact others other (fun same => tight (same ▸ loose)) tight
    have reshapes := (persists.trans kept).reshapes (by omega) zeroed
    rw [height] at reshapes
    refine ⟨next, ?_, reshapes.push (holds ▸ denotes)⟩
    rw [Processor.followParts_falls runs]
    exact Processor.followParts_steps falls
  | error kind =>
    rw [ends] at delivered
    obtain ⟨label, next, leaves, memory, reports⟩ := delivered
    refine ⟨label, next, ?_, ⟨reports.added⟩, fun address apart => ?_⟩
    · rw [Processor.followParts_falls runs]
      simp only [List.append_nil, Processor.followParts, leaves]
    · rw [memory]
      exact persists.outside address id apart

end Taking

/-! ## Operations on one and two operands -/

/-- The operands that an instruction finds are there, and so is room for its result. -/
structure Ready (subject : Subject) (state : Compilation) (types : List ValueType) : Prop where
  orderly : Orderly subject state
  offers : Offers state types
  room : state.layout.height < frameLimit

/-- The operands lie above the locals. -/
theorem Ready.enough {types : List ValueType} (ready : Ready subject state types) :
    subject.locals + types.length ≤ state.layout.height := by
  obtain ⟨block, outer, blocks, above⟩ := ready.offers.opened
  have floor := (ready.orderly.books.blocks block (blocks ▸ List.mem_cons_self)).floor
  omega

theorem Delivers.of_yields {type : ValueType} {dst : Register} {steps : List Step}
    {machine : Processor} {value : BitVec type.bits}
    (yields : machine.Yields state.layout.Loose steps dst (value.setWidth 64)) :
    Delivers origin state type dst steps machine (.ok (value.setWidth 64)) :=
  ⟨_, yields, Layout.denotes_setWidth value⟩

/-- The operand of an operation on one is taken off. -/
theorem Ready.operand {type : ValueType} {types : List ValueType}
    (ready : Ready subject state (type :: types)) {next : Register → Compile Unit}
    {post : Unit → Compilation → List Part → Prop}
    (rest : ∀ src popped first, Suits type.regClass src →
      Taking subject state (state.layout.height - 1) (fun machine regs =>
        Denotes type (regs src) (state.layout.operand machine 0)) popped first →
      Compiles (next src) subject popped fun value after second =>
        post value after (first ++ second)) :
    Compiles (do
      expect 0 type
      let src ← popRegister RegSet.empty
      next src) subject state post := by
  obtain ⟨spare, suits, _⟩ := @exists_spare type.regClass [] (by decide)
  have enough := ready.enough
  rw [List.length_cons] at enough
  have taking := ready.orderly.taking (show _ = state.layout.height - 1 + 1 by omega)
  refine .bind (ready.offers.expect ready.orderly.books rfl (.bind ((taking.pop
    (show _ + 1 + 0 = _ by omega) ready.offers suits (RegSet.has_empty spare)
    fun _ _ _ _ => id).mono ?_)))
  rintro src popped first ⟨suits, _, _, taking⟩
  simp only [true_and, List.nil_append] at taking
  exact rest src popped first suits taking

theorem lowerUnary_compiles {type result : ValueType} {steps : Register → Register → List Step}
    {value : BitVec type.bits → BitVec result.bits} (ready : Ready subject state [type])
    (valid : result.isValid = true)
    (yields : ∀ (machine : Processor) (loose : Register → Prop) dst src,
      machine.Yields loose (steps dst src) dst
        ((value (type.word (machine.regs src))).setWidth 64)) :
    Compiles (lowerUnary type result steps) subject state fun _ after parts =>
      Realizes subject state (fun machine =>
        replaced state.layout (state.layout.height - 1) machine
          ((value (type.word (state.layout.operand machine 0))).setWidth 64)) after parts := by
  obtain ⟨other, fits, _⟩ := @exists_spare result.regClass [] (by decide)
  have room := ready.room
  refine ready.operand fun src popped first _ taking => ?_
  refine .bind ((taking.take fits (RegSet.has_empty other)).mono ?_)
  rintro dst taken second ⟨suits, _, free, _, _, taking⟩
  refine (taking.place (fun machine => .ok ((value (type.word
    (state.layout.operand machine 0))).setWidth 64)) (by omega) valid suits free ?_).mono ?_
  · intro before machine _ known
    rw [← known.word]
    exact .of_yields (yields machine _ dst src)
  · intro _ after third realizes
    simp only [List.append_assoc] at realizes
    exact realizes

/-- The operands of an operation on two are taken off, the right one first. -/
theorem popOperands_compiles {type : ValueType} {types : List ValueType}
    (ready : Ready subject state (type :: type :: types)) :
    Compiles (popOperands type) subject state fun sides after parts =>
      Suits type.regClass sides.1 ∧ Suits type.regClass sides.2 ∧ after.stubs = state.stubs ∧
        Taking subject state (state.layout.height - 2) (fun machine regs =>
          Denotes type (regs sides.1) (state.layout.operand machine 1) ∧
            Denotes type (regs sides.2) (state.layout.operand machine 0)) after parts := by
  obtain ⟨spare, suits, _⟩ := @exists_spare type.regClass [] (by decide)
  have enough := ready.enough
  simp only [List.length_cons] at enough
  have taking := ready.orderly.taking (show _ = state.layout.height - 2 + 1 + 1 by omega)
  refine .bind (ready.offers.expect ready.orderly.books rfl (.bind (ready.offers.expect
    ready.orderly.books rfl (.bind ((taking.pop (show _ + 1 + 0 = _ by omega) ready.offers suits
      (RegSet.has_empty spare) fun _ _ _ _ => id).mono ?_)))))
  rintro right popped first ⟨rightSuits, offers, firstStubs, taking⟩
  obtain ⟨other, otherSuits, apart⟩ := @exists_spare type.regClass [right] (by simp)
  have loose : (RegSet.single right).has other = false := by
    simpa [RegSet.has_single] using fun _ => apart right
  refine .bind ((taking.pop (show _ + 1 + 1 = _ by omega) offers otherSuits loose ?_).mono ?_)
  · intro machine before after kept known
    have machine := Register.isMachine_of_isAllocable rightSuits.1
    rw [kept right (by simp [RegSet.has_single, machine])]
    exact known
  · rintro left after second ⟨leftSuits, _, secondStubs, taking⟩
    refine .pure ⟨leftSuits, rightSuits, secondStubs.trans firstStubs, ?_⟩
    simpa [and_comm] using taking

theorem lowerBinary_compiles {type result : ValueType}
    {action : Register → Register → Register → Compile (List Step)}
    {steps : Layout → Register → Register → Register → List Step}
    {value : BitVec type.bits → BitVec type.bits → BitVec result.bits}
    (ready : Ready subject state [type, type]) (valid : result.isValid = true)
    (reads : ∀ dst left right after,
      action dst left right subject after = .ok (steps after.layout dst left right) after)
    (yields : ∀ (machine : Processor) (layout : Layout) dst left right, layout.Sound →
      Suits result.regClass dst → Suits type.regClass left → Suits type.regClass right →
      machine.Yields layout.Loose (steps layout dst left right) dst
        ((value (type.word (machine.regs left)) (type.word (machine.regs right))).setWidth 64)) :
    Compiles (lowerBinary type result action) subject state fun _ after parts =>
      Realizes subject state (fun machine =>
        replaced state.layout (state.layout.height - 2) machine
          ((value (type.word (state.layout.operand machine 1))
            (type.word (state.layout.operand machine 0))).setWidth 64)) after parts := by
  obtain ⟨other, fits, _⟩ := @exists_spare result.regClass [] (by decide)
  have room := ready.room
  refine .bind ((popOperands_compiles ready).mono ?_)
  rintro ⟨left, right⟩ popped first ⟨leftSuits, rightSuits, _, taking⟩
  refine .bind ((taking.take fits (RegSet.has_empty other)).mono ?_)
  rintro dst taken second ⟨suits, _, free, _, _, taking⟩
  have look : Compiles (action dst left right) subject taken fun found after parts =>
      found = steps taken.layout dst left right ∧ taken = after ∧ [] = parts :=
    .silent ⟨_, _, reads dst left right taken, rfl, rfl, rfl, rfl⟩
  refine .bind (look.mono ?_)
  rintro found after third ⟨rfl, rfl, rfl⟩
  refine (taking.place (fun machine => .ok ((value (type.word (state.layout.operand machine 1))
    (type.word (state.layout.operand machine 0))).setWidth 64)) (by omega) valid suits free ?_).mono ?_
  · intro before machine _ known
    rw [← known.1.word, ← known.2.word]
    exact .of_yields (yields machine taken.layout dst left right taking.orderly.books.sound suits
      leftSuits rightSuits)
  · intro _ after third realizes
    simp only [List.append_assoc] at realizes
    exact realizes

end Compile

end WasmX64
