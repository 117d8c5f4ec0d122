import WasmX64.Proofs.Transfer.Moves

/-!
# Recording a transfer

A transfer between two layouts is a list of passages, each from a slot of the
source to a slot of the target.  Recording a passage writes frame slots at once and
notes down moves and loads; `Recorded` says what has been written and noted.
-/

/-!
## Executing a transfer

The moves, then the loads.  Together they act like one simultaneous assignment:
every target of a move holds what its source held at the start, every target of a
load its constant or frame slot, and all other registers and the frame slots below
the spill area are untouched.
-/

namespace WasmX64

namespace Load

/-- What a load brings into its register. -/
def value (machine : Processor) : Load → BitVec 64
  | .const type value => type.clip (Slot.constBits type value).toBitVec
  | .slot type index => type.clip (machine.slotWord index.toNat)

theorem value_congr {left right : Processor} (memory : left.memory = right.memory)
    (pointer : left.regs .rbp = right.regs .rbp) (load : Load) :
    value left load = value right load := by
  cases load with
  | const type value => rfl
  | slot type index => simp [value, Processor.slotWord, Processor.slotAt, memory, pointer]

theorem Ready.mono {few many : Nat} {target : Register} {load : Load}
    (ready : Ready few target load) (fewer : few ≤ many) : Ready many target load := by
  cases load with
  | const type value => exact ready
  | slot type index =>
    obtain ⟨suits, place, same, small⟩ := ready
    exact ⟨suits, place, same, by omega⟩

def steps (target : Register) : Load → List Step
  | .const type value => Sequence.loadConstant type target (Slot.constBits type value)
  | .slot type index => Sequence.fill type target index

theorem runs {target : Register} {load : Load} (ready : Ready frameLimit target load)
    (machine : Processor) :
    ∃ instructions after, Runs (load.steps target) machine after instructions ∧
      after.memory = machine.memory ∧
      after.regs = (machine.setReg target (load.value machine)).regs := by
  cases load with
  | const type value => exact Sequence.loadConstant_runs ready.1 ready.2 value machine
  | slot type index =>
    obtain ⟨suits, place, rfl, small⟩ := ready
    obtain ⟨instructions, runs⟩ := Sequence.fill_runs suits small machine
    exact ⟨instructions, _, runs, rfl, rfl⟩

end Load

namespace Transfer

/-- How far the loads of `initial` have been run, those into `rest` being left. -/
structure Loading (initial : Transfer) (start : Processor) (rest : List Register)
    (transfer : Transfer) (machine : Processor) : Prop where
  loads : transfer.loads = initial.loads
  memory : machine.memory = start.memory
  todo : ∀ reg, reg ∈ rest → initial.loadTargets.has reg = true
  once : rest.Nodup
  loaded : ∀ reg, initial.loadTargets.has reg = true → reg ∉ rest →
    machine.regs reg = Load.value start (initial.loadInto reg)
  others : ∀ reg, initial.loadTargets.has reg = false ∨ reg ∈ rest →
    machine.regs reg = start.regs reg

theorem Loading.step {initial transfer emitted : Transfer} {start machine next : Processor}
    {target : Register} {rest : List Register}
    (loading : Loading initial start (target :: rest) transfer machine)
    (loads : emitted.loads = transfer.loads) (memory : next.memory = machine.memory)
    (regs : next.regs =
      (machine.setReg target (Load.value start (initial.loadInto target))).regs) :
    Loading initial start rest emitted next := by
  have once := List.nodup_cons.mp loading.once
  have regsOf : ∀ reg, next.regs reg =
      if reg = target then Load.value start (initial.loadInto target)
      else machine.regs reg := by
    intro reg
    rw [regs, Processor.regs_setReg]
  constructor
  case loads => rw [loads, loading.loads]
  case memory => rw [memory, loading.memory]
  case todo => exact fun reg member => loading.todo reg (List.mem_cons_of_mem _ member)
  case once => exact once.2
  case loaded =>
    intro reg has done
    rw [regsOf]
    by_cases same : reg = target
    · rw [if_pos same, same]
    · rw [if_neg same]
      refine loading.loaded reg has ?_
      intro member
      rcases List.mem_cons.mp member with equality | later
      · exact same equality
      · exact done later
  case others =>
    intro reg outside
    have different : reg ≠ target := by
      rintro rfl
      rcases outside with unloaded | member
      · rw [loading.todo reg List.mem_cons_self] at unloaded
        cases unloaded
      · exact once.1 member
    rw [regsOf, if_neg different]
    refine loading.others reg ?_
    rcases outside with unloaded | member
    · exact .inl unloaded
    · exact .inr (List.mem_cons_of_mem _ member)

end Transfer

namespace TransferM

open Transfer

variable {initial : Transfer} {start : Processor} {code : Code} {entry : Processor}

/-- One round of the loop over the loads. -/
def loadRound (target : Register) (_ : PUnit) : TransferM (ForInStep PUnit) := do
  match (← get).loadInto target with
  | .const type value =>
    modify (·.emit (Sequence.loadConstant type target (Slot.constBits type value)))
    return .yield PUnit.unit
  | .slot type index =>
    modify (·.emit (Sequence.fill type target index))
    return .yield PUnit.unit

theorem runLoads_loads
    (ready : ∀ target, initial.loadTargets.has target = true →
      Load.Ready frameLimit target (initial.loadInto target))
    (framePointer : initial.loadTargets.has .rbp = false)
    (reached : Reached code entry initial start) :
    ∃ after final, runLoads initial = .ok () after ∧ Reached code entry after final ∧
      Loading initial start [] initial final ∧
      after.output.frameSlots = initial.output.frameSlots := by
  obtain ⟨middle, loops, final, middleReached, loading, frame⟩ :=
    EStateM.forIn_keeps initial.loadTargets.toList loadRound
      (fun rest transfer => ∃ machine, Reached code entry transfer machine ∧
        Loading initial start rest transfer machine ∧
        transfer.output.frameSlots = initial.output.frameSlots)
      (by
        rintro target rest transfer ⟨machine, reached, loading, frame⟩
        have has := loading.todo target List.mem_cons_self
        have same : transfer.loadInto target = initial.loadInto target := by
          simp [Transfer.loadInto, loading.loads]
        have pointer := loading.others .rbp (.inl framePointer)
        obtain ⟨instructions, next, runs, memory, regs⟩ :=
          Load.runs (ready target has) machine
        rw [Load.value_congr loading.memory pointer] at regs
        refine ⟨transfer.emit (Load.steps target (initial.loadInto target)), ?_, next,
          reached.emit runs, loading.step rfl memory regs, frame⟩
        rw [loadRound, EStateM.bind_ok (EStateM.get_run _), same]
        cases initial.loadInto target <;> rfl)
      ⟨start, reached, by
        refine ⟨rfl, rfl, fun reg member => RegSet.mem_toList.mp member,
          RegSet.nodup_toList _, ?_, fun _ _ => rfl⟩
        intro reg has outside
        exact absurd (RegSet.mem_toList.mpr has) outside, rfl⟩
  refine ⟨{ middle with loadTargets := RegSet.empty }, final, ?_, middleReached.congr rfl,
    ⟨rfl, loading.memory, loading.todo, loading.once, loading.loaded, loading.others⟩, frame⟩
  rw [runLoads, EStateM.bind_ok (EStateM.get_run _)]
  exact EStateM.bind_ok loops

/-- What running a transfer from `start` leaves behind. -/
structure Executed (initial : Transfer) (base : Nat) (start final : Processor) : Prop where
  moved : ∀ target, initial.moveTargets.has target = true →
    final.regs target = Sequence.copied (initial.moveInto target).type
        (start.regs (initial.moveInto target).source) ∨
      final.regs target = (initial.moveInto target).type.clip
        (start.regs (initial.moveInto target).source)
  loaded : ∀ target, initial.loadTargets.has target = true →
    final.regs target = Load.value start (initial.loadInto target)
  others : ∀ reg, initial.moveTargets.has reg = false →
    initial.loadTargets.has reg = false → final.regs reg = start.regs reg
  memory : ∀ address, (∀ index, base ≤ index → index < base + 32 →
      8 ≤ (address - start.slotAt index).toNat) →
    final.memory address = start.memory address

/-- A transfer asks for the frame slots that it writes from a base on. -/
structure Asks (initial : Transfer) (base : Nat) (start : Processor) (after : Transfer)
    (final : Processor) : Prop where
  grows : initial.output.frameSlots ≤ after.output.frameSlots
  memory : ∀ address, (∀ index, base ≤ index → index < base + 32 →
      (index : Int) < after.output.frameSlots → 8 ≤ (address - start.slotAt index).toNat) →
    final.memory address = start.memory address

theorem execute_executes {base : Nat} (ready : initial.Ready base)
    (reached : Reached code entry initial start) :
    ∃ after final, execute initial = .ok () after ∧ Reached code entry after final ∧
      Executed initial base start final ∧ Asks initial base start after final := by
  obtain ⟨middle, between, broken, moves, middleReached, progress, noneLeft, _, below, need⟩ :=
    runMoves_progress ready.movable reached
  have room := ready.room
  have unmoved : ∀ target, initial.moveTargets.has target = false →
      middle.loadTargets.has target = initial.loadTargets.has target ∧
        middle.loadInto target = initial.loadInto target :=
    fun target unrecorded => (progress.others target unrecorded).2
  have loadsReady : ∀ target, middle.loadTargets.has target = true →
      Load.Ready frameLimit target (middle.loadInto target) := by
    intro target has
    cases recorded : initial.moveTargets.has target with
    | false =>
      rw [(unmoved target recorded).1] at has
      rw [(unmoved target recorded).2]
      exact (ready.loads target has).mono (by omega)
    | true =>
      rcases progress.finished target recorded (noneLeft target) with
        ⟨unloaded, _⟩ | ⟨_, index, _, indexBelow, load, _⟩
      · rw [has] at unloaded
        cases unloaded
      · rw [load]
        exact ⟨ready.target target recorded, index, rfl, by omega⟩
  have pointer : middle.loadTargets.has .rbp = false := by
    rw [(unmoved .rbp ready.framePointer.1).1]
    exact ready.framePointer.2
  obtain ⟨after, final, loads, afterReached, loading, frame⟩ :=
    runLoads_loads loadsReady pointer middleReached
  have asked : initial.output.frameSlots ≤ after.output.frameSlots ∧
      (broken ≠ [] → ((base + broken.length : Nat) : Int) ≤ after.output.frameSlots) := by
    rw [frame, need]
    split
    · exact ⟨Int.le_refl _, fun some => absurd ‹_› some⟩
    · exact ⟨Int.le_max_left _ _, fun _ => by omega⟩
  refine ⟨after, final, ?_, afterReached, ⟨?moved, ?loaded, ?others, ?memory⟩, asked.1, ?slots⟩
  · rw [execute, EStateM.bind_ok moves]
    exact loads
  case moved =>
    intro target recorded
    rcases progress.finished target recorded (noneLeft target) with
      ⟨unloaded, value⟩ | ⟨has, index, _, _, load, value⟩
    · left
      rw [loading.others target (.inl unloaded), value]
    · right
      rw [loading.loaded target has (by simp), load]
      exact value
  case loaded =>
    intro target has
    have unrecorded : initial.moveTargets.has target = false := by
      cases recorded : initial.moveTargets.has target with
      | false => rfl
      | true =>
        rw [ready.apart target recorded] at has
        cases has
    obtain ⟨sameHas, sameLoad⟩ := unmoved target unrecorded
    rw [loading.loaded target (sameHas.trans has) (by simp), sameLoad]
    have low := ready.loads target has
    cases load : initial.loadInto target with
    | const type value => rfl
    | slot type index =>
      rw [load] at low
      obtain ⟨_, place, rfl, placeBelow⟩ := low
      have same : between.slotWord place = start.slotWord place :=
        Processor.slotWord_of_untouched (progress.others .rbp ready.framePointer.1).1
          placeBelow (by omega) (by omega) progress.memory
      simp [Load.value, same]
  case others =>
    intro reg unrecorded unloaded
    obtain ⟨sameHas, _⟩ := unmoved reg unrecorded
    rw [loading.others reg (.inl (sameHas.trans unloaded))]
    exact (progress.others reg unrecorded).1
  case memory =>
    intro address apart
    rw [loading.memory]
    exact progress.memory address fun index low high => apart index low (by omega)
  case slots =>
    intro address apart
    rw [loading.memory]
    refine progress.memory address fun index low high => apart index low (by omega) ?_
    have some : broken ≠ [] := by
      rintro rfl
      rw [List.length_nil] at high
      omega
    have := asked.2 some
    omega

end TransferM

end WasmX64

/-! ## Passages -/

namespace WasmX64

/-- A slot of a target layout and the slot of the source layout whose value it takes
over. -/
structure Passage where
  target : Slot
  source : Slot
  targetIndex : Nat
  sourceIndex : Nat
deriving DecidableEq

/-- A slot that the compiler keeps: of a value type, in a place that suits it, constant
only if an integer. -/
structure Slot.Proper (slot : Slot) : Prop where
  valid : slot.type.isValid = true
  fits : slot.Fits
  integer : ∀ value, slot.place = .const value → slot.type.isInteger = true
  known : ∀ code, slot.place ≠ .unknown code

def Processor.slotValue (machine : Processor) (slot : Slot) (index : Nat) : BitVec 64 :=
  match slot.place with
  | .frame => slot.type.clip (machine.slotWord index)
  | .reg reg => slot.type.clip (machine.regs reg)
  | .const value => slot.type.clip (Slot.constBits slot.type value).toBitVec
  | .unknown _ => 0

theorem Slot.Proper.suits {slot : Slot} {reg : Register} (proper : slot.Proper)
    (held : slot.place = .reg reg) : Suits slot.type reg :=
  ⟨proper.valid, Register.isMachine_of_isAllocable (proper.fits reg held).1,
    (proper.fits reg held).2⟩

namespace Passage

/-- The passage has to write a frame slot. -/
def Writes (passage : Passage) : Prop :=
  passage.target.place = .frame ∧
    ¬ (passage.source.place = .frame ∧ passage.targetIndex = passage.sourceIndex)

/-- The load a passage from a frame slot or a constant asks for. -/
def load? (passage : Passage) : Option Load :=
  match passage.source.place with
  | .frame => some (.slot passage.source.type passage.sourceIndex)
  | .const value => some (.const passage.source.type value)
  | _ => none

/-- Two passages bring the same value. -/
def Agrees (machine : Processor) (left right : Passage) : Prop :=
  (left.source.type = right.source.type ∧
    machine.slotValue left.source left.sourceIndex =
      machine.slotValue right.source right.sourceIndex) ∨
  (machine.slotValue left.source left.sourceIndex = 0 ∧
    machine.slotValue right.source right.sourceIndex = 0)

/-- The two ends of a passage fit together. -/
structure Sound (passage : Passage) : Prop where
  target : passage.target.Proper
  source : passage.source.Proper
  type : passage.target.type = passage.source.type
  const : ∀ value, passage.target.place = .const value → passage.source.place = .const value

end Passage

/-- Passages that one transfer can carry out: no frame slot is written that another
passage reads, and passages into one register bring one value from one place. -/
structure Passable (limit : Nat) (machine : Processor) (passages : List Passage) : Prop where
  sound : ∀ passage ∈ passages, passage.Sound
  below : ∀ passage ∈ passages, (passage.target.place = .frame → passage.targetIndex < limit) ∧
    (passage.source.place = .frame → passage.sourceIndex < limit)
  apart : ∀ left ∈ passages, ∀ right ∈ passages, left.target.place = .frame →
    left.targetIndex = right.targetIndex ∨ left.targetIndex = right.sourceIndex →
    left = right
  once : passages.Nodup
  shared : ∀ left ∈ passages, ∀ right ∈ passages, ∀ reg,
    left.target.place = .reg reg → right.target.place = .reg reg →
    left = right ∨
    (∃ own, left.source.place = .reg own ∧ right.source.place = .reg own) ∨
    (left.source.place = .frame ∧ right.source.place = .frame ∧ left.Agrees machine right)

structure Recorded (start : Processor) (base : Nat) (done : List Passage)
    (transfer : Transfer) (machine : Processor) : Prop where
  regs : ∀ reg, reg ≠ .r10 → reg ≠ .xmm15 → machine.regs reg = start.regs reg
  written : ∀ passage ∈ done, passage.target.place = .frame →
    passage.target.type.clip (machine.slotWord passage.targetIndex) =
      start.slotValue passage.source passage.sourceIndex
  memory : ∀ address,
    (∀ passage ∈ done, passage.Writes →
      8 ≤ (address - start.slotAt passage.targetIndex).toNat) →
    machine.memory address = start.memory address
  moves : ∀ reg, transfer.moveTargets.has reg = true ↔
    ∃ passage ∈ done, passage.target.place = .reg reg ∧
      ∃ own, passage.source.place = .reg own ∧ reg ≠ own
  move : ∀ passage ∈ done, ∀ reg own, passage.target.place = .reg reg →
    passage.source.place = .reg own → reg ≠ own →
    (transfer.moveInto reg).source = own ∧ Suits (transfer.moveInto reg).type reg ∧
    (passage.source.type.is64 = true → (transfer.moveInto reg).type.is64 = true)
  counted : transfer.ReadersCounted
  loads : ∀ reg, transfer.loadTargets.has reg = true →
    ∃ passage ∈ done, passage.target.place = .reg reg ∧
      passage.load? = some (transfer.loadInto reg)
  loaded : ∀ passage ∈ done, ∀ reg, passage.target.place = .reg reg →
    passage.load?.isSome → transfer.loadTargets.has reg = true
  slotWrites : ∀ index ∈ transfer.slotWrites,
    ∃ passage ∈ done, passage.Writes ∧ index = passage.targetIndex
  slotReads : ∀ index ∈ transfer.slotReads,
    ∃ passage ∈ done, (∃ reg, passage.target.place = .reg reg) ∧
      passage.source.place = .frame ∧ index = passage.sourceIndex
  spillBase : transfer.spillBase = base

theorem forall_mem_snoc {α : Type} {property : α → Prop} {list : List α} {last : α} :
    (∀ value ∈ list ++ [last], property value) ↔
      (∀ value ∈ list, property value) ∧ property last := by
  simp [or_imp, forall_and]

theorem exists_mem_snoc {α : Type} {property : α → Prop} {list : List α} {last : α} :
    (∃ value ∈ list ++ [last], property value) ↔
      (∃ value ∈ list, property value) ∨ property last := by
  simp [or_and_right, exists_or]

section Recording

variable {start machine : Processor} {base : Nat} {done rest : List Passage}
  {passage : Passage} {transfer : Transfer}

theorem Passable.fresh (passable : Passable base start (done ++ passage :: rest)) :
    passage ∉ done := by
  intro member
  have once := (List.nodup_append.mp passable.once).2.2
  exact once passage member passage List.mem_cons_self rfl

theorem Passable.member (_ : Passable base start (done ++ passage :: rest)) :
    passage ∈ done ++ passage :: rest := by
  simp

theorem Passable.unwritten (passable : Passable base start (done ++ passage :: rest))
    {earlier : Passage} (before : earlier ∈ done) :
    (earlier.target.place = .frame → earlier.targetIndex ≠ passage.targetIndex ∧
      earlier.targetIndex ≠ passage.sourceIndex) ∧
    (passage.target.place = .frame → passage.targetIndex ≠ earlier.sourceIndex) := by
  have inside : earlier ∈ done ++ passage :: rest := List.mem_append_left _ before
  have different : earlier ≠ passage := by
    rintro rfl
    exact passable.fresh before
  refine ⟨fun framed => ⟨fun same => ?_, fun same => ?_⟩, fun framed same => ?_⟩
  · exact different (passable.apart earlier inside passage passable.member framed (.inl same))
  · exact different (passable.apart earlier inside passage passable.member framed (.inr same))
  · exact different
      (passable.apart passage passable.member earlier inside framed (.inr same)).symm

namespace Recorded

theorem slotAt_eq (recorded : Recorded start base done transfer machine) (index : Nat) :
    machine.slotAt index = start.slotAt index := by
  unfold Processor.slotAt
  rw [recorded.regs .rbp (by decide) (by decide)]

theorem slotWord_eq (recorded : Recorded start base done transfer machine)
    {index : Nat} (small : index < frameLimit) (other : ∀ earlier ∈ done, earlier.Writes →
      earlier.targetIndex < frameLimit ∧ earlier.targetIndex ≠ index) :
    machine.slotWord index = start.slotWord index := by
  unfold Processor.slotWord
  rw [recorded.slotAt_eq]
  apply ByteMemory.read_congr
  intro offset inside
  refine recorded.memory _ fun earlier before writes => ?_
  obtain ⟨below, different⟩ := other earlier before writes
  exact start.slotAt_apart below small different.symm inside

theorem nil {transfer : Transfer} (moves : transfer.moveTargets = RegSet.empty)
    (reads : transfer.reads = Vector.replicate 32 0)
    (loads : transfer.loadTargets = RegSet.empty) (writes : transfer.slotWrites = [])
    (slotReads : transfer.slotReads = []) (spillBase : transfer.spillBase = base) :
    Recorded start base [] transfer start := by
  constructor
  case regs => exact fun _ _ _ => rfl
  case memory => exact fun _ _ => rfl
  case counted =>
    intro reg regMachine
    have small := Register.code_lt_of_isMachine regMachine
    have empty : RegSet.empty.toList = [] := by decide
    simp [Transfer.readers, Transfer.pendingReaders, moves, reads, empty,
      Vector.toArray_replicate, small]
  case spillBase => exact spillBase
  all_goals simp_all

theorem skip (recorded : Recorded start base done transfer machine)
    (settled : passage.target.place = .frame →
      passage.target.type.clip (machine.slotWord passage.targetIndex) =
        start.slotValue passage.source passage.sourceIndex)
    (kept : ∀ reg, passage.target.place = .reg reg → passage.source.place = .reg reg) :
    Recorded start base (done ++ [passage]) transfer machine := by
  have unloaded : ∀ reg, passage.target.place = .reg reg → passage.load? = none := by
    intro reg held
    simp [Passage.load?, kept reg held]
  constructor
  case regs => exact recorded.regs
  case written => exact forall_mem_snoc.mpr ⟨recorded.written, settled⟩
  case memory =>
    intro address apart
    exact recorded.memory address (forall_mem_snoc.mp apart).1
  case moves =>
    intro reg
    rw [exists_mem_snoc, recorded.moves]
    constructor
    · exact .inl
    · rintro (before | ⟨held, own, ownHeld, different⟩)
      · exact before
      · rw [kept reg held] at ownHeld
        cases ownHeld
        exact absurd rfl different
  case move =>
    refine forall_mem_snoc.mpr ⟨recorded.move, ?_⟩
    intro reg own held ownHeld different
    rw [kept reg held] at ownHeld
    cases ownHeld
    exact absurd rfl different
  case counted => exact recorded.counted
  case loads => exact fun reg has => exists_mem_snoc.mpr (.inl (recorded.loads reg has))
  case loaded =>
    refine forall_mem_snoc.mpr ⟨recorded.loaded, ?_⟩
    intro reg held loads
    rw [unloaded reg held] at loads
    cases loads
  case slotWrites =>
    exact fun index member => exists_mem_snoc.mpr (.inl (recorded.slotWrites index member))
  case slotReads =>
    exact fun index member => exists_mem_snoc.mpr (.inl (recorded.slotReads index member))
  case spillBase => exact recorded.spillBase

theorem write (recorded : Recorded start base done transfer machine)
    (passable : Passable base start (done ++ passage :: rest)) (room : base ≤ frameLimit)
    (writes : passage.Writes) {middle : Processor}
    (regs : ∀ reg, reg ≠ .r10 → reg ≠ .xmm15 → middle.regs reg = machine.regs reg)
    (memory : middle.memory = machine.memory) {stored : BitVec 64}
    (value : passage.source.type.clip stored =
      start.slotValue passage.source passage.sourceIndex) (output : Output) :
    Recorded start base (done ++ [passage])
      { transfer with
        output
        slotWrites := (passage.targetIndex : Int) :: transfer.slotWrites }
      (middle.store passage.source.type (middle.slotAt passage.targetIndex) stored) := by
  have small : ∀ {other}, other ∈ done ++ passage :: rest → other.target.place = .frame →
      other.targetIndex < frameLimit := fun member framed =>
    Nat.lt_of_lt_of_le ((passable.below _ member).1 framed) room
  have sameAt : ∀ index, middle.slotAt index = machine.slotAt index := by
    intro index
    simp [Processor.slotAt, regs .rbp (by decide) (by decide)]
  have sameWord : ∀ index, middle.slotWord index = machine.slotWord index := by
    intro index
    simp [Processor.slotWord, sameAt, memory]
  have unloaded : ∀ reg, passage.target.place ≠ .reg reg := by
    intro reg held
    rw [writes.1] at held
    cases held
  constructor
  case regs =>
    intro reg notScratch notVector
    rw [Processor.regs_store, regs reg notScratch notVector]
    exact recorded.regs reg notScratch notVector
  case written =>
    refine forall_mem_snoc.mpr ⟨?_, ?_⟩
    · intro earlier before framed
      have inside : earlier ∈ done ++ passage :: rest := List.mem_append_left _ before
      rw [Processor.slotWord_store_of_ne _ _ _ (small passable.member writes.1)
        (small inside framed) ((passable.unwritten before).1 framed).1, sameWord]
      exact recorded.written earlier before framed
    · intro _
      rw [(passable.sound passage passable.member).type, Processor.clip_slotWord_store]
      exact value
  case memory =>
    intro address apart
    obtain ⟨before, here⟩ := forall_mem_snoc.mp apart
    have away := here writes
    rw [← recorded.slotAt_eq, ← sameAt] at away
    rw [middle.store_memory_of_apart _ _ away, memory]
    exact recorded.memory address before
  case moves =>
    intro reg
    rw [exists_mem_snoc]
    refine (recorded.moves reg).trans ⟨.inl, ?_⟩
    rintro (before | ⟨held, _⟩)
    · exact before
    · exact absurd held (unloaded reg)
  case move =>
    refine forall_mem_snoc.mpr ⟨recorded.move, ?_⟩
    intro reg own held
    exact absurd held (unloaded reg)
  case counted => exact recorded.counted
  case loads => exact fun reg has => exists_mem_snoc.mpr (.inl (recorded.loads reg has))
  case loaded =>
    refine forall_mem_snoc.mpr ⟨recorded.loaded, ?_⟩
    intro reg held
    exact absurd held (unloaded reg)
  case slotWrites =>
    intro index member
    rw [exists_mem_snoc]
    rcases List.mem_cons.mp member with here | before
    · exact .inr ⟨writes, here⟩
    · exact .inl (recorded.slotWrites index before)
  case slotReads =>
    exact fun index member => exists_mem_snoc.mpr (.inl (recorded.slotReads index member))
  case spillBase => exact recorded.spillBase

/-- A passage from a frame slot or a constant into a register; a register that is
loaded already stays so. -/
theorem load (recorded : Recorded start base done transfer machine) {reg : Register}
    (held : passage.target.place = .reg reg) {noted : Transfer}
    (regMachine : reg.isMachine = true) {load : Load} (asked : passage.load? = some load)
    (moveTargets : noted.moveTargets = transfer.moveTargets)
    (moves : noted.moves = transfer.moves) (reads : noted.reads = transfer.reads)
    (targets : noted.loadTargets = transfer.loadTargets.insert reg)
    (into : ∀ other, noted.loadInto other =
      if other = reg ∧ transfer.loadTargets.has reg = false then load
      else transfer.loadInto other)
    (writes : noted.slotWrites = transfer.slotWrites)
    (slotReads : ∀ index ∈ noted.slotReads, index ∈ transfer.slotReads ∨
      passage.source.place = .frame ∧ index = passage.sourceIndex)
    (spillBase : noted.spillBase = transfer.spillBase) :
    Recorded start base (done ++ [passage]) noted machine := by
  have sourceElse : ∀ own, passage.source.place ≠ .reg own := by
    intro own place
    simp [Passage.load?, place] at asked
  have hasNoted : ∀ other, noted.loadTargets.has other =
      (transfer.loadTargets.has other || decide (other = reg)) := by
    intro other
    rw [targets]
    simp [regMachine]
  constructor
  case regs => exact recorded.regs
  case written =>
    refine forall_mem_snoc.mpr ⟨recorded.written, ?_⟩
    intro framed
    rw [held] at framed
    cases framed
  case memory =>
    intro address apart
    exact recorded.memory address (forall_mem_snoc.mp apart).1
  case moves =>
    intro other
    rw [exists_mem_snoc, moveTargets]
    refine (recorded.moves other).trans ⟨.inl, ?_⟩
    rintro (before | ⟨_, own, place, _⟩)
    · exact before
    · exact absurd place (sourceElse own)
  case move =>
    refine forall_mem_snoc.mpr ⟨?_, ?_⟩
    · intro earlier before other own
      rw [Transfer.moveInto_congr moves]
      exact recorded.move earlier before other own
    · intro other own _ place
      exact absurd place (sourceElse own)
  case counted =>
    intro other otherMachine
    have before := recorded.counted other otherMachine
    simpa [Transfer.readers, Transfer.pendingReaders, Transfer.moveInto, reads, moveTargets,
      moves] using before
  case loads =>
    intro other has
    rw [hasNoted] at has
    rw [exists_mem_snoc, into]
    cases already : transfer.loadTargets.has other with
    | true =>
      left
      rw [if_neg]
      · exact recorded.loads other already
      · rintro ⟨rfl, unloaded⟩
        rw [already] at unloaded
        cases unloaded
    | false =>
      right
      have same : other = reg := by simpa [already] using has
      subst same
      rw [if_pos ⟨rfl, already⟩]
      exact ⟨held, asked⟩
  case loaded =>
    refine forall_mem_snoc.mpr ⟨?_, ?_⟩
    · intro earlier before other otherHeld loads
      rw [hasNoted, recorded.loaded earlier before other otherHeld loads]
      rfl
    · intro other otherHeld _
      rw [held] at otherHeld
      cases otherHeld
      simp [hasNoted]
  case slotWrites =>
    intro index member
    rw [writes] at member
    exact exists_mem_snoc.mpr (.inl (recorded.slotWrites index member))
  case slotReads =>
    intro index member
    rw [exists_mem_snoc]
    rcases slotReads index member with before | ⟨framed, same⟩
    · exact .inl (recorded.slotReads index before)
    · exact .inr ⟨⟨reg, held⟩, framed, same⟩
  case spillBase => rw [spillBase, recorded.spillBase]

theorem between (recorded : Recorded start base done transfer machine) {reg own : Register}
    (held : passage.target.place = .reg reg) (from_ : passage.source.place = .reg own)
    (different : reg ≠ own) {noted : Transfer}
    (moveTargets : ∀ other, noted.moveTargets.has other =
      (transfer.moveTargets.has other || decide (other = reg)))
    (elsewhere : ∀ other, other ≠ reg → noted.moveInto other = transfer.moveInto other)
    (source : (noted.moveInto reg).source = own)
    (agrees : transfer.moveTargets.has reg = true → (transfer.moveInto reg).source = own)
    (suits : Suits (noted.moveInto reg).type reg)
    (widens : transfer.moveTargets.has reg = true →
      (transfer.moveInto reg).type.is64 = true → (noted.moveInto reg).type.is64 = true)
    (wide : passage.source.type.is64 = true → (noted.moveInto reg).type.is64 = true)
    (counted : noted.ReadersCounted) (loadTargets : noted.loadTargets = transfer.loadTargets)
    (loads : noted.loads = transfer.loads) (writes : noted.slotWrites = transfer.slotWrites)
    (slotReads : noted.slotReads = transfer.slotReads)
    (spillBase : noted.spillBase = transfer.spillBase) :
    Recorded start base (done ++ [passage]) noted machine := by
  have unasked : passage.load? = none := by simp [Passage.load?, from_]
  have into : ∀ other, noted.loadInto other = transfer.loadInto other := by
    intro other
    simp [Transfer.loadInto, loads]
  constructor
  case regs => exact recorded.regs
  case written =>
    refine forall_mem_snoc.mpr ⟨recorded.written, ?_⟩
    intro framed
    rw [held] at framed
    cases framed
  case memory =>
    intro address apart
    exact recorded.memory address (forall_mem_snoc.mp apart).1
  case moves =>
    intro other
    rw [exists_mem_snoc, moveTargets, ← recorded.moves, Bool.or_eq_true, decide_eq_true_eq]
    refine or_congr Iff.rfl ⟨?_, ?_⟩
    · rintro rfl
      exact ⟨held, own, from_, different⟩
    · rintro ⟨otherHeld, _⟩
      rw [held] at otherHeld
      cases otherHeld
      rfl
  case move =>
    refine forall_mem_snoc.mpr ⟨?_, ?_⟩
    · intro earlier before other otherOwn otherHeld otherFrom otherDifferent
      obtain ⟨earlierSource, earlierSuits, earlierWide⟩ :=
        recorded.move earlier before other otherOwn otherHeld otherFrom otherDifferent
      by_cases same : other = reg
      · subst same
        have has : transfer.moveTargets.has other = true := (recorded.moves other).mpr
          ⟨earlier, before, otherHeld, otherOwn, otherFrom, otherDifferent⟩
        refine ⟨?_, suits, fun is64 => widens has (earlierWide is64)⟩
        rw [source, ← agrees has]
        exact earlierSource
      · rw [elsewhere other same]
        exact ⟨earlierSource, earlierSuits, earlierWide⟩
    · intro other otherOwn otherHeld otherFrom _
      rw [held] at otherHeld
      rw [from_] at otherFrom
      cases otherHeld
      cases otherFrom
      exact ⟨source, suits, wide⟩
  case counted => exact counted
  case loads =>
    intro other has
    rw [loadTargets] at has
    rw [exists_mem_snoc, into]
    exact .inl (recorded.loads other has)
  case loaded =>
    rw [loadTargets]
    refine forall_mem_snoc.mpr ⟨recorded.loaded, ?_⟩
    intro other _ asked
    rw [unasked] at asked
    cases asked
  case slotWrites =>
    intro index member
    rw [writes] at member
    exact exists_mem_snoc.mpr (.inl (recorded.slotWrites index member))
  case slotReads =>
    intro index member
    rw [slotReads] at member
    exact exists_mem_snoc.mpr (.inl (recorded.slotReads index member))
  case spillBase => rw [spillBase, recorded.spillBase]

end Recorded

end Recording

namespace Transfer

def recordMove (transfer : Transfer) (target : Register) (move : Move) : Transfer :=
  ({ transfer with moveTargets := transfer.moveTargets.insert target }.addReaders
    move.source 1).setMove target move

variable {transfer : Transfer} {target : Register} {move : Move}

theorem moveInto_recordMove (machine : target.isMachine = true) (other : Register) :
    (transfer.recordMove target move).moveInto other =
      if other = target then move else transfer.moveInto other :=
  moveInto_setMove machine move other

theorem readers_recordMove (machine : move.source.isMachine = true) (other : Register) :
    (transfer.recordMove target move).readers other =
      if other = move.source then transfer.readers move.source + 1
      else transfer.readers other :=
  readers_addReaders machine 1 other

theorem pendingReaders_recordMove (machine : target.isMachine = true)
    (fresh : transfer.moveTargets.has target = false) (reg : Register) :
    (transfer.recordMove target move).pendingReaders reg =
      transfer.pendingReaders reg + if move.source = reg then 1 else 0 := by
  have erased : (transfer.moveTargets.insert target).erase target =
      transfer.moveTargets := by
    apply RegSet.ext
    intro other
    by_cases same : other = target
    · simp [same, fresh]
    · simp [same]
  have member : (transfer.moveTargets.insert target).has target = true := by simp [machine]
  have members := RegSet.toList_erase_perm member
  rw [erased] at members
  have counts := members.countP_eq fun other =>
    decide (((transfer.recordMove target move).moveInto other).source = reg)
  have others : transfer.moveTargets.toList.countP
      (fun other => ((transfer.recordMove target move).moveInto other).source = reg) =
      transfer.pendingReaders reg := by
    apply List.countP_congr
    intro other inside
    have different : other ≠ target := by
      rintro rfl
      rw [RegSet.mem_toList, fresh] at inside
      cases inside
    rw [moveInto_recordMove machine, if_neg different]
  rw [List.countP_cons, others, moveInto_recordMove machine, if_pos rfl] at counts
  simp only [decide_eq_true_eq] at counts
  exact counts

theorem ReadersCounted.recordMove (counted : transfer.ReadersCounted)
    (machine : target.isMachine = true) (sourceMachine : move.source.isMachine = true)
    (fresh : transfer.moveTargets.has target = false) :
    (transfer.recordMove target move).ReadersCounted := by
  intro reg regMachine
  have before := counted reg regMachine
  rw [readers_recordMove sourceMachine, pendingReaders_recordMove machine fresh]
  by_cases same : move.source = reg
  · subst same
    rw [if_pos rfl, if_pos rfl]
    omega
  · rw [if_neg same, if_neg fun equality => same equality.symm]
    omega

theorem ReadersCounted.widen (counted : transfer.ReadersCounted)
    (machine : target.isMachine = true) (type : ValueType) :
    (transfer.setMove target { transfer.moveInto target with type }).ReadersCounted := by
  have sources : ∀ other,
      ((transfer.setMove target { transfer.moveInto target with type }).moveInto
        other).source = (transfer.moveInto other).source := by
    intro other
    rw [moveInto_setMove machine]
    by_cases same : other = target
    · rw [if_pos same, same]
    · rw [if_neg same]
  intro reg regMachine
  have before := counted reg regMachine
  unfold pendingReaders at before ⊢
  simp only [sources]
  exact before

end Transfer

namespace TransferM

open Transfer

theorem moveRegister_new {transfer : Transfer} {target source : Register} {type : ValueType}
    (machine : target.isMachine = true) (sourceMachine : source.isMachine = true)
    (fresh : transfer.moveTargets.has target = false) :
    moveRegister target source type transfer =
      .ok () (transfer.recordMove target ⟨source, type⟩) := by
  rw [moveRegister]
  simp only [EStateM.bind_run, EStateM.get_run, EStateM.modify_run, EStateM.ite_run,
    EStateM.pure_run, demand, fresh, machine, sourceMachine, Bool.not_true,
    Bool.false_eq_true, if_false]
  rfl

theorem moveRegister_again {transfer : Transfer} {target source : Register}
    {type : ValueType} (recorded : transfer.moveTargets.has target = true)
    (same : (transfer.moveInto target).source = source) :
    moveRegister target source type transfer =
      .ok () (if type.is64 then
        transfer.setMove target { transfer.moveInto target with type } else transfer) := by
  have agrees : ¬ ((transfer.moveInto target).source ≠ source) := by simp [same]
  rw [moveRegister]
  simp only [EStateM.bind_run, EStateM.get_run, EStateM.modify_run, EStateM.ite_run,
    EStateM.pure_run, recorded, agrees, if_true, if_false]
  cases type.is64 <;> rfl

theorem loadSlot_again {transfer : Transfer} {target : Register} {type : ValueType}
    {index : Int} (unwritten : index ∉ transfer.slotWrites)
    (loaded : transfer.loadTargets.has target = true) :
    loadSlot target index type transfer =
      .ok () { transfer with slotReads := index :: transfer.slotReads } := by
  have notWritten : transfer.slotWrites.contains index = false := by
    simpa using unwritten
  rw [loadSlot]
  simp only [EStateM.bind_run, EStateM.get_run, EStateM.modify_run, EStateM.ite_run,
    EStateM.pure_run, notWritten, loaded, Bool.false_eq_true, if_false, if_true]

theorem loadConst_run {transfer : Transfer} {target : Register} {type : ValueType}
    {value : Int32} (machine : target.isMachine = true)
    (unloaded : transfer.loadTargets.has target = false) :
    loadConst target type value transfer =
      .ok () ({ transfer with loadTargets := transfer.loadTargets.insert target }.setLoad
        target (.const type value)) := by
  rw [loadConst]
  simp only [EStateM.bind_run, EStateM.get_run, EStateM.modify_run, EStateM.ite_run,
    EStateM.pure_run, demand, unloaded, machine, Bool.not_true, Bool.false_eq_true,
    if_false]

end TransferM

end WasmX64
