import WasmX64.Proofs.Processor.Lanes
import WasmX64.Proofs.Transfer.Record

/-!
# Parallel moves

Any set of register moves and loads into different registers, recorded one by one and then
executed, acts like one simultaneous assignment.  The moves may form chains, trees and cycles;
the loads may go to registers that moves read.  A cycle takes one frame slot.
-/

namespace WasmX64

namespace Load

def type : Load → ValueType
  | .const type _ => type
  | .slot type _ => type

/-- A load that goes through the scratch register unless its bits are simple ones. -/
def isFloatConst : Load → Bool
  | .const type _ => type.isFloat
  | .slot _ _ => false

/-- A load that can be carried out, from a slot below a limit if from one. -/
def Possible (limit : Nat) (target : Register) : Load → Prop
  | .const type _ => Suits type target
  | .slot type index => Suits type target ∧ 0 ≤ index ∧ index < limit

instance (limit : Nat) (target : Register) (load : Load) : Decidable (load.Possible limit target) :=
  match load with
  | .const _ _ => inferInstanceAs (Decidable (Suits _ _))
  | .slot _ _ => inferInstanceAs (Decidable (_ ∧ _))

theorem Possible.mono {few many : Nat} {target : Register} {load : Load}
    (possible : Possible few target load) (fewer : few ≤ many) : Possible many target load := by
  cases load with
  | const type value => exact possible
  | slot type index =>
    obtain ⟨suits, above, small⟩ := possible
    exact ⟨suits, above, by omega⟩

theorem operates {target : Register} {load : Load} (possible : Possible frameLimit target load)
    (machine : Processor) :
    ∃ instructions after, Sequence.Operates (load.steps target) machine after instructions ∧
      after.memory = machine.memory ∧
      load.type.clip (after.regs target) = load.value machine ∧
      ∀ other, other ≠ target → (load.isFloatConst = true → other ≠ .r10) →
        after.regs other = machine.regs other := by
  cases load with
  | const type value =>
    obtain ⟨instructions, after, runs, loaded⟩ :=
      Sequence.loadConstant_operates possible (Slot.constBits type value) machine
    exact ⟨instructions, after, runs, loaded.memory, loaded.value, loaded.others⟩
  | slot type index =>
    obtain ⟨suits, above, small⟩ := possible
    obtain ⟨place, rfl⟩ := Int.eq_ofNat_of_zero_le above
    have below : place < frameLimit := by omega
    obtain ⟨instructions, runs⟩ := Sequence.fill_runs suits below machine
    refine ⟨instructions, _, .of_runs runs, rfl, ?_, fun other different _ => if_neg different⟩
    rw [Processor.regs_setReg, if_pos rfl]
    exact type.clip_clip _

end Load

namespace Transfer

/-- The code of a transfer has grown by instructions that take one machine state to another;
lanes may be compared and shifted. -/
def Achieved (code : Code) (start : Processor) (transfer : Transfer) (machine : Processor) :
    Prop :=
  ∃ instructions, code.Grows instructions transfer.output.code ∧
    start.operates instructions = some machine

theorem Reached.achieved {code : Code} {start machine : Processor} {transfer : Transfer}
    (reached : Reached code start transfer machine) : Achieved code start transfer machine := by
  obtain ⟨instructions, grows, runs⟩ := reached
  exact ⟨instructions, grows, Processor.operates_of_run runs⟩

theorem Achieved.emit {code : Code} {start machine next : Processor} {transfer : Transfer}
    {steps : List Step} {instructions : List Instruction}
    (achieved : Achieved code start transfer machine)
    (operates : Sequence.Operates steps machine next instructions) :
    Achieved code start (transfer.emit steps) next := by
  obtain ⟨earlier, grows, ran⟩ := achieved
  obtain ⟨bytes, encodes⟩ := operates.encodes
  refine ⟨earlier ++ instructions, ?_, ?_⟩
  · have placed := Code.grows_place transfer.output.code encodes
    rw [← operates.steps] at placed
    exact grows.trans placed
  · rw [Processor.operates_append, ran]
    exact operates.operates

/-- Some float constant is to be loaded. -/
def UsesScratch (transfer : Transfer) : Prop :=
  ∃ target, transfer.loadTargets.has target = true ∧ (transfer.loadInto target).isFloatConst = true

/-- How far the loads of `initial` have been run, those into `rest` being left. -/
structure Filling (initial : Transfer) (start : Processor) (rest : List Register)
    (transfer : Transfer) (machine : Processor) : Prop where
  loads : transfer.loads = initial.loads
  frame : transfer.output.frameSlots = initial.output.frameSlots
  memory : machine.memory = start.memory
  todo : ∀ reg, reg ∈ rest → initial.loadTargets.has reg = true
  once : rest.Nodup
  loaded : ∀ reg, initial.loadTargets.has reg = true → reg ∉ rest →
    (initial.UsesScratch → reg ≠ .r10) →
    (initial.loadInto reg).type.clip (machine.regs reg) = Load.value start (initial.loadInto reg)
  others : ∀ reg, initial.loadTargets.has reg = false ∨ reg ∈ rest →
    (initial.UsesScratch → reg ≠ .r10) → machine.regs reg = start.regs reg

theorem Filling.step {initial transfer emitted : Transfer} {start machine next : Processor}
    {target : Register} {rest : List Register}
    (filling : Filling initial start (target :: rest) transfer machine)
    (loads : emitted.loads = transfer.loads)
    (frame : emitted.output.frameSlots = transfer.output.frameSlots)
    (memory : next.memory = machine.memory)
    (value : (initial.loadInto target).type.clip (next.regs target) =
      Load.value start (initial.loadInto target))
    (others : ∀ other, other ≠ target →
      ((initial.loadInto target).isFloatConst = true → other ≠ .r10) →
      next.regs other = machine.regs other) :
    Filling initial start rest emitted next := by
  have once := List.nodup_cons.mp filling.once
  have has := filling.todo target List.mem_cons_self
  have same : ∀ other, other ≠ target → (initial.UsesScratch → other ≠ .r10) →
      next.regs other = machine.regs other := fun other different safe =>
    others other different fun float => safe ⟨target, has, float⟩
  constructor
  case loads => rw [loads, filling.loads]
  case frame => rw [frame, filling.frame]
  case memory => rw [memory, filling.memory]
  case todo => exact fun reg member => filling.todo reg (List.mem_cons_of_mem _ member)
  case once => exact once.2
  case loaded =>
    intro reg regHas done safe
    by_cases here : reg = target
    · rw [here]
      exact value
    · rw [same reg here safe]
      refine filling.loaded reg regHas (fun member => ?_) safe
      exact (List.mem_cons.mp member).elim here done
  case others =>
    intro reg outside safe
    have different : reg ≠ target := by
      rintro rfl
      rcases outside with unloaded | member
      · rw [has] at unloaded
        cases unloaded
      · exact once.1 member
    rw [same reg different safe]
    exact filling.others reg (outside.imp_right (List.mem_cons_of_mem _)) safe

end Transfer

namespace TransferM

open Transfer

variable {initial : Transfer} {start entry : Processor} {code : Code}

/-- Loads of every type can be run when the moves are done. -/
theorem runLoads_filling
    (possible : ∀ target, initial.loadTargets.has target = true →
      Load.Possible frameLimit target (initial.loadInto target))
    (framePointer : initial.loadTargets.has .rbp = false)
    (achieved : Achieved code entry initial start) :
    ∃ after final, runLoads initial = .ok () after ∧ Achieved code entry after final ∧
      Filling initial start [] after final := by
  obtain ⟨middle, loops, final, middleAchieved, filling⟩ :=
    EStateM.forIn_keeps initial.loadTargets.toList loadRound
      (fun rest transfer => ∃ machine, Achieved code entry transfer machine ∧
        Filling initial start rest transfer machine)
      (by
        rintro target rest transfer ⟨machine, achieved, filling⟩
        have has := filling.todo target List.mem_cons_self
        have same : transfer.loadInto target = initial.loadInto target := by
          simp [Transfer.loadInto, filling.loads]
        have pointer := filling.others .rbp (.inl framePointer) fun _ => by decide
        obtain ⟨instructions, next, operates, memory, value, others⟩ :=
          Load.operates (possible target has) machine
        rw [Load.value_congr filling.memory pointer] at value
        refine ⟨transfer.emit (Load.steps target (initial.loadInto target)), ?_, next,
          achieved.emit operates, filling.step rfl rfl memory value others⟩
        rw [loadRound, EStateM.bind_ok (EStateM.get_run _), same]
        cases initial.loadInto target <;> rfl)
      ⟨start, achieved, by
        refine ⟨rfl, rfl, rfl, fun reg member => RegSet.mem_toList.mp member,
          RegSet.nodup_toList _, ?_, fun _ _ _ => rfl⟩
        intro reg has outside
        exact absurd (RegSet.mem_toList.mpr has) outside⟩
  refine ⟨{ middle with loadTargets := RegSet.empty }, final, ?_, middleAchieved,
    ⟨filling.loads, filling.frame, filling.memory, filling.todo, filling.once, filling.loaded,
      filling.others⟩⟩
  rw [runLoads, EStateM.bind_ok (EStateM.get_run _)]
  exact EStateM.bind_ok loops

end TransferM

/-- A move into a register or a load of one, to be recorded in a transfer. -/
inductive Request where
  | copy (target : Register) (move : Move)
  | fill (target : Register) (load : Load)
deriving DecidableEq, Repr

namespace Request

/-- The register that a request fills. -/
def target : Request → Register
  | .copy target _ => target
  | .fill target _ => target

/-- The type of the value asked for. -/
def type : Request → ValueType
  | .copy _ move => move.type
  | .fill _ load => load.type

/-- The value asked for, as a machine state has it. -/
def value (machine : Processor) : Request → BitVec 64
  | .copy _ move => move.type.clip (machine.regs move.source)
  | .fill _ load => load.value machine

def record : Request → TransferM Unit
  | .copy target move => TransferM.moveRegister target move.source move.type
  | .fill target (.const type value) => TransferM.loadConst target type value
  | .fill target (.slot type index) => TransferM.loadSlot target index type

/-- Registers suit the types of their values; loads read frame slots below a limit. -/
def Possible (limit : Nat) : Request → Prop
  | .copy target move => Suits move.type target ∧ Suits move.type move.source
  | .fill target load => load.Possible limit target

instance (limit : Nat) (request : Request) : Decidable (request.Possible limit) :=
  match request with
  | .copy _ _ => inferInstanceAs (Decidable (_ ∧ _))
  | .fill target load => inferInstanceAs (Decidable (load.Possible limit target))

/-- A load of a float constant. -/
def isFloatConst : Request → Bool
  | .copy _ _ => false
  | .fill _ load => load.isFloatConst

end Request

/-- Some request moves the second register into the first. -/
def Feeds (requests : List Request) (target source : Register) : Prop :=
  ∃ type, .copy target ⟨source, type⟩ ∈ requests

def LoadsFloatConst (requests : List Request) : Prop :=
  ∃ request ∈ requests, request.isFloatConst = true

/-- The requests have been carried out at once, with `used` frame slots from `base` on as a
help.  The scratch register may be lost to the load of a float constant. -/
structure Assigned (requests : List Request) (base used : Nat) (start final : Processor) : Prop where
  delivered : ∀ request ∈ requests, (LoadsFloatConst requests → request.target ≠ .r10) →
    request.type.clip (final.regs request.target) = request.value start
  others : ∀ reg, (∀ request ∈ requests, request.target ≠ reg) →
    (LoadsFloatConst requests → reg ≠ .r10) → final.regs reg = start.regs reg
  slots : ∀ index, index < base → final.slotWord index = start.slotWord index
  memory : ∀ address, (∀ index, base ≤ index → index < base + used →
      8 ≤ (address - start.slotAt index).toNat) →
    final.memory address = start.memory address

/-- What a transfer has noted down after recording requests into different registers. -/
structure Noted (output : Output) (base : Nat) (done : List Request) (transfer : Transfer) :
    Prop where
  output : transfer.output = output
  spillBase : transfer.spillBase = base
  slotWrites : transfer.slotWrites = []
  counted : transfer.ReadersCounted
  copies : ∀ target move, .copy target move ∈ done ↔
    transfer.moveTargets.has target = true ∧ transfer.moveInto target = move
  fills : ∀ target load, .fill target load ∈ done ↔
    transfer.loadTargets.has target = true ∧ transfer.loadInto target = load

namespace Noted

variable {output : Output} {base : Nat} {done : List Request} {transfer : Transfer}

theorem nil (moves : transfer.moveTargets = RegSet.empty)
    (reads : transfer.reads = Vector.replicate 32 0)
    (loads : transfer.loadTargets = RegSet.empty) (writes : transfer.slotWrites = [])
    (spillBase : transfer.spillBase = base) : Noted transfer.output base [] transfer := by
  constructor
  case output => rfl
  case counted =>
    intro reg regMachine
    have small := Register.code_lt_of_isMachine regMachine
    have empty : RegSet.empty.toList = [] := by decide
    simp [Transfer.readers, Transfer.pendingReaders, moves, reads, empty,
      Vector.toArray_replicate, small]
  all_goals simp_all

theorem fresh (noted : Noted output base done transfer) {target : Register}
    (fresh : ∀ request ∈ done, request.target ≠ target) :
    transfer.moveTargets.has target = false ∧ transfer.loadTargets.has target = false := by
  constructor
  · by_contra has
    have before := (noted.copies target _).mpr ⟨by simpa using has, rfl⟩
    exact fresh _ before rfl
  · by_contra has
    have before := (noted.fills target _).mpr ⟨by simpa using has, rfl⟩
    exact fresh _ before rfl

theorem copy (noted : Noted output base done transfer) {target : Register} {move : Move}
    (suits : target.isMachine = true) (source : move.source.isMachine = true)
    (fresh : ∀ request ∈ done, request.target ≠ target) :
    Noted output base (done ++ [.copy target move]) (transfer.recordMove target move) := by
  constructor
  case output => exact noted.output
  case spillBase => exact noted.spillBase
  case slotWrites => exact noted.slotWrites
  case counted => exact noted.counted.recordMove suits source (noted.fresh fresh).1
  case copies =>
    intro other otherMove
    have has : (transfer.recordMove target move).moveTargets.has other =
        (transfer.moveTargets.has other || decide (other = target)) := by
      change (transfer.moveTargets.insert target).has other = _
      simp [suits]
    rw [has, Transfer.moveInto_recordMove suits, List.mem_append, noted.copies]
    by_cases here : other = target
    · subst here
      simp [(noted.fresh fresh).1, eq_comm]
    · simp [here]
  case fills =>
    intro other load
    rw [List.mem_append, noted.fills]
    simp only [List.mem_singleton, reduceCtorEq, or_false]
    rfl

theorem fill (noted : Noted output base done transfer) {target : Register} {load : Load}
    (suits : target.isMachine = true) (fresh : ∀ request ∈ done, request.target ≠ target)
    (slotReads : List Int) :
    Noted output base (done ++ [.fill target load])
      ({ transfer with
        slotReads
        loadTargets := transfer.loadTargets.insert target }.setLoad target load) := by
  constructor
  case output => exact noted.output
  case spillBase => exact noted.spillBase
  case slotWrites => exact noted.slotWrites
  case counted => exact noted.counted
  case copies =>
    intro other move
    simp only [List.mem_append, List.mem_singleton, reduceCtorEq, or_false]
    exact noted.copies other move
  case fills =>
    intro other otherLoad
    have has : (transfer.loadTargets.insert target).has other =
        (transfer.loadTargets.has other || decide (other = target)) := by
      simp [suits]
    have into : ({ transfer with
          slotReads
          loadTargets := transfer.loadTargets.insert target }.setLoad target load).loadInto other =
        if other = target then load else transfer.loadInto other :=
      Transfer.loadInto_setLoad suits load other
    change _ ↔ (transfer.loadTargets.insert target).has other = true ∧ _
    rw [has, into, List.mem_append, noted.fills]
    by_cases here : other = target
    · subst here
      simp [(noted.fresh fresh).2, eq_comm]
    · simp [here]

theorem record (noted : Noted output base done transfer) {request : Request}
    (possible : request.Possible base) (fresh : ∀ earlier ∈ done, earlier.target ≠ request.target) :
    ∃ after, request.record transfer = .ok () after ∧
      Noted output base (done ++ [request]) after := by
  have free := noted.fresh fresh
  cases request with
  | copy target move =>
    exact ⟨_, TransferM.moveRegister_new possible.1.machine possible.2.machine free.1,
      noted.copy possible.1.machine possible.2.machine fresh⟩
  | fill target load =>
    cases load with
    | const type value =>
      exact ⟨_, TransferM.loadConst_run possible.machine free.2,
        noted.fill possible.machine fresh _⟩
    | slot type index =>
      have unwritten : index ∉ transfer.slotWrites := by simp [noted.slotWrites]
      exact ⟨_, TransferM.loadSlot_run possible.1.machine unwritten free.2,
        noted.fill possible.1.machine fresh _⟩

theorem records (noted : Noted output base done transfer) {rest : List Request}
    (possible : ∀ request ∈ rest, request.Possible base)
    (apart : ((done ++ rest).map Request.target).Nodup) :
    ∃ after, rest.forM Request.record transfer = .ok () after ∧
      Noted output base (done ++ rest) after := by
  induction rest generalizing done transfer with
  | nil => exact ⟨transfer, rfl, by rwa [List.append_nil]⟩
  | cons request rest ih =>
    have whole : done ++ request :: rest = done ++ [request] ++ rest := by simp
    have fresh : ∀ earlier ∈ done, earlier.target ≠ request.target := by
      intro earlier before
      rw [List.map_append] at apart
      exact (List.nodup_append.mp apart).2.2 _ (List.mem_map_of_mem before) _
        (List.mem_map_of_mem List.mem_cons_self)
    obtain ⟨middle, first, noted⟩ :=
      noted.record (possible request List.mem_cons_self) fresh
    rw [whole] at apart ⊢
    obtain ⟨after, others, noted⟩ := ih noted
      (fun later member => possible later (List.mem_cons_of_mem _ member)) apart
    exact ⟨after, (EStateM.bind_ok first).trans others, noted⟩

/-- The noted moves can be carried out. -/
theorem movable (noted : Noted output base done transfer)
    (possible : ∀ request ∈ done, request.Possible base)
    (apart : (done.map Request.target).Nodup)
    (framePointer : ∀ request ∈ done, request.target ≠ .rbp) (room : base + 32 ≤ frameLimit) :
    transfer.Movable base := by
  have noteds : ∀ {target}, transfer.moveTargets.has target = true →
      .copy target (transfer.moveInto target) ∈ done := fun has =>
    (noted.copies _ _).mpr ⟨has, rfl⟩
  constructor
  case target => exact fun target has => (possible _ (noteds has)).1
  case source => exact fun target has => (possible _ (noteds has)).2
  case counted => exact noted.counted
  case apart =>
    intro target has
    by_contra loaded
    have other := (noted.fills target _).mpr ⟨by simpa using loaded, rfl⟩
    have same := List.inj_on_of_nodup_map apart (noteds has) other rfl
    cases same
  case framePointer =>
    exact Bool.eq_false_iff.mpr fun has => framePointer _ (noteds has) rfl
  case spillBase => exact noted.spillBase
  case written => simp [noted.slotWrites]
  case room => exact room

theorem reads_eq (noted : Noted output base done transfer) : transfer.Reads = Feeds done := by
  funext target source
  apply propext
  constructor
  · rintro ⟨has, rfl⟩
    exact ⟨(transfer.moveInto target).type, (noted.copies _ _).mpr ⟨has, rfl⟩⟩
  · rintro ⟨type, member⟩
    obtain ⟨has, into⟩ := (noted.copies _ _).mp member
    exact ⟨has, congrArg Move.source into⟩

section Running

variable {middle after : Transfer} {start between final : Processor} {slot : Nat}

theorem load_cases (noted : Noted output base done transfer)
    (progress : Transfer.Progress transfer start base slot middle between)
    (noneLeft : ∀ target, middle.moveTargets.has target = false) {target : Register}
    (has : middle.loadTargets.has target = true) :
    (transfer.moveTargets.has target = true ∧ ∃ index, index < slot ∧
      middle.loadInto target = .slot (transfer.moveInto target).type index) ∨
    .fill target (middle.loadInto target) ∈ done := by
  cases moved : transfer.moveTargets.has target with
  | true =>
    rcases progress.finished target moved (noneLeft target) with
      ⟨unloaded, _⟩ | ⟨_, index, _, below, load, _⟩
    · rw [unloaded] at has
      cases has
    · exact .inl ⟨rfl, index, below, load⟩
  | false =>
    obtain ⟨_, sameHas, sameLoad⟩ := progress.others target moved
    exact .inr ((noted.fills _ _).mpr ⟨sameHas.symm.trans has, sameLoad.symm⟩)

theorem loadsFloatConst (noted : Noted output base done transfer)
    (progress : Transfer.Progress transfer start base slot middle between)
    (noneLeft : ∀ target, middle.moveTargets.has target = false) (uses : middle.UsesScratch) :
    LoadsFloatConst done := by
  obtain ⟨target, has, float⟩ := uses
  rcases noted.load_cases progress noneLeft has with ⟨_, _, _, load⟩ | member
  · rw [load] at float
    cases float
  · exact ⟨_, member, float⟩

/-- The moves, then the loads, are one simultaneous assignment. -/
theorem assigned {used : Nat} (noted : Noted output base done transfer)
    (movable : transfer.Movable base) (possible : ∀ request ∈ done, request.Possible base)
    (few : used ≤ 32)
    (progress : Transfer.Progress transfer start base (base + used) middle between)
    (noneLeft : ∀ target, middle.moveTargets.has target = false)
    (filling : Transfer.Filling middle between [] after final)
    (pointer : final.regs .rbp = start.regs .rbp) :
    Assigned done base used start final := by
  have room := movable.room
  have scratch := noted.loadsFloatConst progress noneLeft
  have memory : ∀ address, (∀ index, base ≤ index → index < base + used →
      8 ≤ (address - start.slotAt index).toNat) → final.memory address = start.memory address :=
    fun address apart => by
      rw [filling.memory]
      exact progress.memory address apart
  constructor
  case delivered =>
    intro request member safe
    have clear : middle.UsesScratch → request.target ≠ .r10 := fun uses => safe (scratch uses)
    cases request with
    | copy target move =>
      obtain ⟨moved, rfl⟩ := (noted.copies _ _).mp member
      change (transfer.moveInto target).type.clip (final.regs target) = _
      rcases progress.finished target moved (noneLeft target) with
        ⟨unloaded, value⟩ | ⟨has, index, _, _, load, value⟩
      · rw [filling.others target (.inl unloaded) clear, value]
        exact Sequence.clip_copied _ _
      · have loaded := filling.loaded target has List.not_mem_nil clear
        rw [load] at loaded
        exact loaded.trans value
    | fill target load =>
      obtain ⟨has, rfl⟩ := (noted.fills _ _).mp member
      have unmoved : transfer.moveTargets.has target = false := by
        refine Bool.eq_false_iff.mpr fun moved => ?_
        rw [movable.apart target moved] at has
        cases has
      obtain ⟨_, sameHas, sameLoad⟩ := progress.others target unmoved
      have loaded := filling.loaded target (sameHas.trans has) List.not_mem_nil clear
      rw [sameLoad] at loaded
      refine loaded.trans ?_
      have readable := possible _ member
      change (transfer.loadInto target).value between = (transfer.loadInto target).value start
      cases load : transfer.loadInto target with
      | const type value => rfl
      | slot type index =>
        rw [load] at readable
        obtain ⟨_, above, below⟩ := readable
        obtain ⟨place, rfl⟩ := Int.eq_ofNat_of_zero_le above
        have same : between.slotWord place = start.slotWord place :=
          Processor.slotWord_of_untouched (progress.others .rbp movable.framePointer).1
            (by omega) (by omega) (by omega) progress.memory
        simp [Load.value, same]
  case others =>
    intro reg untouched clear
    have unfilled : transfer.moveTargets.has reg = false :=
      Bool.eq_false_iff.mpr fun has => untouched _ ((noted.copies _ _).mpr ⟨has, rfl⟩) rfl
    obtain ⟨same, sameHas, _⟩ := progress.others reg unfilled
    have unloaded : middle.loadTargets.has reg = false := by
      rw [sameHas]
      exact Bool.eq_false_iff.mpr fun has => untouched _ ((noted.fills _ _).mpr ⟨has, rfl⟩) rfl
    rw [filling.others reg (.inl unloaded) fun uses => clear (scratch uses), same]
  case slots =>
    intro index below
    exact Processor.slotWord_of_untouched pointer below (by omega) (by omega) memory
  case memory => exact memory

/-- What has been noted down is carried out. -/
theorem executes (noted : Noted output base done transfer)
    (possible : ∀ request ∈ done, request.Possible base)
    (apart : (done.map Request.target).Nodup)
    (framePointer : ∀ request ∈ done, request.target ≠ .rbp) (room : base + 32 ≤ frameLimit)
    (start : Processor) :
    ∃ after final broken, TransferM.execute transfer = .ok () after ∧
      Transfer.Achieved output.code start after final ∧
      Transfer.Cycles (Feeds done) broken ∧ Assigned done base broken.length start final ∧
      after.output.frameSlots = if broken = [] then output.frameSlots
        else max output.frameSlots (base + broken.length) := by
  have movable := noted.movable possible apart framePointer room
  obtain ⟨middle, between, broken, moves, reached, progress, noneLeft, cycles, few, frame⟩ :=
    TransferM.runMoves_progress movable (.refl transfer start)
  have ready : ∀ target, middle.loadTargets.has target = true →
      Load.Possible frameLimit target (middle.loadInto target) := by
    intro target has
    rcases noted.load_cases progress noneLeft has with ⟨moved, index, below, load⟩ | member
    · rw [load]
      exact ⟨movable.target target moved, by omega, by omega⟩
    · exact (possible _ member).mono (by omega)
  obtain ⟨samePointer, sameHas, sameLoad⟩ := progress.others .rbp movable.framePointer
  have pointer : middle.loadTargets.has .rbp = false := Bool.eq_false_iff.mpr fun has =>
    framePointer _ ((noted.fills _ _).mpr ⟨sameHas.symm.trans has, sameLoad.symm⟩) rfl
  obtain ⟨after, final, fills, achieved, filling⟩ :=
    TransferM.runLoads_filling ready pointer reached.achieved
  have keptPointer : final.regs .rbp = start.regs .rbp :=
    (filling.others .rbp (.inl pointer) fun _ => by decide).trans samePointer
  refine ⟨after, final, broken, ?_, noted.output ▸ achieved, noted.reads_eq ▸ cycles,
    noted.assigned movable possible few progress noneLeft filling keptPointer, ?_⟩
  · rw [TransferM.execute, EStateM.bind_ok moves]
    exact fills
  · rw [filling.frame, ← noted.output]
    exact frame

end Running

end Noted

/-- Recording moves and loads into different registers and executing them never fails, and the
code acts like one simultaneous assignment, whatever the moves are: chains, trees and cycles.
Each cycle that is broken takes one frame slot from the first free one on. -/
theorem parallel_moves_executed {output : Output} {live source : Layout} {requests : List Request}
    (distinct : (requests.map Request.target).Nodup)
    (possible : ∀ request ∈ requests, request.Possible (max live.height source.height))
    (framePointer : ∀ request ∈ requests, request.target ≠ .rbp)
    (room : max live.height source.height + 32 ≤ frameLimit) :
    ∃ after, (do requests.forM Request.record; TransferM.execute : TransferM Unit)
        (Transfer.start output live source) = .ok () after ∧
      ∀ start : Processor, ∃ instructions final broken,
        output.code.Grows instructions after.output.code ∧
        start.operates instructions = some final ∧
        Transfer.Cycles (Feeds requests) broken ∧
        Assigned requests (max live.height source.height) broken.length start final ∧
        after.output.frameSlots ≤
          max output.frameSlots (max live.height source.height + broken.length) := by
  have spillBase : (Transfer.start output live source).spillBase =
      (max live.height source.height : Nat) := by
    change max (live.height : Int) source.height = _
    omega
  have noted : Noted output (max live.height source.height) []
      (Transfer.start output live source) := .nil rfl rfl rfl rfl spillBase
  obtain ⟨middle, records, noted⟩ := noted.records possible distinct
  obtain ⟨after, _, _, executes, _⟩ :=
    noted.executes possible distinct framePointer room ⟨fun _ => 0, fun _ => 0, {}⟩
  refine ⟨after, ?_, fun start => ?_⟩
  · rw [EStateM.bind_ok records]
    exact executes
  · obtain ⟨again, final, broken, runs, ⟨instructions, grows, operates⟩, cycles, assigned, frame⟩ :=
      noted.executes possible distinct framePointer room start
    rw [executes] at runs
    cases runs
    refine ⟨instructions, final, broken, grows, operates, cycles, assigned, ?_⟩
    rw [frame]
    split
    · exact Int.le_max_left _ _
    · exact Int.le_of_eq (by omega)

/-- A cycle of two with a move off it, a cycle of three, two constants and a frame slot. -/
def tangledRequests : List Request :=
  [.copy .rax ⟨.rcx, .i64⟩, .copy .rcx ⟨.rax, .i64⟩, .copy .rdx ⟨.rax, .i64⟩,
    .copy .r8 ⟨.r9, .i64⟩, .copy .r9 ⟨.rsi, .i64⟩, .copy .rsi ⟨.r8, .i64⟩,
    .fill .rdi (.const .i32 7), .fill (.xmm 0) (.const .f64 3), .fill .rbx (.slot .i64 1)]

/-- A layout with two values in the frame. -/
def framedLayout : Layout := (Layout.push {} (.inFrame .i64)).push (.inFrame .i64)

theorem parallel_moves_executed_tangled :
    (tangledRequests.map Request.target).Nodup ∧
      (∀ request ∈ tangledRequests, request.Possible 2 ∧ request.target ≠ .rbp) ∧
      ∃ after, (do tangledRequests.forM Request.record; TransferM.execute : TransferM Unit)
          (Transfer.start {} framedLayout {}) = .ok () after ∧
        ∀ start : Processor, ∃ instructions final broken,
          Code.Grows {} instructions after.output.code ∧
          start.operates instructions = some final ∧
          Transfer.Cycles (Feeds tangledRequests) broken ∧
          Assigned tangledRequests 2 broken.length start final ∧
          after.output.frameSlots ≤ max 0 (2 + broken.length) :=
  ⟨by decide, by decide, parallel_moves_executed (by decide) (by decide) (by decide) (by decide)⟩

end WasmX64
