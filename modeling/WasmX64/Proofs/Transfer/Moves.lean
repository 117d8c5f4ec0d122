import Mathlib.Data.Finset.Card
import Mathlib.Dynamics.PeriodicPts.Lemmas
import Mathlib.Logic.Relation
import WasmX64.Proofs.Transfer.Basic

/-!
# Running the moves of a transfer

Moves run only when no pending move reads their target, and a source of a cycle
is saved in a frame slot first.  `Progress` is the invariant: sources that are still to be
read hold what they held at the start, and every finished move has either put its
value in place or left it in a frame slot with a load to come.
-/

/-!
## Who reads what

The pending moves of a transfer form a graph in which every target has one edge, to the source
of its move.  Once every target that is left has a reader, there are as many readers as targets:
each target has exactly one, and what is left are cycles.
-/

namespace WasmX64

namespace Transfer

/-- The transfer without the move into a register. -/
def retire (transfer : Transfer) (target : Register) : Transfer :=
  { transfer.addReaders (transfer.moveInto target).source (-1) with
    moveTargets := transfer.moveTargets.erase target }

/-- How many pending moves read a register. -/
def pendingReaders (transfer : Transfer) (reg : Register) : Nat :=
  transfer.moveTargets.toList.countP fun target => (transfer.moveInto target).source = reg

/-- The readers of every register are counted. -/
def ReadersCounted (transfer : Transfer) : Prop :=
  ∀ reg, reg.isMachine = true → transfer.readers reg = transfer.pendingReaders reg

theorem pendingReaders_retire (transfer : Transfer) {target : Register}
    (pending : transfer.moveTargets.has target = true) (reg : Register) :
    transfer.pendingReaders reg = (transfer.retire target).pendingReaders reg +
      if (transfer.moveInto target).source = reg then 1 else 0 := by
  have split := (RegSet.toList_erase_perm pending).countP_eq
    (fun other => decide ((transfer.moveInto other).source = reg))
  unfold pendingReaders
  rw [split, List.countP_cons]
  simp only [decide_eq_true_eq]
  rfl

theorem readers_retire (transfer : Transfer) {target : Register}
    (machine : (transfer.moveInto target).source.isMachine = true) (reg : Register) :
    (transfer.retire target).readers reg =
      if reg = (transfer.moveInto target).source then
        transfer.readers (transfer.moveInto target).source - 1
      else transfer.readers reg :=
  readers_addReaders machine (-1) reg

theorem readers_retire_of_ne (transfer : Transfer) {target reg : Register}
    (different : reg ≠ (transfer.moveInto target).source) :
    (transfer.retire target).readers reg = transfer.readers reg := by
  have apart : (transfer.moveInto target).source.code.toNat ≠ reg.code.toNat := fun equality =>
    different (Register.eq_of_toNat_eq equality.symm)
  simp [retire, addReaders, readers, Vector.toArray_setIfInBounds, apart]

theorem ReadersCounted.retire {transfer : Transfer} (counted : transfer.ReadersCounted)
    {target : Register} (pending : transfer.moveTargets.has target = true)
    (machine : (transfer.moveInto target).source.isMachine = true) :
    (transfer.retire target).ReadersCounted := by
  intro reg regMachine
  have before := counted reg regMachine
  rw [pendingReaders_retire transfer pending reg] at before
  rw [readers_retire transfer machine reg]
  by_cases same : (transfer.moveInto target).source = reg
  · subst same
    rw [if_pos rfl] at before ⊢
    omega
  · rw [if_neg same] at before
    rw [if_neg fun equality => same equality.symm]
    omega

theorem ReadersCounted.unread {transfer : Transfer} (counted : transfer.ReadersCounted)
    {reg target : Register} (machine : reg.isMachine = true)
    (none : transfer.readers reg = 0) (pending : transfer.moveTargets.has target = true) :
    (transfer.moveInto target).source ≠ reg := by
  intro reads
  have zero : transfer.pendingReaders reg = 0 := by
    have := counted reg machine
    omega
  have contrary := List.countP_eq_zero.mp zero target (RegSet.mem_toList.mpr pending)
  simp [reads] at contrary

/-- A pending move into the first register reads the second one. -/
def Reads (transfer : Transfer) (target source : Register) : Prop :=
  transfer.moveTargets.has target = true ∧ (transfer.moveInto target).source = source

/-- Only registers of a list are targets of pending moves and read by none. -/
def Idle (rest : List Register) (transfer : Transfer) : Prop :=
  ∀ target, transfer.moveTargets.has target = true → transfer.readers target = 0 → target ∈ rest

/-- Registers on cycles of moves that read one another, no two of them on the same one. -/
structure Cycles (reads : Register → Register → Prop) (regs : List Register) : Prop where
  cyclic : ∀ reg ∈ regs, Relation.TransGen reads reg reg
  apart : regs.Pairwise fun left right => ¬ Relation.TransGen reads right left

section Cycles

variable {transfer : Transfer}

theorem ReadersCounted.read (counted : transfer.ReadersCounted) {reg : Register}
    (machine : reg.isMachine = true) (some : transfer.readers reg ≠ 0) :
    ∃ target, transfer.Reads target reg := by
  have positive : 0 < transfer.pendingReaders reg := by
    have := counted reg machine
    omega
  obtain ⟨target, listed, reads⟩ := List.countP_pos_iff.mp positive
  exact ⟨target, RegSet.mem_toList.mp listed, by simpa using reads⟩

theorem ReadersCounted.sources_eq (counted : transfer.ReadersCounted) (idle : transfer.Idle []) :
    transfer.moveTargets.toList.toFinset.image (fun target => (transfer.moveInto target).source) =
      transfer.moveTargets.toList.toFinset := by
  symm
  refine Finset.eq_of_subset_of_card_le ?_ Finset.card_image_le
  intro reg member
  have pending : transfer.moveTargets.has reg = true :=
    RegSet.mem_toList.mp (List.mem_toFinset.mp member)
  have some : transfer.readers reg ≠ 0 := by
    intro none
    exact absurd (idle reg pending none) List.not_mem_nil
  obtain ⟨target, listed, reads⟩ := counted.read (RegSet.isMachine_of_has pending) some
  exact Finset.mem_image.mpr
    ⟨target, List.mem_toFinset.mpr (RegSet.mem_toList.mpr listed), reads⟩

theorem ReadersCounted.closed (counted : transfer.ReadersCounted) (idle : transfer.Idle [])
    {target source : Register} (reads : transfer.Reads target source) :
    transfer.moveTargets.has source = true := by
  have member : source ∈ transfer.moveTargets.toList.toFinset := by
    rw [← counted.sources_eq idle]
    exact Finset.mem_image.mpr
      ⟨target, List.mem_toFinset.mpr (RegSet.mem_toList.mpr reads.1), reads.2⟩
  exact RegSet.mem_toList.mp (List.mem_toFinset.mp member)

theorem ReadersCounted.cyclic (counted : transfer.ReadersCounted) (idle : transfer.Idle [])
    {target : Register} (pending : transfer.moveTargets.has target = true) :
    Relation.TransGen transfer.Reads target target := by
  let follow (reg : transfer.moveTargets.toList.toFinset) :
      transfer.moveTargets.toList.toFinset :=
    ⟨(transfer.moveInto reg).source, List.mem_toFinset.mpr (RegSet.mem_toList.mpr
      (counted.closed idle ⟨RegSet.mem_toList.mp (List.mem_toFinset.mp reg.2), rfl⟩))⟩
  have onto : Function.Surjective follow := by
    rintro ⟨reg, member⟩
    rw [← counted.sources_eq idle] at member
    obtain ⟨other, listed, reads⟩ := Finset.mem_image.mp member
    exact ⟨⟨other, listed⟩, Subtype.ext reads⟩
  have walks : ∀ (count : Nat) (reg : transfer.moveTargets.toList.toFinset),
      Relation.TransGen transfer.Reads reg (follow^[count + 1] reg) := by
    intro count
    induction count with
    | zero =>
      intro reg
      exact .single ⟨RegSet.mem_toList.mp (List.mem_toFinset.mp reg.2), rfl⟩
    | succ count ih =>
      intro reg
      rw [Function.iterate_succ_apply']
      refine .tail (ih reg) ⟨?_, rfl⟩
      exact RegSet.mem_toList.mp (List.mem_toFinset.mp (follow^[count + 1] reg).2)
  have listed : target ∈ transfer.moveTargets.toList.toFinset :=
    List.mem_toFinset.mpr (RegSet.mem_toList.mpr pending)
  obtain ⟨count, positive, returns⟩ := Function.mem_periodicPts.mp
    ((Finite.injective_iff_surjective.mpr onto).mem_periodicPts ⟨target, listed⟩)
  obtain ⟨few, rfl⟩ := Nat.exists_eq_add_of_lt positive
  have back := walks few ⟨target, listed⟩
  rw [Nat.zero_add] at returns
  rw [show follow^[few + 1] ⟨target, listed⟩ = ⟨target, listed⟩ from returns] at back
  exact back

end Cycles

end Transfer

/-!
## Moves that can be carried out
-/

/-- A load that can be carried out, from a slot below a limit if from one. -/
def Load.Ready (limit : Nat) (target : Register) : Load → Prop
  | .const type _ => Suits type target ∧ type.isInteger = true
  | .slot type index => Suits type target ∧ ∃ place : Nat, index = place ∧ place < limit

namespace Transfer

/-- A transfer whose moves and loads can be carried out, with the frame slots from
`base` on free. -/
structure Ready (transfer : Transfer) (base : Nat) : Prop where
  target : ∀ target, transfer.moveTargets.has target = true →
    Suits (transfer.moveInto target).type target
  source : ∀ target, transfer.moveTargets.has target = true →
    Suits (transfer.moveInto target).type (transfer.moveInto target).source
  proper : ∀ target, transfer.moveTargets.has target = true →
    target ≠ (transfer.moveInto target).source
  counted : transfer.ReadersCounted
  loads : ∀ target, transfer.loadTargets.has target = true →
    Load.Ready base target (transfer.loadInto target)
  apart : ∀ target, transfer.moveTargets.has target = true →
    transfer.loadTargets.has target = false
  framePointer : transfer.moveTargets.has .rbp = false ∧
    transfer.loadTargets.has .rbp = false
  spillBase : transfer.spillBase = base
  written : ∀ index ∈ transfer.slotWrites, index < base
  room : base + 32 ≤ frameLimit

/-- A transfer whose moves can be carried out, whatever its loads are. -/
structure Movable (transfer : Transfer) (base : Nat) : Prop where
  target : ∀ target, transfer.moveTargets.has target = true →
    Suits (transfer.moveInto target).type target
  source : ∀ target, transfer.moveTargets.has target = true →
    Suits (transfer.moveInto target).type (transfer.moveInto target).source
  counted : transfer.ReadersCounted
  apart : ∀ target, transfer.moveTargets.has target = true →
    transfer.loadTargets.has target = false
  framePointer : transfer.moveTargets.has .rbp = false
  spillBase : transfer.spillBase = base
  written : ∀ index ∈ transfer.slotWrites, index < base
  room : base + 32 ≤ frameLimit

theorem Ready.movable {transfer : Transfer} {base : Nat} (ready : transfer.Ready base) :
    transfer.Movable base :=
  ⟨ready.target, ready.source, ready.counted, ready.apart, ready.framePointer.1,
    ready.spillBase, ready.written, ready.room⟩

/-- How far the moves recorded in `initial` have been run, slots from `base` to `slot`
having been used for cycles. -/
structure Progress (initial : Transfer) (start : Processor) (base slot : Nat)
    (transfer : Transfer) (machine : Processor) : Prop where
  moves : transfer.moves = initial.moves
  pending : ∀ target, transfer.moveTargets.has target = true →
    initial.moveTargets.has target = true
  counted : transfer.ReadersCounted
  unread : ∀ target, transfer.moveTargets.has target = true →
    machine.regs (initial.moveInto target).source =
      start.regs (initial.moveInto target).source
  waiting : ∀ target, transfer.moveTargets.has target = true →
    transfer.loadTargets.has target = false
  finished : ∀ target, initial.moveTargets.has target = true →
    transfer.moveTargets.has target = false →
    (transfer.loadTargets.has target = false ∧
      machine.regs target = Sequence.copied (initial.moveInto target).type
        (start.regs (initial.moveInto target).source)) ∨
    (transfer.loadTargets.has target = true ∧ ∃ index, base ≤ index ∧ index < slot ∧
      transfer.loadInto target = .slot (initial.moveInto target).type index ∧
      (initial.moveInto target).type.clip (machine.slotWord index) =
        (initial.moveInto target).type.clip (start.regs (initial.moveInto target).source))
  others : ∀ reg, initial.moveTargets.has reg = false →
    machine.regs reg = start.regs reg ∧
    transfer.loadTargets.has reg = initial.loadTargets.has reg ∧
    transfer.loadInto reg = initial.loadInto reg
  memory : ∀ address, (∀ index, base ≤ index → index < slot →
      8 ≤ (address - start.slotAt index).toNat) →
    machine.memory address = start.memory address
  spillBase : transfer.spillBase = initial.spillBase
  written : transfer.slotWrites = initial.slotWrites

theorem moveInto_congr {left right : Transfer} (same : left.moves = right.moves)
    (reg : Register) : left.moveInto reg = right.moveInto reg := by
  simp [moveInto, same]

/-- The transfer with the load of a frame slot recorded. -/
def recordLoad (transfer : Transfer) (target : Register) (type : ValueType) (index : Int) :
    Transfer :=
  { transfer with
    slotReads := index :: transfer.slotReads
    loadTargets := transfer.loadTargets.insert target }.setLoad target (.slot type index)

section Steps

variable {initial transfer : Transfer} {start machine : Processor} {base slot : Nat}

theorem Progress.refl (movable : initial.Movable base) :
    Progress initial start base base initial start := by
  constructor
  case moves => rfl
  case pending => exact fun _ pending => pending
  case counted => exact movable.counted
  case unread => exact fun _ _ => rfl
  case waiting => exact movable.apart
  case finished =>
    intro target recorded gone
    rw [recorded] at gone
    cases gone
  case others => exact fun _ _ => ⟨rfl, rfl, rfl⟩
  case memory => exact fun _ _ => rfl
  case spillBase => rfl
  case written => rfl

/-- The code does not matter. -/
theorem Progress.withOutput (progress : Progress initial start base slot transfer machine)
    (output : Output) :
    Progress initial start base slot { transfer with output } machine :=
  ⟨progress.moves, progress.pending, progress.counted, progress.unread, progress.waiting,
    progress.finished, progress.others, progress.memory, progress.spillBase,
    progress.written⟩

theorem Progress.moveInto_eq (progress : Progress initial start base slot transfer machine)
    (reg : Register) : transfer.moveInto reg = initial.moveInto reg :=
  moveInto_congr progress.moves reg

theorem Progress.slotAt_eq (movable : initial.Movable base)
    (progress : Progress initial start base slot transfer machine) (index : Nat) :
    machine.slotAt index = start.slotAt index := by
  unfold Processor.slotAt
  rw [(progress.others .rbp movable.framePointer).1]

theorem Progress.move (movable : initial.Movable base)
    (progress : Progress initial start base slot transfer machine) {target : Register}
    (pending : transfer.moveTargets.has target = true)
    (unread : transfer.readers target = 0) :
    Progress initial start base slot (transfer.retire target)
      (machine.setReg target (Sequence.copied (initial.moveInto target).type
        (machine.regs (initial.moveInto target).source))) := by
  have recorded := progress.pending target pending
  have suits := movable.target target recorded
  have notFrame : target ≠ .rbp := by
    intro equality
    rw [equality, movable.framePointer] at recorded
    cases recorded
  have stillPending : ∀ other, (transfer.retire target).moveTargets.has other = true →
      transfer.moveTargets.has other = true ∧ other ≠ target := by
    intro other has
    have erased : (transfer.moveTargets.erase target).has other = true := has
    simpa using erased
  constructor
  case moves => exact progress.moves
  case pending => exact fun other has => progress.pending other (stillPending other has).1
  case counted =>
    refine progress.counted.retire pending ?_
    rw [progress.moveInto_eq]
    exact (movable.source target recorded).machine
  case unread =>
    intro other has
    have reads := progress.counted.unread suits.machine unread (stillPending other has).1
    rw [progress.moveInto_eq] at reads
    rw [Processor.regs_setReg, if_neg reads]
    exact progress.unread other (stillPending other has).1
  case waiting => exact fun other has => progress.waiting other (stillPending other has).1
  case finished =>
    intro other otherRecorded gone
    by_cases same : other = target
    · subst same
      left
      refine ⟨progress.waiting other pending, ?_⟩
      rw [Processor.regs_setReg, if_pos rfl, progress.unread other pending]
    · have before : transfer.moveTargets.has other = false := by
        have erased : (transfer.moveTargets.erase target).has other = false := gone
        simpa [same] using erased
      rcases progress.finished other otherRecorded before with
        ⟨unloaded, value⟩ | ⟨loaded, index, above, below, load, value⟩
      · left
        refine ⟨unloaded, ?_⟩
        rw [Processor.regs_setReg, if_neg same]
        exact value
      · right
        refine ⟨loaded, index, above, below, load, ?_⟩
        rw [Processor.slotWord_setReg notFrame]
        exact value
  case others =>
    intro reg unrecorded
    have different : reg ≠ target := by
      intro equality
      rw [equality, recorded] at unrecorded
      cases unrecorded
    rw [Processor.regs_setReg, if_neg different]
    exact progress.others reg unrecorded
  case memory => exact progress.memory
  case spillBase => exact progress.spillBase
  case written => exact progress.written

theorem Progress.divert (movable : initial.Movable base)
    (progress : Progress initial start base slot transfer machine) {target : Register}
    (pending : transfer.moveTargets.has target = true) (above : base ≤ slot)
    (small : slot < frameLimit) :
    Progress initial start base (slot + 1)
      ((transfer.recordLoad target (initial.moveInto target).type slot).retire target)
      (machine.store (initial.moveInto target).type (machine.slotAt slot)
        (machine.regs (initial.moveInto target).source)) := by
  have recorded := progress.pending target pending
  have suits := movable.target target recorded
  have stillPending : ∀ other, ((transfer.recordLoad target
      (initial.moveInto target).type slot).retire target).moveTargets.has other = true →
      transfer.moveTargets.has other = true ∧ other ≠ target := by
    intro other has
    have erased : (transfer.moveTargets.erase target).has other = true := has
    simpa using erased
  have loadTargets : ∀ other, ((transfer.recordLoad target
      (initial.moveInto target).type slot).retire target).loadTargets.has other =
      (transfer.loadTargets.has other || decide (other = target)) := by
    intro other
    change (transfer.loadTargets.insert target).has other = _
    simp [suits.machine]
  have loadInto : ∀ other, ((transfer.recordLoad target
      (initial.moveInto target).type slot).retire target).loadInto other =
      if other = target then .slot (initial.moveInto target).type slot
      else transfer.loadInto other :=
    fun other => loadInto_setLoad suits.machine _ other
  constructor
  case moves => exact progress.moves
  case pending => exact fun other has => progress.pending other (stillPending other has).1
  case counted =>
    refine progress.counted.retire pending ?_
    rw [progress.moveInto_eq]
    exact (movable.source target recorded).machine
  case unread => exact fun other has => progress.unread other (stillPending other has).1
  case waiting =>
    intro other has
    rw [loadTargets, progress.waiting other (stillPending other has).1]
    simpa using (stillPending other has).2
  case finished =>
    intro other otherRecorded gone
    by_cases same : other = target
    · subst same
      right
      refine ⟨by simp [loadTargets], slot, above, by omega, ?_, ?_⟩
      · rw [loadInto, if_pos rfl]
      · rw [Processor.clip_slotWord_store, progress.unread other pending]
    · have before : transfer.moveTargets.has other = false := by
        have erased : (transfer.moveTargets.erase target).has other = false := gone
        simpa [same] using erased
      rcases progress.finished other otherRecorded before with
        ⟨unloaded, value⟩ | ⟨loaded, index, indexAbove, indexBelow, load, value⟩
      · left
        refine ⟨?_, value⟩
        rw [loadTargets, unloaded]
        simpa using same
      · right
        refine ⟨by simp [loadTargets, loaded], index, indexAbove, by omega, ?_, ?_⟩
        · rw [loadInto, if_neg same]
          exact load
        · rw [Processor.slotWord_store_of_ne _ _ _ small (by omega) (by omega)]
          exact value
  case others =>
    intro reg unrecorded
    have different : reg ≠ target := by
      intro equality
      rw [equality, recorded] at unrecorded
      cases unrecorded
    obtain ⟨value, has, load⟩ := progress.others reg unrecorded
    refine ⟨value, ?_, ?_⟩
    · rw [loadTargets, has]
      simp [different]
    · rw [loadInto, if_neg different]
      exact load
  case memory =>
    intro address apart
    have here := apart slot above (by omega)
    rw [← progress.slotAt_eq movable] at here
    rw [machine.store_memory_of_apart _ _ here]
    exact progress.memory address fun index low high => apart index low (by omega)
  case spillBase => exact progress.spillBase
  case written => exact progress.written

theorem Progress.reads (progress : Progress initial start base slot transfer machine)
    {target source : Register} (reads : transfer.Reads target source) :
    initial.Reads target source :=
  ⟨progress.pending target reads.1, progress.moveInto_eq target ▸ reads.2⟩

theorem Progress.reaches (progress : Progress initial start base slot transfer machine)
    (idle : transfer.Idle []) {target source : Register}
    (pending : transfer.moveTargets.has target = true)
    (leads : Relation.TransGen initial.Reads target source) :
    transfer.moveTargets.has source = true := by
  have one : ∀ {left right}, transfer.moveTargets.has left = true → initial.Reads left right →
      transfer.moveTargets.has right = true := fun has reads =>
    progress.counted.closed idle ⟨has, progress.moveInto_eq _ ▸ reads.2⟩
  induction leads with
  | single reads => exact one pending reads
  | tail _ reads ih => exact one ih reads

end Steps

end Transfer

namespace TransferM

open Transfer

theorem finishMove_succ (fuel : Nat) (target : Register) (transfer : Transfer) :
    finishMove (fuel + 1) target transfer =
      let source := (transfer.moveInto target).source
      let rest := transfer.retire target
      if rest.readers source = 0 ∧ rest.moveTargets.has source = true then
        finishMove fuel source
          (rest.emit (Sequence.move (rest.moveInto source).type source
            (rest.moveInto source).source))
      else .ok () rest := by
  rw [finishMove]
  simp only [EStateM.bind_run, EStateM.get_run, EStateM.modify_run, EStateM.ite_run,
    EStateM.pure_run]
  rfl

section Actions

variable {initial transfer : Transfer} {start machine : Processor} {base slot : Nat}
  {code : Code} {entry : Processor}

theorem reached_move (movable : initial.Movable base)
    (progress : Progress initial start base slot transfer machine)
    (reached : Reached code entry transfer machine) {target : Register}
    (pending : transfer.moveTargets.has target = true)
    (unread : transfer.readers target = 0) :
    Reached code entry
      (transfer.emit (Sequence.move (transfer.moveInto target).type target
        (transfer.moveInto target).source))
      (machine.setReg target (Sequence.copied (initial.moveInto target).type
        (machine.regs (initial.moveInto target).source))) := by
  have recorded := progress.pending target pending
  have different := progress.counted.unread (movable.target target recorded).machine unread
    pending
  rw [progress.moveInto_eq] at different ⊢
  obtain ⟨instructions, runs⟩ := Sequence.move_runs (movable.target target recorded)
    (movable.source target recorded) different.symm machine
  exact reached.emit runs

/-- What finishing the move into a register leaves of a transfer: fewer moves, and none of them
free to run but those into registers that were free before. -/
structure Finishes (rest : List Register) (target : Register) (before after : Transfer) :
    Prop where
  idle : after.Idle rest
  pending : ∀ other, after.moveTargets.has other = true →
    before.moveTargets.has other = true ∧ other ≠ target
  fewer : after.moveTargets.toList.length < before.moveTargets.toList.length
  frame : after.output.frameSlots = before.output.frameSlots

theorem finishMove_progress (movable : initial.Movable base) {fuel : Nat} {target : Register}
    {rest : List Register} (reached : Reached code entry transfer machine)
    (enough : transfer.moveTargets.toList.length ≤ fuel)
    (pending : transfer.moveTargets.has target = true)
    (idle : ∀ other, other ≠ target → transfer.moveTargets.has other = true →
      transfer.readers other = 0 → other ∈ rest)
    (progress : Progress initial start base slot (transfer.retire target) machine) :
    ∃ after final, finishMove fuel target transfer = .ok () after ∧
      Reached code entry after final ∧ Progress initial start base slot after final ∧
      Finishes rest target transfer after := by
  induction fuel generalizing transfer machine target with
  | zero =>
    have shorter := RegSet.length_toList_erase pending
    omega
  | succ fuel ih =>
    have shorter : transfer.moveTargets.toList.length =
        (transfer.retire target).moveTargets.toList.length + 1 :=
      RegSet.length_toList_erase pending
    have stillPending : ∀ other, (transfer.retire target).moveTargets.has other = true →
        transfer.moveTargets.has other = true ∧ other ≠ target := by
      intro other has
      have erased : (transfer.moveTargets.erase target).has other = true := has
      simpa using erased
    rw [finishMove_succ]
    dsimp only
    split
    case isTrue free =>
      have moved := progress.move movable free.2 free.1
      have ran := reached_move movable progress
        (reached.congr (show (transfer.retire target).output.code = _ from rfl)) free.2 free.1
      have fits : (transfer.retire target).moveTargets.toList.length ≤ fuel := by omega
      have stillIdle : ∀ other, other ≠ (transfer.moveInto target).source →
          (transfer.retire target).moveTargets.has other = true →
          (transfer.retire target).readers other = 0 → other ∈ rest := by
        intro other different has none
        obtain ⟨before, apart⟩ := stillPending other has
        exact idle other apart before (transfer.readers_retire_of_ne different ▸ none)
      obtain ⟨after, final, runs, afterReached, afterProgress, finishes⟩ :=
        ih ran fits free.2 stillIdle (moved.withOutput _)
      have fewer : after.moveTargets.toList.length <
          (transfer.retire target).moveTargets.toList.length := finishes.fewer
      refine ⟨after, final, runs, afterReached, afterProgress, finishes.idle, ?_, by omega,
        finishes.frame⟩
      exact fun other has => stillPending other (finishes.pending other has).1
    case isFalse taken =>
      refine ⟨_, machine, rfl, reached.congr rfl, progress, ?_, stillPending, by omega, rfl⟩
      intro other has none
      by_cases same : other = (transfer.moveInto target).source
      · exact absurd ⟨same ▸ none, same ▸ has⟩ taken
      · obtain ⟨before, apart⟩ := stillPending other has
        exact idle other apart before (transfer.readers_retire_of_ne same ▸ none)

theorem runMove_progress (movable : initial.Movable base)
    (progress : Progress initial start base slot transfer machine)
    (reached : Reached code entry transfer machine) {target : Register} {rest : List Register}
    (pending : transfer.moveTargets.has target = true)
    (unread : transfer.readers target = 0) (idle : transfer.Idle (target :: rest)) :
    ∃ after final, runMove target transfer = .ok () after ∧
      Reached code entry after final ∧ Progress initial start base slot after final ∧
      Finishes rest target transfer after := by
  have ran := reached_move movable progress reached pending unread
  have moved := progress.move movable pending unread
  have small : transfer.moveTargets.toList.length ≤ 33 := by
    have := transfer.moveTargets.length_toList_le
    omega
  obtain ⟨after, final, runs, afterReached, afterProgress, finishes⟩ :=
    finishMove_progress movable ran small pending
      (fun other different has none =>
        (List.mem_cons.mp (idle other has none)).resolve_left different)
      (moved.withOutput _)
  refine ⟨after, final, ?_, afterReached, afterProgress,
    finishes.idle, finishes.pending, finishes.fewer, finishes.frame⟩
  rw [runMove, EStateM.bind_ok (EStateM.get_run _), EStateM.bind_ok (EStateM.modify_run _ _)]
  exact runs

theorem loadSlot_run {target : Register} {type : ValueType} {index : Int}
    (target_machine : target.isMachine = true) (unwritten : index ∉ transfer.slotWrites)
    (unloaded : transfer.loadTargets.has target = false) :
    loadSlot target index type transfer =
      .ok () (transfer.recordLoad target type index) := by
  have notWritten : transfer.slotWrites.contains index = false := by
    simpa using unwritten
  rw [loadSlot]
  simp only [EStateM.bind_run, EStateM.get_run, EStateM.modify_run, EStateM.ite_run,
    EStateM.pure_run, demand, notWritten, unloaded, target_machine, Bool.not_true,
    Bool.false_eq_true, if_false]
  rfl

theorem breakCycles_some {fuel : Nat} {index : Int} {target : Register}
    (first : transfer.moveTargets.first? = some target) :
    breakCycles (fuel + 1) index transfer =
      (do
        loadSlot target index (transfer.moveInto target).type
        finishMove 33 target
        breakCycles fuel (index + 1) : TransferM Unit)
        ((transfer.emit (Sequence.spill (transfer.moveInto target).type index
          (transfer.moveInto target).source)).needSlot index) := by
  rw [breakCycles, EStateM.bind_ok (EStateM.get_run _), first]
  dsimp only
  rw [EStateM.bind_ok (EStateM.get_run _), EStateM.bind_ok (EStateM.modify_run _ _),
    EStateM.bind_ok (EStateM.modify_run _ _)]

theorem code_needSlot (transfer : Transfer) (index : Int) :
    (transfer.needSlot index).output.code = transfer.output.code := by
  unfold Transfer.needSlot Output.needSlot
  split <;> rfl

theorem breakCycles_progress (movable : initial.Movable base) {fuel : Nat}
    (progress : Progress initial start base slot transfer machine)
    (reached : Reached code entry transfer machine) (idle : transfer.Idle [])
    (above : base ≤ slot) (enough : transfer.moveTargets.toList.length < fuel)
    (room : slot + transfer.moveTargets.toList.length ≤ base + 32) :
    ∃ after final broken, breakCycles fuel slot transfer = .ok () after ∧
      Reached code entry after final ∧
      Progress initial start base (slot + broken.length) after final ∧
      (∀ target, after.moveTargets.has target = false) ∧ Cycles initial.Reads broken ∧
      (∀ reg ∈ broken, transfer.moveTargets.has reg = true) ∧
      broken.length ≤ transfer.moveTargets.toList.length ∧
      after.output.frameSlots = if broken = [] then transfer.output.frameSlots
        else max transfer.output.frameSlots (slot + broken.length) := by
  induction fuel generalizing transfer machine slot with
  | zero => omega
  | succ fuel ih =>
    cases first : transfer.moveTargets.first? with
    | none =>
      refine ⟨transfer, machine, [], ?_, reached, progress, ?_, ⟨by simp, .nil⟩, by simp,
        Nat.zero_le _, rfl⟩
      · rw [breakCycles, EStateM.bind_ok (EStateM.get_run _), first]
        rfl
      · exact RegSet.first?_eq_none_iff.mp first
    | some target =>
      have pending := RegSet.has_of_first? first
      have recorded := progress.pending target pending
      have positive := RegSet.length_toList_erase pending
      have limit := movable.room
      have small : slot < frameLimit := by omega
      obtain ⟨instructions, spills⟩ :=
        Sequence.spill_runs (movable.source target recorded) small machine
      have ran := reached.emit spills
      have diverted := progress.divert movable pending above small
      have unwritten : (slot : Int) ∉ transfer.slotWrites := by
        intro member
        rw [progress.written] at member
        have := movable.written slot member
        omega
      have loads : loadSlot target slot (initial.moveInto target).type
          ((transfer.emit (Sequence.spill (initial.moveInto target).type slot
            (initial.moveInto target).source)).needSlot slot) =
          .ok () (((transfer.emit (Sequence.spill (initial.moveInto target).type slot
            (initial.moveInto target).source)).needSlot slot).recordLoad target
            (initial.moveInto target).type slot) :=
        loadSlot_run (movable.target target recorded).machine unwritten
          (progress.waiting target pending)
      have small33 : transfer.moveTargets.toList.length ≤ 33 := by
        have := transfer.moveTargets.length_toList_le
        omega
      have ranOn : Reached code entry
          (((transfer.emit (Sequence.spill (initial.moveInto target).type slot
            (initial.moveInto target).source)).needSlot slot).recordLoad target
            (initial.moveInto target).type slot)
          (machine.store (initial.moveInto target).type (machine.slotAt slot)
            (machine.regs (initial.moveInto target).source)) :=
        ran.congr (code_needSlot _ _)
      obtain ⟨middle, between, finishes, middleReached, middleProgress, finished⟩ :=
        finishMove_progress movable ranOn small33 pending
          (fun other _ has none => idle other has none) (diverted.withOutput _)
      have fewer : middle.moveTargets.toList.length <
          transfer.moveTargets.toList.length := finished.fewer
      have stillPending : ∀ other, middle.moveTargets.has other = true →
          transfer.moveTargets.has other = true ∧ other ≠ target := finished.pending
      have frame : middle.output.frameSlots =
          max transfer.output.frameSlots (slot + 1) := by
        rw [finished.frame]
        exact Output.frameSlots_needSlot _ _
      obtain ⟨after, final, broken, breaks, afterReached, afterProgress, noneLeft, cycles,
          left, few, need⟩ :=
        ih middleProgress middleReached finished.idle (by omega) (by omega) (by omega)
      refine ⟨after, final, target :: broken, ?_, afterReached, ?_, noneLeft,
        ⟨?_, ?_⟩, ?_, ?_, ?_⟩
      · rw [breakCycles_some first, progress.moveInto_eq, EStateM.bind_ok loads,
          EStateM.bind_ok finishes]
        exact breaks
      · rw [List.length_cons, Nat.add_comm broken.length, ← Nat.add_assoc]
        exact afterProgress
      · intro reg member
        rcases List.mem_cons.mp member with rfl | later
        · exact (progress.counted.cyclic idle pending).lift id fun _ _ => progress.reads
        · exact cycles.cyclic reg later
      · refine .cons (fun reg member leads => ?_) cycles.apart
        have has := middleProgress.reaches finished.idle (left reg member) leads
        exact (stillPending target has).2 rfl
      · intro reg member
        rcases List.mem_cons.mp member with rfl | later
        · exact pending
        · exact (stillPending reg (left reg later)).1
      · rw [List.length_cons]
        omega
      · rw [need, frame, if_neg (List.cons_ne_nil _ _), List.length_cons]
        split
        · rename_i none
          simp [none]
        · omega

theorem runMoves_progress (movable : initial.Movable base)
    (reached : Reached code entry initial start) :
    ∃ after final broken, runMoves initial = .ok () after ∧
      Reached code entry after final ∧
      Progress initial start base (base + broken.length) after final ∧
      (∀ target, after.moveTargets.has target = false) ∧ Cycles initial.Reads broken ∧
      broken.length ≤ 32 ∧
      after.output.frameSlots = if broken = [] then initial.output.frameSlots
        else max initial.output.frameSlots (base + broken.length) := by
  obtain ⟨middle, loops, between, middleReached, middleProgress, idle, frame⟩ :=
    EStateM.forIn_keeps initial.moveTargets.toList
      (fun target _ => do
        let transfer ← get
        if transfer.moveTargets.has target && transfer.readers target = 0 then
          runMove target
          pure (.yield PUnit.unit)
        else pure (.yield PUnit.unit))
      (fun rest transfer => ∃ machine, Reached code entry transfer machine ∧
        Progress initial start base base transfer machine ∧ transfer.Idle rest ∧
        transfer.output.frameSlots = initial.output.frameSlots)
      (by
        rintro target rest transfer ⟨machine, reached, progress, idle, frame⟩
        rw [EStateM.bind_ok (EStateM.get_run _), EStateM.ite_run]
        split
        case isTrue free =>
          simp only [Bool.and_eq_true, decide_eq_true_eq] at free
          obtain ⟨after, final, runs, afterReached, afterProgress, finishes⟩ :=
            runMove_progress movable progress reached free.1 free.2 idle
          refine ⟨after, ?_, final, afterReached, afterProgress, finishes.idle,
            finishes.frame.trans frame⟩
          rw [EStateM.bind_ok runs]
          rfl
        case isFalse held =>
          refine ⟨transfer, rfl, machine, reached, progress, fun other has none => ?_, frame⟩
          refine (List.mem_cons.mp (idle other has none)).resolve_left ?_
          rintro rfl
          exact held (by simp [has, none]))
      ⟨start, reached, .refl movable, fun _ has _ => RegSet.mem_toList.mpr has, rfl⟩
  have bound := middle.moveTargets.length_toList_le
  obtain ⟨after, final, broken, breaks, afterReached, progress, noneLeft, cycles, _, few, need⟩ :=
    breakCycles_progress movable middleProgress middleReached idle (Nat.le_refl base)
      (show middle.moveTargets.toList.length < 33 by omega) (by omega)
  refine ⟨after, final, broken, ?_, afterReached, progress, noneLeft, cycles, by omega,
    frame ▸ need⟩
  rw [runMoves, EStateM.bind_ok (EStateM.get_run _), EStateM.bind_ok loops,
    EStateM.bind_ok (EStateM.get_run _), middleProgress.spillBase, movable.spillBase]
  exact breaks

end Actions

end TransferM

end WasmX64
