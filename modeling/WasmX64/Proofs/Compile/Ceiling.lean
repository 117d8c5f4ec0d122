import WasmX64.Proofs.Code.Wiring
import WasmX64.Proofs.Compile.Rounds
import WasmX64.Proofs.Compile.Spill
import WasmX64.Proofs.Transfer.Basic

/-!
# Ceilings

An instruction adds at most one slot to the layout, and the frame is never larger than the
layouts of a function but for the slots that break cycles of moves.  So a function of few locals
and instructions has a small frame.  What else a compilation collects, references and entries of
the source map, is carried along.
-/

/-!
## Room for transfers

A transfer adds straight code and frame slots.  It writes frame slots of the layout it leads to
and, for cycles of moves, at most 33 slots above both layouts.
-/

namespace WasmX64

open Sequence

/-- Straight code and frame slots are added to an output. -/
inductive Output.Adds (first : Output) : Output → Prop
  | none : Adds first first
  | code {second : Output} (adds : Adds first second) {steps : List Step}
      (straight : Straight steps) : Adds first (second.emit steps)
  | slot {second : Output} (adds : Adds first second) (index : Int) :
      Adds first (second.needSlot index)

theorem Output.Adds.trans {first second third : Output} (left : first.Adds second)
    (right : second.Adds third) : first.Adds third := by
  induction right with
  | none => exact left
  | code _ straight ih => exact ih.code straight
  | slot _ index ih => exact ih.slot index

theorem Output.code_needSlot (output : Output) (index : Int) :
    (output.needSlot index).code = output.code := by
  unfold needSlot
  split
  · rfl
  · rfl

theorem Output.Adds.extends {first second : Output} (adds : first.Adds second) :
    first.code.Extends second.code := by
  induction adds with
  | none => exact .refl _
  | code _ _ ih => exact ih.trans (.place _ _)
  | slot _ index ih =>
    rw [code_needSlot]
    exact ih

/-- The frame is within a limit that leaves room for breaking cycles. -/
structure Transfer.Fits (limit : Int) (transfer : Transfer) : Prop where
  frame : 0 ≤ transfer.output.frameSlots ∧ transfer.output.frameSlots ≤ limit
  room : transfer.spillBase + 33 ≤ limit

theorem Compile.straight_pushArgument (slot : Slot) (index : Nat) :
    Straight (Compile.pushArgument slot index) := by
  unfold Compile.pushArgument
  split
  · exact (straight_two ⟨by rfl, by rfl⟩).ite (straight_one (by rfl))
  · exact straight_pushValue _ _
  · exact straight_one (by rfl)
  · exact straight_nil

namespace TransferM

variable {α β : Type} {tight : Prop} {limit : Int}

/-- An action that ends without a fault has added straight code and frame slots.  One that is
`tight` also keeps the frame within a limit. -/
def Within (tight : Prop) (limit : Int) (action : TransferM α) : Prop :=
  ∀ before value after, action before = .ok value after → (tight → before.Fits limit) →
    before.output.Adds after.output ∧ (tight → after.Fits limit)

/-- An action that ends without a fault has added straight code and frame slots. -/
def Calm (action : TransferM α) : Prop := Within False 0 action

namespace Within

theorem calm {action : TransferM α} (within : Within False limit action) : Calm action :=
  fun before value after ends _ => ⟨(within before value after ends False.elim).1, False.elim⟩

theorem bind {action : TransferM α} {next : α → TransferM β} (first : Within tight limit action)
    (second : ∀ value, Within tight limit (next value)) : Within tight limit (action >>= next) := by
  intro before value after ends fits
  obtain ⟨middle, state, begins, goes⟩ := EStateM.bind_inv ends
  obtain ⟨adds, fits⟩ := first _ _ _ begins fits
  obtain ⟨more, fits⟩ := second middle _ _ _ goes fits
  exact ⟨adds.trans more, fits⟩

theorem pure {value : α} : Within tight limit (pure value) := by
  intro before result after ends fits
  cases ends
  exact ⟨.none, fits⟩

theorem get {next : Transfer → TransferM α}
    (rest : ∀ transfer : Transfer, (tight → transfer.Fits limit) →
      Within tight limit (next transfer)) :
    Within tight limit (MonadState.get >>= next) :=
  fun before value after ends fits => rest before fits before value after ends fits

theorem throw {fault : Fault} : Within tight limit (throw fault : TransferM α) := by
  intro before result after ends
  cases ends

theorem ite {condition : Prop} [Decidable condition] {yes no : TransferM α}
    (first : Within tight limit yes) (second : Within tight limit no) :
    Within tight limit (if condition then yes else no) := by
  split
  · exact first
  · exact second

/-- A test that may end the transfer. -/
theorem demand {condition : Prop} [Decidable condition] {fault : Fault} {next : TransferM α}
    (rest : Within tight limit next) :
    Within tight limit (do
      if condition then MonadExcept.throw fault
      next) :=
  ite (throw.bind fun _ => rest) rest

theorem change {change : Transfer → Transfer}
    (adds : ∀ transfer : Transfer, transfer.output.Adds (change transfer).output)
    (keeps : tight → ∀ transfer : Transfer, transfer.Fits limit → (change transfer).Fits limit) :
    Within tight limit (modify change) := by
  intro before result after ends fits
  cases ends
  exact ⟨adds before, fun tight => keeps tight before (fits tight)⟩

theorem note {change : Transfer → Transfer}
    (same : ∀ transfer, (change transfer).output = transfer.output ∧
      (change transfer).spillBase = transfer.spillBase) : Within tight limit (modify change) := by
  refine Within.change (fun transfer => ?_) fun _ transfer fits => ?_
  · rw [(same transfer).1]
    exact .none
  · obtain ⟨output, room⟩ := same transfer
    exact ⟨by rw [output]; exact fits.frame, by rw [room]; exact fits.room⟩

theorem emit {steps : List Step} (straight : Straight steps) :
    Within tight limit (modify (·.emit steps)) :=
  change (fun _ => .code .none straight) fun _ _ fits => ⟨fits.frame, fits.room⟩

theorem needSlot {index : Int} (inside : tight → index < limit) :
    Within tight limit (modify (·.needSlot index)) := by
  refine change (fun _ => .slot .none index) fun tight transfer fits => ?_
  have inside := inside tight
  obtain ⟨⟨positive, below⟩, room⟩ := fits
  refine ⟨?_, room⟩
  change 0 ≤ (transfer.output.needSlot index).frameSlots ∧
    (transfer.output.needSlot index).frameSlots ≤ limit
  rw [Output.frameSlots_needSlot]
  omega

theorem forIn {list : List α} {body : α → PUnit → TransferM (ForInStep PUnit)}
    (round : ∀ value ∈ list, Within tight limit (body value PUnit.unit)) :
    Within tight limit (ForIn.forIn list PUnit.unit body) := by
  induction list with
  | nil => exact pure
  | cons value rest ih =>
    obtain ⟨here, others⟩ := List.forall_mem_cons.mp round
    rw [List.forIn_cons]
    refine here.bind fun step => ?_
    cases step with
    | done final => exact pure
    | yield final => exact ih others

theorem machine (reg : Register) : Within tight limit (TransferM.demand reg) := ite throw pure

theorem moveRegister (target source : Register) (type : ValueType) :
    Within tight limit (moveRegister target source type) := by
  refine get fun transfer _ => ite (demand (ite (note (by intro _; exact ⟨rfl, rfl⟩)) pure)) ?_
  refine (note (by intro _; exact ⟨rfl, rfl⟩)).bind fun _ => (machine source).bind fun _ => ?_
  refine (note (by intro _; exact ⟨rfl, rfl⟩)).bind fun _ => (machine target).bind fun _ => ?_
  exact note (by intro _; exact ⟨rfl, rfl⟩)

theorem loadConst (target : Register) (type : ValueType) (value : Int32) :
    Within tight limit (loadConst target type value) := by
  refine get fun transfer _ => demand ?_
  refine (note (by intro _; exact ⟨rfl, rfl⟩)).bind fun _ => (machine target).bind fun _ => ?_
  exact note (by intro _; exact ⟨rfl, rfl⟩)

theorem loadSlot (target : Register) (index : Int) (type : ValueType) :
    Within tight limit (loadSlot target index type) := by
  refine get fun transfer _ => demand ?_
  refine (note (by intro _; exact ⟨rfl, rfl⟩)).bind fun _ => get fun transfer _ => ite pure ?_
  refine (note (by intro _; exact ⟨rfl, rfl⟩)).bind fun _ => (machine target).bind fun _ => ?_
  exact note (by intro _; exact ⟨rfl, rfl⟩)

theorem loadInto (target : Register) (source : Slot) (index : Int) :
    Within tight limit (loadInto target source index) := by
  unfold TransferM.loadInto
  split
  · exact loadSlot _ _ _
  · exact demand (ite (moveRegister _ _ _) pure)
  · exact loadConst _ _ _
  · exact pure

theorem writeSlot (source : Slot) {targetIndex : Int} (sourceIndex : Int)
    (inside : tight → targetIndex < limit) :
    Within tight limit (writeSlot source targetIndex sourceIndex) := by
  have finish : Within tight limit (do
      modify (·.needSlot targetIndex)
      modify fun transfer => { transfer with slotWrites := targetIndex :: transfer.slotWrites }) :=
    (needSlot inside).bind fun _ => note (by intro _; exact ⟨rfl, rfl⟩)
  refine get fun transfer _ => demand ?_
  split
  · refine get fun transfer _ => demand ?_
    refine (emit (straight_loadFrom _ _ _)).bind fun _ => ?_
    exact (emit (straight_spill _ _ _)).bind fun _ => finish
  · exact (emit (straight_spill _ _ _)).bind fun _ => finish
  · exact (emit (straight_spillConstant _ _ _)).bind fun _ => finish
  · exact finish

theorem transferSlot (target source : Slot) {targetIndex : Int} (sourceIndex : Int)
    (inside : tight → targetIndex < limit) :
    Within tight limit (transferSlot target source targetIndex sourceIndex) := by
  unfold TransferM.transferSlot
  split
  · exact ite pure (writeSlot _ _ inside)
  · exact loadInto _ _ _
  · exact ite pure throw
  · exact pure

theorem finishMove (fuel : Nat) (target : Register) :
    Within tight limit (finishMove fuel target) := by
  induction fuel generalizing target with
  | zero => exact pure
  | succ fuel ih =>
    refine get fun transfer _ => (note (by intro _; exact ⟨rfl, rfl⟩)).bind fun _ => ?_
    exact get fun after _ => ite ((emit (straight_move _ _ _)).bind fun _ => ih _) pure

theorem runMove (target : Register) : Within tight limit (runMove target) :=
  get fun _ _ => (emit (straight_move _ _ _)).bind fun _ => finishMove _ _

theorem breakCycles {fuel : Nat} {slot : Int} (room : tight → slot + fuel ≤ limit) :
    Within tight limit (breakCycles fuel slot) := by
  induction fuel generalizing slot with
  | zero => exact pure
  | succ fuel ih =>
    refine get fun transfer _ => ?_
    split
    · exact pure
    · refine get fun transfer _ => (emit (straight_spill _ _ _)).bind fun _ => ?_
      refine (needSlot fun tight => ?_).bind fun _ => (loadSlot _ _ _).bind fun _ => ?_
      · have := room tight
        omega
      · refine (finishMove _ _).bind fun _ => ih fun tight => ?_
        have := room tight
        omega

theorem execute : Within tight limit execute := by
  have moves : Within tight limit runMoves := by
    refine get fun transfer _ => (forIn fun target _ => ?_).bind fun _ => ?_
    · exact get fun transfer _ => ite ((runMove target).bind fun _ => pure) pure
    · exact get fun transfer fits => breakCycles fun tight => (fits tight).room
  refine moves.bind fun _ => get fun transfer _ => (forIn fun target _ => ?_).bind fun _ => ?_
  · refine get fun transfer _ => ?_
    split
    · exact (emit (straight_loadConstant _ _ _)).bind fun _ => pure
    · exact (emit (straight_loadFrom _ _ _)).bind fun _ => pure
  · exact note (by intro _; exact ⟨rfl, rfl⟩)

theorem transferRange {join : Layout} (source : Layout) (count : Nat) (joinIndex sourceIndex : Int)
    (tall : tight → (join.height : Int) ≤ limit) :
    Within tight limit (Compile.transferRange join source count joinIndex sourceIndex) := by
  induction count generalizing joinIndex sourceIndex with
  | zero => exact pure
  | succ count ih =>
    unfold Compile.transferRange
    split
    · rename_i target slot found _
      have inside : joinIndex < join.height := by
        unfold Layout.slot? at found
        split at found
        · have below := (Array.getElem?_eq_some_iff.mp found).1
          rw [Layout.height]
          omega
        · cases found
      refine (transferSlot _ _ _ fun tight => ?_).bind fun _ => ih _ _
      have := tall tight
      omega
    · exact throw

theorem passArguments (arguments : List (Passing × Slot × Nat)) :
    Within tight limit (Compile.passArguments arguments) := by
  induction arguments with
  | nil => exact pure
  | cons argument rest ih =>
    obtain ⟨passing, slot, index⟩ := argument
    unfold Compile.passArguments
    cases passing with
    | reg type reg => exact (loadInto _ _ _).bind fun _ => ih
    | stack type offset => exact (emit (Compile.straight_pushArgument _ _)).bind fun _ => ih

theorem merge {join source : Layout} (lower : tight → (source.height : Int) ≤ limit) :
    Within tight limit (do
      for (target, slot, index) in join.slots.toList.zip (source.slots.toList.zipIdx) do
        TransferM.transferSlot target slot index index
      TransferM.execute) := by
  refine bind (.forIn fun entry member => ?_) fun _ => .execute
  obtain ⟨target, slot, index⟩ := entry
  have inside : index < source.height := by
    simpa [Layout.height] using (List.mem_zipIdx (List.of_mem_zip member).2).2.1
  refine (transferSlot _ _ _ fun tight => ?_).bind fun _ => .pure
  have := lower tight
  omega

theorem branch {join : Layout} (source : Layout) (below above : Nat) (joinBase sourceBase : Int)
    (tall : tight → (join.height : Int) ≤ limit) :
    Within tight limit (do
      Compile.transferRange join source below 0 0
      Compile.transferRange join source above joinBase sourceBase
      TransferM.execute) :=
  (transferRange _ _ _ _ tall).bind fun _ => (transferRange _ _ _ _ tall).bind fun _ => .execute

theorem call (arguments : List (Passing × Slot × Nat)) (moves : Prop) [Decidable moves]
    (held target : Register) :
    Within tight limit (do
      Compile.passArguments arguments
      if moves then TransferM.moveRegister held target .i64
      TransferM.execute) := by
  refine (passArguments _).bind fun _ => .ite ?_ .execute
  exact (moveRegister _ _ _).bind fun _ => .execute

end Within

end TransferM

namespace Compile

/-- A transfer adds straight code and frame slots and changes nothing else. -/
theorem transfer_adds {subject : Subject} {state : Compilation} (source : Layout)
    {action : TransferM Unit} (quiet : action.Calm) :
    Ensures (Compile.transfer source action) subject state fun _ after =>
      ∃ output, state.output.Adds output ∧ after = { state with output } := by
  unfold Compile.transfer
  rw [ensures_bind, ensures_get]
  split
  · rename_i value done ends
    exact ensures_modify.mpr ⟨done.output, (quiet _ _ _ ends False.elim).1, rfl⟩
  · rw [ensures_bind, ensures_modify]
    exact ensures_throw

end Compile

end WasmX64

/-! ## What an instruction adds -/

namespace WasmX64

namespace Layout

theorem height_release (layout : Layout) (reg : Register) :
    (layout.release reg).height = layout.height := congrArg Array.size slots_release

theorem height_push (layout : Layout) (slot : Slot) :
    (layout.push slot).height = layout.height + 1 := by
  unfold push
  split
  · exact Array.size_push ..
  · exact Array.size_push ..

theorem slot?_inside {layout : Layout} {index : Int} {slot : Slot}
    (found : layout.slot? index = some slot) : index < layout.height := by
  unfold slot? at found
  split at found
  · have below := (Array.getElem?_eq_some_iff.mp found).1
    rw [height]
    omega
  · cases found

theorem demandSlot_inv {layout join after : Layout} {index : Int} {slot : Slot}
    (demands : demandSlot layout index join = .ok slot after) : 0 ≤ index ∧ after = join := by
  unfold demandSlot slot? at demands
  by_cases positive : 0 ≤ index
  · refine ⟨positive, ?_⟩
    rw [if_pos positive] at demands
    cases found : layout.slots[index.toNat]? with
    | some other =>
      rw [found] at demands
      cases demands
      rfl
    | none =>
      rw [found] at demands
      cases demands
  · rw [if_neg positive] at demands
    cases demands

theorem height_joinRegion {rule : RegionRule} {merged : RegSet} {source join after : Layout}
    {count : Nat} {joinIndex sourceIndex : Int} {shared : List (Register × Register)}
    (runs : joinRegion rule merged source count joinIndex sourceIndex shared join =
      .ok () after) : after.height = join.height := by
  cases count with
  | zero =>
    cases runs
    rfl
  | succ count =>
    have steps := runs
    rw [joinRegion] at steps
    obtain ⟨_, _, demands, steps⟩ := EStateM.bind_inv steps
    obtain ⟨above, _⟩ := demandSlot_inv demands
    obtain ⟨_, _, _, steps⟩ := EStateM.bind_inv steps
    obtain ⟨_, _, demands, _⟩ := EStateM.bind_inv steps
    obtain ⟨positive, _⟩ := demandSlot_inv demands
    obtain ⟨sourceIndex, rfl⟩ := Int.eq_ofNat_of_zero_le above
    obtain ⟨joinIndex, rfl⟩ := Int.eq_ofNat_of_zero_le positive
    exact (joinRegion_typed runs).height

theorem height_initJoin {locals : Nat} {source join after : Layout} {arity : Int}
    (runs : initJoin locals source arity join = .ok () after) : after.height ≤ source.height := by
  unfold initJoin at runs
  obtain ⟨_, _, got, runs⟩ := EStateM.bind_inv runs
  cases got
  simp only [EStateM.ite_run] at runs
  split at runs
  · obtain ⟨_, _, thrown, _⟩ := EStateM.bind_inv runs
    cases thrown
  split at runs
  · obtain ⟨_, _, thrown, _⟩ := EStateM.bind_inv runs
    cases thrown
  split at runs
  · obtain ⟨_, _, thrown, _⟩ := EStateM.bind_inv runs
    cases thrown
  rename_i enough _
  obtain ⟨_, blank, cleared, runs⟩ := EStateM.bind_inv runs
  have height : blank.height = (join.base + arity).toNat := by
    cases cleared
    simp [Layout.height]
  obtain ⟨_, _, gathered, runs⟩ := EStateM.bind_inv runs
  cases regionRegisters_keeps gathered
  obtain ⟨merged, _, gathered, runs⟩ := EStateM.bind_inv runs
  cases regionRegisters_keeps gathered
  obtain ⟨_, withCarried, carried, runs⟩ := EStateM.bind_inv runs
  obtain ⟨_, withLocals, laid, runs⟩ := EStateM.bind_inv runs
  obtain ⟨_, _, got, runs⟩ := EStateM.bind_inv runs
  cases got
  simp only [EStateM.ite_run] at runs
  split at runs
  · obtain ⟨_, _, thrown, _⟩ := EStateM.bind_inv runs
    cases thrown
  rw [height_joinRegion runs, height_joinRegion laid, height_joinRegion carried, height]
  omega

end Layout

theorem Code.loadWide_within {code : Code} {target : Register} {imm : UInt64}
    (fine : (code.loadWide target imm).2.error = none) :
    0 ≤ (code.loadWide target imm).1 ∧
      (code.loadWide target imm).1 ≤ (code.loadWide target imm).2.size := by
  rw [loadWide_eq] at fine ⊢
  have sound := (Extends.emit code (.movabs target imm)).error fine
  cases general : target.isGp with
  | true =>
    rw [offset_loadWide sound general, emit, encode_movabs general, size_append sound,
      List.length_append, length_wideForm]
    omega
  | false =>
    rw [emit] at fine
    simp [Instruction.encode, Instruction.needGp, general, fail_error] at fine

theorem SourceMap.mem_insertInto {entry other : SourceEntry} {entries : List SourceEntry}
    (member : other ∈ insertInto entry entries) : other = entry ∨ other ∈ entries := by
  induction entries with
  | nil => exact .inl (List.mem_singleton.mp member)
  | cons head rest ih =>
    rw [insertInto] at member
    split at member
    · exact List.mem_cons.mp member
    · split at member
      · exact (List.mem_cons.mp member).imp_right (List.mem_cons_of_mem _)
      · cases List.mem_cons.mp member with
        | inl first => exact .inr (first ▸ List.mem_cons_self)
        | inr later => exact (ih later).imp_right (List.mem_cons_of_mem _)

/-- A block whose layouts stay below a ceiling. -/
structure Block.Under (ceiling : Nat) (block : Block) : Prop where
  base : block.base ≤ ceiling
  results : block.results.length ≤ 1
  join : block.join.height ≤ ceiling
  saved : ∀ layout, block.elseLayout = some layout → layout.height ≤ ceiling

/-- A reference to an object of a known kind, within the code so far. -/
def Reference.Within (code : Code) (ref : Reference) : Prop :=
  ref.kind ∈ RefKind.list ∧ (code.error = none → 0 ≤ ref.offset ∧ ref.offset ≤ code.size)

/-- A compilation whose layouts stay below a ceiling, and whose frame is hardly larger. -/
structure Compilation.Under (ceiling : Nat) (state : Compilation) : Prop where
  height : state.layout.height ≤ ceiling
  frame : 0 ≤ state.output.frameSlots ∧ state.output.frameSlots ≤ ceiling + 33
  blocks : ∀ block ∈ state.blocks, block.Under ceiling
  refs : ∀ ref ∈ state.refs, ref.Within state.output.code
  sources : ∀ entry ∈ state.sources.descending, entry.op.isValid = true

theorem Block.Under.mono {low high : Nat} {block : Block} (under : block.Under low)
    (lower : low ≤ high) : block.Under high where
  base := by
    have := under.base
    omega
  results := under.results
  join := Nat.le_trans under.join lower
  saved := fun layout kept => Nat.le_trans (under.saved layout kept) lower

theorem Block.Under.armHeight {ceiling : Nat} {block : Block} (under : block.Under ceiling) :
    (block.elseLayout.getD {}).height ≤ ceiling := by
  cases saved : block.elseLayout with
  | none => exact Nat.zero_le _
  | some layout => exact under.saved layout saved

theorem Reference.Within.grow {code after : Code} {ref : Reference} (within : ref.Within code)
    (grows : code.Extends after) : ref.Within after := by
  refine ⟨within.1, fun fine => ?_⟩
  obtain ⟨positive, below⟩ := within.2 (grows.error fine)
  have := grows.size
  exact ⟨positive, by omega⟩

namespace Compilation.Under

variable {low high : Nat} {state : Compilation}

theorem mono (under : state.Under low) (lower : low ≤ high) : state.Under high where
  height := Nat.le_trans under.height lower
  frame := by
    have := under.frame
    omega
  blocks := fun block member => (under.blocks block member).mono lower
  refs := under.refs
  sources := under.sources

theorem output (under : state.Under low) {output : Output}
    (grows : state.output.code.Extends output.code)
    (frame : 0 ≤ output.frameSlots ∧ output.frameSlots ≤ low + 33) :
    Under low { state with output } where
  height := under.height
  frame := frame
  blocks := under.blocks
  refs := fun ref member => (under.refs ref member).grow grows
  sources := under.sources

theorem slot (under : state.Under low) {index : Int} (inside : index < low + 33) :
    Under low { state with output := state.output.needSlot index } := by
  obtain ⟨positive, below⟩ := under.frame
  refine under.output ?_ ?_
  · rw [Output.code_needSlot]
    exact .refl _
  · rw [Output.frameSlots_needSlot]
    omega

theorem layout (under : state.Under low) {layout : Layout} (height : layout.height ≤ low) :
    Under low { state with layout } :=
  ⟨height, under.frame, under.blocks, under.refs, under.sources⟩

theorem reblock (under : state.Under low) {blocks : List Block}
    (each : ∀ block ∈ blocks, block.Under low) : Under low { state with blocks } :=
  ⟨under.height, under.frame, each, under.refs, under.sources⟩

end Compilation.Under

end WasmX64
