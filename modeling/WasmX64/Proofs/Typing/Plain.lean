import WasmX64.Compile.Function
import WasmX64.Proofs.Typing.Operands
import WasmX64.Proofs.Typing.Rules

/-!
# Plain instructions are compiled by their types

If an instruction that neither branches nor owns a body is compiled without a fault,
then it takes operands of the types that typing demands and leaves results of the
types that typing promises.
-/

namespace WasmX64

namespace Compilation.Shifts

open Compile

variable {ins outs : List ValueType} {before middle : Compilation} {subject : Subject}

theorem quietly {α : Type} {action : Compile α} (shifts : before.Shifts ins outs middle)
    (quiet : Quiet action) :
    Ensures action subject middle fun _ after => before.Shifts ins outs after :=
  (quiet subject middle).mono fun _ _ same => shifts.then_same same

theorem pushRegister (shifts : before.Shifts ins outs middle) (type : ValueType)
    (reg : Register) :
    Ensures (pushRegister type reg) subject middle fun _ after =>
      before.Shifts ins (outs ++ [type]) after := by
  refine ensures_modifyLayout.mpr (shifts.push (Layout.types_push _) rfl ?_)
  exact fun known => known.push (by simp [Slot.inReg])

theorem pushConst (shifts : before.Shifts ins outs middle) (type : ValueType) (value : Int32) :
    Ensures (pushConst type value) subject middle fun _ after =>
      before.Shifts ins (outs ++ [type]) after := by
  refine ensures_modifyLayout.mpr (shifts.push (Layout.types_push _) rfl ?_)
  exact fun known => known.push (by simp [Slot.ofConst])

theorem popRegister (shifts : before.Shifts ins [] middle) (pinned : RegSet) :
    Ensures (popRegister pinned) subject middle fun _ after =>
      ∃ type, before.Shifts (type :: ins) [] after :=
  (popRegister_shifts pinned).mono fun _ _ ⟨type, popped⟩ => ⟨type, shifts.pop popped⟩

theorem dropOperand (shifts : before.Shifts ins [] middle) :
    Ensures dropOperand subject middle fun _ after =>
      ∃ type, before.Shifts (type :: ins) [] after :=
  dropOperand_shifts.mono fun _ _ ⟨type, popped⟩ => ⟨type, shifts.pop popped⟩

theorem machine {event : MachineEvent} {action : Compile Unit} {ins' outs' : List ValueType}
    (shifts : before.Shifts ins outs middle)
    (inside : ∀ entered, before.Shifts ins outs entered →
      Ensures action subject entered fun _ after => before.Shifts ins' outs' after) :
    Ensures (machine event action) subject middle fun _ after =>
      before.Shifts ins' outs' after := by
  unfold Compile.machine
  simp only [ensures_bind]
  refine (shifts.quietly (Quiet.record _)).mono fun _ entered started => ?_
  refine (inside entered started).mono fun _ left done => ?_
  exact done.quietly (Quiet.record _)

end Compilation.Shifts

namespace Compile

variable {subject : Subject} {state : Compilation} {type result : ValueType}

theorem popOperands_shifts (reaches : state.Reaches state.types.length) :
    Ensures (popOperands type) subject state fun _ after =>
      state.Shifts [type, type] [] after := by
  unfold popOperands
  simp only [ensures_bind, ensures_pure]
  refine (expect_finds 0 type).mono ?_
  rintro _ _ ⟨rfl, top, _⟩
  refine (expect_finds 1 type).mono ?_
  rintro _ state ⟨rfl, second, _⟩
  refine ((Compilation.Shifts.refl reaches).popRegister _).mono fun _ middle popped => ?_
  obtain ⟨right, popped⟩ := popped
  refine (popped.popRegister _).mono fun _ after popped => ?_
  obtain ⟨left, popped⟩ := popped
  rw [popped.operand (by simp)] at top second
  simp only [List.reverse_cons, List.reverse_nil, List.nil_append, List.singleton_append,
    List.getElem?_cons_zero, List.getElem?_cons_succ, Option.some.injEq] at top second
  rwa [top, second] at popped

theorem popOperand_shifts (type : ValueType) (pinned : RegSet)
    (reaches : state.Reaches state.types.length) :
    Ensures (do expect 0 type; popRegister pinned) subject state fun _ after =>
      state.Shifts [type] [] after := by
  refine (expect_finds 0 type).andThen ?_
  rintro _ _ ⟨rfl, top, _⟩
  refine ((Compilation.Shifts.refl reaches).popRegister _).mono fun _ after popped => ?_
  obtain ⟨found, popped⟩ := popped
  rw [popped.operand (by simp)] at top
  simp only [List.reverse_cons, List.reverse_nil, List.nil_append,
    List.getElem?_cons_zero, Option.some.injEq] at top
  rwa [top] at popped

theorem lowerBinary_shifts {steps : Register → Register → Register → Compile (List Step)}
    (quiet : ∀ dst left right, Quiet (steps dst left right))
    (reaches : state.Reaches state.types.length) :
    Ensures (lowerBinary type result steps) subject state fun _ after =>
      state.Shifts [type, type] [result] after := by
  unfold lowerBinary
  refine (popOperands_shifts reaches).andThen fun regs _ popped => ?_
  simp only [ensures_bind]
  refine (popped.quietly (Quiet.takeRegister _ _ _)).mono fun dst _ taken => ?_
  refine (taken.quietly (quiet _ _ _)).mono fun _ _ made => ?_
  refine (made.quietly (Quiet.emit _)).mono fun _ _ emitted => ?_
  exact emitted.pushRegister _ _

theorem Quiet.vacate (reg : Register) : Quiet (vacate reg) :=
  get.bind fun _ => ite (spillRegister reg) pure

theorem lowerDivision_shifts (part : Sequence.DivisionPart) (signed : Bool)
    (reaches : state.Reaches state.types.length) :
    Ensures (lowerDivision part type signed) subject state fun _ after =>
      state.Shifts [type, type] [type] after := by
  unfold lowerDivision
  refine (popOperands_shifts reaches).andThen fun regs _ popped => ?_
  simp only [ensures_bind]
  refine (popped.quietly (Quiet.addTrap _)).mono fun zero _ trapped => ?_
  have finish : ∀ overflow middle, state.Shifts [type, type] [] middle →
      Ensures (do
        vacate .rax
        vacate .rdx
        let dst ← takeRegister .gp [regs.1, regs.2] RegSet.empty
        emit (Sequence.division part type signed dst regs.1 regs.2 zero overflow)
        pushRegister type dst) subject middle fun _ after =>
          state.Shifts [type, type] [type] after := by
    intro overflow middle both
    simp only [ensures_bind]
    refine (both.quietly (Quiet.vacate _)).mono fun _ _ first => ?_
    refine (first.quietly (Quiet.vacate _)).mono fun _ _ second => ?_
    refine (second.quietly (Quiet.takeRegister _ _ _)).mono fun dst _ taken => ?_
    refine (taken.quietly (Quiet.emit _)).mono fun _ _ emitted => ?_
    exact emitted.pushRegister _ _
  refine ensures_ite.mpr ⟨fun _ => ?_, fun _ => finish _ _ trapped⟩
  exact (trapped.quietly (Quiet.addTrap _)).andThen fun overflow _ both => finish _ _ both

theorem lowerIntBinary_shifts (width : IntWidth) (op : IntBinary)
    (reaches : state.Reaches state.types.length) :
    Ensures (lowerIntBinary width op) subject state fun _ after =>
      state.Shifts [width.type, width.type] [width.type] after := by
  unfold lowerIntBinary
  split
  · exact lowerDivision_shifts _ _ reaches
  · exact lowerBinary_shifts (fun _ _ _ => Quiet.get.bind fun _ => Quiet.pure) reaches
  · exact lowerBinary_shifts (fun _ _ _ => Quiet.pure) reaches

theorem lowerUnary_shifts {steps : Register → Register → List Step}
    (reaches : state.Reaches state.types.length) :
    Ensures (lowerUnary type result steps) subject state fun _ after =>
      state.Shifts [type] [result] after := by
  unfold lowerUnary
  rw [← bind_assoc, ensures_bind]
  refine (popOperand_shifts type _ reaches).mono fun src _ popped => ?_
  simp only [ensures_bind]
  refine (popped.quietly (Quiet.takeRegister _ _ _)).mono fun dst _ taken => ?_
  refine (taken.quietly (Quiet.emit _)).mono fun _ _ emitted => ?_
  exact emitted.pushRegister _ _

theorem lowerConversion_shifts (op : Conversion)
    (reaches : state.Reaches state.types.length) :
    Ensures (lowerConversion op) subject state fun _ after =>
      state.Shifts [op.operand] [op.result] after := by
  unfold lowerConversion
  rw [← bind_assoc, ensures_bind]
  refine (popOperand_shifts op.operand _ reaches).mono fun src _ popped => ?_
  simp only [ensures_bind]
  refine (popped.quietly (Quiet.takeRegister _ _ _)).mono fun dst _ taken => ?_
  have finish : ∀ trap middle, state.Shifts [op.operand] [] middle →
      Ensures (do emit (Sequence.conversion op dst src trap); pushRegister op.result dst)
        subject middle fun _ after => state.Shifts [op.operand] [op.result] after := by
    intro trap middle trapped
    refine (trapped.quietly (Quiet.emit _)).andThen fun _ _ emitted => ?_
    exact emitted.pushRegister _ _
  split
  · exact (taken.quietly (Quiet.addTrap _).map).andThen fun trap _ trapped =>
      finish trap _ trapped
  · exact finish .missing _ taken

theorem lowerSelect_shifts (reaches : state.Reaches state.types.length) :
    Ensures lowerSelect subject state fun _ after =>
      ∃ type, state.Shifts [type, type, .i32] [type] after := by
  unfold lowerSelect
  simp only [ensures_bind]
  refine (expect_finds 0 .i32).mono ?_
  rintro _ _ ⟨rfl, top, _⟩
  refine (operandType_finds 1).mono ?_
  rintro type _ ⟨rfl, second, _⟩
  refine (expect_finds 2 type).mono ?_
  rintro _ state ⟨rfl, third, _⟩
  refine ((Compilation.Shifts.refl reaches).popRegister _).mono fun condition _ popped => ?_
  obtain ⟨first, popped⟩ := popped
  refine (popped.popRegister _).mono fun otherwise _ popped => ?_
  obtain ⟨right, popped⟩ := popped
  refine (popped.popRegister _).mono fun chosen _ popped => ?_
  obtain ⟨left, popped⟩ := popped
  rw [popped.operand (by simp)] at top second third
  simp only [List.reverse_cons, List.reverse_nil, List.nil_append, List.cons_append,
    List.getElem?_cons_zero, List.getElem?_cons_succ,
    Option.some.injEq] at top second third
  rw [top, second, third] at popped
  refine (popped.quietly (Quiet.takeRegister _ _ _)).mono fun dst _ taken => ?_
  refine (taken.quietly (Quiet.emit _)).mono fun _ _ emitted => ?_
  exact (emitted.pushRegister _ _).mono fun _ _ pushed => ⟨type, pushed⟩

theorem pushBits_shifts (bits : UInt64) (reaches : state.Reaches state.types.length) :
    Ensures (pushBits type bits) subject state fun _ after => state.Shifts [] [type] after := by
  unfold pushBits
  simp only [ensures_bind]
  have start := Compilation.Shifts.refl reaches
  refine (start.quietly (Quiet.takeRegister _ _ _)).mono fun reg _ taken => ?_
  refine (taken.quietly (Quiet.emit _)).mono fun _ _ emitted => ?_
  exact emitted.pushRegister _ _

theorem lowerIntConst_shifts (width : IntWidth) (bits : UInt64)
    (reaches : state.Reaches state.types.length) :
    Ensures (lowerIntConst width bits) subject state fun _ after =>
      state.Shifts [] [width.type] after := by
  unfold lowerIntConst
  cases width with
  | w32 => exact (Compilation.Shifts.refl reaches).pushConst _ _
  | w64 =>
    exact ensures_ite.mpr ⟨fun _ => (Compilation.Shifts.refl reaches).pushConst _ _,
      fun _ => pushBits_shifts bits reaches⟩

theorem lowerFloatConst_shifts (width : FloatWidth) (bits : UInt64)
    (reaches : state.Reaches state.types.length) :
    Ensures (lowerFloatConst width bits) subject state fun _ after =>
      state.Shifts [] [width.type] after := by
  cases width <;> exact pushBits_shifts _ reaches

theorem localSlot_finds (index : UInt32) :
    Ensures (localSlot index) subject state fun slot after =>
      after = state ∧ index.toNat < subject.locals ∧
        state.layout.slots[index.toNat]? = some slot := by
  unfold localSlot
  simp only [ensures_bind, ensures_read, ensures_ite]
  refine ⟨fun _ => ensures_throw, fun inside => ?_⟩
  rw [ensures_get]
  split
  · rename_i slot found
    rw [Layout.slot?_natCast] at found
    exact ensures_pure.mpr ⟨rfl, by omega, found⟩
  · exact ensures_throw

theorem lowerLocalGet_shifts (index : UInt32) (reaches : state.Reaches state.types.length)
    (known : state.layout.Known) :
    Ensures (lowerLocalGet index) subject state fun _ after =>
      ∃ type, index.toNat < subject.locals ∧ state.types[index.toNat]? = some type ∧
        state.Shifts [] [type] after := by
  unfold lowerLocalGet
  refine (localSlot_finds index).andThen ?_
  rintro slot middle ⟨rfl, inside, found⟩
  have start := Compilation.Shifts.refl reaches
  have type : middle.types[index.toNat]? = some slot.type := by
    rw [Compilation.types, Layout.getElem?_types, found]
    rfl
  have finish : ∀ after : Compilation, middle.Shifts [] [slot.type] after →
      ∃ type, index.toNat < subject.locals ∧ middle.types[index.toNat]? = some type ∧
        middle.Shifts [] [type] after :=
    fun after shifts => ⟨slot.type, inside, type, shifts⟩
  split
  · exact (start.pushRegister _ _).mono fun _ after => finish after
  · exact (start.pushConst _ _).mono fun _ after => finish after
  · simp only [ensures_bind]
    refine (start.quietly (Quiet.takeRegister _ _ _)).mono fun _ _ taken => ?_
    refine (taken.quietly (Quiet.emit _)).mono fun _ _ emitted => ?_
    exact (emitted.pushRegister _ _).mono fun _ after => finish after
  · rename_i code place
    exact (known slot (Array.mem_of_getElem? found) code place).elim

theorem Quiet.releaseLocal (index : Nat) : Quiet (releaseLocal index) :=
  modifyLayout fun layout => by
    split
    · simp
    · rfl

theorem setLocalFromFrame_quiet {index : Nat} {slot : Slot}
    (found : state.types[index]? = some slot.type) :
    Ensures (setLocalFromFrame index slot) subject state fun _ after =>
      state.SameShape after := by
  unfold setLocalFromFrame
  simp only [ensures_bind, ensures_get]
  split
  · exact Quiet.emit _ subject state
  · simp only [ensures_bind, ensures_modifyLayout, ensures_emit]
    refine (Quiet.releaseLocal index subject state).mono fun _ released same => ?_
    have freed : state.SameShape
        { released with layout := released.layout.setSlot index (.inFrame slot.type) } :=
      same.trans (.set (.inFrame slot.type) (same.types ▸ found)
        (by simp [Slot.inFrame]) rfl rfl)
    refine (Quiet.takeRegister _ _ _ subject _).mono fun reg taken other => ?_
    have kept := freed.trans other
    exact kept.trans (.set (.inReg slot.type reg) (kept.types ▸ found)
      (by simp [Slot.inReg]) (by simp [Layout.setSlot]) rfl)

/-- Locals that change in place leave the operand on top or take it away. -/
theorem takeTop_shifts {middle : Compilation} {rest : List ValueType} (keep : Bool)
    (same : state.SameShape middle) (top : state.types = rest ++ [type])
    (reaches : state.Reaches rest.length) :
    Ensures (if !keep then modifyLayout Layout.pop else pure ()) subject middle
      fun _ after => state.Shifts [type] (if keep then [type] else []) after := by
  have types : middle.types = rest ++ [type] := same.types.trans top
  cases keep with
  | true =>
    exact ensures_pure.mpr ⟨same.outline, ⟨rest, top, types, reaches⟩, same.known⟩
  | false =>
    refine ensures_modifyLayout.mpr ⟨same.outline, ⟨rest, top, ?_, reaches⟩, ?_⟩
    · have popped : middle.layout.pop.types = middle.types.dropLast :=
        Layout.types_pop_eq_dropLast
      rw [types] at popped
      simpa [Compilation.types] using popped
    · exact fun known => (same.known known).pop

theorem lowerLocalSet_shifts (index : UInt32) (keep : Bool) (known : state.layout.Known) :
    Ensures (lowerLocalSet index keep) subject state fun _ after =>
      ∃ type, index.toNat < subject.locals ∧ state.types[index.toNat]? = some type ∧
        state.Shifts [type] (if keep then [type] else []) after := by
  unfold lowerLocalSet
  simp only [ensures_bind]
  refine (localSlot_finds index).mono ?_
  rintro slot _ ⟨rfl, inside, found⟩
  refine (expect_finds 0 slot.type).mono ?_
  rintro _ state ⟨rfl, operand, above⟩
  have declared := Layout.types_of_slot found
  rw [ensures_get]
  split
  · exact ensures_throw
  rename_i top isTop
  have split := Layout.types_pop isTop
  have type : top.type = slot.type := by
    rw [Compilation.types, split] at operand
    simpa using operand
  have whole : state.types = state.layout.pop.types ++ [slot.type] := type ▸ split
  have reaches : state.Reaches state.layout.pop.types.length := by
    intro block opened
    have bound := above block opened
    have height := congrArg List.length whole
    simp only [List.length_append, List.length_singleton] at height
    omega
  have place := known top (Array.mem_of_back? isTop)
  have finish := fun middle (same : state.SameShape middle) =>
    (@takeTop_shifts subject state slot.type middle _ keep same whole reaches).mono fun _ after shifts =>
      (⟨slot.type, inside, declared, shifts⟩ : ∃ type, index.toNat < subject.locals ∧
        state.types[index.toNat]? = some type ∧
        state.Shifts [type] (if keep then [type] else []) after)
  have moves : ∀ released : Compilation, state.SameShape released → state.SameShape
      { released with layout := released.layout.setSlot index.toNat top } :=
    fun released same => same.trans (.set top (same.types ▸ type ▸ declared) place rfl rfl)
  split
  · simp only [ensures_bind, ensures_modifyLayout]
    refine (Quiet.releaseLocal _ subject state).mono fun _ released same => ?_
    rw [ensures_ite]
    refine ⟨fun _ => ?_, fun _ => finish _ (moves released same)⟩
    rw [ensures_bind, ensures_modifyLayout]
    exact finish _ ((moves released same).trans (.of_slots (by simp) rfl))
  · simp only [ensures_bind, ensures_modifyLayout]
    refine (Quiet.releaseLocal _ subject state).mono fun _ released same => ?_
    exact finish _ (moves released same)
  · exact (setLocalFromFrame_quiet declared).andThen fun _ after same => finish after same
  · rename_i code unknown
    exact (place code unknown).elim

theorem globalAt_finds (index : UInt32) :
    Ensures (globalAt index) subject state fun global after =>
      after = state ∧ subject.module.globals[index.toNat]? = some global := by
  unfold globalAt
  simp only [ensures_bind, ensures_read]
  split
  · rename_i global found
    exact ensures_pure.mpr ⟨rfl, found⟩
  · exact ensures_throw

theorem lowerGlobalGet_shifts (index : UInt32) (reaches : state.Reaches state.types.length) :
    Ensures (lowerGlobalGet index) subject state fun _ after =>
      ∃ global, subject.module.globals[index.toNat]? = some global ∧
        state.Shifts [] [global.type] after := by
  unfold lowerGlobalGet
  simp only [ensures_bind]
  refine (globalAt_finds index).mono ?_
  rintro global _ ⟨rfl, found⟩
  refine ((Compilation.Shifts.refl reaches).machine ?_).mono fun _ _ shifts =>
    ⟨global, found, shifts⟩
  intro entered started
  simp only [ensures_bind]
  refine (started.quietly (Quiet.takeRegister _ _ _)).mono fun cell _ taken => ?_
  refine (taken.quietly (Quiet.loadRef _ _ _)).mono fun _ _ loaded => ?_
  refine (loaded.quietly (Quiet.takeRegister _ _ _)).mono fun dst _ taken => ?_
  refine (taken.quietly (Quiet.emit _)).mono fun _ _ emitted => ?_
  exact emitted.pushRegister _ _

theorem lowerGlobalSet_shifts (index : UInt32) (reaches : state.Reaches state.types.length) :
    Ensures (lowerGlobalSet index) subject state fun _ after =>
      ∃ global, subject.module.globals[index.toNat]? = some global ∧
        global.isMutable = true ∧ state.Shifts [global.type] [] after := by
  unfold lowerGlobalSet
  simp only [ensures_bind]
  refine (globalAt_finds index).mono ?_
  rintro global _ ⟨rfl, found⟩
  refine ensures_ite.mpr ⟨fun _ => ensures_bind.mpr ensures_throw, fun fixed => ?_⟩
  refine (expect_finds 0 global.type).andThen ?_
  rintro _ state ⟨rfl, operand, _⟩
  have mutable : global.isMutable = true := by simpa using fixed
  refine ((Compilation.Shifts.refl reaches).machine ?_).mono fun _ _ shifts =>
    ⟨global, found, mutable, shifts⟩
  intro entered started
  simp only [ensures_bind]
  refine (started.popRegister _).mono fun value _ popped => ?_
  obtain ⟨type, popped⟩ := popped
  have same : type = global.type := by
    rw [popped.operand (by simp)] at operand
    simpa using operand
  rw [same] at popped
  refine (popped.quietly (Quiet.takeRegister _ _ _)).mono fun cell _ taken => ?_
  refine (taken.quietly (Quiet.loadRef _ _ _)).mono fun _ _ loaded => ?_
  exact loaded.quietly (Quiet.emit _)

theorem demandMemory_finds :
    Ensures demandMemory subject state fun _ after =>
      after = state ∧ subject.module.memory.isSome = true := by
  unfold demandMemory
  simp only [ensures_bind, ensures_read]
  refine ensures_ite.mpr ⟨fun _ => ?_, fun declared => ensures_pure.mpr ⟨rfl, ?_⟩⟩
  · rw [ensures_bind, ensures_get]
    exact ensures_throw
  · simpa [Option.isSome_iff_ne_none] using declared

/-- Code behind a certain trap differs in its reachability only. -/
theorem demoteBlock_shifts {ins outs : List ValueType} {before : Compilation}
    (shifts : before.Shifts ins outs state) :
    Ensures demoteBlock subject state fun _ after => before.Shifts ins outs after := by
  have outlines : (state.blocks.modify 0 fun block =>
      if block.isReached then { block with reach := .specOnly } else block).map
        Block.outline = state.outline := by
    unfold Compilation.outline
    cases state.blocks with
    | nil => rfl
    | cons block outer =>
      simp only [List.modify_zero_cons, List.map_cons, List.cons.injEq, and_true]
      unfold Block.outline Block.isReached
      by_cases reached : block.reach = .reachable <;> simp [reached]
  obtain ⟨rest, taken, left, reaches⟩ := shifts.types
  exact ensures_modifyBlock.mpr
    ⟨outlines.trans shifts.blocks, ⟨rest, taken, left, reaches⟩, shifts.known⟩

theorem checkBounds_shifts {ins outs : List ValueType} {before : Compilation}
    (index : Register) (offset : UInt32) (bytes : Nat)
    (shifts : before.Shifts ins outs state) :
    Ensures (checkBounds index offset bytes) subject state fun _ after =>
      before.Shifts ins outs after := by
  unfold checkBounds
  simp only [ensures_bind, ensures_read]
  refine ensures_ite.mpr ⟨fun _ => ensures_pure.mpr shifts, fun _ => ?_⟩
  refine ensures_ite.mpr ⟨fun _ => ?_, fun _ => ?_⟩
  · simp only [ensures_bind]
    refine (shifts.quietly (Quiet.addTrap _)).mono fun trap _ trapped => ?_
    refine (trapped.quietly (Quiet.emit _)).mono fun _ _ jumped => ?_
    exact demoteBlock_shifts jumped
  · refine ensures_ite.mpr ⟨fun _ => ensures_pure.mpr shifts, fun _ => ?_⟩
    simp only [ensures_bind]
    refine (shifts.quietly (Quiet.addTrap _)).mono fun trap _ trapped => ?_
    refine (trapped.quietly (Quiet.emit _)).mono fun _ _ compared => ?_
    refine (compared.quietly (Quiet.loadRef _ _ _)).mono fun _ _ loaded => ?_
    exact loaded.quietly (Quiet.emit _)

theorem lowerLoad_shifts (op : LoadOp) (offset : UInt32)
    (reaches : state.Reaches state.types.length) :
    Ensures (lowerLoad op offset) subject state fun _ after =>
      subject.module.memory.isSome = true ∧ state.Shifts [.i32] [op.result] after := by
  unfold lowerLoad
  refine demandMemory_finds.andThen ?_
  rintro _ _ ⟨rfl, memory⟩
  rw [← bind_assoc, ensures_bind]
  refine (popOperand_shifts .i32 _ reaches).mono fun index _ popped => ?_
  refine (checkBounds_shifts index offset op.bytes popped).andThen fun _ _ checked => ?_
  refine (checked.machine ?_).mono fun _ _ shifts => ⟨memory, shifts⟩
  intro entered started
  simp only [ensures_bind]
  refine (started.quietly (Quiet.takeRegister _ _ _)).mono fun base _ taken => ?_
  refine (taken.quietly (Quiet.loadRef _ _ _)).mono fun _ _ loaded => ?_
  refine (loaded.quietly (Quiet.takeRegister _ _ _)).mono fun dst _ taken => ?_
  refine (taken.quietly (Quiet.emit _)).mono fun _ _ prepared => ?_
  refine (prepared.quietly (Quiet.emit _)).mono fun _ _ emitted => ?_
  exact emitted.pushRegister _ _

theorem lowerStore_shifts (op : StoreOp) (offset : UInt32)
    (reaches : state.Reaches state.types.length) :
    Ensures (lowerStore op offset) subject state fun _ after =>
      subject.module.memory.isSome = true ∧ state.Shifts [.i32, op.operand] [] after := by
  unfold lowerStore
  simp only [ensures_bind]
  refine demandMemory_finds.mono ?_
  rintro _ _ ⟨rfl, memory⟩
  refine (expect_finds 0 op.operand).mono ?_
  rintro _ _ ⟨rfl, top, _⟩
  refine (expect_finds 1 .i32).mono ?_
  rintro _ state ⟨rfl, second, _⟩
  refine ((Compilation.Shifts.refl reaches).popRegister _).mono fun value _ popped => ?_
  obtain ⟨right, popped⟩ := popped
  refine (popped.popRegister _).mono fun index _ popped => ?_
  obtain ⟨left, popped⟩ := popped
  rw [popped.operand (by simp)] at top second
  simp only [List.reverse_cons, List.reverse_nil, List.nil_append, List.singleton_append,
    List.getElem?_cons_zero, List.getElem?_cons_succ, Option.some.injEq] at top second
  rw [top, second] at popped
  refine (checkBounds_shifts index offset op.bytes popped).mono fun _ _ checked => ?_
  refine (checked.machine ?_).mono fun _ _ shifts => ⟨memory, shifts⟩
  intro entered started
  simp only [ensures_bind]
  refine (started.quietly (Quiet.takeRegister _ _ _)).mono fun base _ taken => ?_
  refine (taken.quietly (Quiet.loadRef _ _ _)).mono fun _ _ loaded => ?_
  refine (loaded.quietly (Quiet.emit _)).mono fun _ _ prepared => ?_
  exact prepared.quietly (Quiet.emit _)

theorem Quiet.loadPages (dst cell : Register) : Quiet (loadPages dst cell) :=
  (loadRef _ _ _).bind fun _ => emit _

theorem lowerMemorySize_shifts (reaches : state.Reaches state.types.length) :
    Ensures lowerMemorySize subject state fun _ after =>
      subject.module.memory.isSome = true ∧ state.Shifts [] [.i32] after := by
  unfold lowerMemorySize
  simp only [ensures_bind, ensures_read]
  refine demandMemory_finds.mono ?_
  rintro _ state ⟨rfl, memory⟩
  have start := Compilation.Shifts.refl reaches
  refine (start.quietly (Quiet.takeRegister _ _ _)).mono fun dst _ taken => ?_
  have finish : ∀ middle, state.Shifts [] [] middle →
      Ensures (pushRegister .i32 dst) subject middle fun _ after =>
        subject.module.memory.isSome = true ∧ state.Shifts [] [.i32] after :=
    fun middle shifts => (shifts.pushRegister _ _).mono fun _ _ pushed => ⟨memory, pushed⟩
  refine ensures_ite.mpr ⟨fun _ => ?_, fun _ => ?_⟩
  · exact (taken.quietly (Quiet.emit _)).andThen fun _ _ emitted => finish _ emitted
  · exact (taken.quietly (Quiet.machine (Quiet.loadPages _ _))).andThen fun _ _ loaded =>
      finish _ loaded

theorem lowerMemoryGrow_shifts (reaches : state.Reaches state.types.length) :
    Ensures lowerMemoryGrow subject state fun _ after =>
      subject.module.memory.isSome = true ∧ state.Shifts [.i32] [.i32] after := by
  unfold lowerMemoryGrow
  simp only [ensures_bind, ensures_read]
  refine demandMemory_finds.mono ?_
  rintro _ _ ⟨rfl, memory⟩
  refine (expect_finds 0 .i32).mono ?_
  rintro _ state ⟨rfl, top, _⟩
  have start := Compilation.Shifts.refl reaches
  have single : ∀ {type : ValueType} {after : Compilation}, state.Shifts [type] [] after →
      type = .i32 := by
    intro type after popped
    rw [popped.operand (by simp)] at top
    simpa using top
  refine ensures_ite.mpr ⟨fun _ => ?_, fun _ => ?_⟩
  · simp only [ensures_bind]
    refine start.dropOperand.mono fun _ _ popped => ?_
    obtain ⟨type, popped⟩ := popped
    rw [single popped] at popped
    refine (popped.quietly (Quiet.takeRegister _ _ _)).mono fun dst _ taken => ?_
    refine (taken.quietly (Quiet.emit _)).mono fun _ _ emitted => ?_
    exact (emitted.pushRegister _ _).mono fun _ _ pushed => ⟨memory, pushed⟩
  · refine (start.popRegister _).andThen fun delta _ popped => ?_
    obtain ⟨type, popped⟩ := popped
    rw [single popped] at popped
    refine (popped.machine ?_).mono fun _ _ shifts => ⟨memory, shifts⟩
    intro entered started
    simp only [ensures_bind]
    refine (started.quietly (Quiet.takeRegister _ _ _)).mono fun cell _ taken => ?_
    refine (taken.quietly (Quiet.takeRegister _ _ _)).mono fun dst _ taken => ?_
    refine (taken.quietly (Quiet.loadPages _ _)).mono fun _ _ loaded => ?_
    refine (loaded.quietly (Quiet.emit _)).mono fun _ _ emitted => ?_
    exact emitted.pushRegister _ _

theorem demandArguments_finds (params : List ValueType) :
    Ensures (demandArguments params) subject state fun _ after =>
      after = state ∧ state.types.reverse.take params.length = params.reverse := by
  induction params with
  | nil => exact ensures_pure.mpr ⟨rfl, rfl⟩
  | cons type rest ih =>
    rw [demandArguments, ensures_bind]
    refine (expect_finds rest.length type).mono ?_
    rintro _ _ ⟨rfl, operand, _⟩
    refine ih.mono ?_
    rintro _ _ ⟨rfl, others⟩
    refine ⟨rfl, ?_⟩
    rw [List.length_cons, List.take_add_one, others, operand]
    simp

theorem Quiet.storeBelow (count : Nat) : Quiet (storeBelow count) := by
  intro subject state
  unfold Compile.storeBelow
  refine (ensures_forIn (state.SameShape ·) (.refl state) ?_).andThen fun _ _ same =>
    ensures_pure.mpr same
  intro index _ middle same
  simp only [ensures_bind, ensures_get]
  split
  · rename_i type reg found
    rw [Layout.slot?_natCast] at found
    simp only [ensures_bind, ensures_emit, ensures_needSlot, ensures_modifyLayout, ensures_pure,
      true_and]
    exact same.trans (.store found rfl rfl)
  · exact ensures_pure.mpr ⟨rfl, same⟩

/-- The arguments are taken off together. -/
theorem dropArguments_shifts {middle : Compilation} {rest params : List ValueType}
    (same : state.SameShape middle) (types : state.types = rest ++ params)
    (reaches : state.Reaches rest.length) (source : Layout) (action : TransferM Unit)
    (held : Register) :
    Ensures (do
      transfer source action
      modifyLayout fun layout =>
        { layout.forgetAll with slots := layout.slots.extract 0 rest.length }
      return held) subject middle fun _ after => state.Shifts params [] after := by
  simp only [ensures_bind, ensures_modifyLayout, ensures_pure]
  refine (Quiet.transfer source action subject middle).mono fun _ moved other => ?_
  have kept := same.trans other
  refine ⟨kept.outline, ⟨rest, types, ?_, reaches⟩, fun known => ?_⟩
  · have cut : (moved.layout.slots.extract 0 rest.length).toList.map Slot.type =
        moved.types.take rest.length := by
      simp [Compilation.types, Layout.types, List.map_take]
    rw [kept.types, types, List.take_left] at cut
    simpa [Compilation.types, Layout.types] using cut
  · intro slot member
    have listed : slot ∈ moved.layout.slots.toList.take rest.length := by
      simpa using Array.mem_toList_iff.mpr member
    exact kept.known known slot (Array.mem_toList_iff.mp (List.mem_of_mem_take listed))

theorem prepareCall_shifts (type : FuncType) (signature : Signature) (target : Register) :
    Ensures (prepareCall type signature target) subject state fun _ after =>
      state.Shifts type.params [] after := by
  unfold prepareCall innermost
  rw [ensures_bind, ensures_bind, ensures_get]
  split
  · rename_i block outer opened
    rw [ensures_pure, ensures_bind, ensures_get]
    refine ensures_ite.mpr ⟨fun _ => ensures_bind.mpr ensures_throw, fun above => ?_⟩
    refine (demandArguments_finds type.params).andThen ?_
    rintro _ state ⟨rfl, arguments⟩
    obtain ⟨below, top⟩ : type.params <:+ state.types := by
      rw [← List.reverse_prefix, ← arguments]
      exact List.take_prefix _ _
    have first : state.layout.height - type.params.length = below.length := by
      rw [← Compilation.length_types, ← top]
      simp
    have reaches : state.Reaches below.length := by
      intro other found
      rw [opened] at found
      cases found
      rw [← Compilation.length_types, ← top, List.length_append] at above
      omega
    refine (Quiet.storeBelow _ subject state).andThen fun _ stored same => ?_
    refine ensures_ite.mpr ⟨fun _ => ?_, fun _ => ?_⟩
    · rw [ensures_bind, ensures_emit, ensures_bind, ensures_get, first]
      refine dropArguments_shifts ?_ top.symm reaches _ _ _
      exact same.trans (.of_slots rfl rfl)
    · rw [ensures_bind, ensures_get, first]
      exact dropArguments_shifts same top.symm reaches _ _ _
  · exact ensures_throw

theorem finishCall_shifts {ins : List ValueType} {before : Compilation} (type : FuncType)
    (few : type.results.length ≤ 1) (shifts : before.Shifts ins [] state) :
    Ensures (finishCall (.ofType type)) subject state fun _ after =>
      before.Shifts ins type.results after := by
  have popped : ∀ (condition : Prop) [Decidable condition] (steps : List Step)
      (push : Compile Unit),
      (∀ middle, before.Shifts ins [] middle →
        Ensures push subject middle fun _ after => before.Shifts ins type.results after) →
      Ensures (do
        if condition then emit steps
        push) subject state fun _ after => before.Shifts ins type.results after := by
    intro condition _ steps push finish
    refine ensures_ite.mpr ⟨fun _ => ?_, fun _ => finish _ shifts⟩
    exact (shifts.quietly (Quiet.emit _)).andThen fun _ _ emitted => finish _ emitted
  unfold finishCall
  apply popped
  intro middle shifts
  cases results : type.results with
  | nil =>
    simp only [Signature.ofType, results]
    exact ensures_pure.mpr shifts
  | cons result others =>
    have single : others = [] := by simpa [results] using few
    subst single
    simp only [Signature.ofType, results]
    exact shifts.pushRegister _ _

theorem calleeSignature_finds (type : FuncType) :
    Ensures (calleeSignature type) subject state fun signature after =>
      after = state ∧ type.results.length ≤ 1 ∧ signature = .ofType type := by
  unfold calleeSignature
  refine ensures_ite.mpr ⟨fun _ => ensures_bind.mpr ensures_throw, fun few => ?_⟩
  exact ensures_pure.mpr ⟨rfl, by omega, rfl⟩

theorem lowerCall_shifts (index : UInt32) :
    Ensures (lowerCall index) subject state fun _ after =>
      ∃ type, subject.module.functionType index = .ok type ∧ type.results.length ≤ 1 ∧
        state.Shifts type.params type.results after := by
  unfold lowerCall
  rw [ensures_bind, ensures_read]
  split
  · exact ensures_throw
  · rename_i type found
    refine (calleeSignature_finds type).andThen ?_
    rintro _ state ⟨rfl, few, rfl⟩
    simp only [ensures_bind]
    refine (prepareCall_shifts type _ _).mono fun _ prepared shifts => ?_
    have calls : Quiet (do
        let address ← takeRegister .gp [] (Signature.ofType type).registers
        loadRef address .func index
        emit [.emit (.callReg address)]) :=
      (Quiet.takeRegister _ _ _).bind fun _ => (Quiet.loadRef _ _ _).bind fun _ => Quiet.emit _
    refine (shifts.quietly (Quiet.machine calls)).mono fun _ _ called => ?_
    exact (finishCall_shifts type few called).mono fun _ _ done => ⟨type, found, few, done⟩

theorem lowerCallIndirect_shifts (index : UInt32) (reaches : state.Reaches state.types.length) :
    Ensures (lowerCallIndirect index) subject state fun _ after =>
      ∃ type, subject.module.typeAt index = .ok type ∧ type.results.length ≤ 1 ∧
        state.Shifts (type.params ++ [.i32]) type.results after := by
  unfold lowerCallIndirect
  rw [ensures_bind, ensures_read]
  dsimp only
  split
  · exact ensures_throw
  · rename_i type found
    refine (calleeSignature_finds type).andThen ?_
    rintro _ state ⟨rfl, few, rfl⟩
    rw [← bind_assoc, ensures_bind]
    refine (popOperand_shifts .i32 _ reaches).mono fun entryIndex _ popped => ?_
    simp only [ensures_bind]
    refine (popped.quietly (Quiet.takeRegister _ _ _)).mono fun table _ taken => ?_
    refine (taken.quietly (Quiet.takeRegister _ _ _)).mono fun entry _ taken => ?_
    refine (taken.quietly (Quiet.addTrap _)).mono fun undefined _ trapped => ?_
    refine (trapped.quietly (Quiet.loadRef _ _ _)).mono fun _ _ loaded => ?_
    refine (loaded.quietly (Quiet.emit _)).mono fun _ _ emitted => ?_
    refine (emitted.quietly (Quiet.addTrap _)).mono fun mismatch _ trapped => ?_
    refine (trapped.quietly (Quiet.loadRef _ _ _)).mono fun _ _ loaded => ?_
    refine (loaded.quietly (Quiet.emit _)).mono fun _ _ emitted => ?_
    refine (emitted.quietly (Quiet.loadRef _ _ _)).mono fun _ _ loaded => ?_
    refine (loaded.quietly (Quiet.emit _)).mono fun _ _ emitted => ?_
    refine (prepareCall_shifts type _ _).mono fun callee _ prepared => ?_
    refine ((emitted.pop prepared).quietly (Quiet.machine (Quiet.emit _))).mono
      fun _ _ called => ?_
    exact (finishCall_shifts type few called).mono fun _ _ done => ⟨type, found, few, done⟩

/-- A scope that describes the locals of a state and the module of its subject. -/
structure Describes (subject : Subject) (state : Compilation) (scope : Scope) : Prop where
  module : scope.module = subject.module
  locals : scope.locals = state.types.take subject.locals

theorem Describes.local? {scope : Scope} (describes : Describes subject state scope)
    {index : Nat} (inside : index < subject.locals) (found : state.types[index]? = some type) :
    scope.locals[index]? = some type := by
  rw [describes.locals, List.getElem?_take_of_lt inside, found]

theorem lower_plain {scope : Scope} (instr : Instr) (describes : Describes subject state scope)
    (reaches : state.Reaches state.types.length) (known : state.layout.Known)
    (plain : instr.op.isPlain = true) :
    Ensures (lower instr.op instr) subject state fun _ after =>
      ∃ ins outs, instr.Takes scope ins outs ∧ state.Shifts ins outs after := by
  have finish : ∀ {action : Compile Unit} (ins outs : List ValueType),
      instr.Takes scope ins outs →
      Ensures action subject state (fun _ after => state.Shifts ins outs after) →
      Ensures action subject state fun _ after =>
        ∃ ins outs, instr.Takes scope ins outs ∧ state.Shifts ins outs after :=
    fun ins outs takes ensures => ensures.mono fun _ _ shifts => ⟨ins, outs, takes, shifts⟩
  cases op : instr.op
  case nop =>
    exact ensures_pure.mpr ⟨[], [], by simp [Instr.Takes, op], .refl reaches⟩
  case drop =>
    refine dropOperand_shifts.mono ?_
    rintro _ _ ⟨type, shifts⟩
    exact ⟨[type], [], by simp [Instr.Takes, op], shifts⟩
  case select =>
    refine (lowerSelect_shifts reaches).mono ?_
    rintro _ _ ⟨type, shifts⟩
    exact ⟨_, _, by simp [Instr.Takes, op], shifts⟩
  case localGet =>
    refine (lowerLocalGet_shifts instr.index reaches known).mono ?_
    rintro _ _ ⟨type, inside, found, shifts⟩
    exact ⟨_, _, by simp [Instr.Takes, op, describes.local? inside found], shifts⟩
  case localSet =>
    refine (lowerLocalSet_shifts instr.index false known).mono ?_
    rintro _ _ ⟨type, inside, found, shifts⟩
    exact ⟨_, _, by simp [Instr.Takes, op, describes.local? inside found], shifts⟩
  case localTee =>
    refine (lowerLocalSet_shifts instr.index true known).mono ?_
    rintro _ _ ⟨type, inside, found, shifts⟩
    exact ⟨_, _, by simp [Instr.Takes, op, describes.local? inside found], shifts⟩
  case globalGet =>
    refine (lowerGlobalGet_shifts instr.index reaches).mono ?_
    rintro _ _ ⟨global, found, shifts⟩
    exact ⟨_, _, by simp [Instr.Takes, op, describes.module, found], shifts⟩
  case globalSet =>
    refine (lowerGlobalSet_shifts instr.index reaches).mono ?_
    rintro _ _ ⟨global, found, mutable, shifts⟩
    exact ⟨_, _, by simp [Instr.Takes, op, describes.module, found, mutable], shifts⟩
  case load op' =>
    refine (lowerLoad_shifts op' instr.offset reaches).mono ?_
    rintro _ _ ⟨memory, shifts⟩
    exact ⟨_, _, by simp [Instr.Takes, op, describes.module, memory], shifts⟩
  case store op' =>
    refine (lowerStore_shifts op' instr.offset reaches).mono ?_
    rintro _ _ ⟨memory, shifts⟩
    exact ⟨_, _, by simp [Instr.Takes, op, describes.module, memory], shifts⟩
  case memorySize =>
    refine (lowerMemorySize_shifts reaches).mono ?_
    rintro _ _ ⟨memory, shifts⟩
    exact ⟨_, _, by simp [Instr.Takes, op, describes.module, memory], shifts⟩
  case memoryGrow =>
    refine (lowerMemoryGrow_shifts reaches).mono ?_
    rintro _ _ ⟨memory, shifts⟩
    exact ⟨_, _, by simp [Instr.Takes, op, describes.module, memory], shifts⟩
  case intConst width =>
    exact finish _ _ (by simp [Instr.Takes, op]) (lowerIntConst_shifts width _ reaches)
  case floatConst width =>
    exact finish _ _ (by simp [Instr.Takes, op]) (lowerFloatConst_shifts width _ reaches)
  case eqz width =>
    exact finish _ _ (by simp [Instr.Takes, op]) (lowerUnary_shifts reaches)
  case intCompare width relation =>
    exact finish _ _ (by simp [Instr.Takes, op])
      (lowerBinary_shifts (fun _ _ _ => Quiet.pure) reaches)
  case floatCompare width relation =>
    exact finish _ _ (by simp [Instr.Takes, op])
      (lowerBinary_shifts (fun _ _ _ => Quiet.pure) reaches)
  case intUnary width op' =>
    exact finish _ _ (by simp [Instr.Takes, op]) (lowerUnary_shifts reaches)
  case intBinary width op' =>
    exact finish _ _ (by simp [Instr.Takes, op]) (lowerIntBinary_shifts width op' reaches)
  case floatUnary width op' =>
    exact finish _ _ (by simp [Instr.Takes, op]) (lowerUnary_shifts reaches)
  case floatBinary width op' =>
    exact finish _ _ (by simp [Instr.Takes, op])
      (lowerBinary_shifts (fun _ _ _ => Quiet.pure) reaches)
  case convert op' =>
    exact finish _ _ (by simp [Instr.Takes, op]) (lowerConversion_shifts op' reaches)
  case call =>
    refine (lowerCall_shifts instr.index).mono ?_
    rintro _ _ ⟨type, found, few, shifts⟩
    exact ⟨_, _, by simp [Instr.Takes, op, describes.module, found, few], shifts⟩
  case callIndirect =>
    refine (lowerCallIndirect_shifts instr.index reaches).mono ?_
    rintro _ _ ⟨type, found, few, shifts⟩
    exact ⟨_, _, by simp [Instr.Takes, op, describes.module, found, few], shifts⟩
  case unknown code => exact ensures_throw
  all_goals simp [op, Opcode.isPlain] at plain

end Compile

end WasmX64
