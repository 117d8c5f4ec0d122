import WasmX64.Proofs.Typing.Stack

/-!
# Operands by their types

Register allocation is quiet.  `Shifts ins outs` describes an action on operands: it
takes `ins` off the stack above the base of the innermost block and leaves `outs`.
-/

namespace WasmX64

namespace Compile.Quiet

theorem spillHolders (reg : Register) (index remaining : Nat) :
    Quiet (spillHolders reg index remaining) := by
  induction index generalizing remaining with
  | zero => exact pure
  | succ index ih =>
    intro subject state
    rw [Compile.spillHolders]
    simp only [ensures_bind, ensures_ite, ensures_get]
    refine ⟨fun _ => ensures_pure.mpr (.refl state), fun _ => ?_⟩
    split
    · rename_i slot found
      refine ensures_ite.mpr ⟨fun _ => ?_, fun _ => ih remaining subject state⟩
      rw [Layout.slot?_natCast] at found
      simp only [ensures_bind, ensures_emit, ensures_needSlot, ensures_modifyLayout]
      refine (ih _ subject _).mono fun _ after same => ?_
      refine Compilation.SameShape.trans ?_ same
      exact .store found rfl rfl
    · exact ih remaining subject state

theorem spillRegister (reg : Register) : Quiet (spillRegister reg) := by
  have forgets : Quiet (Compile.modifyLayout (·.forget reg)) :=
    modifyLayout fun _ => by simp
  have spills : Quiet (do
      let layout := (← MonadState.get).layout
      let remaining ← Compile.spillHolders reg layout.height (layout.count reg)
      if remaining ≠ 0 then MonadExcept.throw (.broken (.useCount reg))
      Compile.modifyLayout (·.forget reg)) :=
    get.bind fun _ => (spillHolders _ _ _).bind fun _ =>
      ite (throw.bind fun _ => forgets) forgets
  exact ite (throw.bind fun _ => spills) spills

theorem spillOne (bank : RegClass) (pinned : RegSet) : Quiet (spillOne bank pinned) := by
  refine get.bind fun state => ?_
  have spills : ∀ reg spared, Quiet (do
      Compile.modifyLayout ({ · with lastSpilled := spared })
      Compile.spillRegister reg
      return reg) := by
    intro reg spared
    refine Quiet.bind ?_ fun _ => (spillRegister reg).bind fun _ => pure
    exact modifyLayout fun _ => rfl
  exact ite (throw.bind fun _ => spills _ _) (spills _ _)

theorem takeRegister (bank : RegClass) (wishes : List Register) (pinned : RegSet) :
    Quiet (takeRegister bank wishes pinned) := by
  refine get.bind fun state => ?_
  dsimp only
  split
  · exact pure
  · split
    · exact pure
    · exact spillOne bank pinned

theorem materialize (reg : Register) (slot : Slot) (index : Int) :
    Quiet (materialize reg slot index) := by
  unfold Compile.materialize
  split
  · exact emit _
  · exact emit _
  · exact emit _
  · exact pure

theorem spillSlot (index : Int) : Quiet (spillSlot index) := by
  intro subject state
  unfold Compile.spillSlot
  simp only [ensures_bind, ensures_get]
  split
  · exact ensures_throw
  · rename_i slot found
    have here := Layout.getElem?_of_slot? found
    split
    · simp only [ensures_bind, ensures_emit, ensures_needSlot, ensures_modifyLayout]
      exact .store here (by simp [Layout.setSlot]) rfl
    · simp only [ensures_bind, ensures_emit, ensures_needSlot, ensures_modifyLayout]
      exact .store here rfl rfl
    · exact ensures_pure.mpr (.refl state)

theorem spillLocals : Quiet spillLocals := by
  intro subject state
  unfold Compile.spillLocals
  simp only [ensures_bind, ensures_read]
  refine (ensures_forIn (state.SameShape ·) (.refl state) ?_).mono fun _ _ same =>
    ensures_pure.mpr same
  intro index _ middle same
  exact (spillSlot index subject middle).andThen fun _ _ after =>
    ensures_pure.mpr ⟨rfl, same.trans after⟩

end Compile.Quiet

/-- A block without the difference between reachable code and code compiled for its
types only. -/
def Block.outline (block : Block) : Block :=
  { block with reach := if block.reach = .unreachable then .unreachable else .reachable }

namespace Compilation

/-- The open blocks by their outlines. -/
def outline (state : Compilation) : List Block := state.blocks.map Block.outline

/-- At least `height` slots reach the base of the innermost block. -/
def Reaches (state : Compilation) (height : Nat) : Prop :=
  ∀ block, state.blocks.head? = some block → block.base ≤ height

theorem SameShape.outline {before after : Compilation} (same : before.SameShape after) :
    after.outline = before.outline := by
  simp [Compilation.outline, same.blocks]

theorem Reaches.congr {before after : Compilation} {height : Nat}
    (same : after.outline = before.outline) (reaches : before.Reaches height) :
    after.Reaches height := by
  intro block found
  have heads : (after.blocks.map Block.outline).head? = (before.blocks.map Block.outline).head? :=
    congrArg List.head? same
  rw [List.head?_map, List.head?_map, found] at heads
  cases first : before.blocks.head? with
  | none => simp [first] at heads
  | some other =>
    have bases : block.base = other.base := by
      simpa [first, Block.outline] using congrArg (Option.map Block.base) heads
    rw [bases]
    exact reaches other first

/-- Operands of the types `ins` have been replaced by operands of the types `outs`. -/
structure Shifts (ins outs : List ValueType) (before after : Compilation) : Prop where
  blocks : after.outline = before.outline
  types : ∃ rest, before.types = rest ++ ins ∧ after.types = rest ++ outs ∧
    before.Reaches rest.length
  known : before.layout.Known → after.layout.Known

namespace Shifts

variable {ins outs : List ValueType} {type : ValueType} {before middle after : Compilation}

theorem refl (reaches : before.Reaches before.types.length) : Shifts [] [] before before :=
  ⟨rfl, ⟨before.types, by simp, by simp, reaches⟩, id⟩

theorem then_same (shifts : Shifts ins outs before middle) (same : middle.SameShape after) :
    Shifts ins outs before after := by
  obtain ⟨rest, taken, left, reaches⟩ := shifts.types
  exact ⟨same.outline.trans shifts.blocks, ⟨rest, taken, same.types.trans left, reaches⟩,
    same.known ∘ shifts.known⟩

theorem of_same (same : before.SameShape after)
    (reaches : before.Reaches before.types.length) : Shifts [] [] before after :=
  (refl reaches).then_same same

/-- More operands are taken off. -/
theorem pop {more : List ValueType} (shifts : Shifts ins [] before middle)
    (popped : Shifts more [] middle after) : Shifts (more ++ ins) [] before after := by
  obtain ⟨rest, taken, left, _⟩ := shifts.types
  obtain ⟨below, top, lower, reaches⟩ := popped.types
  refine ⟨popped.blocks.trans shifts.blocks, ⟨below, ?_, lower,
    reaches.congr shifts.blocks.symm⟩, popped.known ∘ shifts.known⟩
  rw [taken, ← List.append_nil rest, ← left, top, List.append_assoc]

/-- One more operand is left. -/
theorem push (shifts : Shifts ins outs before middle)
    (types : after.types = middle.types ++ [type]) (blocks : after.outline = middle.outline)
    (known : middle.layout.Known → after.layout.Known) :
    Shifts ins (outs ++ [type]) before after := by
  obtain ⟨rest, taken, left, reaches⟩ := shifts.types
  refine ⟨blocks.trans shifts.blocks, ⟨rest, taken, ?_, reaches⟩, known ∘ shifts.known⟩
  rw [types, left, List.append_assoc]

theorem operand (shifts : Shifts ins outs before after) {depth : Nat}
    (inside : depth < ins.length) :
    before.types.reverse[depth]? = ins.reverse[depth]? := by
  obtain ⟨rest, taken, _, _⟩ := shifts.types
  rw [taken, List.reverse_append, List.getElem?_append_left (by simpa using inside)]

end Shifts

end Compilation

namespace Compile

variable {subject : Subject} {state : Compilation}

theorem popSlot_shifts :
    Ensures popSlot subject state fun slot after => state.Shifts [slot.type] [] after := by
  unfold popSlot innermost
  simp only [ensures_bind, ensures_get]
  split
  · rename_i block outer opened
    simp only [ensures_pure, ensures_ite, ensures_bind]
    refine ⟨fun _ => ensures_throw, fun above => ?_⟩
    split
    · rename_i slot top
      simp only [ensures_bind, ensures_modifyLayout, ensures_pure]
      have split := Layout.types_pop top
      refine ⟨rfl, ⟨state.layout.pop.types, split, by simp [Compilation.types], ?_⟩,
        Layout.Known.pop⟩
      intro other found
      rw [opened] at found
      cases found
      have height := congrArg List.length split
      simp only [Layout.length_types, List.length_append, List.length_singleton] at height ⊢
      omega
    · exact ensures_throw
  · exact ensures_throw

theorem popRegister_shifts (pinned : RegSet) :
    Ensures (popRegister pinned) subject state fun _ after =>
      ∃ type, state.Shifts [type] [] after := by
  unfold popRegister
  simp only [ensures_bind]
  refine popSlot_shifts.mono fun slot middle popped => ?_
  split
  · rename_i reg _
    simp only [ensures_bind, ensures_pure]
    exact (Quiet.release reg subject middle).mono fun _ _ same =>
      ⟨slot.type, popped.then_same same⟩
  · simp only [ensures_bind, ensures_pure]
    refine (Quiet.takeRegister _ _ _ subject middle).mono fun reg taken same => ?_
    rw [ensures_get]
    exact (Quiet.materialize _ _ _ subject taken).mono fun _ _ other =>
      ⟨slot.type, popped.then_same (same.trans other)⟩

theorem dropOperand_shifts :
    Ensures dropOperand subject state fun _ after => ∃ type, state.Shifts [type] [] after := by
  unfold dropOperand
  simp only [ensures_bind]
  refine popSlot_shifts.mono fun slot middle popped => ?_
  split
  · rename_i reg _
    exact (Quiet.release reg subject middle).mono fun _ _ same =>
      ⟨slot.type, popped.then_same same⟩
  · exact ensures_pure.mpr ⟨slot.type, popped⟩

theorem operandType_finds (depth : Nat) :
    Ensures (operandType depth) subject state fun type after =>
      after = state ∧ state.types.reverse[depth]? = some type ∧
        ∀ block, state.blocks.head? = some block → block.base + depth < state.types.length := by
  unfold operandType innermost
  simp only [ensures_bind, ensures_get]
  split
  · rename_i block outer opened
    simp only [ensures_pure, ensures_ite, ensures_bind]
    refine ⟨fun _ => ensures_throw, fun above => ?_⟩
    split
    · rename_i slot found
      refine ensures_pure.mpr ⟨rfl, ?_, ?_⟩
      · have peeked := @Layout.peek?_natCast state.layout depth
        rw [found] at peeked
        exact peeked.symm
      · intro other first
        rw [opened] at first
        cases first
        rw [Compilation.length_types]
        omega
    · exact ensures_throw
  · exact ensures_throw

theorem expect_finds (depth : Nat) (type : ValueType) :
    Ensures (expect depth type) subject state fun _ after =>
      after = state ∧ state.types.reverse[depth]? = some type ∧
        ∀ block, state.blocks.head? = some block → block.base + depth < state.types.length := by
  unfold expect
  refine (operandType_finds depth).andThen ?_
  rintro found after ⟨rfl, operand, above⟩
  refine ensures_ite.mpr ⟨fun _ => ensures_throw, fun same => ensures_pure.mpr ⟨rfl, ?_, above⟩⟩
  rw [operand, Decidable.not_not.mp same]

end Compile

end WasmX64
